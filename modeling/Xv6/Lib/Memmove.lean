import Mathlib.Tactic

/-! # memmove

The kernel and the user library copy overlapping ranges in place. They choose
the direction by different tests, and both leave what a copy through a
temporary would leave.
-/

namespace Xv6.Memmove

open Function

/-- The address of a byte. -/
abbrev Addr := BitVec 64

abbrev Mem := Addr → UInt8

/-- `while(n-- > 0) *d++ = *s++;` -/
def copyUp : ℕ → Addr → Addr → Mem → Mem
  | 0, _, _, m => m
  | n + 1, d, s, m => copyUp n (d + 1) (s + 1) (update m d (m s))

/-- `while(n-- > 0) *--d = *--s;` -/
def copyDown : ℕ → Addr → Addr → Mem → Mem
  | 0, _, _, m => m
  | n + 1, d, s, m => copyDown n (d - 1) (s - 1) (update m (d - 1) (m (s - 1)))

/-- `memmove` of the kernel, whose `n` is unsigned. -/
def kernelMemmove (dst src : Addr) (n : BitVec 32) (m : Mem) : Mem :=
  if n = 0 then m
  else if src < dst ∧ dst < src + n.setWidth 64 then
    copyDown n.toNat (dst + n.setWidth 64) (src + n.setWidth 64) m
  else copyUp n.toNat dst src m

/-- `memmove` of the user library, whose `n` is signed. -/
def userMemmove (dst src : Addr) (n : BitVec 32) (m : Mem) : Mem :=
  if dst < src then copyUp n.toInt.toNat dst src m
  else copyDown n.toInt.toNat (dst + n.signExtend 64) (src + n.signExtend 64) m

/-- `m'` is `m` with the `n` bytes at `dst` replaced by those that `m` has at `src`. -/
structure Moved (m : Mem) (dst src : Addr) (n : ℕ) (m' : Mem) : Prop where
  copied : ∀ i < n, m' (dst + BitVec.ofNat 64 i) = m (src + BitVec.ofNat 64 i)
  frame : ∀ a, (∀ i < n, a ≠ dst + BitVec.ofNat 64 i) → m' a = m a

variable {dst src : Addr} {n : ℕ} {m : Mem}

/-- Going up is right if the destination does not start inside the source. -/
theorem copyUp_moved (hn : n < 2 ^ 64) (h : ∀ k, 0 < k → k < n → src + BitVec.ofNat 64 k ≠ dst) :
    Moved m dst src n (copyUp n dst src m) := by
  induction n generalizing dst src m with
  | zero => exact ⟨fun i hi => absurd hi (Nat.not_lt_zero i), fun a _ => rfl⟩
  | succ n ih =>
    have hsucc : ∀ (p : Addr) j, p + BitVec.ofNat 64 (j + 1) = p + 1 + BitVec.ofNat 64 j := by
      intro p j
      bv_omega
    have ih := @ih (dst + 1) (src + 1) (update m dst (m src)) (by omega)
      fun k hk hkn => by
        have := h k hk (by omega)
        bv_omega
    constructor
    · intro i hi
      cases i with
      | zero =>
        have hdst : ∀ j < n, dst ≠ dst + 1 + BitVec.ofNat 64 j := by
          intro j hj
          bv_omega
        simpa [copyUp] using ih.frame dst hdst
      | succ j =>
        rw [copyUp, hsucc dst, ih.copied j (by omega), ← hsucc src,
          update_of_ne (h (j + 1) (by omega) hi)]
    · intro a ha
      rw [copyUp, ih.frame a fun j hj => hsucc dst j ▸ ha (j + 1) (by omega),
        update_of_ne]
      simpa using ha 0 (by omega)

/-- Going down is right if the source does not start inside the destination. -/
theorem copyDown_moved (hn : n < 2 ^ 64) (h : ∀ k, 0 < k → k < n → dst + BitVec.ofNat 64 k ≠ src) :
    Moved m dst src n (copyDown n (dst + BitVec.ofNat 64 n) (src + BitVec.ofNat 64 n) m) := by
  induction n generalizing m with
  | zero => exact ⟨fun i hi => absurd hi (Nat.not_lt_zero i), fun a _ => rfl⟩
  | succ n ih =>
    have hpred : ∀ p : Addr, p + BitVec.ofNat 64 (n + 1) - 1 = p + BitVec.ofNat 64 n := by
      intro p
      bv_omega
    have ih := ih (m := update m (dst + BitVec.ofNat 64 n) (m (src + BitVec.ofNat 64 n)))
      (by omega) fun k hk hkn => h k hk (by omega)
    rw [copyDown, hpred, hpred]
    constructor
    · intro i hi
      rcases Nat.lt_succ_iff_lt_or_eq.mp hi with hin | rfl
      · rw [ih.copied i hin, update_of_ne]
        have := h (n - i) (by omega) (by omega)
        bv_omega
      · rw [ih.frame, update_self]
        intro j hj
        bv_omega
    · intro a ha
      rw [ih.frame a fun j hj => ha j (by omega), update_of_ne (ha n (by omega))]

variable {k : BitVec 32}

theorem kernelMemmove_moved (hk : k.toNat < 2 ^ 31) (hdst : dst.toNat + k.toNat ≤ 2 ^ 64)
    (hsrc : src.toNat + k.toNat ≤ 2 ^ 64) :
    Moved m dst src k.toNat (kernelMemmove dst src k m) := by
  have hset : k.setWidth 64 = BitVec.ofNat 64 k.toNat := by bv_omega
  unfold kernelMemmove
  split_ifs with h0 hlt
  · subst h0
    exact ⟨fun i hi => absurd hi (Nat.not_lt_zero i), fun a _ => rfl⟩
  · rw [hset]
    apply copyDown_moved (by omega)
    intro j hj hjk
    bv_omega
  · apply copyUp_moved (by omega)
    intro j hj hjk he
    apply hlt
    bv_omega

theorem userMemmove_moved (hk : k.toNat < 2 ^ 31) (hdst : dst.toNat + k.toNat ≤ 2 ^ 64)
    (hsrc : src.toNat + k.toNat ≤ 2 ^ 64) :
    Moved m dst src k.toNat (userMemmove dst src k m) := by
  have hint : k.toInt.toNat = k.toNat := by
    rw [BitVec.toInt_eq_toNat_of_lt (by omega), Int.toNat_natCast]
  have hmsb : k.msb = false := BitVec.msb_eq_false_iff_two_mul_lt.mpr (by omega)
  have hsign : k.signExtend 64 = BitVec.ofNat 64 k.toNat := by
    rw [BitVec.signExtend_eq_setWidth_of_msb_false hmsb]
    bv_omega
  unfold userMemmove
  rw [hint, hsign]
  split_ifs with hlt
  · apply copyUp_moved (by omega)
    intro j hj hjk
    bv_omega
  · apply copyDown_moved (by omega)
    intro j hj hjk
    bv_omega

/-- Both leave the bytes of the source at the destination and change nothing else. -/
theorem memmove_moved (m : Mem) (dst src : Addr) (n : BitVec 32) (hn : n.toNat < 2 ^ 31)
    (hdst : dst.toNat + n.toNat ≤ 2 ^ 64) (hsrc : src.toNat + n.toNat ≤ 2 ^ 64) :
    Moved m dst src n.toNat (kernelMemmove dst src n m) ∧
    Moved m dst src n.toNat (userMemmove dst src n m) :=
  ⟨kernelMemmove_moved hn hdst hsrc, userMemmove_moved hn hdst hsrc⟩

/-- Four bytes are moved up by two, the last of them to where the source had none. -/
theorem memmove_moved_up : ∃ m : Mem, m 3 = 3 ∧ kernelMemmove 2 0 4 m 5 = m 3 ∧
    userMemmove 2 0 4 m 5 = m 3 := by
  obtain ⟨hk, hu⟩ := memmove_moved (fun a => UInt8.ofNat a.toNat) 2 0 4 (by decide) (by decide)
    (by decide)
  exact ⟨_, rfl, hk.copied 3 (by decide), hu.copied 3 (by decide)⟩

end Xv6.Memmove

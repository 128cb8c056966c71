import Xv6.Proc.Pipe
import Xv6.Vm.UserCopy

/-! # Reading from a pipe into user memory

`piperead` takes each byte out of the pipe before it copies it out. A byte that
cannot be stored is lost.
-/

namespace Xv6.Vm

open Sys (Pipe)
open Xv6.Proc (Contents isEmpty getByte)

variable {s s' : Mem} {r addr i n k : ℕ} {pi pi' : Pipe} {q : List UInt8}

/-- The loop of `piperead`, from byte `i` on. -/
def pipereadFrom (r addr : ℕ) : ℕ → ℕ → Pipe → M (ℕ × Pipe)
  | 0, i, pi => pure (i, pi)
  | n + 1, i, pi =>
    if isEmpty pi then pure (i, pi)
    else do
      let x := getByte pi
      if ← copyout r ((addr + i) % 2 ^ 64) [x.1] then pipereadFrom r addr n (i + 1) x.2
      else pure (i, x.2)

/-- `piperead` into the address space `r`; the result is `none` if the process goes to sleep. -/
def piperead (r : ℕ) (pi : Pipe) (killed : Bool) (addr : ℕ) (n : ℤ) : M (Option ℤ × Pipe) :=
  if isEmpty pi ∧ pi.writeopen then pure (if killed then some (-1) else none, pi)
  else do
    let x ← pipereadFrom r addr n.toNat 0 pi
    pure (some (x.1 : ℤ), x.2)

/-- Of `n` bytes that are read from the queue `q` to the address `dst`, the first `k` have been
stored. The byte behind them has left the pipe too if there is no room for it. -/
structure Received (s s' : Mem) (r dst n : ℕ) (q : List UInt8) (pi' : Pipe) (k : ℕ) : Prop where
  le : k ≤ min n q.length
  access : ∀ j < k, s.Access r (dst + j)
  copied : Copied s s' r dst q k
  rest : (k = min n q.length ∧ Contents pi' (q.drop k)) ∨
    (k < min n q.length ∧ ¬s.Access r (dst + k) ∧ Contents pi' (q.drop (k + 1)))

theorem Copied.congr_src {dst : ℕ} {src src' : List UInt8} (h : Copied s s' r dst src n)
    (hs : ∀ j < n, src.getD j 0 = src'.getD j 0) : Copied s s' r dst src' n :=
  { h with inside := fun j hj => (h.inside j hj).trans (hs j hj) }

theorem Received.cons {s₁ : Mem} {dst : ℕ} {b : UInt8} (hs : Separate s r) (ha : s.Access r dst)
    (h₁ : Copied s s₁ r dst [b] 1) (h : Received s₁ s' r (dst + 1) n q pi' k) :
    Received s s' r dst (n + 1) (b :: q) pi' (k + 1) := by
  have hone : ∀ j < 1, s.Access r (dst + j) := by
    intro j hj
    obtain rfl : j = 0 := by omega
    exact ha
  have htab := h₁.table hs hone
  have hall : ∀ j < 1 + k, s.Access r (dst + j) := by
    intro j hj
    cases j with
    | zero => exact ha
    | succ j =>
      rw [add_comm j, ← add_assoc, ← Mem.access_congr htab]
      exact h.access j (by omega)
  have hmin : min (n + 1) (b :: q).length = min n q.length + 1 := by
    rw [List.length_cons]
    omega
  refine ⟨?_, fun j hj => hall j (by omega), ?_, ?_⟩
  · rw [hmin]
    exact Nat.succ_le_succ h.le
  · rw [add_comm]
    refine Copied.trans hs hall (h₁.congr_src fun j hj => ?_) h.copied
    obtain rfl : j = 0 := by omega
    rfl
  · rw [hmin, List.drop_succ_cons, List.drop_succ_cons, add_comm k, ← add_assoc dst,
      ← Mem.access_congr htab, add_comm 1]
    simpa using h.rest

/-- What the loop does to the pipe and to memory. -/
theorem wp_pipereadFrom (hs : Separate s r) (hq : Contents pi q) (hi : addr + i < 2 ^ 64) :
    wp (pipereadFrom r addr n i pi) NoPanic
      (fun x s' => ∃ k, x.1 = i + k ∧ Received s s' r (addr + i) n q x.2 k) s := by
  induction n generalizing i pi q s with
  | zero => exact ⟨0, rfl, by simp, nofun, .zero, .inl ⟨by simp, hq⟩⟩
  | succ n ih =>
    rw [pipereadFrom]
    cases he : isEmpty pi with
    | true =>
      obtain rfl := hq.isEmpty_iff.mp he
      exact ⟨0, rfl, by simp, nofun, .zero, .inl ⟨by simp, hq⟩⟩
    | false =>
      obtain ⟨q, rfl, hq'⟩ := hq.getByte he
      rw [if_neg (by simp), wp_bind, Nat.mod_eq_of_lt hi]
      refine (wp_copyout hs (addr + i) [(getByte pi).1]).post fun b s₁ h₁ => ?_
      obtain ⟨m, hreach, hcopy⟩ := h₁
      cases b with
      | true =>
        obtain rfl : m = 1 := hreach.complete rfl
        have ha : s.Access r (addr + i) := hreach.access 0 Nat.one_pos
        have hlt : addr + (i + 1) < 2 ^ 64 := by
          have := ha.1
          unfold MAXVA at this
          omega
        have hs₁ := hs.congr (hcopy.table hs hreach.access)
        refine (ih hs₁ hq' hlt).post fun x s' h => ?_
        obtain ⟨k, hx, hr⟩ := h
        exact ⟨k + 1, by omega, Received.cons hs ha hcopy hr⟩
      | false =>
        obtain ⟨hlt, hna⟩ := hreach.stop rfl
        obtain rfl : m = 0 := Nat.lt_one_iff.mp hlt
        exact ⟨0, rfl, Nat.zero_le _, nofun, hcopy.congr_src nofun, .inr ⟨by simp, hna, hq'⟩⟩

theorem Received.contents_iff {dst : ℕ} (h : Received s s' r dst n q pi' k) :
    Contents pi' (q.drop k) ↔ ∀ j < min n q.length, s.Access r (dst + j) := by
  rcases h.rest with ⟨rfl, hc⟩ | ⟨hlt, hna, hc⟩
  · exact iff_of_true hc h.access
  · refine iff_of_false (fun hc' => ?_) fun ha => hna (ha k hlt)
    have hlen := hc'.length_eq.symm.trans hc.length_eq
    rw [List.length_drop, List.length_drop] at hlen
    omega

theorem wp_piperead {n : ℤ} {killed : Bool} (hs : Separate s r) (hq : Contents pi q)
    (haddr : addr < 2 ^ 64) (hwait : ¬(isEmpty pi ∧ pi.writeopen)) :
    wp (piperead r pi killed addr n) NoPanic
      (fun x s' => ∃ i : ℕ, x.1 = some (i : ℤ) ∧ Received s s' r addr n.toNat q x.2 i) s := by
  rw [piperead, if_neg hwait, wp_bind]
  refine (wp_pipereadFrom (i := 0) hs hq haddr).post fun x s' h => ?_
  obtain ⟨k, hx, hr⟩ := h
  exact ⟨k, by rw [hx, Nat.zero_add], hr⟩

/-- A read that returns `i` has stored the first `i` bytes of the pipe in order. They are all that
it has removed just if each byte it was to read has a place in the address space. -/
theorem piperead_keeps_rest_iff (s : Mem) (r : ℕ) (hs : Separate s r) (pi : Pipe) (q : List UInt8)
    (hq : Contents pi q) (killed : Bool) (addr : ℕ) (haddr : addr < 2 ^ 64) (n : ℤ) :
    ∃ res pi' s', piperead r pi killed addr n s = .ok (res, pi') s' ∧
      ∀ i : ℕ, res = some (i : ℤ) → i ≤ q.length ∧ Copied s s' r addr q i ∧
        (Contents pi' (q.drop i) ↔ ∀ j < min n.toNat q.length, s.Access r (addr + j)) := by
  by_cases hwait : isEmpty pi ∧ pi.writeopen
  · rw [piperead, if_pos hwait]
    refine ⟨_, pi, s, rfl, fun i hi => ?_⟩
    cases killed with
    | false => cases hi
    | true => exact absurd (Option.some.inj hi) (by omega)
  · have hwp : wp (piperead r pi killed addr n) NoPanic _ s := wp_piperead hs hq haddr hwait
    obtain ⟨⟨res, pi'⟩, s', hrun, i, rfl, hr⟩ := hwp.returns
    refine ⟨_, pi', s', hrun, fun j hj => ?_⟩
    obtain rfl : i = j := Int.ofNat.inj (Option.some.inj hj)
    exact ⟨hr.le.trans (Nat.min_le_right _ _), hr.copied, hr.contents_iff⟩

/-- A pipe that holds one byte. -/
def onePipe : Pipe :=
  { data := fun _ => 7, nread := 0, nwrite := 1, readopen := true, writeopen := true }

theorem contents_onePipe : Contents onePipe [7] where
  dvd := by decide
  lt := by decide
  bound := by decide
  next := rfl
  le := by decide
  cell j hj := by
    obtain rfl : j = 0 := Nat.lt_one_iff.mp hj
    rfl

theorem booted_access (va : ℕ) (b : Bool)
    (h : (bootState 0 [] (tiny 8 (by decide))).any (fun s => decide ((s.proc 0).state ≠ .unused ∧
      decide (s.mem.Access (s.proc 0).pagetable va) = b)) = true) :
    ∃ s, Booted (tiny 8 (by decide)) s ∧ Separate s.mem (s.proc 0).pagetable ∧
      decide (s.mem.Access (s.proc 0).pagetable va) = b := by
  obtain ⟨s, hb, hs⟩ := exists_booted 0 [] h
  obtain ⟨hstate, ha⟩ := of_decide_eq_true hs
  exact ⟨s, hb, (booted_valid hb).inv.separate hstate, ha⟩

/-- The first process reads a byte to its first page. -/
theorem piperead_keeps_rest_iff_first : ∃ s : Kern, Booted (tiny 8 (by decide)) s ∧
    ∃ res pi' mem', piperead (s.proc 0).pagetable onePipe false 0 1 s.mem = .ok (res, pi') mem' ∧
      ∀ i : ℕ, res = some (i : ℤ) → Contents pi' (([7] : List UInt8).drop i) := by
  obtain ⟨s, hb, hsep, ha⟩ := booted_access 0 true (by decide +kernel)
  obtain ⟨res, pi', mem', hrun, h⟩ :=
    piperead_keeps_rest_iff s.mem _ hsep onePipe [7] contents_onePipe false 0 (by decide) 1
  refine ⟨s, hb, res, pi', mem', hrun, fun i hi => (h i hi).2.2.mpr fun j hj => ?_⟩
  obtain rfl : j = 0 := Nat.lt_one_iff.mp hj
  exact of_decide_eq_true ha

/-- The first process reads a byte to an address that it does not have. The read returns 0, and the
byte is gone. -/
theorem piperead_loses_byte : ∃ (s : Kern) (pi' : Pipe) (mem' : Mem),
    Booted (tiny 8 (by decide)) s ∧ Separate s.mem (s.proc 0).pagetable ∧ Contents onePipe [7] ∧
      piperead (s.proc 0).pagetable onePipe false 8192 1 s.mem = .ok (some 0, pi') mem' ∧
      ¬Contents pi' [7] := by
  obtain ⟨s, hb, hsep, ha⟩ := booted_access 8192 false (by decide +kernel)
  have hna := of_decide_eq_false ha
  have hwp : wp (piperead (s.proc 0).pagetable onePipe false 8192 1) NoPanic _ s.mem :=
    wp_piperead hsep contents_onePipe (by decide) (by decide)
  obtain ⟨⟨res, pi'⟩, mem', hrun, i, rfl, hr⟩ := hwp.returns
  obtain rfl : i = 0 := Nat.eq_zero_of_not_pos fun hi => hna (hr.access 0 hi)
  exact ⟨s, pi', mem', hb, hsep, contents_onePipe, hrun, fun h =>
    hna (hr.contents_iff.mp h 0 Nat.one_pos)⟩

end Xv6.Vm

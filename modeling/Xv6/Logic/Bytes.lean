import Mathlib.Tactic

/-! # Byte arrays and little-endian words

Fixed-length byte arrays are functions on `Fin n`. Single bytes, 16-bit and
32-bit little-endian words are read and written at byte offsets; a read past
the end gives zero and a write past the end has no effect.
-/

namespace Xv6

/-- An array of `n` bytes. -/
abbrev Bytes (n : ℕ) := Fin n → UInt8

variable {off len : ℕ}

namespace Bytes

variable {n : ℕ}

def get (a : Bytes n) (i : ℕ) : UInt8 := if h : i < n then a ⟨i, h⟩ else 0

def set (a : Bytes n) (i : ℕ) (v : UInt8) : Bytes n := fun j => if j.val = i then v else a j

def zero : Bytes n := fun _ => 0

/-- Overwrite `len` bytes from offset `off` on with the bytes of `src`. -/
def blit (a : Bytes n) (off : ℕ) (src : ℕ → UInt8) (len : ℕ) : Bytes n :=
  fun j => if off ≤ j.val ∧ j.val < off + len then src (j.val - off) else a j

def get16 (a : Bytes n) (i : ℕ) : ℕ := (a.get i).toNat + 256 * (a.get (i + 1)).toNat

def set16 (a : Bytes n) (i v : ℕ) : Bytes n :=
  (a.set i (UInt8.ofNat v)).set (i + 1) (UInt8.ofNat (v / 256))

def get32 (a : Bytes n) (i : ℕ) : ℕ := a.get16 i + 65536 * a.get16 (i + 2)

def set32 (a : Bytes n) (i v : ℕ) : Bytes n := (a.set16 i v).set16 (i + 2) (v / 65536)

def get64 (a : Bytes n) (i : ℕ) : ℕ := a.get32 i + 2 ^ 32 * a.get32 (i + 4)

def set64 (a : Bytes n) (i v : ℕ) : Bytes n :=
  (a.set32 i (v % 2 ^ 32)).set32 (i + 4) (v / 2 ^ 32 % 2 ^ 32)

variable {a : Bytes n} {i j v : ℕ}

theorem get_set (hi : i < n) (x : UInt8) : (a.set i x).get j = if j = i then x else a.get j := by
  unfold get set
  split_ifs with h₁ h₂ <;> simp_all

theorem get_set_of_ne (h : j ≠ i) (x : UInt8) : (a.set i x).get j = a.get j := by
  unfold get set
  split_ifs <;> simp_all

theorem eq_of_get {b : Bytes n} (h : ∀ i, a.get i = b.get i) : a = b := by
  funext j
  have := h j.val
  rwa [get, get, dif_pos j.isLt, dif_pos j.isLt] at this

@[simp] theorem get_zero : (zero : Bytes n).get i = 0 := by
  unfold get zero
  split_ifs <;> rfl

theorem get_blit (src : ℕ → UInt8) (h : off + len ≤ n) :
    (a.blit off src len).get j =
      if off ≤ j ∧ j < off + len then src (j - off) else a.get j := by
  unfold get blit
  by_cases hj : j < n
  · simp [hj]
  · rw [dif_neg hj, dif_neg hj, if_neg (by omega)]

theorem blit_congr {f g : ℕ → UInt8} (h : ∀ i < len, f i = g i) :
    a.blit off f len = a.blit off g len := by
  funext j
  unfold blit
  split_ifs with hj
  · exact h _ (by omega)
  · rfl

@[simp] theorem get16_zero : (zero : Bytes n).get16 i = 0 := by simp [get16]

@[simp] theorem get32_zero : (zero : Bytes n).get32 i = 0 := by simp [get32]

theorem get16_lt : a.get16 i < 65536 := by
  have h₁ := (a.get i).toNat_lt
  have h₂ := (a.get (i + 1)).toNat_lt
  unfold get16
  omega

theorem get32_lt : a.get32 i < 2 ^ 32 := by
  have h₁ := a.get16_lt (i := i)
  have h₂ := a.get16_lt (i := i + 2)
  unfold get32
  omega

theorem get16_set16 (hi : i + 1 < n) : (a.set16 i v).get16 i = v % 65536 := by
  have h₁ : (a.set16 i v).get i = UInt8.ofNat v := by
    rw [set16, get_set_of_ne (by omega), get_set (by omega), if_pos rfl]
  have h₂ : (a.set16 i v).get (i + 1) = UInt8.ofNat (v / 256) := by
    rw [set16, get_set hi, if_pos rfl]
  rw [get16, h₁, h₂, UInt8.toNat_ofNat', UInt8.toNat_ofNat']
  omega

theorem get16_set16_of_disjoint (h : j + 2 ≤ i ∨ i + 2 ≤ j) :
    (a.set16 i v).get16 j = a.get16 j := by
  unfold get16 set16
  rw [get_set_of_ne (by omega), get_set_of_ne (by omega), get_set_of_ne (by omega),
    get_set_of_ne (by omega)]

theorem get32_set32 (hi : i + 3 < n) (hv : v < 2 ^ 32) : (a.set32 i v).get32 i = v := by
  unfold get32 set32
  rw [get16_set16_of_disjoint (by omega), get16_set16 (by omega), get16_set16 (by omega)]
  omega

theorem get32_set32_of_disjoint (h : j + 4 ≤ i ∨ i + 4 ≤ j) :
    (a.set32 i v).get32 j = a.get32 j := by
  unfold get32 set32
  rw [get16_set16_of_disjoint (by omega), get16_set16_of_disjoint (by omega),
    get16_set16_of_disjoint (by omega), get16_set16_of_disjoint (by omega)]

theorem get_set32_of_disjoint (h : j < i ∨ i + 4 ≤ j) : (a.set32 i v).get j = a.get j := by
  unfold set32 set16
  rw [get_set_of_ne (by omega), get_set_of_ne (by omega), get_set_of_ne (by omega),
    get_set_of_ne (by omega)]

theorem get16_set32_of_disjoint (h : j + 2 ≤ i ∨ i + 4 ≤ j) :
    (a.set32 i v).get16 j = a.get16 j := by
  unfold set32
  rw [get16_set16_of_disjoint (by omega), get16_set16_of_disjoint (by omega)]

theorem get32_set16_of_disjoint (h : j + 4 ≤ i ∨ i + 2 ≤ j) :
    (a.set16 i v).get32 j = a.get32 j := by
  unfold get32
  rw [get16_set16_of_disjoint (by omega), get16_set16_of_disjoint (by omega)]

theorem get32_blit_of_le (src : ℕ → UInt8) (h : off + len ≤ n) (hi : i + 4 ≤ off) :
    (a.blit off src len).get32 i = a.get32 i := by
  unfold get32 get16
  simp only [get_blit src h]
  rw [if_neg (by omega), if_neg (by omega), if_neg (by omega), if_neg (by omega)]

theorem get64_lt : a.get64 i < 2 ^ 64 := by
  have h₁ := a.get32_lt (i := i)
  have h₂ := a.get32_lt (i := i + 4)
  unfold get64
  omega

theorem get64_congr {n' : ℕ} {b : Bytes n'} (h : ∀ k < 8, a.get (i + k) = b.get (j + k)) :
    a.get64 i = b.get64 j := by
  have h₀ := h 0 (by decide)
  have h₁ := h 1 (by decide)
  have h₂ := h 2 (by decide)
  have h₃ := h 3 (by decide)
  have h₄ := h 4 (by decide)
  have h₅ := h 5 (by decide)
  have h₆ := h 6 (by decide)
  have h₇ := h 7 (by decide)
  unfold get64 get32 get16
  simp only [Nat.add_assoc, Nat.reduceAdd, Nat.add_zero] at *
  rw [h₀, h₁, h₂, h₃, h₄, h₅, h₆, h₇]

theorem get64_set64 (hi : i + 7 < n) (hv : v < 2 ^ 64) : (a.set64 i v).get64 i = v := by
  unfold get64 set64
  rw [get32_set32_of_disjoint (by omega), get32_set32 (by omega) (Nat.mod_lt _ (by decide)),
    get32_set32 (by omega) (Nat.mod_lt _ (by decide))]
  omega

theorem get64_set64_of_disjoint (h : j + 8 ≤ i ∨ i + 8 ≤ j) :
    (a.set64 i v).get64 j = a.get64 j := by
  unfold get64 set64
  rw [get32_set32_of_disjoint (by omega), get32_set32_of_disjoint (by omega),
    get32_set32_of_disjoint (by omega), get32_set32_of_disjoint (by omega)]

@[simp] theorem get64_zero : (zero : Bytes n).get64 i = 0 := by simp [get64]

/-! ## Arrays and lists of bytes -/

/-- The bytes of the list come into the first cells. -/
def fill (a : Bytes n) (bs : List UInt8) : Bytes n := fun j => bs.getD j.val (a j)

theorem fill_ofFn (a b : Bytes n) : a.fill (List.ofFn b) = b := by
  funext j
  simp [fill]

/-! ## Stores

What is written into an array whose contents are not known. -/

/-- `w` writes exactly the cells of `S`, with values that do not depend on the old contents. -/
structure Fills (w : Bytes n → Bytes n) (S : Set ℕ) : Prop where
  inside : ∀ a b, ∀ j ∈ S, (w a).get j = (w b).get j
  outside : ∀ a, ∀ j ∉ S, (w a).get j = a.get j

namespace Fills

variable {w w' : Bytes n → Bytes n} {S S' : Set ℕ}

theorem id : Fills (n := n) (fun a => a) ∅ := ⟨nofun, fun _ _ _ => rfl⟩

theorem comp (h : Fills w S) (h' : Fills w' S') : Fills (fun a => w' (w a)) (S ∪ S') := by
  constructor
  · intro a b j hj
    by_cases hj' : j ∈ S'
    · exact h'.inside _ _ j hj'
    · rw [h'.outside _ j hj', h'.outside _ j hj']
      exact h.inside a b j (hj.resolve_right hj')
  · intro a j hj
    rw [Set.mem_union, not_or] at hj
    rw [h'.outside _ j hj.2, h.outside a j hj.1]

theorem congr (h : Fills w S) (hS : ∀ j, j ∈ S' ↔ j ∈ S) : Fills w S' := by
  obtain rfl : S' = S := Set.ext hS
  exact h

/-- Two runs end alike exactly where the old contents that are left agree. -/
theorem eq_iff (h : Fills w S) {R : Set ℕ} {a b : Bytes n} :
    (∀ j ∈ R, (w a).get j = (w b).get j) ↔ ∀ j ∈ R, j ∉ S → a.get j = b.get j := by
  constructor
  · intro hw j hj hS
    rw [← h.outside a j hS, ← h.outside b j hS, hw j hj]
  · intro hab j hj
    by_cases hS : j ∈ S
    · exact h.inside a b j hS
    · rw [h.outside a j hS, h.outside b j hS, hab j hj hS]

theorem set (hi : i < n) (x : UInt8) : Fills (n := n) (fun a => a.set i x) {i} := by
  constructor
  · rintro a b j rfl
    rw [get_set hi, get_set hi, if_pos rfl, if_pos rfl]
  · intro a j hj
    exact get_set_of_ne hj x

theorem set16 (hi : i + 1 < n) (v : ℕ) :
    Fills (n := n) (fun a => a.set16 i v) (Set.Ico i (i + 2)) := by
  refine ((set (by omega) _).comp (set hi _)).congr fun j => ?_
  simp only [Set.mem_Ico, Set.mem_union, Set.mem_singleton_iff]
  omega

theorem set32 (hi : i + 3 < n) (v : ℕ) :
    Fills (n := n) (fun a => a.set32 i v) (Set.Ico i (i + 4)) := by
  refine ((set16 (by omega) _).comp (set16 (i := i + 2) (by omega) _)).congr fun j => ?_
  simp only [Set.mem_Ico, Set.mem_union]
  omega

theorem set64 (hi : i + 7 < n) (v : ℕ) :
    Fills (n := n) (fun a => a.set64 i v) (Set.Ico i (i + 8)) := by
  refine ((set32 (by omega) _).comp (set32 (i := i + 4) (by omega) _)).congr fun j => ?_
  simp only [Set.mem_Ico, Set.mem_union]
  omega

theorem blit (h : off + len ≤ n) (src : ℕ → UInt8) :
    Fills (n := n) (fun a => a.blit off src len) (Set.Ico off (off + len)) := by
  constructor
  · intro a b j hj
    rw [Set.mem_Ico] at hj
    rw [get_blit src h, get_blit src h, if_pos hj, if_pos hj]
  · intro a j hj
    rw [Set.mem_Ico] at hj
    rw [get_blit src h, if_neg hj]

end Fills

end Bytes

end Xv6

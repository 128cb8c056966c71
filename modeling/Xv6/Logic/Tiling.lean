import Mathlib.Tactic

/-! # Tilings by extents

An extent is a start and a length. Two lists of extents are the same bytes if every
point lies in as many extents of the one as of the other and the lengths add up to
the same sum; cutting an extent in two leaves the bytes the same.
-/

namespace Xv6.Tiling

abbrev Extent := ℕ × ℕ

/-- The point `x` lies in the extent. -/
def Extent.Has (b : Extent) (x : ℕ) : Prop := b.1 ≤ x ∧ x < b.1 + b.2

instance (b : Extent) (x : ℕ) : Decidable (b.Has x) := inferInstanceAs (Decidable (_ ∧ _))

/-- The number of extents that contain `x`. -/
def cover (bs : List Extent) (x : ℕ) : ℕ := bs.countP fun b => b.Has x

/-- The sum of the lengths. -/
def total (bs : List Extent) : ℕ := (bs.map Prod.snd).sum

structure SameBytes (bs gs : List Extent) : Prop where
  cover : ∀ x, cover bs x = cover gs x
  total : total bs = total gs

/-- No point lies in two extents. -/
def Separate (bs : List Extent) : Prop := ∀ x, cover bs x ≤ 1

/-- Extents without a common point lie side by side. -/
theorem Extent.apart {b b' : Extent} (h : ∀ x, ¬ (b.Has x ∧ b'.Has x)) (hb : 0 < b.2)
    (hb' : 0 < b'.2) : b.1 + b.2 ≤ b'.1 ∨ b'.1 + b'.2 ≤ b.1 := by
  by_contra hne
  refine h (max b.1 b'.1) ⟨⟨?_, ?_⟩, ?_, ?_⟩ <;> omega

variable {bs bs' gs : List Extent} {b b' : Extent} {a m n x : ℕ}

@[simp] theorem cover_nil : cover [] x = 0 := rfl

@[simp] theorem cover_cons : cover (b :: bs) x = cover bs x + if b.Has x then 1 else 0 := by
  simp [cover, List.countP_cons]

@[simp] theorem cover_append : cover (bs ++ bs') x = cover bs x + cover bs' x :=
  List.countP_append

@[simp] theorem total_nil : total [] = 0 := rfl

@[simp] theorem total_cons : total (b :: bs) = b.2 + total bs := by simp [total]

@[simp] theorem total_append : total (bs ++ bs') = total bs + total bs' := by simp [total]

theorem cover_pos : 0 < cover bs x ↔ ∃ b ∈ bs, b.Has x := by
  simp [cover, List.countP_pos_iff]

namespace SameBytes

theorem of_perm (h : bs.Perm bs') : SameBytes bs bs' where
  cover _ := h.countP_eq _
  total := (h.map _).sum_eq

theorem trans (h : SameBytes bs bs') (h' : SameBytes bs' gs) : SameBytes bs gs where
  cover x := (h.cover x).trans (h'.cover x)
  total := h.total.trans h'.total

theorem symm (h : SameBytes bs gs) : SameBytes gs bs where
  cover x := (h.cover x).symm
  total := h.total.symm

theorem append {cs ds : List Extent} (h : SameBytes bs gs) (h' : SameBytes cs ds) :
    SameBytes (bs ++ cs) (gs ++ ds) where
  cover x := by rw [cover_append, cover_append, h.cover, h'.cover]
  total := by rw [total_append, total_append, h.total, h'.total]

theorem refl (bs : List Extent) : SameBytes bs bs := ⟨fun _ => rfl, rfl⟩

/-- An extent can be cut in two. -/
theorem split (a m n : ℕ) (bs : List Extent) :
    SameBytes ((a, m + n) :: bs) ((a, m) :: (a + m, n) :: bs) where
  cover x := by
    simp only [cover_cons]
    split_ifs <;> simp only [Extent.Has] at * <;> omega
  total := by
    simp only [total_cons]
    omega

/-- A point of an extent lies in an extent of the same bytes. -/
theorem exists_has (h : SameBytes bs gs) (hb : b ∈ bs) (hx : b.Has x) : ∃ g ∈ gs, g.Has x := by
  rw [← cover_pos, ← h.cover x]
  exact cover_pos.mpr ⟨b, hb, hx⟩

theorem separate (h : SameBytes bs gs) (hg : Separate gs) : Separate bs :=
  fun x => (h.cover x).trans_le (hg x)

end SameBytes

namespace Separate

theorem pairwise (h : Separate bs) : bs.Pairwise fun b b' => ∀ x, ¬ (b.Has x ∧ b'.Has x) := by
  induction bs with
  | nil => exact .nil
  | cons b bs ih =>
    refine List.pairwise_cons.mpr ⟨?_, ih fun x => ?_⟩
    · rintro b' hb' x ⟨hx, hx'⟩
      have hpos : 0 < cover bs x := cover_pos.mpr ⟨b', hb', hx'⟩
      have := h x
      rw [cover_cons, if_pos hx] at this
      omega
    · have := h x
      rw [cover_cons] at this
      omega

/-- An extent behind all others. -/
theorem cons (h : Separate bs) (hb : ∀ b' ∈ bs, b'.1 + b'.2 ≤ b.1) : Separate (b :: bs) := by
  intro x
  rw [cover_cons]
  split_ifs with hx
  · have hzero : cover bs x = 0 := by
      by_contra hne
      obtain ⟨b', hb', hx'⟩ := cover_pos.mp (Nat.pos_of_ne_zero hne)
      have := hb b' hb'
      unfold Extent.Has at hx hx'
      omega
    omega
  · exact h x

end Separate

end Xv6.Tiling

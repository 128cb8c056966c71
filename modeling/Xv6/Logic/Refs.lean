import Mathlib.Tactic

/-! # Reference counts

Slots that each refer to at most one object. An object's reference count is the
number of slots that refer to it.
-/

namespace Xv6

open Function

variable {ι κ : Type} [Fintype ι] [DecidableEq ι] [DecidableEq κ]

/-- How many slots refer to `k`. -/
def refs (slot : ι → Option κ) (k : κ) : ℕ := (Finset.univ.filter fun i => slot i = some k).card

variable {slot : ι → Option κ} {i : ι} {o : Option κ} {k : κ}

omit [DecidableEq ι] in
theorem refs_pos : 0 < refs slot k ↔ ∃ i, slot i = some k := by
  simp [refs, Finset.card_pos, Finset.Nonempty]

omit [DecidableEq ι] in
theorem refs_eq_zero (h : ∀ i, slot i ≠ some k) : refs slot k = 0 := by
  simp [refs, h]

/-- One slot changes. -/
theorem refs_update (slot : ι → Option κ) (i : ι) (o : Option κ) (k : κ) :
    refs (update slot i o) k + (if slot i = some k then 1 else 0) =
      refs slot k + if o = some k then 1 else 0 := by
  have hrest : ∀ f : ι → Option κ, refs f k =
      ((Finset.univ.erase i).filter fun j => f j = some k).card + if f i = some k then 1 else 0 := by
    intro f
    rw [refs, ← Finset.insert_erase (Finset.mem_univ i), Finset.filter_insert]
    split
    · rw [Finset.card_insert_of_notMem (by simp), Finset.erase_insert (by simp)]
    · rw [Finset.erase_insert (by simp), Nat.add_zero]
  have hsame : ((Finset.univ.erase i).filter fun j => update slot i o j = some k) =
      (Finset.univ.erase i).filter fun j => slot j = some k := by
    refine Finset.filter_congr fun j hj => ?_
    rw [update_of_ne (Finset.ne_of_mem_erase hj)]
  rw [hrest (update slot i o), hrest slot, hsame, update_self]
  omega

/-- An empty slot is filled. -/
theorem refs_fill {k' : κ} (h : slot i = none) :
    refs (update slot i (some k')) k = refs slot k + if k' = k then 1 else 0 := by
  have := refs_update slot i (some k') k
  simpa [h] using this

/-- A slot is cleared. -/
theorem refs_clear {k' : κ} (h : slot i = some k') :
    refs (update slot i none) k + (if k' = k then 1 else 0) = refs slot k := by
  have := refs_update slot i none k
  simpa [h] using this

omit [Fintype ι] [DecidableEq κ] in
/-- Two free slots are filled and cleared again. -/
theorem update_back {j : ι} {l : κ}
    (hi : slot i = none) (hj : update slot i (some k) j = none) :
    update (update (update (update slot i (some k)) j (some l)) i
      none) j none = slot := by
  have hji : j ≠ i := by
    rintro rfl
    simp at hj
  rw [update_of_ne hji] at hj
  rw [update_comm hji.symm, update_idem, update_comm hji,
    update_idem, ← hj, update_comm hji.symm, update_eq_self, hj, ← hi,
    update_eq_self]

end Xv6

import Mathlib.Tactic

/-! # Exclusive slots

A set of slots holds addresses, zero standing for none, and a bitmap marks the
addresses in use. The addresses below `lo` are always in use; those from `lo` up
to `hi` are in use exactly if a slot holds them, and no address is in two slots.
-/

namespace Xv6

open Function

variable {ι : Type} {f : ι → ℕ} {used : ℕ → Bool} {lo hi b : ℕ} {x y : ι}

structure Exclusive (f : ι → ℕ) (used : ℕ → Bool) (lo hi : ℕ) : Prop where
  pos : 0 < lo
  inj : ∀ x y, f x ≠ 0 → f x = f y → x = y
  area : ∀ x, f x ≠ 0 → lo ≤ f x ∧ f x < hi
  used_iff : ∀ b < hi, used b = true ↔ b < lo ∨ ∃ x, f x = b

namespace Exclusive

theorem used_of_ne (h : Exclusive f used lo hi) (hx : f x ≠ 0) : used (f x) = true :=
  (h.used_iff _ (h.area x hx).2).mpr (.inr ⟨x, rfl⟩)

theorem not_held (h : Exclusive f used lo hi) (hb : b < hi) (hu : used b = false) (x : ι) :
    f x ≠ b := by
  rintro rfl
  have := (h.used_iff _ hb).mpr (.inr ⟨x, rfl⟩)
  simp [hu] at this

theorem lo_le (h : Exclusive f used lo hi) (hb : b < hi) (hu : used b = false) : lo ≤ b := by
  by_contra hlt
  have := (h.used_iff b hb).mpr (.inl (by omega))
  simp [hu] at this

theorem exists_of_used (h : Exclusive f used lo hi) (hlo : lo ≤ b) (hb : b < hi)
    (hu : used b = true) : ∃ x, f x = b :=
  ((h.used_iff b hb).mp hu).resolve_left (by omega)

variable [DecidableEq ι]

/-- Put an unused address into an empty slot. -/
theorem assign (h : Exclusive f used lo hi) (hx : f x = 0) (hb : b < hi) (hu : used b = false) :
    Exclusive (update f x b) (update used b true) lo hi where
  pos := h.pos
  inj y z := by
    have hn := h.not_held hb hu
    simp only [update_apply]
    split_ifs with hy hz hz
    · exact fun _ _ => hy.trans hz.symm
    · exact fun _ he => absurd he.symm (hn z)
    · exact fun _ he => absurd he (hn y)
    · exact h.inj y z
  area y := by
    simp only [update_apply]
    split_ifs
    · exact fun _ => ⟨h.lo_le hb hu, hb⟩
    · exact h.area y
  used_iff c hc := by
    rcases eq_or_ne c b with rfl | hcb
    · simp only [update_self, true_iff]
      exact .inr ⟨x, update_self ..⟩
    · rw [update_of_ne hcb, h.used_iff c hc]
      constructor
      · rintro (hlo | ⟨y, rfl⟩)
        · exact .inl hlo
        · rcases eq_or_ne y x with rfl | hy
          · exact .inl (by have := h.pos; omega)
          · exact .inr ⟨y, update_of_ne hy ..⟩
      · rintro (hlo | ⟨y, hy⟩)
        · exact .inl hlo
        · rw [update_apply] at hy
          split_ifs at hy
          · exact absurd hy.symm hcb
          · exact .inr ⟨y, hy⟩

/-- Take the address out of a slot. -/
theorem release (h : Exclusive f used lo hi) (hx : f x ≠ 0) :
    Exclusive (update f x 0) (update used (f x) false) lo hi where
  pos := h.pos
  inj y z := by
    simp only [update_apply]
    split_ifs
    · exact fun h0 => absurd rfl h0
    · exact fun h0 => absurd rfl h0
    · exact fun h0 he => absurd he h0
    · exact h.inj y z
  area y := by
    simp only [update_apply]
    split_ifs
    · exact fun h0 => absurd rfl h0
    · exact h.area y
  used_iff c hc := by
    have hpos := h.pos
    rcases eq_or_ne c (f x) with rfl | hcb
    · have hlo := (h.area x hx).1
      simp only [update_self, Bool.false_eq_true, false_iff, not_or, not_exists]
      refine ⟨by omega, fun y hy => ?_⟩
      rw [update_apply] at hy
      split_ifs at hy with hyx
      · exact hx hy.symm
      · exact hyx (h.inj x y hx hy.symm).symm
    · rw [update_of_ne hcb, h.used_iff c hc]
      constructor
      · rintro (hlo | ⟨y, rfl⟩)
        · exact .inl hlo
        · have hy : y ≠ x := fun e => hcb (e ▸ rfl)
          exact .inr ⟨y, update_of_ne hy ..⟩
      · rintro (hlo | ⟨y, hy⟩)
        · exact .inl hlo
        · rw [update_apply] at hy
          split_ifs at hy
          · exact .inl (by omega)
          · exact .inr ⟨y, hy⟩

end Exclusive

end Xv6

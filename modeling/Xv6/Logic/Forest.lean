import Mathlib.Tactic

/-! # Parent pointers

`climb parent n x` follows `n` parent pointers. When each pointer leads to a
smaller rank there is no cycle, and a climb that can only stop at the root
reaches it.
-/

namespace Xv6

variable {α : Type} {parent : α → Option α} {rank : α → ℕ} {root x y : α} {n : ℕ}

def climb (parent : α → Option α) : ℕ → α → Option α
  | 0, x => some x
  | n + 1, x => (parent x).bind (climb parent n)

theorem rank_climb_le (hr : ∀ x y, parent x = some y → rank y < rank x)
    (h : climb parent n x = some y) : rank y + n ≤ rank x := by
  induction n generalizing x with
  | zero =>
    cases h
    exact Nat.le_refl _
  | succ n ih =>
    obtain ⟨z, hz, hc⟩ := Option.bind_eq_some_iff.mp h
    have h₁ := hr x z hz
    have h₂ := ih hc
    omega

theorem climb_ne_self (rank : α → ℕ) (hr : ∀ x y, parent x = some y → rank y < rank x) (hn : 0 < n) :
    climb parent n x ≠ some x := by
  intro h
  have := rank_climb_le hr h
  omega

/-- What has a parent, up to the root, in a set closed under parents reaches the root. -/
theorem exists_climb_root (P : α → Prop) (rank : α → ℕ)
    (hr : ∀ x y, parent x = some y → rank y < rank x)
    (hP : ∀ x, P x → x ≠ root → ∃ y, parent x = some y ∧ P y) (hx : P x) :
    ∃ n, climb parent n x = some root := by
  induction hk : rank x using Nat.strong_induction_on generalizing x with
  | _ k ih =>
    by_cases he : x = root
    · exact ⟨0, congrArg some he⟩
    · obtain ⟨y, hy, hPy⟩ := hP x hx he
      obtain ⟨n, hn⟩ := ih (rank y) (hk ▸ hr x y hy) hPy rfl
      exact ⟨n + 1, by rw [climb, hy]; exact hn⟩

end Xv6

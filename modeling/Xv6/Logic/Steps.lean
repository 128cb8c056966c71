import Mathlib.Tactic

/-! # Runs of labelled transition systems

`Run next s l t` says that the labels `l` lead from `s` to `t`. A step function
that may refuse a label or stop with an error gives the relation `Next` of its
regular steps, and `exec` follows a given list of labels.
-/

namespace Xv6

variable {σ α ε : Type}

inductive Run (next : σ → α → σ → Prop) : σ → List α → σ → Prop
  | nil (s : σ) : Run next s [] s
  | cons {s s' t : σ} {a : α} {l : List α} : next s a s' → Run next s' l t → Run next s (a :: l) t

namespace Run

variable {next : σ → α → σ → Prop} {s s' t : σ} {a : α} {l l' : List α}

theorem append (h : Run next s l s') (h' : Run next s' l' t) : Run next s (l ++ l') t := by
  induction h with
  | nil _ => exact h'
  | cons hs _ ih => exact .cons hs (ih h')

theorem single (h : next s a t) : Run next s [a] t := .cons h (.nil t)

theorem snoc (h : Run next s l s') (h' : next s' a t) : Run next s (l ++ [a]) t :=
  h.append (single h')

/-- What every step with a label of the list keeps, the run keeps. -/
theorem invariant {I : σ → Prop} (h : Run next s l t)
    (hstep : ∀ s a s', a ∈ l → next s a s' → I s → I s') (hs : I s) : I t := by
  induction h with
  | nil _ => exact hs
  | cons h _ ih =>
    refine ih (fun s b s' hb => hstep s b s' (List.mem_cons_of_mem _ hb)) ?_
    exact hstep _ _ _ List.mem_cons_self h hs

end Run

variable (step : σ → α → Option (Except ε σ))

/-- The label is accepted and the step does not stop with an error. -/
@[grind =] def Next (s : σ) (a : α) (s' : σ) : Prop := step s a = some (.ok s')

/-- The state after a list of regular steps. -/
def exec : σ → List α → Option σ
  | s, [] => some s
  | s, a :: l =>
    match step s a with
    | some (.ok s') => exec s' l
    | _ => none

theorem run_of_exec {s t : σ} {l : List α} (h : exec step s l = some t) :
    Run (Next step) s l t := by
  induction l generalizing s with
  | nil =>
    cases h
    exact .nil _
  | cons a l ih =>
    rw [exec] at h
    split at h
    next s' hs => exact .cons hs (ih h)
    next => cases h

/-- A property of the last state that can be evaluated. -/
theorem exists_of_exec {s : σ} {l : List α} {P : σ → Prop} [DecidablePred P]
    (h : (exec step s l).any (fun t => decide (P t)) = true) : ∃ t, exec step s l = some t ∧ P t := by
  cases he : exec step s l with
  | none => simp [he] at h
  | some t =>
    rw [he] at h
    exact ⟨t, rfl, of_decide_eq_true h⟩

/-- The steps that meet a condition on the state before them. -/
def restrict (c : σ → α → Prop) [∀ s a, Decidable (c s a)] (s : σ) (a : α) :
    Option (Except ε σ) := if c s a then step s a else none

theorem next_restrict {c : σ → α → Prop} [∀ s a, Decidable (c s a)] {s s' : σ} {a : α} :
    Next (restrict step c) s a s' ↔ c s a ∧ Next step s a s' := by
  unfold Next restrict
  split <;> simp_all

end Xv6

import Xv6.Log.Protocol

/-! # Operations are committed whole

A commit starts only when no operation is running, and none is admitted before
it is over. The blocks of an operation are therefore all on the list from its
`end_op` until the commit that follows clears the list.
-/

namespace Xv6.Journal

open Buffer

variable {P : Type} [DecidableEq P] {s s' : State P} {p : P} {a : Act}

/-- Only the assignment `log.lh.n = 0` takes blocks off the list. -/
theorem mem_lh_of_next {b : ℕ} (hn : Next step s (p, a) s') (ha : a ≠ .clear)
    (hb : b ∈ s.log.lh) : b ∈ s'.log.lh := by
  obtain ⟨log, pc, hm, rfl⟩ := moves_of_next hn
  rw [goto_log]
  generalize s.pc p = c at hm
  cases hm with
  | wait _ => exact hb
  | beginOp h =>
    obtain ⟨-, -, rfl⟩ := beginOp_eq_some h
    exact hb
  | logWrite h =>
    rcases (logWrite_eq_ok h).2 with ⟨-, rfl⟩ | ⟨-, rfl⟩
    · exact hb
    · exact List.mem_append_left _ hb
  | endOp h =>
    obtain ⟨-, -, rfl⟩ := endOp_eq_ok h
    exact hb
  | commit _ _ => exact hb
  | clear => exact absurd rfl ha
  | unlock => exact hb

variable {bs : List ℕ}

/-- A running operation stays running until its `end_op`, and remembers what it logs. -/
theorem running_of_next {q : P} (hp : s.pc p = .running bs) (hn : Next step s (q, a) s')
    (ha : (q, a) ≠ (p, .endOp)) :
    ∃ bs', s'.pc p = .running bs' ∧ bs ⊆ bs' ∧ ∀ b, (q, a) = (p, .logWrite b) → b ∈ bs' := by
  obtain ⟨log, pc, hm, rfl⟩ := moves_of_next hn
  by_cases hq : p = q
  · subst hq
    rw [hp] at hm
    cases hm with
    | wait h => simp at h
    | @logWrite _ _ c h =>
      refine ⟨c :: bs, goto_pc_self .., List.subset_cons_self c bs, fun b hb => ?_⟩
      cases hb
      exact List.mem_cons_self
    | endOp h => exact absurd rfl ha
    | commit h _ => exact h.elim
  · refine ⟨bs, ?_, List.Subset.refl bs, fun b hb => ?_⟩
    · rw [goto_pc_of_ne _ _ _ hq, hp]
    · cases hb
      exact absurd rfl hq

theorem running_of_run {l : List (P × Act)} (hr : Run (Next step) s l s')
    (hp : s.pc p = .running bs) (hl : (p, .endOp) ∉ l) :
    ∃ bs', s'.pc p = .running bs' ∧ bs ⊆ bs' ∧ ∀ b, (p, .logWrite b) ∈ l → b ∈ bs' := by
  induction hr generalizing bs with
  | nil s => exact ⟨bs, hp, List.Subset.refl bs, by simp⟩
  | @cons s s₁ t a l hn _ ih =>
    rw [List.mem_cons, not_or] at hl
    obtain ⟨bs₁, hp₁, hsub₁, hw₁⟩ := running_of_next hp hn (Ne.symm hl.1)
    obtain ⟨bs₂, hp₂, hsub₂, hw₂⟩ := ih hp₁ hl.2
    refine ⟨bs₂, hp₂, List.Subset.trans hsub₁ hsub₂, fun b hb => ?_⟩
    rcases List.mem_cons.mp hb with rfl | hb
    · exact hsub₂ (hw₁ b rfl)
    · exact hw₂ b hb

variable [Fintype P]

namespace Consistent

omit [DecidableEq P] in
theorem committing_eq_false (h : Consistent s) (hp : s.pc p = .running bs) :
    s.log.committing = false := by
  rw [← Bool.not_eq_true]
  exact fun hc => h.not_running hc p bs hp

/-- The only panic left is the one for lack of space. -/
theorem panic_eq_tooBig {e : Halt} (h : Consistent s) (he : step s (p, a) = some (.error e)) :
    e = .tooBig := by
  obtain ⟨bs, hpc, hcase⟩ := move_eq_error (step_eq_error he)
  rcases hcase with ⟨b, -, hw⟩ | ⟨-, hend⟩
  · rcases logWrite_eq_error hw with ⟨rfl, -⟩ | ⟨-, hout⟩
    · rfl
    · have := State.ops_pos hpc
      have := h.outstanding
      omega
  · have hc := (endOp_eq_error hend).2
    rw [h.committing_eq_false hpc] at hc
    cases hc

/-- While a process commits, no `log_write` and no `begin_op` completes. -/
theorem blocked {q : P} (h : Consistent s) (hp : (s.pc p).Commits) :
    (∀ b, step s (q, .logWrite b) = none) ∧ ∀ s', Next step s (q, .beginOp) s' → s' = s := by
  have hc := h.commits p hp
  constructor
  · intro b
    cases hq : s.pc q with
    | running bs => exact absurd hq (h.not_running hc q bs)
    | _ => simp [step, hq, move]
  · intro s' hn
    obtain ⟨log, pc, hm, rfl⟩ := moves_of_next hn
    generalize hq : s.pc q = c at hm
    cases hm with
    | wait hw =>
      rcases hw with rfl | rfl
      · simp [Next, step, hq, move] at hn
      · rw [State.goto, ← hq, Function.update_eq_self]
    | beginOp hb =>
      rw [(beginOp_eq_some hb).1] at hc
      cases hc

end Consistent

/-- Operations are committed whole. While `commit` runs the log is closed to operations; the list
has no block twice; the panics on a wrong state of the log are unreachable; and from its `begin_op`
to its `end_op` no commit runs beside an operation, whose blocks are then all on the list until the
list is cleared by the commit. -/
theorem log_grouping {start size : ℕ} {l : List (P × Act)}
    (h : Run (Next step) (init start size) l s) :
    (∀ p, (s.pc p).Commits → s.log.committing = true ∧ s.log.outstanding = 0 ∧
      (∀ q b, step s (q, .logWrite b) = none) ∧ ∀ q s', Next step s (q, .beginOp) s' → s' = s) ∧
    s.log.lh.Nodup ∧
    (∀ x, step s x ≠ some (.error .committing) ∧ step s x ≠ some (.error .outsideTrans)) ∧
    (∀ p op s₁ s₂, Next step s (p, .beginOp) s₁ → s₁.pc p = .running [] →
      Run (Next step) s₁ op s₂ → (p, .endOp) ∉ op →
      (∀ q, ¬ (s₂.pc q).Commits) ∧
      ∀ s₃ post s₄, Next step s₂ (p, .endOp) s₃ → Run (Next step) s₃ post s₄ →
        (∀ q, (q, .clear) ∉ post) → ∀ b, (p, .logWrite b) ∈ op → b ∈ s₄.log.lh) := by
  have hs := consistent_of_run h
  refine ⟨fun p hp => ?_, hs.nodup, fun x => ?_, fun p op s₁ s₂ hbegin hbegun hop hend => ?_⟩
  · have hc := hs.commits p hp
    refine ⟨hc, ?_, fun q => (hs.blocked hp).1, fun q => (hs.blocked hp).2⟩
    rw [hs.outstanding, hs.quiet hc]
    rfl
  · obtain ⟨p, a⟩ := x
    constructor
    · intro he
      cases hs.panic_eq_tooBig he
    · intro he
      cases hs.panic_eq_tooBig he
  · have hs₂ : Consistent s₂ := hop.invariant (fun _ _ _ _ hn hs => hs.next hn) (hs.next hbegin)
    obtain ⟨bs, hp₂, -, hlogged⟩ := running_of_run hop hbegun hend
    refine ⟨fun q hq => ?_, fun s₃ post s₄ hn hpost hclear b hb => ?_⟩
    · have hc := hs₂.commits q hq
      rw [hs₂.committing_eq_false hp₂] at hc
      cases hc
    · have hb₂ : b ∈ s₂.log.lh := hs₂.logged p b (by rw [hp₂]; exact hlogged b hb)
      have hb₃ : b ∈ s₃.log.lh := mem_lh_of_next hn (by simp) hb₂
      refine hpost.invariant (I := fun s => b ∈ s.log.lh) (fun s x s' hx hn => ?_) hb₃
      obtain ⟨q, a⟩ := x
      refine mem_lh_of_next hn ?_
      rintro rfl
      exact hclear q hx

/-- The state of two processes after the given steps. -/
def twoAfter (l : List (Fin 2 × Act)) : State (Fin 2) :=
  (exec step (init 2 LOGSIZE) l).getD (init 2 LOGSIZE)

/-- The calls of two overlapping operations up to the `end_op` of the first. -/
def overlap : List (Fin 2 × Act) :=
  [(0, .enter), (1, .enter), (0, .beginOp), (1, .beginOp), (0, .logWrite 46), (0, .endOp)]

/-- The second operation ends and goes on to write the header. -/
def secondEnds : List (Fin 2 × Act) :=
  [(1, .logWrite 47), (1, .endOp), (1, .commit), (1, .commit), (1, .commit), (1, .commit)]

theorem overlap_grouped : (twoAfter (overlap ++ secondEnds)).pc 1 = .writeHead ∧
    46 ∈ (twoAfter (overlap ++ secondEnds)).log.lh := by
  have hrun : Run (Next step) (init 2 LOGSIZE) (overlap.take 2) (twoAfter (overlap.take 2)) :=
    run_of_exec _ rfl
  have hop : Run (Next step) (twoAfter (overlap.take 3)) [(1, .beginOp), (0, .logWrite 46)]
      (twoAfter (overlap.take 5)) := run_of_exec _ rfl
  have hpost : Run (Next step) (twoAfter overlap) secondEnds (twoAfter (overlap ++ secondEnds)) :=
    run_of_exec _ rfl
  refine ⟨rfl, ?_⟩
  exact ((log_grouping hrun).2.2.2 0 _ _ _ rfl rfl hop (by decide)).2 _ _ _ rfl hpost (by decide)
    46 (by decide)

end Xv6.Journal

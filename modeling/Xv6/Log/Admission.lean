import Xv6.Log.Protocol

/-! # Log space

`begin_op` reserves `MAXOPBLOCKS` blocks for each outstanding operation out of
`LOGSIZE`, while `log_write` stops at `log.size - 1` blocks, and it does so even
for a block that it would absorb. The room left over decides whether the
outstanding operations can use what they were promised.
-/

namespace Xv6.Journal

open Buffer

/-- The number of blocks a running operation may still log. -/
def Pc.unused : Pc → ℕ
  | .running bs => MAXOPBLOCKS - bs.toFinset.card
  | _ => 0

variable {P : Type} [DecidableEq P]

/-- The operation keeps to `MAXOPBLOCKS` distinct blocks. -/
def WithinBudget (s : State P) : P × Act → Prop
  | (p, .logWrite b) => (b :: (s.pc p).logged).toFinset.card ≤ MAXOPBLOCKS
  | _ => True

instance (s : State P) (a : P × Act) : Decidable (WithinBudget s a) := by
  unfold WithinBudget
  split <;> infer_instance

/-- A step of operations that keep to their budget. -/
def budgetStep (s : State P) (a : P × Act) : Option (Except Halt (State P)) :=
  if WithinBudget s a then step s a else none

variable [Fintype P]

/-- The number of blocks the outstanding operations may still log. -/
def State.unused (s : State P) : ℕ := ∑ p, (s.pc p).unused

/-- An operation that is admitted now leaves room for the budgets of all outstanding ones, and for
one more call of `log_write` after that. -/
def LeavesRoom (s : State P) : P × Act → Prop
  | (_, .beginOp) => beginOp s.log ≠ none →
      s.log.lh.length + s.unused + MAXOPBLOCKS + 2 ≤ s.log.size
  | _ => True

/-- The outstanding operations can reach the panic before another operation is admitted. -/
def Exposed (s : State P) : Prop :=
  ∃ l t q b, (∀ a ∈ l, a.2 ≠ .beginOp) ∧ Run (Next budgetStep) s l t ∧
    budgetStep t (q, .logWrite b) = some (.error .tooBig)

omit [Fintype P] in
theorem next_of_budget {s s' : State P} {a : P × Act} (h : Next budgetStep s a s') :
    WithinBudget s a ∧ Next step s a s' := by
  unfold Next budgetStep at h
  split at h
  next hb => exact ⟨hb, h⟩
  next => cases h

/-- The outstanding operations have room for what they may still log. -/
def Roomy (s : State P) : Prop := 0 < s.ops → s.log.lh.length + s.unused + 2 ≤ s.log.size

/-- A consistent state of operations that have kept to their budget, with the log of `mkfs`. -/
structure Budgeted (s : State P) : Prop where
  consistent : Consistent s
  size : s.log.size = LOGSIZE
  logged : ∀ p, (s.pc p).logged.toFinset.card ≤ MAXOPBLOCKS

omit [DecidableEq P] in
theorem budgeted_init (start : ℕ) : Budgeted (init start LOGSIZE : State P) :=
  ⟨consistent_init start LOGSIZE, rfl, fun _ => Nat.zero_le _⟩

namespace Budgeted

variable {s s' : State P} {p : P} {a : Act}

theorem next (h : Budgeted s) (hn : Next budgetStep s (p, a) s') : Budgeted s' := by
  obtain ⟨hb, hn⟩ := next_of_budget hn
  have hcons := h.consistent.next hn
  obtain ⟨log, pc, hm, rfl⟩ := moves_of_next hn
  have hkeep : log.size = s.log.size ∧ pc.logged.toFinset.card ≤ MAXOPBLOCKS := by
    have hp := h.logged p
    generalize hpc : s.pc p = c at hm hp
    cases hm with
    | wait _ => exact ⟨rfl, Nat.zero_le _⟩
    | beginOp hbegin =>
      obtain ⟨-, -, rfl⟩ := beginOp_eq_some hbegin
      exact ⟨rfl, Nat.zero_le _⟩
    | @logWrite _ bs b hw =>
      have hb' : (b :: bs).toFinset.card ≤ MAXOPBLOCKS := by
        simpa [WithinBudget, hpc, Pc.logged] using hb
      rcases (logWrite_eq_ok hw).2 with ⟨-, rfl⟩ | ⟨-, rfl⟩ <;> exact ⟨rfl, hb'⟩
    | @endOp _ bs c he =>
      obtain ⟨-, -, rfl⟩ := endOp_eq_ok he
      exact ⟨rfl, by cases c <;> exact Nat.zero_le _⟩
    | commit _ hc =>
      refine ⟨rfl, ?_⟩
      cases pc <;> first | exact Nat.zero_le _ | exact hc.elim
    | clear => exact ⟨rfl, Nat.zero_le _⟩
    | unlock => exact ⟨rfl, Nat.zero_le _⟩
  refine ⟨hcons, hkeep.1.trans h.size, ?_⟩
  exact (Function.forall_update_iff s.pc fun _ c => c.logged.toFinset.card ≤ MAXOPBLOCKS).mpr
    ⟨hkeep.2, fun q _ => h.logged q⟩

/-- Without an admission, the list and the unused budgets together do not grow. -/
theorem unused_le (h : Budgeted s) (hn : Next budgetStep s (p, a) s')
    (ha : a = .beginOp → beginOp s.log = none) :
    s'.ops ≤ s.ops ∧ s'.log.lh.length + s'.unused ≤ s.log.lh.length + s.unused := by
  obtain ⟨hb, hn⟩ := next_of_budget hn
  obtain ⟨log, pc, hm, rfl⟩ := moves_of_next hn
  have hops : (s.goto p log pc).ops + (s.pc p).ops = s.ops + pc.ops := sum_goto s p log pc Pc.ops
  have hunused : (s.goto p log pc).unused + (s.pc p).unused = s.unused + pc.unused :=
    sum_goto s p log pc Pc.unused
  rw [goto_log]
  have hlogged := h.consistent.logged p
  generalize hpc : s.pc p = c at hm hops hunused hlogged
  cases hm with
  | wait hw =>
    rcases hw with rfl | rfl <;> simp only [Pc.ops, Pc.unused] at hops hunused <;> omega
  | beginOp hbegin =>
    rw [ha rfl] at hbegin
    cases hbegin
  | @logWrite _ bs b hw =>
    have hb' : (b :: bs).toFinset.card ≤ MAXOPBLOCKS := by
      simpa [WithinBudget, hpc, Pc.logged] using hb
    rw [List.toFinset_cons] at hb'
    simp only [Pc.ops, Pc.unused, List.toFinset_cons] at hops hunused
    rcases (logWrite_eq_ok hw).2 with ⟨-, rfl⟩ | ⟨hnew, rfl⟩
    · have := Finset.card_le_card (Finset.subset_insert b bs.toFinset)
      omega
    · -- a block that is not on the list has not been logged by this operation either
      have hbs : b ∉ bs.toFinset := fun hm => hnew (hlogged b (List.mem_toFinset.mp hm))
      rw [Finset.card_insert_of_notMem hbs] at hb' hunused
      simp only [List.length_append, List.length_singleton]
      omega
  | @endOp _ bs c he =>
    obtain ⟨-, -, rfl⟩ := endOp_eq_ok he
    cases c <;> simp [Pc.ops, Pc.unused] at hops hunused ⊢ <;> omega
  | commit hc hc' =>
    have hzero : ∀ {c : Pc}, c.Commits → c.ops = 0 ∧ c.unused = 0 := fun {c} h => by
      cases c <;> first | exact ⟨rfl, rfl⟩ | exact h.elim
    have := hzero hc
    have := hzero hc'
    omega
  | clear =>
    simp only [Pc.ops, Pc.unused, List.length_nil] at hops hunused ⊢
    omega
  | unlock =>
    simp only [Pc.ops, Pc.unused] at hops hunused ⊢
    omega

/-- The counts after an admission. -/
theorem unused_beginOp (hn : Next budgetStep s (p, .beginOp) s') (ha : beginOp s.log ≠ none) :
    s'.ops = s.ops + 1 ∧ s'.unused = s.unused + MAXOPBLOCKS ∧ s'.log.lh = s.log.lh ∧
      s'.log.size = s.log.size := by
  obtain ⟨log, pc, hm, rfl⟩ := next_iff.mp (next_of_budget hn).2
  have hops : (s.goto p log pc).ops + (s.pc p).ops = s.ops + pc.ops := sum_goto s p log pc Pc.ops
  have hunused : (s.goto p log pc).unused + (s.pc p).unused = s.unused + pc.unused :=
    sum_goto s p log pc Pc.unused
  cases hpc : s.pc p <;> rw [hpc] at hm hops hunused <;> simp only [move] at hm <;>
    try contradiction
  cases hb : beginOp s.log with
  | none => exact absurd hb ha
  | some log' =>
    rw [hb] at hm
    obtain ⟨-, -, rfl⟩ := beginOp_eq_some hb
    cases hm
    exact ⟨hops, by simpa [Pc.unused] using hunused, rfl, rfl⟩

theorem roomy_next (h : Budgeted s) (hn : Next budgetStep s (p, a) s')
    (ha : LeavesRoom s (p, a)) (hr : Roomy s) : Roomy s' := by
  have hsize := (h.next hn).size.trans h.size.symm
  by_cases hbegin : a = .beginOp ∧ beginOp s.log ≠ none
  · obtain ⟨rfl, hb⟩ := hbegin
    obtain ⟨-, hu, hlh, hs⟩ := unused_beginOp hn hb
    have := ha hb
    intro _
    rw [hlh, hu, hs]
    omega
  · push Not at hbegin
    obtain ⟨ho, hle⟩ := h.unused_le hn hbegin
    intro hpos
    have := hr (by omega)
    omega

/-- With room left, `log_write` has room. -/
theorem not_tooBig (h : Budgeted s) (hr : Roomy s) (p : P) (b : ℕ) :
    budgetStep s (p, .logWrite b) ≠ some (.error .tooBig) := by
  have hsize : s.log.size = 30 := h.size
  intro he
  unfold budgetStep at he
  split at he
  next =>
    obtain ⟨bs, hpc, hcase⟩ := move_eq_error (step_eq_error he)
    have := hr (State.ops_pos hpc)
    rcases hcase with ⟨_, -, hw⟩ | ⟨ha, -⟩
    · rcases logWrite_eq_error hw with ⟨-, hbig⟩ | ⟨h', -⟩
      · unfold LOGSIZE MAXOPBLOCKS at hbig
        omega
      · cases h'
    · cases ha
  next => cases he

omit [DecidableEq P] in
theorem exists_running (h : 0 < s.ops) : ∃ q bs, s.pc q = .running bs := by
  obtain ⟨q, -, hq⟩ := Finset.exists_ne_zero_of_sum_ne_zero h.ne'
  cases hpc : s.pc q with
  | running bs => exact ⟨q, bs, hpc⟩
  | _ => simp [hpc, Pc.ops] at hq

omit [DecidableEq P] in
theorem exists_unused (h : 0 < s.unused) :
    ∃ q bs, s.pc q = .running bs ∧ bs.toFinset.card < MAXOPBLOCKS := by
  obtain ⟨q, -, hq⟩ := Finset.exists_ne_zero_of_sum_ne_zero h.ne'
  cases hpc : s.pc q with
  | running bs =>
    refine ⟨q, bs, hpc, ?_⟩
    rw [hpc, Pc.unused] at hq
    omega
  | _ => simp [hpc, Pc.unused] at hq

/-- A full list makes even a block that is on it too much. -/
theorem exposed_of_full (h : Budgeted s) (hops : 0 < s.ops) (hfull : s.log.size ≤ s.log.lh.length + 1) :
    Exposed s := by
  obtain ⟨q, bs, hpc⟩ := exists_running hops
  have hb : ∃ b, (b :: bs).toFinset.card ≤ MAXOPBLOCKS := by
    cases bs with
    | nil => exact ⟨0, by decide⟩
    | cons b bs =>
      refine ⟨b, ?_⟩
      have := h.logged q
      rw [hpc] at this
      simpa [Pc.logged] using this
  obtain ⟨b, hb⟩ := hb
  refine ⟨[], s, q, b, by simp, .nil s, ?_⟩
  have hw : WithinBudget s (q, .logWrite b) := by
    simpa only [WithinBudget, hpc, Pc.logged] using hb
  have hbig : logWrite s.log b = .error .tooBig := if_pos (.inr (by omega))
  simp [budgetStep, hw, step, hpc, move, hbig, Except.map]

/-- An operation with budget left can log a block that is not on the list. -/
theorem next_fresh (h : Budgeted s) (hpos : 0 < s.unused) (hlt : s.log.lh.length + 1 < s.log.size) :
    ∃ q b s', Next budgetStep s (q, .logWrite b) s' ∧ s'.ops = s.ops ∧
      s'.unused + 1 = s.unused ∧ s'.log.lh.length = s.log.lh.length + 1 := by
  obtain ⟨q, bs, hpc, hcard⟩ := exists_unused hpos
  obtain ⟨b, hb⟩ := Infinite.exists_notMem_finset s.log.lh.toFinset
  rw [List.mem_toFinset] at hb
  have hbs : b ∉ bs.toFinset := fun hm =>
    hb (h.consistent.logged q b (by rw [hpc]; exact List.mem_toFinset.mp hm))
  have hins : (b :: bs).toFinset.card = bs.toFinset.card + 1 := by
    rw [List.toFinset_cons, Finset.card_insert_of_notMem hbs]
  have hsize : s.log.size = 30 := h.size
  have hout : ¬ s.log.outstanding < 1 := by
    have := State.ops_pos hpc
    have := h.consistent.outstanding
    omega
  have hroom : ¬ (s.log.lh.length ≥ LOGSIZE ∨ (s.log.lh.length : ℤ) ≥ s.log.size - 1) := by
    unfold LOGSIZE MAXOPBLOCKS
    omega
  have hw : WithinBudget s (q, .logWrite b) := by
    have : (b :: bs).toFinset.card ≤ MAXOPBLOCKS := by omega
    simpa only [WithinBudget, hpc, Pc.logged] using this
  set log : Log := { s.log with lh := s.log.lh ++ [b] } with hlog
  have hok : logWrite s.log b = .ok log := by
    rw [logWrite, if_neg hroom, if_neg hout, if_neg hb]
  have hops : (s.goto q log (.running (b :: bs))).ops + (s.pc q).ops = s.ops + 1 :=
    sum_goto s q log (.running (b :: bs)) Pc.ops
  have hunused : (s.goto q log (.running (b :: bs))).unused + (s.pc q).unused =
      s.unused + (MAXOPBLOCKS - (b :: bs).toFinset.card) :=
    sum_goto s q log (.running (b :: bs)) Pc.unused
  rw [hpc, Pc.ops] at hops
  rw [hpc, Pc.unused] at hunused
  refine ⟨q, b, s.goto q log (.running (b :: bs)), ?_, by omega, by omega, ?_⟩
  · simp [Next, budgetStep, hw, step, hpc, move, hok, Except.map]
  · simp [hlog]

/-- Without room the outstanding operations can fill the list. -/
theorem exposed (h : Budgeted s) (hops : 0 < s.ops)
    (hfull : s.log.size ≤ s.log.lh.length + s.unused + 1) : Exposed s := by
  induction hk : s.unused generalizing s with
  | zero => exact h.exposed_of_full hops (by omega)
  | succ k ih =>
    by_cases hnow : s.log.size ≤ s.log.lh.length + 1
    · exact h.exposed_of_full hops hnow
    · obtain ⟨q, b, s', hn, ho, hu, hl⟩ := h.next_fresh (by omega) (by omega)
      have hb' := h.next hn
      have hsize : s'.log.size = s.log.size := hb'.size.trans h.size.symm
      obtain ⟨l, t, q', b', hl', hrun, hbig⟩ := ih hb' (by omega) (by omega) (by omega)
      refine ⟨(q, .logWrite b) :: l, t, q', b', ?_, .cons hn hrun, hbig⟩
      intro a ha
      rcases List.mem_cons.mp ha with rfl | ha
      · simp
      · exact hl' a ha

theorem run {l : List (P × Act)} (h : Budgeted s) (hr : Run (Next budgetStep) s l s') :
    Budgeted s' :=
  hr.invariant (fun _ _ _ _ hn hs => hs.next hn) h

/-- While nothing is admitted, room stays. -/
theorem not_exposed (h : Budgeted s) (hr : Roomy s) : ¬ Exposed s := by
  rintro ⟨l, t, q, b, hl, hrun, hbig⟩
  have hinv : Budgeted t ∧ Roomy t := by
    refine hrun.invariant (I := fun s => Budgeted s ∧ Roomy s) (fun s a s' ha hn hs => ?_) ⟨h, hr⟩
    refine ⟨hs.1.next hn, hs.1.roomy_next hn ?_ hs.2⟩
    obtain ⟨p, a⟩ := a
    cases a with
    | beginOp => exact absurd rfl (hl _ ha)
    | _ => trivial
  exact hinv.1.not_tooBig hinv.2 q b hbig

end Budgeted

/-- Log space. When every admission leaves room for the budgets of all outstanding operations and
one more block, `log_write` never finds the log too full. An admission that does not leave this
room lets the outstanding operations reach the panic within their budgets. -/
theorem log_space_iff (start : ℕ) :
    (∀ l (s : State P), Run (fun s a s' => LeavesRoom s a ∧ Next budgetStep s a s')
      (init start LOGSIZE) l s → ∀ p b, budgetStep s (p, .logWrite b) ≠ some (.error .tooBig)) ∧
    (∀ l (s s' : State P) p, Run (Next budgetStep) (init start LOGSIZE) l s →
      Next budgetStep s (p, .beginOp) s' → beginOp s.log ≠ none →
      (Exposed s' ↔ ¬ LeavesRoom s (p, .beginOp))) := by
  constructor
  · intro l s hrun
    have hinv : Budgeted s ∧ Roomy s := by
      refine hrun.invariant (I := fun s => Budgeted s ∧ Roomy s) (fun s a s' _ hn hs => ?_)
        ⟨budgeted_init start, fun h => ?_⟩
      · exact ⟨hs.1.next hn.2, hs.1.roomy_next hn.2 hn.1 hs.2⟩
      · simp [init, State.ops, Pc.ops] at h
    exact hinv.1.not_tooBig hinv.2
  · intro l s s' p hrun hn ha
    have hb := (budgeted_init start).run hrun
    obtain ⟨ho, hu, hlh, hs⟩ := Budgeted.unused_beginOp hn ha
    constructor
    · intro hex hroom
      refine (hb.next hn).not_exposed (fun _ => ?_) hex
      rw [hlh, hu, hs]
      have := hroom ha
      omega
    · intro hroom
      refine (hb.next hn).exposed (by omega) ?_
      have : ¬ (s.log.lh.length + s.unused + MAXOPBLOCKS + 2 ≤ s.log.size) := fun hle =>
        hroom fun _ => hle
      rw [hlh, hu, hs]
      omega

/-- Three processes begin an operation each. -/
def threeBegin : List (Fin 3 × Act) :=
  [(0, .enter), (1, .enter), (2, .enter), (0, .beginOp), (1, .beginOp), (2, .beginOp)]

/-- The three operations log ten, ten and nine blocks, all different. -/
def threeLog : List (Fin 3 × Act) :=
  threeBegin ++ (List.range 29).map fun i => (Fin.ofNat 3 (i / 10), .logWrite (46 + i))

/-- The tenth block of the third operation finds the log too full. -/
theorem threeLog_tooBig : ∃ s, Run (Next budgetStep) (init 2 LOGSIZE) threeLog s ∧
    budgetStep s (2, .logWrite 75) = some (.error .tooBig) := by
  have hrun : (exec budgetStep (init 2 LOGSIZE) threeLog).map (fun s =>
      (s.log.lh.length, s.pc 2, decide (WithinBudget s (2, .logWrite 75)), s.log.size)) =
      some (29, .running ((List.range 9).reverse.map (66 + ·)), true, 30) := by decide +kernel
  obtain ⟨s, hs, hv⟩ := Option.map_eq_some_iff.mp hrun
  simp only [Prod.mk.injEq, decide_eq_true_eq] at hv
  obtain ⟨hlen, hpc, hb, hsize⟩ := hv
  refine ⟨s, run_of_exec _ hs, ?_⟩
  have hbig : logWrite s.log 75 = .error .tooBig := if_pos (.inr (by omega))
  simp [budgetStep, hb, step, hpc, move, hbig, Except.map]

theorem threeBegin_exposed :
    ∃ s s' : State (Fin 3), Run (Next budgetStep) (init 2 LOGSIZE) (threeBegin.take 5) s ∧
      Next budgetStep s (2, .beginOp) s' ∧ Exposed s' := by
  have hrun : (exec budgetStep (init 2 LOGSIZE) (threeBegin.take 5)).map (fun s =>
      (s.log.lh.length, s.unused, s.log.size, (beginOp s.log).isSome,
        (exec budgetStep s [(2, .beginOp)]).isSome)) = some (0, 20, 30, true, true) := by
    decide +kernel
  obtain ⟨s, hs, hv⟩ := Option.map_eq_some_iff.mp hrun
  simp only [Prod.mk.injEq] at hv
  obtain ⟨hlen, hunused, hsize, hbegin, hlast⟩ := hv
  have hbegin : beginOp s.log ≠ none := Option.isSome_iff_ne_none.mp hbegin
  obtain ⟨s', hs'⟩ := Option.isSome_iff_exists.mp hlast
  cases run_of_exec _ hs' with
  | cons hn hnil =>
    refine ⟨s, _, run_of_exec _ hs, hn, ?_⟩
    refine ((log_space_iff 2).2 _ s _ 2 (run_of_exec _ hs) hn hbegin).mpr fun hroom => ?_
    have : s.log.lh.length + s.unused + 10 + 2 ≤ s.log.size := hroom hbegin
    omega

end Xv6.Journal

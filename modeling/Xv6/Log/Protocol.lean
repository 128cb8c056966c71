import Xv6.Buffer.Cache
import Xv6.Logic.Steps

/-! # Operations and commits

The protocol of `begin_op`, `log_write` and `end_op` between any number of
processes. The sections of `log.c` under `log.lock` are single steps, `commit`
runs outside the lock, one disk access at a time, and a sleeping process may
wake up at any time.
-/

namespace Xv6.Journal

open Buffer Function

/-- One round of the loop of `begin_op`; `none` is a call of `sleep`. -/
def beginOp (log : Log) : Option Log :=
  if log.committing then none
  else if (log.lh.length : ℤ) + (log.outstanding + 1) * MAXOPBLOCKS > LOGSIZE then none
  else some { log with outstanding := log.outstanding + 1 }

/-- The section of `end_op` under the lock; the flag is `do_commit`. -/
def endOp (log : Log) : Except Halt (Log × Bool) :=
  let log := { log with outstanding := log.outstanding - 1 }
  if log.committing then .error .committing
  else if log.outstanding = 0 then .ok ({ log with committing := true }, true)
  else .ok (log, false)

/-- The list of `log_write`; a block that is listed already is absorbed. -/
def logWrite (log : Log) (b : ℕ) : Except Halt Log :=
  if log.lh.length ≥ LOGSIZE ∨ (log.lh.length : ℤ) ≥ log.size - 1 then .error .tooBig
  else if log.outstanding < 1 then .error .outsideTrans
  else if b ∈ log.lh then .ok log
  else .ok { log with lh := log.lh ++ [b] }

/-- Where a process is. -/
inductive Pc
  | idle
  /-- In the loop of `begin_op`. -/
  | waiting
  /-- Between `begin_op` and `end_op`, with the blocks it has logged, the last one first. -/
  | running (bs : List ℕ)
  /-- In `end_op` after the release of the lock, at the call of `commit`. -/
  | commit
  | writeLog (tail : ℕ)
  | writeHead
  | installTrans (tail : ℕ)
  /-- At the assignment `log.lh.n = 0`. -/
  | clear
  | eraseHead
  /-- In `end_op`, back from `commit`. -/
  | unlock
  deriving DecidableEq, Repr

inductive Act
  /-- Call `begin_op`. -/
  | enter
  /-- Run the body of the loop of `begin_op`. -/
  | beginOp
  | logWrite (b : ℕ)
  | endOp
  /-- Go on inside `commit`, other than by `clear`. -/
  | commit
  | clear
  /-- The last section of `end_op` under the lock. -/
  | unlock
  deriving DecidableEq, Repr

/-- One step of a process, with the log and the place it leaves. -/
def move (log : Log) : Pc → Act → Option (Except Halt (Log × Pc))
  | .idle, .enter => some (.ok (log, .waiting))
  | .waiting, .beginOp =>
    match beginOp log with
    | some log => some (.ok (log, .running []))
    | none => some (.ok (log, .waiting))
  | .running bs, .logWrite b =>
    match logWrite log b with
    | .ok log => some (.ok (log, .running (b :: bs)))
    | .error e => some (.error e)
  | .running _, .endOp =>
    match endOp log with
    | .ok (log, doCommit) => some (.ok (log, if doCommit then .commit else .idle))
    | .error e => some (.error e)
  | .commit, .commit => some (.ok (log, if log.lh.length > 0 then .writeLog 0 else .unlock))
  | .writeLog tail, .commit =>
    some (.ok (log, if tail < log.lh.length then .writeLog (tail + 1) else .writeHead))
  | .writeHead, .commit => some (.ok (log, .installTrans 0))
  | .installTrans tail, .commit =>
    some (.ok (log, if tail < log.lh.length then .installTrans (tail + 1) else .clear))
  | .clear, .clear => some (.ok ({ log with lh := [] }, .eraseHead))
  | .eraseHead, .commit => some (.ok (log, .unlock))
  | .unlock, .unlock => some (.ok ({ log with committing := false }, .idle))
  | _, _ => none

structure State (P : Type) where
  log : Log
  pc : P → Pc

variable {P : Type} [DecidableEq P]

def State.goto (s : State P) (p : P) (log : Log) (pc : Pc) : State P :=
  ⟨log, update s.pc p pc⟩

/-- One step of process `p`; `none` when the process is not at this action. -/
def step (s : State P) (a : P × Act) : Option (Except Halt (State P)) :=
  (move s.log (s.pc a.1) a.2).map fun r => r.map fun x => s.goto a.1 x.1 x.2

/-- All processes idle and the log as `initlog` leaves it. -/
def init (start size : ℕ) : State P := ⟨⟨start, size, 0, false, ROOTDEV, []⟩, fun _ => .idle⟩

/-- In `end_op` with `do_commit` set. -/
def Pc.Commits : Pc → Prop
  | .idle | .waiting | .running _ => False
  | _ => True

/-- The blocks logged by a running operation. -/
def Pc.logged : Pc → List ℕ
  | .running bs => bs
  | _ => []

/-- How many operations a process has outstanding. -/
def Pc.ops : Pc → ℕ
  | .running _ => 1
  | _ => 0

/-- What a process can do to the log. -/
inductive Moves (log : Log) : Pc → Act → Log → Pc → Prop
  | wait {pc a} : pc = .idle ∨ pc = .waiting → Moves log pc a log .waiting
  | beginOp {log'} : beginOp log = some log' → Moves log .waiting .beginOp log' (.running [])
  | logWrite {log' bs b} : logWrite log b = .ok log' →
      Moves log (.running bs) (.logWrite b) log' (.running (b :: bs))
  | endOp {log' bs c} : endOp log = .ok (log', c) →
      Moves log (.running bs) .endOp log' (if c then .commit else .idle)
  | commit {pc pc'} : pc.Commits → pc'.Commits → Moves log pc .commit log pc'
  | clear : Moves log .clear .clear { log with lh := [] } .eraseHead
  | unlock : Moves log .unlock .unlock { log with committing := false } .idle

variable {log' : Log} {a : Act}

theorem moves_of_move {log : Log} {pc pc' : Pc} (h : move log pc a = some (.ok (log', pc'))) :
    Moves log pc a log' pc' := by
  unfold move at h
  split at h
  case h_1 => cases h; exact .wait (.inl rfl)
  case h_2 =>
    split at h
    next hb => cases h; exact .beginOp hb
    next => cases h; exact .wait (.inr rfl)
  case h_3 =>
    split at h
    next hw => cases h; exact .logWrite hw
    next => cases h
  case h_4 =>
    split at h
    next he => cases h; exact .endOp he
    next => cases h
  case h_9 => cases h; exact .clear
  case h_11 => cases h; exact .unlock
  case h_12 => cases h
  all_goals
    cases h
    refine .commit trivial ?_
    first | trivial | (split <;> trivial)

variable {e : Halt}

/-- The panics of a process come from `log_write` and `end_op`. -/
theorem move_eq_error {log : Log} {pc : Pc} (h : move log pc a = some (.error e)) :
    ∃ bs, pc = .running bs ∧
      ((∃ b, a = .logWrite b ∧ logWrite log b = .error e) ∨ a = .endOp ∧ endOp log = .error e) := by
  unfold move at h
  split at h
  case h_2 => split at h <;> cases h
  case h_3 bs b =>
    split at h
    next => cases h
    next hw =>
      cases h
      exact ⟨bs, rfl, .inl ⟨b, rfl, hw⟩⟩
  case h_4 bs =>
    split at h
    next => cases h
    next he =>
      cases h
      exact ⟨bs, rfl, .inr ⟨rfl, he⟩⟩
  all_goals cases h

theorem step_eq_error {s : State P} {p : P} (h : step s (p, a) = some (.error e)) :
    move s.log (s.pc p) a = some (.error e) := by
  unfold step at h
  revert h
  rcases move s.log (s.pc p) a with _ | e' | x <;> simp [Except.map]

variable {s' : State P}

theorem next_iff {s : State P} {p : P} : Next step s (p, a) s' ↔
    ∃ log pc, move s.log (s.pc p) a = some (.ok (log, pc)) ∧ s' = s.goto p log pc := by
  unfold Next step
  rcases move s.log (s.pc p) a with _ | _ | ⟨log, pc⟩ <;> simp [Except.map, eq_comm]

theorem moves_of_next {s : State P} {p : P} (h : Next step s (p, a) s') :
    ∃ log pc, Moves s.log (s.pc p) a log pc ∧ s' = s.goto p log pc := by
  obtain ⟨log, pc, hm, hs⟩ := next_iff.mp h
  exact ⟨log, pc, moves_of_move hm, hs⟩

section goto

variable (s : State P) (p : P) (log : Log) (pc : Pc)

@[simp] theorem goto_log : (s.goto p log pc).log = log := rfl

@[simp] theorem goto_pc_self : (s.goto p log pc).pc p = pc := update_self ..

variable {p} in
theorem goto_pc_of_ne {q : P} (h : q ≠ p) : (s.goto p log pc).pc q = s.pc q :=
  update_of_ne h ..

variable [Fintype P]

/-- The sum of a weight over all processes, when one of them moves. -/
theorem sum_goto (w : Pc → ℕ) :
    ∑ q, w ((s.goto p log pc).pc q) + w (s.pc p) = ∑ q, w (s.pc q) + w pc := by
  have hrest : ∑ q ∈ Finset.univ.erase p, w ((s.goto p log pc).pc q) =
      ∑ q ∈ Finset.univ.erase p, w (s.pc q) :=
    Finset.sum_congr rfl fun q hq => by rw [goto_pc_of_ne _ _ _ (Finset.ne_of_mem_erase hq)]
  rw [← Finset.add_sum_erase _ _ (Finset.mem_univ p), ← Finset.add_sum_erase _ _ (Finset.mem_univ p),
    hrest, goto_pc_self]
  omega

end goto

variable [Fintype P]

/-- The number of operations that have begun and not ended. -/
def State.ops (s : State P) : ℕ := ∑ p, (s.pc p).ops

omit [DecidableEq P] in
theorem State.ops_pos {s : State P} {p : P} {bs : List ℕ} (h : s.pc p = .running bs) :
    0 < s.ops := by
  have hle : (s.pc p).ops ≤ s.ops :=
    Finset.single_le_sum (f := fun q => (s.pc q).ops) (fun _ _ => Nat.zero_le _) (Finset.mem_univ p)
  rw [h] at hle
  exact hle

structure Consistent (s : State P) : Prop where
  outstanding : s.log.outstanding = s.ops
  commits : ∀ p, (s.pc p).Commits → s.log.committing = true
  exclusive : ∀ p q, (s.pc p).Commits → (s.pc q).Commits → p = q
  quiet : s.log.committing = true → s.ops = 0
  nodup : s.log.lh.Nodup
  logged : ∀ p, ∀ b ∈ (s.pc p).logged, b ∈ s.log.lh

omit [DecidableEq P] in
theorem consistent_init (start size : ℕ) : Consistent (init start size : State P) where
  outstanding := by simp [init, State.ops, Pc.ops]
  commits _ h := h.elim
  exclusive _ _ h := h.elim
  quiet h := by cases h
  nodup := List.nodup_nil
  logged _ _ h := by cases h

theorem beginOp_eq_some {log : Log} (h : beginOp log = some log') :
    log.committing = false ∧ (log.lh.length : ℤ) + (log.outstanding + 1) * MAXOPBLOCKS ≤ LOGSIZE ∧
      log' = { log with outstanding := log.outstanding + 1 } := by
  unfold beginOp at h
  split at h
  next => cases h
  next hc =>
    split at h
    next => cases h
    next hn =>
      cases h
      exact ⟨by simpa using hc, by omega, rfl⟩

theorem endOp_eq_ok {log : Log} {c : Bool} (h : endOp log = .ok (log', c)) :
    log.committing = false ∧ (c = true ↔ log.outstanding = 1) ∧
      log' = { log with outstanding := log.outstanding - 1, committing := c } := by
  unfold endOp at h
  dsimp only at h
  split at h
  next => cases h
  next hc =>
    split at h
    next ho =>
      cases h
      exact ⟨by simpa using hc, by simp; omega, rfl⟩
    next ho =>
      cases h
      refine ⟨by simpa using hc, by simp; omega, ?_⟩
      rw [Bool.not_eq_true] at hc
      rw [← hc]

theorem endOp_eq_error {log : Log} (h : endOp log = .error e) :
    e = .committing ∧ log.committing = true := by
  unfold endOp at h
  dsimp only at h
  split at h
  next hc => cases h; exact ⟨rfl, hc⟩
  next => split at h <;> cases h

theorem logWrite_eq_error {log : Log} {b : ℕ} (h : logWrite log b = .error e) :
    (e = .tooBig ∧ (LOGSIZE ≤ log.lh.length ∨ (log.size : ℤ) - 1 ≤ log.lh.length)) ∨
      e = .outsideTrans ∧ log.outstanding < 1 := by
  unfold logWrite at h
  split at h
  next hbig => cases h; exact .inl ⟨rfl, hbig⟩
  next =>
    split at h
    next ho => cases h; exact .inr ⟨rfl, ho⟩
    next => split at h <;> cases h

theorem logWrite_eq_ok {log : Log} {b : ℕ} (h : logWrite log b = .ok log') :
    1 ≤ log.outstanding ∧ (b ∈ log.lh ∧ log' = log ∨
      b ∉ log.lh ∧ log' = { log with lh := log.lh ++ [b] }) := by
  unfold logWrite at h
  split at h
  next => cases h
  next =>
    split at h
    next => cases h
    next ho =>
      refine ⟨by omega, ?_⟩
      split at h
      next hb => cases h; exact .inl ⟨hb, rfl⟩
      next hb => cases h; exact .inr ⟨hb, rfl⟩

theorem length_of_logWrite {log : Log} {b : ℕ} (h : logWrite log b = .ok log') :
    log.lh.length + 1 < log.size := by
  unfold logWrite at h
  split at h
  next => cases h
  next hn =>
    push Not at hn
    omega

namespace Consistent

variable {s : State P} {p : P} {log : Log} {pc : Pc}

/-- What a move has to keep so that the state stays consistent. -/
theorem goto (h : Consistent s) (hops : log.outstanding + (s.pc p).ops = s.log.outstanding + pc.ops)
    (hself : pc.Commits → log.committing = true ∧
      ((s.pc p).Commits ∨ s.log.committing = false))
    (hothers : ∀ q, q ≠ p → (s.pc q).Commits → log.committing = true)
    (hquiet : log.committing = true → log.outstanding = 0) (hnodup : log.lh.Nodup)
    (hlogged : ∀ b ∈ pc.logged, b ∈ log.lh)
    (hrest : ∀ q, q ≠ p → ∀ b ∈ (s.pc q).logged, b ∈ log.lh) : Consistent (s.goto p log pc) := by
  have hsum : (s.goto p log pc).ops + (s.pc p).ops = s.ops + pc.ops := sum_goto s p log pc Pc.ops
  have hout := h.outstanding
  have hexcl : ∀ q, q ≠ p → pc.Commits → ¬ (s.pc q).Commits := by
    intro q hq hp hc
    rcases (hself hp).2 with hp' | hf
    · exact hq (h.exclusive q p hc hp')
    · rw [h.commits q hc] at hf
      cases hf
  constructor
  · rw [goto_log]
    omega
  · intro q hc
    by_cases hq : q = p
    · subst hq
      rw [goto_pc_self] at hc
      exact (hself hc).1
    · rw [goto_pc_of_ne _ _ _ hq] at hc
      exact hothers q hq hc
  · intro q r hq hr
    by_cases hqp : q = p <;> by_cases hrp : r = p
    · rw [hqp, hrp]
    · subst hqp
      rw [goto_pc_self] at hq
      rw [goto_pc_of_ne _ _ _ hrp] at hr
      exact absurd hr (hexcl r hrp hq)
    · subst hrp
      rw [goto_pc_self] at hr
      rw [goto_pc_of_ne _ _ _ hqp] at hq
      exact absurd hq (hexcl q hqp hr)
    · rw [goto_pc_of_ne _ _ _ hqp] at hq
      rw [goto_pc_of_ne _ _ _ hrp] at hr
      exact h.exclusive q r hq hr
  · intro hc
    have := hquiet hc
    omega
  · exact hnodup
  · exact (forall_update_iff s.pc fun _ c => ∀ b ∈ c.logged, b ∈ log.lh).mpr
      ⟨hlogged, hrest⟩

omit [DecidableEq P] in
/-- While a process commits, no operation is running. -/
theorem not_running (h : Consistent s) (hc : s.log.committing = true) (q : P) (bs : List ℕ) :
    s.pc q ≠ .running bs := by
  intro hq
  have := State.ops_pos hq
  have := h.quiet hc
  omega

omit [DecidableEq P] in
theorem logged_eq_nil (h : Consistent s) (hc : s.log.committing = true) (q : P) :
    (s.pc q).logged = [] := by
  cases hq : s.pc q with
  | running bs => exact absurd hq (h.not_running hc q bs)
  | _ => rfl

/-- Every regular step keeps the state consistent. -/
theorem next (h : Consistent s) (hn : Next step s (p, a) s') : Consistent s' := by
  obtain ⟨log, pc, hm, rfl⟩ := moves_of_next hn
  have hcommits := h.commits
  have hquiet : s.log.committing = true → s.log.outstanding = 0 := fun hc => by
    rw [h.outstanding, h.quiet hc]
    rfl
  generalize hpc : s.pc p = c at hm
  cases hm with
  | wait hw =>
    have hops : (s.pc p).ops = 0 := by
      rcases hw with rfl | rfl <;> rw [hpc] <;> rfl
    refine h.goto (by rw [hops]; rfl) (fun hc => hc.elim) (fun q _ => hcommits q) hquiet h.nodup
      (fun b hb => by cases hb) fun q _ => h.logged q
  | beginOp hb =>
    obtain ⟨hc, -, rfl⟩ := beginOp_eq_some hb
    have hno : ∀ q, ¬ (s.pc q).Commits := fun q hq => by
      rw [hcommits q hq] at hc
      cases hc
    refine h.goto (by rw [hpc]; simp [Pc.ops]) (fun hc => hc.elim)
      (fun q _ hq => absurd hq (hno q)) (fun hc' => ?_) h.nodup
      (fun b hb => by cases hb) fun q _ => h.logged q
    rw [hc] at hc'
    cases hc'
  | @logWrite _ bs b hw =>
    obtain ⟨-, hlog⟩ := logWrite_eq_ok hw
    have hbs : ∀ b ∈ bs, b ∈ s.log.lh := fun b hb => h.logged p b (by rw [hpc]; exact hb)
    rcases hlog with ⟨hb, rfl⟩ | ⟨hb, rfl⟩
    · refine h.goto (by rw [hpc]; rfl) (fun hc => hc.elim) (fun q _ => hcommits q) hquiet h.nodup
        (fun c hc => ?_) fun q _ => h.logged q
      rcases List.mem_cons.mp hc with rfl | hc
      · exact hb
      · exact hbs c hc
    · refine h.goto (by rw [hpc]; rfl) (fun hc => hc.elim) (fun q _ => hcommits q) hquiet ?_
        (fun c hc => ?_) fun q _ c hc => List.mem_append_left _ (h.logged q c hc)
      · rw [List.nodup_append_comm]
        exact List.nodup_cons.mpr ⟨hb, h.nodup⟩
      · rcases List.mem_cons.mp hc with rfl | hc
        · exact List.mem_append_right _ List.mem_cons_self
        · exact List.mem_append_left _ (hbs c hc)
  | @endOp _ bs c he =>
    obtain ⟨hc, hlast, rfl⟩ := endOp_eq_ok he
    have hno : ∀ q, ¬ (s.pc q).Commits := fun q hq => by
      rw [hcommits q hq] at hc
      cases hc
    refine h.goto ?_ ?_ (fun q _ hq => absurd hq (hno q)) ?_ h.nodup ?_ fun q _ => h.logged q
    · rw [hpc]
      cases c <;> simp [Pc.ops]
    · cases c with
      | true => exact fun _ => ⟨rfl, .inr hc⟩
      | false => exact fun hf => hf.elim
    · intro ht
      have := hlast.mp ht
      simp [this]
    · cases c <;> exact fun b hb => by cases hb
  | commit hc hc' =>
    have hp : (s.pc p).Commits := hpc ▸ hc
    have hops : ∀ {c : Pc}, c.Commits → c.ops = 0 := fun {c} h => by cases c <;> first | rfl | exact h.elim
    have hnil : pc.logged = [] := by cases pc <;> first | rfl | exact hc'.elim
    refine h.goto (by rw [hops hp, hops hc']) (fun _ => ⟨hcommits p hp, .inl hp⟩)
      (fun q _ => hcommits q) hquiet h.nodup (fun b hb => ?_) fun q _ => h.logged q
    rw [hnil] at hb
    cases hb
  | clear =>
    have hp : (s.pc p).Commits := hpc ▸ trivial
    refine h.goto (by rw [hpc]; rfl) (fun _ => ⟨hcommits p hp, .inl hp⟩) (fun q _ => hcommits q)
      hquiet List.nodup_nil (fun b hb => by cases hb) fun q _ b hb => ?_
    rw [h.logged_eq_nil (hcommits p hp)] at hb
    cases hb
  | unlock =>
    have hp : (s.pc p).Commits := hpc ▸ trivial
    refine h.goto (by rw [hpc]; rfl) (fun hc => hc.elim) ?_ (fun hc => by cases hc) h.nodup
      (fun b hb => by cases hb) fun q _ => h.logged q
    exact fun q hq hc => absurd (h.exclusive q p hc hp) hq

end Consistent

theorem consistent_of_run {start size : ℕ} {s : State P} {l : List (P × Act)}
    (h : Run (Next step) (init start size) l s) : Consistent s :=
  h.invariant (fun _ _ _ _ hn hs => hs.next hn) (consistent_init start size)

end Xv6.Journal

import Xv6.Pid.Table

/-! # Reading the process table without locks

`sys_getppid` and `sys_ps` read fields of the process table, and follow a parent
pointer, while other processes fork, exit and wait. Each read is a step of its
own. `moments` keeps the tables since the call began; no step reads it.
-/

namespace Xv6.Pid

open Sys (ProcState Pptr)

/-- A call of process `c` in progress, with what it has read. -/
structure World (ρ : Type) where
  table : Table
  moments : List Table
  reader : ρ

inductive Label
  | other (a : Act)
  | read

/-- The process that takes a step, as far as it matters. -/
def Act.actor : Act → Option Pptr
  | .adopt p _ | .exit p | .reap p _ _ => some p
  | _ => none

/-- Either the call of `c` reads or another process takes a step. -/
def World.step {ρ : Type} (read : Table → ρ → Option ρ) (c : Pptr) (w : World ρ) :
    Label → Option (Except Panic (World ρ))
  | .other a =>
    if a.actor = some c then none
    else
      match Pid.step w.table a with
      | some (.ok t) => some (.ok { w with table := t, moments := w.moments ++ [t] })
      | some (.error e) => some (.error e)
      | none => none
  | .read => (read w.table w.reader).map fun r => .ok { w with reader := r }

/-- The beginning of a call. -/
def World.start {ρ : Type} (t : Table) (r : ρ) : World ρ := ⟨t, [t], r⟩

/-! ## `sys_getppid` -/

inductive Getppid
  /-- Before the read of `current_proc->parent`. -/
  | parent
  /-- Before the read of `parent_proc->pid`. -/
  | pid (q : Pptr)
  | returned (r : ℤ)
  deriving DecidableEq

def Getppid.read (c : Pptr) (t : Table) : Getppid → Option Getppid
  | .parent =>
    match (t.proc c).parent with
    | none => some (.returned (-1))
    | some q => some (.pid q)
  | .pid q => some (.returned (t.proc q).pid)
  | .returned _ => none

/-- The pid of the parent of a process, or -1. -/
def Table.ppid (t : Table) (i : Pptr) : ℤ := (t.proc i).parent.elim (-1) fun q => (t.proc q).pid

/-! ## `sys_ps` -/

/-- An entry of the array `ps`, with the slot it describes. -/
structure Record where
  slot : Pptr
  pid : ℤ
  ppid : ℤ
  state : ProcState
  deriving DecidableEq

/-- The next read for a slot. -/
inductive Place
  | test
  | pid
  | parent (pid : ℤ)
  /-- The second read of `proc[i].parent`. -/
  | deref (pid : ℤ)
  | ppid (pid : ℤ) (q : Pptr)
  | state (pid ppid : ℤ)
  /-- A null pointer was followed. -/
  | fault
  deriving DecidableEq

structure Ps where
  /-- The slots from the current one on. -/
  todo : List Pptr
  place : Place
  ps : List Record
  deriving DecidableEq

def Ps.start : Ps := ⟨List.finRange NPROC, .test, []⟩

/-- One read of `sys_ps`. All states have a name, so that only the last read of `proc[i].state`
matters to what is stored. -/
def Ps.read (t : Table) (x : Ps) : Option Ps :=
  match x.todo with
  | [] => none
  | i :: is =>
    match x.place with
    | .test =>
      if (t.proc i).state ≠ .unused then some { x with place := .pid }
      else some { x with todo := is }
    | .pid => some { x with place := .parent (t.proc i).pid }
    | .parent pid =>
      match (t.proc i).parent with
      | none => some { x with place := .state pid (-1) }
      | some _ => some { x with place := .deref pid }
    | .deref pid =>
      match (t.proc i).parent with
      | none => some { x with place := .fault }
      | some q => some { x with place := .ppid pid q }
    | .ppid pid q => some { x with place := .state pid (t.proc q).pid }
    | .state pid ppid => some ⟨is, .test, x.ps ++ [⟨i, pid, ppid, (t.proc i).state⟩]⟩
    | .fault => none

/-- The process in the slot of the record has what the record says. -/
def Record.Shown (x : Record) (t : Table) : Prop :=
  t.Live x.slot ∧ (t.proc x.slot).state = x.state ∧ (t.proc x.slot).pid = x.pid ∧
    t.ppid x.slot = x.ppid

instance (x : Record) : DecidablePred x.Shown := fun _ => inferInstanceAs (Decidable (_ ∧ _))

/-! ## Steps that do not disturb a call -/

/-- The slot that gets a pid or loses it. -/
def Act.target : Act → Option Pptr
  | .alloc i | .abandon i | .reap _ i _ => some i
  | _ => none

/-- The slot of the parent stays as it is between the two reads of `sys_getppid`. -/
def Getppid.Calm (w : World Getppid) : Label → Prop
  | .other a => match w.reader with
    | .pid q => a.target ≠ some q
    | _ => True
  | .read => True

/-- The step changes the pid, the parent or the pid of the parent of the process in slot `i`. -/
def Act.Disturbs (t : Table) (i : Pptr) : Act → Prop
  | .alloc j | .abandon j | .reap _ j _ => j = i ∨ (t.proc i).parent = some j
  | .adopt _ j => j = i
  | .exit p => (t.proc i).parent = some p
  | _ => False

/-- A process stays as it is from the first read of its record to the last one. -/
def Ps.Calm (w : World Ps) : Label → Prop
  | .other a => match w.reader.todo with
    | [] => True
    | i :: _ => w.reader.place ≠ .test → ¬ a.Disturbs w.table i
  | .read => True

instance (w : World Getppid) : DecidablePred (Getppid.Calm w) := fun lab => by
  unfold Getppid.Calm
  cases lab with
  | other a => dsimp only; split <;> infer_instance
  | read => infer_instance

instance (t : Table) (i : Pptr) : DecidablePred (Act.Disturbs t i) := fun a => by
  cases a <;> unfold Act.Disturbs <;> infer_instance

instance (w : World Ps) : DecidablePred (Ps.Calm w) := fun lab => by
  unfold Ps.Calm
  cases lab with
  | other a => dsimp only; split <;> infer_instance
  | read => infer_instance

variable {t t' : Table} {a : Act} {i c : Pptr} {ρ : Type} {read : Table → ρ → Option ρ}
  {w w' : World ρ}

/-- A step gives a pid to its target or takes it away, and from no other slot. -/
theorem kept_of_target (h : Next step t a t') (hi : a.target ≠ some i) :
    (t'.proc i).pid = (t.proc i).pid ∧ (t'.Live i ↔ t.Live i) := by
  cases Change.of_next h with
  | alloc j label _ eq =>
    subst label eq
    have hij : i ≠ j := fun he => hi (he ▸ rfl)
    simp [hij, Table.Live]
  | free j label _ eq =>
    subst eq
    have hij : i ≠ j := by
      rintro rfl
      obtain rfl | ⟨p, r, rfl⟩ := label <;> exact hi rfl
    simp [hij, Table.Live]
  | keep pid live _ => exact ⟨pid i, live i⟩

theorem target_of_not_disturbs (hd : ¬ a.Disturbs t i) :
    a.target ≠ some i ∧ ∀ q, (t.proc i).parent = some q → a.target ≠ some q := by
  cases a with
  | alloc j | abandon j | reap _ j _ =>
    simp only [Act.Disturbs, not_or] at hd
    exact ⟨fun he => hd.1 (Option.some.inj he), fun q hq he => hd.2 (Option.some.inj he ▸ hq)⟩
  | _ => exact ⟨nofun, fun _ _ => nofun⟩

theorem parent_of_not_disturbs (h : Next step t a t') (hd : ¬ a.Disturbs t i) :
    (t'.proc i).parent = (t.proc i).parent := by
  have hset : ∀ j x, x.parent = (t.proc j).parent →
      ((t.set j x).proc i).parent = (t.proc i).parent := fun j x hx => by
    rcases eq_or_ne i j with rfl | hij
    · simpa using hx
    · simp [hij]
  unfold Next at h
  cases a with
  | alloc j =>
    simp only [step] at h
    split_ifs at h
    cases h
    exact hset j { t.proc j with pid := t.nextpid, state := .used } rfl
  | abandon j | reap _ j _ =>
    simp only [Act.Disturbs, not_or] at hd
    simp only [step] at h
    split_ifs at h
    cases h
    simp [Ne.symm hd.1]
  | adopt p j =>
    simp only [Act.Disturbs] at hd
    simp only [step] at h
    split_ifs at h
    cases h
    simp [Ne.symm hd]
  | exit p =>
    simp only [Act.Disturbs] at hd
    simp only [step] at h
    split_ifs at h
    · cases h
    · cases h
      have hre : ∀ j, (t.proc j).parent ≠ some p → (t.reparent p).proc j = t.proc j :=
        fun j hj => if_neg hj
      rcases eq_or_ne i p with rfl | hip
      · simp [hre i hd]
      · simp [hip, hre i hd]
  | start j _ | kill _ j | move j _ =>
    simp only [step] at h
    split_ifs at h
    cases h
    exact hset j _ rfl

/-- A step that does not disturb a process keeps it with its pid and that of its parent. -/
theorem kept_of_not_disturbs (h : Next step t a t') (hd : ¬ a.Disturbs t i) :
    (t'.proc i).parent = (t.proc i).parent ∧ (t'.proc i).pid = (t.proc i).pid ∧
      (t'.Live i ↔ t.Live i) ∧ t'.ppid i = t.ppid i := by
  obtain ⟨h₁, h₂⟩ := target_of_not_disturbs hd
  obtain ⟨hpid, hlive⟩ := kept_of_target h h₁
  have hpar := parent_of_not_disturbs h hd
  refine ⟨hpar, hpid, hlive, ?_⟩
  rw [Table.ppid, Table.ppid, hpar]
  cases hq : (t.proc i).parent with
  | none => rfl
  | some q => exact (kept_of_target h (h₂ q hq)).1

/-! ## Runs -/

/-- A step of another process is a step of the table, and the new table is a moment of the call. -/
theorem World.next_other (h : Next (World.step read c) w (.other a) w') :
    Next Pid.step w.table a w'.table ∧ w'.moments = w.moments ++ [w'.table] ∧
      w'.reader = w.reader := by
  unfold Next World.step at h
  dsimp only at h
  split_ifs at h
  split at h
  next t ht =>
    cases h
    exact ⟨ht, rfl, rfl⟩
  all_goals cases h

theorem World.next_read (h : Next (World.step read c) w .read w') :
    ∃ r, read w.table w.reader = some r ∧ w' = { w with reader := r } := by
  unfold Next World.step at h
  simp only [Option.map_eq_some_iff] at h
  obtain ⟨r, hr, he⟩ := h
  cases he
  exact ⟨r, hr, rfl⟩

theorem World.table_mem {lab : Label} (h : Next (World.step read c) w lab w')
    (hm : w.table ∈ w.moments) : w'.table ∈ w'.moments ∧ ∀ t ∈ w.moments, t ∈ w'.moments := by
  cases lab with
  | other a =>
    obtain ⟨-, hmom, -⟩ := next_other h
    rw [hmom]
    exact ⟨by simp, fun t ht => List.mem_append_left _ ht⟩
  | read =>
    obtain ⟨r, -, rfl⟩ := next_read h
    exact ⟨hm, fun t ht => ht⟩

namespace Getppid

/-- What `sys_getppid` has read was so together at some moment; the pid that it reads next has not
changed since. -/
def Seen (c : Pptr) (w : World Getppid) : Prop :=
  match w.reader with
  | .parent => True
  | .pid q => ∃ t ∈ w.moments, (t.proc c).parent = some q ∧
      (t.proc q).pid = (w.table.proc q).pid
  | .returned r => ∃ t ∈ w.moments, t.ppid c = r

theorem Seen.step {w w' : World Getppid} {lab : Label} (hm : w.table ∈ w.moments) (h : Seen c w)
    (hs : Next (restrict (World.step (Getppid.read c) c) Calm) w lab w') : Seen c w' := by
  obtain ⟨hc, hs⟩ := (next_restrict _).mp hs
  obtain ⟨-, hmono⟩ := World.table_mem hs hm
  cases lab with
  | other a =>
    obtain ⟨hn, -, hre⟩ := World.next_other hs
    unfold Seen at h ⊢
    rw [hre]
    cases hw : w.reader with
    | parent => trivial
    | pid q =>
      simp only [hw, Calm] at h hc
      obtain ⟨t, ht, hpar, hpid⟩ := h
      exact ⟨t, hmono t ht, hpar, hpid.trans (kept_of_target hn hc).1.symm⟩
    | returned r =>
      simp only [hw] at h
      obtain ⟨t, ht, hp⟩ := h
      exact ⟨t, hmono t ht, hp⟩
  | read =>
    obtain ⟨r, hr, rfl⟩ := World.next_read hs
    unfold Seen at h ⊢
    cases hw : w.reader with
    | parent =>
      simp only [hw, Getppid.read] at hr
      cases hpar : (w.table.proc c).parent with
      | none =>
        simp only [hpar, Option.some.injEq] at hr
        subst hr
        exact ⟨w.table, hm, by simp [Table.ppid, hpar]⟩
      | some q =>
        simp only [hpar, Option.some.injEq] at hr
        subst hr
        exact ⟨w.table, hm, hpar, rfl⟩
    | pid q =>
      simp only [hw, Getppid.read, Option.some.injEq] at h hr
      subst hr
      obtain ⟨t, ht, hpar, hpid⟩ := h
      exact ⟨t, ht, by simp [Table.ppid, hpar, hpid]⟩
    | returned r' => simp [hw, Getppid.read] at hr

theorem seen_of_run {l : List Label} {w : World Getppid}
    (h : Run (Next (restrict (World.step (Getppid.read c) c) Calm)) (.start t .parent) l w) :
    Seen c w := by
  refine (h.invariant (I := fun w => w.table ∈ w.moments ∧ Seen c w) ?_ ?_).2
  · rintro w lab w' - hs ⟨hm, hseen⟩
    exact ⟨(World.table_mem ((next_restrict _).mp hs).2 hm).1, hseen.step hm hs⟩
  · exact ⟨by simp [World.start], trivial⟩

end Getppid

/-- What `sys_ps` has read for slot `i` is still so. -/
def Place.Holds (t : Table) (i : Pptr) : Place → Prop
  | .test => True
  | .pid => t.Live i
  | .parent n => t.Live i ∧ (t.proc i).pid = n
  | .deref n => t.Live i ∧ (t.proc i).pid = n ∧ (t.proc i).parent ≠ none
  | .ppid n q => t.Live i ∧ (t.proc i).pid = n ∧ (t.proc i).parent = some q
  | .state n m => t.Live i ∧ (t.proc i).pid = n ∧ t.ppid i = m
  | .fault => False

namespace Ps

structure Seen (w : World Ps) : Prop where
  place : ∀ i is, w.reader.todo = i :: is → w.reader.place.Holds w.table i
  record : ∀ x ∈ w.reader.ps, ∃ t ∈ w.moments, x.Shown t

theorem Seen.other {w w' : World Ps} (h : Seen w) (hs : Next (World.step Ps.read c) w (.other a) w')
    (hc : Calm w (.other a)) : Seen w' := by
  obtain ⟨hn, hmom, hre⟩ := World.next_other hs
  constructor
  · intro i is hi
    rw [hre] at hi ⊢
    have hp := h.place i is hi
    simp only [Calm, hi] at hc
    by_cases htest : w.reader.place = .test
    · rw [htest]
      trivial
    obtain ⟨hpar, hpid, hlive, hppid⟩ := kept_of_not_disturbs hn (hc htest)
    cases hpl : w.reader.place <;> rw [hpl] at hp <;>
      simp only [Place.Holds, hpar, hpid, hlive, hppid] at hp ⊢ <;> exact hp
  · intro x hx
    rw [hre] at hx
    obtain ⟨t, ht, hsh⟩ := h.record x hx
    rw [hmom]
    exact ⟨t, List.mem_append_left _ ht, hsh⟩

theorem Seen.next_read {w w' : World Ps} (hm : w.table ∈ w.moments) (h : Seen w)
    (hs : Next (World.step Ps.read c) w .read w') : Seen w' := by
  obtain ⟨r, hr, rfl⟩ := World.next_read hs
  obtain ⟨t, ms, todo, pl, ps⟩ := w
  cases todo with
  | nil => cases hr
  | cons i is =>
    have hp : pl.Holds t i := h.place i is rfl
    -- all reads but the last one of a record leave the records
    have hsame : ∀ pl : Place, pl.Holds t i → Seen ⟨t, ms, i :: is, pl, ps⟩ := fun pl hpl =>
      ⟨fun j js hj => by cases hj; exact hpl, h.record⟩
    cases pl with
    | test =>
      simp only [Ps.read] at hr
      split_ifs at hr with h₀
      · cases hr
        exact hsame .pid h₀
      · cases hr
        exact ⟨fun _ _ _ => trivial, h.record⟩
    | pid =>
      cases hr
      exact hsame (.parent _) ⟨hp, rfl⟩
    | parent n =>
      simp only [Ps.read] at hr
      split at hr
      next hpar =>
        cases hr
        exact hsame (.state n (-1)) ⟨hp.1, hp.2, by simp [Table.ppid, hpar]⟩
      next hpar =>
        cases hr
        exact hsame (.deref n) ⟨hp.1, hp.2, by simp [hpar]⟩
    | deref n =>
      simp only [Ps.read] at hr
      split at hr
      next hpar => exact absurd hpar hp.2.2
      next q hpar =>
        cases hr
        exact hsame (.ppid n q) ⟨hp.1, hp.2.1, hpar⟩
    | ppid n q =>
      cases hr
      exact hsame (.state n _) ⟨hp.1, hp.2.1, by simp [Table.ppid, hp.2.2]⟩
    | state n m =>
      cases hr
      refine ⟨fun _ _ _ => trivial, fun x hx => ?_⟩
      rcases List.mem_append.mp hx with hx | hx
      · exact h.record x hx
      · rw [List.mem_singleton.mp hx]
        exact ⟨t, hm, hp.1, rfl, hp.2⟩
    | fault => cases hr

theorem seen_of_run {l : List Label} {w : World Ps}
    (h : Run (Next (restrict (World.step Ps.read c) Calm)) (.start t .start) l w) : Seen w := by
  refine (h.invariant (I := fun w => w.table ∈ w.moments ∧ Seen w) ?_ ?_).2
  · rintro w lab w' - hs ⟨hm, hseen⟩
    obtain ⟨hc, hs⟩ := (next_restrict _).mp hs
    refine ⟨(World.table_mem hs hm).1, ?_⟩
    cases lab with
    | other a => exact hseen.other hs hc
    | read => exact hseen.next_read hm hs
  · exact ⟨by simp [World.start], fun i _ _ => show Place.test.Holds t i from trivial,
      by simp [World.start, Ps.start]⟩

end Ps

/-- `sys_getppid` returns the pid its parent had at some moment, in every run in which the slot of
the parent is neither freed nor filled between the two reads. A record of `sys_ps` shows a process
as it was at some moment, in every run in which the process keeps its pid, its parent and its
parent's pid from the first read for the record to the last one. -/
theorem reports_real (t : Table) (c : Pptr) :
    (∀ l w r, Run (Next (restrict (World.step (Getppid.read c) c) Getppid.Calm))
      (.start t .parent) l w → w.reader = .returned r → ∃ t' ∈ w.moments, t'.ppid c = r) ∧
    ∀ l w, Run (Next (restrict (World.step Ps.read c) Ps.Calm)) (.start t .start) l w →
      ∀ x ∈ w.reader.ps, ∃ t' ∈ w.moments, x.Shown t' := by
  constructor
  · intro l w r h hr
    have := Getppid.seen_of_run h
    rwa [Getppid.Seen, hr] at this
  · intro l w h
    exact (Ps.seen_of_run h).record

/-! ## A parent that exits in between -/

/-- The first process, its child and its grandchild, all running. -/
def family : Table where
  proc := fun i =>
    if i = 0 then ⟨.running, 1, none, false⟩
    else if i = 1 then ⟨.running, 2, some 0, false⟩
    else if i = 2 then ⟨.running, 3, some 1, false⟩
    else .free
  nextpid := 4
  initproc := 0

theorem run_family : ∃ l, Run (Next step) Table.boot l family := by
  obtain ⟨t, ht, hproc, hnext, hinit⟩ := exists_of_exec step (s := Table.boot)
    (l := [.move 0 .running, .alloc 1, .adopt 0 1, .start 1 2, .move 1 .running, .alloc 2,
      .adopt 1 2, .start 2 3, .move 2 .running])
    (P := fun t => (∀ i, t.proc i = family.proc i) ∧ t.nextpid = 4 ∧ t.initproc = 0)
    (by decide +kernel)
  obtain rfl : t = family := by
    cases t
    cases hnext
    cases hinit
    exact congrArg (Table.mk · 4 0) (funext hproc)
  exact ⟨_, run_of_exec step ht⟩

/-- The child of the first process exits and is waited for. -/
def gone : List Label := [.other (.exit 1), .other (.reap 0 1 2)]

/-- If the parent exits and is waited for between two reads, `sys_getppid` returns 0, which is the
pid of no process, and `sys_ps` reports an unused slot. -/
theorem reports_not_real : (∃ l, Run (Next step) Table.boot l family) ∧
    (∃ l w r, Run (Next (World.step (Getppid.read 2) 2)) (.start family .parent) l w ∧
      w.reader = .returned r ∧ ∀ t ∈ w.moments, t.ppid 2 ≠ r) ∧
    ∃ l w, Run (Next (World.step Ps.read 2)) (.start family .start) l w ∧
      w.reader.todo = [] ∧ ∃ x ∈ w.reader.ps, ∀ t ∈ w.moments, ¬ x.Shown t := by
  refine ⟨run_family, ?_, ?_⟩
  · obtain ⟨w, hw, hr, hm⟩ := exists_of_exec (World.step (Getppid.read 2) 2)
      (s := .start family .parent) (l := .read :: gone ++ [.read])
      (P := fun w => w.reader = .returned 0 ∧ ∀ t ∈ w.moments, t.ppid 2 ≠ 0) (by decide +kernel)
    exact ⟨_, w, 0, run_of_exec _ hw, hr, hm⟩
  · obtain ⟨w, hw, hr, hm⟩ := exists_of_exec (World.step Ps.read 2)
      (s := .start family .start)
      (l := List.replicate 6 .read ++ gone ++ List.replicate 69 .read)
      (P := fun w => w.reader.todo = [] ∧
        ∃ x ∈ w.reader.ps, ∀ t ∈ w.moments, ¬ x.Shown t) (by decide +kernel)
    exact ⟨_, w, run_of_exec _ hw, hr, hm⟩

/-- If the parent is gone before the first read, the calls report the new parent. -/
theorem reports_real_family :
    (∃ w, exec (restrict (World.step (Getppid.read 2) 2) Getppid.Calm) (.start family .parent)
        (gone ++ [.read, .read]) = some w ∧ w.reader = .returned 1 ∧
      ∃ t ∈ w.moments, t.ppid 2 = 1) ∧
    ∃ w, exec (restrict (World.step Ps.read 2) Ps.Calm) (.start family .start)
        (gone ++ List.replicate 72 .read) = some w ∧ w.reader.ps.length = 2 ∧
      ∀ x ∈ w.reader.ps, ∃ t ∈ w.moments, x.Shown t := by
  constructor
  · obtain ⟨w, hw, hr⟩ := exists_of_exec (restrict (World.step (Getppid.read 2) 2) Getppid.Calm)
      (s := .start family .parent) (l := gone ++ [.read, .read])
      (P := fun w => w.reader = .returned 1) (by decide +kernel)
    exact ⟨w, hw, hr, (reports_real family 2).1 _ w 1 (run_of_exec _ hw) hr⟩
  · obtain ⟨w, hw, hr⟩ := exists_of_exec (restrict (World.step Ps.read 2) Ps.Calm)
      (s := .start family .start) (l := gone ++ List.replicate 72 .read)
      (P := fun w => w.reader.ps.length = 2) (by decide +kernel)
    exact ⟨w, hw, hr, (reports_real family 2).2 _ w (run_of_exec _ hw)⟩

end Xv6.Pid

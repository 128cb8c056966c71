import Xv6.Sched.States

/-! # The counters of `struct proc`

The counters of a slot count what happened to all processes that were ever in the
slot, since neither `allocproc` nor `freeproc` resets them. Every time a process is
scheduled it is preempted, goes to sleep or exits, or it is still running.
-/

namespace Xv6.Sched

open Sys (ProcState)

variable {N M : ℕ} {s s' t : State N M} {p q : Fin N} {w : What} {l : List (Act N M)}

namespace State

/-- How often the counter, or `exit` for `none`, was reached by processes in slot `p`. -/
def times (s : State N M) (p : Fin N) (o : Option Counter) : ℕ :=
  s.history.countP fun e => e.slot = p ∧ e.what.counter = o

/-- What of it happened to the process that is in the slot now. -/
def own (s : State N M) (p : Fin N) (i : Counter) : ℕ :=
  s.history.countP fun e => e.serial = (s.data p).serial ∧ e.what.counter = some i

/-- What of it happened to the processes that were in the slot before. -/
def earlier (s : State N M) (p : Fin N) (i : Counter) : ℕ :=
  s.history.countP fun e =>
    e.slot = p ∧ e.serial ≠ (s.data p).serial ∧ e.what.counter = some i

theorem times_note {o : Option Counter} : (s.note p w).times q o =
    s.times q o + if p = q ∧ w.counter = o then 1 else 0 := by
  simp [times, note, List.countP_cons]

theorem count_note {i : Counter} : ((s.note p w).data q).count i =
    (s.data q).count i + if p = q ∧ w.counter = some i then 1 else 0 := by
  rw [note]
  simp only [data_modify]
  rcases eq_or_ne q p with rfl | hne
  · rw [if_pos rfl]
    cases hw : w.counter with
    | none => simp
    | some j =>
      simp only [Function.update_apply]
      split
      next he => simp [he]
      next he => simp [Ne.symm he]
  · simp [hne, hne.symm]

theorem data_enroll : (s.enroll q).data p =
    if p = q then { s.data q with pid := s.nextpid, serial := s.born } else s.data p := by
  rw [enroll]
  simp only [data_modify]

@[simp] theorem count_enroll : ((s.enroll q).data p).count = (s.data p).count := by
  rw [data_enroll]
  split <;> simp_all

theorem serial_enroll : ((s.enroll q).data p).serial =
    if p = q then s.born else (s.data p).serial := by
  rw [data_enroll]
  split <;> rfl

@[simp] theorem serial_note : ((s.note p w).data q).serial = (s.data q).serial := by
  rw [note]
  simp only [data_modify]
  split <;> simp_all

end State

/-- The counters and the history agree, and runs end where they should. -/
structure Tally (s : State N M) : Prop where
  count : ∀ p i, (s.data p).count i = BitVec.ofNat 32 (s.times p (some i))
  balance : ∀ p, (s.times p (some .runCount) : ℤ) = s.times p (some .preemptCount) +
    s.times p (some .sleepCount) + s.times p none + busy s.toControl p

theorem Same.times (h : Same s s') (p : Fin N) (o : Option Counter) : s'.times p o = s.times p o := by
  rw [State.times, State.times, h.history]

theorem Tally.same (h : Tally s) (hs : Same s s')
    (hb : ∀ p, busy s'.toControl p = busy s.toControl p) : Tally s' where
  count p i := by rw [hs.times, hs.count, h.count]
  balance p := by rw [hs.times, hs.times, hs.times, hs.times, hb, h.balance]

theorem Tally.note (h : Tally s) (hs : Same (s.note p w) s')
    (hb : ∀ q, busy s'.toControl q = busy s.toControl q + if q = p then w.delta else 0) :
    Tally s' where
  count q i := by
    rw [hs.times, hs.count, State.count_note, State.times_note, h.count, BitVec.ofNat_add]
    split <;> rfl
  balance q := by
    have := h.balance q
    rw [hs.times, hs.times, hs.times, hs.times, hb]
    simp only [State.times_note]
    rcases eq_or_ne q p with rfl | hne
    · cases w <;> simp [What.counter, What.delta] <;> omega
    · simp [hne, hne.symm, this]

theorem Tally.effect (h : Tally s) (he : Effect s s') : Tally s' := by
  cases he with
  | same hs _ hb => exact h.same hs hb
  | note p w hs _ _ hb => exact h.note hs hb
  | enroll q hs _ _ hb =>
    refine Tally.same (s := s.enroll q) ⟨fun p i => ?_, h.balance⟩ hs hb
    rw [State.count_enroll, h.count]
    rfl

theorem tally_init [NeZero N] : Tally (init : State N M) where
  count p i := rfl
  balance p := by
    have : (init.slot p : Slot N M).state ≠ .running := by
      simp only [init]
      split <;> exact nofun
    rw [busy, if_neg this]
    rfl

theorem tally_of_run [NeZero N] (hr : Run (Next step) init l s) : Tally s := by
  have h := hr.invariant (I := fun s => Inv s.toControl ∧ Tally s) (fun s a s' _ hs h => ?_)
    ⟨inv_init, tally_init⟩
  · exact h.2
  · have hspec := step_spec h.1 hs
    exact ⟨hspec.inv, h.2.effect hspec.effect⟩

/-- In every state of every run the run count of a slot is the sum of its preemptions, its sleeps
and the processes in it that have exited, with one more while it is running. -/
theorem run_count_conserved [NeZero N] (hr : Run (Next step) init l s) (p : Fin N) :
    (s.data p).count .runCount = (s.data p).count .preemptCount + (s.data p).count .sleepCount +
      BitVec.ofNat 32 (s.times p none) + if (s.slot p).state = .running then 1 else 0 := by
  have h := tally_of_run hr
  have hb := h.balance p
  rw [h.count, h.count, h.count, ← BitVec.ofNat_add, ← BitVec.ofNat_add]
  unfold busy at hb
  split at hb
  next hrun =>
    have hn : s.times p (some .runCount) = s.times p (some .preemptCount) +
        s.times p (some .sleepCount) + s.times p none + 1 := by omega
    rw [hn, BitVec.ofNat_add, if_pos hrun]
    rfl
  next hrun =>
    have hn : s.times p (some .runCount) = s.times p (some .preemptCount) +
        s.times p (some .sleepCount) + s.times p none := by omega
    rw [hn, if_neg hrun]
    exact (BitVec.add_zero _).symm

/-! ## Whose events they are -/

/-- A serial number belongs to one process in one slot. -/
structure Serials (s : State N M) : Prop where
  past : ∀ e ∈ s.history, e.serial < s.born
  lt : ∀ p, (s.slot p).state ≠ .unused → (s.data p).serial < s.born
  one : ∀ p q, (s.slot p).state ≠ .unused → (s.slot q).state ≠ .unused →
    (s.data p).serial = (s.data q).serial → p = q
  slot : ∀ e ∈ s.history, ∀ p, (s.slot p).state ≠ .unused → e.serial = (s.data p).serial → e.slot = p

theorem Serials.same (h : Serials s) (hs : Same s s') (hu : Unused s.toControl s'.toControl none) :
    Serials s' := by
  have hlive : ∀ p, (s'.slot p).state ≠ .unused → (s.slot p).state ≠ .unused :=
    fun p hp hp' => hp (hu p nofun hp')
  refine ⟨fun e he => ?_, fun p hp => ?_, fun p q hp hq heq => ?_, fun e he p hp heq => ?_⟩
  · rw [hs.history] at he
    rw [hs.born]
    exact h.past e he
  · rw [hs.serial, hs.born]
    exact h.lt p (hlive p hp)
  · rw [hs.serial, hs.serial] at heq
    exact h.one p q (hlive p hp) (hlive q hq) heq
  · rw [hs.history] at he
    rw [hs.serial] at heq
    exact h.slot e he p (hlive p hp) heq

theorem Serials.note (h : Serials s) (hp : (s.slot p).state ≠ .unused) :
    Serials (s.note p w) := by
  refine ⟨fun e he => ?_, fun q hq => ?_, fun q q' hq hq' heq => ?_, fun e he q hq heq => ?_⟩
  · rcases List.mem_cons.mp he with rfl | he
    · exact h.lt p hp
    · exact h.past e he
  · rw [State.serial_note]
    exact h.lt q hq
  · rw [State.serial_note, State.serial_note] at heq
    exact h.one q q' hq hq' heq
  · rw [State.serial_note] at heq
    rcases List.mem_cons.mp he with rfl | he
    · exact h.one p q hp hq heq
    · exact h.slot e he q hq heq

theorem Serials.effect (h : Serials s) (he : Effect s s') : Serials s' := by
  cases he with
  | same hs hu _ => exact h.same hs hu
  | note p w hs hu hp _ => exact (h.note hp).same hs hu
  | enroll q hs hu hq _ =>
    -- the new process gets a number that no event and no process has
    have hlive : ∀ p, p ≠ q → (s'.slot p).state ≠ .unused → (s.slot p).state ≠ .unused :=
      fun p hne hp hp' => hp (hu p (fun he => hne (Option.some.inj he).symm) hp')
    have hborn : s'.born = s.born + 1 := hs.born
    have hhist : s'.history = s.history := hs.history
    refine ⟨fun e he => ?_, fun p hp => ?_, fun p p' hp hp' heq => ?_, fun e he p hp heq => ?_⟩
    · rw [hborn]
      exact Nat.lt_succ_of_lt (h.past e (hhist ▸ he))
    · rw [hs.serial, State.serial_enroll, hborn]
      split
      · exact Nat.lt_succ_self _
      next hne => exact Nat.lt_succ_of_lt (h.lt p (hlive p hne hp))
    · rw [hs.serial, hs.serial, State.serial_enroll, State.serial_enroll] at heq
      split at heq <;> split at heq
      next e₁ e₂ => rw [e₁, e₂]
      next hne => exact absurd heq.symm (h.lt p' (hlive p' hne hp')).ne
      next hne _ => exact absurd heq (h.lt p (hlive p hne hp)).ne
      next hne hne' => exact h.one p p' (hlive p hne hp) (hlive p' hne' hp') heq
    · rw [hs.serial, State.serial_enroll] at heq
      rw [hhist] at he
      split at heq
      · exact absurd heq (h.past e he).ne
      next hne => exact h.slot e he p (hlive p hne hp) heq

theorem serials_init [NeZero N] : Serials (init : State N M) := by
  have hlive : ∀ p, (init.slot p : Slot N M).state ≠ .unused → p = 0 := fun p hp => by
    by_contra hne
    simp [init, hne] at hp
  refine ⟨fun e he => ?_, fun p _ => Nat.zero_lt_one, fun p q hp hq _ => ?_, fun e he => ?_⟩
  · cases he
  · rw [hlive p hp, hlive q hq]
  · cases he

theorem serials_of_run [NeZero N] (hr : Run (Next step) init l s) : Serials s := by
  have h := hr.invariant (I := fun s => Inv s.toControl ∧ Serials s) (fun s a s' _ hs h => ?_)
    ⟨inv_init, serials_init⟩
  · exact h.2
  · have hspec := step_spec h.1 hs
    exact ⟨hspec.inv, h.2.effect hspec.effect⟩

/-- `struct sched_history` -/
structure SchedHistory where
  runCount : BitVec 32
  systemcallCount : BitVec 32
  interruptCount : BitVec 32
  preemptCount : BitVec 32
  trapCount : BitVec 32
  sleepCount : BitVec 32
  deriving DecidableEq

/-- What `sys_getschedhistory` copies out for process `p`. -/
def sysGetschedhistory (s : State N M) (p : Fin N) : SchedHistory where
  runCount := (s.data p).count .runCount
  systemcallCount := (s.data p).count .systemcallCount
  interruptCount := (s.data p).count .interruptCount
  preemptCount := (s.data p).count .preemptCount
  trapCount := (s.data p).count .trapCount
  sleepCount := (s.data p).count .sleepCount

/-- What happened to process `p` since it was created. -/
def ownHistory (s : State N M) (p : Fin N) : SchedHistory where
  runCount := .ofNat 32 (s.own p .runCount)
  systemcallCount := .ofNat 32 (s.own p .systemcallCount)
  interruptCount := .ofNat 32 (s.own p .interruptCount)
  preemptCount := .ofNat 32 (s.own p .preemptCount)
  trapCount := .ofNat 32 (s.own p .trapCount)
  sleepCount := .ofNat 32 (s.own p .sleepCount)

/-- The events of a slot are those of its process and those of earlier ones. -/
theorem Serials.times_eq (h : Serials s) (hp : (s.slot p).state ≠ .unused) (i : Counter) :
    s.times p (some i) = s.own p i + s.earlier p i := by
  unfold State.times State.own State.earlier
  have hslot : ∀ e ∈ s.history, e.serial = (s.data p).serial → e.slot = p :=
    fun e he => h.slot e he p hp
  generalize s.history = l at hslot
  induction l with
  | nil => rfl
  | cons e l ih =>
    have hl := ih fun e he => hslot e (List.mem_cons_of_mem _ he)
    have he := hslot e List.mem_cons_self
    simp only [List.countP_cons, hl]
    by_cases hn : e.serial = (s.data p).serial
    · simp [hn, he hn]
      omega
    · simp [hn]
      omega

/-- In every run a process reads its own counts if and only if, for every counter, the counts of the
earlier processes in its slot are a multiple of the values of an `int`. -/
theorem sched_history_own_iff [NeZero N] (hr : Run (Next step) init l s) (p : Fin N)
    (hp : (s.slot p).state ≠ .unused) :
    sysGetschedhistory s p = ownHistory s p ↔ ∀ i, 2 ^ 32 ∣ s.earlier p i := by
  have hcount : ∀ i, (s.data p).count i = BitVec.ofNat 32 (s.own p i) ↔ 2 ^ 32 ∣ s.earlier p i := by
    intro i
    rw [(tally_of_run hr).count, (serials_of_run hr).times_eq hp, ← BitVec.toNat_inj,
      BitVec.toNat_ofNat, BitVec.toNat_ofNat]
    omega
  rw [sysGetschedhistory, ownHistory, SchedHistory.mk.injEq]
  simp only [hcount]
  constructor
  · rintro ⟨h₁, h₂, h₃, h₄, h₅, h₆⟩ i
    cases i <;> assumption
  · intro h
    exact ⟨h _, h _, h _, h _, h _, h _⟩

/-- The first process forks a child, which exits, waits for it and forks another, which gets the
same slot. -/
def reuseTrace : List (Act NPROC 3) :=
  let go c n := List.replicate n (.go c true)
  go 0 8 ++ [.op 0 .ret] ++ go 0 1 ++ [.trap 0 .syscall] ++ go 0 6 ++ [.op 0 .fork] ++ go 0 15 ++
    go 1 13 ++ [.trap 1 .syscall] ++ go 1 6 ++ [.op 1 .exit] ++ go 1 1 ++ [.op 1 .ret] ++
    go 1 326 ++ [.op 0 (.wait 0)] ++ go 0 7 ++ [.op 0 .fork] ++ go 0 15 ++ go 2 13

set_option maxRecDepth 100000 in
/-- The second child has run once; its run count is 2. -/
theorem sched_history_not_own : ∃ s, Run (Next step) (init : State NPROC 3) reuseTrace s ∧
    (s.slot 1).state = .running ∧ s.own 1 .runCount = 1 ∧ (sysGetschedhistory s 1).runCount = 2 := by
  have heval : (exec step (init : State NPROC 3) reuseTrace).any (fun s =>
      decide ((s.slot 1).state = .running ∧ s.own 1 .runCount = 1 ∧
        (sysGetschedhistory s 1).runCount = 2)) = true := by decide +kernel
  obtain ⟨s, he, hs⟩ := exists_of_exec step heval
  exact ⟨s, run_of_exec step he, hs⟩

/-- The first process is the only one that was ever in its slot. -/
theorem sched_history_own_first : ∃ s, Run (Next step) (init : State NPROC 1) (timerTrace 8) s ∧
    sysGetschedhistory s 0 = ownHistory s 0 := by
  have heval : (exec step (init : State NPROC 1) (timerTrace 8)).any (fun s =>
      decide ((s.slot 0).state ≠ .unused ∧ s.history.all fun e => e.serial = (s.data 0).serial)) =
        true := by decide +kernel
  obtain ⟨s, he, hstate, hall⟩ := exists_of_exec step heval
  have hr := run_of_exec step he
  refine ⟨s, hr, (sched_history_own_iff hr 0 hstate).mpr fun i => ?_⟩
  have hzero : s.earlier 0 i = 0 := by
    rw [State.earlier, List.countP_eq_zero]
    intro e he' hc
    simp only [decide_eq_true_eq] at hc
    exact hc.2.1 (by simpa using List.all_eq_true.mp hall e he')
  rw [hzero]
  exact dvd_zero _

/-- In `yield` the first process has run once and has been preempted once. -/
theorem run_count_conserved_yield : ∃ s, Run (Next step) (init : State NPROC 1) (timerTrace 8) s ∧
    (s.data 0).count .runCount = (s.data 0).count .preemptCount + (s.data 0).count .sleepCount +
      BitVec.ofNat 32 (s.times 0 none) + if (s.slot 0).state = .running then 1 else 0 := by
  have heval : (exec step (init : State NPROC 1) (timerTrace 8)).any (fun _ => decide True) =
      true := by decide +kernel
  obtain ⟨s, he, -⟩ := exists_of_exec step heval
  have hr := run_of_exec step he
  exact ⟨s, hr, run_count_conserved hr 0⟩

end Xv6.Sched

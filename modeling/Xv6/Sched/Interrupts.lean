import Xv6.Sched.Counters

/-! # Timer interrupts

`usertrap` counts a timer interrupt right before it calls `yield`, with interrupts off
in between. `kerneltrap` calls `yield` too, but counts nothing.
-/

namespace Xv6.Sched

open Sys (ProcState)

variable {N M : ℕ} {s s' t : State N M} {c : Fin M} {p q : Fin N} {k pc : Pc N} {ok : Bool}
  {l : List (Act N M)}

/-- How far `usertrap` is with a timer interrupt. -/
inductive Phase
  | none
  /-- It has not been counted yet. -/
  | due
  /-- It has been counted, and `yield` has not. -/
  | pending
  deriving DecidableEq

namespace Pc

def phase : Pc N → Phase
  | usertrap .timer | timer => .due
  | yield k | yielding k => if k = usertrapret then .pending else .none
  | lock _ k | unlock _ k | acquire _ k | release _ k => k.phase
  | handler _ k | wakeup _ _ k | wake _ _ k => k.phase
  | killed _ no | readKilled _ no => no.phase
  | _ => .none

/-- Interrupts are off, also when no lock is held. -/
def masked : Pc N → Bool
  | usertrap _ | syscall | timer | handler .. | kerneltrap .. | sret _ | yield _ | yielding _ => true
  | lock _ k | unlock _ k | acquire _ k | release _ k | sched k => k.masked
  | wakeup _ _ k | wake _ _ k => k.masked
  | killed _ no | readKilled _ no => no.masked
  | _ => false

/-- What comes later is in no phase, and is masked only where interrupts stay off. -/
def Clock : Pc N → Prop
  | lock _ k | unlock _ k | acquire _ k | release _ k => k.Clock
  | handler _ k | wakeup _ _ k | wake _ _ k => k.Clock
  | kerneltrap _ k | sret k => k.Clock ∧ k.masked = false
  | yield k | yielding k | sched k => k.Clock ∧ k.phase = .none
  | resume b k => k.Clock ∧ k.phase = .none ∧ (k.masked = true → b = false)
  | killed yes no | readKilled yes no =>
    (yes.Clock ∧ yes.phase = .none ∧ yes.masked = false) ∧ no.Clock ∧ no.phase ≠ .pending
  | kernel _ k | sleep _ _ k | sleeping _ _ k | slept _ k | kill _ _ k | killing _ _ k
  | setkilled k | writeKilled k | alloc _ k | allocating _ k | setup _ k | adopt _ k | ready _ k
  | search _ _ _ k | child _ _ k => k.Clock ∧ k.phase = .none ∧ k.masked = false
  | _ => True

theorem phase_of_unmasked (h : pc.masked = false) : pc.phase = .none := by
  induction pc with
  | lock _ k ih | unlock _ k ih | acquire _ k ih | release _ k ih | wakeup _ _ k ih
  | wake _ _ k ih => exact ih h
  | killed yes no _ ih | readKilled yes no _ ih => exact ih h
  | usertrap _ | timer | handler | yield | yielding => cases h
  | _ => rfl

end Pc

variable {w : What}

namespace State

/-- The preemptions of processes in slot `p` by `kerneltrap`, or by `usertrap`. -/
def preempts (s : State N M) (p : Fin N) (kernel : Bool) : ℕ :=
  s.history.countP fun e => e.slot = p ∧ e.what = .preempt kernel

theorem preempts_note {b : Bool} : (s.note p w).preempts q b =
    s.preempts q b + if p = q ∧ w = .preempt b then 1 else 0 := by
  simp [preempts, note, List.countP_cons]

theorem times_preempt : s.times p (some .preemptCount) = s.preempts p true + s.preempts p false := by
  unfold times preempts
  induction s.history with
  | nil => rfl
  | cons e l ih =>
    simp only [List.countP_cons, ih]
    cases he : e.what with
    | preempt b => cases b <;> by_cases hp : e.slot = p <;> simp [What.counter, hp] <;> omega
    | _ => simp [What.counter]

end State

/-- The counts of slot `p` when its thread is at `pc`. -/
structure Counted (s : State N M) (p : Fin N) (pc : Pc N) : Prop where
  interrupt : s.times p (some .interruptCount) =
    s.preempts p false + if pc.phase = .pending then 1 else 0
  trap : s.times p (some .interruptCount) + (if pc.phase = .due then 1 else 0) ≤
    s.times p (some .trapCount)

structure Clocked (s : State N M) : Prop where
  proc : ∀ p, (s.slot p).pc.Clock
  cpu : ∀ c, (s.cpu c).pc.Clock
  off : ∀ c, (s.pc c).masked = true → s.intena c = false
  counts : ∀ p, Counted s p (s.slot p).pc

/-- The counts that matter here are the same. -/
structure Neutral (s s' : State N M) : Prop where
  interrupt : ∀ p, s'.times p (some .interruptCount) = s.times p (some .interruptCount)
  trap : ∀ p, s'.times p (some .trapCount) = s.times p (some .trapCount)
  preempt : ∀ p, s'.preempts p false = s.preempts p false

theorem Neutral.of (h : s'.history = s.history) : Neutral s s' := by
  constructor <;> intro p <;> simp only [State.times, State.preempts, h]

/-- Events other than traps, timer interrupts and preemptions in user space. -/
theorem Neutral.note (h : s'.history = (s.note p w).history) (h₁ : w.counter ≠ some .interruptCount)
    (h₂ : w.counter ≠ some .trapCount) (h₃ : w ≠ .preempt false) : Neutral s s' := by
  have hn := Neutral.of h
  constructor <;> intro q
  · rw [hn.interrupt, State.times_note, if_neg fun hc => h₁ hc.2, Nat.add_zero]
  · rw [hn.trap, State.times_note, if_neg fun hc => h₂ hc.2, Nat.add_zero]
  · rw [hn.preempt, State.preempts_note, if_neg fun hc => h₃ hc.2, Nat.add_zero]

theorem Counted.congr (h : Counted s p pc) (hn : Neutral s s')
    (hk : k.phase = pc.phase ∨ k.phase = .none ∧ pc.phase ≠ .pending) : Counted s' p k := by
  obtain ⟨h₁, h₂⟩ := h
  constructor <;> rw [hn.interrupt] <;> rcases hk with hk | ⟨hk, hne⟩
  · rw [hn.preempt, hk, h₁]
  · rw [hn.preempt, hk, h₁, if_neg hne, if_neg nofun]
  · rw [hn.trap, hk]
    exact h₂
  · rw [hn.trap, hk, if_neg nofun]
    omega

theorem Counted.other (h : Counted s p pc) (hne : q ≠ p) : Counted (s.note q w) p pc := by
  obtain ⟨h₁, h₂⟩ := h
  constructor <;> simpa [State.times_note, State.preempts_note, hne]

/-- How an event moves the phase. -/
def What.Moves : What → Phase → Phase → Prop
  | interrupt, x, y => x = .due ∧ y = .pending
  | preempt false, x, y => x = .pending ∧ y = .none
  | trap, x, y => x = .none ∧ y ≠ .pending
  | _, _, _ => False

theorem Counted.note (h : Counted s p pc) (hk : w.Moves pc.phase k.phase) :
    Counted (s.note p w) p k := by
  obtain ⟨h₁, h₂⟩ := h
  cases w with
  | interrupt =>
    obtain ⟨hx, hy⟩ := hk
    rw [hx] at h₁ h₂
    constructor <;> simp [State.times_note, State.preempts_note, What.counter, hy] at * <;> omega
  | preempt kernel =>
    cases kernel with
    | true => exact hk.elim
    | false =>
      obtain ⟨hx, hy⟩ := hk
      rw [hx] at h₁ h₂
      constructor <;> simp [State.times_note, State.preempts_note, What.counter, hy] at * <;> omega
  | trap =>
    obtain ⟨hx, hy⟩ := hk
    rw [hx] at h₁ h₂
    constructor <;> simp [State.times_note, State.preempts_note, What.counter, hy] at *
    · omega
    · split <;> omega
  | _ => exact hk.elim

/-! ## Steps -/

/-- Only the thread on CPU `c` goes on, at `k`. -/
structure Stays (s x : Control N M) (c : Fin M) (k : Pc N) : Prop where
  runs : ∀ c', (x.cpu c').runs = (s.cpu c').runs
  slot : ∀ p, (x.slot p).pc = if (s.cpu c).runs = some p then k else (s.slot p).pc
  cpu : ∀ c', (x.cpu c').pc = if c' = c ∧ (s.cpu c).runs = none then k else (s.cpu c').pc

theorem Stays.goto {s y : Control N M} (hr : ∀ c', (y.cpu c').runs = (s.cpu c').runs)
    (hc : ∀ c', (y.cpu c').pc = (s.cpu c').pc) (hp : ∀ p, (y.slot p).pc = (s.slot p).pc) :
    Stays s (y.goto c k) c k where
  runs c' := by rw [Control.runs_goto, hr]
  slot p := by rw [Control.pc_goto, hr, hp]
  cpu c' := by rw [Control.cpuPc_goto, hr, hc]

theorem Stays.cur {s x : Control N M} (hs : Stays s x c k) (h : Cpus s) (c' : Fin M) :
    x.pc c' = if c' = c then k else s.pc c' := by
  unfold Control.pc
  rw [hs.runs, hs.cpu]
  split
  next hn =>
    rcases eq_or_ne c' c with rfl | hne
    · rw [if_pos ⟨rfl, hn⟩, if_pos rfl]
    · rw [if_neg fun hc => hne hc.1, if_neg hne]
  next p hp =>
    rw [hs.slot]
    rcases eq_or_ne c' c with rfl | hne
    · rw [if_pos hp, if_pos rfl]
    · rw [if_neg fun hc => hne (h.runs_one hp hc), if_neg hne]

theorem Clocked.clock (h : Clocked s) (c : Fin M) : (s.pc c).Clock := by
  unfold Control.pc
  split
  · exact h.cpu c
  · exact h.proc _

theorem Clocked.go (hi : Cpus s.toControl) (h : Clocked s) (hs : Stays s.toControl s'.toControl c k)
    (hint : ∀ c', c' ≠ c → s'.intena c' = s.intena c') (hk : k.Clock)
    (hoff : k.masked = true → s'.intena c = false)
    (hcount : ∀ p, Counted s' p (if (s.cpu c).runs = some p then k else (s.slot p).pc)) :
    Clocked s' where
  proc p := by
    rw [hs.slot]
    split
    · exact hk
    · exact h.proc p
  cpu c' := by
    rw [hs.cpu]
    split
    · exact hk
    · exact h.cpu c'
  off c' hm := by
    rw [hs.cur hi] at hm
    rcases eq_or_ne c' c with rfl | hne
    · exact hoff (by rwa [if_pos rfl] at hm)
    · rw [if_neg hne] at hm
      rw [hint c' hne]
      exact h.off c' hm
  counts p := by
    rw [hs.slot]
    exact hcount p

/-- A step without one of these events. -/
theorem Clocked.quiet (hi : Cpus s.toControl) (h : Clocked s)
    (hs : Stays s.toControl s'.toControl c k) (hn : Neutral s s')
    (hint : ∀ c', c' ≠ c → s'.intena c' = s.intena c') (hk : k.Clock)
    (hoff : k.masked = true → s'.intena c = false)
    (hp : k.phase = (s.pc c).phase ∨ k.phase = .none ∧ (s.pc c).phase ≠ .pending) : Clocked s' := by
  refine h.go hi hs hint hk hoff fun p => ?_
  split
  next hr => exact (h.counts p).congr hn (by rwa [← Control.pc_of_runs hr])
  next => exact (h.counts p).congr hn (.inl rfl)

theorem Clocked.noted (hi : Cpus s.toControl) (h : Clocked s)
    (hs : Stays s.toControl s'.toControl c k) (hr : (s.cpu c).runs = some p)
    (hh : s'.history = (s.note p w).history) (hint : ∀ c', c' ≠ c → s'.intena c' = s.intena c')
    (hk : k.Clock) (hoff : k.masked = true → s'.intena c = false)
    (hw : w.Moves (s.pc c).phase k.phase) : Clocked s' := by
  refine h.go hi hs hint hk hoff fun q => ?_
  split
  next hq =>
    obtain rfl := Option.some.inj (hr.symm.trans hq)
    rw [Control.pc_of_runs hr] at hw
    exact ((h.counts p).note hw).congr (.of hh) (.inl rfl)
  next hq =>
    have hne : p ≠ q := fun he => hq (he ▸ hr)
    exact ((h.counts q).other hne).congr (.of hh) (.inl rfl)

/-- A step that leaves `intena` alone. -/
theorem Clocked.on (hi : Cpus s.toControl) (h : Clocked s) {y : Control N M} (hpc : s.pc c = pc)
    (hn : Neutral s t) (hti : t.intena = s.intena)
    (hr : ∀ c', (y.cpu c').runs = (s.cpu c').runs) (hc : ∀ c', (y.cpu c').pc = (s.cpu c').pc)
    (hy : ∀ p, (y.slot p).pc = (s.slot p).pc) (hk : k.Clock)
    (hm : k.masked = true → pc.masked = true)
    (hp : k.phase = pc.phase ∨ k.phase = .none ∧ pc.phase ≠ .pending) :
    Clocked (t.on (y.goto c k)) :=
  h.quiet hi (c := c) (k := k) (.goto hr hc hy) ⟨hn.interrupt, hn.trap, hn.preempt⟩
    (fun _ _ => congrFun hti _) hk (fun hk => (congrFun hti c).trans (h.off c (hpc ▸ hm hk)))
    (hpc ▸ hp)

theorem Clocked.hop (hi : Cpus s.toControl) (h : Clocked s) (hpc : s.pc c = pc)
    (hs : t.jump c k = some (.ok s')) (htc : t.toControl = s.toControl) (hn : Neutral s t)
    (hti : t.intena = s.intena) (hk : k.Clock) (hm : k.masked = true → pc.masked = true)
    (hp : k.phase = pc.phase ∨ k.phase = .none ∧ pc.phase ≠ .pending) : Clocked s' := by
  cases hs
  rw [htc]
  exact h.on hi hpc hn hti (fun _ => rfl) (fun _ => rfl) (fun _ => rfl) hk hm hp

theorem Clocked.intena (hi : Cpus s.toControl) (h : Clocked s) {b : Bool} (hpc : s.pc c = pc)
    (hs : (s.setIntena c b).jump c k = some (.ok s')) (hk : k.Clock)
    (hm : k.masked = true → b = false)
    (hp : k.phase = pc.phase ∨ k.phase = .none ∧ pc.phase ≠ .pending) : Clocked s' := by
  cases hs
  refine h.quiet hi (k := k) (.goto (fun _ => rfl) (fun _ => rfl) fun _ => rfl) (.of rfl)
    (fun _ hne => Function.update_of_ne hne _ _) hk (fun hk => ?_) (hpc ▸ hp)
  exact (Function.update_self c b s.intena).trans (hm hk)

theorem Clocked.switch (h : Clocked s) (hi : Inv s.toControl) (hpc : s.pc c = .switch p) :
    Clocked (s.on ((s.goto c (.back p)).setRuns c (some p))) := by
  have hr := hi.runs_none hpc fun p => by simp [Pc.Wf]
  have hproc : (s.cpu c).proc = some p := by rw [hi.proc_eq_target hr, hpc]; rfl
  have hslot : ((s.goto c (.back p)).setRuns c (some p)).slot = s.slot := by
    rw [Control.slot_setRuns]
    unfold Control.goto
    rw [hr]
    rfl
  have hoff : ∀ c', (s.cpu c').runs ≠ some p := fun c' hc' => by
    obtain rfl := hi.cpus.one c' c p (hi.cpus.runs c' p hc').1 hproc
    simp [hr] at hc'
  refine ⟨fun q => ?_, fun c' => ?_, fun c' hm => ?_, fun q => ?_⟩
  · rw [State.on, hslot]
    exact h.proc q
  · rw [State.on, Control.cpuPc_setRuns, Control.cpuPc_goto]
    split
    · trivial
    · exact h.cpu c'
  · rcases eq_or_ne c' c with rfl | hne
    · -- where the thread stopped, interrupts may be on
      rw [State.on, Control.pc_of_runs (by rw [Control.runs_setRuns, if_pos rfl]), hslot] at hm
      rcases (hi.threads.halted p hoff).1 with he | ⟨b, k, he⟩ <;> rw [he] at hm <;> cases hm
    · rw [State.on, Control.cur_setRuns hne, Control.cur_goto hne (by simp [hr])] at hm
      exact h.off c' hm
  · rw [State.on, hslot]
    exact (h.counts q).congr (.of rfl) (.inl rfl)

theorem Clocked.sched (h : Clocked s) (hi : Inv s.toControl) (hr : (s.cpu c).runs = some p)
    (hpc : s.pc c = .sched k) :
    Clocked (s.on ((s.goto c (.resume (s.intena c) k)).setRuns c none)) := by
  have hk : (Pc.sched k).Clock := hpc ▸ h.clock c
  have hp : (s.slot p).pc = .sched k := by rw [← Control.pc_of_runs hr, hpc]
  have hslot : ∀ q, (((s.goto c (.resume (s.intena c) k)).setRuns c none).slot q).pc =
      if (s.cpu c).runs = some q then .resume (s.intena c) k else (s.slot q).pc := fun q => by
    rw [Control.slot_setRuns, Control.pc_goto]
  refine ⟨fun q => ?_, fun c' => ?_, fun c' hm => ?_, fun q => ?_⟩
  · rw [State.on, hslot]
    split
    · exact ⟨hk.1, hk.2, fun hm => h.off c (by rwa [hpc])⟩
    · exact h.proc q
  · rw [State.on, Control.cpuPc_setRuns, Control.cpuPc_goto, if_neg (by simp [hr])]
    exact h.cpu c'
  · rcases eq_or_ne c' c with rfl | hne
    · rw [State.on, Control.pc_of_none (by rw [Control.runs_setRuns, if_pos rfl]),
        Control.cpuPc_setRuns, Control.cpuPc_goto, if_neg (by simp [hr]),
        (hi.cpus.runs c' p hr).2] at hm
      cases hm
    · rw [State.on, Control.cur_setRuns hne, Control.cur_goto hne (hi.cpus.runs_ne hne)] at hm
      exact h.off c' hm
  · rw [State.on, hslot]
    refine (h.counts q).congr (.of rfl) (.inl ?_)
    split
    next hq => rw [← Option.some.inj (hr.symm.trans hq), hp]; rfl
    next => rfl

theorem Clocked.forked (h : Clocked s) (hi : Inv s.toControl) (hpc : s.pc c = .setup q k) :
    Clocked (s.on ((s.setPc q .forkret).goto c (.unlock q (.acquire .wait (.adopt q k))))) := by
  have hk : (Pc.setup q k).Clock := hpc ▸ h.clock c
  have hoff : ∀ c', (s.cpu c').runs ≠ some q := fun c' hc' =>
    hi.off_of_holds (c := c) (by simp [hi.state_setup hpc]) (by rw [hpc]; rfl) (by rw [hpc]; rfl) c'
      (hi.cpus.runs c' q hc').1
  -- the new context changes nothing that is counted
  have hset : Clocked (s.on (s.setPc q .forkret)) := by
    refine ⟨fun p => ?_, h.cpu, fun c' hm => ?_, fun p => ?_⟩
    · rw [State.on, Control.pc_setPc]
      split
      · trivial
      · exact h.proc p
    · rw [State.on, Control.cur_setPc (hoff c')] at hm
      exact h.off c' hm
    · rw [State.on, Control.pc_setPc]
      split
      next hp =>
        refine (h.counts p).congr (.of rfl) (.inl ?_)
        rcases (hi.threads.halted q hoff).1 with he | ⟨b, k, he⟩ <;> rw [hp, he]
        rfl
      next => exact (h.counts p).congr (.of rfl) (.inl rfl)
  have hpc' : (s.on (s.setPc q .forkret)).pc c = .setup q k := by
    rw [State.on, Control.cur_setPc (hoff c), hpc]
  have hcpus : Cpus (s.on (s.setPc q .forkret)).toControl :=
    ⟨hi.cpus.runs, hi.cpus.idle, hi.cpus.one⟩
  exact hset.on hcpus (t := s) hpc' (.of rfl) rfl (fun _ => rfl) (fun _ => rfl) (fun _ => rfl) hk
    nofun (.inl rfl)

theorem clock_trapEnd : (trapEnd : Pc N).Clock := ⟨⟨trivial, rfl, rfl⟩, trivial, nofun⟩

theorem move_clocked (hi : Inv s.toControl) (h : Clocked s) (hpc : s.pc c = pc)
    (hs : move s c ok pc = some (.ok s')) : Clocked s' := by
  have hk : pc.Clock := hpc ▸ h.clock c
  have hn : Neutral s s := .of rfl
  cases pc with
  | scan i =>
    rw [move] at hs
    split at hs
    · exact h.hop hi.cpus hpc hs rfl hn rfl trivial nofun (.inl rfl)
    · exact h.intena hi.cpus hpc hs trivial nofun (.inl rfl)
  | choose p =>
    rw [move] at hs
    split at hs
    · cases hs
      exact h.on hi.cpus hpc (.note rfl nofun nofun nofun) rfl (fun _ => Control.runs_setProc)
        (fun _ => Control.cpuPc_setProc) (fun _ => Control.pc_setState) trivial nofun (.inl rfl)
    · exact h.hop hi.cpus hpc hs rfl hn rfl trivial nofun (.inl rfl)
  | switch p =>
    cases hs
    exact h.switch hi hpc
  | back p =>
    cases hs
    exact h.on hi.cpus hpc hn rfl (fun _ => Control.runs_setProc) (fun _ => Control.cpuPc_setProc)
      (fun _ => rfl) trivial nofun (.inl rfl)
  | lock q k =>
    rw [move] at hs
    split at hs
    · cases hs
    split at hs
    · cases hs
      exact h.on hi.cpus hpc hn rfl (fun _ => rfl) (fun _ => rfl) (fun _ => Control.pc_setLock) hk id
        (.inl rfl)
    · cases hs
  | unlock q k =>
    rw [move] at hs
    split at hs
    · cases hs
      exact h.on hi.cpus hpc hn rfl (fun _ => rfl) (fun _ => rfl) (fun _ => Control.pc_setLock) hk id
        (.inl rfl)
    · cases hs
  | acquire l k =>
    rw [move] at hs
    split at hs
    · cases hs
    split at hs
    · cases hs
      exact h.on hi.cpus hpc hn rfl (fun _ => rfl) (fun _ => rfl) (fun _ => rfl) hk id (.inl rfl)
    · cases hs
  | release l k =>
    rw [move] at hs
    split at hs
    · cases hs
      exact h.on hi.cpus hpc hn rfl (fun _ => rfl) (fun _ => rfl) (fun _ => rfl) hk id (.inl rfl)
    · cases hs
  | user => cases hs
  | kernel held k => cases hs
  | handler held k => cases hs
  | forkret =>
    obtain ⟨p, -, -, hs⟩ := mine hi hpc (fun hw => hw rfl) hs
    exact h.hop hi.cpus hpc hs rfl hn rfl trivial nofun (.inl rfl)
  | first =>
    rw [move] at hs
    split at hs
    · exact h.hop hi.cpus hpc hs rfl (.of rfl) rfl ⟨trivial, rfl, rfl⟩ nofun (.inl rfl)
    · exact h.hop hi.cpus hpc hs rfl hn rfl trivial nofun (.inl rfl)
  | usertrap cause =>
    cases cause with
    | syscall =>
      obtain ⟨p, -, -, hs⟩ := mine hi hpc (fun hw => hw rfl) hs
      exact h.hop hi.cpus hpc hs rfl (.note rfl nofun nofun nofun) rfl ⟨⟨trivial, rfl, rfl⟩, trivial, nofun⟩
        (fun _ => rfl) (.inl rfl)
    | timer =>
      exact h.hop hi.cpus hpc hs rfl hn rfl ⟨⟨trivial, rfl, rfl⟩, trivial, nofun⟩ (fun _ => rfl) (.inl rfl)
    | device => exact h.hop hi.cpus hpc hs rfl hn rfl clock_trapEnd (fun _ => rfl) (.inl rfl)
    | fault => exact h.hop hi.cpus hpc hs rfl hn rfl ⟨clock_trapEnd, rfl, rfl⟩ (fun _ => rfl) (.inl rfl)
  | syscall => exact h.intena hi.cpus hpc hs ⟨clock_trapEnd, rfl, rfl⟩ nofun (.inl rfl)
  | timer =>
    obtain ⟨p, hr, -, hs⟩ := mine hi hpc (fun hw => hw rfl) hs
    cases hs
    exact h.noted (w := .interrupt) hi.cpus (.goto (fun _ => rfl) (fun _ => rfl) fun _ => rfl) hr rfl
      (fun _ _ => rfl) ⟨trivial, rfl⟩ (fun _ => h.off c (hpc ▸ rfl)) (by rw [hpc]; exact ⟨rfl, rfl⟩)
  | usertrapret => exact h.intena hi.cpus hpc hs trivial nofun (.inl rfl)
  | kerneltrap timer k =>
    rw [move] at hs
    split at hs
    · exact h.hop hi.cpus hpc hs rfl hn rfl ⟨hk, rfl⟩ (fun _ => rfl) (.inl rfl)
    · exact h.hop hi.cpus hpc hs rfl hn rfl hk (fun _ => rfl) (.inl rfl)
  | sret k =>
    exact h.intena hi.cpus hpc hs hk.1 (by simp [hk.2]) (.inl (Pc.phase_of_unmasked hk.2))
  | yield k =>
    obtain ⟨p, -, -, hs⟩ := mine hi hpc (fun hw => hw.1 rfl) hs
    exact h.hop hi.cpus hpc hs rfl hn rfl hk (fun _ => rfl) (.inl rfl)
  | yielding k =>
    obtain ⟨p, hr, -, hs⟩ := mine hi hpc (fun hw => hw.1 rfl) hs
    cases hs
    rcases eq_or_ne k .usertrapret with rfl | hne
    · exact h.noted (w := .preempt false) hi.cpus
        (.goto (fun _ => rfl) (fun _ => rfl) fun _ => Control.pc_setState) hr rfl (fun _ _ => rfl)
        hk nofun (by rw [hpc]; exact ⟨rfl, rfl⟩)
    · refine h.on hi.cpus hpc (.note rfl nofun nofun ?_) rfl (fun _ => rfl) (fun _ => rfl)
        (fun _ => Control.pc_setState) hk (fun _ => rfl) (.inl ?_)
      · simp [hne]
      · simp [Pc.phase, hne]
  | sched k =>
    obtain ⟨p, hr, -, hs⟩ := mine hi hpc (fun hw => hw.1 rfl) hs
    split at hs
    · cases hs
    split at hs
    · cases hs
    split at hs
    · cases hs
    cases hs
    exact h.sched hi hr hpc
  | resume b k => exact h.intena hi.cpus hpc hs hk.1 hk.2.2 (.inl hk.2.1)
  | sleep chan l k =>
    obtain ⟨p, -, -, hs⟩ := mine hi hpc (fun hw => hw.1 rfl) hs
    exact h.hop hi.cpus hpc hs rfl hn rfl hk nofun (.inl rfl)
  | sleeping chan l k =>
    obtain ⟨p, -, -, hs⟩ := mine hi hpc (fun hw => hw.1 rfl) hs
    cases hs
    exact h.on hi.cpus hpc (.note rfl nofun nofun nofun) rfl (fun _ => rfl) (fun _ => rfl)
      (fun _ => Control.pc_setState) ⟨hk, rfl⟩ nofun (.inl rfl)
  | slept l k =>
    obtain ⟨p, -, -, hs⟩ := mine hi hpc (fun hw => hw.1 rfl) hs
    exact h.hop hi.cpus hpc hs rfl (.of rfl) rfl hk.1 (by simp [Pc.masked, hk.2.2]) (.inl hk.2.1)
  | wakeup chan i k =>
    rw [move] at hs
    split at hs
    · split at hs <;> exact h.hop hi.cpus hpc hs rfl hn rfl hk id (.inl rfl)
    · exact h.hop hi.cpus hpc hs rfl hn rfl hk id (.inl rfl)
  | wake chan q k =>
    rw [move] at hs
    split at hs
    · cases hs
      exact h.on hi.cpus hpc hn rfl (fun _ => rfl) (fun _ => rfl) (fun _ => Control.pc_setState) hk id
        (.inl rfl)
    · exact h.hop hi.cpus hpc hs rfl hn rfl hk id (.inl rfl)
  | kill pid i k =>
    rw [move] at hs
    split at hs
    · exact h.hop hi.cpus hpc hs rfl hn rfl hk nofun (.inl rfl)
    · exact h.hop hi.cpus hpc hs rfl hn rfl hk.1 (by simp [hk.2.2]) (.inl hk.2.1)
  | killing pid q k =>
    rw [move] at hs
    split at hs
    · split at hs
      · cases hs
        exact h.on hi.cpus hpc (.of rfl) rfl (fun _ => rfl) (fun _ => rfl) (fun _ => Control.pc_setState)
          hk.1 (by simp [Pc.masked, hk.2.2]) (.inl hk.2.1)
      · exact h.hop hi.cpus hpc hs rfl (.of rfl) rfl hk.1 (by simp [Pc.masked, hk.2.2]) (.inl hk.2.1)
    · exact h.hop hi.cpus hpc hs rfl hn rfl hk nofun (.inl rfl)
  | killed yes no =>
    obtain ⟨p, -, -, hs⟩ := mine hi hpc (fun hw => hw.1 rfl) hs
    exact h.hop hi.cpus hpc hs rfl hn rfl hk id (.inl rfl)
  | readKilled yes no =>
    obtain ⟨p, -, -, hs⟩ := mine hi hpc (fun hw => hw.1 rfl) hs
    obtain ⟨⟨hy, hyp, hym⟩, hno, hnp⟩ := hk
    split at hs
    · exact h.hop hi.cpus hpc hs rfl hn rfl hy (by simp [Pc.masked, hym]) (.inr ⟨hyp, hnp⟩)
    · exact h.hop hi.cpus hpc hs rfl hn rfl hno id (.inl rfl)
  | setkilled k =>
    obtain ⟨p, -, -, hs⟩ := mine hi hpc (fun hw => hw.1 rfl) hs
    exact h.hop hi.cpus hpc hs rfl hn rfl hk nofun (.inl rfl)
  | writeKilled k =>
    obtain ⟨p, -, -, hs⟩ := mine hi hpc (fun hw => hw.1 rfl) hs
    exact h.hop hi.cpus hpc hs rfl (.of rfl) rfl hk.1 (by simp [Pc.masked, hk.2.2]) (.inl hk.2.1)
  | alloc i k =>
    rw [move] at hs
    split at hs
    · exact h.hop hi.cpus hpc hs rfl hn rfl hk nofun (.inl rfl)
    · exact h.hop hi.cpus hpc hs rfl hn rfl hk.1 (by simp [hk.2.2]) (.inl hk.2.1)
  | allocating q k =>
    rw [move] at hs
    split at hs
    · cases hs
      exact h.on hi.cpus hpc (.of rfl) rfl (fun _ => rfl) (fun _ => rfl) (fun _ => Control.pc_setState)
        hk nofun (.inl rfl)
    · exact h.hop hi.cpus hpc hs rfl hn rfl hk nofun (.inl rfl)
  | setup q k =>
    rw [move] at hs
    split at hs
    · cases hs
      exact h.forked hi hpc
    · cases hs
      exact h.on hi.cpus hpc (.of rfl) rfl (fun _ => rfl) (fun _ => rfl) (fun _ => Control.pc_setState)
        hk.1 (by simp [Pc.masked, hk.2.2]) (.inl hk.2.1)
  | adopt np k =>
    obtain ⟨p, -, -, hs⟩ := mine hi hpc (fun hw => hw.1 rfl) hs
    exact h.hop hi.cpus hpc hs rfl (.of rfl) rfl hk nofun (.inl rfl)
  | ready np k =>
    cases hs
    exact h.on hi.cpus hpc hn rfl (fun _ => rfl) (fun _ => rfl) (fun _ => Control.pc_setState) hk.1
      (by simp [Pc.masked, hk.2.2]) (.inl hk.2.1)
  | exit =>
    obtain ⟨p, -, -, hs⟩ := mine hi hpc (fun hw => hw rfl) hs
    split at hs
    · cases hs
    · exact h.hop hi.cpus hpc hs rfl hn rfl ⟨trivial, rfl, rfl⟩ nofun (.inl rfl)
  | reparent i =>
    obtain ⟨p, -, -, hs⟩ := mine hi hpc (fun hw => hw rfl) hs
    split at hs
    · split at hs
      · exact h.hop hi.cpus hpc hs rfl (.of rfl) rfl trivial nofun (.inl rfl)
      · exact h.hop hi.cpus hpc hs rfl hn rfl trivial nofun (.inl rfl)
    · exact h.hop hi.cpus hpc hs rfl hn rfl trivial nofun (.inl rfl)
  | zombie =>
    obtain ⟨p, -, -, hs⟩ := mine hi hpc (fun hw => hw rfl) hs
    cases hs
    exact h.on hi.cpus hpc (.note rfl nofun nofun nofun) rfl (fun _ => rfl) (fun _ => rfl)
      (fun _ => Control.pc_setState) ⟨trivial, rfl⟩ nofun (.inl rfl)
  | zombieExit => cases hs
  | search addr i havekids k =>
    obtain ⟨p, -, -, hs⟩ := mine hi hpc (fun hw => hw.1 rfl) hs
    split at hs
    · split at hs <;> exact h.hop hi.cpus hpc hs rfl hn rfl hk nofun (.inl rfl)
    split at hs
    · exact h.hop hi.cpus hpc hs rfl hn rfl ⟨hk, ⟨hk, rfl, rfl⟩, nofun⟩ nofun (.inl rfl)
    · exact h.hop hi.cpus hpc hs rfl hn rfl hk.1 (by simp [Pc.masked, hk.2.2]) (.inl hk.2.1)
  | child addr q k =>
    rw [move] at hs
    split at hs
    · split at hs
      · exact h.hop hi.cpus hpc hs rfl hn rfl hk.1 (by simp [Pc.masked, hk.2.2]) (.inl hk.2.1)
      · cases hs
        exact h.on hi.cpus hpc (.of rfl) rfl (fun _ => rfl) (fun _ => rfl) (fun _ => Control.pc_setState)
          hk.1 (by simp [Pc.masked, hk.2.2]) (.inl hk.2.1)
    · exact h.hop hi.cpus hpc hs rfl hn rfl hk nofun (.inl rfl)

theorem operate_clocked {held : Finset Lk} (code : Finset Lk → Pc N) {op : Op N}
    (hi : Cpus s.toControl) (h : Clocked s) (hpc : s.pc c = code held)
    (hcode : ∀ held', (code held').Clock ∧ (code held').phase = (code held).phase ∧
      (code held').masked = (code held).masked)
    (hk : k.Clock ∧ k.phase = (code held).phase ∧ (k.masked = true → (code held).masked = true))
    (hs : operate s c held code k op = some (.ok s')) : Clocked s' := by
  have hn : Neutral s s := .of rfl
  cases op with
  | acquire n =>
    rw [operate] at hs
    split at hs
    · cases hs
    · obtain ⟨h₁, h₂, h₃⟩ := hcode (insert (.other n) held)
      exact h.hop hi hpc hs rfl hn rfl h₁ h₃.symm.trans (.inl h₂)
  | release n =>
    rw [operate] at hs
    split at hs
    · obtain ⟨h₁, h₂, h₃⟩ := hcode (held.erase (.other n))
      exact h.hop hi hpc hs rfl hn rfl h₁ h₃.symm.trans (.inl h₂)
    · cases hs
  | wakeup chan => exact h.hop hi hpc hs rfl hn rfl (hcode held).1 id (.inl rfl)
  | ret =>
    rw [operate] at hs
    split at hs
    · exact h.hop hi hpc hs rfl hn rfl hk.1 hk.2.2 (.inl hk.2.1)
    · cases hs
  | _ => cases hs

theorem call_clocked {held : Finset Lk} {op : Op N} (hi : Cpus s.toControl) (h : Clocked s)
    (hpc : s.pc c = .kernel held k) (hs : call s c held k op = some (.ok s')) : Clocked s' := by
  have hn : Neutral s s := .of rfl
  have hk : (Pc.kernel held k).Clock := hpc ▸ h.clock c
  have hcommon : ∀ hs : operate s c held (.kernel · k) k op = some (.ok s'), Clocked s' :=
    operate_clocked (.kernel · k) hi h hpc (fun _ => ⟨hk, rfl, rfl⟩)
      ⟨hk.1, hk.2.1, by simp [hk.2.2]⟩
  cases op with
  | sleep chan n =>
    rw [call] at hs
    split at hs
    · exact h.hop hi hpc hs rfl hn rfl ⟨hk, rfl, rfl⟩ nofun (.inl rfl)
    · cases hs
  | fork =>
    rw [call] at hs
    split at hs
    · exact h.hop hi hpc hs rfl hn rfl ⟨hk, rfl, rfl⟩ nofun (.inl rfl)
    · cases hs
  | exit =>
    rw [call] at hs
    split at hs
    · exact h.hop hi hpc hs rfl hn rfl trivial nofun (.inl rfl)
    · cases hs
  | wait addr =>
    rw [call] at hs
    split at hs
    · exact h.hop hi hpc hs rfl hn rfl ⟨hk, rfl, rfl⟩ nofun (.inl rfl)
    · cases hs
  | kill pid =>
    rw [call] at hs
    split at hs
    · exact h.hop hi hpc hs rfl hn rfl ⟨hk, rfl, rfl⟩ nofun (.inl rfl)
    · cases hs
  | acquire n | release n | wakeup chan | ret => exact hcommon hs

theorem step_clocked {a : Act N M} (hi : Inv s.toControl) (h : Clocked s) (hs : Next step s a s') :
    Clocked s' := by
  cases a with
  | go c ok => exact move_clocked hi h rfl hs
  | op c op =>
    rw [Next, step] at hs
    split at hs
    next held k hpc => exact call_clocked hi.cpus h hpc hs
    next held k hpc =>
      have hk : (Pc.handler held k).Clock := hpc ▸ h.clock c
      exact operate_clocked (k := k) (.handler · k) hi.cpus h hpc (fun _ => ⟨hk, rfl, rfl⟩)
        ⟨(hk : k.Clock), rfl, fun _ => rfl⟩ hs
    next => cases hs
  | trap c cause =>
    rw [Next, step] at hs
    split at hs
    next hpc =>
      obtain ⟨p, hr, -, hs⟩ := mine hi hpc (fun hw => hw rfl) hs
      cases hs
      refine h.noted (w := .trap) hi.cpus (.goto (fun _ => rfl) (fun _ => rfl) fun _ => rfl) hr rfl
        (fun _ hne => Function.update_of_ne hne _ _) trivial
        (fun _ => by simp [State.on, State.setIntena]) ?_
      rw [hpc]
      exact ⟨rfl, by cases cause <;> exact nofun⟩
    next => cases hs
  | intr c timer =>
    rw [Next, step] at hs
    split at hs
    next hc =>
      have hm : (s.pc c).masked = false := by
        by_contra hm
        rw [Bool.not_eq_false] at hm
        simp [h.off c hm] at hc
      exact h.intena hi.cpus rfl hs ⟨h.clock c, hm⟩ (fun _ => rfl)
        (.inl (Pc.phase_of_unmasked hm).symm)
    next => cases hs

theorem clocked_init [NeZero N] : Clocked (init : State N M) := by
  have hpc : ∀ p, (init.slot p : Slot N M).pc = .forkret ∨
      (init.slot p : Slot N M).pc = .resume false .zombieExit := fun p => by
    simp only [init]
    split
    · exact .inl rfl
    · exact .inr rfl
  refine ⟨fun p => ?_, fun c => trivial, fun c hm => rfl, fun p => ?_⟩
  · rcases hpc p with he | he <;> rw [he]
    · trivial
    · exact ⟨trivial, rfl, nofun⟩
  · rcases hpc p with he | he <;> rw [he] <;> exact ⟨rfl, le_rfl⟩

theorem clocked_of_run [NeZero N] (hr : Run (Next step) init l s) : Clocked s := by
  have h := hr.invariant (I := fun s => Inv s.toControl ∧ Clocked s) (fun s a s' _ hs h => ?_)
    ⟨inv_init, clocked_init⟩
  · exact h.2
  · exact ⟨(step_spec h.1 hs).inv, step_clocked h.1 h.2 hs⟩

/-- No CPU is in a trap of process `p`. -/
def BetweenTraps (s : State N M) (p : Fin N) : Prop :=
  ∀ c, (s.cpu c).runs = some p → s.pc c = .user

/-- No counter of the slot has wrapped. -/
def NoWrap (s : State N M) (p : Fin N) : Prop := ∀ i, s.times p (some i) < 2 ^ 31

theorem noWrap_of_length (h : s.history.length < 2 ^ 31) (p : Fin N) : NoWrap s p :=
  fun _ => lt_of_le_of_lt List.countP_le_length h

theorem count_toInt [NeZero N] (hr : Run (Next step) init l s) (hw : NoWrap s p) (i : Counter) :
    ((s.data p).count i).toInt = s.times p (some i) := by
  have := hw i
  rw [(tally_of_run hr).count, BitVec.toInt_eq_toNat_of_lt] <;> rw [BitVec.toNat_ofNat] <;> omega

/-- In every run without overflow, between traps the counters of a slot are in the documented order
if and only if `kerneltrap` has preempted no process in it. -/
theorem preempt_le_interrupt_iff [NeZero N] (hr : Run (Next step) init l s) (p : Fin N)
    (hw : NoWrap s p) (hb : BetweenTraps s p) :
    ((s.data p).count .preemptCount).toInt ≤ ((s.data p).count .interruptCount).toInt ∧
      ((s.data p).count .interruptCount).toInt ≤ ((s.data p).count .trapCount).toInt ↔
      s.preempts p true = 0 := by
  have hi := inv_of_run hr
  have hphase : (s.slot p).pc.phase = .none := by
    by_cases hc : ∃ c, (s.cpu c).runs = some p
    · obtain ⟨c, hc⟩ := hc
      rw [← Control.pc_of_runs hc, hb c hc]
      rfl
    · push Not at hc
      rcases (hi.threads.halted p hc).1 with he | ⟨b, k, he⟩ <;> rw [he] <;> rfl
  obtain ⟨h₁, h₂⟩ := (clocked_of_run hr).counts p
  rw [hphase] at h₁ h₂
  rw [count_toInt hr hw, count_toInt hr hw, count_toInt hr hw, State.times_preempt]
  simp only [reduceCtorEq, if_false] at h₁ h₂
  omega

/-- The first process is preempted in a system call and returns from it on the other CPU. -/
def kernelTimerTrace : List (Act NPROC 2) :=
  List.replicate 8 (.go 0 true) ++ [.op 0 .ret, .go 0 true, .trap 0 .syscall] ++
    List.replicate 6 (.go 0 true) ++ [.intr 0 true, .op 0 .ret] ++ List.replicate 7 (.go 0 true) ++
    List.replicate 8 (.go 1 true) ++ [.op 1 .ret] ++ List.replicate 5 (.go 1 true)

/-- In user space with one preemption and no interrupt counted. -/
theorem preempt_not_le_interrupt : ∃ s, Run (Next step) (init : State NPROC 2) kernelTimerTrace s ∧
    NoWrap s 0 ∧ BetweenTraps s 0 ∧
    ¬((s.data 0).count .preemptCount).toInt ≤ ((s.data 0).count .interruptCount).toInt := by
  have heval : (exec step (init : State NPROC 2) kernelTimerTrace).any (fun s =>
      decide (s.history.length < 2 ^ 31 ∧ (∀ c, (s.cpu c).runs = some 0 → s.pc c = .user) ∧
        ¬((s.data 0).count .preemptCount).toInt ≤ ((s.data 0).count .interruptCount).toInt)) =
        true := by decide +kernel
  obtain ⟨s, he, hl, hs⟩ := exists_of_exec step heval
  exact ⟨s, run_of_exec step he, noWrap_of_length hl 0, hs⟩

/-- The first process is preempted in user space and goes on on the other CPU. -/
def userTimerTrace : List (Act NPROC 2) :=
  List.replicate 8 (.go 0 true) ++ [.op 0 .ret, .go 0 true, .trap 0 .timer, .go 0 true, .op 0 .ret] ++
    List.replicate 11 (.go 0 true) ++ List.replicate 8 (.go 1 true)

theorem preempt_le_interrupt_user : ∃ s,
    Run (Next step) (init : State NPROC 2) userTimerTrace s ∧ BetweenTraps s 0 ∧
    (s.data 0).count .preemptCount = 1 ∧
    ((s.data 0).count .preemptCount).toInt ≤ ((s.data 0).count .interruptCount).toInt := by
  have heval : (exec step (init : State NPROC 2) userTimerTrace).any (fun s =>
      decide (s.history.length < 2 ^ 31 ∧ (∀ c, (s.cpu c).runs = some 0 → s.pc c = .user) ∧
        (s.data 0).count .preemptCount = 1 ∧ s.preempts 0 true = 0)) = true := by decide +kernel
  obtain ⟨s, he, hl, hb, hone, hzero⟩ := exists_of_exec step heval
  have hr := run_of_exec step he
  exact ⟨s, hr, hb, hone, ((preempt_le_interrupt_iff hr 0 (noWrap_of_length hl 0) hb).mpr hzero).1⟩

end Xv6.Sched

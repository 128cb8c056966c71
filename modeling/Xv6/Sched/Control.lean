import Xv6.Sched.Machine

/-! # Who runs where

What the steps do to the CPUs, the locks and the states of the processes, and the
invariant that they keep: the lock of a process goes with the control of its thread
from `scheduler` to the process and back.
-/

namespace Xv6.Sched

open Sys (ProcState)

variable {N M : ℕ}

/-! ## Reading the control state -/

variable {y : Slot N M}

namespace Control

variable {s : Control N M} {c c' : Fin M} {p q : Fin N} {k : Pc N} {x : ProcState}
  {l : Lk} {o : Option (Fin M)} {r : Option (Fin N)}

@[simp] theorem slot_setCpu {y : Cpu N} : (s.setCpu c y).slot = s.slot := rfl

theorem slot_setSlot :
    (s.setSlot p y).slot q = if q = p then y else s.slot q := Function.update_apply ..

theorem cpu_setCpu {y : Cpu N} :
    (s.setCpu c y).cpu c' = if c' = c then y else s.cpu c' := Function.update_apply ..

theorem lk_setLk {l' : Lk} : (s.setLk l o).lk l' = if l' = l then o else s.lk l' :=
  Function.update_apply ..

@[simp] theorem cpu_setLock : (s.setLock p o).cpu = s.cpu := rfl
@[simp] theorem cpu_setState : (s.setState p x).cpu = s.cpu := rfl
@[simp] theorem cpu_setPc : (s.setPc p k).cpu = s.cpu := rfl
@[simp] theorem slot_setRuns : (s.setRuns c r).slot = s.slot := rfl

theorem lock_setLock : ((s.setLock p o).slot q).lock = if q = p then o else (s.slot q).lock := by
  rw [setLock, slot_setSlot]
  split <;> rfl

@[simp] theorem state_setLock : ((s.setLock p o).slot q).state = (s.slot q).state := by
  rw [setLock, slot_setSlot]
  split <;> simp_all

@[simp] theorem pc_setLock : ((s.setLock p o).slot q).pc = (s.slot q).pc := by
  rw [setLock, slot_setSlot]
  split <;> simp_all

@[simp] theorem lock_setState : ((s.setState p x).slot q).lock = (s.slot q).lock := by
  rw [setState, slot_setSlot]
  split <;> simp_all

theorem state_setState : ((s.setState p x).slot q).state = if q = p then x else (s.slot q).state := by
  rw [setState, slot_setSlot]
  split <;> rfl

@[simp] theorem pc_setState : ((s.setState p x).slot q).pc = (s.slot q).pc := by
  rw [setState, slot_setSlot]
  split <;> simp_all

@[simp] theorem lock_setPc : ((s.setPc p k).slot q).lock = (s.slot q).lock := by
  rw [setPc, slot_setSlot]
  split <;> simp_all

@[simp] theorem state_setPc : ((s.setPc p k).slot q).state = (s.slot q).state := by
  rw [setPc, slot_setSlot]
  split <;> simp_all

theorem pc_setPc : ((s.setPc p k).slot q).pc = if q = p then k else (s.slot q).pc := by
  rw [setPc, slot_setSlot]
  split <;> rfl

@[simp] theorem runs_setProc : ((s.setProc c r).cpu c').runs = (s.cpu c').runs := by
  rw [setProc, cpu_setCpu]
  split <;> simp_all

@[simp] theorem cpuPc_setProc : ((s.setProc c r).cpu c').pc = (s.cpu c').pc := by
  rw [setProc, cpu_setCpu]
  split <;> simp_all

theorem runs_setRuns : ((s.setRuns c r).cpu c').runs = if c' = c then r else (s.cpu c').runs := by
  rw [setRuns, cpu_setCpu]
  split <;> rfl

@[simp] theorem cpuPc_setRuns : ((s.setRuns c r).cpu c').pc = (s.cpu c').pc := by
  rw [setRuns, cpu_setCpu]
  split <;> simp_all

@[simp] theorem lk_goto : (s.goto c k).lk = s.lk := by
  unfold goto
  split <;> rfl

@[simp] theorem lock_goto : ((s.goto c k).slot q).lock = (s.slot q).lock := by
  unfold goto
  split <;> simp

@[simp] theorem state_goto : ((s.goto c k).slot q).state = (s.slot q).state := by
  unfold goto
  split <;> simp

@[simp] theorem proc_goto : ((s.goto c k).cpu c').proc = (s.cpu c').proc := by
  unfold goto
  split
  · rw [cpu_setCpu]
    split <;> simp_all
  · rfl

@[simp] theorem runs_goto : ((s.goto c k).cpu c').runs = (s.cpu c').runs := by
  unfold goto
  split
  · rw [cpu_setCpu]
    split <;> simp_all
  · rfl

theorem pc_goto : ((s.goto c k).slot p).pc = if (s.cpu c).runs = some p then k else (s.slot p).pc := by
  unfold goto
  split
  next h => simp [h]
  next q h =>
    rw [pc_setPc, h]
    simp [eq_comm]

theorem cpuPc_goto : ((s.goto c k).cpu c').pc =
    if c' = c ∧ (s.cpu c).runs = none then k else (s.cpu c').pc := by
  unfold goto
  split
  next h =>
    rw [cpu_setCpu, h]
    split <;> simp_all
  next q h => simp [h]

theorem pc_of_runs (h : (s.cpu c).runs = some p) : s.pc c = (s.slot p).pc := by
  rw [pc, h]

theorem pc_of_none (h : (s.cpu c).runs = none) : s.pc c = (s.cpu c).pc := by
  rw [pc, h]

theorem cur_setPc (h : (s.cpu c).runs ≠ some p) : (s.setPc p k).pc c = s.pc c := by
  unfold pc
  rw [cpu_setPc]
  split
  · rfl
  next q hq =>
    rw [pc_setPc, if_neg]
    rintro rfl
    exact h hq

theorem cur_setRuns (h : c' ≠ c) : (s.setRuns c r).pc c' = s.pc c' := by
  simp only [pc, runs_setRuns, if_neg h, cpuPc_setRuns, slot_setRuns]

@[simp] theorem cur_goto_self : (s.goto c k).pc c = k := by
  unfold pc
  rw [runs_goto]
  split
  next h => rw [cpuPc_goto, if_pos ⟨rfl, h⟩]
  next q h => rw [pc_goto, if_pos h]

theorem cur_goto (hc : c' ≠ c) (h : ∀ p, (s.cpu c).runs = some p → (s.cpu c').runs ≠ some p) :
    (s.goto c k).pc c' = s.pc c' := by
  unfold pc
  rw [runs_goto]
  split
  next hn => rw [cpuPc_goto, if_neg fun hx => hc hx.1]
  next q hq => rw [pc_goto, if_neg fun hx => h q hx hq]

end Control

/-! ## Places -/

namespace Pc

variable (me : Option (Fin N))

/-- The thread gives up the CPU: the state of its process says so already. -/
@[grind =] def leaving : Pc N → Bool
  | back _ | sched _ => true
  | release _ k => k.leaving
  | _ => false

/-- The process that `scheduler` switches to or comes back from. -/
def target : Pc N → Option (Fin N)
  | switch p | back p => some p
  | _ => none

/-- The new process of a `fork`. -/
def makes : Pc N → Option (Fin N)
  | setup q _ | adopt q _ | ready q _ => some q
  | lock _ k | unlock _ k | acquire _ k | release _ k => k.makes
  | handler _ k | kerneltrap _ k | sret k => k.makes
  | yield k | yielding k | sched k | resume _ k => k.makes
  | wakeup _ _ k | wake _ _ k => k.makes
  | _ => none

/-- Where a thread can be while it does not run. -/
def Halted (pc : Pc N) : Prop := pc = forkret ∨ ∃ b k, pc = resume b k

/-- The thread has not been through `exit`. -/
def Alive (pc : Pc N) : Prop := ∀ b, pc ≠ resume b zombieExit

/-- Neither at a `swtch` of the scheduler nor past `exit`. -/
def Inner (pc : Pc N) : Prop := pc.Alive ∧ pc.target = none

/-- The thread is at the end of `exit`. -/
def Dying : Pc N → Prop
  | sched k => k = zombieExit
  | release _ k => k.Dying
  | _ => False

/-- Places in the code that a thread of process `me`, or of a scheduler, can be at. -/
@[grind =] def Wf : Pc N → Prop
  | scan _ | choose _ | switch _ | back _ => me = none
  | lock q k => k.Wf ∧ k.holds me = some q ∧ k.leaving = false ∧ k.Inner
  | unlock _ k => k.Wf ∧ k.holds me = none ∧ k.leaving = false
  | acquire l k => k.Wf ∧ k.holds me = none ∧ k.leaving = false ∧ l ∈ k.locks
  | release l k => k.Wf ∧ l ∉ k.locks ∧ k.Inner
  | handler _ k | kerneltrap _ k | sret k =>
    k.Wf ∧ k.holds me = none ∧ k.leaving = false ∧ k.locks = ∅
  | yield k | yielding k =>
    me ≠ none ∧ k.Wf ∧ k.holds me = none ∧ k.leaving = false ∧ k.locks = ∅
  | sched k | resume _ k =>
    me ≠ none ∧ (k = zombieExit ∨ k.Wf ∧ k.holds me = me ∧ k.leaving = false ∧ k.Inner)
  | sleep _ l k | sleeping _ l k | slept l k =>
    me ≠ none ∧ k.Wf ∧ k.holds me = none ∧ k.leaving = false ∧ l ∈ k.locks ∧ k.makes = none
  | wakeup _ _ k | wake _ _ k => k.Wf ∧ k.holds me = none ∧ k.leaving = false
  | killed yes no | readKilled yes no =>
    me ≠ none ∧ (yes.Wf ∧ yes.holds me = none ∧ yes.leaving = false ∧ yes.makes = none) ∧
      (no.Wf ∧ no.holds me = none ∧ no.leaving = false ∧ no.makes = none) ∧ yes.locks = no.locks
  | kernel _ k | kill _ _ k | killing _ _ k | setkilled k | writeKilled k | alloc _ k
  | allocating _ k | setup _ k | adopt _ k | ready _ k | search _ _ _ k | child _ _ k =>
    me ≠ none ∧ k.Wf ∧ k.holds me = none ∧ k.leaving = false ∧ k.locks = ∅ ∧ k.makes = none
  | zombieExit => False
  | user | forkret | first | usertrap _ | syscall | timer | usertrapret | exit | reparent _
  | zombie => me ≠ none

end Pc

/-! ## The invariant -/

/-- A process whose thread may run again. -/
@[grind =] def Live (x : ProcState) : Prop := x = .runnable ∨ x = .sleeping ∨ x = .running

/-- The locks are held where the code says so. -/
structure Locks (s : Control N M) : Prop where
  proc : ∀ q c, (s.slot q).lock = some c ↔ (s.pc c).holds (s.cpu c).runs = some q
  other : ∀ l c, s.lk l = some c ↔ l ∈ (s.pc c).locks

/-- Between the `swtch`es of its scheduler a CPU runs the thread of `c->proc`. -/
structure Cpus (s : Control N M) : Prop where
  runs : ∀ c p, (s.cpu c).runs = some p → (s.cpu c).proc = some p ∧ (s.cpu c).pc = .back p
  idle : ∀ c, (s.cpu c).runs = none → (s.cpu c).proc = (s.cpu c).pc.target
  one : ∀ c c' p, (s.cpu c).proc = some p → (s.cpu c').proc = some p → c = c'

structure Threads (s : Control N M) : Prop where
  proc : ∀ p, (s.slot p).pc.Wf (some p)
  cpu : ∀ c, (s.cpu c).pc.Wf none
  halted : ∀ p, (∀ c, (s.cpu c).runs ≠ some p) → (s.slot p).pc.Halted ∧ (s.slot p).pc.locks = ∅
  alive : ∀ p, Live (s.slot p).state → (s.slot p).pc.Alive
  dying : ∀ p, (s.slot p).pc.Dying → (s.slot p).state = .zombie
  makes : ∀ p q, (s.slot p).pc.makes = some q → (s.slot q).state = .used ∧
    ((s.slot q).pc = .forkret ∨ ∃ k, (s.slot p).pc = .setup q k)
  maker : ∀ p p' q, (s.slot p).pc.makes = some q → (s.slot p').pc.makes = some q → p = p'

structure Inv (s : Control N M) : Prop where
  locks : Locks s
  cpus : Cpus s
  threads : Threads s
  running : ∀ p, (s.slot p).state = .running ↔
    ∃ c, (s.cpu c).proc = some p ∧ (s.pc c).leaving = false

variable {s s' : Control N M} {c c' : Fin M} {p q : Fin N} {k : Pc N} {x : ProcState} {l : Lk}

theorem Cpus.runs_one (h : Cpus s) (h₁ : (s.cpu c).runs = some p) (h₂ : (s.cpu c').runs = some p) :
    c = c' := h.one c c' p (h.runs c p h₁).1 (h.runs c' p h₂).1

theorem Cpus.runs_ne (h : Cpus s) (hc : c' ≠ c) (p : Fin N) (hp : (s.cpu c).runs = some p) :
    (s.cpu c').runs ≠ some p := fun hp' => hc (h.runs_one hp' hp)

variable {pc : Pc N}

theorem Pc.Wf.holds_of_leaving (h : pc.Wf (some p)) (hl : pc.leaving = true) :
    pc.holds (some p) = some p := by
  induction pc with
  | back q => simp [Wf] at h
  | sched k => rfl
  | release l k ih => exact ih h.1 hl
  | _ => simp [leaving] at hl

namespace Inv

/-- The place of a CPU suits the thread that it runs. -/
theorem wf (h : Inv s) (c : Fin M) : (s.pc c).Wf (s.cpu c).runs := by
  cases hr : (s.cpu c).runs with
  | none =>
    rw [Control.pc_of_none hr]
    exact h.threads.cpu c
  | some p =>
    rw [Control.pc_of_runs hr]
    exact h.threads.proc p

/-- A CPU gives up a process with the lock of the process held. -/
theorem lock_of_leaving (h : Inv s) (hp : (s.cpu c).proc = some p) (hl : (s.pc c).leaving = true) :
    (s.slot p).lock = some c := by
  rw [h.locks.proc]
  have hw := h.wf c
  cases hr : (s.cpu c).runs with
  | some q =>
    obtain rfl : q = p := Option.some.inj ((h.cpus.runs c q hr).1.symm.trans hp)
    rw [hr] at hw
    exact hw.holds_of_leaving hl
  | none =>
    -- in the scheduler only `back` leaves a process
    rw [h.cpus.idle c hr] at hp
    rw [Control.pc_of_none hr] at hl ⊢
    cases hpc : (s.cpu c).pc <;> rw [hpc] at hp hl <;> simp_all [Pc.target, Pc.leaving, Pc.holds]

/-- No CPU is in a process that is not running while its lock is free or elsewhere. -/
theorem off_cpu (h : Inv s) (hx : (s.slot p).state ≠ .running)
    (hl : ∀ c, (s.slot p).lock = some c → (s.pc c).leaving = false) (c : Fin M) :
    (s.cpu c).proc ≠ some p := by
  intro hp
  cases hc : (s.pc c).leaving with
  | false => exact hx ((h.running p).mpr ⟨c, hp, hc⟩)
  | true =>
    have := hl c (h.lock_of_leaving hp hc)
    simp [hc] at this

theorem lock_eq (h : Inv s) (hq : (s.pc c).holds (s.cpu c).runs = some q) :
    (s.slot q).lock = some c := (h.locks.proc q c).mpr hq

/-- A process whose lock another thread holds does not run. -/
theorem off_of_holds (h : Inv s) (hx : (s.slot q).state ≠ .running)
    (hq : (s.pc c).holds (s.cpu c).runs = some q) (hc : (s.pc c).leaving = false) (c' : Fin M) :
    (s.cpu c').proc ≠ some q := by
  refine h.off_cpu hx (fun c₁ hc₁ => ?_) c'
  obtain rfl : c = c₁ := Option.some.inj ((h.lock_eq hq).symm.trans hc₁)
  exact hc

/-- The process on a CPU that is not giving it up is running. -/
theorem state_of_runs (h : Inv s) (hr : (s.cpu c).runs = some p)
    (hl : (s.slot p).pc.leaving = false) : (s.slot p).state = .running :=
  (h.running p).mpr ⟨c, (h.cpus.runs c p hr).1, by rwa [Control.pc_of_runs hr]⟩

theorem not_used_of_runs (h : Inv s) (hr : (s.cpu c).runs = some p)
    (hl : (s.slot p).pc.leaving = false) : (s.slot p).state ≠ .used := by
  rw [h.state_of_runs hr hl]
  exact nofun

end Inv

/-! ## Steps that stay on their thread -/

variable {s₁ : Control N M}

theorem Locks.congr (h : Locks s) (hlock : ∀ q, (s'.slot q).lock = (s.slot q).lock)
    (hlk : s'.lk = s.lk)
    (hholds : ∀ c, (s'.pc c).holds (s'.cpu c).runs = (s.pc c).holds (s.cpu c).runs)
    (hlocks : ∀ c, (s'.pc c).locks = (s.pc c).locks) : Locks s' where
  proc q c := by rw [hlock, hholds, h.proc]
  other l c := by rw [hlk, hlocks, h.other]

theorem Cpus.cur_goto (h : Cpus s) (hcpu : s₁.cpu = s.cpu)
    (hpc : ∀ p, (s.cpu c').runs = some p → (s₁.slot p).pc = (s.slot p).pc) :
    (s₁.goto c k).pc c' = if c' = c then k else s.pc c' := by
  rcases eq_or_ne c' c with rfl | hne
  · rw [Control.cur_goto_self, if_pos rfl]
  · rw [Control.cur_goto hne (hcpu.symm ▸ h.runs_ne hne), if_neg hne]
    unfold Control.pc
    rw [hcpu]
    split
    · rfl
    next p hp => exact hpc p hp

/-- What is left to show for the locks when a CPU goes on at `k`. -/
theorem Locks.of_goto (h : Locks s) (hc : Cpus s) (hcpu : s₁.cpu = s.cpu)
    (hpc : ∀ c p, (s.cpu c).runs = some p → (s₁.slot p).pc = (s.slot p).pc)
    (hproc : ∀ q c', (s₁.slot q).lock = some c' ↔
      if c' = c then k.holds (s.cpu c).runs = some q else (s.slot q).lock = some c')
    (hother : ∀ l c', s₁.lk l = some c' ↔ if c' = c then l ∈ k.locks else s.lk l = some c') :
    Locks (s₁.goto c k) where
  proc q c' := by
    rw [Control.lock_goto, Control.runs_goto, hc.cur_goto hcpu (hpc c'), hproc, hcpu]
    split
    next he => rw [he]
    next => exact h.proc q c'
  other l c' := by
    rw [Control.lk_goto, hc.cur_goto hcpu (hpc c'), hother]
    split
    next => rfl
    next => exact h.other l c'

theorem Cpus.goto (h : Cpus s) (hk : (s.cpu c).runs = none → k.target = (s.cpu c).pc.target) :
    Cpus (s.goto c k) where
  runs c' p hr := by
    rw [Control.runs_goto] at hr
    rw [Control.proc_goto, Control.cpuPc_goto, if_neg]
    · exact h.runs c' p hr
    · rintro ⟨rfl, hn⟩
      simp [hr] at hn
  idle c' hr := by
    rw [Control.runs_goto] at hr
    rw [Control.proc_goto, Control.cpuPc_goto, h.idle c' hr]
    split
    next hc => rw [hc.1, hk hc.2]
    next => rfl
  one c₁ c₂ p h₁ h₂ := h.one c₁ c₂ p (by simpa using h₁) (by simpa using h₂)

/-- What is left to show when a CPU goes on at `k` and states of processes change with it. -/
theorem Inv.of_goto (h : Inv s) (hcpu : s₁.cpu = s.cpu)
    (hpc : ∀ p, (∀ c, (s.cpu c).runs ≠ some p) ∧ (s₁.slot p).pc = .forkret ∨
      (s₁.slot p).pc = (s.slot p).pc)
    (hwf : k.Wf (s.cpu c).runs) (ht : (s.cpu c).runs = none → k.target = (s.cpu c).pc.target)
    (hlocks : Locks (s₁.goto c k))
    (hrun : ∀ p, (s₁.slot p).state = .running ↔
      ∃ c', (s.cpu c').proc = some p ∧ ((s₁.goto c k).pc c').leaving = false)
    (halive : ∀ p, Live (s₁.slot p).state → ((s₁.goto c k).slot p).pc.Alive)
    (hdying : ∀ p, ((s₁.goto c k).slot p).pc.Dying → (s₁.slot p).state = .zombie)
    (hmakes : ∀ p q, ((s₁.goto c k).slot p).pc.makes = some q → (s₁.slot q).state = .used ∧
      (((s₁.goto c k).slot q).pc = .forkret ∨ ∃ k', ((s₁.goto c k).slot p).pc = .setup q k'))
    (hmaker : ∀ p p' q, ((s₁.goto c k).slot p).pc.makes = some q →
      ((s₁.goto c k).slot p').pc.makes = some q → p = p') : Inv (s₁.goto c k) where
  locks := hlocks
  cpus := by
    refine Cpus.goto ?_ (hcpu.symm ▸ ht)
    constructor <;> rw [hcpu]
    · exact h.cpus.runs
    · exact h.cpus.idle
    · exact h.cpus.one
  threads :=
    { proc := fun p => by
        rw [Control.pc_goto, hcpu]
        split
        next hr => exact hr ▸ hwf
        next =>
          rcases hpc p with ⟨-, hp⟩ | hp <;> rw [hp]
          · exact Option.some_ne_none p
          · exact h.threads.proc p
      cpu := fun c' => by
        rw [Control.cpuPc_goto, hcpu]
        split
        next hr => exact hr.2 ▸ hwf
        next => exact h.threads.cpu c'
      halted := fun p hp => by
        simp only [Control.runs_goto, hcpu] at hp
        rw [Control.pc_goto, hcpu, if_neg (hp c)]
        rcases hpc p with ⟨-, hp'⟩ | hp' <;> rw [hp']
        · exact ⟨.inl rfl, rfl⟩
        · exact h.threads.halted p hp
      alive := fun p hp => halive p (by simpa using hp)
      dying := fun p hp => by
        rw [Control.state_goto]
        exact hdying p hp
      makes := fun p q hp => by
        rw [Control.state_goto]
        exact hmakes p q hp
      maker := hmaker }
  running p := by
    simp only [Control.state_goto, Control.proc_goto, hcpu]
    exact hrun p

/-- The thread on the CPU goes on at `k` in the same phase of its process. -/
structure Hop (s : Control N M) (c : Fin M) (k : Pc N) : Prop where
  wf : k.Wf (s.cpu c).runs
  leaving : k.leaving = (s.pc c).leaving
  makes : k.makes = (s.pc c).makes
  target : (s.cpu c).runs = none → k.target = (s.pc c).target
  alive : k.Alive
  dying : k.Dying → (s.pc c).Dying
  setup : ∀ q k', s.pc c ≠ .setup q k'

theorem Inv.hop (h : Inv s) (hop : Hop s c k) (hcpu : s₁.cpu = s.cpu)
    (hpc : ∀ p, (s₁.slot p).pc = (s.slot p).pc) (hlocks : Locks (s₁.goto c k))
    (hrun : ∀ p, (s₁.slot p).state = .running ↔ (s.slot p).state = .running)
    (hlive : ∀ p, Live (s₁.slot p).state → Live (s.slot p).state)
    (hzombie : ∀ p, (s.slot p).pc.Dying → (s₁.slot p).state = .zombie)
    (hused : ∀ p, (s.slot p).state = .used → (s₁.slot p).state = .used) :
    Inv (s₁.goto c k) := by
  have hslot : ∀ p, ((s₁.goto c k).slot p).pc =
      if (s.cpu c).runs = some p then k else (s.slot p).pc := fun p => by
    rw [Control.pc_goto, hcpu, hpc]
  have hmk : ∀ p, ((s₁.goto c k).slot p).pc.makes = (s.slot p).pc.makes := fun p => by
    rw [hslot]
    split
    next hr => rw [hop.makes, Control.pc_of_runs hr]
    next => rfl
  refine h.of_goto hcpu (fun p => .inr (hpc p)) hop.wf (fun hr => ?_) hlocks (fun p => ?_)
    (fun p hp => ?_) (fun p hp => ?_) (fun p q hp => ?_) fun p p' q hp hp' => ?_
  · rw [hop.target hr, Control.pc_of_none hr]
  · rw [hrun, h.running]
    have hl : ∀ c', ((s₁.goto c k).pc c').leaving = (s.pc c').leaving := fun c' => by
      rw [h.cpus.cur_goto hcpu fun p _ => hpc p]
      split
      next he => rw [he, hop.leaving]
      next => rfl
    simp only [hl]
  · rw [hslot]
    split
    next => exact hop.alive
    next => exact h.threads.alive p (hlive p hp)
  · rw [hslot] at hp
    split at hp
    next hr => exact hzombie p (Control.pc_of_runs hr ▸ hop.dying hp)
    next => exact hzombie p hp
  · rw [hmk] at hp
    obtain ⟨hu, hf⟩ := h.threads.makes p q hp
    refine ⟨hused q hu, ?_⟩
    rw [hslot, hslot]
    rcases hf with hf | ⟨k', hf⟩
    · rw [if_neg fun hr => ?_]
      · exact .inl hf
      · exact h.not_used_of_runs hr (by rw [hf]; rfl) hu
    · rw [if_neg (c := (s.cpu c).runs = some p) fun hr => ?_]
      · exact .inr ⟨k', hf⟩
      · exact hop.setup q k' (Control.pc_of_runs hr ▸ hf)
  · rw [hmk] at hp hp'
    exact h.threads.maker p p' q hp hp'

/-- A hop that takes and releases no lock. -/
structure Jump (s : Control N M) (c : Fin M) (k : Pc N) : Prop extends Hop s c k where
  holds : k.holds (s.cpu c).runs = (s.pc c).holds (s.cpu c).runs
  locks : k.locks = (s.pc c).locks

namespace Inv

theorem locks_goto (h : Inv s)
    (hholds : k.holds (s.cpu c).runs = (s.pc c).holds (s.cpu c).runs)
    (hlocks : k.locks = (s.pc c).locks) (hcpu : s₁.cpu = s.cpu)
    (hpc : ∀ c p, (s.cpu c).runs = some p → (s₁.slot p).pc = (s.slot p).pc)
    (hlock : ∀ p, (s₁.slot p).lock = (s.slot p).lock) (hlk : s₁.lk = s.lk) :
    Locks (s₁.goto c k) := by
  refine h.locks.of_goto h.cpus hcpu hpc (fun q c' => ?_) fun l c' => ?_
  · rw [hlock, hholds]
    split
    next he => rw [he, h.locks.proc]
    next => rfl
  · rw [hlk, hlocks]
    split
    next he => rw [he, h.locks.other]
    next => rfl

theorem jump (h : Inv s) (hj : Jump s c k) : Inv (s.goto c k) :=
  h.hop hj.toHop rfl (fun _ => rfl)
    (h.locks_goto hj.holds hj.locks rfl (fun _ _ _ => rfl) (fun _ => rfl) rfl) (fun _ => Iff.rfl)
      (fun _ => id) h.threads.dying fun _ => id

/-- A jump that takes a process from one state that is not `RUNNING` to another. -/
theorem jump_state (h : Inv s) (hj : Jump s c k) (hx : x ≠ .running)
    (hq : (s.slot q).state ≠ .running) (hlive : Live x → Live (s.slot q).state)
    (hd : (s.slot q).pc.Dying → x = .zombie) (hu : (s.slot q).state ≠ .used) :
    Inv ((s.setState q x).goto c k) := by
  refine h.hop hj.toHop rfl (fun _ => Control.pc_setState)
    (h.locks_goto hj.holds hj.locks rfl (fun _ _ _ => Control.pc_setState)
      (fun _ => Control.lock_setState) rfl)
    (fun p => ?_) (fun p => ?_) (fun p hp => ?_) fun p hp => ?_ <;>
    rw [Control.state_setState] <;> rcases eq_or_ne p q with rfl | hne
  · simp [hx, hq]
  · rw [if_neg hne]
  · rwa [if_pos rfl]
  · rw [if_neg hne]
    exact id
  · rw [if_pos rfl, hd hp]
  · rw [if_neg hne, h.threads.dying p hp]
  · exact absurd hp hu
  · rw [if_neg hne, hp]

end Inv

theorem Pc.not_dying (h : pc.leaving = false) : ¬ pc.Dying := by
  induction pc with
  | sched k => simp [leaving] at h
  | release l k ih => exact ih h
  | _ => exact id

/-- A place between two sections under a process lock. -/
theorem Pc.Wf.inner {me : Option (Fin N)} (h : pc.Wf me) (hh : pc.holds me = none) : pc.Inner := by
  constructor
  · rintro b rfl
    exact h.1 hh
  · cases pc <;> simp_all [target, holds]

theorem Hop.of (hpc : s.pc c = pc) (hwf : k.Wf (s.cpu c).runs) (hk : k.Inner)
    (hl : k.leaving = pc.leaving) (hm : k.makes = pc.makes) (ht : pc.target = none)
    (hd : k.Dying → pc.Dying) (hs : ∀ q k', pc ≠ .setup q k') : Hop s c k where
  wf := hwf
  leaving := hpc ▸ hl
  makes := hpc ▸ hm
  target _ := by rw [hpc, ht, hk.2]
  alive := hk.1
  dying := hpc ▸ hd
  setup := hpc ▸ hs

namespace Inv

variable {o : Option (Fin M)}

theorem hop_setLock (h : Inv s) (hop : Hop s c k) (hlocks : Locks ((s.setLock q o).goto c k)) :
    Inv ((s.setLock q o).goto c k) := by
  refine h.hop hop rfl (fun _ => Control.pc_setLock) hlocks (fun p => ?_) (fun p => ?_)
    (fun p hp => ?_) fun p => ?_ <;> rw [Control.state_setLock]
  · exact id
  · exact h.threads.dying p hp
  · exact id

theorem hop_setLk (h : Inv s) (hop : Hop s c k) (hlocks : Locks ((s.setLk l o).goto c k)) :
    Inv ((s.setLk l o).goto c k) :=
  h.hop hop rfl (fun _ => rfl) hlocks (fun _ => Iff.rfl) (fun _ => id) h.threads.dying fun _ => id

theorem lock (h : Inv s) (hpc : s.pc c = .lock q k) (hfree : (s.slot q).lock = none) :
    Inv ((s.setLock q (some c)).goto c k) := by
  obtain ⟨hwf, hholds, hleave, hinner⟩ : (Pc.lock q k).Wf _ := hpc ▸ h.wf c
  refine h.hop_setLock (.of hpc hwf hinner hleave rfl rfl (absurd · (Pc.not_dying hleave)) nofun) ?_
  refine h.locks.of_goto h.cpus rfl (fun _ _ _ => Control.pc_setLock) (fun q' c' => ?_)
    fun l c' => ?_
  · have hnot := h.locks.proc q' c
    rw [hpc] at hnot
    rw [Control.lock_setLock, hholds]
    rcases eq_or_ne q' q with rfl | hne
    · simp [hfree, eq_comm]
    · rw [if_neg hne]
      split
      next he => simp [he, hnot, Pc.holds, hne.symm]
      next => rfl
  · have hsame := h.locks.other l c
    rw [hpc] at hsame
    split
    next he => rw [he]; exact hsame
    next => rfl

theorem unlock (h : Inv s) (hpc : s.pc c = .unlock q k) :
    Inv ((s.setLock q none).goto c k) := by
  obtain ⟨hwf, hholds, hleave⟩ : (Pc.unlock q k).Wf _ := hpc ▸ h.wf c
  refine h.hop_setLock (.of hpc hwf (hwf.inner hholds) hleave rfl rfl
    (absurd · (Pc.not_dying hleave)) nofun) ?_
  refine h.locks.of_goto h.cpus rfl (fun _ _ _ => Control.pc_setLock) (fun q' c' => ?_)
    fun l c' => ?_
  · have hmine : ∀ q', (s.slot q').lock = some c ↔ q = q' := fun q' => by
      rw [h.locks.proc, hpc]
      exact Option.some_inj
    rw [Control.lock_setLock, hholds]
    rcases eq_or_ne q' q with rfl | hne
    · simp [(hmine q').mpr rfl, eq_comm]
    · rw [if_neg hne]
      split
      next he => simp [he, hmine, hne.symm]
      next => rfl
  · have hsame := h.locks.other l c
    rw [hpc] at hsame
    split
    next he => rw [he]; exact hsame
    next => rfl

theorem acquire (h : Inv s) (hpc : s.pc c = .acquire l k) (hfree : s.lk l = none) :
    Inv ((s.setLk l (some c)).goto c k) := by
  obtain ⟨hwf, hholds, hleave, hl⟩ : (Pc.acquire l k).Wf _ := hpc ▸ h.wf c
  refine h.hop_setLk (.of hpc hwf (hwf.inner hholds) hleave rfl rfl
    (absurd · (Pc.not_dying hleave)) nofun) ?_
  refine h.locks.of_goto h.cpus rfl (fun _ _ _ => rfl) (fun q' c' => ?_) fun l' c' => ?_
  · have hnot := h.locks.proc q' c
    rw [hpc] at hnot
    rw [hholds]
    split
    next he => rw [he]; exact hnot
    next => rfl
  · have hmine := h.locks.other l' c
    rw [hpc, Pc.locks, Finset.mem_erase] at hmine
    rw [Control.lk_setLk]
    rcases eq_or_ne l' l with rfl | hne
    · simp [hfree, hl, eq_comm]
    · rw [if_neg hne]
      split
      next he => simp [he, hmine, hne]
      next => rfl

theorem release (h : Inv s) (hpc : s.pc c = .release l k) :
    Inv ((s.setLk l none).goto c k) := by
  obtain ⟨hwf, hl, hinner⟩ : (Pc.release l k).Wf _ := hpc ▸ h.wf c
  refine h.hop_setLk (.of hpc hwf hinner rfl rfl rfl id nofun) ?_
  refine h.locks.of_goto h.cpus rfl (fun _ _ _ => rfl) (fun q' c' => ?_) fun l' c' => ?_
  · have hsame := h.locks.proc q' c
    rw [hpc] at hsame
    split
    next he => rw [he]; exact hsame
    next => rfl
  · have hmine := h.locks.other l' c
    rw [hpc, Pc.locks, Finset.mem_insert] at hmine
    rw [Control.lk_setLk]
    rcases eq_or_ne l' l with rfl | hne
    · simp [hl, hmine.mpr (.inl rfl), eq_comm]
    · rw [if_neg hne]
      split
      next he => simp [he, hmine, hne]
      next => rfl

/-- A running process changes its state before it gives up the CPU. -/
theorem leave (h : Inv s) (hr : (s.cpu c).runs = some p) (hb : (s.pc c).leaving = false)
    (hs : ∀ q k', s.pc c ≠ .setup q k') (hwf : k.Wf (some p)) (hk : k.leaving = true)
    (hholds : k.holds (some p) = (s.pc c).holds (some p)) (hlocks : k.locks = (s.pc c).locks)
    (hm : k.makes = (s.pc c).makes) (ha : k.Alive) (hx : x ≠ .running)
    (hd : k.Dying → x = .zombie) : Inv ((s.setState p x).goto c k) := by
  have hproc := (h.cpus.runs c p hr).1
  have hstate : (s.slot p).state = .running := (h.running p).mpr ⟨c, hproc, hb⟩
  have hslot : ∀ p', (((s.setState p x).goto c k).slot p').pc =
      if p' = p then k else (s.slot p').pc := fun p' => by
    rw [Control.pc_goto, Control.cpu_setState, hr, Control.pc_setState]
    simp [eq_comm]
  have hmk : ∀ p', (((s.setState p x).goto c k).slot p').pc.makes = (s.slot p').pc.makes :=
    fun p' => by
      rw [hslot]
      split
      next he => rw [he, hm, Control.pc_of_runs hr]
      next => rfl
  refine h.of_goto (c := c) rfl (fun _ => .inr Control.pc_setState) (hr ▸ hwf) (by simp [hr]) ?_
    (fun p' => ?_) (fun p' hp => ?_) (fun p' hp => ?_) (fun p' q hp => ?_) fun p₁ p₂ q h₁ h₂ => ?_
  · exact h.locks_goto (hr ▸ hholds) hlocks rfl (fun _ _ _ => Control.pc_setState)
      (fun _ => Control.lock_setState) rfl
  · rw [Control.state_setState]
    simp only [h.cpus.cur_goto (k := k) (c := c)
      (Control.cpu_setState : (s.setState p x).cpu = s.cpu) fun _ _ => Control.pc_setState]
    rcases eq_or_ne p' p with rfl | hne
    · rw [if_pos rfl]
      refine iff_of_false hx ?_
      rintro ⟨c', hc', hl⟩
      rw [if_pos (h.cpus.one c' c p' hc' hproc), hk] at hl
      cases hl
    · rw [if_neg hne, h.running]
      refine exists_congr fun c' => and_congr_right fun hc' => ?_
      rw [if_neg]
      rintro rfl
      exact hne (Option.some.inj (hc'.symm.trans hproc))
  · rw [hslot]
    rw [Control.state_setState] at hp
    split
    next => exact ha
    next he => exact h.threads.alive p' (by rwa [if_neg he] at hp)
  · rw [hslot] at hp
    rw [Control.state_setState]
    split
    next he => exact hd (by rwa [if_pos he] at hp)
    next he => exact h.threads.dying p' (by rwa [if_neg he] at hp)
  · rw [hmk] at hp
    obtain ⟨hu, hf⟩ := h.threads.makes p' q hp
    have hne : q ≠ p := by
      rintro rfl
      simp [hstate] at hu
    rw [Control.state_setState, if_neg hne, hslot, hslot, if_neg hne]
    refine ⟨hu, hf.imp_right ?_⟩
    rintro ⟨k', hk'⟩
    rw [if_neg]
    · exact ⟨k', hk'⟩
    · rintro rfl
      exact hs q k' (Control.pc_of_runs hr ▸ hk')
  · rw [hmk] at h₁ h₂
    exact h.threads.maker p₁ p₂ q h₁ h₂

/-- The lock that a thread holds while it works on the process `q` of a `fork`. -/
theorem ne_of_state (h : Inv s) (hr : (s.cpu c).runs = some p) (hb : (s.pc c).leaving = false)
    (hq : (s.slot q).state ≠ .running) : q ≠ p := by
  rintro rfl
  exact hq (h.state_of_runs hr (Control.pc_of_runs hr ▸ hb))

/-- A slot that does not run changes its state while the thread of `p` works on it. -/
theorem fill (h : Inv s) (hr : (s.cpu c).runs = some p) (hb : (s.pc c).leaving = false)
    (hwf : k.Wf (some p)) (hk : k.leaving = false)
    (hholds : k.holds (some p) = (s.pc c).holds (some p)) (hlocks : k.locks = (s.pc c).locks)
    (ha : k.Alive) (hq : (s.slot q).state ≠ .running) (hx : x ≠ .running)
    (hlive : Live x → (s.slot q).pc.Alive) (hd : ¬ (s.slot q).pc.Dying)
    (hmakes : ∀ p' q', p' ≠ p → (s.slot p').pc.makes = some q' → q' ≠ q)
    (hp : ∀ q', k.makes = some q' → q' = q ∧ x = .used ∧ ∃ k', k = .setup q k') :
    Inv ((s.setState q x).goto c k) := by
  have hne := h.ne_of_state hr hb hq
  have hstate := h.state_of_runs hr (Control.pc_of_runs hr ▸ hb)
  have hslot : ∀ p', (((s.setState q x).goto c k).slot p').pc =
      if p' = p then k else (s.slot p').pc := fun p' => by
    rw [Control.pc_goto, Control.cpu_setState, hr, Control.pc_setState]
    simp [eq_comm]
  refine h.of_goto (c := c) rfl (fun _ => .inr Control.pc_setState) (hr ▸ hwf) (by simp [hr]) ?_
    (fun p' => ?_) (fun p' hp' => ?_) (fun p' hp' => ?_) (fun p' q' hp' => ?_)
    fun p₁ p₂ q' h₁ h₂ => ?_
  · exact h.locks_goto (hr ▸ hholds) hlocks rfl (fun _ _ _ => Control.pc_setState)
      (fun _ => Control.lock_setState) rfl
  · have hrun : ((s.setState q x).slot p').state = .running ↔ (s.slot p').state = .running := by
      rw [Control.state_setState]
      split
      next he => simp [he, hx, hq]
      next => rfl
    rw [hrun, h.running]
    simp only [h.cpus.cur_goto (k := k) (c := c)
      (Control.cpu_setState : (s.setState q x).cpu = s.cpu) fun _ _ => Control.pc_setState]
    refine exists_congr fun c' => and_congr_right fun _ => ?_
    split
    next he => rw [he, hb, hk]
    next => rfl
  · rw [hslot]
    rw [Control.state_setState] at hp'
    split
    next => exact ha
    next =>
      split at hp'
      next he => exact he ▸ hlive hp'
      next => exact h.threads.alive p' hp'
  · rw [hslot] at hp'
    rw [Control.state_setState]
    split at hp'
    next => exact absurd hp' (Pc.not_dying hk)
    next =>
      split
      next he => exact absurd hp' (he ▸ hd)
      next => exact h.threads.dying p' hp'
  · rw [hslot] at hp' ⊢
    rw [hslot, Control.state_setState]
    split at hp'
    next he =>
      obtain ⟨rfl, hx', k', hk'⟩ := hp q' hp'
      rw [if_pos rfl, if_pos he]
      exact ⟨hx', .inr ⟨k', hk'⟩⟩
    next he =>
      obtain ⟨hu, hf⟩ := h.threads.makes p' q' hp'
      have hqp : q' ≠ p := by
        rintro rfl
        simp [hstate] at hu
      rw [if_neg (hmakes p' q' he hp'), if_neg hqp, if_neg he]
      exact ⟨hu, hf⟩
  · rw [hslot] at h₁ h₂
    split at h₁ <;> split at h₂
    next e₁ e₂ => rw [e₁, e₂]
    next he₂ => exact absurd (hp q' h₁).1 (hmakes p₂ q' he₂ h₂)
    next he₁ _ => exact absurd (hp q' h₂).1 (hmakes p₁ q' he₁ h₁)
    next => exact h.threads.maker p₁ p₂ q' h₁ h₂

theorem runs_of_wf (h : Inv s) (hpc : s.pc c = pc) (hn : ¬ pc.Wf none) :
    ∃ p, (s.cpu c).runs = some p := by
  cases hr : (s.cpu c).runs with
  | some p => exact ⟨p, rfl⟩
  | none => exact absurd (hr ▸ hpc ▸ h.wf c) hn

theorem alloc (h : Inv s) (hpc : s.pc c = .allocating q k) (hq : (s.slot q).state = .unused) :
    Inv ((s.setState q .used).goto c (.setup q k)) := by
  obtain ⟨p, hr⟩ := h.runs_of_wf hpc fun hw => hw.1 rfl
  have hw : (Pc.allocating q k).Wf (some p) := hr ▸ hpc ▸ h.wf c
  refine h.fill hr (by rw [hpc]; rfl) hw rfl (by rw [hpc]; rfl) (by rw [hpc]; rfl) nofun
    (by simp [hq]) nofun (by simp [Live]) (fun hd => ?_) (fun p' q' _ hm => ?_) fun q' hm => ?_
  · simp [h.threads.dying q hd] at hq
  · rintro rfl
    simp [(h.threads.makes p' q' hm).1] at hq
  · exact ⟨(Option.some.inj hm).symm, rfl, k, rfl⟩

/-- The process of a failed or a finished `fork`. -/
theorem made (h : Inv s) (hr : (s.cpu c).runs = some p) (hm : (s.pc c).makes = some q)
    (hh : (s.pc c).holds (some p) = some q) (hb : (s.pc c).leaving = false)
    (hl : (s.pc c).locks = ∅) (hwf : k.Wf (some p)) (hholds : k.holds (some p) = none)
    (hk : k.leaving = false) (hlocks : k.locks = ∅) (hmk : k.makes = none) (hx : x ≠ .running)
    (hlive : Live x → ∀ k', s.pc c ≠ .setup q k') :
    Inv ((s.setState q x).goto c (.unlock q k)) := by
  rw [Control.pc_of_runs hr] at hm
  obtain ⟨hu, hf⟩ := h.threads.makes p q hm
  refine h.fill hr hb ⟨hwf, hholds, hk⟩ rfl hh.symm (hl ▸ hlocks) nofun (by simp [hu]) hx
    (fun hx' => ?_) (fun hd => ?_) (fun p' q' hne hm' => ?_) fun q' hm' => ?_
  · rcases hf with hf | ⟨k', hf⟩
    · rw [hf]
      exact nofun
    · exact absurd (Control.pc_of_runs hr ▸ hf) (hlive hx' k')
  · simp [h.threads.dying q hd] at hu
  · rintro rfl
    exact hne (h.threads.maker p' p q' hm' hm)
  · rw [Pc.makes, hmk] at hm'
    cases hm'

theorem noMemory (h : Inv s) (hpc : s.pc c = .setup q k) :
    Inv ((s.setState q .unused).goto c (.unlock q k)) := by
  obtain ⟨p, hr⟩ := h.runs_of_wf hpc fun hw => hw.1 rfl
  obtain ⟨-, hwf, hholds, hk, hlocks, hmk⟩ : (Pc.setup q k).Wf (some p) := hr ▸ hpc ▸ h.wf c
  exact h.made hr (by rw [hpc]; rfl) (by rw [hpc]; rfl) (by rw [hpc]; rfl) (by rw [hpc]; rfl)
    hwf hholds hk hlocks hmk nofun (by simp [Live])

theorem ready (h : Inv s) (hpc : s.pc c = .ready q k) :
    Inv ((s.setState q .runnable).goto c (.unlock q k)) := by
  obtain ⟨p, hr⟩ := h.runs_of_wf hpc fun hw => hw.1 rfl
  obtain ⟨-, hwf, hholds, hk, hlocks, hmk⟩ : (Pc.ready q k).Wf (some p) := hr ▸ hpc ▸ h.wf c
  exact h.made hr (by rw [hpc]; rfl) (by rw [hpc]; rfl) (by rw [hpc]; rfl) (by rw [hpc]; rfl)
    hwf hholds hk hlocks hmk nofun (by simp [hpc])

theorem state_ready (h : Inv s) (hpc : s.pc c = .ready q k) : (s.slot q).state = .used := by
  obtain ⟨p, hr⟩ := h.runs_of_wf hpc fun hw => hw.1 rfl
  rw [Control.pc_of_runs hr] at hpc
  exact (h.threads.makes p q (by rw [hpc]; rfl)).1

theorem state_setup (h : Inv s) (hpc : s.pc c = .setup q k) : (s.slot q).state = .used := by
  obtain ⟨p, hr⟩ := h.runs_of_wf hpc fun hw => hw.1 rfl
  rw [Control.pc_of_runs hr] at hpc
  exact (h.threads.makes p q (by rw [hpc]; rfl)).1

/-- `fork` gives the new process its context. -/
theorem forked (h : Inv s) (hpc : s.pc c = .setup q k) :
    Inv ((s.setPc q .forkret).goto c (.unlock q (.acquire .wait (.adopt q k)))) := by
  obtain ⟨p, hr⟩ := h.runs_of_wf hpc fun hw => hw.1 rfl
  have hw : (Pc.setup q k).Wf (some p) := hr ▸ hpc ▸ h.wf c
  have hu := h.state_setup hpc
  have hb : (s.pc c).leaving = false := by rw [hpc]; rfl
  have hoff : ∀ c', (s.cpu c').runs ≠ some q := fun c' hc' =>
    h.off_of_holds (c := c) (by simp [hu]) (by rw [hpc]; rfl) hb c' (h.cpus.runs c' q hc').1
  have hpc₁ : ∀ c' p', (s.cpu c').runs = some p' →
      ((s.setPc q .forkret).slot p').pc = (s.slot p').pc := fun c' p' hc' => by
    rw [Control.pc_setPc, if_neg]
    rintro rfl
    exact hoff c' hc'
  have hpq : p ≠ q := fun he => hoff c (he ▸ hr)
  have hstate := h.state_of_runs hr (Control.pc_of_runs hr ▸ hb)
  have hslot : ∀ p', (((s.setPc q .forkret).goto c (.unlock q (.acquire .wait (.adopt q k)))).slot
      p').pc = if p' = p then .unlock q (.acquire .wait (.adopt q k))
        else if p' = q then .forkret else (s.slot p').pc := fun p' => by
    rw [Control.pc_goto, Control.cpu_setPc, hr, Control.pc_setPc]
    simp [eq_comm]
  have hmk : ∀ p', (((s.setPc q .forkret).goto c (.unlock q (.acquire .wait (.adopt q k)))).slot
      p').pc.makes = some q → p' = p := fun p' hp' => by
    by_contra hne
    rw [hslot, if_neg hne] at hp'
    split at hp'
    · cases hp'
    · refine hne (h.threads.maker p' p q hp' ?_)
      rw [← Control.pc_of_runs hr, hpc]
      rfl
  refine h.of_goto (c := c) rfl (fun p' => ?_) ?_ (by simp [hr]) ?_ (fun p' => ?_)
    (fun p' hp' => ?_) (fun p' hp' => ?_) (fun p' q' hp' => ?_) fun p₁ p₂ q' h₁ h₂ => ?_
  · rw [Control.pc_setPc]
    split
    next he => exact .inl ⟨he ▸ hoff, rfl⟩
    next => exact .inr rfl
  · rw [hr]
    exact ⟨⟨hw, rfl, rfl, Finset.mem_singleton_self _⟩, rfl, rfl⟩
  · exact h.locks_goto (by rw [hpc]; rfl) (by rw [hpc]; rfl) rfl hpc₁ (fun _ => Control.lock_setPc)
      rfl
  · rw [Control.state_setPc, h.running]
    refine exists_congr fun c' => and_congr_right fun _ => ?_
    rw [h.cpus.cur_goto (Control.cpu_setPc : (s.setPc q .forkret).cpu = s.cpu) (hpc₁ c')]
    split
    next he => rw [he, hpc]; rfl
    next => rfl
  · rw [hslot]
    rw [Control.state_setPc] at hp'
    split
    · exact nofun
    · split
      · exact nofun
      · exact h.threads.alive p' hp'
  · rw [hslot] at hp'
    rw [Control.state_setPc]
    split at hp'
    · exact hp'.elim
    · split at hp'
      · exact hp'.elim
      · exact h.threads.dying p' hp'
  · rw [Control.state_setPc]
    rcases eq_or_ne q' q with rfl | hne
    · rw [hslot q', if_neg hpq.symm, if_pos rfl]
      exact ⟨hu, .inl rfl⟩
    · rw [hslot] at hp'
      split at hp'
      · exact absurd (Option.some.inj hp').symm hne
      next he =>
        split at hp'
        · cases hp'
        next he' =>
          obtain ⟨hu', hf⟩ := h.threads.makes p' q' hp'
          have hqp : q' ≠ p := by
            rintro rfl
            simp [hstate] at hu'
          rw [hslot, hslot, if_neg hqp, if_neg hne, if_neg he, if_neg he']
          exact ⟨hu', hf⟩
  · rcases eq_or_ne q' q with rfl | hne
    · rw [hmk p₁ h₁, hmk p₂ h₂]
    · have hold : ∀ p', (((s.setPc q .forkret).goto c
          (.unlock q (.acquire .wait (.adopt q k)))).slot p').pc.makes = some q' →
          (s.slot p').pc.makes = some q' := fun p' hp' => by
        rw [hslot] at hp'
        split at hp'
        · exact absurd (Option.some.inj hp').symm hne
        · split at hp'
          · cases hp'
          · exact hp'
      exact h.threads.maker p₁ p₂ q' (hold p₁ h₁) (hold p₂ h₂)

end Inv

end Xv6.Sched

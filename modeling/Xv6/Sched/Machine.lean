import Xv6.Logic.Steps
import Xv6.Sys.Kernel

/-! # The scheduler

The interleavings of `scheduler` on `M` CPUs with traps, interrupts, `yield`, `sleep`,
`wakeup`, `kill`, `fork`, `exit` and `wait` of the processes of a table of `N` slots.
Every `acquire`, every `release` and every `swtch` is a step of its own. Kernel code
outside these functions may take and release spin locks and call them in any order.

Each CPU has a scheduler and each process a kernel thread. A thread keeps its place
while it does not run, so `swtch` only says which thread the CPU goes on with.
-/

namespace Xv6.Sched

open Sys (ProcState)

/-- The spin locks except those of the processes. -/
inductive Lk
  | wait
  | other (n : ℕ)
  deriving DecidableEq, Repr

/-- An address that `sleep` and `wakeup` are called with. -/
inductive Chan (N : ℕ)
  | proc (p : Fin N)
  | addr (a : ℕ)
  deriving DecidableEq, Repr

/-- What `usertrap` finds in `scause`. -/
inductive Cause
  | syscall
  | timer
  | device
  | fault
  deriving DecidableEq, Repr

/-- Places in the code; `k` is where a function returns to. -/
inductive Pc (N : ℕ)
  /-- In `scheduler`, at slot `i`. -/
  | scan (i : ℕ)
  | choose (p : Fin N)
  /-- Before and after the `swtch` of `scheduler`. -/
  | switch (p : Fin N)
  | back (p : Fin N)
  /-- At `acquire(&q->lock)` and at `release(&q->lock)`. -/
  | lock (q : Fin N) (k : Pc N)
  | unlock (q : Fin N) (k : Pc N)
  | acquire (l : Lk) (k : Pc N)
  | release (l : Lk) (k : Pc N)
  | user
  | forkret
  /-- In `forkret`, past `release`. -/
  | first
  /-- Kernel code of a process that holds the locks `held`. -/
  | kernel (held : Finset Lk) (k : Pc N)
  | usertrap (cause : Cause)
  /-- In `usertrap`, at `intr_on` before `syscall`. -/
  | syscall
  /-- In `usertrap`, where a timer interrupt is counted. -/
  | timer
  | usertrapret
  /-- In `devintr`, with the locks `held`. -/
  | handler (held : Finset Lk) (k : Pc N)
  /-- In `kerneltrap`, past `devintr`; `k` was interrupted. -/
  | kerneltrap (timer : Bool) (k : Pc N)
  /-- At the end of `kerneltrap`. -/
  | sret (k : Pc N)
  | yield (k : Pc N)
  | yielding (k : Pc N)
  | sched (k : Pc N)
  /-- In `sched`, past `swtch`. -/
  | resume (intena : Bool) (k : Pc N)
  | sleep (chan : Chan N) (l : Lk) (k : Pc N)
  /-- In `sleep`, past `release(lk)`. -/
  | sleeping (chan : Chan N) (l : Lk) (k : Pc N)
  /-- In `sleep`, past `sched`. -/
  | slept (l : Lk) (k : Pc N)
  | wakeup (chan : Chan N) (i : ℕ) (k : Pc N)
  | wake (chan : Chan N) (q : Fin N) (k : Pc N)
  | kill (pid : ℤ) (i : ℕ) (k : Pc N)
  | killing (pid : ℤ) (q : Fin N) (k : Pc N)
  /-- At a call of `killed`, with the places for either result. -/
  | killed (yes no : Pc N)
  | readKilled (yes no : Pc N)
  | setkilled (k : Pc N)
  | writeKilled (k : Pc N)
  /-- In `allocproc`, at slot `i`. -/
  | alloc (i : ℕ) (k : Pc N)
  | allocating (q : Fin N) (k : Pc N)
  /-- In `allocproc` and the first part of `fork`, past `p->state = USED`. -/
  | setup (q : Fin N) (k : Pc N)
  /-- In `fork`, at `np->parent = p` and at `np->state = RUNNABLE`. -/
  | adopt (np : Fin N) (k : Pc N)
  | ready (np : Fin N) (k : Pc N)
  | exit
  | reparent (i : ℕ)
  /-- In `exit`, at `p->state = ZOMBIE`. -/
  | zombie
  /-- In `exit`, past `sched`. -/
  | zombieExit
  /-- In `wait`, at slot `i`. -/
  | search (addr i : ℕ) (havekids : Bool) (k : Pc N)
  | child (addr : ℕ) (q : Fin N) (k : Pc N)
  deriving DecidableEq

namespace Pc

variable {N : ℕ} (me : Option (Fin N))

/-- The process lock that a thread of process `me` holds. -/
@[grind =] def holds : Pc N → Option (Fin N)
  | choose p | switch p | back p => some p
  | unlock q _ => some q
  | wake _ q _ | killing _ q _ | allocating q _ | setup q _ | ready q _ | child _ q _ => some q
  | forkret | yielding _ | sched _ | resume .. | sleeping .. | slept .. => me
  | readKilled .. | writeKilled _ | zombie => me
  | release _ k => k.holds
  | _ => none

/-- The other spin locks that it holds. -/
@[grind =] def locks : Pc N → Finset Lk
  | kernel held _ | handler held _ => held
  | lock _ k | unlock _ k => k.locks
  | acquire l k => k.locks.erase l
  | release l k => insert l k.locks
  | yield k | yielding k | sched k | resume _ k => k.locks
  | sleep _ _ k => k.locks
  | sleeping _ l k | slept l k => k.locks.erase l
  | wakeup _ _ k | wake _ _ k => k.locks
  | killed _ no | readKilled _ no => no.locks
  | reparent _ | zombie | adopt .. | search .. | child .. => {.wait}
  | _ => ∅

/-- `mycpu()->noff` -/
def noff (pc : Pc N) : ℕ := pc.locks.card + (pc.holds me).toList.length

end Pc

structure Cpu (N : ℕ) where
  /-- `c->proc` -/
  proc : Option (Fin N)
  /-- The process whose kernel thread the CPU executes, or `none` in the scheduler. -/
  runs : Option (Fin N)
  /-- Where the scheduler is. -/
  pc : Pc N

structure Slot (N M : ℕ) where
  /-- The CPU that holds `p->lock`. -/
  lock : Option (Fin M)
  state : ProcState
  /-- Where the kernel thread is. -/
  pc : Pc N

/-- The part of the state that decides who runs. -/
structure Control (N M : ℕ) where
  cpu : Fin M → Cpu N
  slot : Fin N → Slot N M
  lk : Lk → Option (Fin M)

namespace Control

variable {N M : ℕ} (s : Control N M)

/-- Where the CPU is. -/
@[grind =] def pc (c : Fin M) : Pc N :=
  match (s.cpu c).runs with
  | none => (s.cpu c).pc
  | some p => (s.slot p).pc

def setSlot (p : Fin N) (x : Slot N M) : Control N M :=
  { s with slot := Function.update s.slot p x }

def setCpu (c : Fin M) (x : Cpu N) : Control N M := { s with cpu := Function.update s.cpu c x }

def setLock (p : Fin N) (o : Option (Fin M)) : Control N M :=
  s.setSlot p { s.slot p with lock := o }

def setState (p : Fin N) (x : ProcState) : Control N M :=
  s.setSlot p { s.slot p with state := x }

/-- `p->context` -/
def setPc (p : Fin N) (k : Pc N) : Control N M := s.setSlot p { s.slot p with pc := k }

@[grind =] def setProc (c : Fin M) (o : Option (Fin N)) : Control N M :=
  s.setCpu c { s.cpu c with proc := o }

@[grind =] def setRuns (c : Fin M) (o : Option (Fin N)) : Control N M :=
  s.setCpu c { s.cpu c with runs := o }

def setLk (l : Lk) (o : Option (Fin M)) : Control N M :=
  { s with lk := Function.update s.lk l o }

/-- The thread on the CPU goes on at `k`. -/
def goto (c : Fin M) (k : Pc N) : Control N M :=
  match (s.cpu c).runs with
  | none => s.setCpu c { s.cpu c with pc := k }
  | some p => s.setPc p k

end Control

/-- The counters of `struct proc`. -/
inductive Counter
  | runCount
  | systemcallCount
  | interruptCount
  | preemptCount
  | trapCount
  | sleepCount
  deriving DecidableEq, Repr

/-- What happens to a process. -/
inductive What
  | run
  | systemcall
  | interrupt
  /-- A `yield`, called by `kerneltrap` or by `usertrap`. -/
  | preempt (kernel : Bool)
  | trap
  | sleep
  | exit
  deriving DecidableEq, Repr

/-- The counter that is incremented. -/
def What.counter : What → Option Counter
  | run => some .runCount
  | systemcall => some .systemcallCount
  | interrupt => some .interruptCount
  | preempt _ => some .preemptCount
  | trap => some .trapCount
  | sleep => some .sleepCount
  | exit => none

structure Event (N : ℕ) where
  slot : Fin N
  /-- Which process it happened to. -/
  serial : ℕ
  what : What
  deriving DecidableEq, Repr

structure Data (N : ℕ) where
  chan : Chan N
  killed : Bool
  pid : ℤ
  parent : Option (Fin N)
  count : Counter → BitVec 32
  /-- How many processes were created before this one. -/
  serial : ℕ

structure State (N M : ℕ) extends Control N M where
  data : Fin N → Data N
  /-- Whether interrupts are on when the CPU holds no lock. -/
  intena : Fin M → Bool
  /-- An `int` whose overflow C leaves undefined; here it counts on. -/
  nextpid : ℤ
  first : Bool
  initproc : Fin N
  -- what has happened so far
  born : ℕ
  history : List (Event N)

inductive Panic
  | acquire
  | release
  | schedLock
  | schedLocks
  | schedRunning
  | initExiting
  | zombieExit
  /-- A null pointer where the code expects a process. -/
  | noProc
  deriving DecidableEq, Repr

/-- The null address. -/
def nochan {N : ℕ} : Chan N := .addr 0

def Data.freeproc {N : ℕ} (x : Data N) : Data N :=
  { x with pid := 0, parent := none, chan := nochan, killed := false }

namespace State

variable {N M : ℕ} (s : State N M)

@[grind =] def on (x : Control N M) : State N M := { s with toControl := x }

def modify (p : Fin N) (f : Data N → Data N) : State N M :=
  { s with data := Function.update s.data p (f (s.data p)) }

def setIntena (c : Fin M) (b : Bool) : State N M :=
  { s with intena := Function.update s.intena c b }

/-- Count what happens to the process in slot `p`. -/
def note (p : Fin N) (w : What) : State N M :=
  { s.modify p fun x =>
      { x with count := match w.counter with
          | some i => Function.update x.count i (x.count i + 1)
          | none => x.count }
    with history := ⟨p, (s.data p).serial, w⟩ :: s.history }

/-- `allocpid` and the new process of the slot. -/
def enroll (p : Fin N) : State N M :=
  { s.modify p fun x => { x with pid := s.nextpid, serial := s.born }
    with nextpid := s.nextpid + 1, born := s.born + 1 }

/-- The CPU goes on at `k`. -/
def jump (c : Fin M) (k : Pc N) : Option (Except Panic (State N M)) := some (.ok (s.on (s.goto c k)))

/-- Code that calls `myproc`. -/
def withProc (c : Fin M) (f : Fin N → Option (Except Panic (State N M))) :
    Option (Except Panic (State N M)) :=
  match (s.cpu c).proc with
  | none => some (.error .noProc)
  | some p => f p

end State

variable {N M : ℕ}

/-- The channel of `wakeup(p->parent)`. -/
def parentChan : Option (Fin N) → Chan N
  | none => nochan
  | some q => .proc q

/-- Where `usertrap` goes on with a system call done or a device served. -/
def trapEnd : Pc N := .killed .exit .usertrapret

/-- The next step of the code on CPU `c`; `ok` is what an allocation or a copy in it returns. -/
@[grind =] def move (s : State N M) (c : Fin M) (ok : Bool) : Pc N → Option (Except Panic (State N M))
  | .scan i =>
    if h : i < N then s.jump c (.lock ⟨i, h⟩ (.choose ⟨i, h⟩))
    else (s.setIntena c true).jump c (.scan 0)
  | .choose p =>
    if (s.slot p).state = .runnable then
      some (.ok ((s.note p .run).on
        (((s.setState p .running).setProc c (some p)).goto c (.switch p))))
    else s.jump c (.unlock p (.scan (p + 1)))
  | .switch p => some (.ok (s.on ((s.goto c (.back p)).setRuns c (some p))))
  | .back p => some (.ok (s.on ((s.setProc c none).goto c (.unlock p (.scan (p + 1))))))
  | .lock q k =>
    if (s.slot q).lock = some c then some (.error .acquire)
    else if (s.slot q).lock = none then some (.ok (s.on ((s.setLock q (some c)).goto c k)))
    else none
  | .unlock q k =>
    if (s.slot q).lock = some c then some (.ok (s.on ((s.setLock q none).goto c k)))
    else some (.error .release)
  | .acquire l k =>
    if s.lk l = some c then some (.error .acquire)
    else if s.lk l = none then some (.ok (s.on ((s.setLk l (some c)).goto c k)))
    else none
  | .release l k =>
    if s.lk l = some c then some (.ok (s.on ((s.setLk l none).goto c k)))
    else some (.error .release)
  | .user | .kernel .. | .handler .. => none
  | .forkret => s.withProc c fun p => s.jump c (.unlock p .first)
  | .first =>
    -- The first process runs `fsinit` here.
    if s.first then { s with first := false }.jump c (.kernel ∅ .usertrapret)
    else s.jump c .usertrapret
  | .usertrap .syscall => s.withProc c fun p =>
    (s.note p .systemcall).jump c (.killed .exit .syscall)
  | .usertrap .timer => s.jump c (.handler ∅ (.killed .exit .timer))
  | .usertrap .device => s.jump c (.handler ∅ trapEnd)
  | .usertrap .fault => s.jump c (.setkilled trapEnd)
  | .syscall => (s.setIntena c true).jump c (.kernel ∅ trapEnd)
  | .timer => s.withProc c fun p => (s.note p .interrupt).jump c (.yield .usertrapret)
  | .usertrapret => (s.setIntena c false).jump c .user
  | .kerneltrap timer k =>
    if timer = true ∧ ∃ p, (s.cpu c).proc = some p ∧ (s.slot p).state = .running then
      s.jump c (.yield (.sret k))
    else s.jump c (.sret k)
  | .sret k => (s.setIntena c true).jump c k
  | .yield k => s.withProc c fun p => s.jump c (.lock p (.yielding k))
  | .yielding k => s.withProc c fun p =>
    some (.ok ((s.note p (.preempt (k ≠ .usertrapret))).on
      ((s.setState p .runnable).goto c (.sched (.unlock p k)))))
  | .sched k => s.withProc c fun p =>
    if (s.slot p).lock ≠ some c then some (.error .schedLock)
    else if (Pc.sched k).noff (some p) ≠ 1 then some (.error .schedLocks)
    else if (s.slot p).state = .running then some (.error .schedRunning)
    else some (.ok (s.on ((s.goto c (.resume (s.intena c) k)).setRuns c none)))
  | .resume intena k => (s.setIntena c intena).jump c k
  | .sleep chan l k => s.withProc c fun p =>
    s.jump c (.lock p (.release l (.sleeping chan l k)))
  | .sleeping chan l k => s.withProc c fun p =>
    some (.ok (((s.note p .sleep).modify p fun x => { x with chan := chan }).on
      ((s.setState p .sleeping).goto c (.sched (.slept l k)))))
  | .slept l k => s.withProc c fun p =>
    (s.modify p fun x => { x with chan := nochan }).jump c (.unlock p (.acquire l k))
  | .wakeup chan i k =>
    if h : i < N then
      if (s.cpu c).proc = some ⟨i, h⟩ then s.jump c (.wakeup chan (i + 1) k)
      else s.jump c (.lock ⟨i, h⟩ (.wake chan ⟨i, h⟩ k))
    else s.jump c k
  | .wake chan q k =>
    if (s.slot q).state = .sleeping ∧ (s.data q).chan = chan then
      some (.ok (s.on ((s.setState q .runnable).goto c (.unlock q (.wakeup chan (q + 1) k)))))
    else s.jump c (.unlock q (.wakeup chan (q + 1) k))
  | .kill pid i k =>
    if h : i < N then s.jump c (.lock ⟨i, h⟩ (.killing pid ⟨i, h⟩ k)) else s.jump c k
  | .killing pid q k =>
    if (s.data q).pid = pid then
      let s' := s.modify q fun x => { x with killed := true }
      if (s.slot q).state = .sleeping then
        some (.ok (s'.on ((s.setState q .runnable).goto c (.unlock q k))))
      else s'.jump c (.unlock q k)
    else s.jump c (.unlock q (.kill pid (q + 1) k))
  | .killed yes no => s.withProc c fun p => s.jump c (.lock p (.readKilled yes no))
  | .readKilled yes no => s.withProc c fun p =>
    s.jump c (.unlock p (if (s.data p).killed then yes else no))
  | .setkilled k => s.withProc c fun p => s.jump c (.lock p (.writeKilled k))
  | .writeKilled k => s.withProc c fun p =>
    (s.modify p fun x => { x with killed := true }).jump c (.unlock p k)
  | .alloc i k =>
    if h : i < N then s.jump c (.lock ⟨i, h⟩ (.allocating ⟨i, h⟩ k)) else s.jump c k
  | .allocating q k =>
    if (s.slot q).state = .unused then
      some (.ok ((s.enroll q).on ((s.setState q .used).goto c (.setup q k))))
    else s.jump c (.unlock q (.alloc (q + 1) k))
  | .setup q k =>
    if ok then
      some (.ok (s.on ((s.setPc q .forkret).goto c (.unlock q (.acquire .wait (.adopt q k))))))
    else some (.ok ((s.modify q Data.freeproc).on
      ((s.setState q .unused).goto c (.unlock q k))))
  | .adopt np k => s.withProc c fun p =>
    (s.modify np fun x => { x with parent := some p }).jump c (.release .wait (.lock np (.ready np k)))
  | .ready np k => some (.ok (s.on ((s.setState np .runnable).goto c (.unlock np k))))
  | .exit => s.withProc c fun p =>
    -- The code before `wait_lock` closes files.
    if p = s.initproc then some (.error .initExiting)
    else s.jump c (.kernel ∅ (.acquire .wait (.reparent 0)))
  | .reparent i => s.withProc c fun p =>
    if h : i < N then
      if (s.data ⟨i, h⟩).parent = some p then
        (s.modify ⟨i, h⟩ fun x => { x with parent := some s.initproc }).jump c
          (.wakeup (.proc s.initproc) 0 (.reparent (i + 1)))
      else s.jump c (.reparent (i + 1))
    else s.jump c (.wakeup (parentChan (s.data p).parent) 0 (.lock p .zombie))
  | .zombie => s.withProc c fun p =>
    some (.ok ((s.note p .exit).on
      ((s.setState p .zombie).goto c (.release .wait (.sched .zombieExit)))))
  | .zombieExit => some (.error .zombieExit)
  | .search addr i havekids k => s.withProc c fun p =>
    if h : i < N then
      if (s.data ⟨i, h⟩).parent = some p then s.jump c (.lock ⟨i, h⟩ (.child addr ⟨i, h⟩ k))
      else s.jump c (.search addr (i + 1) havekids k)
    else if havekids then
      s.jump c (.killed (.release .wait k) (.sleep (.proc p) .wait (.search addr 0 false k)))
    else s.jump c (.release .wait k)
  | .child addr q k =>
    if (s.slot q).state = .zombie then
      if addr ≠ 0 ∧ ok = false then s.jump c (.unlock q (.release .wait k))
      else some (.ok ((s.modify q Data.freeproc).on
        ((s.setState q .unused).goto c (.unlock q (.release .wait k)))))
    else s.jump c (.unlock q (.search addr (q + 1) true k))

/-- What kernel code and interrupt handlers do next. -/
inductive Op (N : ℕ)
  | acquire (n : ℕ)
  | release (n : ℕ)
  | wakeup (chan : Chan N)
  | sleep (chan : Chan N) (n : ℕ)
  | fork
  | exit
  | wait (addr : ℕ)
  | kill (pid : ℤ)
  | ret
  deriving DecidableEq

/-- The operations of all code; `code held` is the place with the locks `held`. -/
@[grind =] def operate (s : State N M) (c : Fin M) (held : Finset Lk) (code : Finset Lk → Pc N) (k : Pc N) :
    Op N → Option (Except Panic (State N M))
  | .acquire n =>
    if .other n ∈ held then some (.error .acquire)
    else s.jump c (.acquire (.other n) (code (insert (.other n) held)))
  | .release n =>
    if .other n ∈ held then s.jump c (.release (.other n) (code (held.erase (.other n))))
    else some (.error .release)
  | .wakeup chan => s.jump c (.wakeup chan 0 (code held))
  | .ret => if held = ∅ then s.jump c k else none
  | _ => none

/-- The operations of kernel code of a process; system calls start without locks. -/
@[grind =] def call (s : State N M) (c : Fin M) (held : Finset Lk) (k : Pc N) :
    Op N → Option (Except Panic (State N M))
  | .sleep chan n =>
    if .other n ∈ held then s.jump c (.sleep chan (.other n) (.kernel held k))
    else some (.error .release)
  | .fork => if held = ∅ then s.jump c (.alloc 0 (.kernel ∅ k)) else none
  | .exit => if held = ∅ then s.jump c .exit else none
  | .wait addr =>
    if held = ∅ then s.jump c (.acquire .wait (.search addr 0 false (.kernel ∅ k))) else none
  | .kill pid => if held = ∅ then s.jump c (.kill pid 0 (.kernel ∅ k)) else none
  | op => operate s c held (.kernel · k) k op

inductive Act (N M : ℕ)
  | go (c : Fin M) (ok : Bool)
  | op (c : Fin M) (op : Op N)
  /-- A trap from user space. -/
  | trap (c : Fin M) (cause : Cause)
  /-- An interrupt in the kernel, by the timer or by another device. -/
  | intr (c : Fin M) (timer : Bool)
  deriving DecidableEq

/-- One step of the machine; `none` when it is not enabled. -/
@[grind =] def step (s : State N M) : Act N M → Option (Except Panic (State N M))
  | .go c ok => move s c ok (s.pc c)
  | .op c op =>
    match s.pc c with
    | .kernel held k => call s c held k op
    | .handler held k => operate s c held (.handler · k) k op
    | _ => none
  | .trap c cause =>
    if s.pc c = .user then s.withProc c fun p =>
      ((s.note p .trap).setIntena c false).jump c (.usertrap cause)
    else none
  | .intr c timer =>
    if s.pc c ≠ .user ∧ (s.pc c).noff (s.cpu c).runs = 0 ∧ s.intena c = true then
      (s.setIntena c false).jump c (.handler ∅ (.kerneltrap timer (s.pc c)))
    else none

/-- After `userinit`, with every CPU at the start of `scheduler`. -/
@[grind =] def init [NeZero N] : State N M where
  cpu _ := ⟨none, none, .scan N⟩
  slot p := ⟨none, if p = 0 then .runnable else .unused,
    if p = 0 then .forkret else .resume false .zombieExit⟩
  lk _ := none
  data p := ⟨nochan, false, if p = 0 then 1 else 0, none, fun _ => 0, 0⟩
  intena _ := false
  nextpid := 2
  first := true
  initproc := 0
  born := 1
  history := []

end Xv6.Sched

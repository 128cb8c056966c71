import Xv6.Logic.Steps
import Xv6.Sys.Kernel

/-! # Processes on several CPUs

The interleavings of `fork`, `exit`, `wait`, `kill`, `sys_sleep`, `consoleread` and
the calls on one pipe. A section under a `p->lock` is one step, the other locks
have a holder, and a process is preempted only while it holds none of them. The
results of memory allocation and of copies to or from user space are arguments
of a step.
-/

namespace Xv6.Proc

open Sys Function

inductive Lock
  | wait
  | pipe
  | cons
  | ticks
  deriving DecidableEq, Repr

inductive Chan
  | proc (p : Pptr)
  | nread
  | nwrite
  | cons
  | ticks
  deriving DecidableEq, Repr

/-- A loop that tests `killed` and calls `sleep`, with its variables. -/
inductive Loop
  | wait (addr : ℕ)
  | read (n : ℕ)
  /-- `i` bytes are written, `start` of them before the lock was last taken; `src` is left. -/
  | write (i start : ℕ) (src : List UInt8)
  | cons (n target : ℕ)
  | ticks (n : ℕ) (ticks0 : Option ℕ)
  deriving DecidableEq, Repr

namespace Loop

def lock : Loop → Lock
  | wait _ => .wait
  | read _ => .pipe
  | write .. => .pipe
  | cons .. => .cons
  | ticks .. => .ticks

/-- What process `p` sleeps on. -/
def chan (p : Pptr) : Loop → Chan
  | wait _ => .proc p
  | read _ => .nread
  | write .. => .nwrite
  | cons .. => .cons
  | ticks .. => .ticks

/-- The loop when its lock has been taken. -/
def locked : Loop → Loop
  | write i _ src => write i i src
  | l => l

end Loop

/-- Where a process is. -/
inductive Pc
  | user
  /-- After the last `sched` of `exit`, and in a free slot. -/
  | dead
  /-- In the search of `allocproc`. -/
  | alloc (i : ℕ)
  /-- In `fork`, before and after the parent of `np` is set. -/
  | adopt (np : Pptr)
  | start (np : Pptr)
  /-- In `exit`, at `acquire(&wait_lock)`. -/
  | exit (status : ℤ)
  | reparent (status : ℤ) (i : ℕ)
  /-- In `exit`, at `acquire(&p->lock)`. -/
  | zombie (status : ℤ)
  /-- In `wakeup`, with the place to return to. -/
  | wakeup (chan : Chan) (i : ℕ) (k : Pc)
  | kill (pid : ℤ) (i : ℕ)
  /-- At the `acquire` before a loop or at the end of `sleep`. -/
  | enter (l : Loop)
  | head (l : Loop)
  /-- At the call of `killed`. -/
  | test (l : Loop)
  /-- At the call of `sleep`. -/
  | doze (l : Loop)
  | asleep (l : Loop)
  /-- In the search of `wait`. -/
  | scan (addr i : ℕ) (havekids : Bool)
  /-- In `pipewrite`, past the call of `killed`. -/
  | put (i start : ℕ) (src : List UInt8)
  /-- In the second loop of `piperead`. -/
  | get (n i : ℕ)
  /-- At the last `release` of `piperead`. -/
  | readEnd (n i : ℕ)
  /-- In `pipeclose`, at `acquire`. -/
  | close (writable : Bool)
  /-- At the `release` before a return. -/
  | ret (lk : Lock) (r : ℤ)
  deriving DecidableEq, Repr

structure Slot where
  state : ProcState
  chan : Option Chan
  killed : Bool
  xstate : ℤ
  pid : ℤ
  parent : Option Pptr
  /-- The result of the last system call. -/
  a0 : ℤ
  pc : Pc
  /-- How many processes were created before this one. -/
  serial : ℕ

structure Console where
  buf : ℕ → UInt8
  r : ℕ
  w : ℕ
  e : ℕ

/-- A process, by its serial number, with what `wait` reports of it. -/
structure Exit where
  serial : ℕ
  pid : ℤ
  xstate : ℤ
  deriving DecidableEq, Repr

structure Machine where
  slot : Pptr → Slot
  lock : Lock → Option Pptr
  pipe : Pipe
  cons : Console
  ticks : ℕ
  /-- An `int` whose overflow C leaves undefined; here it counts on. -/
  nextpid : ℤ
  -- What has happened so far: processes created, exited and reported by `wait`,
  -- and the bytes that went into and out of the pipe.
  born : ℕ
  exits : List Exit
  reaps : List Exit
  inserted : List UInt8
  removed : List UInt8

abbrev initproc : Pptr := 0

abbrev INPUT_BUF_SIZE : ℕ := 128

/-- The values of a `uint`. -/
abbrev UINT : ℕ := 2 ^ 32

def Slot.freeproc (x : Slot) : Slot :=
  { x with pid := 0, parent := none, chan := none, killed := false, xstate := 0,
           state := .unused, pc := .dead }

/-- A slot after `allocproc` and the copies of `fork`; the other fields keep what they had. -/
def Slot.allocproc (x : Slot) (pid : ℤ) (serial : ℕ) : Slot :=
  { x with pid := pid, state := .used, a0 := 0, pc := .user, serial := serial }

def Slot.exit (x : Slot) (status : ℤ) : Slot :=
  { x with xstate := status, state := .zombie, pc := .dead }

def Slot.rouse (x : Slot) : Slot := { x with state := .runnable }

/-- The section of `kill` at a slot with the given pid. -/
def Slot.kill (x : Slot) : Slot :=
  { x with killed := true, state := if x.state = .sleeping then .runnable else x.state }

def Slot.report (x : Slot) : Exit := ⟨x.serial, x.pid, x.xstate⟩

def isFull (pi : Pipe) : Bool := pi.nwrite = (pi.nread + PIPESIZE) % UINT

def isEmpty (pi : Pipe) : Bool := pi.nread = pi.nwrite

/-- `pi->data[pi->nwrite++ % PIPESIZE] = ch` -/
def putByte (pi : Pipe) (ch : UInt8) : Pipe :=
  { pi with data := update pi.data (pi.nwrite % PIPESIZE) ch,
            nwrite := (pi.nwrite + 1) % UINT }

/-- `pi->data[pi->nread++ % PIPESIZE]` -/
def getByte (pi : Pipe) : UInt8 × Pipe :=
  (pi.data (pi.nread % PIPESIZE), { pi with nread := (pi.nread + 1) % UINT })

def closeEnd (pi : Pipe) (writable : Bool) : Pipe :=
  if writable then { pi with writeopen := false } else { pi with readopen := false }

namespace Machine

variable (s : Machine)

def modify (q : Pptr) (f : Slot → Slot) : Machine :=
  { s with slot := update s.slot q (f (s.slot q)) }

def goto (p : Pptr) (pc : Pc) : Machine := s.modify p fun x => { x with pc := pc }

/-- Return to user space. -/
def finish (p : Pptr) (r : ℤ) : Machine := s.modify p fun x => { x with pc := .user, a0 := r }

def setLock (lk : Lock) (o : Option Pptr) : Machine :=
  { s with lock := update s.lock lk o }

def acquire (p : Pptr) (lk : Lock) (pc : Pc) : Option Machine :=
  if s.lock lk = none then some ((s.setLock lk (some p)).goto p pc) else none

variable {s} {p q r : Pptr} {f : Slot → Slot} {pc : Pc} {lk : Lock} {o : Option Pptr} {z : ℤ}

theorem slot_modify : (s.modify q f).slot r = if r = q then f (s.slot q) else s.slot r :=
  update_apply ..

theorem slot_goto : (s.goto p pc).slot r = if r = p then { s.slot p with pc := pc } else s.slot r :=
  slot_modify

theorem slot_finish :
    (s.finish p z).slot r = if r = p then { s.slot p with pc := .user, a0 := z } else s.slot r :=
  slot_modify

theorem lock_setLock {lk' : Lock} :
    (s.setLock lk o).lock lk' = if lk' = lk then o else s.lock lk' :=
  update_apply ..

@[simp] theorem slot_setLock : (s.setLock lk o).slot = s.slot := rfl
@[simp] theorem pipe_setLock : (s.setLock lk o).pipe = s.pipe := rfl
@[simp] theorem lock_modify : (s.modify q f).lock = s.lock := rfl
@[simp] theorem pipe_modify : (s.modify q f).pipe = s.pipe := rfl
@[simp] theorem lock_goto : (s.goto p pc).lock = s.lock := rfl
@[simp] theorem pipe_goto : (s.goto p pc).pipe = s.pipe := rfl
@[simp] theorem lock_finish : (s.finish p z).lock = s.lock := rfl
@[simp] theorem pipe_finish : (s.finish p z).pipe = s.pipe := rfl

variable (s)

/-- `allocproc` at the free slot `q`, and the part of `fork` under the lock of `q`. -/
def allocproc (q : Pptr) (ok : Bool) : Machine :=
  let s' := { s with nextpid := s.nextpid + 1 }
  if ok then { s'.modify q fun x => x.allocproc s.nextpid s.born with born := s.born + 1 }
  else s'.modify q Slot.freeproc

variable {s} in
theorem slot_allocproc {ok : Bool} : (s.allocproc q ok).slot r =
    if r = q then
      if ok then (s.slot q).allocproc s.nextpid s.born else (s.slot q).freeproc
    else s.slot r := by
  cases ok <;> simp [allocproc, modify, update_apply]

variable {s} in
@[simp] theorem lock_allocproc {ok : Bool} : (s.allocproc q ok).lock = s.lock := by
  cases ok <;> rfl

variable {s} in
@[simp] theorem pipe_allocproc {ok : Bool} : (s.allocproc q ok).pipe = s.pipe := by
  cases ok <;> rfl

/-- `consoleread` with at least one byte in the buffer. -/
def takeByte (p : Pptr) (n target : ℕ) (ok : Bool) : Machine :=
  let c := s.cons.buf (s.cons.r % INPUT_BUF_SIZE)
  let s' := { s with cons := { s.cons with r := (s.cons.r + 1) % UINT } }
  if c = 4 then
    -- A control-D that does not come first is left for the next call.
    if n < target then s.goto p (.ret .cons (target - n))
    else s'.goto p (.ret .cons (target - n))
  else if ok = false then s'.goto p (.ret .cons (target - n))
  else if c = 10 then s'.goto p (.ret .cons (target - (n - 1 : ℕ)))
  else s'.goto p (.head (.cons (n - 1) target))

/-- One round at the head of a loop. -/
def round (p : Pptr) (ok : Bool) : Loop → Machine
  | .wait addr => s.goto p (.scan addr 0 false)
  | .read n =>
    if isEmpty s.pipe ∧ s.pipe.writeopen then s.goto p (.test (.read n)) else s.goto p (.get n 0)
  | .write i _ [] => s.goto p (.wakeup .nread 0 (.ret .pipe i))
  | .write i start (b :: src) =>
    if s.pipe.readopen then s.goto p (.test (.write i start (b :: src)))
    else s.goto p (.ret .pipe (-1))
  | .cons n target =>
    if n = 0 then s.goto p (.ret .cons target)
    else if s.cons.r = s.cons.w then s.goto p (.test (.cons n target))
    else s.takeByte p n target ok
  | .ticks n none => s.goto p (.head (.ticks n (some s.ticks)))
  | .ticks n (some ticks0) =>
    if (s.ticks + UINT - ticks0) % UINT < n then s.goto p (.test (.ticks n (some ticks0)))
    else s.goto p (.ret .ticks 0)

end Machine

/-- Where a loop goes on when `killed` is false. -/
def Loop.go : Loop → Pc
  | .write i start src => .put i start src
  | l => .doze l

inductive Panic
  | initExiting
  deriving DecidableEq, Repr

/-- The next step of the running process `p`. -/
def move (s : Machine) (p : Pptr) (ok : Bool) : Pc → Option (Except Panic Machine)
  | .user | .dead | .asleep _ => none
  | .alloc i =>
    if h : i < NPROC then
      if (s.slot ⟨i, h⟩).state = .unused then
        if ok then some (.ok ((s.allocproc ⟨i, h⟩ true).goto p (.adopt ⟨i, h⟩)))
        else some (.ok ((s.allocproc ⟨i, h⟩ false).finish p (-1)))
      else some (.ok (s.goto p (.alloc (i + 1))))
    else some (.ok (s.finish p (-1)))
  | .adopt np =>
    if s.lock .wait = none then
      some (.ok ((s.modify np fun x => { x with parent := some p }).goto p (.start np)))
    else none
  | .start np => some (.ok ((s.modify np Slot.rouse).finish p (s.slot np).pid))
  | .exit status =>
    if p = initproc then some (.error .initExiting)
    else (s.acquire p .wait (.reparent status 0)).map .ok
  | .reparent status i =>
    if h : i < NPROC then
      if (s.slot ⟨i, h⟩).parent = some p then
        some (.ok ((s.modify ⟨i, h⟩ fun x => { x with parent := some initproc }).goto p
          (.wakeup (.proc initproc) 0 (.reparent status (i + 1)))))
      else some (.ok (s.goto p (.reparent status (i + 1))))
    else
      match (s.slot p).parent with
      | some q => some (.ok (s.goto p (.wakeup (.proc q) 0 (.zombie status))))
      | none => some (.ok (s.goto p (.zombie status)))
  | .zombie status =>
    some (.ok { (s.modify p (·.exit status)).setLock .wait none with
      exits := ((s.slot p).exit status).report :: s.exits })
  | .wakeup chan i k =>
    if h : i < NPROC then
      if ⟨i, h⟩ ≠ p ∧ (s.slot ⟨i, h⟩).state = .sleeping ∧ (s.slot ⟨i, h⟩).chan = some chan then
        some (.ok ((s.modify ⟨i, h⟩ Slot.rouse).goto p (.wakeup chan (i + 1) k)))
      else some (.ok (s.goto p (.wakeup chan (i + 1) k)))
    else some (.ok (s.goto p k))
  | .kill pid i =>
    if h : i < NPROC then
      if (s.slot ⟨i, h⟩).pid = pid then some (.ok ((s.modify ⟨i, h⟩ Slot.kill).finish p 0))
      else some (.ok (s.goto p (.kill pid (i + 1))))
    else some (.ok (s.finish p (-1)))
  | .enter l => (s.acquire p l.lock (.head l.locked)).map .ok
  | .head l => some (.ok (s.round p ok l))
  | .test l =>
    if (s.slot p).killed then some (.ok (s.goto p (.ret l.lock (-1))))
    else some (.ok (s.goto p l.go))
  | .doze l =>
    some (.ok ((s.setLock l.lock none).modify p fun x =>
      { x with chan := some (l.chan p), state := .sleeping, pc := .asleep l }))
  | .scan addr i havekids =>
    if h : i < NPROC then
      if (s.slot ⟨i, h⟩).parent = some p then
        if (s.slot ⟨i, h⟩).state = .zombie then
          if addr ≠ 0 ∧ ok = false then some (.ok ((s.setLock .wait none).finish p (-1)))
          else some (.ok { ((s.modify ⟨i, h⟩ Slot.freeproc).setLock .wait none).finish p
              (s.slot ⟨i, h⟩).pid with reaps := (s.slot ⟨i, h⟩).report :: s.reaps })
        else some (.ok (s.goto p (.scan addr (i + 1) true)))
      else some (.ok (s.goto p (.scan addr (i + 1) havekids)))
    else if havekids then some (.ok (s.goto p (.test (.wait addr))))
    else some (.ok (s.goto p (.ret .wait (-1))))
  | .put i _ [] => some (.ok (s.goto p (.wakeup .nread 0 (.ret .pipe i))))
  | .put i start (b :: src) =>
    if isFull s.pipe then
      some (.ok (s.goto p (.wakeup .nread 0 (.doze (.write i start (b :: src))))))
    else if ok then
      some (.ok ({ s with pipe := putByte s.pipe b, inserted := s.inserted ++ [b] }.goto p
        (.head (.write (i + 1) start src))))
    else some (.ok (s.goto p (.wakeup .nread 0 (.ret .pipe i))))
  | .get n i =>
    if i < n ∧ isEmpty s.pipe = false then
      let s' := { s with pipe := (getByte s.pipe).2, removed := s.removed ++ [(getByte s.pipe).1] }
      if ok then some (.ok (s'.goto p (.get n (i + 1))))
      else some (.ok (s'.goto p (.wakeup .nwrite 0 (.readEnd n i))))
    else some (.ok (s.goto p (.wakeup .nwrite 0 (.readEnd n i))))
  | .readEnd _ i => some (.ok ((s.setLock .pipe none).finish p i))
  | .close writable =>
    (Machine.acquire { s with pipe := closeEnd s.pipe writable } p .pipe
      (.wakeup (if writable then .nread else .nwrite) 0 (.ret .pipe 0))).map .ok
  | .ret lk r => some (.ok ((s.setLock lk none).finish p r))

inductive Call
  | fork
  | exit (status : ℤ)
  | wait (addr : ℕ)
  | kill (pid : ℤ)
  | piperead (n : ℕ)
  | pipewrite (src : List UInt8)
  | pipeclose (writable : Bool)
  | consoleread (n : ℕ)
  | sleep (n : ℕ)
  deriving DecidableEq, Repr

def Call.entry : Call → Pc
  | fork => .alloc 0
  | exit status => .exit status
  | wait addr => .enter (.wait addr)
  | kill pid => .kill pid 0
  | piperead n => .enter (.read n)
  | pipewrite src => .enter (.write 0 0 src)
  | pipeclose writable => .close writable
  | consoleread n => .enter (.cons n n)
  | sleep n => .enter (.ticks n none)

/-- The locks a process holds. -/
def Pc.holds : Pc → Option Lock
  | .reparent .. | .zombie _ | .scan .. => some .wait
  | .wakeup _ _ k => k.holds
  | .head l | .test l | .doze l => some l.lock
  | .put .. | .get .. | .readEnd .. => some .pipe
  | .ret lk _ => some lk
  | _ => none

/-- Take back the last byte of the line that is being typed. -/
def Console.erase (x : Console) : Console := { x with e := (x.e + UINT - 1) % UINT }

/-- The loop of `consoleintr` for control-U; `fuel` bounds the length of the line. -/
def Console.killLine (x : Console) : ℕ → Console
  | 0 => x
  | fuel + 1 =>
    if x.e ≠ x.w ∧ x.buf ((x.e + UINT - 1) % UINT % INPUT_BUF_SIZE) ≠ 10 then
      x.erase.killLine fuel
    else x

/-- `consoleintr` up to its `wakeup` and its output. -/
def Console.intr (x : Console) (c : UInt8) : Console :=
  if c = 16 then x
  else if c = 21 then x.killLine ((x.e + UINT - x.w) % UINT)
  else if c = 8 ∨ c = 0x7f then if x.e ≠ x.w then x.erase else x
  else if c ≠ 0 ∧ (x.e + UINT - x.r) % UINT < INPUT_BUF_SIZE then
    let c := if c = 13 then 10 else c
    let y : Console :=
      { x with buf := update x.buf (x.e % INPUT_BUF_SIZE) c, e := (x.e + 1) % UINT }
    if c = 10 ∨ c = 4 ∨ (y.e + UINT - y.r) % UINT = INPUT_BUF_SIZE then { y with w := y.e } else y
  else x

inductive Act
  /-- `scheduler` switches to the process. -/
  | sched (p : Pptr)
  | yield (p : Pptr)
  /-- An unexpected trap from user space. -/
  | trap (p : Pptr)
  | call (p : Pptr) (c : Call)
  /-- The next step of a call; `ok` is what an allocation or a copy in it returns. -/
  | go (p : Pptr) (ok : Bool)
  /-- A step of the `wakeup` in an interrupt handler, which may come at any time. -/
  | rouse (p : Pptr)
  | consoleintr (c : UInt8)
  | clockintr
  deriving DecidableEq, Repr

/-- `swtch` to a process; one that was in `sleep` goes on to its last `acquire`. -/
def Slot.sched (x : Slot) : Slot :=
  match x.pc with
  | .asleep l => { x with state := .running, chan := none, pc := .enter l }
  | _ => { x with state := .running }

/-- One step of the machine; `none` when it is not enabled. -/
def step (s : Machine) : Act → Option (Except Panic Machine)
  | .sched p => if (s.slot p).state = .runnable then some (.ok (s.modify p Slot.sched)) else none
  | .yield p =>
    if (s.slot p).state = .running ∧ (s.slot p).pc.holds = none then
      some (.ok (s.modify p Slot.rouse))
    else none
  | .trap p =>
    if (s.slot p).state = .running ∧ (s.slot p).pc = .user then
      some (.ok (s.modify p fun x => { x with killed := true }))
    else none
  | .call p c =>
    if (s.slot p).state = .running ∧ (s.slot p).pc = .user then some (.ok (s.goto p c.entry))
    else none
  | .go p ok => if (s.slot p).state = .running then move s p ok (s.slot p).pc else none
  | .rouse p =>
    if (s.slot p).state = .sleeping ∧
        ((s.slot p).chan = some .cons ∨ (s.slot p).chan = some .ticks) then
      some (.ok (s.modify p Slot.rouse))
    else none
  | .consoleintr c =>
    if s.lock .cons = none then some (.ok { s with cons := s.cons.intr c }) else none
  | .clockintr =>
    if s.lock .ticks = none then some (.ok { s with ticks := (s.ticks + 1) % UINT }) else none

/-- After `userinit`, with a pipe as `pipealloc` leaves it and any bytes in its page. -/
def init (data : ℕ → UInt8) : Machine where
  slot p :=
    if p = initproc then ⟨.runnable, none, false, 0, 1, none, 0, .user, 0⟩
    else ⟨.unused, none, false, 0, 0, none, 0, .dead, 0⟩
  lock _ := none
  pipe := ⟨data, 0, 0, true, true⟩
  cons := ⟨fun _ => 0, 0, 0, 0⟩
  ticks := 0
  nextpid := 2
  born := 1
  exits := []
  reaps := []
  inserted := []
  removed := []

end Xv6.Proc

import Xv6.Sys.Kernel
import Xv6.Vm.Exec

/-! # Processes and their memory

The calls of `proc.c`, `file.c`, `pipe.c` and `sysproc.c` that take and give back pages.
A call runs to its end before the next one starts.
-/

namespace Xv6.Vm

open Function

open Sys (ProcState FdType Fptr Pptr)

structure Proc where
  state : ProcState
  xstate : ℤ
  pid : ℕ
  parent : Option Pptr
  sz : ℕ
  /-- The address of the root page, or 0. -/
  pagetable : ℕ
  trapframe : ℕ
  ofile : Fin NOFILE → Option Fptr

structure File where
  type : FdType
  ref : ℕ
  writable : Bool
  pipe : ℕ

structure Kern where
  mem : Mem
  /-- The pages that the kernel takes for itself before it starts the first process. -/
  boot : List ℕ
  ftable : Fptr → File
  proc : Pptr → Proc
  nextpid : ℕ
  initproc : Option Pptr

abbrev V := EStateM Panic Kern

namespace Kern

variable (s : Kern)

def setMem (mem : Mem) : Kern := { s with mem := mem }

def setFile (f : Fptr) (x : File) : Kern := { s with ftable := update s.ftable f x }

@[grind =] def setProc (p : Pptr) (x : Proc) : Kern := { s with proc := update s.proc p x }

end Kern

/-- A command on memory inside the kernel. -/
def onMem {α : Type} (m : M α) : V α := fun s =>
  match m s.mem with
  | .ok a mem => .ok a (s.setMem mem)
  | .error e mem => .error e (s.setMem mem)

def modifyFile (f : Fptr) (g : File → File) : V Unit := modify fun s => s.setFile f (g (s.ftable f))

def modifyProc (p : Pptr) (g : Proc → Proc) : V Unit := modify fun s => s.setProc p (g (s.proc p))

def getFile (f : Fptr) : V File := fun s => .ok (s.ftable f) s

def getProc (p : Pptr) : V Proc := fun s => .ok (s.proc p) s

/-! ## Files and pipes -/

/-- The offsets of the fields of `struct pipe`. -/
abbrev NREAD : ℕ := 536
abbrev NWRITE : ℕ := 540
abbrev READOPEN : ℕ := 544
abbrev WRITEOPEN : ℕ := 548

def filealloc : V (Option Fptr) := do
  let s ← get
  match (List.finRange NFILE).find? fun f => (s.ftable f).ref = 0 with
  | some f => do
    modifyFile f fun x => { x with ref := 1 }
    pure (some f)
  | none => pure none

def filedup (f : Fptr) : V Unit := do
  let x ← getFile f
  stopIf (x.ref < 1) .filedup
  modifyFile f fun x => { x with ref := x.ref + 1 }

def pipeclose (pi : ℕ) (writable : Bool) : M Unit := do
  let s ← get
  let page := (s.page pi).set32 (if writable then WRITEOPEN else READOPEN) 0
  setPage pi page
  runIf (page.get32 READOPEN = 0 ∧ page.get32 WRITEOPEN = 0) (kfree pi)

def fileclose (f : Fptr) : V Unit := do
  let ff ← getFile f
  stopIf (ff.ref < 1) .fileclose
  modifyFile f fun x => { x with ref := x.ref - 1 }
  runIf (ff.ref = 1) do
    modifyFile f fun x => { x with type := .none }
    runIf (ff.type = .pipe) (onMem (pipeclose ff.pipe ff.writable))

def pipealloc : V (Option (Fptr × Fptr)) := do
  match ← filealloc with
  | none => pure none
  | some f₀ =>
    match ← filealloc with
    | none => do
      fileclose f₀
      pure none
    | some f₁ =>
      match ← onMem kalloc with
      | none => do
        fileclose f₀
        fileclose f₁
        pure none
      | some pi => do
        onMem do
          let s ← get
          setPage pi (((((s.page pi).set32 READOPEN 1).set32 WRITEOPEN 1).set32 NWRITE 0).set32 NREAD 0)
        modifyFile f₀ fun x => { x with type := .pipe, writable := false, pipe := pi }
        modifyFile f₁ fun x => { x with type := .pipe, writable := true, pipe := pi }
        pure (some (f₀, f₁))

def fdalloc (p : Pptr) (f : Fptr) : V (Option (Fin NOFILE)) := do
  let x ← getProc p
  match (List.finRange NOFILE).find? fun fd => (x.ofile fd).isNone with
  | some fd => do
    modifyProc p fun x => { x with ofile := update x.ofile fd (some f) }
    pure (some fd)
  | none => pure none

def fdclear (p : Pptr) (fd : Fin NOFILE) : V Unit :=
  modifyProc p fun x => { x with ofile := update x.ofile fd none }

def sysClose (p : Pptr) (fd : ℕ) : V ℤ := do
  let x ← getProc p
  if h : fd < NOFILE then
    match x.ofile ⟨fd, h⟩ with
    | none => pure (-1)
    | some f => do
      fdclear p ⟨fd, h⟩
      fileclose f
      pure 0
  else pure (-1)

/-- The bytes of an `int`. -/
def bytes32 (v : ℤ) : List UInt8 :=
  List.ofFn (Bytes.set32 (Bytes.zero : Bytes 4) 0 (v % 2 ^ 32).toNat)

/-- `copyout` of both descriptors. -/
def copyoutFds (pagetable fdarray : ℕ) (fd₀ fd₁ : Fin NOFILE) : M Bool := do
  if ← copyout pagetable fdarray (bytes32 fd₀.val) then
    copyout pagetable ((fdarray + 4) % 2 ^ 64) (bytes32 fd₁.val)
  else pure false

def sysPipe (p : Pptr) (fdarray : ℕ) : V ℤ := do
  match ← pipealloc with
  | none => pure (-1)
  | some b =>
    match ← fdalloc p b.1 with
    | none => do
      fileclose b.1
      fileclose b.2
      pure (-1)
    | some fd₀ =>
      match ← fdalloc p b.2 with
      | none => do
        fdclear p fd₀
        fileclose b.1
        fileclose b.2
        pure (-1)
      | some fd₁ => do
        let x ← getProc p
        if ← onMem (copyoutFds x.pagetable fdarray fd₀ fd₁) then pure 0
        else do
          fdclear p fd₀
          fdclear p fd₁
          fileclose b.1
          fileclose b.2
          pure (-1)

/-! ## Processes -/

/-- The slot as `freeproc` leaves it. -/
def Proc.freed (x : Proc) : Proc :=
  { x with
    trapframe := 0, pagetable := 0, sz := 0, pid := 0, parent := none, xstate := 0, state := .unused }

def freeproc (p : Pptr) : V Unit := do
  let x ← getProc p
  runIf (x.trapframe ≠ 0) (onMem (kfree x.trapframe))
  runIf (x.pagetable ≠ 0) (onMem (procFreepagetable x.pagetable x.sz))
  modifyProc p Proc.freed

def allocproc : V (Option Pptr) := do
  let s ← get
  match (List.finRange NPROC).find? fun p => (s.proc p).state = .unused with
  | none => pure none
  | some p => do
    modify fun s => { s with nextpid := s.nextpid + 1 }
    modifyProc p fun x => { x with pid := s.nextpid, state := .used }
    match ← onMem kalloc with
    | none => do
      freeproc p
      pure none
    | some tf => do
      modifyProc p fun x => { x with trapframe := tf }
      match ← onMem (procPagetable tf) with
      | none => do
        freeproc p
        pure none
      | some pagetable => do
        modifyProc p fun x => { x with pagetable := pagetable }
        pure (some p)

/-- `growproc` with the `int` argument `n`; returns whether it succeeds. -/
@[grind =] def growproc (p : Pptr) (n : ℤ) : V Bool := do
  let x ← getProc p
  let newsz := ((x.sz + n) % 2 ^ 64).toNat
  if 0 < n then
    let sz ← onMem (uvmalloc x.pagetable x.sz newsz PTE_W)
    if sz = 0 then pure false
    else
      modifyProc p fun x => { x with sz := sz }
      pure true
  else if n < 0 then
    let sz ← onMem (uvmdealloc x.pagetable x.sz newsz)
    modifyProc p fun x => { x with sz := sz }
    pure true
  else pure true

/-- The size of `struct trapframe`, and the offset of the register `a0` in it. -/
abbrev TRAPFRAMESIZE : ℕ := 288
abbrev REG_A0 : ℕ := 112

/-- The saved registers of a parent are copied for its child. -/
def copyTrapframe (old new : ℕ) : M Unit := do
  let s ← get
  setPage new ((s.page new).blit 0 (s.page old).get TRAPFRAMESIZE)
  setReg new REG_A0 0

/-- The loop of `fork` over the descriptors. -/
def dupFrom (p np : Pptr) : List (Fin NOFILE) → V Unit
  | [] => pure ()
  | fd :: fds => do
    let x ← getProc p
    (x.ofile fd).elim (pure ()) fun f => do
      filedup f
      modifyProc np fun x => { x with ofile := update x.ofile fd (some f) }
    dupFrom p np fds

def fork (p : Pptr) : V ℤ := do
  match ← allocproc with
  | none => pure (-1)
  | some np => do
    let x ← getProc p
    let y ← getProc np
    if ← onMem (uvmcopy x.pagetable y.pagetable x.sz) then do
      modifyProc np fun y => { y with sz := x.sz }
      onMem (copyTrapframe x.trapframe y.trapframe)
      dupFrom p np (List.finRange NOFILE)
      modifyProc np fun y => { y with parent := some p, state := .runnable }
      pure y.pid
    else do
      freeproc np
      pure (-1)

/-- The loop of `exit` over the descriptors. -/
def closeFrom (p : Pptr) : List (Fin NOFILE) → V Unit
  | [] => pure ()
  | fd :: fds => do
    let x ← getProc p
    (x.ofile fd).elim (pure ()) fun f => do
      fileclose f
      fdclear p fd
    closeFrom p fds

/-- Pass the children of `p` to `initproc`. -/
def reparent (p : Pptr) : V Unit :=
  modify fun s => { s with proc := fun q =>
    if (s.proc q).parent = some p then { s.proc q with parent := s.initproc } else s.proc q }

def exit (p : Pptr) (status : ℤ) : V Unit := do
  let s ← get
  stopIf (s.initproc = some p) .initExiting
  closeFrom p (List.finRange NOFILE)
  reparent p
  modifyProc p fun x => { x with xstate := status, state := .zombie }

/-- `wait`; the result is `none` if the process goes to sleep. -/
def wait (p : Pptr) (addr : ℕ) (killed : Bool) : V (Option ℤ) := do
  let s ← get
  match (List.finRange NPROC).find? fun q =>
      (s.proc q).parent = some p ∧ (s.proc q).state = .zombie with
  | some q => do
    let ok ← if addr = 0 then pure true
      else onMem (copyout (s.proc p).pagetable addr (bytes32 (s.proc q).xstate))
    if ok then
      freeproc q
      pure (some (s.proc q).pid)
    else pure (some (-1))
  | none =>
    if (List.finRange NPROC).all (fun q => (s.proc q).parent ≠ some p) ∨ killed then
      pure (some (-1))
    else pure none

/-- `sys_exec`; the file and the arguments are what the kernel finds for them. -/
def execCall (p : Pptr) (file : Option (List UInt8)) (args : List Arg) : V ℤ := do
  let x ← getProc p
  match ← onMem (sysExec x.pagetable x.sz x.trapframe file args) with
  | none => pure (-1)
  | some b => do
    modifyProc p fun x => { x with pagetable := b.1, sz := b.2.1 }
    pure b.2.2

/-! ## Runs -/

inductive Call
  | fork
  | exec (file : Option (List UInt8)) (args : List Arg)
  | sbrk (n : BitVec 32)
  | pipe (fdarray : ℕ)
  | close (fd : ℕ)
  | exit (status : ℤ)
  | wait (addr : ℕ) (killed : Bool)

/-- Run a call of process `p`; the result is `none` if it goes to sleep. -/
def syscall (p : Pptr) : Call → V (Option ℤ)
  | .fork => some <$> fork p
  | .exec file args => some <$> execCall p file args
  | .sbrk n => do
    let x ← getProc p
    pure (some (if ← growproc p n.toInt then x.sz else -1))
  | .pipe fdarray => some <$> sysPipe p fdarray
  | .close fd => some <$> sysClose p fd
  | .exit status => (fun _ => some 0) <$> exit p status
  | .wait addr killed => wait p addr killed

/-- One call by one process. -/
def step (s : Kern) : Pptr × Call → Option (Except Panic Kern)
  | (p, c) =>
    if (s.proc p).state = .runnable then
      match syscall p c s with
      | .ok _ s' => some (.ok s')
      | .error e _ => some (.error e)
    else none

/-! ## Boot -/

/-- `freerange` over `k` pages from `p` on. -/
def freerangeFrom : ℕ → ℕ → M Unit
  | 0, _ => pure ()
  | k + 1, p => do
    kfree p
    freerangeFrom k (p + PGSIZE)

def kinit : M Unit := do
  let s ← get
  freerangeFrom ((PHYSTOP - PGROUNDUP s.image.kend) / PGSIZE) (PGROUNDUP s.image.kend)

/-- The kernel takes `k` pages for its page table, its stacks and the disk's queues. -/
def takePages : ℕ → M (List ℕ)
  | 0 => pure []
  | k + 1 => do
    match ← kalloc with
    | none => pure []
    | some pa => do
      let rest ← takePages k
      pure (pa :: rest)

/-- `uvmfirst`; returns whether its allocations succeed. -/
def uvmfirst (pagetable : ℕ) (src : List UInt8) : M Bool := do
  match ← kalloc with
  | none => pure false
  | some mem => do
    memset mem 0
    if ← mappages pagetable 0 PGSIZE mem (PTE_W ||| PTE_R ||| PTE_X ||| PTE_U) then
      let s ← get
      setPage mem ((s.page mem).blit 0 (fun j => src.getD j 0) src.length)
      pure true
    else pure false

/-- The kernel before `kinit`. -/
def Kern.blank (L : Layout) : Kern where
  mem := { image := L, page := fun _ _ => 0, free := [] }
  boot := []
  ftable _ := { type := .none, ref := 0, writable := false, pipe := 0 }
  proc _ :=
    { state := .unused, xstate := 0, pid := 0, parent := none, sz := 0, pagetable := 0,
      trapframe := 0, ofile := fun _ => none }
  nextpid := 1
  initproc := none

/-- `userinit` with the program `initcode`; returns whether its allocations succeed. -/
def userinit (initcode : List UInt8) : V Bool := do
  match ← allocproc with
  | none => pure false
  | some p => do
    modify fun s => { s with initproc := some p }
    let x ← getProc p
    if ← onMem (uvmfirst x.pagetable initcode) then
      modifyProc p fun x => { x with sz := PGSIZE }
      onMem (setReg x.trapframe 24 0)
      onMem (setReg x.trapframe 48 PGSIZE)
      modifyProc p fun x => { x with state := .runnable }
      pure true
    else pure false

/-- From the start of the kernel, with `k` pages taken before `userinit`. -/
def bootKern (k : ℕ) (initcode : List UInt8) : V Bool := do
  onMem kinit
  let boot ← onMem (takePages k)
  modify fun s => { s with boot := boot }
  userinit initcode

/-- The kernel has come up. -/
def Booted (L : Layout) (s : Kern) : Prop :=
  ∃ k initcode, bootKern k initcode (.blank L) = .ok true s

end Xv6.Vm

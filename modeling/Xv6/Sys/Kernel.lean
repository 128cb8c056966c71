import Xv6.Fs.Path

/-! # Files and descriptors

The parts of `file.c`, `pipe.c` and `sysfile.c` that handle references to inodes
and open files. The results of device drivers and the accessible user addresses
are arguments of a call.
-/

namespace Xv6.Sys

open Fs Function

inductive FdType
  | none
  | pipe
  | inode
  | device
  deriving DecidableEq, Repr

structure File where
  type : FdType
  ref : ℕ
  readable : Bool
  writable : Bool
  pipe : ℕ
  ip : Iptr
  off : ℕ
  major : ℤ

structure Pipe where
  data : ℕ → UInt8
  nread : ℕ
  nwrite : ℕ
  readopen : Bool
  writeopen : Bool

inductive ProcState
  | unused
  | used
  | sleeping
  | runnable
  | running
  | zombie
  deriving DecidableEq, Repr

abbrev Fptr := Fin NFILE

abbrev Pptr := Fin NPROC

structure Proc where
  state : ProcState
  killed : Bool
  xstate : ℤ
  pid : ℕ
  parent : Option Pptr
  ofile : Fin NOFILE → Option Fptr
  cwd : Option Iptr

structure Kernel where
  fs : Fs.State
  ftable : Fptr → File
  /-- The pages in use for pipes. -/
  pipe : ℕ → Option Pipe
  proc : Pptr → Proc
  nextpid : ℕ

abbrev S := EStateM Halt Kernel

namespace Kernel

variable (s : Kernel)

def setFile (f : Fptr) (x : File) : Kernel := { s with ftable := update s.ftable f x }

def setPipe (pi : ℕ) (x : Option Pipe) : Kernel := { s with pipe := update s.pipe pi x }

def setProc (p : Pptr) (x : Proc) : Kernel := { s with proc := update s.proc p x }

end Kernel

/-- A command of the file system inside the kernel. -/
def onFs {α : Type} (m : K α) : S α := fun s =>
  match m s.fs with
  | .ok a fs => .ok a { s with fs := fs }
  | .error e fs => .error e { s with fs := fs }

def getFile (f : Fptr) : S File := fun s => .ok (s.ftable f) s

def modifyFile (f : Fptr) (g : File → File) : S Unit := modify fun s => s.setFile f (g (s.ftable f))

def getProc (p : Pptr) : S Proc := fun s => .ok (s.proc p) s

def modifyProc (p : Pptr) (g : Proc → Proc) : S Unit := modify fun s => s.setProc p (g (s.proc p))

def getPipe (pi : ℕ) : S Pipe := fun s =>
  match s.pipe pi with
  | some x => .ok x s
  | none => .error .fault s

def getCwd (p : Pptr) : S Iptr := do
  match (← getProc p).cwd with
  | some ip => pure ip
  | none => throw .fault

variable (sb : Superblock)

def filealloc : S (Option Fptr) := do
  let s ← get
  match (List.finRange NFILE).find? fun f => (s.ftable f).ref = 0 with
  | some f => do
    modifyFile f fun x => { x with ref := 1 }
    pure (some f)
  | none => pure none

def filedup (f : Fptr) : S Unit := do
  let x ← getFile f
  stopIf (x.ref < 1) .filedup
  modifyFile f fun x => { x with ref := x.ref + 1 }

/-- `pipeclose`; the page is freed with the second end. -/
def pipeclose (pi : ℕ) (writable : Bool) : S Unit := do
  let x ← getPipe pi
  let x := if writable then { x with writeopen := false } else { x with readopen := false }
  modify (·.setPipe pi (if !x.readopen && !x.writeopen then none else some x))

/-- A transaction that drops one reference to `ip`. -/
def iputOp (ip : Iptr) : K Unit := do
  beginOp
  iput sb ip
  endOp

def fileclose (f : Fptr) : S Unit := do
  let ff ← getFile f
  stopIf (ff.ref < 1) .fileclose
  modifyFile f fun x => { x with ref := x.ref - 1 }
  runIf (ff.ref = 1) do
    modifyFile f fun x => { x with type := .none }
    match ff.type with
    | .pipe => pipeclose ff.pipe ff.writable
    | .inode | .device => onFs (iputOp sb ff.ip)
    | .none => pure ()

/-- The loop of `piperead`, with the number of bytes read. -/
def pipereadFrom (pi : ℕ) (dst : ℕ → Bool) : ℕ → ℕ → S ℕ
  | 0, i => pure i
  | n + 1, i => do
    let x ← getPipe pi
    if x.nread = x.nwrite then pure i
    else do
      modify (·.setPipe pi (some { x with nread := (x.nread + 1) % 2 ^ 32 }))
      if dst i then pipereadFrom pi dst n (i + 1) else pure i

/-- `piperead`; the result is `none` if the process goes to sleep. -/
def piperead (pi : ℕ) (killed : Bool) (dst : ℕ → Bool) (n : ℤ) : S (Option ℤ) := do
  let x ← getPipe pi
  if x.nread = x.nwrite ∧ x.writeopen then pure (if killed then some (-1) else none)
  else do
    let i ← pipereadFrom pi dst n.toNat 0
    pure (some i)

/-- The loop of `pipewrite`. -/
def pipewriteFrom (pi : ℕ) (killed : Bool) (src : ℕ → Option UInt8) : ℕ → ℕ → S (Option ℤ)
  | 0, i => pure (some i)
  | n + 1, i => do
    let x ← getPipe pi
    if !x.readopen ∨ killed then pure (some (-1))
    else if x.nwrite = (x.nread + PIPESIZE) % 2 ^ 32 then pure none
    else
      match src i with
      | none => pure (some i)
      | some ch => do
        modify (·.setPipe pi (some { x with
          data := update x.data (x.nwrite % PIPESIZE) ch
          nwrite := (x.nwrite + 1) % 2 ^ 32 }))
        pipewriteFrom pi killed src n (i + 1)

/-- `pipewrite`; the result is `none` if the process goes to sleep, with the bytes before that
written. -/
def pipewrite (pi : ℕ) (killed : Bool) (src : ℕ → Option UInt8) (n : ℤ) : S (Option ℤ) :=
  pipewriteFrom pi killed src n.toNat 0

/-- The console is the only device with a driver. -/
def devsw (major : ℤ) : Bool := major = 1

/-- A `uint` argument. -/
def uint (n : ℤ) : ℕ := (n % 2 ^ 32).toNat

def fileread (f : Fptr) (killed : Bool) (dst : ℕ → Bool) (dev : ℤ) (n : ℤ) : S (Option ℤ) := do
  let x ← getFile f
  if !x.readable then pure (some (-1))
  else
    match x.type with
    | .pipe => piperead x.pipe killed dst n
    | .device => pure (some (if devsw x.major then dev else -1))
    | .inode => do
      let r ← onFs do
        ilock sb x.ip
        let r ← readi sb x.ip dst x.off (uint n)
        iunlock x.ip
        pure r
      match r with
      | some bytes => do
        modifyFile f fun x => { x with off := (x.off + bytes.length) % 2 ^ 32 }
        pure (some bytes.length)
      | none => pure (some (-1))
    | .none => throw .fileread

/-- The largest write in one transaction. -/
abbrev maxWrite : ℕ := (MAXOPBLOCKS - 1 - 1 - 2) / 2 * BSIZE

/-- One transaction of `filewrite`. -/
def writeOp (ip : Iptr) (src : ℕ → Option UInt8) (off n : ℕ) : K ℤ := do
  beginOp
  ilock sb ip
  let r ← writei sb ip src off n
  iunlock ip
  endOp
  pure r

/-- The loop of `filewrite`, with the value of `i` at its end. -/
def filewriteFrom (f : Fptr) (src : ℕ → Option UInt8) : ℕ → ℕ → ℕ → S ℕ
  | 0, i, _ => pure i
  | fuel + 1, i, n =>
    if i < n then do
      let n₁ := min (n - i) maxWrite
      let x ← getFile f
      let r ← onFs (writeOp sb x.ip (fun j => src (i + j)) x.off n₁)
      runIf (0 < r) (modifyFile f fun x => { x with off := (x.off + r.toNat) % 2 ^ 32 })
      if r ≠ n₁ then pure i else filewriteFrom f src fuel (i + r.toNat) n
    else pure i

def filewrite (f : Fptr) (killed : Bool) (src : ℕ → Option UInt8) (dev : ℤ) (n : ℤ) :
    S (Option ℤ) := do
  let x ← getFile f
  if !x.writable then pure (some (-1))
  else
    match x.type with
    | .pipe => pipewrite x.pipe killed src n
    | .device => pure (some (if devsw x.major then dev else -1))
    | .inode => do
      let i ← filewriteFrom sb f src n.toNat 0 n.toNat
      pure (some (if (i : ℤ) = n then n else -1))
    | .none => throw .filewrite

def argfd (p : Pptr) (fd : ℕ) : S (Option (Fin NOFILE × Fptr)) := do
  let x ← getProc p
  if h : fd < NOFILE then pure ((x.ofile ⟨fd, h⟩).map fun f => (⟨fd, h⟩, f)) else pure none

def fdalloc (p : Pptr) (f : Fptr) : S (Option (Fin NOFILE)) := do
  let x ← getProc p
  match (List.finRange NOFILE).find? fun fd => (x.ofile fd).isNone with
  | some fd => do
    modifyProc p fun x => { x with ofile := update x.ofile fd (some f) }
    pure (some fd)
  | none => pure none

/-- Clear a descriptor. -/
def fdclear (p : Pptr) (fd : Fin NOFILE) : S Unit :=
  modifyProc p fun x => { x with ofile := update x.ofile fd none }

def sysDup (p : Pptr) (fd : ℕ) : S ℤ := do
  match ← argfd p fd with
  | none => pure (-1)
  | some (_, f) =>
    match ← fdalloc p f with
    | none => pure (-1)
    | some fd => do
      filedup f
      pure fd.val

def sysClose (p : Pptr) (fd : ℕ) : S ℤ := do
  match ← argfd p fd with
  | none => pure (-1)
  | some (fd, f) => do
    fdclear p fd
    fileclose sb f
    pure 0

/-- An early exit with a locked inode. -/
def failWith (ip : Iptr) : K ℤ := do
  iunlockput sb ip
  endOp
  pure (-1)

/-- `sys_open` up to the locked inode; with `none` the transaction is over. -/
def openInode (cwd : Iptr) (path : List UInt8) (omode : ℕ) : K (Option Iptr) := do
  beginOp
  if omode &&& O_CREATE ≠ 0 then
    match ← create sb cwd path T_FILE 0 0 with
    | some ip => pure (some ip)
    | none => do
      endOp
      pure none
  else
    match ← namei sb cwd path with
    | some ip => do
      ilock sb ip
      let n ← getInode ip
      if n.type = T_DIR ∧ omode ≠ O_RDONLY then do
        let _ ← failWith sb ip
        pure none
      else pure (some ip)
    | none => do
      endOp
      pure none

/-- The end of `sys_open`, with a descriptor for the file `f`. -/
def openFile (f : Fptr) (ip : Iptr) (omode : ℕ) : S Unit := do
  let n ← onFs (getInode ip)
  modifyFile f fun x =>
    if n.type = T_DEVICE then { x with type := .device, major := n.major }
    else { x with type := .inode, off := 0 }
  modifyFile f fun x => { x with
    ip := ip
    readable := omode &&& O_WRONLY = 0
    writable := omode &&& O_WRONLY ≠ 0 ∨ omode &&& O_RDWR ≠ 0 }
  onFs do
    runIf (omode &&& O_TRUNC ≠ 0 ∧ n.type = T_FILE) (itrunc sb ip)
    iunlock ip
    endOp

/-- `sys_open` from the locked inode on. -/
def openLocked (p : Pptr) (ip : Iptr) (omode : ℕ) : S ℤ := do
  let n ← onFs (getInode ip)
  if n.type = T_DEVICE ∧ (n.major < 0 ∨ NDEV ≤ n.major) then onFs (failWith sb ip)
  else
    match ← filealloc with
    | none => onFs (failWith sb ip)
    | some f =>
      match ← fdalloc p f with
      | none => do
        fileclose sb f
        onFs (failWith sb ip)
      | some fd => do
        openFile sb f ip omode
        pure fd.val

def sysOpen (p : Pptr) (path : Option (List UInt8)) (omode : ℕ) : S ℤ := do
  match path with
  | none => pure (-1)
  | some path => do
    let cwd ← getCwd p
    match ← onFs (openInode sb cwd path omode) with
    | none => pure (-1)
    | some ip => openLocked sb p ip omode

/-- `sys_chdir` up to the new directory; with `none` the transaction is over. -/
def chdirInode (cwd : Iptr) (path : Option (List UInt8)) : K (Option Iptr) := do
  beginOp
  match ← (path.elim (pure none) fun path => namei sb cwd path) with
  | none => do
    endOp
    pure none
  | some ip => do
    ilock sb ip
    let n ← getInode ip
    if n.type ≠ T_DIR then do
      let _ ← failWith sb ip
      pure none
    else do
      iunlock ip
      iput sb cwd
      endOp
      pure (some ip)

def sysChdir (p : Pptr) (path : Option (List UInt8)) : S ℤ := do
  let cwd ← getCwd p
  match ← onFs (chdirInode sb cwd path) with
  | none => pure (-1)
  | some ip => do
    modifyProc p fun x => { x with cwd := some ip }
    pure 0

/-- A system call with its arguments. -/
inductive Call
  | dup (fd : ℕ)
  | close (fd : ℕ)
  | open (path : Option (List UInt8)) (omode : ℕ)
  | link (old new : Option (List UInt8))
  | unlink (path : Option (List UInt8))
  | mkdir (path : Option (List UInt8))
  | mknod (path : Option (List UInt8)) (major minor : ℤ)
  | chdir (path : Option (List UInt8))

def syscall (p : Pptr) : Call → S ℤ
  | .dup fd => sysDup p fd
  | .close fd => sysClose sb p fd
  | .open path omode => sysOpen sb p path omode
  | .link old new => do onFs (sysLink sb (← getCwd p) old new)
  | .unlink path => do onFs (sysUnlink sb (← getCwd p) path)
  | .mkdir path => do onFs (sysMkdir sb (← getCwd p) path)
  | .mknod path major minor => do onFs (sysMknod sb (← getCwd p) path major minor)
  | .chdir path => sysChdir sb p path

/-- One call by a process that runs. -/
def step (s : Kernel) (a : Pptr × Call) : Option (Except Halt Kernel) :=
  if (s.proc a.1).state = .runnable then
    match syscall sb a.1 a.2 s with
    | .ok _ s' => some (.ok s')
    | .error e _ => some (.error e)
  else none

end Xv6.Sys

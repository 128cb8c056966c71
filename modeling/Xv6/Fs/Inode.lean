import Xv6.Log.Protocol
import Xv6.Logic.Hoare

/-! # Blocks and inodes

The first half of `fs.c` for system calls that run one after the other. The
inode blocks, the bitmap and the data blocks are kept apart, each with the
contents the buffer cache shows; `held` lists the buffers whose sleep-lock is
taken. A call that waits for a lock waits forever and stops with `sleep`.
-/

namespace Xv6.Fs

open Function

inductive Halt
  | log (e : Buffer.Halt)
  | sleep
  | brelse -- "brelse"
  | freeing -- "freeing free block"
  | iget -- "iget: no inodes"
  | ilock -- "ilock"
  | noType -- "ilock: no type"
  | iunlock -- "iunlock"
  | bmap -- "bmap: out of range"
  | notDir -- "dirlookup not DIR"
  | dirlookup -- "dirlookup read"
  | dirlink -- "dirlink read"
  | isdirempty -- "isdirempty: readi"
  | nlink -- "unlink: nlink < 1"
  | unlink -- "unlink: writei"
  | filedup -- "filedup"
  | fileclose -- "fileclose"
  | fileread -- "fileread"
  | filewrite -- "filewrite"
  | initExiting -- "init exiting"
  /-- An access through a null pointer or to a freed page. -/
  | fault
  deriving DecidableEq, Repr

structure Superblock where
  size : ℕ
  ninodes : ℕ
  nlog : ℕ
  inodestart : ℕ
  bmapstart : ℕ

structure Attr where
  type : ℤ
  major : ℤ
  minor : ℤ
  nlink : ℤ
  size : ℕ

/-- An inode on the disk; `addrs` is an array of `NDIRECT + 1` block addresses. -/
structure Dinode extends Attr where
  addrs : ℕ → ℕ

/-- An entry of the inode table. -/
structure Inode extends Dinode where
  dev : ℕ
  inum : ℕ
  ref : ℕ
  locked : Bool
  valid : Bool

abbrev Iptr := Fin NINODE

structure Disk where
  dinode : ℕ → Dinode
  bitmap : ℕ → Bool
  data : ℕ → Block

structure State where
  disk : Disk
  held : List ℕ
  log : Buffer.Log
  itable : Iptr → Inode

abbrev K := EStateM Halt State

namespace Disk

variable (D : Disk)

def setDinode (i : ℕ) (d : Dinode) : Disk := { D with dinode := update D.dinode i d }

def setBit (b : ℕ) (v : Bool) : Disk := { D with bitmap := update D.bitmap b v }

def setData (b : ℕ) (blk : Block) : Disk := { D with data := update D.data b blk }

end Disk

namespace State

variable (s : State)

def setDisk (D : Disk) : State := { s with disk := D }

abbrev setDinode (i : ℕ) (d : Dinode) : State := s.setDisk (s.disk.setDinode i d)

abbrev setBit (b : ℕ) (v : Bool) : State := s.setDisk (s.disk.setBit b v)

abbrev setData (b : ℕ) (blk : Block) : State := s.setDisk (s.disk.setData b blk)

def setInode (ip : Iptr) (n : Inode) : State :=
  { s with itable := update s.itable ip n }

def setLog (log : Buffer.Log) : State := { s with log := log }

/-- Take the lock of the buffer of block `b`. -/
def hold (b : ℕ) : State := { s with held := b :: s.held }

end State

/-- The value of an assignment to a `short`. -/
def short (z : ℤ) : ℤ := z.bmod 65536

def bread (b : ℕ) : K Block := fun s =>
  if b ∈ s.held then .error .sleep s else .ok (s.disk.data b) (s.hold b)

def brelse (b : ℕ) : K Unit := fun s =>
  if b ∈ s.held then .ok () { s with held := s.held.erase b } else .error .brelse s

def logWrite (b : ℕ) : K Unit := fun s =>
  match Journal.logWrite s.log b with
  | .ok log => .ok () (s.setLog log)
  | .error e => .error (.log e) s

def beginOp : K Unit := fun s =>
  match Journal.beginOp s.log with
  | some log => .ok () (s.setLog log)
  | none => .error .sleep s

/-- `end_op` with the commit of the last operation, which leaves the cached blocks as they are. -/
def endOp : K Unit := fun s =>
  match Journal.endOp s.log with
  | .ok (log, true) => .ok () (s.setLog { log with lh := [], committing := false })
  | .ok (log, false) => .ok () (s.setLog log)
  | .error e => .error (.log e) s

def getInode (ip : Iptr) : K Inode := fun s => .ok (s.itable ip) s

def modifyInode (ip : Iptr) (f : Inode → Inode) : K Unit :=
  modify fun s => s.setInode ip (f (s.itable ip))

variable (sb : Superblock)

/-- The block that holds inode `i`. -/
def iblock (i : ℕ) : ℕ := i / IPB + sb.inodestart

/-- The block that holds the bit of block `b`. -/
def bblock (b : ℕ) : ℕ := b / BPB + sb.bmapstart

def bzero (bno : ℕ) : K Unit := do
  let _ ← bread bno
  modify (·.setData bno Bytes.zero)
  logWrite bno
  brelse bno

/-- The first clear bit of the bitmap block that starts with block `b`. -/
def clearBit (bitmap : ℕ → Bool) (b : ℕ) : Option ℕ :=
  (List.range (min BPB (sb.size - b))).find? fun bi => !bitmap (b + bi)

/-- The rounds of the loop of `balloc` for the given values of `b`. -/
def ballocFrom : List ℕ → K ℕ
  | [] => pure 0
  | b :: bs => do
    let _ ← bread (bblock sb b)
    let s ← get
    match clearBit sb s.disk.bitmap b with
    | some bi => do
      modify (·.setBit (b + bi) true)
      logWrite (bblock sb b)
      brelse (bblock sb b)
      bzero (b + bi)
      pure (b + bi)
    | none => do
      brelse (bblock sb b)
      ballocFrom bs

def balloc : K ℕ := ballocFrom sb ((List.range ((sb.size + BPB - 1) / BPB)).map (· * BPB))

def bfree (b : ℕ) : K Unit := do
  let _ ← bread (bblock sb b)
  let s ← get
  stopIf (s.disk.bitmap b = false) .freeing
  modify (·.setBit b false)
  logWrite (bblock sb b)
  brelse (bblock sb b)

def iget (dev inum : ℕ) : K Iptr := fun s =>
  match (List.finRange NINODE).find? fun k =>
      0 < (s.itable k).ref ∧ (s.itable k).dev = dev ∧ (s.itable k).inum = inum with
  | some ip => .ok ip (s.setInode ip { s.itable ip with ref := (s.itable ip).ref + 1 })
  | none =>
    match (List.finRange NINODE).find? fun k => (s.itable k).ref = 0 with
    | some ip =>
      .ok ip (s.setInode ip { s.itable ip with dev := dev, inum := inum, ref := 1, valid := false })
    | none => .error .iget s

/-- The rounds of the loop of `ialloc` for the given inode numbers. -/
def iallocFrom (dev : ℕ) (type : ℤ) : List ℕ → K (Option Iptr)
  | [] => pure none
  | inum :: inums => do
    let _ ← bread (iblock sb inum)
    let s ← get
    if (s.disk.dinode inum).type = 0 then do
      modify (·.setDinode inum
        { type := type, major := 0, minor := 0, nlink := 0, size := 0, addrs := fun _ => 0 })
      logWrite (iblock sb inum)
      brelse (iblock sb inum)
      let ip ← iget dev inum
      pure (some ip)
    else do
      brelse (iblock sb inum)
      iallocFrom dev type inums

def ialloc (dev : ℕ) (type : ℤ) : K (Option Iptr) :=
  iallocFrom sb dev type (List.range' 1 (sb.ninodes - 1))

def iupdate (ip : Iptr) : K Unit := do
  let n ← getInode ip
  let _ ← bread (iblock sb n.inum)
  modify (·.setDinode n.inum n.toDinode)
  logWrite (iblock sb n.inum)
  brelse (iblock sb n.inum)

def idup (ip : Iptr) : K Iptr := do
  modifyInode ip fun n => { n with ref := n.ref + 1 }
  pure ip

def ilock (ip : Iptr) : K Unit := do
  let n ← getInode ip
  stopIf (n.ref < 1) .ilock
  stopIf n.locked .sleep
  modifyInode ip fun n => { n with locked := true }
  runIf (n.valid = false) do
    let _ ← bread (iblock sb n.inum)
    let s ← get
    brelse (iblock sb n.inum)
    modifyInode ip fun n => { n with toDinode := s.disk.dinode n.inum, valid := true }
    stopIf ((s.disk.dinode n.inum).type = 0) .noType

def iunlock (ip : Iptr) : K Unit := do
  let n ← getInode ip
  stopIf (n.locked = false ∨ n.ref < 1) .iunlock
  modifyInode ip fun n => { n with locked := false }

/-- Set `ip->addrs[k]` to a new block if it is zero. -/
def bmapAddr (ip : Iptr) (k : ℕ) : K ℕ := do
  let n ← getInode ip
  if n.addrs k ≠ 0 then pure (n.addrs k)
  else do
    let addr ← balloc sb
    runIf (addr ≠ 0) (modifyInode ip fun n => { n with addrs := update n.addrs k addr })
    pure addr

/-- The end of `bmap`: entry `j` of the indirect block, set to a new block if it is zero. -/
def bmapEntry (ind j : ℕ) : K ℕ := do
  let a ← bread ind
  if a.get32 (4 * j) ≠ 0 then do
    brelse ind
    pure (a.get32 (4 * j))
  else do
    let addr ← balloc sb
    runIf (addr ≠ 0) do
      modify (·.setData ind (a.set32 (4 * j) addr))
      logWrite ind
    brelse ind
    pure addr

def bmap (ip : Iptr) (bn : ℕ) : K ℕ :=
  if bn < NDIRECT then bmapAddr sb ip bn
  else if bn - NDIRECT < NINDIRECT then do
    let ind ← bmapAddr sb ip NDIRECT
    if ind = 0 then pure 0 else bmapEntry sb ind (bn - NDIRECT)
  else throw .bmap

/-- The loop of `itrunc` over the direct addresses. -/
def itruncDirect (ip : Iptr) : List ℕ → K Unit
  | [] => pure ()
  | i :: is => do
    let n ← getInode ip
    runIf (n.addrs i ≠ 0) do
      bfree sb (n.addrs i)
      modifyInode ip fun n => { n with addrs := update n.addrs i 0 }
    itruncDirect ip is

/-- The loop of `itrunc` over the addresses of the indirect block. -/
def itruncIndirect (a : Block) : List ℕ → K Unit
  | [] => pure ()
  | j :: js => do
    runIf (a.get32 (4 * j) ≠ 0) (bfree sb (a.get32 (4 * j)))
    itruncIndirect a js

def itrunc (ip : Iptr) : K Unit := do
  itruncDirect sb ip (List.range NDIRECT)
  let n ← getInode ip
  runIf (n.addrs NDIRECT ≠ 0) do
    let a ← bread (n.addrs NDIRECT)
    itruncIndirect sb a (List.range NINDIRECT)
    brelse (n.addrs NDIRECT)
    bfree sb (n.addrs NDIRECT)
    modifyInode ip fun n => { n with addrs := update n.addrs NDIRECT 0 }
  modifyInode ip fun n => { n with size := 0 }
  iupdate sb ip

def iput (ip : Iptr) : K Unit := do
  let n ← getInode ip
  runIf (n.ref = 1 ∧ n.valid ∧ n.nlink = 0) do
    stopIf n.locked .sleep
    modifyInode ip fun n => { n with locked := true }
    itrunc sb ip
    modifyInode ip fun n => { n with type := 0 }
    iupdate sb ip
    modifyInode ip fun n => { n with valid := false, locked := false }
  modifyInode ip fun n => { n with ref := n.ref - 1 }

def iunlockput (ip : Iptr) : K Unit := do
  iunlock ip
  iput sb ip

/-- The loop of `readi` with `left` bytes to go. `dst` tells which bytes of the destination can be
written; the result is `none` when `either_copyout` fails. -/
def readiFrom (ip : Iptr) (dst : ℕ → Bool) : ℕ → ℕ → ℕ → K (Option (List UInt8))
  | 0, _, _ => pure (some [])
  | fuel + 1, off, left =>
    if left = 0 then pure (some [])
    else do
      let addr ← bmap sb ip (off / BSIZE)
      if addr = 0 then pure (some [])
      else do
        let bp ← bread addr
        let m := min left (BSIZE - off % BSIZE)
        brelse addr
        if (List.range m).all fun i => dst i then do
          let rest ← readiFrom ip (fun i => dst (m + i)) fuel (off + m) (left - m)
          pure (rest.map ((List.range m).map (fun i => bp.get (off % BSIZE + i)) ++ ·))
        else pure none

/-- The bytes that `readi` copies out, or `none` for its result -1. -/
def readi (ip : Iptr) (dst : ℕ → Bool) (off n : ℕ) : K (Option (List UInt8)) := do
  let d ← getInode ip
  if off > d.size ∨ (off + n) % 2 ^ 32 < off then pure (some [])
  else
    let n := if (off + n) % 2 ^ 32 > d.size then d.size - off else n
    readiFrom sb ip dst n off n

/-- How many of `m` source bytes from `tot` on `either_copyin` gets. -/
def readable (src : ℕ → Option UInt8) : ℕ → ℕ → ℕ
  | _, 0 => 0
  | tot, m + 1 => if (src tot).isSome then readable src (tot + 1) m + 1 else 0

/-- The loop of `writei`, with the values of `off` and `tot` at its end. A source byte that cannot
be read is `none`. -/
def writeiFrom (ip : Iptr) (src : ℕ → Option UInt8) : ℕ → ℕ → ℕ → ℕ → K (ℕ × ℕ)
  | 0, off, tot, _ => pure (off, tot)
  | fuel + 1, off, tot, n =>
    if tot < n then do
      let addr ← bmap sb ip (off / BSIZE)
      if addr = 0 then pure (off, tot)
      else do
        let bp ← bread addr
        let m := min (n - tot) (BSIZE - off % BSIZE)
        let k := readable src tot m
        -- the bytes before a fault are in the buffer, which is then not logged
        modify (·.setData addr (bp.blit (off % BSIZE) (fun i => (src (tot + i)).getD 0) k))
        if k < m then do
          brelse addr
          pure (off, tot)
        else do
          logWrite addr
          brelse addr
          writeiFrom ip src fuel (off + m) (tot + m) n
    else pure (off, tot)

def writei (ip : Iptr) (src : ℕ → Option UInt8) (off n : ℕ) : K ℤ := do
  let d ← getInode ip
  if off > d.size ∨ (off + n) % 2 ^ 32 < off then pure (-1)
  else if off + n > MAXFILE * BSIZE then pure (-1)
  else do
    let (off, tot) ← writeiFrom sb ip src n off 0 n
    modifyInode ip fun d => { d with size := max d.size off }
    iupdate sb ip
    pure tot

end Xv6.Fs

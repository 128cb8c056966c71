import Xv6.Fs.Format
import Xv6.Fs.Path

/-! # Making a file system

The program `mkfs` of `mkfs/mkfs.c`. The image is a file of sectors of `BSIZE`
bytes, and `struct dinode` is an array of 64 bytes. The host is little-endian
and its calls of `write` and `lseek` succeed.
-/

namespace Xv6.Mkfs

open Fs

abbrev NINODES : ℕ := 200

abbrev nbitmap : ℕ := FSSIZE / (BSIZE * 8) + 1

abbrev ninodeblocks : ℕ := NINODES / IPB + 1

abbrev nlog : ℕ := LOGSIZE

/-- The number of meta blocks. -/
abbrev nmeta : ℕ := 2 + nlog + ninodeblocks + nbitmap

/-- The number of data blocks. -/
abbrev nblocks : ℕ := FSSIZE - nmeta

def sb : Superblock where
  size := FSSIZE
  ninodes := NINODES
  nlog := nlog
  inodestart := 2 + nlog
  bmapstart := 2 + nlog + ninodeblocks

/-- The bytes of `sb` at the start of a block. -/
def sbBlock : Block :=
  ((((((((Bytes.zero.set32 0 FSMAGIC).set32 4 FSSIZE).set32 8 nblocks).set32 12 NINODES).set32
    16 nlog).set32 20 2).set32 24 (2 + nlog)).set32 28 (2 + nlog + ninodeblocks))

/-- How the program ends if not with status 0. -/
inductive Exit
  | die -- `die`, status 1
  | assert -- an assertion that fails
  deriving DecidableEq, Repr

structure State where
  /-- The sectors of the image; those past its end are zero. -/
  img : ℕ → Block
  /-- The number of sectors of the image. -/
  len : ℕ
  freeinode : ℕ
  freeblock : ℕ

abbrev M := EStateM Exit State

/-- The sector at the offset `sec * BSIZE`, a `uint`. -/
def seek (sec : ℕ) : ℕ := sec * BSIZE % 2 ^ 32 / BSIZE

def wsect (sec : ℕ) (buf : Block) : M Unit := modify fun s =>
  { s with img := Function.update s.img (seek sec) buf, len := max s.len (seek sec + 1) }

def rsect (sec : ℕ) : M Block := fun s =>
  if seek sec < s.len then .ok (s.img (seek sec)) s else .error .die s

def winode (inum : ℕ) (din : Bytes DINODE) : M Unit := do
  let buf ← rsect (iblock sb inum)
  wsect (iblock sb inum) (buf.blit (DINODE * (inum % IPB)) din.get DINODE)

def rinode (inum : ℕ) : M (Bytes DINODE) := do
  let buf ← rsect (iblock sb inum)
  pure fun j => buf.get (DINODE * (inum % IPB) + j)

def ialloc (type : ℕ) : M ℕ := do
  let s ← get
  set { s with freeinode := s.freeinode + 1 }
  winode s.freeinode (((Bytes.zero.set16 0 type).set16 6 1).set32 8 0)
  pure s.freeinode

/-- The bitmap block with the first bits set. -/
def usedBits : ℕ → Block
  | 0 => Bytes.zero
  | i + 1 =>
    let buf := usedBits i
    buf.set (i / 8) (buf.get (i / 8) ||| UInt8.ofNat (2 ^ (i % 8)))

def balloc (used : ℕ) : M Unit := do
  stopIf (¬ used < BSIZE * 8) .assert
  wsect sb.bmapstart (usedBits used)

/-- `freeblock++` -/
def newBlock : M ℕ := do
  let s ← get
  set { s with freeblock := s.freeblock + 1 }
  pure s.freeblock

/-- Set `din.addrs[k]` to a new block if it is zero. -/
def addrAt (din : Bytes DINODE) (k : ℕ) : M (Bytes DINODE) :=
  if din.get32 (12 + 4 * k) = 0 then do
    let b ← newBlock
    pure (din.set32 (12 + 4 * k) b)
  else pure din

/-- Entry `j` of the indirect block `ind`, set to a new block if it is zero. -/
def entryAt (ind j : ℕ) : M ℕ := do
  let indirect ← rsect ind
  if indirect.get32 (4 * j) = 0 then do
    let b ← newBlock
    let indirect := indirect.set32 (4 * j) b
    wsect ind indirect
    pure (indirect.get32 (4 * j))
  else pure (indirect.get32 (4 * j))

/-- The address `x` of block `fbn` in the loop of `iappend`, and `din`. -/
def blockAt (din : Bytes DINODE) (fbn : ℕ) : M (ℕ × Bytes DINODE) :=
  if fbn < NDIRECT then do
    let din ← addrAt din fbn
    pure (din.get32 (12 + 4 * fbn), din)
  else do
    let din ← addrAt din NDIRECT
    let x ← entryAt (din.get32 (12 + 4 * NDIRECT)) (fbn - NDIRECT)
    pure (x, din)

/-- The loop of `iappend`, with `off` and `din` at its end. -/
def iappendFrom : ℕ → Bytes DINODE → ℕ → List UInt8 → M (ℕ × Bytes DINODE)
  | 0, din, off, _ => pure (off, din)
  | fuel + 1, din, off, p =>
    if 0 < p.length then do
      let fbn := off / BSIZE
      stopIf (¬ fbn < MAXFILE) .assert
      let (x, din) ← blockAt din fbn
      let n1 := min p.length ((fbn + 1) * BSIZE - off)
      let buf ← rsect x
      wsect x (buf.blit (off - fbn * BSIZE) (p.getD · 0) n1)
      iappendFrom fuel din (off + n1) (p.drop n1)
    else pure (off, din)

def iappend (inum : ℕ) (p : List UInt8) : M Unit := do
  let din ← rinode inum
  let (off, din) ← iappendFrom p.length din (din.get32 8) p
  winode inum (din.set32 8 off)

/-- `while((cc = read(fd, buf, sizeof(buf))) > 0) iappend(inum, buf, cc)` -/
def copyFile (inum : ℕ) : List (List UInt8) → M Unit
  | [] => pure ()
  | buf :: bufs => do
    iappend inum buf
    copyFile inum bufs

/-- A file of the command line: its path, and what the calls of `read` return up to the end of the
file, or `none` if it cannot be opened. -/
structure Arg where
  path : List UInt8
  reads : Option (List (List UInt8))
  path_ne : 0 ∉ path
  reads_le : ∀ bufs, reads = some bufs → ∀ buf ∈ bufs, buf ≠ [] ∧ buf.length ≤ BSIZE

/-- The path without `"user/"`. -/
def Arg.base (a : Arg) : List UInt8 :=
  let user := [117, 115, 101, 114, slash]
  if strncmp 5 a.path user = 0 then a.path.drop 5 else a.path

/-- The name without a leading `'_'`. -/
def Arg.shortname (a : Arg) : List UInt8 :=
  if a.base.headD 0 = 95 then a.base.drop 1 else a.base

/-- The bytes of a directory entry. -/
def dirent (inum : ℕ) (name : List UInt8) : List UInt8 :=
  Dirent.toBytes { inum := inum, name := strncpy DIRSIZ name }

/-- One round of the loop of `main` over the files. -/
def addFile (rootino : ℕ) (a : Arg) : M Unit := do
  stopIf (slash ∈ a.base) .assert
  match a.reads with
  | none => throw .die
  | some bufs => do
    let inum ← ialloc T_FILE.toNat
    iappend rootino (dirent inum a.shortname)
    copyFile inum bufs

def addFiles (rootino : ℕ) : List Arg → M Unit
  | [] => pure ()
  | a :: args => do
    addFile rootino a
    addFiles rootino args

/-- Write zeroes to `n` sectors from `i` on. -/
def clear : ℕ → ℕ → M Unit
  | 0, _ => pure ()
  | n + 1, i => do
    wsect i Bytes.zero
    clear n (i + 1)

theorem clear_zero (i : ℕ) : clear 0 i = pure () := rfl

theorem clear_succ (n i : ℕ) : clear (n + 1) i = (wsect i Bytes.zero >>= fun _ => clear n (i + 1)) :=
  rfl

-- the loop over the image is not to be run when a statement about `main` is elaborated
attribute [irreducible] clear

/-- Round the size of the root directory up. -/
def fixSize (rootino : ℕ) : M Unit := do
  let din ← rinode rootino
  let off := din.get32 8
  winode rootino (din.set32 8 ((off / BSIZE + 1) * BSIZE))

/-- `main` with the files of the command line, from the opening of the image on. -/
def main (args : List Arg) : M Unit := do
  clear FSSIZE 0
  wsect 1 sbBlock
  let rootino ← ialloc T_DIR.toNat
  stopIf (rootino ≠ ROOTINO) .assert
  iappend rootino (dirent rootino dot)
  iappend rootino (dirent rootino dotdot)
  addFiles rootino args
  fixSize rootino
  let s ← get
  balloc s.freeblock

/-- An empty image. -/
def start : State where
  img := fun _ => Bytes.zero
  len := 0
  freeinode := 1
  freeblock := nmeta

/-- The image at the end of a run, if its status is 0. -/
def image : EStateM.Result Exit State Unit → Option (ℕ → Block)
  | .ok _ s => some s.img
  | .error _ _ => none

/-- The image when `mkfs` exits with status 0. -/
def mkfs (args : List Arg) : Option (ℕ → Block) := image (main args start)

end Xv6.Mkfs

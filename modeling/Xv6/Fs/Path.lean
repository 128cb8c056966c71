import Xv6.Fs.Inode

/-! # Directories and paths

The second half of `fs.c` and the system calls of `sysfile.c` that change the
directory tree. Names and paths are lists of bytes without the terminating NUL;
`cwd` is the current directory of the calling process.
-/

namespace Xv6.Fs

/-- The name `"."`. -/
abbrev dot : List UInt8 := [46]

/-- The name `".."`. -/
abbrev dotdot : List UInt8 := [46, 46]

/-- `strncmp` of `string.c`; past its end a list reads as NUL. -/
def strncmp : ℕ → List UInt8 → List UInt8 → ℤ
  | 0, _, _ => 0
  | n + 1, p, q =>
    let c := p.headD 0
    if c ≠ 0 ∧ c = q.headD 0 then strncmp n p.tail q.tail
    else (c.toNat : ℤ) - (q.headD 0).toNat

/-- The `n` bytes that `strncpy` writes. -/
def strncpy : ℕ → List UInt8 → List UInt8
  | 0, _ => []
  | n + 1, t => if t.headD 0 = 0 then List.replicate (n + 1) 0 else t.headD 0 :: strncpy n t.tail

def namecmp (s t : List UInt8) : ℤ := strncmp DIRSIZ s t

structure Dirent where
  inum : ℕ
  name : List UInt8

namespace Dirent

def ofBytes (de : List UInt8) : Dirent where
  inum := (de.getD 0 0).toNat + 256 * (de.getD 1 0).toNat
  name := de.drop 2

/-- The stored bytes; the inode number becomes a `ushort`. -/
def toBytes (de : Dirent) : List UInt8 :=
  UInt8.ofNat de.inum :: UInt8.ofNat (de.inum / 256) :: de.name

end Dirent

/-- A source in kernel memory. -/
def kernelSrc (bytes : List UInt8) : ℕ → Option UInt8 := fun i => some (bytes.getD i 0)

variable (sb : Superblock)

/-- Read the directory entry at `off`, or stop with `halt`. -/
def readDirent (dp : Iptr) (halt : Halt) (off : ℕ) : K Dirent := do
  match ← readi sb dp (fun _ => true) off DIRENT with
  | some de => if de.length ≠ DIRENT then throw halt else pure (.ofBytes de)
  | none => throw halt

/-- The values of `off` in a loop over the entries from number `j` on. -/
def offsets (j size : ℕ) : List ℕ :=
  (List.range' j ((size + DIRENT - 1) / DIRENT - j)).map (· * DIRENT)

def dirlookupFrom (dp : Iptr) (name : List UInt8) : List ℕ → K (Option (Iptr × ℕ))
  | [] => pure none
  | off :: offs => do
    let de ← readDirent sb dp .dirlookup off
    if de.inum = 0 then dirlookupFrom dp name offs
    else if namecmp name de.name = 0 then do
      let d ← getInode dp
      let ip ← iget d.dev de.inum
      pure (some (ip, off))
    else dirlookupFrom dp name offs

/-- The inode of an entry and `*poff`. -/
def dirlookup (dp : Iptr) (name : List UInt8) : K (Option (Iptr × ℕ)) := do
  let d ← getInode dp
  stopIf (d.type ≠ T_DIR) .notDir
  dirlookupFrom sb dp name (offsets 0 d.size)

/-- The offset at which the loop of `dirlink` ends; `fin` is its value after the last round. -/
def dirlinkFrom (dp : Iptr) (fin : ℕ) : List ℕ → K ℕ
  | [] => pure fin
  | off :: offs => do
    let de ← readDirent sb dp .dirlink off
    if de.inum = 0 then pure off else dirlinkFrom dp fin offs

def dirlink (dp : Iptr) (name : List UInt8) (inum : ℕ) : K ℤ := do
  match ← dirlookup sb dp name with
  | some (ip, _) => do
    iput sb ip
    pure (-1)
  | none => do
    let d ← getInode dp
    let off ← dirlinkFrom sb dp ((d.size + DIRENT - 1) / DIRENT * DIRENT) (offsets 0 d.size)
    let de : Dirent := { inum := inum, name := strncpy DIRSIZ name }
    let r ← writei sb dp (kernelSrc de.toBytes) off DIRENT
    if r ≠ DIRENT then pure (-1) else pure 0

/-- The slash, `'/'`. -/
abbrev slash : UInt8 := 47

/-- The next path element, cut to `DIRSIZ` bytes, and the path after it. -/
def skipelem (path : List UInt8) : Option (List UInt8 × List UInt8) :=
  let path := path.dropWhile (· = slash)
  if path = [] then none
  else some ((path.takeWhile (· ≠ slash)).take DIRSIZ,
    (path.dropWhile (· ≠ slash)).dropWhile (· = slash))

/-- The loop of `namex`; `name` is the last element that `skipelem` copied. -/
def namexFrom (nameiparent : Bool) :
    ℕ → List UInt8 → List UInt8 → Iptr → K (Option (Iptr × List UInt8))
  | 0, _, _, _ => throw .sleep
  | fuel + 1, path, name, ip =>
    match skipelem path with
    | none =>
      if nameiparent then do
        iput sb ip
        pure none
      else pure (some (ip, name))
    | some (name, path) => do
      ilock sb ip
      let n ← getInode ip
      if n.type ≠ T_DIR then do
        iunlockput sb ip
        pure none
      else if nameiparent ∧ path = [] then do
        iunlock ip
        pure (some (ip, name))
      else
        match ← dirlookup sb ip name with
        | none => do
          iunlockput sb ip
          pure none
        | some (next, _) => do
          iunlockput sb ip
          namexFrom nameiparent fuel path name next

def namex (cwd : Iptr) (path : List UInt8) (nameiparent : Bool) :
    K (Option (Iptr × List UInt8)) := do
  let ip ← (if path.head? = some slash then iget ROOTDEV ROOTINO else idup cwd)
  namexFrom sb nameiparent (path.length + 1) path [] ip

def namei (cwd : Iptr) (path : List UInt8) : K (Option Iptr) := do
  let r ← namex sb cwd path false
  pure (r.map (·.1))

def nameiparent (cwd : Iptr) (path : List UInt8) : K (Option (Iptr × List UInt8)) :=
  namex sb cwd path true

def isdiremptyFrom (dp : Iptr) : List ℕ → K Bool
  | [] => pure true
  | off :: offs => do
    let de ← readDirent sb dp .isdirempty off
    if de.inum ≠ 0 then pure false else isdiremptyFrom dp offs

def isdirempty (dp : Iptr) : K Bool := do
  let d ← getInode dp
  isdiremptyFrom sb dp (offsets 2 d.size)

/-- `sys_link` after the label `bad`. -/
def linkBad (ip : Iptr) : K ℤ := do
  ilock sb ip
  modifyInode ip fun n => { n with nlink := short (n.nlink - 1) }
  iupdate sb ip
  iunlockput sb ip
  endOp
  pure (-1)

/-- `sys_link` from the call of `nameiparent` on. -/
def linkNew (cwd ip : Iptr) (new : List UInt8) : K ℤ := do
  match ← nameiparent sb cwd new with
  | none => linkBad sb ip
  | some (dp, name) => do
    ilock sb dp
    let d ← getInode dp
    let n ← getInode ip
    if d.dev ≠ n.dev then do
      iunlockput sb dp
      linkBad sb ip
    else do
      let r ← dirlink sb dp name n.inum
      if r < 0 then do
        iunlockput sb dp
        linkBad sb ip
      else do
        iunlockput sb dp
        iput sb ip
        endOp
        pure 0

/-- `sys_link`; a path is `none` if `argstr` fails. -/
def sysLink (cwd : Iptr) (old new : Option (List UInt8)) : K ℤ := do
  match old, new with
  | some old, some new => do
    beginOp
    match ← namei sb cwd old with
    | none => do
      endOp
      pure (-1)
    | some ip => do
      ilock sb ip
      let n ← getInode ip
      if n.type = T_DIR then do
        iunlockput sb ip
        endOp
        pure (-1)
      else do
        modifyInode ip fun n => { n with nlink := short (n.nlink + 1) }
        iupdate sb ip
        iunlock ip
        linkNew sb cwd ip new
  | _, _ => pure (-1)

/-- `sys_unlink` after the label `bad`. -/
def unlinkBad (dp : Iptr) : K ℤ := do
  iunlockput sb dp
  endOp
  pure (-1)

/-- `sys_unlink` from the `memset` on. -/
def unlinkEntry (dp ip : Iptr) (off : ℕ) : K ℤ := do
  let r ← writei sb dp (kernelSrc (List.replicate DIRENT 0)) off DIRENT
  stopIf (r ≠ DIRENT) .unlink
  let n ← getInode ip
  runIf (n.type = T_DIR) do
    modifyInode dp fun d => { d with nlink := short (d.nlink - 1) }
    iupdate sb dp
  iunlockput sb dp
  modifyInode ip fun n => { n with nlink := short (n.nlink - 1) }
  iupdate sb ip
  iunlockput sb ip
  endOp
  pure 0

def sysUnlink (cwd : Iptr) (path : Option (List UInt8)) : K ℤ := do
  match path with
  | none => pure (-1)
  | some path => do
    beginOp
    match ← nameiparent sb cwd path with
    | none => do
      endOp
      pure (-1)
    | some (dp, name) => do
      ilock sb dp
      if namecmp name dot = 0 ∨ namecmp name dotdot = 0 then unlinkBad sb dp
      else
        match ← dirlookup sb dp name with
        | none => unlinkBad sb dp
        | some (ip, off) => do
          ilock sb ip
          let n ← getInode ip
          stopIf (n.nlink < 1) .nlink
          let empty ← (if n.type = T_DIR then isdirempty sb ip else pure true)
          if !empty then do
            iunlockput sb ip
            unlinkBad sb dp
          else unlinkEntry sb dp ip off

/-- `create` after the label `fail`. -/
def createFail (dp ip : Iptr) : K (Option Iptr) := do
  modifyInode ip fun n => { n with nlink := 0 }
  iupdate sb ip
  iunlockput sb ip
  iunlockput sb dp
  pure none

/-- The entries `.` and `..` of a new directory; the result tells whether both were written. -/
def linkDots (dp ip : Iptr) : K Bool := do
  let n ← getInode ip
  let r ← dirlink sb ip dot n.inum
  if r < 0 then pure false
  else do
    let d ← getInode dp
    let r ← dirlink sb ip dotdot d.inum
    pure (0 ≤ r)

/-- `create` from the call of `ialloc` on. -/
def createNew (dp : Iptr) (name : List UInt8) (type major minor : ℤ) : K (Option Iptr) := do
  let d ← getInode dp
  match ← ialloc sb d.dev type with
  | none => do
    iunlockput sb dp
    pure none
  | some ip => do
    ilock sb ip
    modifyInode ip fun n => { n with major := major, minor := minor, nlink := 1 }
    iupdate sb ip
    let ok ← (if type = T_DIR then linkDots sb dp ip else pure true)
    if !ok then createFail sb dp ip
    else do
      let n ← getInode ip
      let r ← dirlink sb dp name n.inum
      if r < 0 then createFail sb dp ip
      else do
        runIf (type = T_DIR) do
          modifyInode dp fun d => { d with nlink := short (d.nlink + 1) }
          iupdate sb dp
        iunlockput sb dp
        pure (some ip)

def create (cwd : Iptr) (path : List UInt8) (type major minor : ℤ) : K (Option Iptr) := do
  match ← nameiparent sb cwd path with
  | none => pure none
  | some (dp, name) => do
    ilock sb dp
    match ← dirlookup sb dp name with
    | some (ip, _) => do
      iunlockput sb dp
      ilock sb ip
      let n ← getInode ip
      if type = T_FILE ∧ (n.type = T_FILE ∨ n.type = T_DEVICE) then pure (some ip)
      else do
        iunlockput sb ip
        pure none
    | none => createNew sb dp name type major minor

/-- `sys_mkdir` and `sys_mknod` after `begin_op`. -/
def makeNode (cwd : Iptr) (path : Option (List UInt8)) (type major minor : ℤ) : K ℤ := do
  match ← (path.elim (pure none) fun path => create sb cwd path type major minor) with
  | none => do
    endOp
    pure (-1)
  | some ip => do
    iunlockput sb ip
    endOp
    pure 0

def sysMkdir (cwd : Iptr) (path : Option (List UInt8)) : K ℤ := do
  beginOp
  makeNode sb cwd path T_DIR 0 0

def sysMknod (cwd : Iptr) (path : Option (List UInt8)) (major minor : ℤ) : K ℤ := do
  beginOp
  makeNode sb cwd path T_DEVICE (short major) (short minor)

end Xv6.Fs

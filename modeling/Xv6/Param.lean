import Xv6.Logic.Bytes

/-! # Kernel parameters and the on-disk format

The constants of `param.h`, `fs.h`, `stat.h` and `fcntl.h`.
-/

namespace Xv6

abbrev NPROC : ℕ := 64
abbrev NOFILE : ℕ := 16
abbrev NFILE : ℕ := 100
abbrev NINODE : ℕ := 50
abbrev NDEV : ℕ := 10
abbrev ROOTDEV : ℕ := 1
abbrev MAXOPBLOCKS : ℕ := 10
abbrev LOGSIZE : ℕ := MAXOPBLOCKS * 3
abbrev NBUF : ℕ := MAXOPBLOCKS * 3
abbrev FSSIZE : ℕ := 2000
abbrev PGSIZE : ℕ := 4096
abbrev PIPESIZE : ℕ := 512

instance : NeZero NPROC := ⟨by decide⟩
instance : NeZero NFILE := ⟨by decide⟩
instance : NeZero NINODE := ⟨by decide⟩
instance : NeZero NBUF := ⟨by decide⟩

-- small machines have two or three CPUs or processes
instance neZeroTwo : NeZero 2 := ⟨by decide⟩
instance neZeroThree : NeZero 3 := ⟨by decide⟩

abbrev ROOTINO : ℕ := 1
abbrev BSIZE : ℕ := 1024
abbrev NDIRECT : ℕ := 12
abbrev NINDIRECT : ℕ := BSIZE / 4
abbrev MAXFILE : ℕ := NDIRECT + NINDIRECT

/-- Inodes per block. -/
abbrev IPB : ℕ := BSIZE / 64

/-- Bitmap bits per block. -/
abbrev BPB : ℕ := BSIZE * 8

abbrev DIRSIZ : ℕ := 14

/-- The size of a directory entry. -/
abbrev DIRENT : ℕ := 2 + DIRSIZ

abbrev T_DIR : ℤ := 1
abbrev T_FILE : ℤ := 2
abbrev T_DEVICE : ℤ := 3

abbrev O_RDONLY : ℕ := 0x000
abbrev O_WRONLY : ℕ := 0x001
abbrev O_RDWR : ℕ := 0x002
abbrev O_CREATE : ℕ := 0x200
abbrev O_TRUNC : ℕ := 0x400

/-- The data of one disk block. -/
abbrev Block := Bytes BSIZE

end Xv6

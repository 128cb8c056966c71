import Xv6.Fs.Node
import Xv6.Log.Journal

/-! # The on-disk format

How `fs.c` and `log.c` read the blocks of a disk: the superblock in block 1, the
inodes in the blocks after the log, the bitmap after them, and the data blocks.
-/

namespace Xv6.Fs

abbrev FSMAGIC : ℕ := 0x10203040

/-- The size of an inode on the disk. -/
abbrev DINODE : ℕ := 64

/-- The fields of `struct superblock` that the kernel uses. -/
def Superblock.ofBlock (b : Block) : Superblock where
  size := b.get32 4
  ninodes := b.get32 12
  nlog := b.get32 16
  inodestart := b.get32 24
  bmapstart := b.get32 28

namespace Dinode

/-- The bytes of `struct dinode` from offset `p` on. -/
def ofBytes {n : ℕ} (a : Bytes n) (p : ℕ) : Dinode where
  type := short (a.get16 p)
  major := short (a.get16 (p + 2))
  minor := short (a.get16 (p + 4))
  nlink := short (a.get16 (p + 6))
  size := a.get32 (p + 8)
  addrs := fun k => if k ≤ NDIRECT then a.get32 (p + 12 + 4 * k) else 0

/-- An inode of zeroes. -/
def free : Dinode where
  type := 0
  major := 0
  minor := 0
  nlink := 0
  size := 0
  addrs := fun _ => 0

theorem ofBytes_congr {m n : ℕ} {a : Bytes m} {a' : Bytes n} {p p' : ℕ}
    (h : ∀ j < DINODE, a.get (p + j) = a'.get (p' + j)) : ofBytes a p = ofBytes a' p' := by
  have h₁₆ : ∀ j, j + 1 < DINODE → a.get16 (p + j) = a'.get16 (p' + j) := fun j hj => by
    rw [Bytes.get16, Bytes.get16, Nat.add_assoc, Nat.add_assoc, h j (by omega), h (j + 1) hj]
  have h₃₂ : ∀ j, j + 3 < DINODE → a.get32 (p + j) = a'.get32 (p' + j) := fun j hj => by
    rw [Bytes.get32, Bytes.get32, Nat.add_assoc, Nat.add_assoc, h₁₆ j (by omega),
      h₁₆ (j + 2) (by omega)]
  have haddr : ∀ k, (if k ≤ NDIRECT then a.get32 (p + 12 + 4 * k) else 0) =
      if k ≤ NDIRECT then a'.get32 (p' + 12 + 4 * k) else 0 := fun k => by
    split_ifs with hk
    · rw [Nat.add_assoc, Nat.add_assoc, h₃₂ _ (by unfold DINODE NDIRECT at *; omega)]
    · rfl
  have h₀ := h₁₆ 0 (by decide)
  simp only [Nat.add_zero] at h₀
  simp only [ofBytes, h₀, h₁₆ 2 (by decide), h₁₆ 4 (by decide), h₁₆ 6 (by decide),
    h₃₂ 8 (by decide), haddr]

end Dinode

/-- Bit `bi` of a bitmap block. -/
def bit (b : Block) (bi : ℕ) : Bool := (b.get (bi / 8)).toNat.testBit (bi % 8)

/-- The file system in the blocks of a disk. -/
def Disk.ofImage (sb : Superblock) (img : ℕ → Block) : Disk where
  dinode i := if i < sb.ninodes then .ofBytes (img (iblock sb i)) (DINODE * (i % IPB)) else .free
  bitmap b := bit (img (bblock sb b)) (b % BPB)
  data b := if sb.datastart ≤ b then img b else Bytes.zero

theorem Disk.eq_of {D D' : Disk} (hd : ∀ i, D.dinode i = D'.dinode i)
    (hb : ∀ b, D.bitmap b = D'.bitmap b) (hx : ∀ b, D.data b = D'.data b) : D = D' := by
  cases D
  cases D'
  simp only [Disk.mk.injEq]
  exact ⟨funext hd, funext hb, funext hx⟩

/-- The disk after `recover_from_log`. -/
def recover (start : ℕ) (img : ℕ → Block) : ℕ → Block :=
  Journal.applyWrites img (Journal.recoverWrites start img)

/-- `fsinit`, with the superblock and the state it leaves, or `none` for the panic
"invalid file system". -/
def fsinit (img : ℕ → Block) : Option (Superblock × State) :=
  if (img 1).get32 0 ≠ FSMAGIC then none
  else
    let sb := Superblock.ofBlock (img 1)
    let logstart := (img 1).get32 20
    some (sb,
      { disk := .ofImage sb (recover logstart img)
        held := []
        log :=
          { start := logstart, size := sb.nlog, outstanding := 0, committing := false
            dev := ROOTDEV, lh := [] }
        itable := fun _ =>
          { Dinode.free with dev := 0, inum := 0, ref := 0, locked := false, valid := false } })

end Xv6.Fs

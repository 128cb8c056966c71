import Xv6.Fs.Content

/-! # Writes that fault

`writei` copies from user memory into the buffer of a block before it knows
that the copy succeeds. When the source cannot be read any further, the bytes
already copied stay in the buffer: they are not counted in the result, and the
buffer is not passed to `log_write`.
-/

namespace Xv6.Fs

open Function

variable {sb : Superblock} {s s' s₁ s₂ : State} {ip : Iptr} {nd : Node}
  {src : ℕ → Option UInt8} {off n k r m c pos : ℕ}

section Spill

variable {b j : ℕ} (hb : (s₁.flush ip).slot ((s₁.itable ip).inum, some (off / BSIZE)) = b)
  (hj : off % BSIZE + j ≤ BSIZE)

include hb hj

end Spill

section Rest

variable {b j : ℕ} (hst : Stored sb s ip src off k c s₁)
  (hb : (s₁.flush ip).slot ((s₁.itable ip).inum, some ((off + k) / BSIZE)) = b)
  (hj : (off + k) % BSIZE + j ≤ BSIZE) (hz : b = 0 → j = 0)

include hst hb hj hz

end Rest

/-- A disk of 50 blocks. -/
def oneFile.superblock : Superblock :=
  { size := 50, ninodes := 16, nlog := 30, inodestart := 32, bmapstart := 33 }

/-- A file of eight bytes in block 35. -/
def oneFile.inode : Dinode :=
  { type := T_FILE, major := 0, minor := 0, nlink := 1, size := 8,
    addrs := fun i => if i = 0 then 35 else 0 }

/-- The file is inode 2 of the disk, its bytes are zero, and it is locked in a transaction that has
logged nothing. -/
def oneFile : State where
  disk :=
    { dinode := fun i => if i = 2 then oneFile.inode else { oneFile.inode with type := 0 }
      bitmap := fun b => b < 34 ∨ b = 35
      data := fun _ => Bytes.zero }
  held := []
  log := { start := 2, size := 30, outstanding := 1, committing := false, dev := 1, lh := [] }
  itable := fun _ =>
    { toDinode := oneFile.inode, dev := ROOTDEV, inum := 2, ref := 1, locked := true, valid := true }

theorem flush_oneFile : oneFile.flush ip = oneFile.disk := Disk.setDinode_self

theorem slot_oneFile (x : ℕ × Option ℕ) :
    oneFile.disk.slot x = if x = (2, some 0) then 35 else 0 := by
  obtain ⟨i, o⟩ := x
  by_cases hi : i = 2
  · subst hi
    cases o with
    | none => rfl
    | some bn =>
      by_cases hbn : bn = 0
      · subst hbn
        rfl
      · rw [if_neg (by simpa using hbn)]
        simp [Disk.slot, Disk.addr, oneFile, oneFile.inode, hbn]
  · rw [if_neg (by simp [hi])]
    simp [Disk.slot, oneFile, hi]

theorem ready_oneFile : Ready oneFile.superblock oneFile 0 where
  own := by
    rw [flush_oneFile]
    refine ⟨by decide, fun x y hx he => ?_, fun x hx => ?_, fun b hb => ?_⟩
    · rw [slot_oneFile] at hx
      rw [slot_oneFile, slot_oneFile] at he
      split_ifs at hx he with h₁ h₂
      · rw [h₁, h₂]
      · omega
    · rw [slot_oneFile] at hx ⊢
      split_ifs at hx ⊢
      · decide
      · omega
    · have hbit : oneFile.disk.bitmap b = true ↔ b < 34 ∨ b = 35 := decide_eq_true_iff
      have hlo : oneFile.superblock.datastart = 34 := by decide
      simp only [slot_oneFile, hbit, hlo]
      constructor
      · rintro (h | rfl)
        · exact .inl h
        · exact .inr ⟨(2, some 0), rfl⟩
      · rintro (h | ⟨x, hx⟩)
        · exact .inl h
        · split_ifs at hx <;> omega
  type := by decide
  held := rfl
  op := by decide

theorem ok_oneFile : ((oneFile.flush 0).nodes (oneFile.itable 0).inum).Ok := by
  rw [flush_oneFile]
  refine ⟨by decide, fun bn hbn => ?_⟩
  have hsize : (oneFile.disk.nodes (oneFile.itable 0).inum).size = 8 := by decide
  have hbn : bn = 0 := by unfold BSIZE at hbn; omega
  rw [Disk.nodes_mapped, slot_oneFile, hbn]
  decide

end Xv6.Fs

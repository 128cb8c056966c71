import Xv6.Fs.Node

/-! # Block allocation

Rules for the commands on buffers and the log, and what `balloc`, `bfree`,
`bmap` and `iupdate` do. A command that logs at most `c` blocks stops with "too
big a transaction" only if the log has room for less than `c` of them.
-/

namespace Xv6

/-- How many more blocks `log_write` is sure to take. -/
def Buffer.Log.room (l : Buffer.Log) : ℕ := min LOGSIZE (l.size - 1) - l.lh.length

namespace Fs

/-- A log after at most `c` calls of `log_write`. -/
structure Logged (l l' : Buffer.Log) (c : ℕ) : Prop where
  outstanding : l'.outstanding = l.outstanding
  committing : l'.committing = l.committing
  size : l'.size = l.size
  room : l.room ≤ l'.room + c

namespace Logged

variable {l l' l'' : Buffer.Log} {c c' : ℕ}

theorem refl (l : Buffer.Log) (c : ℕ) : Logged l l c := ⟨rfl, rfl, rfl, by omega⟩

theorem trans (h : Logged l l' c) (h' : Logged l' l'' c') : Logged l l'' (c + c') := by
  refine ⟨?_, ?_, ?_, ?_⟩
  · rw [h'.outstanding, h.outstanding]
  · rw [h'.committing, h.committing]
  · rw [h'.size, h.size]
  · have := h.room
    have := h'.room
    omega

theorem mono (h : Logged l l' c) (hc : c ≤ c') : Logged l l' c' :=
  ⟨h.outstanding, h.committing, h.size, h.room.trans (by omega)⟩

end Logged

namespace State

variable {s : State} {D D' : Disk} {b : ℕ} {l l' : Buffer.Log} {ip : Iptr} {n : Inode}

@[simp] theorem setDisk_disk : (s.setDisk D).disk = D := rfl

@[simp] theorem setDisk_held : (s.setDisk D).held = s.held := rfl

@[simp] theorem setDisk_log : (s.setDisk D).log = s.log := rfl

@[simp] theorem setDisk_itable : (s.setDisk D).itable = s.itable := rfl

@[simp] theorem setLog_disk : (s.setLog l).disk = s.disk := rfl

@[simp] theorem setLog_held : (s.setLog l).held = s.held := rfl

@[simp] theorem setLog_log : (s.setLog l).log = l := rfl

@[simp] theorem setLog_itable : (s.setLog l).itable = s.itable := rfl

@[simp] theorem setInode_disk : (s.setInode ip n).disk = s.disk := rfl

@[simp] theorem setInode_held : (s.setInode ip n).held = s.held := rfl

@[simp] theorem setInode_log : (s.setInode ip n).log = s.log := rfl

@[simp] theorem setInode_itable :
    (s.setInode ip n).itable = Function.update s.itable ip n := rfl

@[simp] theorem hold_disk : (s.hold b).disk = s.disk := rfl

@[simp] theorem hold_held : (s.hold b).held = b :: s.held := rfl

@[simp] theorem hold_log : (s.hold b).log = s.log := rfl

@[simp] theorem hold_itable : (s.hold b).itable = s.itable := rfl

@[simp] theorem hold_setDisk : (s.hold b).setDisk D = (s.setDisk D).hold b := rfl

theorem hold_setData {c : ℕ} {blk : Block} :
    (s.hold b).setData c blk = (s.setData c blk).hold b := rfl

@[simp] theorem hold_setLog : (s.hold b).setLog l = (s.setLog l).hold b := rfl

theorem exists_hold {h : List ℕ} (hh : s.held = b :: h) : ∃ t : State, s = t.hold b ∧
    t.held = h ∧ t.disk = s.disk ∧ t.log = s.log ∧ t.itable = s.itable :=
  ⟨{ s with held := h }, by rw [hold, ← hh], rfl, rfl, rfl, rfl⟩

@[simp] theorem setDisk_setDisk : (s.setDisk D).setDisk D' = s.setDisk D' := rfl

@[simp] theorem setLog_setDisk : (s.setLog l).setDisk D = (s.setDisk D).setLog l := rfl

@[simp] theorem setLog_setLog : (s.setLog l).setLog l' = s.setLog l' := rfl

end State

variable {α : Type} {E : Halt → State → Prop} {F : Halt → Prop} {Q : α → State → Prop}
  {s : State} {b : ℕ} {ip : Iptr}

theorem wp_bread {Q : Block → State → Prop} (h : b ∉ s.held) :
    wp (bread b) E Q s ↔ Q (s.disk.data b) (s.hold b) := by
  simp [wp, bread, h]

@[simp] theorem wp_brelse {Q : Unit → State → Prop} :
    wp (brelse b) E Q (s.hold b) ↔ Q () s := by
  simp [wp, brelse, State.hold]

@[simp] theorem wp_getInode {Q : Inode → State → Prop} :
    wp (getInode ip) E Q s ↔ Q (s.itable ip) s := Iff.rfl

@[simp] theorem wp_modifyInode {f : Inode → Inode} {Q : Unit → State → Prop} :
    wp (modifyInode ip f) E Q s ↔ Q () (s.setInode ip (f (s.itable ip))) := Iff.rfl

theorem wp_logWrite_mem {Q : Unit → State → Prop} (hop : 1 ≤ s.log.outstanding)
    (hF : s.log.room < 1 → F (.log .tooBig))
    (hQ : ∀ l, Logged s.log l 1 → (∀ c, c ∈ l.lh ↔ c ∈ s.log.lh ∨ c = b) → Q () (s.setLog l)) :
    wp (logWrite b) (fun e _ => F e) Q s := by
  unfold wp logWrite Journal.logWrite
  by_cases hfull : s.log.lh.length ≥ LOGSIZE ∨ (s.log.lh.length : ℤ) ≥ s.log.size - 1
  · rw [if_pos hfull]
    refine hF ?_
    unfold Buffer.Log.room
    omega
  · rw [if_neg hfull, if_neg (by omega)]
    split_ifs with hb
    · refine hQ _ (.refl _ _) fun c => ⟨.inl, ?_⟩
      rintro (hc | rfl)
      · exact hc
      · exact hb
    · refine hQ _ ⟨rfl, rfl, rfl, ?_⟩ fun c => by simp
      simp only [Buffer.Log.room, List.length_append, List.length_singleton]
      omega

theorem wp_logWrite {Q : Unit → State → Prop} (hop : 1 ≤ s.log.outstanding)
    (hF : s.log.room < 1 → F (.log .tooBig))
    (hQ : ∀ l, Logged s.log l 1 → Q () (s.setLog l)) :
    wp (logWrite b) (fun e _ => F e) Q s :=
  wp_logWrite_mem hop hF fun l hl _ => hQ l hl

section Blocks

variable {sb : Superblock}

theorem wp_bzero {Q : Unit → State → Prop} (hb : b ∉ s.held) (hop : 1 ≤ s.log.outstanding)
    (hF : s.log.room < 1 → F (.log .tooBig))
    (hQ : ∀ l, Logged s.log l 1 → Q () ((s.setData b Bytes.zero).setLog l)) :
    wp (bzero b) (fun e _ => F e) Q s := by
  unfold bzero
  rw [wp_bind, wp_bread hb, wp_bind, wp_modify, wp_bind]
  refine wp_logWrite hop hF fun l hl => ?_
  simpa using hQ l hl

theorem bblock_lt (h : b < sb.size) : bblock sb b < sb.datastart := by
  unfold bblock Superblock.datastart
  have := Nat.div_le_div_right (c := BPB) h.le
  omega

/-- The buffers that are held show data blocks in use. -/
def HeldData (sb : Superblock) (s : State) : Prop :=
  ∀ b ∈ s.held, sb.datastart ≤ b ∧ s.disk.bitmap b = true

theorem HeldData.bblock (h : HeldData sb s) (hb : b < sb.size) : bblock sb b ∉ s.held := by
  intro hmem
  have := (h _ hmem).1
  have := bblock_lt hb
  omega

theorem HeldData.of_nil (h : s.held = []) : HeldData sb s := by
  simp [HeldData, h]

theorem clearBit_eq_some {bitmap : ℕ → Bool} {bi : ℕ} (h : clearBit sb bitmap b = some bi) :
    b + bi < sb.size ∧ bitmap (b + bi) = false := by
  have h₁ := List.mem_range.mp (List.mem_of_find?_eq_some h)
  have h₂ := List.find?_some h
  exact ⟨by omega, by simpa using h₂⟩

theorem clearBit_eq_none {bitmap : ℕ → Bool} (h : clearBit sb bitmap b = none) {bi : ℕ}
    (hbi : bi < BPB) (hlt : b + bi < sb.size) : bitmap (b + bi) = true := by
  have := List.find?_eq_none.mp h bi (List.mem_range.mpr (by omega))
  simpa using this

theorem wp_ballocFrom {Q : ℕ → State → Prop} {bs : List ℕ} (hheld : HeldData sb s)
    (hbs : ∀ b ∈ bs, b < sb.size) (hop : 1 ≤ s.log.outstanding)
    (hF : s.log.room < 2 → F (.log .tooBig))
    (hfull : (∀ b ∈ bs, ∀ bi < BPB, b + bi < sb.size → s.disk.bitmap (b + bi) = true) → Q 0 s)
    (hok : ∀ b l, b < sb.size → s.disk.bitmap b = false → Logged s.log l 2 →
      Q b ((s.setDisk ((s.disk.setBit b true).setData b Bytes.zero)).setLog l)) :
    wp (ballocFrom sb bs) (fun e _ => F e) Q s := by
  induction bs with
  | nil => exact hfull (by simp)
  | cons b bs ih =>
    unfold ballocFrom
    rw [wp_bind, wp_bread (hheld.bblock (hbs b List.mem_cons_self)), wp_bind, wp_get]
    simp only [State.hold_disk]
    rcases hbit : clearBit sb s.disk.bitmap b with _ | bi
    · rw [wp_bind, wp_brelse]
      refine ih (fun b hb => hbs b (List.mem_cons_of_mem _ hb)) fun hrest => hfull ?_
      rintro c (_ | ⟨_, hc⟩) bi hbi hlt
      · exact clearBit_eq_none hbit hbi hlt
      · exact hrest c hc bi hbi hlt
    · obtain ⟨hlt, hclear⟩ := clearBit_eq_some hbit
      have hnot : b + bi ∉ s.held := fun hmem => by simp [(hheld _ hmem).2] at hclear
      rw [wp_bind, wp_modify, wp_bind]
      refine wp_logWrite hop (fun h => hF (by simp at h; omega)) fun l hl => ?_
      simp only [State.hold_setDisk, State.hold_setLog, wp_bind, wp_brelse]
      have := hl.room
      refine wp_bzero hnot (by simpa [hl.outstanding] using hop) (fun h => hF ?_) fun l' hl' => ?_
      · simp at h this
        omega
      · simpa using hok _ _ hlt hclear (hl.trans hl')

theorem wp_balloc {Q : ℕ → State → Prop} (hheld : HeldData sb s) (hop : 1 ≤ s.log.outstanding)
    (hF : s.log.room < 2 → F (.log .tooBig))
    (hfull : (∀ b < sb.size, s.disk.bitmap b = true) → Q 0 s)
    (hok : ∀ b l, b < sb.size → s.disk.bitmap b = false → Logged s.log l 2 →
      Q b ((s.setDisk ((s.disk.setBit b true).setData b Bytes.zero)).setLog l)) :
    wp (balloc sb) (fun e _ => F e) Q s := by
  refine wp_ballocFrom hheld (fun b hb => ?_) hop hF (fun h => hfull fun b hb => ?_) hok
  · obtain ⟨k, hk, rfl⟩ := List.mem_map.mp hb
    have := List.mem_range.mp hk
    unfold BPB BSIZE at *
    omega
  · have := h (b / BPB * BPB)
      (List.mem_map.mpr ⟨b / BPB, List.mem_range.mpr ?_, rfl⟩) (b % BPB) (Nat.mod_lt _ (by simp))
    · rw [Nat.div_add_mod' b BPB] at this
      exact this hb
    · unfold BPB BSIZE
      omega

theorem wp_bfree {Q : Unit → State → Prop} (hheld : HeldData sb s) (hb : b < sb.size)
    (hbit : s.disk.bitmap b = true) (hop : 1 ≤ s.log.outstanding)
    (hF : F (.log .tooBig)) (hQ : ∀ l, Logged s.log l 1 → Q () ((s.setBit b false).setLog l)) :
    wp (bfree sb b) (fun e _ => F e) Q s := by
  unfold bfree
  rw [wp_bind, wp_bread (hheld.bblock hb), wp_bind, wp_get, wp_bind, wp_stopIf]
  simp only [State.hold_disk, hbit, Bool.true_eq_false, false_implies, not_false_eq_true,
    true_implies, true_and, wp_bind, wp_modify]
  refine wp_logWrite hop (fun _ => hF) fun l hl => ?_
  simpa using hQ l hl

theorem wp_iupdate {Q : Unit → State → Prop} (hheld : s.held = []) (hop : 1 ≤ s.log.outstanding)
    (hF : s.log.room < 1 → F (.log .tooBig))
    (hQ : ∀ l, Logged s.log l 1 →
      Q () ((s.setDinode (s.itable ip).inum (s.itable ip).toDinode).setLog l)) :
    wp (iupdate sb ip) (fun e _ => F e) Q s := by
  unfold iupdate
  rw [wp_bind, wp_getInode, wp_bind, wp_bread (by simp [hheld]), wp_bind, wp_modify, wp_bind]
  refine wp_logWrite hop hF fun l hl => ?_
  simpa using hQ l hl

end Blocks

end Fs

end Xv6

import Xv6.Mkfs.Append

/-! # The file system on the image

While `mkfs` runs, the image holds a list of files: each function of `mkfs.c`
adds a file or adds bytes to one, and the blocks used are those the files need.
-/

namespace Xv6.Mkfs

open Fs Function

variable {s s' : State} {E : Exit → State → Prop} {inum i t : ℕ} {p bs : List UInt8}

/-- The types and contents of the files, by inode number. -/
abbrev Files := ℕ → Option (ℤ × List UInt8)

/-- The node of a file that `mkfs` makes. -/
def fileNode : Option (ℤ × List UInt8) → Node
  | none => .free
  | some (t, bs) => filled { type := t, major := 0, minor := 0, nlink := 1, size := bs.length } bs

/-- The blocks that are not in use are zero, and the first blocks are as the kernel expects them. -/
structure Base (s : State) : Prop where
  len : s.len = FSSIZE
  lo : nmeta ≤ s.freeblock
  le : s.freeblock ≤ FSSIZE
  zero : ∀ b, s.freeblock ≤ b → s.img b = Bytes.zero
  super : s.img 1 = sbBlock
  header : s.img 2 = Bytes.zero

/-- The files of a disk are `C`. -/
structure Shows (D : Disk) (C : Files) : Prop where
  own : Own sb D
  nodes : ∀ i, D.nodes i = fileNode (C i)
  /-- A file has an indirect block only if it needs one. -/
  ind : ∀ i, (D.dinode i).type ≠ 0 →
    ((D.dinode i).addrs NDIRECT ≠ 0 ↔ NDIRECT * BSIZE < (D.dinode i).size)
  type : ∀ i t bs, C i = some (t, bs) → t ≠ 0
  size : ∀ i t bs, C i = some (t, bs) → bs.length ≤ MAXFILE * BSIZE

/-- The image holds the files `C`. -/
structure Holds (s : State) (C : Files) : Prop extends Base s, Shows s.disk C where
  fresh : ∀ i, s.freeinode ≤ i → C i = none

namespace Shows

variable {D : Disk} {d : Dinode} {C : Files} {t : ℤ}

theorem dinode_type (h : Shows D C) (hi : C i = some (t, bs)) : (D.dinode i).type = t := by
  rw [← Disk.nodes_type, h.nodes, hi]
  rfl

theorem dinode_ne (h : Shows D C) (hi : C i = some (t, bs)) : (D.dinode i).type ≠ 0 :=
  h.dinode_type hi ▸ h.type i t bs hi

theorem dinode_size (h : Shows D C) (hi : C i = some (t, bs)) : (D.dinode i).size = bs.length := by
  have := congrArg Attr.size (Disk.nodes_toAttr (h.dinode_ne hi))
  rw [h.nodes, hi] at this
  exact this.symm

theorem dinode_free (h : Shows D C) (hi : C i = none) : (D.dinode i).type = 0 := by
  rw [← Disk.nodes_type, h.nodes, hi]
  rfl

/-- Only the inode `i` changes. -/
theorem setDinode (h : ∀ j ≠ i, D.nodes j = fileNode (C j))
    (hind : ∀ j ≠ i, (D.dinode j).type ≠ 0 →
      ((D.dinode j).addrs NDIRECT ≠ 0 ↔ NDIRECT * BSIZE < (D.dinode j).size))
    (htype : ∀ i t bs, C i = some (t, bs) → t ≠ 0)
    (hsize : ∀ i t bs, C i = some (t, bs) → bs.length ≤ MAXFILE * BSIZE)
    (hown : Own sb (D.setDinode i d))
    (hi : (D.setDinode i d).nodes i = fileNode (some (t, bs)))
    (hd : d.addrs NDIRECT ≠ 0 ↔ NDIRECT * BSIZE < d.size) (ht : t ≠ 0)
    (hbs : bs.length ≤ MAXFILE * BSIZE) :
    Shows (D.setDinode i d) (update C i (some (t, bs))) := by
  refine ⟨hown, fun j => ?_, fun j => ?_, fun j => ?_, fun j => ?_⟩ <;>
    rcases eq_or_ne j i with rfl | hj
  · rw [hi, update_self]
  · rw [update_of_ne hj, Disk.nodes_setDinode_of_ne hj, h j hj]
  · rw [Disk.setDinode_dinode, update_self]
    exact fun _ => hd
  · rw [Disk.setDinode_dinode, update_of_ne hj]
    exact hind j hj
  · rw [update_self]
    rintro t' bs' ⟨⟩
    exact ht
  · rw [update_of_ne hj]
    exact htype j
  · rw [update_self]
    rintro t' bs' ⟨⟩
    exact hbs
  · rw [update_of_ne hj]
    exact hsize j

end Shows

theorem wp_rinode {Q : Bytes DINODE → State → Prop} (hlen : s.len = FSSIZE) (hi : inum < NINODES)
    (hQ : ∀ din, Dinode.ofBytes din 0 = s.disk.dinode inum → Q din s) : wp (rinode inum) E Q s := by
  have hb := State.iblock_lt hi
  have hm : nmeta < FSSIZE := by decide
  have hx : FSSIZE < 2 ^ 22 := by decide
  unfold rinode
  rw [wp_bind]
  refine wp_rsect (by omega) (fun _ => ?_) fun _ => by omega
  rw [wp_pure]
  refine hQ _ ?_
  rw [State.disk_dinode, if_pos hi]
  refine Dinode.ofBytes_congr fun j hj => ?_
  rw [Nat.zero_add, Bytes.get, dif_pos hj]

variable {Q : Unit → State → Prop}

theorem wp_winode {din : Bytes DINODE} (hlen : s.len = FSSIZE) (hi : inum < NINODES)
    (hQ : ∀ buf, (s.put (iblock sb inum) buf).disk = s.disk.setDinode inum (.ofBytes din 0) →
      Q () (s.put (iblock sb inum) buf)) :
    wp (winode inum din) E Q s := by
  have hb := State.iblock_lt hi
  have hm : nmeta < FSSIZE := by decide
  have hx : FSSIZE < 2 ^ 22 := by decide
  unfold winode
  rw [wp_bind]
  refine wp_rsect (by omega) (fun hlt => ?_) fun _ => by omega
  exact wp_wsect (by omega) hlt (hQ _ (State.disk_putInode hi))

/-- A block of inodes is none of the blocks before them. -/
theorem le_iblock : sb.inodestart ≤ iblock sb inum := Nat.le_add_left ..

theorem Base.putInode {buf : Block} (h : Base s) (hi : inum < NINODES) :
    Base (s.put (iblock sb inum) buf) := by
  have hb := State.iblock_lt hi
  have hlt : 32 ≤ iblock sb inum := le_iblock
  have hlo := h.lo
  refine ⟨h.len, h.lo, h.le, fun b hb' => ?_, ?_, ?_⟩
  · have : s.freeblock ≤ b := hb'
    rw [State.put_img, update_of_ne (by omega), h.zero b this]
  · rw [State.put_img, update_of_ne (by omega), h.super]
  · rw [State.put_img, update_of_ne (by omega), h.header]

/-- The bytes of a new inode. -/
theorem ofBytes_new (ht : t < 2 ^ 15) :
    Dinode.ofBytes (((Bytes.zero.set16 0 t).set16 6 1).set32 8 0 : Bytes DINODE) 0 =
      { type := t, major := 0, minor := 0, nlink := 1, size := 0, addrs := fun _ => 0 } := by
  have haddr : ∀ k, (if k ≤ NDIRECT then
      (((Bytes.zero.set16 0 t).set16 6 1).set32 8 0 : Bytes DINODE).get32 (0 + 12 + 4 * k) else 0) =
      0 := fun k => by
    rw [Bytes.get32_set32_of_disjoint (by omega), Bytes.get32_set16_of_disjoint (by omega),
      Bytes.get32_set16_of_disjoint (by omega), Bytes.get32_zero, ite_self]
  have h₁₆ : ∀ j, j ≤ 6 → (((Bytes.zero.set16 0 t).set16 6 1).set32 8 0 : Bytes DINODE).get16 j =
      ((Bytes.zero.set16 0 t).set16 6 1 : Bytes DINODE).get16 j := fun j hj =>
    Bytes.get16_set32_of_disjoint (by omega)
  have hz : ∀ j, 2 ≤ j → j ≤ 4 → ((Bytes.zero.set16 0 t).set16 6 1 : Bytes DINODE).get16 j = 0 :=
    fun j h₁ h₂ => by
      rw [Bytes.get16_set16_of_disjoint (by omega), Bytes.get16_set16_of_disjoint (by omega),
        Bytes.get16_zero]
  have htype : short (t : ℤ) = t := Int.bmod_eq_of_le (by omega) (by omega)
  simp only [Dinode.ofBytes, haddr, Nat.zero_add, h₁₆ 0 (by omega), h₁₆ 2 (by omega),
    h₁₆ 4 (by omega), h₁₆ 6 (by omega), hz 2 (by omega) (by omega), hz 4 (by omega) (by omega),
    Bytes.get32_set32 (show 8 + 3 < DINODE by decide) (show 0 < 2 ^ 32 by decide),
    Bytes.get16_set16 (show 6 + 1 < DINODE by decide),
    Bytes.get16_set16_of_disjoint (show 0 + 2 ≤ 6 ∨ 6 + 2 ≤ 0 by omega),
    Bytes.get16_set16 (show 0 + 1 < DINODE by decide), Nat.mod_eq_of_lt (show t < 65536 by omega),
    htype]
  rfl

/-- A new file without contents. -/
theorem wp_ialloc {Q : ℕ → State → Prop} {C : Files} (h : Holds s C) (ht : t < 2 ^ 15) (h₀ : t ≠ 0)
    (hi : s.freeinode < NINODES)
    (hQ : ∀ s', Holds s' (update C s.freeinode (some ((t : ℤ), []))) →
      s'.freeinode = s.freeinode + 1 → s'.freeblock = s.freeblock → Q s.freeinode s') :
    wp (ialloc t) E Q s := by
  unfold ialloc
  rw [wp_bind, wp_get, wp_bind, wp_set, wp_bind]
  refine wp_winode h.len hi fun buf hdisk => ?_
  rw [wp_pure]
  have hfree := h.dinode_free (h.fresh _ le_rfl)
  have hdisk' : State.disk { s with freeinode := s.freeinode + 1 } = s.disk := rfl
  rw [hdisk', ofBytes_new ht] at hdisk
  have htz : (t : ℤ) ≠ 0 := by omega
  refine hQ _ ⟨Base.putInode ⟨h.len, h.lo, h.le, h.zero, h.super, h.header⟩ hi, ?_, fun j hj => ?_⟩
    rfl rfl
  · rw [hdisk]
    refine Shows.setDinode (fun j _ => h.nodes j) (fun j _ => h.ind j) h.type h.size ?_ ?_ ?_ htz
      (Nat.zero_le _)
    · unfold Own
      rw [Disk.slot_setEmpty (fun x => Disk.slot_of_type hfree x) (.inr fun _ _ => rfl)]
      exact h.own
    · rw [Disk.nodes_of_addrs (fun _ _ => rfl) htz]
      refine Node.eq_of rfl (fun bn => ?_) fun pos => ?_
      · simp [Node.free, fileNode, filled]
      · simp [Node.free, fileNode, filled]
    · simp
  · have : s.freeinode + 1 ≤ j := hj
    rw [update_of_ne (by omega), h.fresh j (by omega)]

/-- Add bytes to a file. -/
theorem wp_iappend {C : Files} {t : ℤ} (h : Holds s C) (hC : C inum = some (t, bs))
    (hi : inum < NINODES) (hover : Over s bs.length p.length → ∀ e s', E e s')
    (hQ : ∀ s', Holds s' (update C inum (some (t, bs ++ p))) → s'.freeinode = s.freeinode →
      s'.freeblock + need bs.length = s.freeblock + need (bs.length + p.length) → Q () s') :
    wp (iappend inum p) E Q s := by
  have ht := h.type inum t bs hC
  unfold iappend
  rw [wp_bind]
  refine wp_rinode h.len hi fun din hdin => ?_
  have hsz : din.get32 8 = bs.length := by
    have := h.dinode_size hC
    rw [← hdin] at this
    exact this
  have hflush : s.flush inum din = s.disk := by rw [State.flush, hdin, Disk.setDinode_self]
  have hedit : Edit s s inum din := by
    refine ⟨h.len, h.le, h.zero, ?_, ?_, fun _ _ => rfl, rfl⟩
    · rw [hflush]
      exact h.own
    · rw [hdin]
      exact h.dinode_ne hC
  have hind : din.get32 (12 + 4 * NDIRECT) ≠ 0 ↔ NDIRECT * BSIZE < bs.length := by
    rw [← addrs_ofBytes le_rfl, hdin, ← h.dinode_size hC]
    exact h.ind inum (h.dinode_ne hC)
  rw [wp_bind, hsz]
  refine wp_iappendFrom (N := s.disk.nodes)
    (a := { type := t, major := 0, minor := 0, nlink := 1, size := bs.length })
    hedit ?_ hind (h.size inum t bs hC) le_rfl hover fun din' s' hE hn hind' hmax hf => ?_
  · rw [hflush, eq_comm, update_eq_self_iff, h.nodes, hC]
    rfl
  · simp only
    refine wp_winode hE.len hi fun buf hdisk => ?_
    have hlt : bs.length + p.length < 2 ^ 32 := by
      unfold MAXFILE NDIRECT NINDIRECT BSIZE at hmax
      omega
    obtain ⟨d, hd⟩ : ∃ d : Dinode, d = { Dinode.ofBytes din' 0 with size := bs.length + p.length } :=
      ⟨_, rfl⟩
    have hother : ∀ j ≠ inum, s'.disk.dinode j = s.disk.dinode j := fun j hj => by
      rw [State.disk_dinode, State.disk_dinode]
      split_ifs with hj'
      · rw [hE.low _ (State.iblock_lt hj')]
      · rfl
    have hset : s'.disk.setDinode inum d = (s'.flush inum din').setDinode inum d := by
      rw [State.flush, Disk.setDinode_setDinode]
    have hattr : d.addrs = ((s'.flush inum din').dinode inum).addrs := by
      rw [State.flush_dinode, hd]
    have hty : ((s'.flush inum din').dinode inum).type ≠ 0 := by
      rw [State.flush_dinode]
      exact hE.type
    have hdt : d.type ≠ 0 := by
      simp only [hd]
      exact hE.type
    rw [ofBytes_setSize hlt, ← hd] at hdisk
    refine hQ _ ⟨Base.putInode ⟨hE.len, ?_, hE.le, hE.zero, ?_, ?_⟩ hi, ?_, fun j hj => ?_⟩
      hE.freeinode hf
    · have := need_mono (Nat.le_add_right bs.length p.length)
      have := h.lo
      omega
    · rw [hE.low 1 (by decide), h.super]
    · rw [hE.low 2 (by decide), h.header]
    · rw [hdisk]
      refine Shows.setDinode (fun j hj => ?_) (fun j hj => ?_) h.type h.size ?_ ?_ ?_ ht ?_
      · have := congrFun hn j
        rw [update_of_ne hj, State.flush, Disk.nodes_setDinode_of_ne hj] at this
        rw [this, h.nodes]
      · rw [hother j hj]
        exact h.ind j
      · rw [hset]
        exact hE.own.setAttr hattr hty hdt
      · have hnd := congrFun hn inum
        rw [update_self] at hnd
        rw [hset, Disk.nodes_setAttr hattr hty hdt, update_self, hnd]
        have ha := Disk.nodes_toAttr hty
        rw [hnd, State.flush_dinode] at ha
        refine Node.eq_of ?_ (fun _ => rfl) fun _ => rfl
        rw [hd]
        simp only [fileNode, filled, List.length_append, ← ha]
      · rw [← addrs_ofBytes le_rfl] at hind'
        simp only [hd]
        exact hind'
      · rw [List.length_append]
        exact hmax
    · have hj' : s.freeinode ≤ j := hE.freeinode ▸ hj
      have hne : j ≠ inum := fun e => by
        rw [e] at hj'
        simp [h.fresh inum hj'] at hC
      rw [update_of_ne hne, h.fresh j hj']

end Xv6.Mkfs

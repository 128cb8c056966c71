import Xv6.Fs.Inode
import Xv6.Logic.Slots

/-! # Files as byte sequences

A node is an inode as the callers of `readi` and `writei` see it: its
attributes, the block indices that are mapped and its bytes, zero where nothing
is mapped. The addresses of the blocks are hidden; `Own` says that every block
of the data area is in at most one slot of one inode and that the bitmap marks
exactly the blocks in a slot.
-/

namespace Xv6.Fs

open Function

/-- The first block after the bitmap. -/
def Superblock.datastart (sb : Superblock) : ℕ := sb.bmapstart + (sb.size / BPB + 1)

/-- Block addresses fit into 32 bits and inode numbers into 16. -/
structure Superblock.Valid (sb : Superblock) : Prop where
  size_lt : sb.size < 2 ^ 32
  ninodes_le : sb.ninodes ≤ 2 ^ 16

structure Node extends Attr where
  mapped : ℕ → Bool
  byte : ℕ → UInt8

theorem Node.eq_of {a b : Node} (ha : a.toAttr = b.toAttr) (hm : ∀ bn, a.mapped bn = b.mapped bn)
    (hb : ∀ pos, a.byte pos = b.byte pos) : a = b := by
  cases a
  cases b
  simp only [Node.mk.injEq]
  exact ⟨ha, funext hm, funext hb⟩

/-- An inode that is not allocated. -/
def Node.free : Node where
  type := 0
  major := 0
  minor := 0
  nlink := 0
  size := 0
  mapped := fun _ => false
  byte := fun _ => 0

namespace Disk

/-- The address of block `bn` of an inode, or with `none` that of its indirect block. -/
@[grind =] def addr (D : Disk) (d : Dinode) : Option ℕ → ℕ
  | none => d.addrs NDIRECT
  | some bn =>
    if bn < NDIRECT then d.addrs bn
    else if bn < MAXFILE ∧ d.addrs NDIRECT ≠ 0 then
      (D.data (d.addrs NDIRECT)).get32 (4 * (bn - NDIRECT))
    else 0

/-- The address in a slot of an allocated inode. -/
def slot (D : Disk) (x : ℕ × Option ℕ) : ℕ :=
  if (D.dinode x.1).type = 0 then 0 else D.addr (D.dinode x.1) x.2

/-- Byte `i` of block `b`, zero if there is no block. -/
@[grind =] def byteAt (D : Disk) (b i : ℕ) : UInt8 := if b = 0 then 0 else (D.data b).get i

def nodes (D : Disk) (i : ℕ) : Node :=
  if (D.dinode i).type = 0 then .free
  else
    { toAttr := (D.dinode i).toAttr
      mapped := fun bn => D.slot (i, some bn) ≠ 0
      byte := fun pos => D.byteAt (D.slot (i, some (pos / BSIZE))) (pos % BSIZE) }

variable {D D' : Disk} {i j k b bn : ℕ} {d : Dinode} {blk : Block}

@[simp] theorem setDinode_dinode :
    (D.setDinode i d).dinode = update D.dinode i d := rfl

@[simp] theorem setDinode_bitmap : (D.setDinode i d).bitmap = D.bitmap := rfl

@[simp] theorem setDinode_data : (D.setDinode i d).data = D.data := rfl

@[simp] theorem setBit_dinode {v : Bool} : (D.setBit b v).dinode = D.dinode := rfl

@[simp] theorem setBit_bitmap {v : Bool} :
    (D.setBit b v).bitmap = update D.bitmap b v := rfl

@[simp] theorem setBit_data {v : Bool} : (D.setBit b v).data = D.data := rfl

@[simp] theorem setData_dinode : (D.setData b blk).dinode = D.dinode := rfl

@[simp] theorem setData_bitmap : (D.setData b blk).bitmap = D.bitmap := rfl

@[simp] theorem setData_data : (D.setData b blk).data = update D.data b blk := rfl

@[simp] theorem setDinode_setDinode {d' : Dinode} :
    (D.setDinode i d).setDinode i d' = D.setDinode i d' := by simp [setDinode]

@[simp] theorem setDinode_self : D.setDinode i (D.dinode i) = D := by simp [setDinode]

theorem slot_of_type (h : (D.dinode i).type = 0) (x : Option ℕ) : D.slot (i, x) = 0 := if_pos h

theorem slot_of_ne (h : (D.dinode i).type ≠ 0) (x : Option ℕ) :
    D.slot (i, x) = D.addr (D.dinode i) x :=
  if_neg h

theorem nodes_of_type (h : (D.dinode i).type = 0) : D.nodes i = .free := if_pos h

theorem nodes_type : (D.nodes i).type = (D.dinode i).type := by
  unfold nodes
  split_ifs with h
  · exact h.symm
  · rfl

theorem nodes_toAttr (h : (D.dinode i).type ≠ 0) : (D.nodes i).toAttr = (D.dinode i).toAttr := by
  rw [nodes, if_neg h]

theorem nodes_mapped : (D.nodes i).mapped bn = decide (D.slot (i, some bn) ≠ 0) := by
  unfold nodes
  split_ifs with h
  · simp [slot_of_type h, Node.free]
  · rfl

theorem nodes_byte (pos : ℕ) :
    (D.nodes i).byte pos = D.byteAt (D.slot (i, some (pos / BSIZE))) (pos % BSIZE) := by
  unfold nodes
  split_ifs with h
  · simp [slot_of_type h, Node.free, byteAt]
  · rfl

/-- A node depends on the attributes, on the addresses of the blocks of the file and on their
data. -/
theorem nodes_congr (ha : (D'.dinode i).toAttr = (D.dinode i).toAttr)
    (hs : ∀ bn, D'.slot (i, some bn) = D.slot (i, some bn))
    (hd : ∀ bn, D.slot (i, some bn) ≠ 0 →
      D'.data (D.slot (i, some bn)) = D.data (D.slot (i, some bn))) :
    D'.nodes i = D.nodes i := by
  have ht : (D'.dinode i).type = (D.dinode i).type := congrArg Attr.type ha
  by_cases h₀ : (D.dinode i).type = 0
  · rw [nodes_of_type h₀, nodes_of_type (ht.trans h₀)]
  · refine Node.eq_of ?_ (fun bn => ?_) (fun pos => ?_)
    · rw [nodes_toAttr h₀, nodes_toAttr (ht ▸ h₀), ha]
    · rw [nodes_mapped, nodes_mapped, hs]
    · rw [nodes_byte, nodes_byte, hs, byteAt, byteAt]
      split_ifs with h
      · rfl
      · rw [hd _ h]

/-- Only the data of indirect blocks tell where the blocks of a file are. -/
theorem slot_setData (h : ∀ j, D.slot (j, none) ≠ 0 → D.slot (j, none) ≠ b) :
    (D.setData b blk).slot = D.slot := by
  funext ⟨j, x⟩
  by_cases ht : (D.dinode j).type = 0
  · rw [slot_of_type ht, slot_of_type (by exact ht)]
  · rw [slot_of_ne ht, slot_of_ne (by exact ht)]
    cases x with
    | none => rfl
    | some bn =>
      simp only [addr, setData_dinode, setData_data]
      have hind : D.slot (j, none) = (D.dinode j).addrs NDIRECT := slot_of_ne ht none
      by_cases h₀ : (D.dinode j).addrs NDIRECT = 0
      · simp only [h₀, ne_eq, not_true_eq_false, and_false, if_false]
      · rw [update_of_ne (hind ▸ h j (hind ▸ h₀))]
        rfl

theorem slot_setDinode_of_ne {x : Option ℕ} (h : j ≠ i) :
    (D.setDinode i d).slot (j, x) = D.slot (j, x) := by
  simp only [slot, setDinode_dinode, update_of_ne h]
  rfl

theorem slot_setDinode_self {x : Option ℕ} (h : d.type ≠ 0) :
    (D.setDinode i d).slot (i, x) = D.addr d x := by
  rw [slot_of_ne (by simpa using h), setDinode_dinode, update_self]
  rfl

theorem nodes_setDinode_of_ne (h : j ≠ i) : (D.setDinode i d).nodes j = D.nodes j := by
  refine nodes_congr ?_ (fun _ => slot_setDinode_of_ne h) (fun _ _ => rfl)
  rw [setDinode_dinode, update_of_ne h]

theorem nodes_setDinode (i : ℕ) (d : Dinode) :
    (D.setDinode i d).nodes = update D.nodes i ((D.setDinode i d).nodes i) := by
  funext j
  rcases eq_or_ne j i with rfl | h
  · rw [update_self]
  · rw [update_of_ne h, nodes_setDinode_of_ne h]

/-- New attributes for an inode, with the addresses it has. -/
theorem slot_setAttr (hd : d.addrs = (D.dinode i).addrs) (h₀ : (D.dinode i).type ≠ 0)
    (h₁ : d.type ≠ 0) : (D.setDinode i d).slot = D.slot := by
  funext ⟨j, x⟩
  rcases eq_or_ne j i with rfl | h
  · rw [slot_setDinode_self h₁, slot_of_ne h₀]
    cases x <;> simp only [addr, hd]
  · exact slot_setDinode_of_ne h

theorem nodes_setAttr (hd : d.addrs = (D.dinode i).addrs) (h₀ : (D.dinode i).type ≠ 0)
    (h₁ : d.type ≠ 0) : (D.setDinode i d).nodes =
      update D.nodes i { D.nodes i with toAttr := d.toAttr } := by
  rw [nodes_setDinode]
  congr 1
  rw [nodes, nodes, if_neg h₀, if_neg (by simpa using h₁), slot_setAttr hd h₀ h₁]
  simp only [setDinode_dinode, update_self]
  rfl

/-- An inode without addresses has no slot in use. -/
theorem addr_zero (hd : ∀ k ≤ NDIRECT, d.addrs k = 0) (x : Option ℕ) : D.addr d x = 0 := by
  cases x with
  | none => exact hd _ le_rfl
  | some bn =>
    simp only [addr]
    split_ifs with h₁ h₂
    · exact hd _ h₁.le
    · exact absurd (hd _ le_rfl) h₂.2
    · rfl

theorem nodes_of_addrs (hd : ∀ k ≤ NDIRECT, d.addrs k = 0) (ht : d.type ≠ 0) :
    (D.setDinode i d).nodes i = { Node.free with toAttr := d.toAttr } := by
  have hs : ∀ x, (D.setDinode i d).slot (i, x) = 0 := fun x => by
    rw [slot_setDinode_self ht, addr_zero hd]
  rw [nodes, if_neg (by simpa using ht)]
  simp only [hs, setDinode_dinode, update_self, byteAt]
  rfl

/-- Write an inode without blocks over another one. -/
theorem slot_setEmpty (h₀ : ∀ x, D.slot (i, x) = 0)
    (hd : d.type = 0 ∨ ∀ k ≤ NDIRECT, d.addrs k = 0) : (D.setDinode i d).slot = D.slot := by
  funext ⟨j, x⟩
  rcases eq_or_ne j i with rfl | h
  · rw [h₀]
    by_cases ht : d.type = 0
    · exact slot_of_type (by simpa using ht) x
    · rw [slot_setDinode_self ht, addr_zero (hd.resolve_left ht)]
  · exact slot_setDinode_of_ne h

theorem slot_setDirect (hk : k < NDIRECT) (ht : (D.dinode i).type ≠ 0) :
    (D.setDinode i { D.dinode i with
      addrs := update (D.dinode i).addrs k b }).slot =
      update D.slot (i, some k) b := by
  funext ⟨j, x⟩
  rcases eq_or_ne j i with rfl | hj
  · rw [slot_setDinode_self (by exact ht)]
    have h12 : NDIRECT ≠ k := by omega
    cases x with
    | none => simp [addr, update_of_ne h12, slot_of_ne ht]
    | some bn =>
      rcases eq_or_ne bn k with rfl | hbn
      · simp [addr, hk]
      · simp [addr, update_of_ne h12, slot_of_ne ht, hbn]
  · rw [slot_setDinode_of_ne hj, update_of_ne (by simp [hj])]

theorem slot_setIndirect (ht : (D.dinode i).type ≠ 0) (h₀ : (D.dinode i).addrs NDIRECT = 0)
    (hz : D.data b = Bytes.zero) :
    (D.setDinode i { D.dinode i with
      addrs := update (D.dinode i).addrs NDIRECT b }).slot =
      update D.slot (i, none) b := by
  funext ⟨j, x⟩
  rcases eq_or_ne j i with rfl | hj
  · rw [slot_setDinode_self (by exact ht)]
    cases x with
    | none => simp [addr]
    | some bn =>
      rw [update_of_ne (by simp), slot_of_ne ht]
      simp only [addr, update_self, hz, h₀, Bytes.get32_zero, ne_eq, not_true_eq_false,
        and_false, if_false, ite_self]
      split_ifs with hbn
      · exact update_of_ne (by omega) ..
      · rfl
  · rw [slot_setDinode_of_ne hj, update_of_ne (by simp [hj])]

end Disk

namespace Node

variable {nd : Node} {bn pos : ℕ} {blk : Block}

/-- Map block `bn`, which reads as zeroes. -/
def touch (nd : Node) (bn : ℕ) : Node := { nd with mapped := update nd.mapped bn true }

/-- Replace block `bn`. -/
def store (nd : Node) (bn : ℕ) (blk : Block) : Node :=
  { nd with byte := fun pos => if pos / BSIZE = bn then blk.get (pos % BSIZE) else nd.byte pos }

@[simp] theorem touch_toAttr : (nd.touch bn).toAttr = nd.toAttr := rfl

@[simp] theorem touch_mapped : (nd.touch bn).mapped = update nd.mapped bn true := rfl

@[simp] theorem touch_byte : (nd.touch bn).byte = nd.byte := rfl

@[simp] theorem store_toAttr : (nd.store bn blk).toAttr = nd.toAttr := rfl

@[simp] theorem store_mapped : (nd.store bn blk).mapped = nd.mapped := rfl

@[simp] theorem store_byte : (nd.store bn blk).byte pos =
    if pos / BSIZE = bn then blk.get (pos % BSIZE) else nd.byte pos := rfl

theorem touch_eq (h : nd.mapped bn = true) : nd.touch bn = nd := by
  rw [touch, ← h, update_eq_self]

end Node

/-- The slots of the allocated inodes hold the used blocks of the data area, each one once. -/
def Own (sb : Superblock) (D : Disk) : Prop :=
  Exclusive D.slot D.bitmap sb.datastart sb.size

namespace Own

open Disk

variable {sb : Superblock} {D D' : Disk} {i j bn b k : ℕ} {blk : Block}

/-- The data of a file block do not matter to the slots. -/
theorem slot_setData_file (h : Own sb D) (hb : D.slot (i, some bn) = b) :
    (D.setData b blk).slot = D.slot := by
  refine Disk.slot_setData fun j hj he => ?_
  have := h.inj (j, none) (i, some bn) hj (he.trans hb.symm)
  simp at this

/-- The data of a block that is not in use do not matter to the slots. -/
theorem slot_setData_unused (h : Own sb D) (hb : b < sb.size) (hu : D.bitmap b = false) :
    (D.setData b blk).slot = D.slot :=
  Disk.slot_setData fun j _ => h.not_held hb hu (j, none)

theorem setAttr {d : Dinode} (h : Own sb D) (hd : d.addrs = (D.dinode i).addrs)
    (h₀ : (D.dinode i).type ≠ 0) (h₁ : d.type ≠ 0) : Own sb (D.setDinode i d) := by
  unfold Own
  rw [Disk.slot_setAttr hd h₀ h₁]
  exact h

theorem setData_file (h : Own sb D) (hb : D.slot (i, some bn) = b) :
    Own sb (D.setData b blk) := by
  unfold Own
  rw [h.slot_setData_file hb]
  exact h

theorem nodes_setData_file (h : Own sb D) (hb : D.slot (i, some bn) = b) (h₀ : b ≠ 0)
    (blk : Block) :
    (D.setData b blk).nodes = update D.nodes i ((D.nodes i).store bn blk) := by
  have hs : (D.setData b blk).slot = D.slot := h.slot_setData_file hb
  have hne : ∀ x, D.slot x ≠ 0 → x ≠ (i, some bn) → (D.setData b blk).data (D.slot x) =
      D.data (D.slot x) := by
    intro x hx hxi
    exact update_of_ne (fun e => hxi (h.inj _ _ hx (e.trans hb.symm))) ..
  funext j
  rcases eq_or_ne j i with rfl | hj
  · have ht : (D.dinode j).type ≠ 0 := fun e => h₀ (hb ▸ slot_of_type e _)
    rw [update_self]
    refine Node.eq_of ?_ (fun _ => ?_) (fun pos => ?_)
    · exact (nodes_toAttr (by exact ht)).trans (nodes_toAttr ht).symm
    · rw [nodes_mapped, hs]
      exact nodes_mapped.symm
    · rw [nodes_byte, hs, byteAt, Node.store_byte]
      by_cases hp : pos / BSIZE = bn
      · rw [hp, hb, if_neg h₀, if_pos rfl, setData_data, update_self]
      · rw [if_neg hp, nodes_byte, byteAt]
        split_ifs with hz
        · rfl
        · rw [hne _ hz (by simp [hp])]
  · rw [update_of_ne hj]
    exact nodes_congr rfl (fun _ => by rw [hs]) fun _ hz => hne _ hz (by simp [hj])

/-- A new block of zeroes in the slot of a block of a file. -/
theorem nodes_attach (ha : ∀ j, (D'.dinode j).toAttr = (D.dinode j).toAttr)
    (ht : (D.dinode i).type ≠ 0)
    (hs : D'.slot = update D.slot (i, some bn) b) (h₀ : D.slot (i, some bn) = 0)
    (hb : b ≠ 0) (hz : D'.data b = Bytes.zero)
    (hd : ∀ j bn, D.slot (j, some bn) ≠ 0 →
      D'.data (D.slot (j, some bn)) = D.data (D.slot (j, some bn))) :
    D'.nodes = update D.nodes i ((D.nodes i).touch bn) := by
  funext j
  rcases eq_or_ne j i with rfl | hj
  · have ht' : (D'.dinode j).type ≠ 0 := by
      have := congrArg Attr.type (ha j)
      exact this ▸ ht
    rw [update_self]
    refine Node.eq_of ?_ (fun bn' => ?_) (fun pos => ?_)
    · exact (nodes_toAttr ht').trans ((ha j).trans (nodes_toAttr ht).symm)
    · rw [nodes_mapped, hs, Node.touch_mapped]
      simp only [update_apply, Prod.mk.injEq, Option.some.injEq, true_and, nodes_mapped]
      split_ifs <;> simp [hb]
    · rw [nodes_byte, hs, Node.touch_byte, nodes_byte, byteAt, byteAt]
      by_cases hp : pos / BSIZE = bn
      · simp [hp, h₀, hb, hz]
      · rw [update_of_ne (by simp [hp])]
        split_ifs with he
        · rfl
        · rw [hd _ _ he]
  · rw [update_of_ne hj]
    have hsj : ∀ bn', D'.slot (j, some bn') = D.slot (j, some bn') := fun bn' => by
      rw [hs, update_of_ne (by simp [hj])]
    exact nodes_congr (ha j) hsj (hd j)

/-- Set an entry of an indirect block. -/
theorem slot_setEntry (h : Own sb D) (hind : D.slot (i, none) = k) (hk : k ≠ 0)
    (hbn : NDIRECT ≤ bn) (hbn' : bn < MAXFILE) (hb : b < 2 ^ 32) :
    (D.setData k ((D.data k).set32 (4 * (bn - NDIRECT)) b)).slot =
      update D.slot (i, some bn) b := by
  funext ⟨j, x⟩
  by_cases ht : (D.dinode j).type = 0
  · have hj : j ≠ i := by
      rintro rfl
      exact hk (hind ▸ slot_of_type ht _)
    rw [slot_of_type (by exact ht), update_of_ne (by simp [hj]), slot_of_type ht]
  rw [slot_of_ne (by exact ht)]
  cases x with
  | none => rw [update_of_ne (by simp), slot_of_ne ht]; rfl
  | some bn' =>
    have hadj : D.slot (j, none) = (D.dinode j).addrs NDIRECT := slot_of_ne ht none
    rcases eq_or_ne j i with rfl | hj
    · rw [hind] at hadj
      rcases eq_or_ne bn' bn with rfl | hne
      · rw [update_self]
        simp only [addr, setData_dinode, setData_data, ← hadj, update_self]
        rw [if_neg (by omega), if_pos ⟨hbn', hk⟩,
          Bytes.get32_set32 (by unfold MAXFILE NINDIRECT at hbn'; omega) hb]
      · rw [update_of_ne (by simp [hne]), slot_of_ne ht]
        simp only [addr, setData_dinode, setData_data, ← hadj, update_self]
        by_cases h₁ : bn' < NDIRECT
        · rw [if_pos h₁, if_pos h₁]
        · rw [if_neg h₁, if_neg h₁, Bytes.get32_set32_of_disjoint (by omega)]
    · rw [update_of_ne (by simp [hj]), slot_of_ne ht]
      simp only [addr, setData_dinode, setData_data]
      by_cases h₀ : (D.dinode j).addrs NDIRECT = 0
      · simp only [h₀, ne_eq, not_true_eq_false, and_false, if_false]
      · have hne : (D.dinode j).addrs NDIRECT ≠ k := fun e => by
          have := h.inj (j, none) (i, none) (hadj ▸ h₀) (hadj.trans (e.trans hind.symm))
          simp at this
          exact hj this
        rw [update_of_ne hne]
        rfl

variable (h : Own sb D) (ht : (D.dinode i).type ≠ 0) (hb : b < sb.size) (hu : D.bitmap b = false)

include h

theorem attach {x : ℕ × Option ℕ} (hb : b < sb.size) (hu : D.bitmap b = false)
    (hbit : D'.bitmap = update D.bitmap b true)
    (hs : D'.slot = update D.slot x b) (hx : D.slot x = 0) : Own sb D' := by
  unfold Own
  rw [hbit, hs]
  exact h.assign hx hb hu

include hb hu

theorem ne_zero : b ≠ 0 := by
  have := h.lo_le hb hu
  have := h.pos
  omega

include ht

/-- A new block at a direct address. -/
theorem attachDirect (hk : k < NDIRECT) (h₀ : (D.dinode i).addrs k = 0) (hD : D' =
    ((D.setBit b true).setData b Bytes.zero).setDinode i
      { D.dinode i with addrs := update (D.dinode i).addrs k b }) :
    Own sb D' ∧ D'.slot (i, some k) = b ∧
      D'.nodes = update D.nodes i ((D.nodes i).touch k) := by
  have hs₁ : ((D.setBit b true).setData b Bytes.zero).slot = D.slot :=
    h.slot_setData_unused hb hu
  have hs : D'.slot = update D.slot (i, some k) b := by
    rw [hD, ← hs₁]
    exact slot_setDirect hk (by exact ht)
  have hx : D.slot (i, some k) = 0 := by
    rw [slot_of_ne ht]
    simp [addr, hk, h₀]
  refine ⟨h.attach hb hu (by rw [hD]; rfl) hs hx, by rw [hs, update_self], ?_⟩
  refine nodes_attach (fun j => ?_) ht hs hx (h.ne_zero hb hu) ?_ fun j bn hj => ?_
  · rw [hD]
    rcases eq_or_ne j i with rfl | hj
    · simp
    · simp [update_of_ne hj]
  · rw [hD]
    simp
  · rw [hD]
    exact update_of_ne (h.not_held hb hu _) ..

/-- A new indirect block. -/
theorem attachIndirect (h₀ : (D.dinode i).addrs NDIRECT = 0) (hD : D' =
    ((D.setBit b true).setData b Bytes.zero).setDinode i
      { D.dinode i with addrs := update (D.dinode i).addrs NDIRECT b }) :
    Own sb D' ∧ D'.slot (i, none) = b ∧ D'.nodes = D.nodes := by
  have hs₁ : ((D.setBit b true).setData b Bytes.zero).slot = D.slot :=
    h.slot_setData_unused hb hu
  have hs : D'.slot = update D.slot (i, none) b := by
    rw [hD, ← hs₁]
    exact slot_setIndirect (by exact ht) (by exact h₀) (by simp)
  have hx : D.slot (i, none) = 0 := by rw [slot_of_ne ht, addr, h₀]
  refine ⟨h.attach hb hu (by rw [hD]; rfl) hs hx, by rw [hs, update_self], ?_⟩
  funext j
  refine nodes_congr ?_ (fun bn => ?_) fun bn hj => ?_
  · rw [hD]
    rcases eq_or_ne j i with rfl | hj
    · simp
    · simp [update_of_ne hj]
  · rw [hs, update_of_ne (by simp)]
  · rw [hD]
    exact update_of_ne (h.not_held hb hu _) ..

omit ht in
/-- A new block at an address in the indirect block. -/
theorem attachEntry (hsb : sb.Valid) (hind : D.slot (i, none) = k) (hk : k ≠ 0)
    (hbn : NDIRECT ≤ bn) (hbn' : bn < MAXFILE) (hx : D.slot (i, some bn) = 0) (hD : D' =
    ((D.setBit b true).setData b Bytes.zero).setData k
      ((D.data k).set32 (4 * (bn - NDIRECT)) b)) :
    Own sb D' ∧ D'.slot (i, some bn) = b ∧
      D'.nodes = update D.nodes i ((D.nodes i).touch bn) := by
  have ht : (D.dinode i).type ≠ 0 := fun e => hk (hind ▸ slot_of_type e _)
  have hkb : k ≠ b := hind ▸ h.not_held hb hu _
  have hs₁ : (D.setData b Bytes.zero).slot = D.slot := h.slot_setData_unused hb hu
  have hown : Own sb (D.setData b Bytes.zero) := by
    unfold Own
    rw [hs₁]
    exact h
  have hd : (D.setData b Bytes.zero).data k = D.data k := update_of_ne hkb ..
  have hs : D'.slot = update D.slot (i, some bn) b := by
    have := hown.slot_setEntry (by rw [hs₁, hind]) hk hbn hbn' (b := b)
      (lt_trans hb hsb.size_lt)
    rw [hd, hs₁] at this
    rw [hD, ← this]
    rfl
  refine ⟨h.attach hb hu (by rw [hD]; rfl) hs hx, by rw [hs, update_self], ?_⟩
  refine nodes_attach (fun j => by rw [hD]; rfl) ht hs hx (h.ne_zero hb hu) ?_ fun j bn' hj => ?_
  · rw [hD, setData_data, update_of_ne hkb.symm]
    simp
  · have hjk : D.slot (j, some bn') ≠ k := fun e => by
      have := h.inj _ (i, none) hj (e.trans hind.symm)
      simp at this
    rw [hD, setData_data, update_of_ne hjk]
    exact update_of_ne (h.not_held hb hu _) ..

end Own

end Xv6.Fs

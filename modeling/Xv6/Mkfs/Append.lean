import Xv6.Fs.Content
import Xv6.Mkfs.Program

/-! # Appending to a file of the image

`iappend` works on a file system in which the blocks below `freeblock` are the
used ones and all others are zero. It adds bytes to the contents of one file and
takes as many new blocks as the file needs for them.
-/

namespace Xv6.Mkfs

open Fs Function

variable {s s' s₀ : State} {E : Exit → State → Prop} {din : Bytes DINODE} {buf : Block}
  {inum x k b fbn : ℕ} {a : Attr} {bs p : List UInt8}

theorem sb_valid : sb.Valid := ⟨by decide, by decide⟩

theorem datastart_eq : sb.datastart = nmeta := rfl

/-! ## Sectors -/

theorem seek_eq (hx : x < 2 ^ 22) : seek x = x := by
  unfold seek BSIZE
  omega

namespace State

/-- Overwrite a sector. -/
def put (s : State) (x : ℕ) (buf : Block) : State :=
  { s with img := update s.img x buf }

@[simp] theorem put_img : (s.put x buf).img = update s.img x buf := rfl

/-- The file system so far, with the blocks below `freeblock` marked as used. -/
def disk (s : State) : Disk :=
  { Disk.ofImage sb s.img with bitmap := fun b => b < s.freeblock }

/-- The file system with `din` as the inode `inum`. -/
def flush (s : State) (inum : ℕ) (din : Bytes DINODE) : Disk :=
  s.disk.setDinode inum (.ofBytes din 0)

theorem disk_dinode (i : ℕ) : s.disk.dinode i =
    if i < NINODES then .ofBytes (s.img (iblock sb i)) (DINODE * (i % IPB)) else .free := rfl

@[simp] theorem disk_bitmap (b : ℕ) : s.disk.bitmap b = decide (b < s.freeblock) := rfl

theorem disk_data (x : ℕ) : s.disk.data x = if nmeta ≤ x then s.img x else Bytes.zero := rfl

theorem iblock_lt_bmap (hi : inum < NINODES) : iblock sb inum < sb.bmapstart := by
  unfold NINODES at hi
  unfold iblock sb ninodeblocks NINODES IPB BSIZE
  simp only
  omega

theorem iblock_lt (hi : inum < NINODES) : iblock sb inum < nmeta :=
  (iblock_lt_bmap hi).trans (by decide)

theorem disk_put (hx : nmeta ≤ x) : (s.put x buf).disk = s.disk.setData x buf := by
  refine Disk.eq_of (fun i => ?_) (fun b => rfl) (fun b => ?_)
  · rw [Disk.setData_dinode, disk_dinode, disk_dinode]
    split_ifs with hi
    · have := iblock_lt hi
      rw [put_img, update_of_ne (by omega)]
    · rfl
  · rw [Disk.setData_data, disk_data, update_apply]
    split_ifs with h₁ h₂ h₂
    · rw [put_img, h₂, update_self]
    · rw [put_img, update_of_ne h₂, disk_data, if_pos h₁]
    · exact absurd (h₂ ▸ hx) h₁
    · rw [disk_data, if_neg h₁]

theorem disk_putInode (hi : inum < NINODES) :
    (s.put (iblock sb inum)
      ((s.img (iblock sb inum)).blit (DINODE * (inum % IPB)) din.get DINODE)).disk =
      s.disk.setDinode inum (.ofBytes din 0) := by
  have hroom : ∀ i, DINODE * (i % IPB) + DINODE ≤ BSIZE := fun i => by
    unfold DINODE IPB BSIZE
    omega
  refine Disk.eq_of (fun i => ?_) (fun b => rfl) (fun b => ?_)
  · rw [Disk.setDinode_dinode, disk_dinode, update_apply, put_img]
    by_cases he : i = inum
    · subst he
      rw [if_pos hi, if_pos rfl, update_self]
      refine Dinode.ofBytes_congr fun j hj => ?_
      rw [Bytes.get_blit _ (hroom i), if_pos ⟨by omega, by omega⟩, Nat.add_sub_cancel_left,
        Nat.zero_add]
    · rw [if_neg he, disk_dinode]
      split_ifs with hi'
      · by_cases hb : iblock sb i = iblock sb inum
        · rw [hb, update_self]
          have hne : i % IPB ≠ inum % IPB := by
            unfold iblock IPB BSIZE at *
            omega
          refine Dinode.ofBytes_congr fun j hj => ?_
          rw [Bytes.get_blit _ (hroom inum), if_neg]
          unfold DINODE IPB BSIZE at *
          omega
        · rw [update_of_ne hb]
      · rfl
  · have := iblock_lt hi
    rw [Disk.setDinode_data, disk_data, disk_data, put_img]
    split_ifs with hb
    · rw [update_of_ne (by omega)]
    · rfl

end State

theorem wp_rsect {Q : Block → State → Prop} (hx : x < 2 ^ 22) (hok : x < s.len → Q (s.img x) s)
    (hdie : s.len ≤ x → E .die s) : wp (rsect x) E Q s := by
  unfold wp rsect
  rw [seek_eq hx]
  by_cases h : x < s.len
  · rw [if_pos h]
    exact hok h
  · rw [if_neg h]
    exact hdie (by omega)

theorem wp_wsect {Q : Unit → State → Prop} (hx : x < 2 ^ 22) (hlen : x < s.len)
    (hQ : Q () (s.put x buf)) : wp (wsect x buf) E Q s := by
  unfold wsect
  rw [wp_modify, seek_eq hx, Nat.max_eq_left (by omega)]
  exact hQ

/-! ## The bytes of an inode -/

theorem addrs_ofBytes (hk : k ≤ NDIRECT) : (Dinode.ofBytes din 0).addrs k = din.get32 (12 + 4 * k) := by
  simp [Dinode.ofBytes, hk]

theorem ofBytes_setAddr (din : Bytes DINODE) (hk : k ≤ NDIRECT) (hb : b < 2 ^ 32) :
    Dinode.ofBytes (din.set32 (12 + 4 * k) b) 0 =
      { Dinode.ofBytes din 0 with addrs := update (Dinode.ofBytes din 0).addrs k b } := by
  have h₁₆ : ∀ j ≤ 10, (din.set32 (12 + 4 * k) b).get16 j = din.get16 j := fun j hj =>
    Bytes.get16_set32_of_disjoint (by omega)
  have haddrs : (Dinode.ofBytes (din.set32 (12 + 4 * k) b) 0).addrs =
      update (Dinode.ofBytes din 0).addrs k b := by
    funext j
    rcases eq_or_ne j k with rfl | hj
    · rw [update_self, addrs_ofBytes hk,
        Bytes.get32_set32 (by unfold DINODE NDIRECT at *; omega) hb]
    · rw [update_of_ne hj]
      simp only [Dinode.ofBytes]
      split_ifs
      · rw [Bytes.get32_set32_of_disjoint (by omega)]
      · rfl
  rw [← haddrs]
  simp only [Dinode.ofBytes, Bytes.get32, Nat.zero_add, h₁₆ 0 (by omega), h₁₆ 2 (by omega),
    h₁₆ 4 (by omega), h₁₆ 6 (by omega), h₁₆ 8 (by omega), h₁₆ 10 (by omega)]

theorem ofBytes_setSize {v : ℕ} (hv : v < 2 ^ 32) :
    Dinode.ofBytes (din.set32 8 v) 0 = { Dinode.ofBytes din 0 with size := v } := by
  have h₁₆ : ∀ j ≤ 6, (din.set32 8 v).get16 j = din.get16 j := fun j hj =>
    Bytes.get16_set32_of_disjoint (by omega)
  have h₃₂ : ∀ j, (din.set32 8 v).get32 (0 + 12 + 4 * j) = din.get32 (0 + 12 + 4 * j) := fun j =>
    Bytes.get32_set32_of_disjoint (by omega)
  simp only [Dinode.ofBytes, Nat.zero_add, h₁₆ 0 (by omega), h₁₆ 2 (by omega), h₁₆ 4 (by omega),
    h₁₆ 6 (by omega), Bytes.get32_set32 (show 8 + 3 < DINODE by decide) hv, h₃₂]

/-! ## New blocks -/

namespace State

/-- Take the first free block. -/
def bump (s : State) : State := { s with freeblock := s.freeblock + 1 }

theorem disk_bump : s.bump.disk = s.disk.setBit s.freeblock true := by
  refine Disk.eq_of (fun _ => rfl) (fun b => ?_) (fun _ => rfl)
  rw [Disk.setBit_bitmap, update_apply, disk_bitmap, disk_bitmap, bump]
  split_ifs with h
  · simp [h]
  · exact decide_eq_decide.mpr (by dsimp only; omega)

@[simp] theorem flush_dinode : (s.flush inum din).dinode inum = .ofBytes din 0 := by simp [flush]

@[simp] theorem flush_data : (s.flush inum din).data = s.disk.data := rfl

@[simp] theorem flush_bitmap : (s.flush inum din).bitmap = s.disk.bitmap := rfl

theorem flush_unused : (s.flush inum din).bitmap s.freeblock = false := by
  rw [flush_bitmap, disk_bitmap, decide_eq_false_iff_not]
  omega

end State

theorem wp_newBlock {Q : ℕ → State → Prop} (hQ : Q s.freeblock s.bump) : wp newBlock E Q s := hQ

/-- While `iappend` has the inode `inum` in `din`. -/
structure Edit (s₀ s : State) (inum : ℕ) (din : Bytes DINODE) : Prop where
  len : s.len = FSSIZE
  le : s.freeblock ≤ FSSIZE
  zero : ∀ b, s.freeblock ≤ b → s.img b = Bytes.zero
  own : Own sb (s.flush inum din)
  type : (Dinode.ofBytes din 0).type ≠ 0
  low : ∀ b < nmeta, s.img b = s₀.img b
  freeinode : s.freeinode = s₀.freeinode

namespace Edit

variable (h : Edit s₀ s inum din)

include h

theorem slot_eq (x : Option ℕ) : (s.flush inum din).slot (inum, x) =
    (s.flush inum din).addr (.ofBytes din 0) x := by
  rw [Disk.slot_of_ne (by simpa using h.type), State.flush_dinode]

theorem slot_direct (hk : k < NDIRECT) :
    (s.flush inum din).slot (inum, some k) = din.get32 (12 + 4 * k) := by
  rw [h.slot_eq, Disk.addr, if_pos hk, addrs_ofBytes hk.le]

theorem slot_indirect : (s.flush inum din).slot (inum, none) = din.get32 (12 + 4 * NDIRECT) := by
  rw [h.slot_eq, Disk.addr, addrs_ofBytes le_rfl]

/-- The addresses of blocks are those of sectors of the data area. -/
theorem area {y : ℕ × Option ℕ} (hx : (s.flush inum din).slot y = x) (h₀ : x ≠ 0) :
    nmeta ≤ x ∧ x < s.freeblock := by
  subst hx
  have hu := h.own.used_of_ne h₀
  rw [State.flush_bitmap, State.disk_bitmap, decide_eq_true_eq] at hu
  exact ⟨(h.own.area _ h₀).1, hu⟩

theorem slot_entry (hind : din.get32 (12 + 4 * NDIRECT) = x) (h₀ : x ≠ 0) (hk : NDIRECT ≤ k)
    (hk' : k < MAXFILE) :
    (s.flush inum din).slot (inum, some k) = (s.img x).get32 (4 * (k - NDIRECT)) := by
  have hx := h.area (h.slot_indirect.trans hind) h₀
  rw [h.slot_eq, Disk.addr, if_neg (by omega), addrs_ofBytes le_rfl, hind, if_pos ⟨hk', h₀⟩,
    State.flush_data, State.disk_data, if_pos hx.1]

variable (hb : s.freeblock < FSSIZE)

include hb

theorem lo_le : nmeta ≤ s.freeblock := h.own.lo_le hb State.flush_unused

theorem clear : (s.flush inum din).data s.freeblock = Bytes.zero := by
  rw [State.flush_data, State.disk_data, if_pos (h.lo_le hb), h.zero _ le_rfl]

/-- The new block is zero already. -/
theorem flush_bump : ((s.flush inum din).setBit s.freeblock true).setData s.freeblock Bytes.zero =
    s.bump.flush inum din := by
  have hD : s.bump.flush inum din = (s.flush inum din).setBit s.freeblock true := by
    rw [State.flush, State.disk_bump]
    rfl
  rw [hD]
  refine Disk.eq_of (fun _ => rfl) (fun _ => rfl) (fun b => ?_)
  rw [Disk.setData_data, Disk.setBit_data, ← h.clear hb, update_eq_self]

theorem bump {din' : Bytes DINODE} (hown : Own sb (s.bump.flush inum din'))
    (ht : (Dinode.ofBytes din' 0).type ≠ 0) : Edit s₀ s.bump inum din' where
  len := h.len
  le := by
    unfold State.bump
    dsimp only
    omega
  zero b hb' := h.zero b (by unfold State.bump at hb'; dsimp only at hb'; omega)
  own := hown
  type := ht
  low := h.low
  freeinode := h.freeinode

theorem direct (hk : k < NDIRECT) (h₀ : din.get32 (12 + 4 * k) = 0) :
    Edit s₀ s.bump inum (din.set32 (12 + 4 * k) s.freeblock) ∧
    (s.bump.flush inum (din.set32 (12 + 4 * k) s.freeblock)).nodes =
      update (s.flush inum din).nodes inum (((s.flush inum din).nodes inum).touch k) := by
  have hlt : s.freeblock < 2 ^ 32 := by unfold FSSIZE at hb; omega
  have hd := ofBytes_setAddr din hk.le hlt
  obtain ⟨hown, -, hnodes⟩ := h.own.attachDirect (i := inum) (by simpa using h.type) hb
    State.flush_unused hk (by rw [State.flush_dinode, addrs_ofBytes hk.le, h₀]) rfl
  rw [h.flush_bump hb, State.flush_dinode, ← hd, State.flush, Disk.setDinode_setDinode] at hown hnodes
  exact ⟨h.bump hb hown (by rw [hd]; exact h.type), hnodes⟩

theorem indirect (h₀ : din.get32 (12 + 4 * NDIRECT) = 0) :
    Edit s₀ s.bump inum (din.set32 (12 + 4 * NDIRECT) s.freeblock) ∧
    (s.bump.flush inum (din.set32 (12 + 4 * NDIRECT) s.freeblock)).nodes =
      (s.flush inum din).nodes := by
  have hlt : s.freeblock < 2 ^ 32 := by unfold FSSIZE at hb; omega
  have hd := ofBytes_setAddr din le_rfl hlt
  obtain ⟨hown, -, hnodes⟩ := h.own.attachIndirect (i := inum) (by simpa using h.type) hb
    State.flush_unused (by rw [State.flush_dinode, addrs_ofBytes le_rfl, h₀]) rfl
  rw [h.flush_bump hb, State.flush_dinode, ← hd, State.flush, Disk.setDinode_setDinode] at hown hnodes
  exact ⟨h.bump hb hown (by rw [hd]; exact h.type), hnodes⟩

theorem entry (hind : din.get32 (12 + 4 * NDIRECT) = x) (hx : x ≠ 0) (hk : NDIRECT ≤ k)
    (hk' : k < MAXFILE) (h₀ : (s.img x).get32 (4 * (k - NDIRECT)) = 0)
    (hs' : s' = s.bump.put x ((s.img x).set32 (4 * (k - NDIRECT)) s.freeblock)) :
    Edit s₀ s' inum din ∧ (s'.flush inum din).nodes =
      update (s.flush inum din).nodes inum (((s.flush inum din).nodes inum).touch k) := by
  have hslot := h.slot_indirect.trans hind
  have hxa := h.area hslot hx
  have hdata : (s.flush inum din).data x = s.img x := by
    rw [State.flush_data, State.disk_data, if_pos hxa.1]
  obtain ⟨hown, -, hnodes⟩ := h.own.attachEntry hb State.flush_unused sb_valid hslot hx hk hk'
    (by rw [h.slot_entry hind hx hk hk', h₀]) rfl
  have hflush : s'.flush inum din = (((s.flush inum din).setBit s.freeblock true).setData
      s.freeblock Bytes.zero).setData x (((s.flush inum din).data x).set32 (4 * (k - NDIRECT))
      s.freeblock) := by
    rw [h.flush_bump hb, hdata, hs', State.flush, State.disk_put hxa.1]
    rfl
  rw [← hflush] at hown hnodes
  refine ⟨⟨?_, ?_, fun b hb' => ?_, hown, h.type, fun b hb' => ?_, ?_⟩, hnodes⟩
  · rw [hs']
    exact h.len
  · rw [hs']
    exact hb
  · rw [hs'] at hb' ⊢
    have hb₁ : s.freeblock + 1 ≤ b := hb'
    rw [State.put_img, update_of_ne (by omega)]
    exact h.zero b (by omega)
  · rw [hs', State.put_img, update_of_ne (by omega)]
    exact h.low b hb'
  · rw [hs']
    exact h.freeinode

end Edit

/-! ## The loop -/

/-- A file without holes. -/
def filled (a : Attr) (bs : List UInt8) : Node where
  toAttr := a
  mapped bn := bn * BSIZE < bs.length
  byte pos := bs.getD pos 0

/-- The number of blocks of a file of `n` bytes, with its indirect block. -/
def need (n : ℕ) : ℕ := (n + BSIZE - 1) / BSIZE + if NDIRECT * BSIZE < n then 1 else 0

theorem need_mono {m n : ℕ} (h : m ≤ n) : need m ≤ need n := by
  unfold need BSIZE NDIRECT
  split_ifs <;> omega

/-- All the bytes that fit into one block come with the first of them. -/
theorem need_add {n m : ℕ} (hm : 0 < m) (hn : n % BSIZE + m ≤ BSIZE) : need (n + m) = need (n + 1) := by
  unfold need BSIZE NDIRECT at *
  split_ifs <;> omega

/-- The first byte of a block brings the block, and the first one that is not in a direct block the
indirect block. -/
theorem need_succ (n : ℕ) : need (n + 1) = need n +
    (if n % BSIZE = 0 then 1 else 0) + if n = NDIRECT * BSIZE then 1 else 0 := by
  unfold need BSIZE NDIRECT
  split_ifs <;> omega

variable {Q : ℕ × Bytes DINODE → State → Prop}

section Round

variable (h : Edit s₀ s inum din) (hfbn : fbn = bs.length / BSIZE) (hmax : fbn < MAXFILE)

/-- There are too few blocks for one more byte after `n`. -/
def Full (s : State) (n : ℕ) : Prop := FSSIZE + need n < s.freeblock + need (n + 1)

include hfbn

theorem mapped_iff (hnd : (s.flush inum din).nodes inum = filled a bs) :
    (s.flush inum din).slot (inum, some fbn) ≠ 0 ↔ bs.length % BSIZE ≠ 0 := by
  have hm : ((s.flush inum din).nodes inum).mapped fbn = decide (fbn * BSIZE < bs.length) := by
    rw [hnd]
    rfl
  rw [Disk.nodes_mapped, decide_eq_decide] at hm
  rw [hm, hfbn]
  unfold BSIZE
  omega

include h hmax

theorem wp_entryAt {Q : ℕ → State → Prop} {ind : ℕ}
    (hnd : (s.flush inum din).nodes inum = filled a bs)
    (hind : din.get32 (12 + 4 * NDIRECT) = ind) (h₀ : ind ≠ 0) (hdir : NDIRECT ≤ fbn)
    (hok : ∀ x s', Edit s₀ s' inum din → (s'.flush inum din).slot (inum, some fbn) = x → x ≠ 0 →
      (s'.flush inum din).nodes =
        update (s.flush inum din).nodes inum ((filled a bs).touch fbn) →
      s'.freeblock = s.freeblock + (if bs.length % BSIZE = 0 then 1 else 0) → Q x s')
    (hfull : ∀ x s', bs.length % BSIZE = 0 → s.freeblock = FSSIZE → s'.len = FSSIZE →
      FSSIZE ≤ x → x < 2 ^ 22 → Q x s') :
    wp (entryAt ind (fbn - NDIRECT)) E Q s := by
  have hind' := h.area (h.slot_indirect.trans hind) h₀
  have hle := h.le
  have hlen := h.len
  have hslot := h.slot_entry hind h₀ hdir hmax
  have hmapped := mapped_iff hfbn hnd
  have hj : 4 * (fbn - NDIRECT) + 3 < BSIZE := by
    unfold MAXFILE NINDIRECT BSIZE at *
    omega
  unfold FSSIZE at *
  unfold entryAt
  rw [wp_bind]
  refine wp_rsect (by omega) (fun _ => ?_) (fun _ => by omega)
  rw [wp_ite]
  refine ⟨fun hz => ?_, fun hz => ?_⟩
  · have hmod : bs.length % BSIZE = 0 := by
      rw [hslot] at hmapped
      simpa [hz] using hmapped
    rw [wp_bind]
    refine wp_newBlock ?_
    rw [wp_bind]
    refine wp_wsect (by omega) (by change ind < s.len; omega) ?_
    rw [wp_pure, Bytes.get32_set32 hj (by omega)]
    rcases Nat.lt_or_ge s.freeblock 2000 with hb | hb
    · obtain ⟨hE, hn⟩ := h.entry hb hind h₀ hdir hmax hz rfl
      refine hok _ _ hE ?_ ?_ (by rw [hn, hnd]) (by rw [if_pos hmod]; rfl)
      · rw [hE.slot_entry hind h₀ hdir hmax, State.put_img, update_self,
          Bytes.get32_set32 hj (by omega)]
      · have := h.lo_le hb
        unfold nmeta at this
        omega
    · exact hfull _ _ hmod (by omega) hlen (by omega) (by omega)
  · rw [← hslot] at hz ⊢
    have hmod := hmapped.mp hz
    refine hok _ _ h rfl hz ?_ (by rw [if_neg hmod, Nat.add_zero])
    rw [← hnd, Node.touch_eq, update_eq_self]
    rw [Disk.nodes_mapped, decide_eq_true_eq]
    exact hz

theorem wp_blockAt (hnd : (s.flush inum din).nodes inum = filled a bs)
    (hind : din.get32 (12 + 4 * NDIRECT) ≠ 0 ↔ NDIRECT * BSIZE < bs.length)
    (hok : ∀ x din' s', Edit s₀ s' inum din' → (s'.flush inum din').slot (inum, some fbn) = x →
      x ≠ 0 → (s'.flush inum din').nodes = update (s.flush inum din).nodes inum ((filled a
      bs).touch fbn) → (din'.get32 (12 + 4 * NDIRECT) ≠ 0 ↔ NDIRECT ≤ fbn) →
      s'.freeblock + need bs.length = s.freeblock + need (bs.length + 1) → Q (x, din') s')
    (hfull : ∀ x din' s', Full s bs.length → s'.len = FSSIZE → FSSIZE ≤ x → x < 2 ^ 22 →
      Q (x, din') s')
    (hdie : Full s bs.length → ∀ s', E .die s') : wp (blockAt din fbn) E Q s := by
  have hle := h.le
  have hneed := need_succ bs.length
  have hmapped := mapped_iff hfbn hnd
  unfold Full at hfull hdie
  unfold blockAt addrAt
  rw [wp_ite]
  refine ⟨fun hdir => ?_, fun hdir => ?_⟩
  · have hne : bs.length ≠ NDIRECT * BSIZE := by
      unfold NDIRECT BSIZE at *
      omega
    rw [if_neg hne, Nat.add_zero] at hneed
    rw [h.slot_direct hdir] at hmapped
    have hind' : ∀ din' : Bytes DINODE, din'.get32 (12 + 4 * NDIRECT) = din.get32 (12 + 4 * NDIRECT) →
        (din'.get32 (12 + 4 * NDIRECT) ≠ 0 ↔ NDIRECT ≤ fbn) := fun din' e => by
      rw [e, hind]
      unfold NDIRECT BSIZE at *
      omega
    rw [wp_bind, wp_ite]
    refine ⟨fun hz => ?_, fun hz => ?_⟩
    · have hmod : bs.length % BSIZE = 0 := by simpa [hz] using hmapped
      rw [if_pos hmod] at hneed
      rw [wp_bind]
      refine wp_newBlock ?_
      have hget : (din.set32 (12 + 4 * fbn) s.freeblock).get32 (12 + 4 * fbn) = s.freeblock :=
        Bytes.get32_set32 (by unfold DINODE NDIRECT at *; omega) (by unfold FSSIZE at hle; omega)
      rw [wp_pure, wp_pure, hget]
      rcases Nat.lt_or_ge s.freeblock FSSIZE with hb | hb
      · obtain ⟨hE, hn⟩ := h.direct hb hdir hz
        refine hok _ _ _ hE (by rw [hE.slot_direct hdir, hget]) ?_ (by rw [hn, hnd])
          (hind' _ (Bytes.get32_set32_of_disjoint (by omega))) ?_
        · have := h.lo_le hb
          unfold nmeta at this
          omega
        · change s.freeblock + 1 + _ = _
          omega
      · refine hfull _ _ _ (by omega) h.len hb ?_
        unfold FSSIZE at hle
        omega
    · have hmod := hmapped.mp hz
      rw [if_neg hmod, Nat.add_zero] at hneed
      rw [wp_pure, wp_pure]
      refine hok _ _ _ h (h.slot_direct hdir) hz ?_ (hind' _ rfl) (by omega)
      rw [← hnd, Node.touch_eq, update_eq_self]
      rw [Disk.nodes_mapped, decide_eq_true_eq, h.slot_direct hdir]
      exact hz
  · rw [wp_bind, wp_ite]
    refine ⟨fun hz => ?_, fun hz => ?_⟩
    · have hlen : bs.length = NDIRECT * BSIZE := by
        have := hind.not.mp (by simpa using hz)
        unfold NDIRECT BSIZE at *
        omega
      have hmod : bs.length % BSIZE = 0 := by rw [hlen]; decide
      rw [if_pos hmod, if_pos hlen] at hneed
      rw [wp_bind]
      refine wp_newBlock ?_
      have hget : (din.set32 (12 + 4 * NDIRECT) s.freeblock).get32 (12 + 4 * NDIRECT) = s.freeblock :=
        Bytes.get32_set32 (by decide) (by unfold FSSIZE at hle; omega)
      rw [wp_pure, wp_bind, hget]
      rcases Nat.lt_or_ge s.freeblock FSSIZE with hb | hb
      · obtain ⟨hE, hn⟩ := h.indirect hb hz
        have hpos := h.lo_le hb
        refine wp_entryAt hE hfbn hmax (by rw [hn, hnd]) hget (by unfold nmeta at hpos; omega)
          (by omega) (fun x s' hE' hx hx₀ hn' hf => ?_) fun x s' _ hf hl hx hx' => ?_
        · rw [wp_pure]
          refine hok _ _ _ hE' hx hx₀ (by rw [hn', hn]) ?_ ?_
          · rw [hget]
            unfold nmeta at hpos
            omega
          · rw [if_pos hmod] at hf
            change s'.freeblock = s.freeblock + 1 + 1 at hf
            omega
        · rw [wp_pure]
          change s.freeblock + 1 = FSSIZE at hf
          exact hfull _ _ _ (by omega) hl hx hx'
      · unfold entryAt
        rw [wp_bind]
        refine wp_rsect (by unfold FSSIZE at hle; omega) (fun hlt => ?_) fun _ => hdie (by omega) _
        change s.freeblock < s.len at hlt
        rw [h.len] at hlt
        omega
    · have hlen : NDIRECT * BSIZE < bs.length := hind.mp hz
      rw [if_neg (show bs.length ≠ NDIRECT * BSIZE by omega), Nat.add_zero] at hneed
      rw [wp_pure, wp_bind]
      refine wp_entryAt h hfbn hmax hnd rfl hz (by omega) (fun x s' hE' hx hx₀ hn' hf => ?_)
        fun x s' hmod hf hl hx hx' => ?_
      · rw [wp_pure]
        exact hok _ _ _ hE' hx hx₀ hn' (iff_of_true hz (by omega)) (by omega)
      · rw [wp_pure]
        rw [if_pos hmod] at hneed
        exact hfull _ _ _ (by omega) hl hx hx'

end Round

theorem filled_append {n : ℕ} (hn : bs.length % BSIZE + n ≤ BSIZE) (h₀ : 0 < n) (hp : n ≤ p.length)
    (hbuf : ∀ pos, pos / BSIZE = bs.length / BSIZE → bs.getD pos 0 = buf.get (pos % BSIZE)) :
    ((filled a bs).touch (bs.length / BSIZE)).store (bs.length / BSIZE)
      (buf.blit (bs.length % BSIZE) (p.getD · 0) n) = filled a (bs ++ p.take n) := by
  have htake : (p.take n).length = n := by simp [hp]
  refine Node.eq_of rfl (fun bn => ?_) fun pos => ?_
  · rw [Node.store_mapped, Node.touch_mapped, update_apply]
    simp only [filled, List.length_append, htake]
    split_ifs with he
    · rw [eq_comm, decide_eq_true_eq, he]
      unfold BSIZE at *
      omega
    · rw [decide_eq_decide]
      unfold BSIZE at *
      omega
  · rw [store_blit _ (p.getD · 0) hbuf hn, Node.touch_byte]
    simp only [filled, List.getD_eq_getElem?_getD]
    split_ifs with hpos
    · rw [List.getElem?_append_right hpos.1, List.getElem?_take_of_lt (by omega)]
    · rcases Nat.lt_or_ge pos bs.length with hlt | hge
      · rw [List.getElem?_append_left hlt]
      · rw [List.getElem?_eq_none hge, List.getElem?_eq_none (by simp [htake]; omega)]

/-- Overwrite a block of the file. -/
theorem Edit.put (buf : Block) (h : Edit s₀ s inum din) (hx : (s.flush inum din).slot (inum, some fbn) = x)
    (h₀ : x ≠ 0) : Edit s₀ (s.put x buf) inum din ∧ ((s.put x buf).flush inum din).nodes =
      update (s.flush inum din).nodes inum
        (((s.flush inum din).nodes inum).store fbn buf) := by
  have hxa := h.area hx h₀
  have hflush : (s.put x buf).flush inum din = (s.flush inum din).setData x buf := by
    rw [State.flush, State.disk_put hxa.1]
    rfl
  refine ⟨⟨h.len, h.le, fun b hb => ?_, ?_, h.type, fun b hb => ?_, h.freeinode⟩, ?_⟩
  · have : s.freeblock ≤ b := hb
    rw [State.put_img, update_of_ne (by omega), h.zero b this]
  · rw [hflush]
    exact h.own.setData_file hx
  · rw [State.put_img, update_of_ne (by omega), h.low b hb]
  · rw [hflush]
    exact h.own.nodes_setData_file hx h₀ _

/-- A file of `n` bytes cannot take `m` more. -/
def Over (s : State) (n m : ℕ) : Prop :=
  MAXFILE * BSIZE < n + m ∨ FSSIZE + need n < s.freeblock + need (n + m)

/-- The loop adds the bytes to the file. -/
theorem wp_iappendFrom {N : ℕ → Node} {fuel : ℕ} (h : Edit s₀ s inum din)
    (hnodes : (s.flush inum din).nodes = update N inum (filled a bs))
    (hind : din.get32 (12 + 4 * NDIRECT) ≠ 0 ↔ NDIRECT * BSIZE < bs.length)
    (hmax : bs.length ≤ MAXFILE * BSIZE) (hfuel : p.length ≤ fuel)
    (hover : Over s bs.length p.length → ∀ e s', E e s')
    (hok : ∀ din' s', Edit s₀ s' inum din' →
      (s'.flush inum din').nodes = update N inum (filled a (bs ++ p)) →
      (din'.get32 (12 + 4 * NDIRECT) ≠ 0 ↔ NDIRECT * BSIZE < bs.length + p.length) →
      bs.length + p.length ≤ MAXFILE * BSIZE →
      s'.freeblock + need bs.length = s.freeblock + need (bs.length + p.length) →
      Q (bs.length + p.length, din') s') :
    wp (iappendFrom fuel din bs.length p) E Q s := by
  induction fuel generalizing s din bs p with
  | zero =>
    obtain rfl : p = [] := List.length_eq_zero_iff.mp (by omega)
    exact hok din s h (by rwa [List.append_nil]) hind hmax rfl
  | succ fuel ih =>
    unfold iappendFrom
    rw [wp_ite]
    refine ⟨fun hpos => ?_, fun hpos => ?_⟩
    · obtain ⟨fbn, hfbn⟩ : ∃ fbn, fbn = bs.length / BSIZE := ⟨_, rfl⟩
      obtain ⟨n, hn⟩ : ∃ n, n = min p.length ((fbn + 1) * BSIZE - bs.length) := ⟨_, rfl⟩
      have hn₀ : 0 < n := by
        unfold BSIZE at *
        omega
      have hnp : n ≤ p.length := by omega
      have hroom : bs.length % BSIZE + n ≤ BSIZE := by
        unfold BSIZE at *
        omega
      have hoff : bs.length - fbn * BSIZE = bs.length % BSIZE := by
        unfold BSIZE at *
        omega
      have hneed := need_add (n := bs.length) hn₀ hroom
      have hmono := need_mono (show bs.length + 1 ≤ bs.length + p.length by omega)
      have hnd : (s.flush inum din).nodes inum = filled a bs := by rw [hnodes, update_self]
      simp only [← hfbn, ← hn, hoff]
      rw [wp_bind, wp_stopIf]
      refine ⟨fun hbig => hover (.inl ?_) _ _, fun hbig => ?_⟩
      · unfold MAXFILE NDIRECT NINDIRECT BSIZE at *
        omega
      have hbig' : fbn < MAXFILE := hfbn ▸ not_not.mp hbig
      rw [wp_bind]
      refine wp_blockAt h hfbn hbig' hnd hind (fun x din' s' hE hx hx₀ hn' hind' hf => ?_)
        (fun x din' s' hfull hl hx hx' => ?_) fun hfull s' => hover (.inr ?_) _ _
      · have hxa := hE.area hx hx₀
        have hle := hE.le
        have hl := hE.len
        unfold FSSIZE at hle hl
        simp only
        rw [wp_bind]
        refine wp_rsect (by omega) (fun hlt => ?_) (fun hge => by omega)
        rw [wp_bind]
        refine wp_wsect (by omega) hlt ?_
        obtain ⟨hE', hn''⟩ := Edit.put ((s'.img x).blit (bs.length % BSIZE) (p.getD · 0) n)
          hE hx hx₀
        have hbuf : ∀ pos, pos / BSIZE = bs.length / BSIZE →
            bs.getD pos 0 = (s'.img x).get (pos % BSIZE) := fun pos hp => by
          have hb : ((s'.flush inum din').nodes inum).byte pos = bs.getD pos 0 := by
            rw [hn', update_self]
            rfl
          rw [← hb, Disk.nodes_byte, hp, ← hfbn, hx, Disk.byteAt, if_neg hx₀, State.flush_data,
            State.disk_data, if_pos hxa.1]
        have hstep : ((s'.put x ((s'.img x).blit (bs.length % BSIZE) (p.getD · 0) n)).flush inum
            din').nodes = update N inum (filled a (bs ++ p.take n)) := by
          rw [hn'', hn', update_self, update_idem, hnodes, update_idem,
            hfbn, filled_append hroom hn₀ hnp hbuf]
        have hlen : (bs ++ p.take n).length = bs.length + n := by simp [hnp]
        have hdrop : (p.drop n).length = p.length - n := by simp
        have hsum : bs.length + n + (p.length - n) = bs.length + p.length := by omega
        have hfb : (s'.put x ((s'.img x).blit (bs.length % BSIZE) (p.getD · 0) n)).freeblock =
            s'.freeblock := rfl
        rw [← hlen]
        refine ih hE' hstep ?_ ?_ (by omega) (fun ho => hover ?_) fun din'' s'' h₁ h₂ h₃ h₄ h₅ => ?_
        · rw [hind', hlen]
          unfold NDIRECT BSIZE at *
          omega
        · rw [hlen]
          unfold MAXFILE NDIRECT NINDIRECT BSIZE at *
          omega
        · unfold Over at ho ⊢
          rw [hlen, hdrop, hsum, hfb, hneed] at ho
          omega
        · rw [hlen, hdrop, hsum] at h₃ h₄ h₅ ⊢
          rw [List.append_assoc, List.take_append_drop] at h₂
          rw [hfb, hneed] at h₅
          exact hok din'' s'' h₁ h₂ h₃ h₄ (by omega)
      · simp only
        rw [wp_bind]
        refine wp_rsect hx' (fun hlt => by omega) fun _ => hover (.inr ?_) _ _
        unfold Full at hfull
        omega
      · unfold Full at hfull
        omega
    · obtain rfl : p = [] := List.length_eq_zero_iff.mp (by omega)
      exact hok din s h (by rwa [List.append_nil]) hind hmax rfl

end Xv6.Mkfs

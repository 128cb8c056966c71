import Mathlib.Data.List.GetD
import Mathlib.Data.List.TakeWhile
import Xv6.Fs.Directory
import Xv6.Mkfs.Result

/-! # The kernel on a fresh image

What the file system of the kernel finds on an image of `mkfs`. All the
invariants of the kernel hold except that the last block of the root directory
may be missing: its size is rounded up even if the entries fill their blocks.
-/

namespace Xv6.Mkfs

open Fs Function

variable {img : ℕ → Block} {args : List Arg} {i j : ℕ} {name : List UInt8}

/-- The file system of the kernel after booting from the image. -/
def booted (img : ℕ → Block) : Fs.State where
  disk := .ofImage sb img
  held := []
  log := { start := 2, size := nlog, outstanding := 0, committing := false, dev := ROOTDEV, lh := [] }
  itable := fun _ =>
    { Dinode.free with dev := 0, inum := 0, ref := 0, locked := false, valid := false }

theorem recover_of_header (h : img 2 = Bytes.zero) : recover 2 img = img := by
  have hh : Journal.headerBlocks (img 2) = [] := by
    rw [h, Journal.headerBlocks, Bytes.get32_zero]
    rfl
  have hput : Journal.putHeader [] (img 2) = img 2 := by
    rw [h]
    funext k
    simp [Journal.putHeader, Journal.putBlocks, Bytes.set32, Bytes.set16, Bytes.set, Bytes.zero]
  rw [recover, Journal.recoverWrites, hh, hput]
  exact update_eq_self 2 img

/-- `fsinit` finds the superblock and nothing to recover. -/
theorem Made.fsinit (h : Made img args) : fsinit img = some (sb, booted img) := by
  have hmagic : sbBlock.get32 0 = FSMAGIC := rfl
  have hstart : sbBlock.get32 20 = 2 := rfl
  have hsb : Superblock.ofBlock sbBlock = sb := rfl
  rw [Fs.fsinit, h.super, hmagic, hstart, hsb]
  simp only [recover_of_header h.header]
  rfl

/-- The invariant of the file system of the kernel: there is a block for every index below the size
of a file, a block of the data area is marked exactly if one slot holds it, and `readi` of an inode
with the contents it has on the disk changes nothing. -/
structure WellFormed (sb : Superblock) (D : Disk) : Prop where
  mapped : ∀ i, (D.dinode i).type ≠ 0 → ∀ bn < ((D.dinode i).size + BSIZE - 1) / BSIZE,
    D.slot (i, some bn) ≠ 0
  marked : ∀ b, sb.datastart ≤ b → b < sb.size → (D.bitmap b = true ↔ ∃! x, D.slot x = b)
  readi : ∀ (s : Fs.State) (ip : Iptr) (dst : ℕ → Bool) (off n : ℕ), s.disk = D → s.held = [] →
    (s.itable ip).type ≠ 0 → (s.itable ip).toDinode = D.dinode (s.itable ip).inum →
    off < 2 ^ 32 → n < 2 ^ 32 → wp (readi sb ip dst off n) (fun _ _ => False) (fun _ s' => s' = s) s

theorem wellFormed_of_own {sb : Superblock} {D : Disk} (h : Own sb D) (hok : ∀ i, (D.nodes i).Ok) :
    WellFormed sb D where
  mapped i hi bn hbn := by
    have hsize : (D.nodes i).size = (D.dinode i).size := congrArg Attr.size (Disk.nodes_toAttr hi)
    have hm := (hok i).mapped bn (by
      rw [hsize]
      unfold BSIZE at *
      omega)
    rwa [Disk.nodes_mapped, decide_eq_true_eq] at hm
  marked b h₁ h₂ := by
    have hpos := h.pos
    constructor
    · intro hb
      obtain ⟨x, hx⟩ := h.exists_of_used h₁ h₂ hb
      exact ⟨x, hx, fun y hy => h.inj y x (by omega) (hy.trans hx.symm)⟩
    · rintro ⟨x, rfl, -⟩
      exact h.used_of_ne (by omega)
  readi s ip dst off n hs hheld ht hd hoff hn := by
    have hflush : s.flush ip = D := by rw [Fs.State.flush, hs, hd, Disk.setDinode_self]
    exact wp_readi ht hheld rfl (by rw [hflush]; exact hok _) hoff hn fun _ _ => rfl

/-- The block after the entries is missing if they fill their blocks. -/
theorem Made.mapped_root (h : Made img args) (bn : ℕ) :
    (Disk.ofImage sb img).slot (ROOTINO, some bn) ≠ 0 ↔ bn * BSIZE < DIRENT * (args.length + 2) := by
  have hm : ((Disk.ofImage sb img).nodes ROOTINO).mapped bn =
      decide (bn * BSIZE < (rootBytes args).length) := by
    rw [h.nodes]
    rfl
  rw [Disk.nodes_mapped, decide_eq_decide, length_rootBytes] at hm
  exact hm

theorem Made.root_type (h : Made img args) : ((Disk.ofImage sb img).dinode ROOTINO).type ≠ 0 := by
  rw [← Disk.nodes_type, h.nodes]
  change T_DIR ≠ 0
  decide

theorem Made.root_size (h : Made img args) : ((Disk.ofImage sb img).dinode ROOTINO).size =
    (DIRENT * (args.length + 2) / BSIZE + 1) * BSIZE := by
  rw [← congrArg Attr.size (Disk.nodes_toAttr h.root_type), h.nodes, madeNode, if_pos rfl, rootSize,
    length_rootBytes]

/-- A node other than that of the root directory. -/
theorem Made.ok (h : Made img args) (hi : i ≠ ROOTINO) : ((Disk.ofImage sb img).nodes i).Ok := by
  rw [h.nodes, madeNode, if_neg hi]
  match i with
  | 0 => exact .free
  | 1 => exact absurd rfl hi
  | i + 2 =>
    cases ha : args[i]? with
    | none =>
      simp only [files, ha, Option.map_none]
      exact .free
    | some a =>
      simp only [files, ha, Option.map_some]
      refine ⟨h.fits.size a (List.mem_of_getElem? ha), fun bn hbn => ?_⟩
      exact decide_eq_true hbn

theorem Made.wellFormed_iff (hlen : args.length ≤ NINODES - 2) (h : Made img args) :
    WellFormed sb (Disk.ofImage sb img) ↔ (args.length + 2) * DIRENT % BSIZE ≠ 0 := by
  have hsize : ((Disk.ofImage sb img).nodes ROOTINO).size =
      (DIRENT * (args.length + 2) / BSIZE + 1) * BSIZE := by
    rw [congrArg Attr.size (Disk.nodes_toAttr h.root_type), h.root_size]
  constructor
  · intro hw hfull
    have := hw.mapped ROOTINO h.root_type (DIRENT * (args.length + 2) / BSIZE) (by
      rw [h.root_size]
      unfold BSIZE
      omega)
    rw [h.mapped_root] at this
    unfold DIRENT DIRSIZ BSIZE at *
    omega
  · intro hne
    refine wellFormed_of_own h.own fun i => ?_
    by_cases hi : i = ROOTINO
    · subst hi
      constructor
      · rw [hsize]
        unfold DIRENT DIRSIZ NINODES MAXFILE NDIRECT NINDIRECT BSIZE at *
        omega
      · intro bn hbn
        rw [hsize] at hbn
        rw [Disk.nodes_mapped, decide_eq_true_eq, h.mapped_root]
        unfold DIRENT DIRSIZ BSIZE at *
        omega
    · exact h.ok hi

/-- An image is well formed when the kernel boots from it, unless the entries of the root directory
fill their blocks. -/
theorem mkfs_wellFormed_iff (hlen : args.length ≤ NINODES - 2) (hm : mkfs args = some img) :
    ∃ sb s, fsinit img = some (sb, s) ∧
      (WellFormed sb s.disk ↔ (args.length + 2) * DIRENT % BSIZE ≠ 0) :=
  have hmade := made_of_mkfs hlen hm
  ⟨sb, booted img, hmade.fsinit, hmade.wellFormed_iff hlen⟩

/-- An empty file with a name of one byte. -/
def emptyFile (c : UInt8) (hc : c ≠ 0) : Arg where
  path := [c]
  reads := some []
  path_ne := by simpa using hc.symm
  reads_le bufs h := by
    cases h
    simp

/-- Sixty-two empty files, whose entries fill one block together with `"."` and `".."`. -/
def sixtyTwo : List Arg :=
  (List.finRange 62).map fun k : Fin 62 => emptyFile (UInt8.ofNat (128 + k.val)) (by revert k; decide)

theorem fits_sixtyTwo : Fits sixtyTwo where
  base a ha := by
    obtain ⟨k, -, rfl⟩ := List.mem_map.mp ha
    clear ha
    revert k
    decide
  opens a ha := by
    obtain ⟨k, -, rfl⟩ := List.mem_map.mp ha
    exact Option.some_ne_none _
  size a ha := by
    obtain ⟨k, -, rfl⟩ := List.mem_map.mp ha
    exact Nat.zero_le _
  total := by
    rw [total, length_rootBytes]
    decide

theorem mkfs_not_wellFormed : ∃ img sb s, sixtyTwo.length ≤ NINODES - 2 ∧
    (sixtyTwo.map Arg.name).Nodup ∧ mkfs sixtyTwo = some img ∧ fsinit img = some (sb, s) ∧
    (s.disk.dinode ROOTINO).size = 2 * BSIZE ∧ s.disk.slot (ROOTINO, some 1) = 0 ∧
    ¬ WellFormed sb s.disk := by
  have hlen : sixtyTwo.length ≤ NINODES - 2 := by decide
  obtain ⟨img, hm⟩ := (mkfs_iff_fits hlen).mpr fits_sixtyTwo
  have hmade := made_of_mkfs hlen hm
  refine ⟨img, sb, booted img, hlen, by decide, hm, hmade.fsinit, ?_, ?_, ?_⟩
  · rw [booted, hmade.root_size]
    decide
  · have := (hmade.mapped_root 1).not.mpr (by decide)
    exact not_not.mp this
  · rw [booted, hmade.wellFormed_iff hlen]
    decide

/-- The file `user/_ls`, read in two pieces. -/
def lsFile : Arg where
  path := [117, 115, 101, 114, 47, 95, 108, 115]
  reads := some [[127], [69, 76, 70]]
  path_ne := by decide
  reads_le bufs h := by
    cases h
    decide

theorem fits_lsFile : Fits [lsFile] where
  base := by decide
  opens := by decide
  size := by decide
  total := by
    rw [total, length_rootBytes]
    decide

theorem mkfs_wellFormed_ls : ∃ img, mkfs [lsFile] = some img ∧
    ∃ sb s, fsinit img = some (sb, s) ∧ WellFormed sb s.disk := by
  obtain ⟨img, hm⟩ := (mkfs_iff_fits (by decide)).mpr fits_lsFile
  obtain ⟨sb, s, hs, hw⟩ := mkfs_wellFormed_iff (by decide) hm
  exact ⟨img, hm, sb, s, hs, hw.mpr (by decide)⟩

/-! ## Reading the files -/

variable {Q : Iptr → Fs.State → Prop}

section Read

variable {sb : Superblock} {s : Fs.State} {dp ip : Iptr} {E : Halt → Fs.State → Prop} {nd : Node}
  {k n dev inum : ℕ}

/-- `dirlookup` comes to the first entry with the name if the blocks up to it are there. -/
theorem wp_dirlookupFrom_mapped {Q : Option (Iptr × ℕ) → Fs.State → Prop}
    (ht : (s.itable dp).type ≠ 0) (hheld : s.held = [])
    (hnd : (s.flush dp).nodes (s.itable dp).inum = nd) (hmax : nd.size ≤ MAXFILE * BSIZE)
    (hmap : ∀ j' ≤ k, nd.mapped (j' * DIRENT / BSIZE) = true) (hk : nd.Named name k)
    (hno : ∀ j' < k, ¬ nd.Named name j') (hj : j ≤ k) (hn : k < j + n)
    (hQ : wp (iget (s.itable dp).dev (nd.inum k)) E (fun ip s' => Q (some (ip, k * DIRENT)) s') s) :
    wp (dirlookupFrom sb dp name ((List.range' j n).map (· * DIRENT))) E Q s := by
  induction n generalizing j with
  | zero => omega
  | succ n ih =>
    have hentry := hk.1
    rw [List.range'_succ, List.map_cons, dirlookupFrom, wp_bind]
    refine wp_readDirent_mapped ht hheld hnd hmax (by omega) (hmap j hj) ?_
    have hnext : ¬ nd.Named name j → wp (dirlookupFrom sb dp name
        ((List.range' (j + 1) n).map (· * DIRENT))) E Q s := fun hne =>
      ih (Nat.lt_of_le_of_ne hj fun e => hne (e ▸ hk)) (by omega)
    rw [wp_ite]
    refine ⟨fun h₀ => hnext fun hj => hj.2.1 h₀, fun h₀ => ?_⟩
    rw [wp_ite, namecmp_eq_zero]
    refine ⟨fun hname => ?_, fun hname => hnext fun hj => hname hj.2.2.symm⟩
    obtain rfl : j = k := by
      by_contra hne
      exact hno j (by omega) ⟨by omega, h₀, hname.symm⟩
    rw [wp_bind, wp_getInode, wp_bind]
    exact hQ

/-- `iget` of an inode that is not in the table. -/
theorem wp_iget_new
    (hnone : ∀ k, ¬ (0 < (s.itable k).ref ∧ (s.itable k).dev = dev ∧ (s.itable k).inum = inum))
    (hfree : ∃ k, (s.itable k).ref = 0)
    (hQ : ∀ ip s', (s.itable ip).ref = 0 → s'.disk = s.disk → s'.held = s.held →
      s'.itable = update s.itable ip
        { s.itable ip with dev := dev, inum := inum, ref := 1, valid := false } → Q ip s') :
    wp (iget dev inum) E Q s := by
  have h₁ : (List.finRange NINODE).find? (fun k =>
      0 < (s.itable k).ref ∧ (s.itable k).dev = dev ∧ (s.itable k).inum = inum) = none :=
    List.find?_eq_none.mpr fun k _ => by simpa using hnone k
  obtain ⟨ip, h₂⟩ : ∃ ip, (List.finRange NINODE).find? (fun k => (s.itable k).ref = 0) = some ip := by
    obtain ⟨k, hk⟩ := hfree
    refine Option.isSome_iff_exists.mp (List.find?_isSome.mpr ⟨k, List.mem_finRange k, ?_⟩)
    simpa using hk
  unfold wp iget
  rw [h₁]
  simp only [h₂]
  have := List.find?_some h₂
  exact hQ ip _ (by simpa using this) rfl rfl rfl

/-- `ilock` of an inode that has just been put into the table. -/
theorem wp_ilock_new {Q : Unit → Fs.State → Prop} (hheld : s.held = [])
    (href : (s.itable ip).ref = 1) (hlock : (s.itable ip).locked = false)
    (hvalid : (s.itable ip).valid = false)
    (ht : (s.disk.dinode (s.itable ip).inum).type ≠ 0)
    (hQ : ∀ s', s'.disk = s.disk → s'.held = [] → s'.itable = update s.itable ip
        { s.itable ip with
          toDinode := s.disk.dinode (s.itable ip).inum, locked := true, valid := true } →
      Q () s') : wp (ilock sb ip) E Q s := by
  unfold ilock
  rw [wp_bind, wp_getInode, wp_bind, wp_stopIf]
  refine ⟨fun hlt => by omega, fun _ => ?_⟩
  rw [wp_bind, wp_stopIf]
  refine ⟨fun hl => by simp [hlock] at hl, fun _ => ?_⟩
  rw [wp_bind, wp_modifyInode, wp_runIf]
  refine ⟨fun _ => ?_, fun hv => absurd hvalid hv⟩
  rw [wp_bind, wp_bread (by simp [hheld]), wp_bind, wp_get, wp_bind, wp_brelse, wp_bind,
    wp_modifyInode, wp_stopIf]
  refine ⟨fun h₀ => absurd h₀ ht, fun _ => hQ _ rfl hheld ?_⟩
  simp

end Read

/-- Look a name up in the root directory and read the file, with its type. -/
def readFile (sb : Superblock) (name : List UInt8) : K (Option (ℤ × List UInt8)) := do
  let dp ← iget ROOTDEV ROOTINO
  ilock sb dp
  match ← dirlookup sb dp name with
  | none => pure none
  | some (ip, _) => do
    ilock sb ip
    let n ← getInode ip
    let r ← readi sb ip (fun _ => true) 0 n.size
    pure (r.map fun bs => (n.type, bs))

/-- The inode number and the name of entry `j` of the root directory. -/
def entryOf (args : List Arg) : ℕ → ℕ × List UInt8
  | 0 => (ROOTINO, dot)
  | 1 => (ROOTINO, dotdot)
  | j + 2 => (j + 2, (args[j]?.map Arg.shortname).getD [])

theorem getD_entries {n i : ℕ} (hj : j < args.length) (hi : i < DIRENT) :
    (entries n args).getD (j * DIRENT + i) 0 =
      (dirent (n + j) ((args[j]?.map Arg.shortname).getD [])).getD i 0 := by
  induction args generalizing n j with
  | nil => cases hj
  | cons a args ih =>
    have hl := length_dirent n a.shortname
    rw [entries]
    cases j with
    | zero =>
      rw [Nat.zero_mul, Nat.zero_add, List.getD_append _ _ _ _ (by omega)]
      rfl
    | succ j =>
      rw [List.getD_append_right _ _ _ _ (by rw [hl, Nat.succ_mul]; omega), hl,
        show (j + 1) * DIRENT + i - DIRENT = j * DIRENT + i by rw [Nat.succ_mul]; omega,
        ih (Nat.lt_of_succ_lt_succ hj), List.getElem?_cons_succ, Nat.add_right_comm, Nat.add_assoc]

theorem getD_rootBytes {i : ℕ} (hj : j < args.length + 2) (hi : i < DIRENT) :
    (rootBytes args).getD (j * DIRENT + i) 0 =
      (dirent (entryOf args j).1 (entryOf args j).2).getD i 0 := by
  have h₁ := length_dirent ROOTINO dot
  have h₂ := length_dirent ROOTINO dotdot
  have h₁₂ : (dirent ROOTINO dot ++ dirent ROOTINO dotdot).length = 2 * DIRENT := by
    rw [List.length_append, h₁, h₂, Nat.two_mul]
  rw [rootBytes]
  match j with
  | 0 =>
    rw [Nat.zero_mul, Nat.zero_add, List.getD_append _ _ _ _ (by omega),
      List.getD_append _ _ _ _ (by omega)]
    rfl
  | 1 =>
    rw [Nat.one_mul, List.getD_append _ _ _ _ (by omega), List.getD_append_right _ _ _ _ (by omega),
      h₁, Nat.add_sub_cancel_left]
    rfl
  | j + 2 =>
    rw [List.getD_append_right _ _ _ _ (by rw [h₁₂, Nat.add_mul]; omega), h₁₂,
      show (j + 2) * DIRENT + i - 2 * DIRENT = j * DIRENT + i by rw [Nat.add_mul]; omega,
      getD_entries (by omega) hi, Nat.add_comm 2]
    rfl

theorem canon_of_ne {p : List UInt8} (h : ∀ c ∈ p, c ≠ 0) : canon p = p.take DIRSIZ := by
  unfold canon cut
  rw [List.takeWhile_eq_self_iff]
  exact fun c hc => by simpa using h c (List.mem_of_mem_take hc)

theorem Arg.shortname_ne (a : Arg) : ∀ c ∈ a.shortname, c ≠ 0 := by
  have hbase : ∀ c ∈ a.base, c ≠ 0 := fun c hc h₀ => by
    subst h₀
    simp only [Arg.base] at hc
    split_ifs at hc
    · exact a.path_ne (List.mem_of_mem_drop hc)
    · exact a.path_ne hc
  intro c hc
  unfold Arg.shortname at hc
  split_ifs at hc
  · exact hbase c (List.mem_of_mem_drop hc)
  · exact hbase c hc

theorem Arg.canon_shortname (a : Arg) : canon a.shortname = a.name := canon_of_ne a.shortname_ne

theorem Arg.canon_name (a : Arg) : canon a.name = a.name := by
  unfold Arg.name
  rw [canon_of_ne fun c hc => a.shortname_ne c (List.mem_of_mem_take hc), List.take_take,
    Nat.min_self]

/-- The entries of the root directory. -/
theorem Made.entry (h : Made img args) (hlen : args.length ≤ NINODES - 2)
    (hj : j < args.length + 2) :
    ((Disk.ofImage sb img).nodes ROOTINO).inum j = (entryOf args j).1 ∧
      canon (((Disk.ofImage sb img).nodes ROOTINO).name j) = canon (entryOf args j).2 := by
  have hx : (entryOf args j).1 < 65536 := by
    match j with
    | 0 => exact Nat.one_lt_two_pow (by decide : 16 ≠ 0)
    | 1 => exact Nat.one_lt_two_pow (by decide : 16 ≠ 0)
    | j + 2 =>
      change j + 2 < 65536
      unfold NINODES at hlen
      omega
  have hdata : ∀ i < DIRENT, ((Disk.ofImage sb img).nodes ROOTINO).byte (j * DIRENT + i) =
      (dirent (entryOf args j).1 (entryOf args j).2).getD i 0 := fun i hi => by
    rw [h.nodes]
    exact getD_rootBytes hj hi
  obtain ⟨h₁, h₂⟩ := Node.entry_of_bytes _ length_strncpy hx hdata
  exact ⟨h₁, by rw [h₂]; exact cut_strncpy⟩

/-- A name leads to the entry of its file and to no entry before it. -/
theorem Made.named (h : Made img args) (hlen : args.length ≤ NINODES - 2)
    (hnames : (args.map Arg.name).Nodup) (hj : j < args.length) (hdot : args[j].name ≠ dot)
    (hdotdot : args[j].name ≠ dotdot) :
    ((Disk.ofImage sb img).nodes ROOTINO).Named args[j].name (j + 2) ∧
      ∀ j' < j + 2, ¬ ((Disk.ofImage sb img).nodes ROOTINO).Named args[j].name j' := by
  have hname : ∀ k (hk : k < args.length), canon (entryOf args (k + 2)).2 = args[k].name :=
    fun k hk => by
      rw [entryOf, List.getElem?_eq_getElem hk, Option.map_some, Option.getD_some,
        Arg.canon_shortname]
  constructor
  · obtain ⟨h₁, h₂⟩ := h.entry hlen (show j + 2 < args.length + 2 by omega)
    refine ⟨?_, by rw [h₁]; exact Nat.succ_ne_zero _, by rw [h₂, hname j hj, Arg.canon_name]⟩
    have hs := h.root_size
    rw [← congrArg Attr.size (Disk.nodes_toAttr h.root_type)] at hs
    rw [Node.entries, hs]
    unfold DIRENT DIRSIZ BSIZE
    omega
  · intro j' hj' hn
    have hc := hn.2.2
    rw [(h.entry hlen (show j' < args.length + 2 by omega)).2, Arg.canon_name] at hc
    obtain rfl | rfl | ⟨k, rfl⟩ : j' = 0 ∨ j' = 1 ∨ ∃ k, j' = k + 2 := by
      obtain hlt | hle := Nat.lt_or_ge j' 2
      · omega
      · exact .inr (.inr ⟨j' - 2, by omega⟩)
    · exact hdot hc.symm
    · exact hdotdot hc.symm
    · have hk : k < args.length := by omega
      rw [hname k hk] at hc
      have hk' : k < (args.map Arg.name).length := by rwa [List.length_map]
      have hj'' : j < (args.map Arg.name).length := by rwa [List.length_map]
      have he : (args.map Arg.name)[k] = (args.map Arg.name)[j] := by simpa using hc
      have := hnames.getElem_inj_iff.mp he
      omega

/-- The contents of a file are its bytes. -/
theorem Made.content (h : Made img args) (hj : j < args.length) :
    (Disk.ofImage sb img).nodes (j + 2) = fileNode (some (T_FILE, args[j].content)) := by
  have hne : j + 2 ≠ 1 := by omega
  rw [h.nodes, madeNode, if_neg hne, files, List.getElem?_eq_getElem hj, Option.map_some]

theorem read_filled (a : Attr) (bs : List UInt8) : (filled a bs).read 0 bs.length = bs := by
  refine List.ext_getElem (by simp) fun i h₁ h₂ => ?_
  simp [Node.read, filled, List.getElem?_eq_getElem h₂]

/-- The entry `ip` of the inode table has the inode `i` of the disk `D`. -/
structure Opened (D : Disk) (s : Fs.State) (ip : Iptr) (i : ℕ) : Prop where
  disk : s.disk = D
  held : s.held = []
  dinode : (s.itable ip).toDinode = D.dinode i
  inum : (s.itable ip).inum = i
  ref : (s.itable ip).ref = 1

theorem Opened.flush {D : Disk} {s : Fs.State} {ip : Iptr} (h : Opened D s ip i) :
    s.flush ip = D := by
  rw [Fs.State.flush, h.disk, h.dinode, h.inum, Disk.setDinode_self]

/-- Put an inode that is not in the table there and lock it. -/
theorem wp_open_new {E : Halt → Fs.State → Prop} {s : Fs.State} (hheld : s.held = [])
    (ht : (s.disk.dinode i).type ≠ 0) (hnone : ∀ k, 0 < (s.itable k).ref → (s.itable k).inum ≠ i)
    (hfree : ∃ k, (s.itable k).ref = 0)
    (hlock : ∀ k, (s.itable k).ref = 0 → (s.itable k).locked = false)
    (hQ : ∀ ip s', Opened s.disk s' ip i → (s'.itable ip).dev = ROOTDEV → (s.itable ip).ref = 0 →
      (∀ k ≠ ip, s'.itable k = s.itable k) → Q ip s') :
    wp (iget ROOTDEV i) E (fun ip s' => wp (ilock sb ip) E (fun _ s'' => Q ip s'') s') s := by
  refine wp_iget_new (fun k hk => hnone k hk.1 hk.2.2) hfree fun ip s₁ href hd₁ hh₁ ht₁ => ?_
  have hip := congrFun ht₁ ip
  rw [update_self] at hip
  refine wp_ilock_new (hh₁.trans hheld) (by rw [hip]) (by rw [hip]; exact hlock ip href) (by rw [hip])
    ?_ fun s₂ hd₂ hh₂ ht₂ => ?_
  · rw [hip, hd₁]
    exact ht
  · have hip₂ := congrFun ht₂ ip
    rw [update_self, hip, hd₁] at hip₂
    refine hQ ip s₂ ⟨hd₂.trans hd₁, hh₂, by rw [hip₂], by rw [hip₂], by rw [hip₂]⟩ (by rw [hip₂])
      href fun k hk => ?_
    rw [ht₂, update_of_ne hk, ht₁, update_of_ne hk]

/-- The kernel reads the files back. -/
theorem Made.wp_readFile (h : Made img args) (hlen : args.length ≤ NINODES - 2)
    (hnames : (args.map Arg.name).Nodup) (hj : j < args.length) (hdot : args[j].name ≠ dot)
    (hdotdot : args[j].name ≠ dotdot) :
    wp (readFile sb args[j].name) (fun _ _ => False)
      (fun r _ => r = some (T_FILE, args[j].content)) (booted img) := by
  obtain ⟨D, hD⟩ : ∃ D, D = Disk.ofImage sb img := ⟨_, rfl⟩
  obtain ⟨hnamed, hbefore⟩ := h.named hlen hnames hj hdot hdotdot
  have hsize := h.root_size
  have hinum := (h.entry hlen (show j + 2 < args.length + 2 by omega)).1
  have hmapped := h.mapped_root
  have hnode := h.content hj
  have hroot : ((Disk.ofImage sb img).nodes ROOTINO).type = T_DIR := by
    rw [h.nodes]
    rfl
  have hok : ((Disk.ofImage sb img).nodes (j + 2)).Ok := h.ok (by unfold ROOTINO; omega)
  have hdisk : (booted img).disk = D := hD.symm
  rw [← hD] at hnamed hbefore hsize hinum hmapped hnode hroot hok
  have hft : (D.nodes (j + 2)).type = T_FILE := by
    rw [hnode]
    rfl
  rw [Disk.nodes_type] at hroot hft
  have hrs := congrArg Attr.size (Disk.nodes_toAttr (D := D) (i := ROOTINO) (by rw [hroot]; decide))
  rw [hsize] at hrs
  unfold readFile
  rw [wp_bind]
  simp only [wp_bind]
  refine wp_open_new rfl (by rw [hdisk, hroot]; decide) (fun k hk => by simp [booted] at hk) ⟨0, rfl⟩
    (fun _ _ => rfl) fun dp s₁ ho₁ hdev₁ _ hother₁ => ?_
  rw [hdisk] at ho₁
  have hty : (s₁.itable dp).type = T_DIR := by rw [ho₁.dinode, hroot]
  have hsz : (s₁.itable dp).size = (DIRENT * (args.length + 2) / BSIZE + 1) * BSIZE := by
    rw [ho₁.dinode, hsize]
  unfold dirlookup
  rw [wp_bind, wp_getInode, wp_bind, wp_stopIf]
  refine ⟨fun hne => absurd hty hne, fun _ => ?_⟩
  rw [offsets_eq (by rw [hsz]; unfold DIRENT DIRSIZ BSIZE; omega), hsz]
  refine wp_dirlookupFrom_mapped (by rw [hty]; decide) ho₁.held (by rw [ho₁.flush, ho₁.inum]) ?_
    (fun j' hj' => ?_) hnamed hbefore (Nat.zero_le _) ?_ ?_
  · rw [hrs]
    unfold DIRENT DIRSIZ NINODES MAXFILE NDIRECT NINDIRECT BSIZE at *
    omega
  · rw [Disk.nodes_mapped, decide_eq_true_eq, hmapped]
    unfold DIRENT DIRSIZ BSIZE
    omega
  · unfold DIRENT DIRSIZ BSIZE
    omega
  rw [hinum, hdev₁]
  simp only [wp_bind]
  refine wp_open_new ho₁.held ?_ (fun k hk => ?_) ?_ (fun k hk => ?_) fun ip s₂ ho₂ _ _ _ => ?_
  · rw [ho₁.disk]
    change (D.dinode (j + 2)).type ≠ 0
    rw [hft]
    decide
  · rcases eq_or_ne k dp with rfl | hne
    · rw [ho₁.inum]
      change 1 ≠ j + 2
      omega
    · rw [hother₁ k hne] at hk
      exact absurd hk (lt_irrefl 0)
  · obtain ⟨k, hk⟩ := exists_ne dp
    exact ⟨k, by rw [hother₁ k hk]; rfl⟩
  · rcases eq_or_ne k dp with rfl | hne
    · rw [ho₁.ref] at hk
      cases hk
    · rw [hother₁ k hne]
      rfl
  · rw [ho₁.disk] at ho₂
    change Opened D s₂ ip (j + 2) at ho₂
    have hnsz : (D.nodes (j + 2)).size = args[j].content.length := by
      rw [hnode]
      rfl
    have hlenf : (s₂.itable ip).size = args[j].content.length := by
      have := congrArg Attr.size (Disk.nodes_toAttr (D := D) (i := j + 2) (by rw [hft]; decide))
      rw [ho₂.dinode, ← this, hnsz]
    have hle := hok.size_le
    have hmax : MAXFILE * BSIZE < 2 ^ 31 := by decide
    rw [wp_getInode]
    refine wp_readi (by rw [ho₂.dinode, hft]; decide) ho₂.held (by rw [ho₂.flush, ho₂.inum]) hok
      (by decide) (by omega) fun r hr => ?_
    rw [hlenf, hnsz, if_neg (by omega), if_pos (fun _ _ => rfl), Nat.sub_zero, Nat.min_self, hnode] at hr
    rw [wp_pure, hr, Option.map_some, ho₂.dinode, hft]
    exact congrArg (fun bs => some (T_FILE, bs)) (read_filled ..)

/-- Every file is found under its name, with the bytes it had. -/
theorem mkfs_round_trip (hlen : args.length ≤ NINODES - 2) (hnames : (args.map Arg.name).Nodup)
    (hdots : ∀ a ∈ args, a.name ≠ dot ∧ a.name ≠ dotdot) (hm : mkfs args = some img) :
    ∃ sb s, fsinit img = some (sb, s) ∧ ∀ a ∈ args, wp (readFile sb a.name) (fun _ _ => False)
      (fun r _ => r = some (T_FILE, a.content)) s := by
  have hmade := made_of_mkfs hlen hm
  refine ⟨sb, booted img, hmade.fsinit, fun a ha => ?_⟩
  obtain ⟨j, hj, rfl⟩ := List.getElem_of_mem ha
  obtain ⟨hdot, hdotdot⟩ := hdots _ ha
  exact hmade.wp_readFile hlen hnames hj hdot hdotdot

theorem mkfs_round_trip_ls : ∃ img, mkfs [lsFile] = some img ∧ ∃ sb s, fsinit img = some (sb, s) ∧
    wp (readFile sb [108, 115]) (fun _ _ => False) (fun r _ => r = some (T_FILE, [127, 69, 76, 70])) s := by
  obtain ⟨img, hm⟩ := (mkfs_iff_fits (by decide)).mpr fits_lsFile
  obtain ⟨sb, s, hs, hr⟩ := mkfs_round_trip (by decide) (by decide) (by decide) hm
  exact ⟨img, hm, sb, s, hs, hr lsFile List.mem_cons_self⟩

end Xv6.Mkfs

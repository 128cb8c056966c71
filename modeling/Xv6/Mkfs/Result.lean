import Xv6.Fs.Entries
import Xv6.Mkfs.Image

/-! # What `mkfs` makes

For a list of files that fit, `mkfs` exits with status 0, and the image then
holds the root directory and the files, with as many blocks in use as they need.
-/

namespace Xv6.Mkfs

open Fs Function

variable {s s' : State} {E : Exit → State → Prop} {inum n : ℕ} {bs : List UInt8}
  {bufs : List (List UInt8)} {a : Arg} {args pre : List Arg} {C : Files}

/-- The bytes of a file. -/
def Arg.content (a : Arg) : List UInt8 := (a.reads.getD []).flatten

/-- The part of a file's name that its directory entry holds. -/
def Arg.name (a : Arg) : List UInt8 := a.shortname.take DIRSIZ

/-- The entries of the files, from inode `n` on. -/
def entries : ℕ → List Arg → List UInt8
  | _, [] => []
  | n, a :: args => dirent n a.shortname ++ entries (n + 1) args

/-- The contents of the root directory. -/
@[grind =] def rootBytes (args : List Arg) : List UInt8 :=
  dirent ROOTINO dot ++ dirent ROOTINO dotdot ++ entries 2 args

/-- The root directory is inode 1 and the files follow. -/
@[grind =] def files (args : List Arg) : Files
  | 0 => none
  | 1 => some (T_DIR, rootBytes args)
  | i + 2 => args[i]?.map fun a => (T_FILE, a.content)

/-- The first block that is free in the end. -/
def total (args : List Arg) : ℕ :=
  nmeta + need (rootBytes args).length + (args.map fun a => need a.content.length).sum

/-- The files can be opened, are not too large and have enough blocks. -/
structure Fits (args : List Arg) : Prop where
  base : ∀ a ∈ args, slash ∉ a.base
  opens : ∀ a ∈ args, a.reads ≠ none
  size : ∀ a ∈ args, a.content.length ≤ MAXFILE * BSIZE
  total : total args ≤ FSSIZE

theorem length_dirent (n : ℕ) (name : List UInt8) : (dirent n name).length = DIRENT := by
  rw [dirent, Dirent.toBytes, List.length_cons, List.length_cons, length_strncpy]
  rfl

theorem length_entries (n : ℕ) (args : List Arg) :
    (entries n args).length = DIRENT * args.length := by
  induction args generalizing n with
  | nil => rfl
  | cons a args ih => rw [entries, List.length_append, length_dirent, ih, List.length_cons]; ring

theorem length_rootBytes (args : List Arg) :
    (rootBytes args).length = DIRENT * (args.length + 2) := by
  rw [rootBytes, List.length_append, List.length_append, length_dirent, length_dirent,
    length_entries]
  ring

theorem entries_append (n : ℕ) (args args' : List Arg) :
    entries n (args ++ args') = entries n args ++ entries (n + args.length) args' := by
  induction args generalizing n with
  | nil => rfl
  | cons a args ih =>
    rw [List.cons_append, entries, entries, ih, List.append_assoc, List.length_cons,
      Nat.add_right_comm, Nat.add_assoc]

theorem rootBytes_concat (args : List Arg) (a : Arg) :
    rootBytes (args ++ [a]) = rootBytes args ++ dirent (args.length + 2) a.shortname := by
  rw [rootBytes, rootBytes, entries_append, entries, entries, List.append_nil, ← List.append_assoc,
    Nat.add_comm 2]

theorem files_concat (args : List Arg) (a : Arg) : files (args ++ [a]) =
    update (update (files args) 1 (some (T_DIR, rootBytes (args ++ [a]))))
      (args.length + 2) (some (T_FILE, a.content)) := by
  funext i
  match i with
  | 0 => simp [files]
  | 1 => simp [files]
  | i + 2 =>
    rw [update_apply, update_of_ne (by omega)]
    simp only [files, Nat.add_left_inj]
    split_ifs with hi
    · simp [hi]
    · rcases Nat.lt_or_ge i args.length with hlt | hge
      · rw [List.getElem?_append_left hlt]
      · rw [List.getElem?_append_right hge, List.getElem?_eq_none hge,
          List.getElem?_eq_none (by simp; omega)]

theorem total_concat (args : List Arg) (a : Arg) : total (args ++ [a]) + need (rootBytes args).length =
    total args + need ((rootBytes args).length + DIRENT) + need a.content.length := by
  rw [total, total, rootBytes_concat, List.length_append, length_dirent, List.map_append,
    List.sum_append]
  simp only [List.map_cons, List.map_nil, List.sum_cons, List.sum_nil]
  omega

theorem total_le_append (args args' : List Arg) : total args ≤ total (args ++ args') := by
  have h := need_mono (m := (rootBytes args).length) (n := (rootBytes (args ++ args')).length) (by
    rw [length_rootBytes, length_rootBytes, List.length_append]
    exact Nat.mul_le_mul_left _ (by omega))
  rw [total, total, List.map_append, List.sum_append]
  omega

variable {Q : Unit → State → Prop}

/-- The pieces of a file come one after the other. -/
theorem wp_copyFile {t : ℤ} (h : Holds s C) (hC : C inum = some (t, bs)) (hi : inum < NINODES)
    (hover : Over s bs.length bufs.flatten.length → ∀ e s', E e s')
    (hQ : ∀ s', Holds s' (update C inum (some (t, bs ++ bufs.flatten))) →
      s'.freeinode = s.freeinode → s'.freeblock + need bs.length = s.freeblock + need (bs.length +
      bufs.flatten.length) → Q () s') :
    wp (copyFile inum bufs) E Q s := by
  induction bufs generalizing s C bs with
  | nil =>
    refine hQ s ?_ rfl (by simp)
    rwa [List.flatten_nil, List.append_nil, ← hC, update_eq_self]
  | cons buf bufs ih =>
    rw [List.flatten_cons, List.length_append] at hover
    have hmono := need_mono (show bs.length + buf.length ≤
      bs.length + (buf.length + bufs.flatten.length) by omega)
    unfold copyFile
    rw [wp_bind]
    refine wp_iappend h hC hi (fun ho => hover ?_) fun s₁ h₁ hi₁ hf₁ => ?_
    · unfold Over at ho ⊢
      omega
    · refine ih h₁ (update_self ..) (fun ho => hover ?_) fun s₂ h₂ hi₂ hf₂ => ?_
      · unfold Over at ho ⊢
        rw [List.length_append, Nat.add_assoc] at ho
        omega
      · rw [update_idem, List.append_assoc] at h₂
        rw [List.length_append, Nat.add_assoc] at hf₂
        refine hQ s₂ (by rwa [List.flatten_cons]) (hi₂.trans hi₁) ?_
        rw [List.flatten_cons, List.length_append]
        omega

/-- After the files `args`. -/
structure Added (s : State) (args : List Arg) : Prop extends Holds s (files args) where
  freeinode : s.freeinode = args.length + 2
  freeblock : s.freeblock = total args
  base : ∀ a ∈ args, slash ∉ a.base
  opens : ∀ a ∈ args, a.reads ≠ none

theorem Added.fits (h : Added s args) : Fits args where
  base := h.base
  opens := h.opens
  size a ha := by
    obtain ⟨i, hi, rfl⟩ := List.getElem_of_mem ha
    refine h.size (i + 2) T_FILE _ ?_
    simp [files, hi]
  total := h.freeblock ▸ h.le

theorem wp_addFile (h : Added s pre) (hlen : pre.length < NINODES - 2)
    (hbad : ¬ (slash ∉ a.base ∧ a.reads ≠ none ∧ a.content.length ≤ MAXFILE * BSIZE ∧
      total (pre ++ [a]) ≤ FSSIZE) → ∀ e s', E e s')
    (hQ : ∀ s', Added s' (pre ++ [a]) → Q () s') : wp (addFile ROOTINO a) E Q s := by
  have htotal := total_concat pre a
  have hroot := length_rootBytes pre
  unfold addFile
  rw [wp_bind, wp_stopIf]
  refine ⟨fun hs => hbad (fun hok => hok.1 hs) _ _, fun hbase => ?_⟩
  cases hr : a.reads with
  | none => exact hbad (fun hok => hok.2.1 hr) _ _
  | some bufs =>
    have hcontent : a.content = bufs.flatten := by rw [Arg.content, hr, Option.getD_some]
    have hino : s.freeinode < NINODES := by
      rw [h.freeinode]
      omega
    simp only
    rw [wp_bind]
    refine wp_ialloc h.toHolds (by decide) (by decide) hino fun s₁ h₁ hi₁ hf₁ => ?_
    rw [h.freeinode] at h₁ ⊢
    have hC₁ : update (files pre) (pre.length + 2) (some ((T_FILE.toNat : ℤ), [])) ROOTINO =
        some (T_DIR, rootBytes pre) := by
      rw [update_of_ne (by unfold ROOTINO; omega)]
      rfl
    rw [wp_bind]
    refine wp_iappend h₁ hC₁ (by decide) (fun ho => ?_) fun s₂ h₂ hi₂ hf₂ => ?_
    · refine hbad (fun hok => ?_)
      have := hok.2.2.2
      rw [length_dirent] at ho
      unfold Over at ho
      rw [hf₁, h.freeblock] at ho
      rcases ho with ho | ho
      · unfold DIRENT DIRSIZ NINODES MAXFILE NDIRECT NINDIRECT BSIZE at *
        omega
      · omega
    · rw [length_dirent, hf₁, h.freeblock] at hf₂
      have hC₂ : update (update (files pre) (pre.length + 2)
          (some ((T_FILE.toNat : ℤ), []))) ROOTINO (some (T_DIR, rootBytes pre ++
          dirent (pre.length + 2) a.shortname)) (pre.length + 2) = some (T_FILE, []) := by
        rw [update_of_ne (by unfold ROOTINO; omega), update_self]
        rfl
      refine wp_copyFile h₂ hC₂ (by rw [h.freeinode] at hino; exact hino) (fun ho => ?_)
        fun s₃ h₃ hi₃ hf₃ => ?_
      · refine hbad (fun hok => ?_)
        obtain ⟨-, -, h₃, h₄⟩ := hok
        have h₀ : need 0 = 0 := rfl
        unfold Over at ho
        rw [List.length_nil, Nat.zero_add, ← hcontent, h₀] at ho
        omega
      · have h₀ : need 0 = 0 := rfl
        rw [List.length_nil, Nat.zero_add, ← hcontent, h₀] at hf₃
        rw [List.nil_append, ← hcontent] at h₃
        refine hQ s₃ ⟨?_, ?_, by omega, fun a' ha => ?_, fun a' ha => ?_⟩
        · rw [files_concat, rootBytes_concat]
          have hcomm : update (update (update (files pre)
              (pre.length + 2) (some ((T_FILE.toNat : ℤ), []))) ROOTINO
              (some (T_DIR, rootBytes pre ++ dirent (pre.length + 2) a.shortname)))
              (pre.length + 2) (some (T_FILE, a.content)) =
              update (update (files pre) 1
              (some (T_DIR, rootBytes pre ++ dirent (pre.length + 2) a.shortname)))
              (pre.length + 2) (some (T_FILE, a.content)) := by
            have hne : (1 : ℕ) ≠ pre.length + 2 := by omega
            rw [update_comm hne, update_idem, update_comm hne.symm]
          rw [← hcomm]
          exact h₃
        · rw [hi₃, hi₂, hi₁, h.freeinode, List.length_append, List.length_singleton,
            Nat.add_right_comm]
        · rcases List.mem_append.mp ha with ha | ha
          · exact h.base a' ha
          · rwa [List.mem_singleton.mp ha]
        · rcases List.mem_append.mp ha with ha | ha
          · exact h.opens a' ha
          · rw [List.mem_singleton.mp ha, hr]
            exact Option.some_ne_none _

theorem wp_addFiles (h : Added s pre) (hlen : pre.length + args.length ≤ NINODES - 2)
    (hbad : ¬ Fits (pre ++ args) → ∀ e s', E e s') (hQ : ∀ s', Added s' (pre ++ args) → Q () s') :
    wp (addFiles ROOTINO args) E Q s := by
  induction args generalizing s pre with
  | nil => exact hQ s (by rwa [List.append_nil])
  | cons a args ih =>
    rw [List.length_cons] at hlen
    have hsplit : pre ++ a :: args = (pre ++ [a]) ++ args := by simp
    unfold addFiles
    rw [wp_bind]
    refine wp_addFile h (by omega) (fun hno => hbad fun hfit => hno ?_) fun s₁ h₁ => ?_
    · have ha : a ∈ pre ++ a :: args := by simp
      have := hfit.total
      rw [hsplit] at this
      exact ⟨hfit.base a ha, hfit.opens a ha, hfit.size a ha,
        (total_le_append (pre ++ [a]) args).trans this⟩
    · rw [hsplit] at hbad hQ
      exact ih h₁ (by rw [List.length_append, List.length_singleton]; omega) hbad hQ

/-! ## The whole run -/

theorem wp_clear {i : ℕ} (hn : i + n < 2 ^ 22) (hi : s.len = i) (himg : s.img = fun _ => Bytes.zero)
    (hQ : Q () { s with len := i + n }) : wp (clear n i) E Q s := by
  induction n generalizing s i with
  | zero =>
    rw [Nat.add_zero, ← hi] at hQ
    rw [clear_zero, wp_pure]
    exact hQ
  | succ n ih =>
    have hz : update s.img i Bytes.zero = s.img := by
      rw [himg, update_eq_self_iff]
    have hl : max s.len (i + 1) = i + 1 := by omega
    rw [clear_succ, wsect, wp_bind, wp_modify, seek_eq (by omega), hz, hl]
    refine ih (by omega) rfl himg ?_
    rw [Nat.add_right_comm]
    exact hQ

/-- Before the first file. -/
def blank : State where
  img := update (fun _ => Bytes.zero) 1 sbBlock
  len := FSSIZE
  freeinode := 1
  freeblock := nmeta

theorem blank_img {b : ℕ} (hb : b ≠ 1) : blank.img b = Bytes.zero := by
  unfold blank
  dsimp only
  rw [update_of_ne hb]

theorem blank_type (i : ℕ) : (blank.disk.dinode i).type = 0 := by
  rw [State.disk_dinode]
  split_ifs
  · have : 32 ≤ iblock sb i := le_iblock
    rw [blank_img (by omega), Dinode.ofBytes, Bytes.get16_zero]
    rfl
  · rfl

theorem holds_blank : Holds blank fun _ => none where
  len := rfl
  lo := le_rfl
  le := by decide
  zero b hb := blank_img (by
    have : 46 ≤ b := hb
    omega)
  super := by simp [blank]
  header := blank_img (by decide)
  own := by
    have hs : ∀ x, blank.disk.slot x = 0 := fun x => Disk.slot_of_type (blank_type x.1) x.2
    refine ⟨by decide, fun x _ hx => absurd (hs x) hx, fun x hx => absurd (hs x) hx, fun b hb => ?_⟩
    rw [State.disk_bitmap, decide_eq_true_eq, datastart_eq]
    simp only [hs, exists_const]
    refine ⟨Or.inl, fun h => h.elim id fun h₀ => h₀ ▸ ?_⟩
    decide
  nodes i := Disk.nodes_of_type (blank_type i)
  ind i hi := absurd (blank_type i) hi
  type _ _ _ h := by cases h
  size _ _ _ h := by cases h
  fresh _ _ := rfl

/-- The size of the root directory in the end. -/
def rootSize (args : List Arg) : ℕ := ((rootBytes args).length / BSIZE + 1) * BSIZE

/-- The node of inode `i` of the image. -/
@[grind =] def madeNode (args : List Arg) (i : ℕ) : Node :=
  if i = ROOTINO then { fileNode (files args i) with size := rootSize args }
  else fileNode (files args i)

/-- What is on an image of the files `args`. -/
structure Made (img : ℕ → Block) (args : List Arg) : Prop where
  super : img 1 = sbBlock
  header : img 2 = Bytes.zero
  fits : Fits args
  own : Own sb (Disk.ofImage sb img)
  nodes : ∀ i, (Disk.ofImage sb img).nodes i = madeNode args i

theorem bit_usedBits {u b : ℕ} (hu : u ≤ BPB) : bit (usedBits u) b = decide (b < u) := by
  induction u with
  | zero => simp [bit, usedBits]
  | succ u ih =>
    have hi : u / 8 < BSIZE := by
      unfold BPB BSIZE at *
      omega
    have hp : 2 ^ (u % 8) < 256 := by
      calc 2 ^ (u % 8) < 2 ^ 8 := Nat.pow_lt_pow_right (by decide) (Nat.mod_lt _ (by decide))
        _ = 256 := by decide
    have hih := ih (by omega)
    unfold bit at hih ⊢
    rw [usedBits, Bytes.get_set hi]
    split_ifs with he
    · rw [UInt8.toNat_or, Nat.testBit_or, ← he, hih, UInt8.toNat_ofNat',
        Nat.mod_eq_of_lt (by simpa using hp), Nat.testBit_two_pow, Bool.eq_iff_iff]
      simp only [Bool.or_eq_true, decide_eq_true_eq]
      omega
    · rw [hih, decide_eq_decide]
      constructor
      · omega
      · intro hlt
        by_contra hge
        exact he (by rw [show b = u by omega])

/-- The bitmap of the image agrees with the blocks in use. -/
theorem own_ofImage {img : ℕ → Block} {D : Disk} (h : Own sb D)
    (hd : ∀ i, (Disk.ofImage sb img).dinode i = D.dinode i)
    (hx : ∀ b, (Disk.ofImage sb img).data b = D.data b)
    (hb : ∀ b < FSSIZE, (Disk.ofImage sb img).bitmap b = D.bitmap b) :
    Own sb (Disk.ofImage sb img) ∧ (Disk.ofImage sb img).nodes = D.nodes := by
  have hD : Disk.ofImage sb img = { D with bitmap := (Disk.ofImage sb img).bitmap } :=
    Disk.eq_of hd (fun _ => rfl) hx
  constructor
  · have hs : (Disk.ofImage sb img).slot = D.slot := by rw [hD]; rfl
    unfold Own
    rw [hs]
    exact ⟨h.pos, h.inj, h.area, fun b hb' => by rw [hb b hb']; exact h.used_iff b hb'⟩
  · rw [hD]
    rfl

theorem wp_fixSize (h : Added s args) (hlen : args.length ≤ NINODES - 2)
    (hQ : ∀ s', Base s' → Own sb s'.disk → (∀ i, s'.disk.nodes i = madeNode args i) →
      s'.freeblock = s.freeblock → Q () s') :
    wp (fixSize ROOTINO) E Q s := by
  have hroot : files args ROOTINO = some (T_DIR, rootBytes args) := rfl
  have hlt : rootSize args < 2 ^ 32 := by
    unfold rootSize
    rw [length_rootBytes]
    unfold DIRENT DIRSIZ BSIZE NINODES at *
    omega
  unfold fixSize
  rw [wp_bind]
  refine wp_rinode h.len (by decide) fun din hdin => ?_
  have hsz : din.get32 8 = (rootBytes args).length := by
    have := h.dinode_size hroot
    rw [← hdin] at this
    exact this
  simp only [hsz]
  refine wp_winode h.len (by decide) fun buf hdisk => ?_
  change _ = s.disk.setDinode ROOTINO (Dinode.ofBytes (din.set32 8 (rootSize args)) 0) at hdisk
  obtain ⟨d, hd⟩ : ∃ d : Dinode, d = { s.disk.dinode ROOTINO with size := rootSize args } :=
    ⟨_, rfl⟩
  rw [ofBytes_setSize hlt, hdin, ← hd] at hdisk
  have ht := h.dinode_ne hroot
  have haddrs : d.addrs = (s.disk.dinode ROOTINO).addrs := by rw [hd]
  have hdt : d.type ≠ 0 := by
    simp only [hd]
    exact ht
  refine hQ _ (Base.putInode h.toBase (by decide)) ?_ (fun i => ?_) rfl
  · rw [hdisk]
    exact h.own.setAttr haddrs ht hdt
  · rw [hdisk, Disk.nodes_setAttr haddrs ht hdt, update_apply, madeNode]
    split_ifs with hi
    · rw [h.nodes, hi, hroot]
      refine Node.eq_of ?_ (fun _ => rfl) fun _ => rfl
      have := Disk.nodes_toAttr ht
      rw [h.nodes, hroot] at this
      simp only [hd, ← this]
    · exact h.nodes i

theorem wp_balloc (h : Base s) (hfits : Fits args) (hown : Own sb s.disk)
    (hnodes : ∀ i, s.disk.nodes i = madeNode args i) (hQ : ∀ s', Made s'.img args → Q () s') :
    wp (balloc s.freeblock) E Q s := by
  have hle := h.le
  have hbm : sb.bmapstart = 45 := rfl
  have hbits : s.freeblock < BSIZE * 8 := lt_of_le_of_lt hle (by decide)
  unfold balloc
  rw [wp_bind, wp_stopIf]
  refine ⟨fun hno => absurd hbits hno, fun _ => wp_wsect (by decide) (by rw [h.len]; decide) (hQ _ ?_)⟩
  obtain ⟨img, himg⟩ : ∃ img, img = update s.img sb.bmapstart (usedBits s.freeblock) :=
    ⟨_, rfl⟩
  have hne : ∀ b ≠ sb.bmapstart, img b = s.img b := fun b hb => by
    rw [himg, update_of_ne hb]
  have hdinode : ∀ i, (Disk.ofImage sb img).dinode i = s.disk.dinode i := fun i => by
    change (if i < NINODES then _ else _) = if i < NINODES then _ else _
    split_ifs with hi
    · rw [hne _ (State.iblock_lt_bmap hi).ne]
    · rfl
  have hdata : ∀ b, (Disk.ofImage sb img).data b = s.disk.data b := fun b => by
    change (if nmeta ≤ b then _ else _) = if nmeta ≤ b then _ else _
    split_ifs with hb
    · rw [hne]
      have : 46 ≤ b := hb
      omega
    · rfl
  have hbitmap : ∀ b < FSSIZE, (Disk.ofImage sb img).bitmap b = s.disk.bitmap b := fun b hb => by
    have hlt : b < BPB := hb.trans (by decide)
    have hbb : bblock sb b = sb.bmapstart := by
      rw [bblock, Nat.div_eq_of_lt hlt, Nat.zero_add]
    rw [State.disk_bitmap, ← bit_usedBits hbits.le]
    simp only [Disk.ofImage, hbb, himg, update_self, Nat.mod_eq_of_lt hlt]
  obtain ⟨h₁, h₂⟩ := own_ofImage hown hdinode hdata hbitmap
  rw [State.put_img, ← himg]
  exact ⟨by rw [hne 1 (by decide), h.super], by rw [hne 2 (by decide), h.header], hfits,
    h₁, fun i => by rw [h₂, hnodes]⟩

theorem wp_main (hlen : args.length ≤ NINODES - 2) :
    wp (main args) (fun _ _ => ¬ Fits args) (fun _ s' => Made s'.img args) start := by
  unfold main
  rw [wp_bind]
  refine wp_clear (by decide) rfl rfl ?_
  rw [wp_bind]
  refine wp_wsect (by decide) (by decide) ?_
  change wp _ _ _ blank
  rw [wp_bind]
  refine wp_ialloc holds_blank (by decide) (by decide) (by decide) fun s₁ h₁ hi₁ hf₁ => ?_
  rw [wp_bind, wp_stopIf]
  refine ⟨fun hne => absurd rfl hne, fun _ => ?_⟩
  rw [wp_bind]
  refine wp_iappend h₁ (update_self ..) (by decide) (fun ho => ?_) fun s₂ h₂ hi₂ hf₂ => ?_
  · rw [length_dirent, Over, hf₁] at ho
    exact absurd ho (by decide)
  rw [wp_bind]
  refine wp_iappend h₂ (update_self ..) (by decide) (fun ho => ?_) fun s₃ h₃ hi₃ hf₃ => ?_
  · rw [length_dirent] at hf₂
    rw [List.nil_append, length_dirent, length_dirent, Over] at ho
    have hf : s₂.freeblock = nmeta + 1 := by
      rw [hf₁] at hf₂
      exact hf₂
    rw [hf] at ho
    exact absurd ho (by decide)
  rw [wp_bind]
  have hadded : Added s₃ [] := by
    refine ⟨?_, hi₃.trans (hi₂.trans hi₁), ?_, by simp, by simp⟩
    · have hfiles : files [] = update (update (update (fun _ => none)
          ROOTINO (some (T_DIR, []))) ROOTINO (some (T_DIR, [] ++ dirent ROOTINO dot))) ROOTINO
          (some (T_DIR, [] ++ dirent ROOTINO dot ++ dirent ROOTINO dotdot)) := by
        funext i
        match i with
        | 0 => rfl
        | 1 => simp [files, rootBytes, entries]
        | i + 2 =>
          have hne : i + 2 ≠ 1 := by omega
          simp [files, update_of_ne hne]
      rw [hfiles]
      exact h₃
    · rw [hf₁] at hf₂
      rw [List.nil_append, length_dirent, length_dirent] at hf₃
      rw [length_dirent] at hf₂
      have h₂' : s₂.freeblock = nmeta + 1 := hf₂
      have h₁' : need DIRENT = 1 := by decide
      rw [h₂', h₁'] at hf₃
      rw [total, length_rootBytes, List.map_nil, List.sum_nil, List.length_nil]
      have h₃' : need (DIRENT * (0 + 2)) = need (DIRENT + DIRENT) := rfl
      omega
  refine wp_addFiles hadded (by simpa using hlen) (fun hno _ _ => hno) fun s₄ h₄ => ?_
  rw [wp_bind]
  refine wp_fixSize h₄ hlen fun s₅ hb hown hn _ => ?_
  rw [wp_bind, wp_get]
  exact wp_balloc hb h₄.fits hown hn fun s₆ h₆ => h₆

theorem image_of_wp {m : M Unit} {P : (ℕ → Block) → Prop} {F : Prop}
    (h : wp m (fun _ _ => ¬ F) (fun _ s' => P s'.img) s) :
    (∀ img, image (m s) = some img → P img) ∧ (F → ∃ img, image (m s) = some img) := by
  rw [wp_iff] at h
  cases hm : m s with
  | ok u s' =>
    refine ⟨fun img himg => ?_, fun _ => ⟨_, rfl⟩⟩
    cases himg
    exact h.1 u s' hm
  | error e s' =>
    refine ⟨fun img himg => ?_, fun hF => absurd hF (h.2 e s' hm)⟩
    cases himg

/-- An image has the files on it. -/
theorem made_of_mkfs {img : ℕ → Block} (hlen : args.length ≤ NINODES - 2)
    (h : mkfs args = some img) : Made img args :=
  (image_of_wp (P := fun img => Made img args) (wp_main hlen)).1 img h

/-- The status is 0 exactly if the files fit. -/
theorem mkfs_iff_fits (hlen : args.length ≤ NINODES - 2) :
    (∃ img, mkfs args = some img) ↔ Fits args :=
  ⟨fun ⟨_, h⟩ => (made_of_mkfs hlen h).fits,
    (image_of_wp (P := fun img => Made img args) (wp_main hlen)).2⟩

end Xv6.Mkfs

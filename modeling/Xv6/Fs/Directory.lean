import Xv6.Fs.Table

/-! # Commands on locked inodes

What the commands of a system call do to the nodes while the invariant of the
inode table holds: reading and writing a locked inode, looking a name up in a
directory and adding an entry to it.
-/

namespace Xv6.Fs

open Function

variable {sb : Superblock} {B : Iptr → ℕ} {T : Iptr → ℕ × ℤ} {o : ℤ} {s s' : State} {R : List Ref}
  {X : Set ℕ} {ip dp : Iptr} {i d : ℕ} {nd : Node} {F : Halt → Prop} {Q : Unit → State → Prop}

section Write

variable {src : ℕ → Option UInt8} {off n : ℕ}

/-- Change attributes of a locked inode other than its type and its size, by `g`. -/
theorem wp_setAttr {n : Inode} (g : Attr → Attr) (h : Inv sb B T o s (⟨ip, i, true⟩ :: R) X)
    (ho : 1 ≤ o) (hF : F (.log .tooBig))
    (hn : n = { s.itable ip with toAttr := g (s.itable ip).toAttr })
    (ht : (g (s.disk.nodes i).toAttr).type = (s.disk.nodes i).type)
    (hs : (g (s.disk.nodes i).toAttr).size = (s.disk.nodes i).size)
    (hl : short (g (s.disk.nodes i).toAttr).nlink = (g (s.disk.nodes i).toAttr).nlink)
    (hQ : ∀ s', s'.disk.nodes = update s.disk.nodes i
        { s.disk.nodes i with toAttr := g (s.disk.nodes i).toAttr } →
      Inv sb B T o s' (⟨ip, i, true⟩ :: R) X → Q () s') :
    wp (iupdate sb ip) (fun e _ => F e) Q (s.setInode ip n) := by
  obtain ⟨hi, hd, hty, -⟩ := h.inode
  have htd : (s.disk.dinode i).type ≠ 0 := hd ▸ hty
  rw [← h.attr] at hn
  obtain ⟨a, ha⟩ : ∃ a, a = g (s.disk.nodes i).toAttr := ⟨_, rfl⟩
  rw [← ha] at hn ht hs hl hQ
  have hta : a.type ≠ 0 := by rwa [ht, Disk.nodes_type]
  subst hn
  refine wp_iupdate h.held (h.log.outstanding.symm ▸ ho) (fun _ => hF) fun l hlog => ?_
  simp only [State.setInode_itable, update_self, hi]
  obtain ⟨d, hd'⟩ : ∃ d : Dinode, d = { Inode.toDinode (s.itable ip) with toAttr := a } := ⟨_, rfl⟩
  have haddrs : d.addrs = (s.disk.dinode i).addrs := by rw [hd', ← hd]
  have hdt : d.type ≠ 0 := by rwa [hd']
  have hnodes : (s.disk.setDinode i d).nodes =
      update s.disk.nodes i { s.disk.nodes i with toAttr := a } := by
    rw [Disk.nodes_setAttr haddrs htd hdt, hd']
  rw [← hd']
  refine hQ _ hnodes (h.change (d := d) h.held (h.log.logged hlog ho) ?_ rfl ?_
    (h.own.setAttr haddrs htd hdt) hnodes ?_ hl (fun hT hX => ?_) fun j hj _ => hj)
  · simp [hd', hi]
  · rw [hd', ht, congrArg Attr.type h.attr]
  · exact ⟨hs ▸ (h.node i).size_le, fun bn hbn => (h.node i).mapped bn (hs ▸ hbn)⟩
  · exact (h.dir i hX (ht ▸ hT)).congr hs rfl

/-- `writei` to a locked inode. The invariant holds again if a directory is still well-formed. -/
theorem wp_writei_locked {Q : ℤ → State → Prop} (hsb : sb.Valid)
    (h : Inv sb B T o s (⟨ip, i, true⟩ :: R) X) (ho : 1 ≤ o) (hnd : s.disk.nodes i = nd)
    (hoff : off < 2 ^ 32) (hn : n < 2 ^ 32) (hF : F (.log .tooBig))
    (hbad : nd.size < off ∨ MAXFILE * BSIZE < off + n → Q (-1) s)
    (hok : ∀ k s' nd₁, off ≤ nd.size → off + n ≤ MAXFILE * BSIZE → Wrote nd nd₁ src off n k →
      s'.disk.nodes = update s.disk.nodes i { nd₁ with size := max nd.size (off + k) } →
      (k < n → (∀ j < n, (src j).isSome) →
        (k = 0 ∨ (off + k) % BSIZE = 0) ∧ nd.mapped ((off + k) / BSIZE) = false) →
      ((nd.type = T_DIR → i ∉ X → Node.IsDir { nd₁ with size := max nd.size (off + k) } i) →
        Inv sb B T o s' (⟨ip, i, true⟩ :: R) X) → Q k s') :
    wp (writei sb ip src off n) (fun e _ => F e) Q s := by
  obtain ⟨hi, hd, hty, -⟩ := h.inode
  have hsize : (s.itable ip).size = nd.size := by rw [← hnd, congrArg Attr.size h.attr]
  refine wp_writei hsb (h.ready ho) hoff hn (fun _ => hF) (fun hb => hbad (hsize ▸ hb))
    fun k s' h₁ h₂ hw => ?_
  rw [hsize] at h₁
  obtain ⟨nd₁, hwr, hnodes⟩ := hw.nodes
  rw [h.flush, hi, hsize] at hnodes
  rw [h.flush, hi, hnd] at hwr
  have hfull := hw.full
  rw [h.flush, hi, hnd] at hfull
  refine hok k s' nd₁ h₁ h₂ hwr hnodes (fun hk hsrc => (hfull hk hsrc).2) fun hdir => ?_
  have hattr := (hwr.attr.trans (congrArg Node.toAttr hnd.symm)).trans h.attr
  refine h.change (d := (s'.itable ip).toDinode) (hw.held.trans h.held) (h.log.logged hw.log ho) ?_
    ?_ ?_ hw.own hnodes (hwr.ok (hnd ▸ h.node i) h₁ h₂) ?_ (fun hT hX => hdir ?_ hX)
    fun j hj _ => hj
  · have := congrFun hw.itable ip
    rw [update_self] at this
    rw [this, hw.itable]
    simp
  · rw [hw.dinode, hi]
  · have := congrFun hw.itable ip
    rw [update_self] at this
    rw [this]
  · simp only [hwr.attr]
    exact hnd ▸ h.nlink i
  · rw [← hT, ← congrArg Attr.type hwr.attr]

theorem wp_itrunc_locked (h : Inv sb B T o s (⟨ip, i, true⟩ :: R) X) (ho : 1 ≤ o)
    (hF : F (.log .tooBig)) (ht : (s.disk.nodes i).type ≠ T_DIR)
    (hQ : ∀ s', s'.disk.nodes = update s.disk.nodes i { Node.free with toAttr := { Node.toAttr
      (s.disk.nodes i) with size := 0 } } → Inv sb B T o s' (⟨ip, i, true⟩ :: R) X → Q () s') :
    wp (itrunc sb ip) (fun e _ => F e) Q s := by
  have hi := h.inode.1
  refine wp_itrunc (h.ready ho) hF fun t hT => ?_
  obtain ⟨c, hlog⟩ := hT.log
  have hnodes := hT.nodes
  rw [h.flush, hi, ← h.attr] at hnodes
  have hself := congrFun hT.itable ip
  rw [update_self] at hself
  refine hQ t hnodes (h.change (d := (t.itable ip).toDinode) (hT.held.trans h.held)
    (h.log.logged hlog ho) ?_ ?_ ?_ hT.own hnodes ?_ (h.nlink i) (fun hdir => absurd hdir ht)
    fun j hj _ => hj)
  · rw [hself, hT.itable]
    simp
  · rw [hT.dinode, hi]
  · rw [hself]
  · exact ⟨Nat.zero_le _, fun bn hbn => by simp at hbn⟩

end Write

section Read

variable {j n : ℕ} {name : List UInt8} {E : Halt → State → Prop}

theorem ofBytes_read : Dirent.ofBytes (nd.read (j * DIRENT) DIRENT) = ⟨nd.inum j, nd.name j⟩ := by
  have h₂ : nd.read (j * DIRENT) DIRENT = nd.read (j * DIRENT) 2 ++ nd.name j := Node.read_add
  rw [h₂]
  rfl

theorem wp_readDirent_mapped {Q : Dirent → State → Prop} {e : Halt}
    (ht : (s.itable dp).type ≠ 0) (hheld : s.held = [])
    (hnd : (s.flush dp).nodes (s.itable dp).inum = nd) (hmax : nd.size ≤ MAXFILE * BSIZE)
    (hj : j < nd.entries) (hmap : nd.mapped (j * DIRENT / BSIZE) = true)
    (hQ : Q ⟨nd.inum j, nd.name j⟩ s) : wp (readDirent sb dp e (j * DIRENT)) E Q s := by
  have hlt : MAXFILE * BSIZE < 2 ^ 31 := by decide
  have hend : j * DIRENT + DIRENT ≤ nd.size := by
    unfold Node.entries DIRENT DIRSIZ at *
    omega
  have hlen : DIRENT ≤ 16 := le_rfl
  have hblock : ∀ pos, j * DIRENT ≤ pos → pos < j * DIRENT + DIRENT →
      pos / BSIZE = j * DIRENT / BSIZE := fun pos h₁ h₂ => by
    unfold DIRENT DIRSIZ BSIZE at *
    omega
  unfold readDirent
  rw [wp_bind]
  refine wp_readi_mapped ht hheld hnd hmax (fun pos h₁ h₂ _ => ?_) (by omega) (by omega)
    fun r hr => ?_
  · rw [hblock pos h₁ h₂]
    exact hmap
  · rw [if_neg (by omega), if_pos (fun _ _ => rfl), min_eq_left (by omega)] at hr
    subst hr
    simp only [Node.length_read, ne_eq, not_true_eq_false, if_false, wp_pure, ofBytes_read]
    exact hQ

theorem wp_readDirent {Q : Dirent → State → Prop} {e : Halt}
    (h : Inv sb B T o s (⟨dp, d, true⟩ :: R) X) (hnd : s.disk.nodes d = nd)
    (hj : j < nd.entries) (hQ : Q ⟨nd.inum j, nd.name j⟩ s) :
    wp (readDirent sb dp e (j * DIRENT)) E Q s := by
  obtain ⟨hi, -, ht, -⟩ := h.inode
  have hok : nd.Ok := hnd ▸ h.node d
  refine wp_readDirent_mapped ht h.held (by rw [h.flush, hi, hnd]) hok.size_le hj
    (hok.mapped_div ?_) hQ
  unfold Node.entries DIRENT DIRSIZ at *
  omega

theorem offsets_eq {size : ℕ} (ha : size % DIRENT = 0) :
    offsets j size = (List.range' j (size / DIRENT - j)).map (· * DIRENT) := by
  unfold offsets
  congr 3
  unfold DIRENT DIRSIZ at *
  omega

/-- The rest of the loop of `dirlookup`, from entry `j` on. -/
theorem wp_dirlookupFrom {Q : Option (Iptr × ℕ) → State → Prop}
    (h : Inv sb B T o s (⟨dp, d, true⟩ :: R) X) (hnd : s.disk.nodes d = nd)
    (hn : j + n = nd.entries) (hno : ∀ j' < j, ¬ nd.Named name j') (hF : F .iget)
    (hnone : nd.find name = none → Q none s)
    (hsome : ∀ ip k s', nd.find name = some k → s'.disk = s.disk →
      Inv sb B T o s' (⟨ip, nd.inum k, false⟩ :: ⟨dp, d, true⟩ :: R) X →
      (nd.inum k ∉ X → ¬ Last s B (⟨dp, d, true⟩ :: R) ip (nd.inum k)) →
      Q (some (ip, k * DIRENT)) s') :
    wp (dirlookupFrom sb dp name ((List.range' j n).map (· * DIRENT))) (fun e _ => F e) Q s := by
  induction n generalizing j with
  | zero =>
    refine hnone (Node.find_eq_none.mpr fun j' hj' => hno j' ?_ hj')
    have := hj'.1
    omega
  | succ n ih =>
    have hnext : ¬ nd.Named name j → wp (dirlookupFrom sb dp name
        ((List.range' (j + 1) n).map (· * DIRENT))) (fun e _ => F e) Q s := fun hj => by
      refine ih (by omega) fun j' hj' => ?_
      rcases Nat.lt_succ_iff_lt_or_eq.mp hj' with hlt | rfl
      · exact hno j' hlt
      · exact hj
    rw [List.range'_succ, List.map_cons, dirlookupFrom, wp_bind]
    refine wp_readDirent h hnd (by omega) ?_
    rw [wp_ite]
    refine ⟨fun h₀ => hnext fun hj => hj.2.1 h₀, fun h₀ => ?_⟩
    rw [wp_ite, namecmp_eq_zero]
    refine ⟨fun hname => ?_, fun hname => hnext fun hj => hname hj.2.2.symm⟩
    have hdev : (s.itable dp).dev = ROOTDEV := h.dev dp h.inode.2.2.2
    rw [wp_bind, wp_getInode, wp_bind, hdev]
    exact wp_iget h hF fun ip s' => hsome ip j s'
      (Node.find_eq_some_of ⟨by omega, h₀, hname.symm⟩ hno)

theorem wp_dirlookup {Q : Option (Iptr × ℕ) → State → Prop}
    (h : Inv sb B T o s (⟨dp, d, true⟩ :: R) X) (hnd : s.disk.nodes d = nd)
    (ht : nd.type = T_DIR) (ha : nd.size % DIRENT = 0) (hF : F .iget)
    (hnone : nd.find name = none → Q none s)
    (hsome : ∀ ip k s', nd.find name = some k → s'.disk = s.disk →
      Inv sb B T o s' (⟨ip, nd.inum k, false⟩ :: ⟨dp, d, true⟩ :: R) X →
      (nd.inum k ∉ X → ¬ Last s B (⟨dp, d, true⟩ :: R) ip (nd.inum k)) →
      Q (some (ip, k * DIRENT)) s') :
    wp (dirlookup sb dp name) (fun e _ => F e) Q s := by
  have hattr := hnd ▸ h.attr
  unfold dirlookup
  rw [wp_bind, wp_getInode, wp_bind, wp_stopIf, ← congrArg Attr.type hattr,
    ← congrArg Attr.size hattr]
  refine ⟨fun hne => absurd ht hne, fun _ => ?_⟩
  rw [offsets_eq ha]
  exact wp_dirlookupFrom h hnd (by rw [Nat.zero_add]; rfl) (by omega) hF hnone hsome

/-- The rest of the loop of `isdirempty`. -/
theorem wp_isdiremptyFrom {Q : Bool → State → Prop} (h : Inv sb B T o s (⟨dp, d, true⟩ :: R) X)
    (hnd : s.disk.nodes d = nd) (hn : n = nd.entries - j)
    (hQ : ∀ b, (b = true ↔ ∀ k, j ≤ k → k < nd.entries → nd.inum k = 0) → Q b s) :
    wp (isdiremptyFrom sb dp ((List.range' j n).map (· * DIRENT))) E Q s := by
  induction n generalizing j with
  | zero => exact hQ true (iff_of_true rfl fun k h₁ h₂ => by omega)
  | succ n ih =>
    rw [List.range'_succ, List.map_cons, isdiremptyFrom, wp_bind]
    refine wp_readDirent h hnd (by omega) ?_
    rw [wp_ite]
    refine ⟨fun h₀ => ?_, fun h₀ => ?_⟩
    · exact hQ false (iff_of_false (by simp) fun hall => h₀ (hall j le_rfl (by omega)))
    · refine ih (by omega) fun b hb => hQ b (hb.trans ?_)
      refine ⟨fun hall k h₁ h₂ => ?_, fun hall k h₁ h₂ => hall k (by omega) h₂⟩
      rcases h₁.eq_or_lt with rfl | hlt
      · simpa using h₀
      · exact hall k hlt h₂

theorem wp_isdirempty {Q : Bool → State → Prop} (h : Inv sb B T o s (⟨dp, d, true⟩ :: R) X)
    (hnd : s.disk.nodes d = nd) (ha : nd.size % DIRENT = 0)
    (hQ : ∀ b, (b = true ↔ ∀ k, 2 ≤ k → k < nd.entries → nd.inum k = 0) → Q b s) :
    wp (isdirempty sb dp) E Q s := by
  unfold isdirempty
  rw [wp_bind, wp_getInode, ← congrArg Attr.size (hnd ▸ h.attr), offsets_eq ha]
  exact wp_isdiremptyFrom h hnd rfl hQ

end Read

section Link

variable {j n x : ℕ} {name : List UInt8} {E : Halt → State → Prop}

/-- The loop of `dirlink` ends at an entry that is not in use or after the last one. -/
theorem wp_dirlinkFrom {Q : ℕ → State → Prop} (h : Inv sb B T o s (⟨dp, d, true⟩ :: R) X)
    (hnd : s.disk.nodes d = nd) (hn : j + n = nd.entries)
    (hQ : ∀ k, k ≤ nd.entries → (k < nd.entries → nd.inum k = 0) → Q (k * DIRENT) s) :
    wp (dirlinkFrom sb dp (nd.entries * DIRENT) ((List.range' j n).map (· * DIRENT))) E Q s := by
  induction n generalizing j with
  | zero => exact hQ nd.entries le_rfl fun hlt => absurd hlt (lt_irrefl _)
  | succ n ih =>
    rw [List.range'_succ, List.map_cons, dirlinkFrom, wp_bind]
    refine wp_readDirent h hnd (by omega) ?_
    rw [wp_ite]
    exact ⟨fun h₀ => hQ j (by omega) fun _ => h₀, fun _ => ih (by omega)⟩

/-- A write of one entry to a directory is complete or changes nothing. -/
theorem wrote_dirent {nd₁ : Node} {de : Dirent} {k : ℕ} (hj : j * DIRENT ≤ nd.size)
    (hw : Wrote nd nd₁ (kernelSrc de.toBytes) (j * DIRENT) DIRENT k)
    (hfull : k < DIRENT → (∀ i < DIRENT, (kernelSrc de.toBytes i).isSome) →
      (k = 0 ∨ (j * DIRENT + k) % BSIZE = 0) ∧ nd.mapped ((j * DIRENT + k) / BSIZE) = false) :
    k = DIRENT ∨ k = 0 ∧ nd.mapped (j * DIRENT / BSIZE) = false ∧ { nd₁ with size := max nd.size (j * DIRENT + k) } =
      { nd with mapped := nd₁.mapped } := by
  rcases hw.le.eq_or_lt with hk | hk
  · exact .inl hk
  · obtain ⟨hk₀, hmap⟩ := hfull hk fun i _ => rfl
    have h₀ : k = 0 := by
      rcases hk₀ with h₀ | h₀
      · exact h₀
      · unfold DIRENT DIRSIZ BSIZE at *
        omega
    subst h₀
    refine .inr ⟨rfl, hmap, Node.eq_of ?_ (fun _ => rfl) fun pos => ?_⟩
    · simp only [hw.attr, Nat.add_zero, max_eq_left hj]
    · rcases Nat.lt_or_ge pos (j * DIRENT) with hlt | hge
      · exact hw.outside pos (.inl hlt)
      · exact hw.rest (fun i _ => rfl) pos hge

theorem wp_dirlink {Q : ℤ → State → Prop} (hsb : sb.Valid)
    (h : Inv sb B T o s (⟨dp, d, true⟩ :: R) X) (ho : 1 ≤ o) (hnd : s.disk.nodes d = nd)
    (ht : nd.type = T_DIR) (hm : nd.IsMap) (hx : x ≠ 0) (hx' : x < 65536)
    (hX : nd.lookup name ≠ none → X = ∅) (hF : F (.log .tooBig)) (hFi : F .iget)
    (hfail : ∀ s' m, s'.disk.nodes = update s.disk.nodes d { nd with mapped := m } →
      Inv sb B T o s' (⟨dp, d, true⟩ :: R) X → Q (-1) s')
    (hok : ∀ s' nd' k, s'.disk.nodes = update s.disk.nodes d nd' →
      nd.SetEntry nd' k x (strncpy DIRSIZ name) → k ≤ nd.entries →
      (k < nd.entries → nd.inum k = 0) → nd.lookup name = none →
      nd'.toAttr = { Node.toAttr nd with size := nd'.size } →
      Inv sb B T o s' (⟨dp, d, true⟩ :: R) X → Q 0 s') :
    wp (dirlink sb dp name x) (fun e _ => F e) Q s := by
  have hsame : ∀ s' : State, s'.disk = s.disk →
      Inv sb B T o s' (⟨dp, d, true⟩ :: R) X → Q (-1) s' := fun s' hd hI => by
    refine hfail s' nd.mapped ?_ hI
    rw [hd, ← hnd]
    exact (update_eq_self ..).symm
  have hentries : nd.entries * DIRENT = nd.size := by
    have := hm.aligned
    unfold Node.entries DIRENT DIRSIZ at *
    omega
  have hok' : nd.Ok := hnd ▸ h.node d
  have hmax : MAXFILE * BSIZE < 2 ^ 31 := by decide
  have hsz := hok'.size_le
  have hlen : DIRENT ≤ 16 := le_rfl
  unfold dirlink
  rw [wp_bind]
  refine wp_dirlookup h hnd ht hm.aligned hFi (fun hnone => ?_) fun ip k s₁ hf hd hI hl => ?_
  · have hnew : nd.lookup name = none := by rw [Node.lookup, hnone, Option.map_none]
    simp only
    rw [wp_bind, wp_getInode, wp_bind, ← congrArg Attr.size (hnd ▸ h.attr), offsets_eq hm.aligned]
    have hfin : (nd.size + DIRENT - 1) / DIRENT * DIRENT = nd.entries * DIRENT := by
      unfold Node.entries DIRENT DIRSIZ at *
      omega
    rw [hfin]
    refine wp_dirlinkFrom h hnd (by rw [Nat.zero_add]; rfl) fun k hk hfree => ?_
    have hoff : k * DIRENT ≤ nd.size := hentries ▸ Nat.mul_le_mul_right _ hk
    rw [wp_bind]
    refine wp_writei_locked hsb h ho hnd (by omega) (by omega) hF (fun _ => ?_)
      fun r s' nd₁ h₁ h₂ hw hnodes hfull hI => ?_
    · exact hsame s rfl h
    · rcases wrote_dirent hoff hw hfull with rfl | ⟨rfl, -, heq⟩
      · rw [if_neg (by simp), wp_pure]
        have hset : nd.SetEntry { nd₁ with size := max nd.size (k * DIRENT + DIRENT) } k x
            (strncpy DIRSIZ name) :=
          Node.setEntry_of_wrote ⟨x, strncpy DIRSIZ name⟩ length_strncpy hx' hw rfl rfl
        have hnew' : nd.lookup (strncpy DIRSIZ name) = none := by
          rwa [Node.lookup, Node.find_congr cut_strncpy]
        refine hok s' _ k hnodes hset hk hfree hnew ?_ (hI fun _ hdX => ?_)
        · rw [hw.attr]
        · have hrange := h.range d (by rw [hnd, ht]; decide)
          have hdir : nd.IsDir d := hnd ▸ h.dir d hdX (by rw [hnd, ht])
          exact hset.isDir hdir (hdir.two_le_of_free (by omega) hk hfree)
            (hset.add hm hk hx hfree hnew').1
      · rw [heq] at hnodes hI
        have hI' := hI fun htd hdX => (hnd ▸ h.dir d hdX (by rw [hnd, htd])).congr rfl rfl
        rw [if_pos (by simp), wp_pure]
        exact hfail s' nd₁.mapped hnodes hI'
  · have hlook : nd.lookup name ≠ none := by simp [Node.lookup, hf]
    have hX₀ := hX hlook
    subst hX₀
    simp only
    rw [wp_bind]
    have hnot : ¬ Last s₁ B (⟨dp, d, true⟩ :: R) ip (nd.inum k) := by
      have := hl (Set.notMem_empty _)
      unfold Last at this ⊢
      rwa [hd]
    exact wp_iput hI ho (fun hmem => absurd hmem (Set.notMem_empty _)) (fun _ => hF)
      (fun s' _ hd' => hsame s' (hd'.trans hd))
      fun s' hlast => absurd hlast hnot

end Link

section Alloc

variable {t : ℤ} {inums : List ℕ} {l : Buffer.Log} {D : Disk}

/-- A new inode as `ialloc` leaves it on the disk. -/
abbrev Dinode.new (t : ℤ) : Dinode :=
  { type := t, major := 0, minor := 0, nlink := 0, size := 0, addrs := fun _ => 0 }

/-- A node without blocks. -/
abbrev Node.empty (a : Attr) : Node := { Node.free with toAttr := a }

/-- Allocate a free inode that no entry of the table refers to. -/
theorem Inv.alloc (h : Inv sb B T o s R X) (ht : t ≠ 0) (hi : (s.disk.nodes i).type = 0)
    (hpos : 0 < i) (hlt : i < sb.ninodes) (hno : ∀ k, 0 < (s.itable k).ref → (s.itable k).inum ≠ i)
    (hl : LogOk sb o l) (hD : D = s.disk.setDinode i (.new t)) :
    Inv sb B T o ((s.setDisk D).setLog l) R (insert i X) := by
  have hdin : (s.disk.dinode i).type = 0 := by rwa [← Disk.nodes_type]
  have hslot : D.slot = s.disk.slot := by
    rw [hD]
    exact Disk.slot_setEmpty (Disk.slot_of_type hdin) (.inr fun _ _ => rfl)
  have hself : D.nodes i = .empty (Dinode.new t).toAttr := by
    rw [hD]
    exact Disk.nodes_of_addrs (fun _ _ => rfl) ht
  have hother : ∀ j ≠ i, D.nodes j = s.disk.nodes j := fun j hj => by
    rw [hD]
    exact Disk.nodes_setDinode_of_ne hj
  refine { h with
    log := hl
    own := ?_
    node := fun j => ?_
    nlink := fun j => ?_
    dir := fun j hj => ?_
    range := fun j hj => ?_
    sync := fun k hk hv => ?_
    tag := fun k hk => ?_
    unlinked := fun j hj => ?_ }
  · have hbit : D.bitmap = s.disk.bitmap := by rw [hD, Disk.setDinode_bitmap]
    unfold Own
    simp only [State.setLog_disk, State.setDisk_disk, hslot, hbit]
    exact h.own
  · rcases eq_or_ne j i with rfl | hj
    · simp only [State.setLog_disk, State.setDisk_disk, hself]
      exact ⟨Nat.zero_le _, fun bn hbn => absurd hbn (Nat.not_lt_zero _)⟩
    · simpa only [State.setLog_disk, State.setDisk_disk, hother j hj] using h.node j
  · rcases eq_or_ne j i with rfl | hj
    · simp only [State.setLog_disk, State.setDisk_disk, hself]
      rfl
    · simpa only [State.setLog_disk, State.setDisk_disk, hother j hj] using h.nlink j
  · rw [Set.mem_insert_iff, not_or] at hj
    simpa only [State.setLog_disk, State.setDisk_disk, hother j hj.1] using h.dir j hj.2
  · rcases eq_or_ne j i with rfl | hne
    · exact ⟨hpos, hlt⟩
    · simp only [State.setLog_disk, State.setDisk_disk, hother j hne] at hj
      exact h.range j hj
  · have := h.sync k hk hv
    simpa [hD, update_of_ne (hno k hk)] using this
  · have hk' : 0 < (s.itable k).ref := by
      rw [h.ref]
      omega
    simpa only [State.setLog_disk, State.setDisk_disk, State.setLog_itable, State.setDisk_itable,
      hother _ (hno k hk')] using h.tag k hk
  · rw [Set.mem_insert_iff, not_or] at hj
    simpa only [State.setLog_disk, State.setDisk_disk, State.setLog_itable, State.setDisk_itable,
      hother j hj.1] using h.unlinked j hj.2

theorem wp_iallocFrom {Q : Option Iptr → State → Prop} (h : Inv sb B T o s R X) (ho : 1 ≤ o)
    (ht : t ≠ 0) (hR : ∀ r ∈ R, (s.disk.nodes r.inum).type ≠ 0)
    (hin : ∀ i ∈ inums, 0 < i ∧ i < sb.ninodes) (hF : F (.log .tooBig)) (hFi : F .iget)
    (hnone : Q none s)
    (hsome : ∀ ip i s', (s.disk.nodes i).type = 0 → 0 < i → i < sb.ninodes →
      s'.disk.nodes = update s.disk.nodes i (.empty (Dinode.new t).toAttr) →
      B ip = 0 → Inv sb B T o s' (⟨ip, i, false⟩ :: R) (insert i X) → Q (some ip) s') :
    wp (iallocFrom sb ROOTDEV t inums) (fun e _ => F e) Q s := by
  induction inums with
  | nil => exact hnone
  | cons i inums ih =>
    obtain ⟨hpos, hlt⟩ := hin i List.mem_cons_self
    rw [iallocFrom, wp_bind, wp_bread (by simp [h.held]), wp_bind, wp_get, wp_ite]
    refine ⟨fun hi => ?_, fun _ => ?_⟩
    · have hno : ∀ k, 0 < (s.itable k).ref → (s.itable k).inum ≠ i := by
        rintro k hk rfl
        have href := h.ref k
        rw [State.hold_disk, ← Disk.nodes_type] at hi
        by_cases hB : 0 < B k
        · exact (h.tag k hB).2 hi
        · have hk : refs R k ≠ 0 := by omega
          simp only [ne_eq, refs_eq_zero, not_forall, not_not] at hk
          obtain ⟨r, hr, rfl⟩ := hk
          exact hR r hr (h.inum r hr ▸ hi)
      rw [wp_bind, wp_modify, wp_bind, State.setDinode, State.hold_disk, State.hold_setDisk]
      refine wp_logWrite (h.log.outstanding.symm ▸ ho) (fun _ => hF) fun l hl => ?_
      have hI := h.alloc ht (by rwa [Disk.nodes_type]) hpos hlt hno (h.log.logged hl ho) rfl
      rw [State.hold_setLog, wp_bind, wp_brelse, wp_bind]
      refine wp_iget hI hFi fun ip s' hd hI' _ => ?_
      refine hsome ip i s' (by rwa [Disk.nodes_type]) hpos hlt ?_ (Nat.eq_zero_of_not_pos ?_) hI'
      · rw [hd, State.setLog_disk, State.setDisk_disk, Disk.nodes_setDinode,
          Disk.nodes_of_addrs (fun _ _ => rfl) ht]
      · intro hB
        have htag := (h.tag ip hB).1.symm.trans (hI'.tag ip hB).1
        refine hno ip (by rw [h.ref]; omega) ((congrArg Prod.fst htag).trans ?_)
        exact hI'.inum ⟨ip, i, false⟩ List.mem_cons_self
    · rw [wp_bind, wp_brelse]
      exact ih fun j hj => hin j (List.mem_cons_of_mem _ hj)

theorem wp_ialloc {Q : Option Iptr → State → Prop} (h : Inv sb B T o s R X) (ho : 1 ≤ o)
    (ht : t ≠ 0) (hR : ∀ r ∈ R, (s.disk.nodes r.inum).type ≠ 0)
    (hF : F (.log .tooBig)) (hFi : F .iget) (hnone : Q none s)
    (hsome : ∀ ip i s', (s.disk.nodes i).type = 0 → 0 < i → i < sb.ninodes →
      s'.disk.nodes = update s.disk.nodes i (.empty (Dinode.new t).toAttr) →
      B ip = 0 → Inv sb B T o s' (⟨ip, i, false⟩ :: R) (insert i X) → Q (some ip) s') :
    wp (ialloc sb ROOTDEV t) (fun e _ => F e) Q s := by
  refine wp_iallocFrom h ho ht hR (fun i hi => ?_) hF hFi hnone hsome
  have := List.mem_range'_1.mp hi
  omega

end Alloc

end Xv6.Fs

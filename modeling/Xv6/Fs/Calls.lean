import Xv6.Fs.Effect

/-! # The system calls on directories

Each call keeps the invariant of the inode table. It fails without a change to
the directories, or it changes one entry of the directory its path leads to.
-/

namespace Xv6.Fs

open Function

variable {sb : Superblock} {B : Iptr → ℕ} {T : Iptr → ℕ × ℤ} {s s' : State}
  {R : List Ref} {X : Set ℕ} {ip dp cwd : Iptr} {i d : ℕ} {F : Halt → Prop}
  {path name : List UInt8} {o : ℤ}

/-- Drop a reference, and free the inode if it has no link left. -/
theorem wp_iunlockput_settle {Q : Unit → State → Prop}
    (h : Inv sb B T o s (⟨ip, i, true⟩ :: R) ∅) (ho : 1 ≤ o) (hF : F (.log .tooBig))
    (hQ : ∀ s', Settle s.disk.nodes s'.disk.nodes → (∀ j ≠ i, s'.disk.nodes j = s.disk.nodes j) →
      Inv sb B T o s' R ∅ → Q () s') :
    wp (iunlockput sb ip) (fun e _ => F e) Q s := by
  refine wp_iunlockput h ho (fun _ => hF) (fun s' _ hd hI => ?_) fun s' hl hn hI => ?_
  · exact hQ s' (hd ▸ .refl _) (fun j _ => by rw [hd]) hI
  · refine hQ s' (hn ▸ .free hl.1 hl.2.1) (fun j hj => by rw [hn, update_of_ne hj]) ?_
    rwa [Set.empty_sdiff] at hI

theorem wp_iput_settle {Q : Unit → State → Prop}
    (h : Inv sb B T o s (⟨ip, i, false⟩ :: R) ∅) (ho : 1 ≤ o) (hF : F (.log .tooBig))
    (hQ : ∀ s', Settle s.disk.nodes s'.disk.nodes → Inv sb B T o s' R ∅ → Q () s') :
    wp (iput sb ip) (fun e _ => F e) Q s := by
  refine wp_iput h ho (fun hX => absurd hX (Set.notMem_empty _)) (fun _ => hF) (fun s' _ hd hI => ?_)
    fun s' hl hn hI => ?_
  · exact hQ s' (hd ▸ .refl _) hI
  · rw [Set.empty_sdiff] at hI
    exact hQ s' (hn ▸ .free hl.1 hl.2.1) hI

/-- Drop a reference that is not the last one. -/
theorem wp_iunlockput_keep {Q : Unit → State → Prop} (h : Inv sb B T o s (⟨ip, i, true⟩ :: R) X)
    (ho : 1 ≤ o) (hl : ¬ Last s B R ip i)
    (hQ : ∀ s', s'.disk = s.disk → Inv sb B T o s' R X → Q () s') :
    wp (iunlockput sb ip) (fun e _ => F e) Q s :=
  wp_iunlockput h ho (absurd · hl) (fun s' _ => hQ s') fun _ hl' => absurd hl' hl

/-- Two locked inodes are different. -/
theorem Inv.inum_ne (h : Inv sb B T o s (⟨ip, i, true⟩ :: ⟨dp, d, true⟩ :: R) X) : i ≠ d := by
  rintro rfl
  have hd := (h.perm (List.Perm.swap ..)).inode
  have hp : ip = dp :=
    h.unique ip dp h.inode.2.2.2 hd.2.2.2 (h.inode.1.trans hd.1.symm)
  exact List.rel_of_pairwise_cons h.once List.mem_cons_self hp ⟨rfl, rfl⟩

@[simp] theorem short_short (z : ℤ) : short (short z) = short z := Int.bmod_bmod

theorem short_add_short (z c : ℤ) : short (short z + c) = short (z + c) := Int.bmod_add_bmod

variable {Q : ℤ → State → Prop} {N : ℕ → Node}

section Link

/-- The failure of `sys_link` after the link count was raised. -/
theorem wp_linkBad (h : Inv sb B T (o + 1) s [⟨ip, i, false⟩] ∅) (ho : 0 ≤ o)
    (ht : (s.disk.nodes i).type ≠ 0) (hF : Benign F)
    (hl : ¬ (short ((s.disk.nodes i).nlink - 1) = 0 ∧ B ip = 0))
    (hQ : ∀ s', s'.disk.nodes = update s.disk.nodes i
      { s.disk.nodes i with nlink := short ((s.disk.nodes i).nlink - 1) } →
      Inv sb B T o s' [] ∅ →
      Q (-1) s') :
    wp (linkBad sb ip) (fun e _ => F e) Q s := by
  have hop : 1 ≤ o + 1 := by omega
  unfold linkBad
  rw [wp_bind]
  refine wp_ilock h (fun _ => hF.sleep) (fun h₀ => absurd h₀ ht) fun s₁ hd₁ _ h₁ => ?_
  rw [wp_bind, wp_modifyInode, wp_bind]
  refine wp_setAttr (fun a => { a with nlink := short (a.nlink - 1) }) h₁ hop hF.tooBig rfl rfl
    rfl (short_short _) fun s₂ hn₂ h₂ => ?_
  rw [wp_bind]
  rw [hd₁] at hn₂
  refine wp_iunlockput_keep h₂ hop (fun hlast => hl ⟨?_, hlast.2.2.1⟩) fun s₃ hd₃ h₃ => ?_
  · have := hlast.2.1
    rwa [hn₂, update_self] at this
  rw [wp_bind]
  exact wp_endOp h₃ fun s₄ hd₄ _ h₄ => hQ s₄ (by rw [hd₄, hd₃, hn₂]) h₄

/-- `sys_link` once the link count of `i` is one more than in `N`. -/
theorem wp_linkNew {new : List UInt8} (hsb : sb.Valid) (h : Inv sb B T (o + 1) s [⟨ip, i, false⟩] ∅)
    (ho : 0 ≤ o) (hcwd : 0 < B cwd) (hF : Benign F) (hN : F .noType ∨ Closed N)
    (hn : s.disk.nodes = update N i { N i with nlink := short ((N i).nlink + 1) })
    (ht : (N i).type ≠ 0) (hfile : (N i).type ≠ T_DIR) (hl : short (N i).nlink = (N i).nlink)
    (hlast : ¬ ((N i).nlink = 0 ∧ B ip = 0))
    (hfail : ∀ s', Kept N s'.disk.nodes → Inv sb B T o s' [] ∅ → Q (-1) s')
    (hok : ∀ s' M d k name, resolve N (T cwd).1 new true = some (d, name) →
      Linked N M d k i name → Settle M s'.disk.nodes → Inv sb B T o s' [] ∅ → Q 0 s') :
    wp (linkNew sb cwd ip new) (fun e _ => F e) Q s := by
  have hop : 1 ≤ o + 1 := by omega
  have hi : s.disk.nodes i = { N i with nlink := short ((N i).nlink + 1) } := by
    rw [hn, update_self]
  -- the lookup of the new path sees the directories of `N`
  have hres : resolve s.disk.nodes (T cwd).1 new true = resolve N (T cwd).1 new true := by
    rw [hn]
    exact resolve_setAttr rfl rfl
  have hN' : F .noType ∨ Closed s.disk.nodes := by
    rw [hn]
    exact hN.imp_right fun hc => hc.setAttr rfl rfl
  -- and a failure takes the link back
  have hback : short ((s.disk.nodes i).nlink - 1) = (N i).nlink := by
    have := short_add_short ((N i).nlink + 1) (-1)
    rw [add_neg_cancel_right, ← sub_eq_add_neg, hl] at this
    rwa [hi]
  have hbad : ∀ s' : State, Kept s.disk.nodes s'.disk.nodes →
      s'.disk.nodes i = s.disk.nodes i → Inv sb B T (o + 1) s' [⟨ip, i, false⟩] ∅ → wp (linkBad sb ip) (fun e _ => F e) Q s' := by
    intro s' hs hsi hI
    refine wp_linkBad hI ho (by rwa [hsi, hi]) hF (by rwa [hsi, hback])
      fun s'' hn'' hI' => hfail s'' ?_ hI'
    have hN : update s.disk.nodes i (N i) = N := by
      rw [hn, update_idem]
      exact update_eq_self ..
    rw [hsi, hback, hi] at hn''
    have := hs.congr_update (i := i) (N i)
    rw [hN] at this
    exact hn'' ▸ this
  unfold linkNew
  rw [wp_bind]
  refine wp_nameiparent h hop hcwd hF hN' (fun s₁ _ hd₁ h₁ => ?_)
    fun dp d name s₁ hr₁ hd₁ h₁ hlast₁ ht₁ => ?_
  · exact hbad s₁ (hd₁ ▸ .refl _) (by rw [hd₁]) h₁
  rw [hres] at hr₁
  have hdi : d ≠ i := by
    rintro rfl
    rw [hi] at ht₁
    exact hfile ht₁
  have hnd : s.disk.nodes d = N d := by rw [hn, update_of_ne hdi]
  have hdir := h.dir d (Set.notMem_empty _) ht₁
  have hrange := h.range i (by rwa [hi])
  have hdrange := h.range d (by rw [ht₁]; decide)
  rw [hnd] at ht₁ hdir
  simp only
  rw [wp_bind]
  refine wp_ilock h₁ (fun _ => hF.sleep) (fun h₀ => ?_) fun s₂ hd₂ _ h₂ => ?_
  · rw [hd₁, hnd, ht₁] at h₀
    cases h₀
  have hd₂' := hd₂.trans hd₁
  have hundo : ∀ s' : State, Kept s.disk.nodes s'.disk.nodes →
      s'.disk.nodes i = s.disk.nodes i → Inv sb B T (o + 1) s' [⟨dp, d, true⟩, ⟨ip, i, false⟩] ∅ →
      wp (do iunlockput sb dp; linkBad sb ip) (fun e _ => F e) Q s' := fun s' hs hsi hI => by
    rw [wp_bind]
    refine wp_iunlockput_keep hI hop (fun hl' => hlast₁ (hs.last.mp hl')) fun s'' hd'' hI' => ?_
    exact hbad s'' (hd'' ▸ hs) (by rw [hd'', hsi]) hI'
  rw [wp_bind, wp_getInode, wp_bind, wp_getInode, wp_ite]
  refine ⟨fun _ => hundo s₂ (hd₂' ▸ .refl _) (by rw [hd₂']) h₂, fun _ => ?_⟩
  have hip : (s₂.itable ip).inum = i := h₂.inum ⟨ip, i, false⟩ (by simp)
  rw [hip, wp_bind]
  refine wp_dirlink hsb h₂ hop (by rw [hd₂', hnd]) ht₁ hdir.toIsMap (by omega) ?_
    (fun _ => rfl) hF.tooBig hF.iget (fun s₃ m hn₃ h₃ => ?_)
    fun s₃ nd' k hn₃ hset hk hfree hnew hattr h₃ => ?_
  · have := hsb.ninodes_le
    omega
  · rw [hd₂'] at hn₃
    rw [if_pos (by decide)]
    refine hundo s₃ ?_ (by rw [hn₃, update_of_ne hdi.symm]) h₃
    rw [hn₃]
    exact .set (hnd ▸ ⟨rfl, rfl⟩)
  · rw [if_neg (by decide), wp_bind]
    refine wp_iunlockput_settle h₃ hop hF.tooBig fun s₄ hs₄ _ h₄ => ?_
    rw [wp_bind]
    refine wp_iput_settle h₄ hop hF.tooBig fun s₅ hs₅ h₅ => ?_
    rw [wp_bind]
    refine wp_endOp h₅ fun s₆ hd₆ _ h₆ => ?_
    have hi₃ : s₃.disk.nodes i = s.disk.nodes i := by
      rw [hn₃, update_of_ne hdi.symm, hd₂']
    have hd₃ : s₃.disk.nodes d = nd' := by rw [hn₃, update_self]
    refine hok s₆ s₃.disk.nodes d k name hr₁ ?_ (hd₆ ▸ hs₄.trans hs₅) h₆
    refine ⟨⟨ht₁, ?_, hdir.two_le_of_free (by omega) hk hfree, hk, hd₃ ▸ hset, ?_⟩, hfree, hnew,
      hfile, ht, ?_, ?_, fun j hj hji => ?_⟩
    · rw [hd₃, congrArg Attr.type hattr]
      exact ht₁
    · rw [hd₃, congrArg Attr.nlink hattr]
    · rw [hi₃, hi]
    · rw [hi₃, hi]
    · rw [hn₃, update_of_ne hj, hd₂', hn, update_of_ne hji]

theorem wp_sysLink {old new : Option (List UInt8)} (hsb : sb.Valid) (h : Inv sb B T o s [] ∅)
    (ho : 0 ≤ o) (hcwd : 0 < B cwd) (hF : Benign F) (hN : F .noType ∨ Closed s.disk.nodes)
    (hfail : ∀ s', Kept s.disk.nodes s'.disk.nodes → Inv sb B T o s' [] ∅ → Q (-1) s')
    (hok : ∀ s' M d k i p n nm name, old = some p → new = some n →
      resolve s.disk.nodes (T cwd).1 p false = some (i, nm) →
      resolve s.disk.nodes (T cwd).1 n true = some (d, name) → Linked s.disk.nodes M d k i name →
      Settle M s'.disk.nodes → Inv sb B T o s' [] ∅ → Q 0 s') :
    wp (sysLink sb cwd old new) (fun e _ => F e) Q s := by
  have hop : 1 ≤ o + 1 := by omega
  unfold sysLink
  rcases old with _ | p
  · exact hfail s (.refl _) h
  rcases new with _ | n
  · exact hfail s (.refl _) h
  simp only
  rw [wp_bind]
  refine wp_beginOp h ho hF.sleep fun s₁ hd₁ _ h₁ => ?_
  rw [← hd₁] at hfail hok hN
  rw [wp_bind]
  refine wp_namei h₁ hop hcwd hF hN (fun s₂ _ hd₂ h₂ => ?_)
    fun ip i nm s₂ hr₂ hd₂ h₂ hlast₂ hn₂ => ?_
  · simp only
    rw [wp_bind]
    exact wp_endOp h₂ fun s₃ hd₃ _ h₃ => hfail s₃ (hd₃ ▸ hd₂ ▸ .refl _) h₃
  simp only
  rw [wp_bind]
  refine wp_ilock h₂ (fun _ => hF.sleep) (fun h₀ => hn₂.resolve_right (· (hd₂ ▸ h₀)))
    fun s₃ hd₃ ht₃ h₃ => ?_
  have hd₃' := hd₃.trans hd₂
  rw [wp_bind, wp_getInode, ← congrArg Attr.type h₃.attr, wp_ite]
  refine ⟨fun ht => ?_, fun ht => ?_⟩
  · rw [wp_bind]
    refine wp_iunlockput_keep h₃ hop (fun hl => hlast₂ ((Last.disk hd₃').mp hl))
      fun s₄ hd₄ h₄ => ?_
    rw [wp_bind]
    exact wp_endOp h₄ fun s₅ hd₅ _ h₅ => hfail s₅ (hd₅ ▸ hd₄ ▸ hd₃' ▸ .refl _) h₅
  rw [wp_bind, wp_modifyInode, wp_bind]
  refine wp_setAttr (fun a => { a with nlink := short (a.nlink + 1) }) h₃ hop hF.tooBig rfl rfl
    rfl (short_short _) fun s₄ hn₄ h₄ => ?_
  rw [wp_bind]
  refine wp_iunlock h₄ fun s₅ hd₅ _ h₅ => ?_
  rw [← hd₅, hd₃'] at hn₄
  have hlast : ¬ ((s₁.disk.nodes i).nlink = 0 ∧ B ip = 0) := fun ⟨hz, hB⟩ =>
    hlast₂ ⟨hd₂ ▸ ht₃, hz, hB, rfl⟩
  exact wp_linkNew hsb h₅ ho hcwd hF hN hn₄ (hd₂ ▸ ht₃) (hd₃' ▸ ht) (h₁.nlink i) hlast hfail
    fun s' M d k name hr => hok s' M d k i p n nm name rfl rfl hr₂ hr

end Link

section Unlink

theorem wp_unlinkBad (h : Inv sb B T (o + 1) s [⟨dp, d, true⟩] ∅) (ho : 0 ≤ o)
    (hl : ¬ Last s B [] dp d)
    (hQ : ∀ s', s'.disk = s.disk → Inv sb B T o s' [] ∅ → Q (-1) s') :
    wp (unlinkBad sb dp) (fun e _ => F e) Q s := by
  unfold unlinkBad
  rw [wp_bind]
  refine wp_iunlockput_keep h (by omega) hl fun s₁ hd₁ h₁ => ?_
  rw [wp_bind]
  exact wp_endOp h₁ fun s₂ hd₂ _ h₂ => hQ s₂ (hd₂.trans hd₁) h₂

/-- The removal of entry `k` of a directory, which names `i`. -/
theorem wp_unlinkEntry {k : ℕ} (hsb : sb.Valid)
    (h : Inv sb B T (o + 1) s [⟨ip, i, true⟩, ⟨dp, d, true⟩] ∅) (ho : 0 ≤ o) (hF : Benign F)
    (hN : s.disk.nodes = N) (hdt : (N d).type = T_DIR) (hfind : (N d).find name = some k)
    (hk : (N d).inum k = i) (hdot : canon name ≠ dot) (hdotdot : canon name ≠ dotdot)
    (hpos : 1 ≤ (N i).nlink)
    (hempty : (N i).type = T_DIR → ∀ j, 2 ≤ j → j < (N i).entries → (N i).inum j = 0)
    (hQ : ∀ s' M, Unlinked N M d k i name → Settle M s'.disk.nodes →
      Inv sb B T o s' [] ∅ → Q 0 s') :
    wp (unlinkEntry sb dp ip (k * DIRENT)) (fun e _ => F e) Q s := by
  have hop : 1 ≤ o + 1 := by omega
  have hne := h.inum_ne
  have hit : (N i).type ≠ 0 := by
    rw [← hN, congrArg Attr.type h.attr]
    exact h.inode.2.2.1
  have hdir : (N d).IsDir d := hN ▸ h.dir d (Set.notMem_empty _) (hN ▸ hdt)
  have hnamed := Node.find_eq_some hfind
  have htwo := hdir.two_le_of_named hnamed hdot hdotdot
  have hok : (N d).Ok := hN ▸ h.node d
  have hmax : MAXFILE * BSIZE < 2 ^ 31 := by decide
  have hsz := hok.size_le
  have hlen : DIRENT ≤ 16 := le_rfl
  have hend : k * DIRENT + DIRENT ≤ (N d).size := by
    have := hnamed.1
    unfold Node.entries DIRENT DIRSIZ at *
    omega
  -- the rest, once the entry is cleared and the links of `d` are counted
  have hrest : ∀ s₁ : State, (∀ j ≠ d, s₁.disk.nodes j = N j) →
      Entered N s₁.disk.nodes d k 0 (List.replicate DIRSIZ 0)
        (if (N i).type = T_DIR then short ((N d).nlink - 1) else (N d).nlink) →
      Inv sb B T (o + 1) s₁ [⟨dp, d, true⟩, ⟨ip, i, true⟩] ∅ →
      wp (do
        iunlockput sb dp
        modifyInode ip fun n => { n with nlink := short (n.nlink - 1) }
        iupdate sb ip
        iunlockput sb ip
        endOp
        pure 0) (fun e _ => F e) Q s₁ := by
    intro s₁ ho₁ henter h₁
    rw [wp_bind]
    refine wp_iunlockput_settle h₁ hop hF.tooBig fun s₂ hs₂ ho₂ h₂ => ?_
    have hi₂ : s₂.disk.nodes i = s₁.disk.nodes i := ho₂ i hne
    rw [wp_bind, wp_modifyInode, wp_bind]
    refine wp_setAttr (fun a => { a with nlink := short (a.nlink - 1) }) h₂ hop hF.tooBig rfl rfl
      rfl (short_short _) fun s₃ hn₃ h₃ => ?_
    rw [wp_bind]
    refine wp_iunlockput_settle h₃ hop hF.tooBig fun s₄ hs₄ _ h₄ => ?_
    rw [wp_bind]
    refine wp_endOp h₄ fun s₅ hd₅ _ h₅ => ?_
    rw [hi₂, ho₁ i hne] at hn₃
    have hd : update s₁.disk.nodes i { N i with nlink := short ((N i).nlink - 1) } d =
        s₁.disk.nodes d := update_of_ne hne.symm ..
    have hs₃ := hs₂.congr_update { N i with nlink := short ((N i).nlink - 1) } hi₂
    rw [← hn₃] at hs₃
    refine hQ s₅ _ ?_ (hs₃.trans (hd₅ ▸ hs₄)) h₅
    refine ⟨hne, ⟨hdt, hd.symm ▸ henter.type, htwo, hnamed.1.le, hd.symm ▸ henter.set,
      hd.symm ▸ henter.nlink⟩, hfind, hk, hit, hpos, hempty, update_self .., ?_⟩
    intro j hjd hji
    rw [update_of_ne hji, ho₁ j hjd]
  unfold unlinkEntry
  rw [wp_bind]
  have hde : List.replicate DIRENT (0 : UInt8) = Dirent.toBytes ⟨0, List.replicate DIRSIZ 0⟩ := rfl
  rw [hde]
  refine wp_writei_locked hsb (h.perm (List.Perm.swap ..)) hop (congrFun hN d) (by omega)
    (by omega) hF.tooBig (by omega) fun r s₁ nd₁ h₁ h₂ hw hn₁ hfull hI => ?_
  rcases wrote_dirent (by omega) hw hfull with rfl | ⟨-, hmap, -⟩
  · have hset : (N d).SetEntry { nd₁ with size := max (N d).size (k * DIRENT + DIRENT) } k 0
        (List.replicate DIRSIZ 0) :=
      Node.setEntry_of_wrote ⟨0, List.replicate DIRSIZ 0⟩ List.length_replicate (by decide) hw rfl rfl
    have h₁ := hI fun _ _ => hset.isDir hdir htwo (hset.clear hdir.toIsMap hnamed).1
    rw [hN] at hn₁
    have hd₁ : s₁.disk.nodes d = { nd₁ with size := max (N d).size (k * DIRENT + DIRENT) } := by
      rw [hn₁, update_self]
    have ho₁ : ∀ j ≠ d, s₁.disk.nodes j = N j := fun j hj => by
      rw [hn₁, update_of_ne hj]
    have htype : (s₁.itable ip).type = (N i).type := by
      rw [← congrArg Attr.type (h₁.perm (List.Perm.swap ..)).attr, ho₁ i hne]
    have hdt₁ : (s₁.disk.nodes d).type = T_DIR := by
      rw [hd₁]
      simp only [hw.attr]
      exact hdt
    have hnl₁ : (s₁.disk.nodes d).nlink = (N d).nlink := by
      rw [hd₁]
      simp only [hw.attr]
    rw [← hd₁] at hset
    rw [wp_bind, wp_stopIf]
    refine ⟨fun hr => absurd rfl hr, fun _ => ?_⟩
    rw [wp_bind, wp_getInode, wp_bind, wp_runIf, htype]
    refine ⟨fun ht => ?_, fun ht => ?_⟩
    · rw [wp_bind, wp_modifyInode]
      refine wp_setAttr (fun a => { a with nlink := short (a.nlink - 1) }) h₁ hop hF.tooBig rfl
        rfl rfl (short_short _) fun s₂ hn₂ h₂ => ?_
      have hd₂ : s₂.disk.nodes d = { s₁.disk.nodes d with
          nlink := short ((s₁.disk.nodes d).nlink - 1) } := by rw [hn₂, update_self]
      refine hrest s₂ (fun j hj => by rw [hn₂, update_of_ne hj, ho₁ j hj])
        ⟨hdt, ?_, htwo, hnamed.1.le, ?_, ?_⟩ h₂
      · rw [hd₂]
        exact hdt₁
      · rw [hd₂]
        exact ⟨hset.size, hset.inum, hset.name, hset.other⟩
      · rw [hd₂, if_pos ht, hnl₁]
    · refine hrest s₁ ho₁ ⟨hdt, hdt₁, htwo, hnamed.1.le, hset, ?_⟩ h₁
      rw [if_neg ht, hnl₁]
  · -- the block of an entry is mapped
    have : 0 < DIRENT := by decide
    rw [hok.mapped_div (by omega)] at hmap
    cases hmap

theorem wp_sysUnlink {path : Option (List UInt8)} (hsb : sb.Valid) (h : Inv sb B T o s [] ∅)
    (ho : 0 ≤ o) (hcwd : 0 < B cwd) (hF : Benign F) (hN : F .noType ∨ Closed s.disk.nodes)
    (hfail : ∀ s', Kept s.disk.nodes s'.disk.nodes → Inv sb B T o s' [] ∅ → Q (-1) s')
    (hok : ∀ s' M d k i p name, path = some p →
      resolve s.disk.nodes (T cwd).1 p true = some (d, name) → canon name ≠ dot →
      canon name ≠ dotdot → Unlinked s.disk.nodes M d k i name → Settle M s'.disk.nodes →
      Inv sb B T o s' [] ∅ → Q 0 s') :
    wp (sysUnlink sb cwd path) (fun e _ => F e) Q s := by
  have hop : 1 ≤ o + 1 := by omega
  unfold sysUnlink
  rcases path with _ | p
  · exact hfail s (.refl _) h
  simp only
  rw [wp_bind]
  refine wp_beginOp h ho hF.sleep fun s₁ hd₁ _ h₁ => ?_
  rw [← hd₁] at hfail hok hN
  rw [wp_bind]
  refine wp_nameiparent h₁ hop hcwd hF hN (fun s₂ _ hd₂ h₂ => ?_)
    fun dp d name s₂ hr₂ hd₂ h₂ hlast₂ ht₂ => ?_
  · simp only
    rw [wp_bind]
    exact wp_endOp h₂ fun s₃ hd₃ _ h₃ => hfail s₃ (hd₃ ▸ hd₂ ▸ .refl _) h₃
  have hdir := h₁.dir d (Set.notMem_empty _) ht₂
  simp only
  rw [wp_bind]
  refine wp_ilock h₂ (fun _ => hF.sleep) (fun h₀ => ?_) fun s₃ hd₃ _ h₃ => ?_
  · rw [hd₂, ht₂] at h₀
    cases h₀
  have hd₃' := hd₃.trans hd₂
  have hbad : ∀ s' : State, s'.disk = s₁.disk →
      Inv sb B T (o + 1) s' [⟨dp, d, true⟩] ∅ → wp (unlinkBad sb dp) (fun e _ => F e) Q s' := by
    intro s' hd hI
    refine wp_unlinkBad hI ho (fun h' => hlast₂ ((Last.disk hd).mp h')) fun s'' hd'' hI' => ?_
    exact hfail s'' (hd''.trans hd ▸ .refl _) hI'
  have hbad₃ : wp (unlinkBad sb dp) (fun e _ => F e) Q s₃ := hbad s₃ hd₃' h₃
  rw [wp_ite, namecmp_eq_zero, namecmp_eq_zero, canon_dot, canon_dotdot, not_or]
  refine ⟨fun _ => hbad₃, fun ⟨hdot, hdotdot⟩ => ?_⟩
  rw [wp_bind]
  refine wp_dirlookup h₃ (congrArg (Disk.nodes · d) hd₃') ht₂ hdir.aligned hF.iget
    (fun _ => hbad₃) fun ip k s₄ hf₄ hd₄ h₄ hlast₄ => ?_
  have hd₄' := hd₄.trans hd₃'
  obtain ⟨i, hi⟩ : ∃ i, i = (s₁.disk.nodes d).inum k := ⟨_, rfl⟩
  rw [← hi] at h₄ hlast₄
  replace hlast₄ := hlast₄ (Set.notMem_empty _)
  simp only
  rw [wp_bind]
  refine wp_ilock h₄ (fun _ => hF.sleep) (fun h₀ => ?_) fun s₅ hd₅ ht₅ h₅ => ?_
  · have hnamed := Node.find_eq_some hf₄
    rw [hd₄', hi] at h₀
    exact hN.resolve_right fun hc => hc.entry d ht₂ k hnamed.1 hnamed.2.1 h₀
  have hd₅' := hd₅.trans hd₄'
  have hattr := h₅.attr
  rw [hd₅'] at hattr
  rw [wp_bind, wp_getInode, ← congrArg Attr.nlink hattr, ← congrArg Attr.type hattr, wp_bind,
    wp_stopIf]
  refine ⟨fun _ => hF.nlink, fun hnl => ?_⟩
  have hgo : ∀ b : Bool, (b = true → (s₁.disk.nodes i).type = T_DIR →
      ∀ j, 2 ≤ j → j < (s₁.disk.nodes i).entries → (s₁.disk.nodes i).inum j = 0) →
      wp (if (!b) = true then do iunlockput sb ip; unlinkBad sb dp
        else unlinkEntry sb dp ip (k * DIRENT)) (fun e _ => F e) Q s₅ := by
    intro b hb
    rw [wp_ite]
    refine ⟨fun _ => ?_, fun hb' => ?_⟩
    · rw [wp_bind]
      exact wp_iunlockput_keep h₅ hop (fun hl => hlast₄ ((Last.disk (hd₅.trans hd₄)).mp hl))
        fun s₆ hd₆ h₆ => hbad s₆ (hd₆.trans hd₅') h₆
    · exact wp_unlinkEntry hsb h₅ ho hF (congrArg Disk.nodes hd₅') ht₂ hf₄ hi.symm hdot hdotdot
        (by omega) (hb (by simpa using hb')) fun s' M =>
          hok s' M d k i p name rfl hr₂ hdot hdotdot
  rw [wp_bind, wp_ite]
  refine ⟨fun hdir' => ?_, fun hfile => ?_⟩
  · refine wp_isdirempty h₅ (congrArg (Disk.nodes · i) hd₅')
      (h₁.dir i (Set.notMem_empty _) hdir').aligned fun b hb => ?_
    exact hgo b fun hb' _ => hb.mp hb'
  · exact hgo true fun _ hdir' => absurd hdir' hfile

end Unlink

section Create

variable {t major minor : ℤ} {a : Attr}

/-- A locked directory under construction is complete. -/
theorem Inv.close (h : Inv sb B T o s (⟨ip, i, true⟩ :: R) {i})
    (hd : (s.disk.nodes i).type = T_DIR → (s.disk.nodes i).IsDir i) :
    Inv sb B T o s (⟨ip, i, true⟩ :: R) ∅ := by
  refine { h with dir := fun j _ ht => ?_, unlinked := fun j _ ht hn => ?_ }
  · rcases eq_or_ne j i with rfl | hj
    · exact hd ht
    · exact h.dir j hj ht
  · rcases eq_or_ne j i with rfl | hj
    · obtain ⟨hi, -, -, hr⟩ := h.inode
      exact ⟨ip, hr, h.valid ip ((h.locked ip).mpr ⟨_, List.mem_cons_self, rfl, rfl⟩), hi⟩
    · exact h.unlinked j hj ht hn

/-- The failure of `create` gives the new inode back. -/
theorem wp_createFail {Q : Option Iptr → State → Prop}
    (h : Inv sb B T o s [⟨ip, i, true⟩, ⟨dp, d, true⟩] {i}) (ho : 1 ≤ o) (hB : B ip = 0)
    (hl : ¬ Last s B [] dp d) (hF : Benign F)
    (hQ : ∀ s', s'.disk.nodes = update s.disk.nodes i .free →
      Inv sb B T o s' [] ∅ → Q none s') :
    wp (createFail sb dp ip) (fun e _ => F e) Q s := by
  unfold createFail
  rw [wp_bind, wp_modifyInode, wp_bind]
  refine wp_setAttr (fun a => { a with nlink := 0 }) h ho hF.tooBig rfl rfl rfl rfl
    fun s₁ hn₁ h₁ => ?_
  have hi₁ : s₁.disk.nodes i = { s.disk.nodes i with nlink := 0 } := by
    rw [hn₁, update_self]
  have hne : d ≠ i := h.inum_ne.symm
  rw [wp_bind]
  refine wp_iunlockput h₁ ho (fun _ => hF.tooBig) (fun s₂ hl => absurd ?_ hl) fun s₂ _ hn₂ h₂ => ?_
  · have hne : dp ≠ ip := fun he =>
      List.rel_of_pairwise_cons h₁.once List.mem_cons_self he.symm ⟨rfl, rfl⟩
    refine ⟨?_, by rw [hi₁], hB, by simp [hne]⟩
    rw [congrArg Attr.type h₁.attr]
    exact h₁.inode.2.2.1
  · rw [Set.sdiff_self] at h₂
    rw [hn₁, update_idem] at hn₂
    rw [wp_bind]
    refine wp_iunlockput_keep h₂ ho (fun hl' => hl ?_) fun s₃ hd₃ h₃ => ?_
    · unfold Last at hl' ⊢
      rwa [hn₂, update_of_ne hne] at hl'
    · exact hQ s₃ (hd₃ ▸ hn₂) h₃

/-- The first two entries of a new directory. -/
theorem wp_linkDots {Q : Bool → State → Prop} (hsb : sb.Valid)
    (h : Inv sb B T o s (⟨ip, i, true⟩ :: ⟨dp, d, true⟩ :: R) {i}) (ho : 1 ≤ o) (hF : Benign F)
    (hnd : s.disk.nodes i = .empty a) (ht : a.type = T_DIR) (hs : a.size = 0)
    (hfalse : ∀ s' nd', s'.disk.nodes = update s.disk.nodes i nd' →
      Inv sb B T o s' (⟨ip, i, true⟩ :: ⟨dp, d, true⟩ :: R) {i} →
      Q false s')
    (htrue : ∀ s' nd', s'.disk.nodes = update s.disk.nodes i nd' →
      nd'.type = T_DIR → nd'.nlink = a.nlink → nd'.entries = 2 → nd'.inum 1 = d → nd'.IsDir i →
      Inv sb B T o s' (⟨ip, i, true⟩ :: ⟨dp, d, true⟩ :: R) {i} → Q true s') :
    wp (linkDots sb dp ip) (fun e _ => F e) Q s := by
  have hninodes := hsb.ninodes_le
  have hi := h.range i (by rw [hnd, ht]; decide)
  have hdp := (h.perm (List.Perm.swap ..)).inode
  have hd := h.range d (by
    rw [congrArg Attr.type (h.perm (List.Perm.swap ..)).attr]
    exact hdp.2.2.1)
  have hentries : (Node.empty a).entries = 0 := by
    unfold Node.entries
    rw [hs, Nat.zero_div]
  have hmap : (Node.empty a).IsMap := by
    refine ⟨by rw [hs, Nat.zero_mod], fun j j' name hj => ?_⟩
    have := hj.1
    omega
  have hlook : ∀ name, (Node.empty a).lookup name = none := fun name => by
    rw [Node.lookup_eq_none]
    intro j hj
    have := hj.1
    omega
  unfold linkDots
  rw [wp_bind, wp_getInode, h.inode.1, wp_bind]
  refine wp_dirlink hsb h ho hnd ht hmap (by omega) (by omega)
    (fun hne => absurd (hlook dot) hne) hF.tooBig hF.iget (fun s₁ m hn₁ h₁ => ?_)
    fun s₁ nd₁ k hn₁ hset₁ hk hfree hnew hattr₁ h₁ => ?_
  · rw [if_pos (by decide)]
    exact hfalse s₁ _ hn₁ h₁
  obtain rfl : k = 0 := by omega
  rw [if_neg (by decide), wp_bind, wp_getInode, (h₁.perm (List.Perm.swap ..)).inode.1, wp_bind]
  have hnd₁ : s₁.disk.nodes i = nd₁ := by rw [hn₁, update_self]
  obtain ⟨hmap₁, -, hother₁⟩ := hset₁.add hmap (Nat.zero_le _) (by omega) hfree
    (by rw [Node.lookup, Node.find_congr cut_strncpy]; exact hlook dot)
  have hentries₁ : nd₁.entries = 1 := by
    rw [hset₁.entries hmap.aligned, hentries]
    rfl
  have hlook₁ : nd₁.lookup dotdot = none := by
    rw [hother₁ dotdot (by decide)]
    exact hlook dotdot
  have ht₁ : nd₁.type = T_DIR := by
    rw [congrArg Attr.type hattr₁]
    exact ht
  refine wp_dirlink hsb h₁ ho hnd₁ ht₁ hmap₁ (by omega) (by omega)
    (fun hne => absurd hlook₁ hne) hF.tooBig hF.iget (fun s₂ m hn₂ h₂ => ?_)
    fun s₂ nd₂ k hn₂ hset₂ hk₂ hfree₂ _ hattr₂ h₂ => ?_
  · rw [hn₁, update_idem] at hn₂
    exact hfalse s₂ _ hn₂ h₂
  obtain rfl : k = 1 := by
    have : k ≠ 0 := by
      rintro rfl
      have := hset₁.inum.symm.trans (hfree₂ (by omega))
      omega
    omega
  rw [hn₁, update_idem] at hn₂
  have hentries₂ : nd₂.entries = 2 := by
    rw [hset₂.entries hmap₁.aligned, hentries₁]
    rfl
  have hself := hset₂.other 0 (by decide)
  refine htrue s₂ nd₂ hn₂ ?_ ?_ hentries₂ hset₂.inum ?_ h₂
  · rw [congrArg Attr.type hattr₂]
    exact ht₁
  · rw [congrArg Attr.nlink hattr₂, congrArg Attr.nlink hattr₁]
  · refine ⟨(hset₂.add hmap₁ hk₂ (by omega) hfree₂ ?_).1, hentries₂.ge, ?_, ?_⟩
    · rw [Node.lookup, Node.find_congr cut_strncpy]
      exact hlook₁
    · rw [hself.1, hself.2, hset₁.inum, hset₁.name]
      exact ⟨rfl, rfl⟩
    · rw [hset₂.inum, hset₂.name]
      exact ⟨by omega, rfl⟩

/-- A new inode and its entry in directory `d`. -/
theorem wp_createNew {Q : Option Iptr → State → Prop} (hsb : sb.Valid)
    (h : Inv sb B T o s [⟨dp, d, true⟩] ∅) (ho : 1 ≤ o) (hF : Benign F) (hN : s.disk.nodes = N)
    (hdt : (N d).type = T_DIR) (hfind : (N d).find name = none) (ht : t ≠ 0)
    (hlast : ¬ Last s B [] dp d)
    (hnone : ∀ s', Kept N s'.disk.nodes → Inv sb B T o s' [] ∅ → Q none s')
    (hsome : ∀ s' M ip k i, Made N M d k i name t → Settle M s'.disk.nodes →
      Inv sb B T o s' [⟨ip, i, true⟩] ∅ → Q (some ip) s') :
    wp (createNew sb dp name t major minor) (fun e _ => F e) Q s := by
  have hdir : (N d).IsDir d := hN ▸ h.dir d (Set.notMem_empty _) (hN ▸ hdt)
  have hlook : (N d).lookup name = none := by rw [Node.lookup, hfind, Option.map_none]
  have hdrange := h.range d (by rw [hN, hdt]; decide)
  have hdev : (s.itable dp).dev = ROOTDEV := h.dev dp h.inode.2.2.2
  have hninodes := hsb.ninodes_le
  unfold createNew
  rw [wp_bind, wp_getInode, hdev, wp_bind]
  refine wp_ialloc h ho ht (by simp [hN, hdt]) hF.tooBig hF.iget ?_
    fun ip i s₁ hfree hpos hlt hn₁ hB h₁ => ?_
  · simp only
    rw [wp_bind]
    exact wp_iunlockput_keep h ho hlast fun s₁ hd₁ h₁ =>
      hnone s₁ (hN ▸ hd₁ ▸ .refl _) h₁
  have hfree' : N i = .free := by
    rw [← hN]
    exact Disk.nodes_of_type (by rwa [← Disk.nodes_type])
  have hid : i ≠ d := by
    rintro rfl
    rw [hN, hdt] at hfree
    cases hfree
  rw [insert_empty_eq] at h₁
  rw [hN] at hn₁
  have hi₁ : s₁.disk.nodes i = .empty (Dinode.new t).toAttr := by rw [hn₁, update_self]
  simp only
  rw [wp_bind]
  refine wp_ilock h₁ (fun _ => hF.sleep) (fun h₀ => ?_) fun s₂ hd₂ _ h₂ => ?_
  · rw [hi₁] at h₀
    exact absurd h₀ ht
  rw [wp_bind, wp_modifyInode, wp_bind]
  refine wp_setAttr (fun a => { a with major := major, minor := minor, nlink := 1 }) h₂ ho
    hF.tooBig rfl rfl rfl rfl fun s₃ hn₃ h₃ => ?_
  rw [hd₂, hi₁, hn₁, update_idem] at hn₃
  -- a failure leaves no trace of the new inode
  have hfail : ∀ s' : State, (∀ j ≠ i, (N j).Alike (s'.disk.nodes j)) →
      Inv sb B T o s' [⟨ip, i, true⟩, ⟨dp, d, true⟩] {i} →
      wp (createFail sb dp ip) (fun e _ => F e) Q s' := fun s' hs hI => by
    refine wp_createFail hI ho hB (fun hl' => hlast ?_) hF fun s'' hn'' hI' =>
      hnone s'' (fun j => ?_) hI'
    · unfold Last at hl' ⊢
      rwa [(hs d hid.symm).same.type, (hs d hid.symm).same.nlink, ← hN] at hl'
    · rw [hn'']
      rcases eq_or_ne j i with rfl | hj
      · rw [update_self, hfree']
        exact .refl _
      · rw [update_of_ne hj]
        exact hs j hj
  -- the entry in the parent, once the new inode is complete
  have hrest : ∀ (s₄ : State) (ndi : Node), s₄.disk.nodes = update N i ndi →
      ndi.type = t → ndi.nlink = 1 → (t = T_DIR → ndi.entries = 2 ∧ ndi.inum 1 = d) →
      (t = T_DIR → ndi.IsDir i) → Inv sb B T o s₄ [⟨ip, i, true⟩, ⟨dp, d, true⟩] {i} →
      wp (do
        let n ← getInode ip
        let r ← dirlink sb dp name n.inum
        if r < 0 then createFail sb dp ip
        else do
          runIf (t = T_DIR) do
            modifyInode dp fun d => { d with nlink := short (d.nlink + 1) }
            iupdate sb dp
          iunlockput sb dp
          pure (some ip)) (fun e _ => F e) Q s₄ := by
    intro s₄ ndi hn₄ hti hli hdots hdiri h₄
    have hi₄ : s₄.disk.nodes i = ndi := by rw [hn₄, update_self]
    have hd₄ : s₄.disk.nodes d = N d := by rw [hn₄, update_of_ne hid.symm]
    have h₄' := h₄.close fun htd => hi₄ ▸ hdiri (hti ▸ hi₄ ▸ htd)
    rw [wp_bind, wp_getInode, h₄.inode.1, wp_bind]
    refine wp_dirlink hsb (h₄'.perm (List.Perm.swap ..)) ho hd₄ hdt hdir.toIsMap (by omega)
      (by omega) (fun hne => absurd hlook hne) hF.tooBig hF.iget (fun s₅ m hn₅ h₅ => ?_)
      fun s₅ ndd k hn₅ hset hk hkfree _ hattr h₅ => ?_
    · rw [if_pos (by decide)]
      refine hfail s₅ (fun j hj => ?_)
        ((h₅.perm (List.Perm.swap ..)).mono (Set.empty_subset _))
      rcases eq_or_ne j d with rfl | hjd
      · rw [hn₅, update_self]
        exact ⟨rfl, rfl⟩
      · rw [hn₅, update_of_ne hjd, hn₄, update_of_ne hj]
        exact .refl _
    rw [if_neg (by decide), wp_bind]
    have hd₅ : s₅.disk.nodes d = ndd := by rw [hn₅, update_self]
    have hi₅ : s₅.disk.nodes i = ndi := by rw [hn₅, update_of_ne hid, hi₄]
    have htwo := hdir.two_le_of_free (by omega) hk hkfree
    have hend : ∀ s₆ : State, (∀ j ≠ d, s₆.disk.nodes j = s₅.disk.nodes j) →
        Entered N s₆.disk.nodes d k i (strncpy DIRSIZ name)
          (if t = T_DIR then short ((N d).nlink + 1) else (N d).nlink) →
        Inv sb B T o s₆ [⟨dp, d, true⟩, ⟨ip, i, true⟩] ∅ →
        wp (do iunlockput sb dp; pure (some ip)) (fun e _ => F e) Q s₆ := by
      intro s₆ ho₆ henter h₆
      have hi₆ : s₆.disk.nodes i = ndi := by rw [ho₆ i hid, hi₅]
      rw [wp_bind]
      refine wp_iunlockput_settle h₆ ho hF.tooBig fun s₇ hs₇ _ h₇ => ?_
      refine hsome s₇ s₆.disk.nodes ip k i ⟨henter, hkfree, hlook, by rw [hfree']; rfl, hi₆ ▸ hti,
        hi₆ ▸ hli, hi₆ ▸ hdots, fun j hjd hji => ?_⟩ hs₇ h₇
      rw [ho₆ j hjd, hn₅, update_of_ne hjd, hn₄, update_of_ne hji]
    rw [wp_runIf]
    refine ⟨fun htd => ?_, fun htd => ?_⟩
    · rw [wp_bind, wp_modifyInode]
      refine wp_setAttr (fun a => { a with nlink := short (a.nlink + 1) }) h₅ ho hF.tooBig rfl
        rfl rfl (short_short _) fun s₆ hn₆ h₆ => ?_
      have hd₆ : s₆.disk.nodes d = { ndd with nlink := short (ndd.nlink + 1) } := by
        rw [hn₆, update_self, hd₅]
      refine hend s₆ (fun j hj => by rw [hn₆, update_of_ne hj])
        ⟨hdt, ?_, htwo, hk, ?_, ?_⟩ h₆
      · rw [hd₆]
        exact (congrArg Attr.type hattr).trans hdt
      · rw [hd₆]
        exact ⟨hset.size, hset.inum, hset.name, hset.other⟩
      · rw [hd₆, if_pos htd, congrArg Attr.nlink hattr]
    · refine hend s₅ (fun j _ => rfl) ⟨hdt, ?_, htwo, hk, hd₅ ▸ hset, ?_⟩ h₅
      · rw [hd₅]
        exact (congrArg Attr.type hattr).trans hdt
      · rw [hd₅, if_neg htd, congrArg Attr.nlink hattr]
  rw [wp_bind, wp_ite]
  refine ⟨fun htd => ?_, fun htd => ?_⟩
  · refine wp_linkDots hsb h₃ ho hF (by rw [hn₃, update_self]) htd rfl
      (fun s₄ ndi hn₄ h₄ => ?_) fun s₄ ndi hn₄ hti hli he hp hdi h₄ => ?_
    · rw [hn₃, update_idem] at hn₄
      rw [Bool.not_false, if_pos rfl]
      refine hfail s₄ (fun j hj => ?_) h₄
      rw [hn₄, update_of_ne hj]
      exact .refl _
    · rw [hn₃, update_idem] at hn₄
      rw [Bool.not_true, if_neg Bool.false_ne_true]
      exact hrest s₄ ndi hn₄ (hti.trans htd.symm) hli (fun _ => ⟨he, hp⟩) (fun _ => hdi) h₄
  · rw [wp_pure, Bool.not_true, if_neg Bool.false_ne_true]
    exact hrest s₃ _ hn₃ rfl rfl (fun hd => absurd hd htd) (fun hd => absurd hd htd) h₃

theorem wp_create {Q : Option Iptr → State → Prop} (hsb : sb.Valid)
    (h : Inv sb B T o s [] ∅) (ho : 1 ≤ o) (hcwd : 0 < B cwd) (hF : Benign F)
    (hN : F .noType ∨ Closed s.disk.nodes) (ht : t ≠ 0)
    (hnone : ∀ s', Kept s.disk.nodes s'.disk.nodes → Inv sb B T o s' [] ∅ → Q none s')
    (hold : ∀ s' ip i, s'.disk = s.disk → t = T_FILE →
      (s'.disk.nodes i).type = T_FILE ∨ (s'.disk.nodes i).type = T_DEVICE →
      Inv sb B T o s' [⟨ip, i, true⟩] ∅ → ¬ Last s' B [] ip i → Q (some ip) s')
    (hnew : ∀ s' M ip d k i name, resolve s.disk.nodes (T cwd).1 path true = some (d, name) →
      Made s.disk.nodes M d k i name t → Settle M s'.disk.nodes →
      Inv sb B T o s' [⟨ip, i, true⟩] ∅ → Q (some ip) s') :
    wp (create sb cwd path t major minor) (fun e _ => F e) Q s := by
  unfold create
  rw [wp_bind]
  refine wp_nameiparent h ho hcwd hF hN
    (fun s₁ _ hd₁ h₁ => hnone s₁ (hd₁ ▸ .refl _) h₁)
    fun dp d name s₁ hr₁ hd₁ h₁ hl₁ ht₁ => ?_
  have hdir := h.dir d (Set.notMem_empty _) ht₁
  simp only
  rw [wp_bind]
  refine wp_ilock h₁ (fun _ => hF.sleep) (fun h₀ => ?_) fun s₂ hd₂ _ h₂ => ?_
  · rw [hd₁, ht₁] at h₀
    cases h₀
  have hd₂' := hd₂.trans hd₁
  rw [wp_bind]
  refine wp_dirlookup h₂ (congrArg (Disk.nodes · d) hd₂') ht₁ hdir.aligned hF.iget
    (fun hf => ?_) fun ip k s₃ hf hd₃ h₃ hl₃ => ?_
  · exact wp_createNew hsb h₂ ho hF (congrArg Disk.nodes hd₂') ht₁ hf ht
      (fun hl => hl₁ ((Last.disk hd₂').mp hl)) hnone
      fun s' M ip k i => hnew s' M ip d k i name hr₁
  obtain ⟨i, hi⟩ : ∃ i, i = (s.disk.nodes d).inum k := ⟨_, rfl⟩
  rw [← hi] at h₃ hl₃
  have hd₃' := hd₃.trans hd₂'
  simp only
  rw [wp_bind]
  refine wp_iunlockput (h₃.perm (List.Perm.swap ..)) ho (fun _ => hF.tooBig) (fun s₄ _ hd₄ h₄ => ?_)
    fun s₄ hl => absurd ?_ hl₁
  · have hd₄' := hd₄.trans hd₃'
    rw [wp_bind]
    refine wp_ilock h₄ (fun _ => hF.sleep) (fun h₀ => ?_) fun s₅ hd₅ _ h₅ => ?_
    · have hnamed := Node.find_eq_some hf
      rw [hd₄', hi] at h₀
      exact hN.resolve_right fun hc => hc.entry d ht₁ k hnamed.1 hnamed.2.1 h₀
    have hd₅' := hd₅.trans hd₄'
    have hlast₅ : ¬ Last s₅ B [] ip i := by
      rw [Last.disk (hd₅.trans hd₄)]
      exact h₃.not_last (fun hl => hl₁ ((Last.disk hd₃').mp hl))
        fun hl => hl₃ (Set.notMem_empty _) ((Last.disk hd₃).mp hl)
    rw [wp_bind, wp_getInode, ← congrArg Attr.type h₅.attr, wp_ite]
    refine ⟨fun hc => hold s₅ ip i hd₅' hc.1 hc.2 h₅ hlast₅, fun _ => ?_⟩
    rw [wp_bind]
    exact wp_iunlockput_keep h₅ ho hlast₅ fun s₆ hd₆ h₆ =>
      hnone s₆ (hd₆.trans hd₅' ▸ .refl _) h₆
  · obtain ⟨e₁, e₂, e₃, e₄⟩ := (Last.disk hd₃').mp hl
    rw [refs_cons] at e₄
    exact ⟨e₁, e₂, e₃, by omega⟩

/-- `sys_mkdir` and `sys_mknod`. -/
theorem wp_makeOp {path : Option (List UInt8)} (hsb : sb.Valid) (h : Inv sb B T o s [] ∅)
    (ho : 0 ≤ o) (hcwd : 0 < B cwd) (hF : Benign F) (hN : F .noType ∨ Closed s.disk.nodes)
    (ht : t ≠ 0) (htf : t ≠ T_FILE)
    (hfail : ∀ s', Kept s.disk.nodes s'.disk.nodes → Inv sb B T o s' [] ∅ → Q (-1) s')
    (hok : ∀ s' M d k i p name, path = some p →
      resolve s.disk.nodes (T cwd).1 p true = some (d, name) → Made s.disk.nodes M d k i name t →
      Settle M s'.disk.nodes → Inv sb B T o s' [] ∅ → Q 0 s') :
    wp (do beginOp; makeNode sb cwd path t major minor) (fun e _ => F e) Q s := by
  rw [wp_bind]
  refine wp_beginOp h ho hF.sleep fun s₁ hd₁ _ h₁ => ?_
  rw [← hd₁] at hfail hok hN
  have hend : ∀ s' : State, Kept s₁.disk.nodes s'.disk.nodes → Inv sb B T (o + 1) s' [] ∅ → wp (do endOp; pure (-1)) (fun e _ => F e) Q s' := by
    intro s' hs hI
    rw [wp_bind]
    exact wp_endOp hI fun s'' hd _ hI' => hfail s'' (hd ▸ hs) hI'
  rw [makeNode, wp_bind]
  rcases path with _ | p
  · exact hend s₁ (.refl _) h₁
  refine wp_create hsb h₁ (by omega) hcwd hF hN ht hend (fun _ _ _ _ hfile => absurd hfile htf)
    fun s₂ M ip d k i name hr hm hs₂ h₂ => ?_
  simp only
  rw [wp_bind]
  refine wp_iunlockput_settle h₂ (by omega) hF.tooBig fun s₃ hs₃ _ h₃ => ?_
  rw [wp_bind]
  exact wp_endOp h₃ fun s₄ hd₄ _ h₄ =>
    hok s₄ M d k i p name rfl hr hm (hd₄ ▸ hs₂.trans hs₃) h₄

end Create

/-! ## A small file system -/

/-- A disk of 50 blocks. -/
def smallFs.superblock : Superblock :=
  { size := 50, ninodes := 16, nlog := 30, inodestart := 32, bmapstart := 33 }

/-- The entries `.`, `..` and `a` of the root directory. -/
def smallFs.root : Block :=
  ((((Bytes.zero.set16 0 1).set 2 46).set16 16 1).blit 18 (fun _ => 46) 2).set16 32 2 |>.set 34 97

/-- A root directory with an empty file, and a process whose current directory it is. -/
def smallFs : State where
  disk :=
    { dinode := fun i =>
        if i = 1 then
          { type := T_DIR, major := 0, minor := 0, nlink := 1, size := 48,
            addrs := fun k => if k = 0 then 34 else 0 }
        else
          { type := if i = 2 then T_FILE else 0, major := 0, minor := 0, nlink := 1, size := 0,
            addrs := fun _ => 0 }
      bitmap := fun b => b < 35
      data := fun b => if b = 34 then smallFs.root else Bytes.zero }
  held := []
  log := { start := 2, size := 30, outstanding := 0, committing := false, dev := 1, lh := [] }
  itable := fun k =>
    { type := 0, major := 0, minor := 0, nlink := 0, size := 0, addrs := fun _ => 0, dev := 1,
      inum := 1, ref := if k = 0 then 1 else 0, locked := false, valid := false }

theorem smallFs_slot (x : ℕ × Option ℕ) :
    smallFs.disk.slot x = if x = (1, some 0) then 34 else 0 := by
  obtain ⟨i, o⟩ := x
  by_cases hi : i = 1
  · subst hi
    cases o with
    | none => rfl
    | some bn =>
      by_cases hbn : bn = 0
      · subst hbn
        rfl
      · rw [if_neg (by simpa using hbn)]
        simp [Disk.slot, Disk.addr, smallFs, hbn]
  · rw [if_neg (by simp [hi])]
    unfold Disk.slot
    split
    · rfl
    · cases o <;> simp [Disk.addr, smallFs, hi]

theorem own_smallFs : Own smallFs.superblock smallFs.disk := by
  refine ⟨by decide, fun x y hx he => ?_, fun x hx => ?_, fun b hb => ?_⟩
  · rw [smallFs_slot] at hx
    rw [smallFs_slot, smallFs_slot] at he
    split_ifs at hx he with h₁ h₂
    · rw [h₁, h₂]
    · omega
  · rw [smallFs_slot] at hx ⊢
    split_ifs at hx ⊢
    · decide
    · omega
  · have hbit : smallFs.disk.bitmap b = true ↔ b < 35 := decide_eq_true_iff
    have hlo : smallFs.superblock.datastart = 34 := by decide
    simp only [smallFs_slot, hbit, hlo]
    constructor
    · intro h
      rcases Nat.lt_or_ge b 34 with h' | h'
      · exact .inl h'
      · obtain rfl : b = 34 := by omega
        exact .inr ⟨(1, some 0), rfl⟩
    · rintro (h | ⟨x, hx⟩)
      · omega
      · split_ifs at hx <;> omega

theorem smallFs_type {i : ℕ} (h : (smallFs.disk.nodes i).type ≠ 0) : i = 1 ∨ i = 2 := by
  rw [Disk.nodes_type] at h
  by_contra hc
  obtain ⟨h₁, h₂⟩ := not_or.mp hc
  exact h (by simp [smallFs, h₁, h₂])

theorem isDir_smallFs : (smallFs.disk.nodes 1).IsDir 1 := by
  have hsep : ∀ j < 3, ∀ j' < 3, canon ((smallFs.disk.nodes 1).name j) =
      canon ((smallFs.disk.nodes 1).name j') → j = j' := by decide
  refine ⟨⟨by decide, fun j j' name hj hj' => ?_⟩, by decide, by decide, by decide⟩
  exact hsep j hj.1 j' hj'.1 (hj.2.2.trans hj'.2.2.symm)

/-- The current directory is the only reference. -/
def smallFs.refs : Iptr → ℕ := fun k => if k = 0 then 1 else 0

theorem inv_smallFs : Inv smallFs.superblock smallFs.refs (fun _ => (1, T_DIR)) 0 smallFs [] ∅ where
  held := rfl
  log := ⟨rfl, rfl, rfl, fun _ => rfl⟩
  own := own_smallFs
  node i := by
    by_cases h : (smallFs.disk.nodes i).type = 0
    · rw [Disk.nodes_of_type (by rwa [Disk.nodes_type] at h)]
      exact .free
    rcases smallFs_type h with rfl | rfl
    · refine ⟨by decide, fun bn hbn => ?_⟩
      have hsize : (smallFs.disk.nodes 1).size = 48 := by decide
      have hbn : bn = 0 := by unfold BSIZE at hbn; omega
      rw [hbn]
      decide
    · refine ⟨by decide, fun bn hbn => ?_⟩
      have hsize : (smallFs.disk.nodes 2).size = 0 := by decide
      omega
  nlink i := by
    by_cases h : (smallFs.disk.nodes i).type = 0
    · rw [Disk.nodes_of_type (by rwa [Disk.nodes_type] at h)]
      decide
    rcases smallFs_type h with rfl | rfl <;> decide
  dir i _ h := by
    rcases smallFs_type (by rw [h]; decide) with rfl | rfl
    · exact isDir_smallFs
    · exact absurd h (by decide)
  range i h := by
    rcases smallFs_type h with rfl | rfl <;> decide
  ref _ := rfl
  inum _ h := nomatch h
  dev _ _ := rfl
  unique k k' h h' _ := by
    have key : ∀ k, 0 < (smallFs.itable k).ref → k = 0 := fun k hk => by
      by_contra hc
      simp [smallFs, hc] at hk
    rw [key k h, key k' h']
  locked k := by simp [smallFs]
  once := .nil
  valid k h := by simp [smallFs] at h
  sync k _ h := by simp [smallFs] at h
  tag _ _ := by
    change (1, T_DIR) = (1, (smallFs.disk.nodes 1).type) ∧ (smallFs.disk.nodes 1).type ≠ 0
    decide
  unlinked i _ h h₀ := by
    rcases smallFs_type h with rfl | rfl <;> exact absurd h₀ (by decide)

/-! ## Failures -/

/-- If `m` returns -1, then nothing has changed. -/
def FailsClean (m : K ℤ) (s : State) : Prop :=
  ∀ s', m s = .ok (-1) s' → Untouched s.disk.nodes s'.disk.nodes

theorem FailsClean.of_ensures {m : K ℤ}
    (h : Ensures m (fun r s' => r = -1 → Kept s.disk.nodes s'.disk.nodes) s) : FailsClean m s :=
  fun _ hm => (h.ok hm rfl).untouched

theorem benign_true : Benign fun _ => True := ⟨trivial, trivial, trivial, trivial⟩

/-- The calls on names change everything they set out to change, or nothing. -/
theorem failed_calls_clean (hsb : sb.Valid) (h : Inv sb B T o s [] ∅) (ho : 0 ≤ o)
    (hcwd : 0 < B cwd) :
    (∀ old new, FailsClean (sysLink sb cwd old new) s) ∧
      (∀ path, FailsClean (sysUnlink sb cwd path) s) ∧
      (∀ path, FailsClean (sysMkdir sb cwd path) s) ∧
      ∀ path major minor, FailsClean (sysMknod sb cwd path major minor) s := by
  have hN : (fun _ : Halt => True) .noType ∨ Closed s.disk.nodes := .inl trivial
  refine ⟨fun old new => .of_ensures ?_, fun path => .of_ensures ?_, fun path => .of_ensures ?_,
    fun path major minor => .of_ensures ?_⟩
  · exact wp_sysLink hsb h ho hcwd benign_true hN (fun _ hk _ _ => hk)
      fun _ _ _ _ _ _ _ _ _ _ _ _ _ _ _ _ hr => by cases hr
  · exact wp_sysUnlink hsb h ho hcwd benign_true hN (fun _ hk _ _ => hk)
      fun _ _ _ _ _ _ _ _ _ _ _ _ _ _ hr => by cases hr
  · exact wp_makeOp hsb h ho hcwd benign_true hN (by decide) (by decide) (fun _ hk _ _ => hk)
      fun _ _ _ _ _ _ _ _ _ _ _ _ hr => by cases hr
  · exact wp_makeOp hsb h ho hcwd benign_true hN (by decide) (by decide) (fun _ hk _ _ => hk)
      fun _ _ _ _ _ _ _ _ _ _ _ _ hr => by cases hr

/-- A link of `a` to `x/y` raises the link count before it finds no directory `x`. -/
theorem link_small : wp (sysLink smallFs.superblock 0 (some [97]) (some [120, 47, 121]))
    (fun _ _ => False) (fun r _ => r = -1) smallFs := by
  decide +kernel

theorem failed_link_small : ∃ s', sysLink smallFs.superblock 0 (some [97]) (some [120, 47, 121])
    smallFs = .ok (-1) s' ∧ (s'.disk.nodes 2).nlink = 1 := by
  obtain ⟨r, s', hr, rfl⟩ := link_small.returns
  have hsb : smallFs.superblock.Valid := ⟨by decide, by decide⟩
  have hcwd : 0 < smallFs.refs 0 := by decide
  have hclean := (failed_calls_clean hsb inv_smallFs le_rfl hcwd).1 _ _ s' hr 2
  have hone : (smallFs.disk.nodes 2).nlink = 1 := by decide
  exact ⟨s', hr, (congrArg Attr.nlink hclean.1).trans hone⟩

end Xv6.Fs

import Xv6.Sys.Open

/-! # Calls on descriptors and names

Between two calls an open file has one reference for each descriptor, and an
entry of the inode table has one for each open file and each current directory
that holds it. `dup`, `close`, `open`, `chdir` and the calls on names keep it so.
-/

namespace Xv6

open Function

namespace Fs.Inv

variable {sb : Superblock} {B B' : Iptr → ℕ} {T : Iptr → ℕ × ℤ} {o : ℤ} {s : State} {R : List Ref}
  {X : Set ℕ} {ip : Iptr}

/-- A reference that lasts is given to the call. -/
theorem release (h : Inv sb B T o s R X) (hB : ∀ k, B k = B' k + if ip = k then 1 else 0) :
    Inv sb B' T o s (⟨ip, (s.itable ip).inum, false⟩ :: R) X where
  __ := h
  ref k := by
    rw [h.ref, hB, refs_cons]
    dsimp only
    omega
  inum r hr := by
    rcases List.mem_cons.mp hr with rfl | hr
    · rfl
    · exact h.inum r hr
  locked k := by simp [h.locked k]
  once := List.pairwise_cons.mpr ⟨by simp, h.once⟩
  tag k hk := h.tag k (by rw [hB]; omega)

end Fs.Inv

namespace Sys

open Fs

variable {sb : Superblock} {o : ℤ} {s s' : Kernel} {fs : State} {c : Fptr → ℕ} {f : Fptr}
  {R : List Ref} {p : Pptr} {fd : Fin NOFILE} {n pi : ℕ} {w : Bool} {F : Halt → Prop} {x : File}
  {B B' : Iptr → ℕ} {T : Iptr → ℕ × ℤ} {cwd : Iptr}

section Files

variable {Q : Unit → Kernel → Prop}

theorem wp_filedup (h : Mid sb o s c R) (hf : 0 < c f)
    (hQ : ∀ s', Mid sb o s' (c + one f) R → s'.proc = s.proc → Q () s') :
    wp (filedup f) (fun e _ => F e) Q s := by
  rw [filedup, wp_bind, wp_getFile, wp_bind, wp_stopIf]
  refine ⟨fun hc => absurd (h.files.ref f ▸ hc) (by omega), fun _ => ?_⟩
  rw [wp_modifyFile]
  refine hQ _ (h.setFile rfl (fun pi w => ?_) ?_ (fun g hg => ?_) (fun hc => ?_) (h.write f)) rfl
  · simp [IsEnd]
  · simp [h.files.ref]
  · rw [Pi.add_apply, one_of_ne hg.symm, Nat.add_zero]
  · simp at hc

/-- The last reference to an end of a pipe goes, and the pipe with its second end. -/
theorem Files.closeEnd {u : Option Pipe} (h : Files s (c + one f)) (hc : c f = 0)
    (hend : IsEnd s.ftable pi w f) (hx : x.type = .none) (hz : x.ref = 0)
    (hu : ∀ w', (∃ v ∈ u, v.isOpen w' = true) ↔ (∃ v ∈ s.pipe pi, v.isOpen w' = true) ∧ w' ≠ w) :
    Files ((s.setFile f x).setPipe pi u) c := by
  have hends : ∀ pi' w' g, IsEnd (update s.ftable f x) pi' w' g ↔
      g ≠ f ∧ IsEnd s.ftable pi' w' g := by
    intro pi' w' g
    rcases eq_or_ne g f with rfl | hg
    · simp [IsEnd, hx]
    · simp [IsEnd, hg]
  refine ⟨fun g => ?_, fun g hg => ?_, fun pi' w' => ?_, fun pi' w' g g' h₁ h₂ => ?_⟩
  · rcases eq_or_ne g f with rfl | hg
    · simp [hz, hc]
    · simp [hg, h.ref, one_of_ne hg.symm]
  · rcases eq_or_ne g f with rfl | hne
    · simpa using hx
    · simpa [hne] using h.idle g (by simp [hg, one_of_ne hne.symm])
  · simp only [Kernel.setPipe_pipe, Kernel.setFile_pipe, Kernel.setPipe_ftable,
      Kernel.setFile_ftable, hends]
    rcases eq_or_ne pi' pi with rfl | hpi
    · rw [update_self, hu, h.ends]
      constructor
      · rintro ⟨⟨g, hg⟩, hw⟩
        refine ⟨g, ?_, hg⟩
        rintro rfl
        exact hw (hg.2.2.symm.trans hend.2.2)
      · rintro ⟨g, hne, hg⟩
        refine ⟨⟨g, hg⟩, ?_⟩
        rintro rfl
        exact hne (h.inj pi' w' g f hg hend)
    · rw [update_of_ne hpi, h.ends]
      refine exists_congr fun g => (and_iff_right_of_imp ?_).symm
      rintro hg rfl
      exact hpi (hg.2.1.symm.trans hend.2.1)
  · exact h.inj pi' w' g g' ((hends _ _ _).mp h₁).2 ((hends _ _ _).mp h₂).2

theorem wp_fileclose (h : Mid sb o s (c + one f) []) (ho : 0 ≤ o) (hF : Benign F)
    (hQ : ∀ s', Mid sb o s' c [] → s'.proc = s.proc → Q () s') :
    wp (fileclose sb f) (fun e _ => F e) Q s := by
  have href : (s.ftable f).ref = c f + 1 := by rw [h.files.ref, Pi.add_apply, one_self]
  have hone : ∀ g ≠ f, c g = (c + one f) g := fun g hg => by
    rw [Pi.add_apply, one_of_ne hg.symm, Nat.add_zero]
  rw [fileclose, wp_bind, wp_getFile, wp_bind, wp_stopIf]
  refine ⟨fun hlt => absurd hlt (by omega), fun _ => ?_⟩
  rw [wp_bind, wp_modifyFile, wp_runIf]
  refine ⟨fun hlast => ?_, fun hmore => ?_⟩
  rotate_left
  · refine hQ _ (h.setFile rfl (fun pi w => ?_) ?_ hone (fun h₀ => ?_) (h.write f)) rfl
    · simp [IsEnd]
    · simp [href]
    · omega
  have hc : c f = 0 := by omega
  rw [wp_bind, wp_modifyFile, Kernel.setFile_setFile, Kernel.setFile_ftable, update_self]
  generalize hx : File.mk .none _ _ _ _ _ _ _ = x
  have hxt : x.type = .none := hx ▸ rfl
  have hxr : x.ref = 0 := by
    rw [← hx]
    exact Nat.sub_eq_zero_of_le hlast.le
  have hxi : x.inode = none := by rw [File.inode, hxt]
  have hwrite : NoDirWrite (update s.ftable f x) s.fs := h.write.update fun hi => by
    rw [hxt] at hi
    cases hi
  -- the file had no inode, or it gives its reference back
  have hinode : ∀ ip, (s.ftable f).inode = some ip → (∀ pi w, ¬ IsEnd s.ftable pi w f) →
      wp (onFs (iputOp sb ip)) (fun e _ => F e) Q (s.setFile f x) := by
    intro ip hip hnot
    have hrel := h.inodes.release fun k => (refs_clear (i := .inl f) hip).symm
    rw [← hxi, ← Kernel.holds_setFile] at hrel
    rw [wp_onFs]
    refine wp_iputOp hrel ho hF fun fs' _ hI =>
      hQ _ ⟨?_, hI.retag, NoDirWrite.setFs (s := s.setFile f x) hwrite hI⟩ rfl
    refine (h.files.setFile (fun pi w => ?_) (hxr.trans hc.symm) hone fun _ => hxt).congr rfl rfl
    exact iff_of_false (fun he => by simp [IsEnd, hxt] at he) (hnot pi w)
  cases ht : (s.ftable f).type with
  | none =>
    refine hQ _ (h.setFile ?_ (fun pi w => ?_) (hxr.trans hc.symm) hone (fun _ => hxt) ?_) rfl
    · rw [hxi, File.inode, ht]
    · simp [IsEnd, ht, hxt]
    · simp [hxt]
  | pipe =>
    obtain ⟨v, hv, -⟩ := (h.files.ends _ _).mpr ⟨f, ht, rfl, rfl⟩
    have hget : wp (getPipe (s.ftable f).pipe) (fun e _ => F e) (fun v' s' => v' = v ∧
        s' = s.setFile f x) (s.setFile f x) := by
      unfold wp getPipe
      rw [Kernel.setFile_pipe, hv]
      exact ⟨rfl, rfl⟩
    rw [pipeclose, wp_bind]
    refine hget.post ?_
    rintro u _ ⟨rfl, rfl⟩
    rw [wp_modify]
    refine hQ _ ⟨h.files.closeEnd hc ⟨ht, rfl, rfl⟩ hxt hxr fun w' => ?_, ?_, hwrite⟩ rfl
    · rw [hv]
      obtain ⟨data, nread, nwrite, r, wr⟩ := u
      cases (s.ftable f).writable <;> cases w' <;> cases r <;> cases wr <;> simp [Pipe.isOpen]
    · rw [Kernel.setPipe_holds, Kernel.holds_setFile_eq]
      · exact h.inodes
      · rw [hxi, File.inode, ht]
  | inode => exact hinode _ (by rw [File.inode, ht]) fun pi w he => by simp [IsEnd, ht] at he
  | device => exact hinode _ (by rw [File.inode, ht]) fun pi w he => by simp [IsEnd, ht] at he

end Files

/-- The kernel between two calls. -/
structure Valid (sb : Superblock) (s : Kernel) : Prop where
  mid : Mid sb 0 s (refs s.slots) []
  cwd : ∀ p, (s.proc p).state = .runnable → ∃ ip, (s.proc p).cwd = some ip

namespace Valid

theorem of_mid (h : Valid sb s) (hp : s'.proc = s.proc) (hm : Mid sb 0 s' (refs s.slots) []) :
    Valid sb s' := by
  have hslots : s'.slots = s.slots := slots_congr fun q => by rw [hp]
  exact ⟨by rwa [hslots], by rw [hp]; exact h.cwd⟩

/-- One process changes. -/
theorem of_update {z : Proc} (h : Valid sb s) (hp : s'.proc = update s.proc p z)
    (hz : z.state = .runnable → ∃ ip, z.cwd = some ip) (hm : Mid sb 0 s' (refs s'.slots) []) :
    Valid sb s' := by
  refine ⟨hm, fun q => ?_⟩
  rw [hp]
  rcases eq_or_ne q p with rfl | hq
  · rwa [update_self]
  · rw [update_of_ne hq]
    exact h.cwd q

end Valid

theorem wp_argfd {E : Halt → Kernel → Prop} {Q : Option (Fin NOFILE × Fptr) → Kernel → Prop}
    (hnone : Q none s) (hsome : ∀ fd f, (s.proc p).ofile fd = some f → Q (some (fd, f)) s) :
    wp (argfd p n) E Q s := by
  rw [argfd, wp_bind, wp_getProc]
  split
  next hn =>
    rw [wp_pure]
    cases hf : (s.proc p).ofile ⟨n, hn⟩ with
    | none => exact hnone
    | some f => exact hsome ⟨n, hn⟩ f hf
  next => exact hnone

theorem wp_sysDup (h : Valid sb s) : wp (sysDup p n) (fun e _ => F e) (fun _ => Valid sb) s := by
  rw [sysDup, wp_bind]
  refine wp_argfd h fun fd₀ f hf => ?_
  simp only
  rw [wp_bind]
  refine wp_fdalloc (fun _ => h) fun fd x hfd hx => ?_
  have hslots : (s.setProc p x).slots = update s.slots (p, fd) (some f) :=
    slots_setProc (by rw [hx])
  simp only
  rw [wp_bind]
  refine wp_filedup (h.mid.setProc (by rw [hx])) (refs_pos.mpr ⟨(p, fd₀), hf⟩) fun s₁ hm hp => ?_
  refine h.of_update hp (by rw [hx]; exact h.cwd p) ?_
  rwa [slots_congr (s := s.setProc p x) fun q => by rw [hp], hslots, refs_slots_fill hfd]

theorem wp_sysClose (h : Valid sb s) (hF : Benign F) :
    wp (sysClose sb p n) (fun e _ => F e) (fun _ => Valid sb) s := by
  rw [sysClose, wp_bind]
  refine wp_argfd h fun fd f hf => ?_
  simp only
  rw [wp_bind, fdclear, wp_modifyProc, wp_bind]
  generalize hx : Proc.mk _ _ _ _ _ _ _ = x
  have hslots : (s.setProc p x).slots = update s.slots (p, fd) none := slots_setProc (by rw [← hx])
  have hrefs : refs (s.setProc p x).slots + one f = refs s.slots := by
    funext g
    rw [hslots]
    exact refs_clear hf
  refine wp_fileclose (hrefs ▸ h.mid.setProc (by rw [← hx])) le_rfl hF fun s₁ hm hp => ?_
  refine h.of_update hp (by rw [← hx]; exact h.cwd p) ?_
  rwa [slots_congr (s := s.setProc p x) fun q => by rw [hp]]

/-- A call on names changes the file system only. -/
theorem wp_named {m : Iptr → K ℤ} (h : Valid sb s) (hrun : (s.proc p).state = .runnable)
    (hm : ∀ cwd, 0 < refs s.holds cwd → wp (m cwd) (fun e _ => F e)
      (fun _ fs => Inv sb (refs s.holds) (tags s.fs) 0 fs [] ∅) s.fs) :
    wp (do onFs (m (← getCwd p))) (fun e _ => F e) (fun _ => Valid sb) s := by
  obtain ⟨cwd, hcwd⟩ := h.cwd p hrun
  rw [wp_bind]
  refine wp_getCwd hcwd ?_
  rw [wp_onFs]
  exact (hm cwd (refs_pos.mpr ⟨.inr p, hcwd⟩)).post fun _ fs hI => h.of_mid rfl (h.mid.setFs hI)

theorem wp_sysOpen {path : Option (List UInt8)} {omode : ℕ} (hsb : sb.Valid) (h : Valid sb s)
    (hrun : (s.proc p).state = .runnable) (hF : Benign F) (hN : F .noType) :
    wp (sysOpen sb p path omode) (fun e _ => F e) (fun _ => Valid sb) s := by
  obtain ⟨cwd, hcwd⟩ := h.cwd p hrun
  rcases path with _ | q
  · exact h
  have hlocked : ∀ fs ip i, Inv sb (refs s.holds) (tags s.fs) (0 + 1) fs [⟨ip, i, true⟩] ∅ →
      ¬ Last fs (refs s.holds) [] ip i → ((fs.disk.nodes i).type = T_DIR → omode = O_RDONLY) →
      wp (openLocked sb p ip omode) (fun e _ => F e) (fun _ => Valid sb) { s with fs := fs } :=
    fun fs ip i hI hl hdir => wp_openLocked (s := { s with fs := fs }) (h.mid.setFs hI) le_rfl
      (fun _ => hF) hl hdir (fun s' _ _ hp hm => ⟨hm, by rw [hp]; exact h.cwd⟩)
      fun s' fd f _ _ hp _ hm => h.of_update hp (h.cwd p) hm
  refine wp_sysOpen_some hcwd (wp_openInode hsb h.mid.inodes le_rfl (refs_pos.mpr ⟨.inr p, hcwd⟩) hF
    (.inl hN) (fun fs _ hI => h.of_mid rfl (h.mid.setFs hI))
    (fun fs ip i hd _ hdir hI hl => hlocked fs ip i hI hl (hd ▸ hdir))
    fun fs M ip d k i name _ hm hs hI => ?_)
  obtain ⟨ht, hn⟩ := hm.settle hs
  refine hlocked fs ip i hI (fun hl => ?_) fun hdir => ?_
  · exact absurd (hn.symm.trans hl.2.1) one_ne_zero
  · exact absurd (ht.symm.trans hdir) (by decide)

section Chdir

/-- The new directory is found before the reference to the old one goes. -/
theorem wp_chdirInode {Q : Option Iptr → State → Prop} {path : Option (List UInt8)}
    (h : Inv sb B T o fs [] ∅) (ho : 0 ≤ o) (hB : ∀ k, B k = B' k + if cwd = k then 1 else 0)
    (hF : Benign F) (hN : F .noType) (hnone : ∀ fs', Inv sb B T o fs' [] ∅ → Q none fs')
    (hsome : ∀ fs' ip i, (fs'.disk.nodes i).type ≠ 0 → Inv sb B' T o fs' [⟨ip, i, false⟩] ∅ →
      Q (some ip) fs') :
    wp (chdirInode sb cwd path) (fun e _ => F e) Q fs := by
  have hop : 1 ≤ o + 1 := by omega
  have hcwd : 0 < B cwd := by
    rw [hB, if_pos rfl]
    omega
  rw [chdirInode, wp_bind]
  refine wp_beginOp h ho hF.sleep fun s₁ _ _ h₁ => ?_
  have hend : ∀ s', Inv sb B T (o + 1) s' [] ∅ →
      wp (do endOp; pure none) (fun e _ => F e) Q s' := fun s' hI => by
    rw [wp_bind]
    exact wp_endOp hI fun s'' _ _ hI' => hnone s'' hI'
  rw [wp_bind]
  rcases path with _ | q
  · exact hend s₁ h₁
  refine wp_namei h₁ hop hcwd hF (.inl hN) (fun s₂ _ _ h₂ => hend s₂ h₂)
    fun ip i nm s₂ _ hd₂ h₂ hlast _ => ?_
  simp only
  rw [wp_bind]
  refine wp_ilock h₂ (fun _ => hF.sleep) (fun _ => hN) fun s₃ hd₃ ht₃ h₃ => ?_
  have hlast₃ : ¬ Last s₃ B [] ip i := fun hl => hlast ((Last.disk (hd₃.trans hd₂)).mp hl)
  rw [wp_bind, wp_getInode, wp_ite]
  refine ⟨fun _ => ?_, fun _ => ?_⟩
  · rw [wp_bind]
    exact wp_failWith h₃ ho hlast₃ fun s₄ _ h₄ => hnone s₄ h₄
  rw [wp_bind]
  refine wp_iunlock h₃ fun s₄ hd₄ _ h₄ => ?_
  have ht₄ : (s₄.disk.nodes i).type ≠ 0 := by rwa [hd₄, hd₃]
  rw [wp_bind]
  refine wp_iput (h₄.release hB) hop (fun hX => absurd hX (Set.notMem_empty _)) (fun _ => hF.tooBig)
    (fun s₅ _ hd₅ h₅ => ?_) fun s₅ hlast₅ hn₅ h₅ => ?_
  · rw [wp_bind]
    exact wp_endOp h₅ fun s₆ hd₆ _ h₆ => hsome s₆ ip i (by rwa [hd₆, hd₅]) h₆
  · -- the old directory is another one, or its reference would not be the last
    have hne : i ≠ (s₄.itable cwd).inum := by
      rintro he
      have hip : ip = cwd := by
        refine h₄.unique ip cwd ?_ ?_ ((h₄.inum ⟨ip, i, false⟩ List.mem_cons_self).trans he)
        · rw [h₄.ref, refs_cons, if_pos rfl]
          omega
        · rw [h₄.ref]
          omega
      have hz := hlast₅.2.2.2
      rw [hip, refs_cons, if_pos rfl] at hz
      cases hz
    rw [Set.empty_sdiff] at h₅
    rw [wp_bind]
    refine wp_endOp h₅ fun s₆ hd₆ _ h₆ => hsome s₆ ip i ?_ h₆
    rwa [hd₆, hn₅, update_of_ne hne]

theorem wp_sysChdir {path : Option (List UInt8)} (h : Valid sb s)
    (hrun : (s.proc p).state = .runnable) (hF : Benign F) (hN : F .noType) :
    wp (sysChdir sb p path) (fun e _ => F e) (fun _ => Valid sb) s := by
  obtain ⟨cwd, hcwd⟩ := h.cwd p hrun
  have hslot : s.holds (.inr p) = some cwd := hcwd
  rw [sysChdir, wp_bind]
  refine wp_getCwd hcwd ?_
  rw [wp_bind, wp_onFs]
  refine wp_chdirInode h.mid.inodes le_rfl (fun k => (refs_clear hslot).symm) hF hN
    (fun fs₁ h₁ => h.of_mid rfl (h.mid.setFs h₁)) fun fs₁ ip i ht h₁ => ?_
  simp only
  rw [wp_bind, wp_modifyProc]
  generalize hx : Proc.mk _ _ _ _ _ _ _ = x
  have hxc : x.cwd = some ip := by rw [← hx]
  have hholds : (Kernel.setProc { s with fs := fs₁ } p x).holds =
      update (update s.holds (.inr p) none) (.inr p) (some ip) := by
    funext j
    rcases j with f | q
    · simp [Kernel.holds]
    · rcases eq_or_ne q p with rfl | hq
      · simp [Kernel.holds, hxc]
      · simp [Kernel.holds, hq]
  have hslots : (Kernel.setProc { s with fs := fs₁ } p x).slots = s.slots := by
    refine slots_congr fun q => ?_
    rcases eq_or_ne q p with rfl | hq
    · rw [Kernel.setProc_proc, update_self, ← hx]
    · rw [Kernel.setProc_proc, update_of_ne hq]
  refine h.of_update rfl (fun _ => ⟨ip, hxc⟩) ⟨?_, ?_, ?_⟩
  · rw [hslots]
    exact h.mid.files.congr rfl rfl
  · rw [hholds]
    exact h₁.hold ht fun k => refs_fill (update_self ..)
  · refine h.mid.write.of_inv h₁ fun f htype => refs_pos.mpr ⟨.inl f, ?_⟩
    simp [Kernel.holds, File.inode, htype]

end Chdir

end Sys

end Xv6

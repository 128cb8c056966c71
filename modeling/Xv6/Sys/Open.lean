import Xv6.Sys.Files

/-! # Opening files

What `sys_open` does to the file system, the file table and the descriptors. A
call that fails changes nothing, except that a file which it has created stays
when there is no room for it in the file table or among the descriptors.
-/

namespace Xv6.Sys

open Fs Function

variable {sb : Superblock} {o : ℤ} {s s' : Kernel} {fs fs' : State} {c : Fptr → ℕ} {f : Fptr}
  {p : Pptr} {fd : Fin NOFILE} {x : Proc} {R : List Ref} {F : Halt → Prop} {B : Iptr → ℕ}
  {T : Iptr → ℕ × ℤ} {ip cwd : Iptr} {i omode : ℕ} {E : Halt → Kernel → Prop}

section Descriptors

theorem slots_congr (h : ∀ q, (s'.proc q).ofile = (s.proc q).ofile) : s'.slots = s.slots := by
  funext ⟨q, fd⟩
  exact congrFun (h q) fd

theorem slots_setProc {v : Option Fptr} (hx : x.ofile = update (s.proc p).ofile fd v) :
    (s.setProc p x).slots = update s.slots (p, fd) v := by
  funext ⟨q, fd'⟩
  simp only [Kernel.slots, Kernel.setProc_proc]
  rcases eq_or_ne q p with rfl | hq
  · rw [update_self, hx]
    rcases eq_or_ne fd' fd with rfl | hfd
    · rw [update_self, update_self]
    · rw [update_of_ne hfd, update_of_ne (by simp [hfd])]
      rfl
  · rw [update_of_ne hq, update_of_ne (by simp [hq])]
    rfl

theorem refs_slots_fill (h : s.slots (p, fd) = none) :
    refs (update s.slots (p, fd) (some f)) = refs s.slots + one f := by
  funext g
  exact refs_fill h

/-- Processes change, but not their current directories. -/
theorem Mid.congr (h : Mid sb o s c R) (hfs : s'.fs = s.fs) (hf : s'.ftable = s.ftable)
    (hpipe : s'.pipe = s.pipe) (hcwd : ∀ q, (s'.proc q).cwd = (s.proc q).cwd) :
    Mid sb o s' c R := by
  have hh : s'.holds = s.holds := Kernel.holds_congr (fun f => by rw [hf]) hcwd
  exact ⟨h.files.congr hf hpipe, by rw [hh, hfs]; exact h.inodes, by rw [hf, hfs]; exact h.write⟩

theorem Mid.setProc (h : Mid sb o s c R) (hx : x.cwd = (s.proc p).cwd) :
    Mid sb o (s.setProc p x) c R := by
  refine h.congr rfl rfl rfl fun q => ?_
  rcases eq_or_ne q p with rfl | hq
  · rw [Kernel.setProc_proc, update_self, hx]
  · rw [Kernel.setProc_proc, update_of_ne hq]

theorem wp_fdalloc {Q : Option (Fin NOFILE) → Kernel → Prop}
    (hnone : (∀ fd, (s.proc p).ofile fd ≠ none) → Q none s)
    (hsome : ∀ fd x, (s.proc p).ofile fd = none →
      x = { s.proc p with ofile := update (s.proc p).ofile fd (some f) } →
      Q (some fd) (s.setProc p x)) :
    wp (fdalloc p f) E Q s := by
  rw [fdalloc, wp_bind, wp_getProc]
  split
  next fd hfd =>
    rw [wp_bind, wp_modifyProc, wp_pure]
    exact hsome fd _ (by simpa using List.find?_some hfd) rfl
  next hfd =>
    refine hnone fun fd hz => ?_
    simpa [hz] using List.find?_eq_none.mp hfd fd (List.mem_finRange fd)

end Descriptors

section Inode

/-- An early exit drops a reference that is not the last one. -/
theorem wp_failWith {Q : ℤ → State → Prop} (h : Inv sb B T (o + 1) fs [⟨ip, i, true⟩] ∅)
    (ho : 0 ≤ o) (hl : ¬ Last fs B [] ip i)
    (hQ : ∀ fs', fs'.disk = fs.disk → Inv sb B T o fs' [] ∅ → Q (-1) fs') :
    wp (failWith sb ip) (fun e _ => F e) Q fs := by
  rw [failWith, wp_bind]
  refine wp_iunlockput_keep h (by omega) hl fun s₁ hd₁ h₁ => ?_
  rw [wp_bind]
  exact wp_endOp h₁ fun s₂ hd₂ _ h₂ => hQ s₂ (hd₂.trans hd₁) h₂

/-- An open finds an inode that was there before, or creates a file. -/
theorem wp_openInode {Q : Option Iptr → State → Prop} {path : List UInt8} (hsb : sb.Valid)
    (h : Inv sb B T o fs [] ∅) (ho : 0 ≤ o) (hcwd : 0 < B cwd) (hF : Benign F)
    (hN : F .noType ∨ Closed fs.disk.nodes)
    (hnone : ∀ fs', Kept fs.disk.nodes fs'.disk.nodes → Inv sb B T o fs' [] ∅ → Q none fs')
    (hold : ∀ fs' ip i, fs'.disk = fs.disk → (fs.disk.nodes i).type ≠ 0 → ((fs.disk.nodes i).type = T_DIR → omode = O_RDONLY) →
      Inv sb B T (o + 1) fs' [⟨ip, i, true⟩] ∅ → ¬ Last fs' B [] ip i → Q (some ip) fs')
    (hnew : ∀ fs' M ip d k i name, resolve fs.disk.nodes (T cwd).1 path true = some (d, name) →
      Made fs.disk.nodes M d k i name T_FILE → Settle M fs'.disk.nodes →
      Inv sb B T (o + 1) fs' [⟨ip, i, true⟩] ∅ →
      Q (some ip) fs') :
    wp (openInode sb cwd path omode) (fun e _ => F e) Q fs := by
  have hop : 1 ≤ o + 1 := by omega
  rw [openInode, wp_bind]
  refine wp_beginOp h ho hF.sleep fun s₁ hd₁ _ h₁ => ?_
  rw [← hd₁] at hnone hold hnew hN
  have hend : ∀ s' : State, Kept s₁.disk.nodes s'.disk.nodes → Inv sb B T (o + 1) s' [] ∅ → wp (do endOp; pure none) (fun e _ => F e) Q s' := by
    intro s' hk hI
    rw [wp_bind]
    exact wp_endOp hI fun s'' hd _ hI' => hnone s'' (hd ▸ hk) hI'
  rw [wp_ite]
  refine ⟨fun _ => ?_, fun _ => ?_⟩
  · rw [wp_bind]
    refine wp_create hsb h₁ hop hcwd hF hN (by decide) hend
      (fun s₂ ip i hd₂ _ ht h₂ hlast => ?_) hnew
    rw [hd₂] at ht
    refine hold s₂ ip i hd₂ ?_ (fun hdir => ?_) h₂ hlast
    · rcases ht with ht | ht <;> rw [ht] <;> decide
    · rw [hdir] at ht
      exact absurd ht (by decide)
  · rw [wp_bind]
    refine wp_namei h₁ hop hcwd hF hN
      (fun s₂ _ hd₂ h₂ => hend s₂ (hd₂ ▸ .refl _) h₂)
      fun ip i nm s₂ _ hd₂ h₂ hlast hn => ?_
    simp only
    rw [wp_bind]
    refine wp_ilock h₂ (fun _ => hF.sleep) (fun h₀ => hn.resolve_right (· (hd₂ ▸ h₀)))
      fun s₃ hd₃ ht₃ h₃ => ?_
    have hd₃' := hd₃.trans hd₂
    have hlast₃ : ¬ Last s₃ B [] ip i := fun hc => hlast ((Last.disk hd₃').mp hc)
    rw [wp_bind, wp_getInode, wp_ite, ← congrArg Attr.type h₃.attr, hd₃']
    refine ⟨fun _ => ?_, fun hdir => ?_⟩
    rotate_left
    · exact hold s₃ ip i hd₃' (hd₂ ▸ ht₃) (fun ht => by_contra fun hm => hdir ⟨ht, hm⟩) h₃ hlast₃
    rw [wp_bind]
    exact wp_failWith h₃ ho hlast₃ fun s₄ hd₄ h₄ =>
      hnone s₄ (hd₄.trans hd₃' ▸ .refl _) h₄

end Inode

/-- There is room for one more open file. -/
def Room (s : Kernel) (p : Pptr) : Prop :=
  (∃ f, (s.ftable f).ref = 0) ∧ ∃ fd, (s.proc p).ofile fd = none

variable {Q : ℤ → Kernel → Prop}

section File

/-- The new file takes over the reference to the inode. -/
theorem wp_openFile {Q : Unit → Kernel → Prop} (h : Mid sb (o + 1) s c [⟨ip, i, true⟩])
    (ho : 0 ≤ o) (hF : Benign F) (ht : (s.ftable f).type = .none) (hc : c f ≠ 0)
    (hdir : (s.fs.disk.nodes i).type = T_DIR → omode = O_RDONLY)
    (hQ : ∀ s', Settle s.fs.disk.nodes s'.fs.disk.nodes → s'.proc = s.proc → Mid sb o s' c [] → Q () s') :
    wp (openFile sb f ip omode) (fun e _ => F e) Q s := by
  have hI := h.inodes
  rw [openFile, wp_bind, wp_onFs_getInode, wp_bind, wp_modifyFile, wp_bind, wp_modifyFile,
    Kernel.setFile_setFile, Kernel.setFile_ftable, update_self, wp_onFs,
    ← congrArg Attr.type hI.attr]
  generalize hx : File.mk _ _ _ _ _ _ _ _ = x
  have hxi : x.inode = some ip := by
    rw [← hx, File.inode]
    split_ifs <;> rfl
  have hxr : x.ref = c f := by
    rw [← hx, ← h.files.ref]
    split_ifs <;> rfl
  have hxt : x.type ≠ .pipe := by
    rw [← hx]
    split_ifs <;> nofun
  have hxp : x.ip = ip := hx ▸ rfl
  have hxw : x.writable = true → (s.fs.disk.nodes i).type ≠ T_DIR := by
    intro hw hd
    have hm : decide (omode &&& O_WRONLY ≠ 0 ∨ omode &&& O_RDWR ≠ 0) = true := by rwa [← hx] at hw
    rw [hdir hd] at hm
    exact absurd hm (by decide)
  -- the end of the transaction, with the inode still locked
  have hend : ∀ fs₁ : State, Settle s.fs.disk.nodes fs₁.disk.nodes →
      Inv sb (refs s.holds) (tags s.fs) (o + 1) fs₁ [⟨ip, i, true⟩] ∅ →
      wp (do iunlock ip; endOp) (fun e _ => F e) (fun _ fs => Q () { s.setFile f x with fs := fs })
        fs₁ := by
    intro fs₁ hs₁ h₁
    have ht₁ : (fs₁.disk.nodes i).type ≠ 0 := by
      rw [congrArg Attr.type h₁.attr]
      exact h₁.inode.2.2.1
    rw [wp_bind]
    refine wp_iunlock h₁ fun fs₂ hd₂ _ h₂ => ?_
    refine wp_endOp h₂ fun fs₃ hd₃ _ h₃ => hQ _ ?_ rfl ⟨?_, ?_, ?_⟩
    · rwa [hd₃, hd₂]
    · refine (h.files.setFile (fun pi w => ?_) hxr (fun _ _ => rfl) fun h₀ => absurd h₀ hc).congr
        rfl rfl
      simp [IsEnd, ht, hxt]
    · refine h₃.hold (by rwa [hd₃, hd₂]) fun k => ?_
      change refs (s.setFile f x).holds k = _
      rw [Kernel.holds_setFile, hxi]
      exact refs_fill (by simp [Kernel.holds, File.inode, ht])
    · refine (h.write.setFs h₃).update fun _ hw => ?_
      have hi : (fs₃.itable ip).inum = i := h₃.inum ⟨ip, i, false⟩ List.mem_cons_self
      rw [hxp, tags, hi, hd₃, hd₂]
      rcases hs₁ i with hsame | ⟨-, -, hfree⟩
      · exact hsame.type ▸ hxw hw
      · exact absurd hfree ht₁
  rw [wp_bind, wp_runIf]
  refine ⟨fun ⟨_, hfile⟩ => ?_, fun _ => hend s.fs (.refl _) hI⟩
  have hnd : (s.fs.disk.nodes i).type ≠ T_DIR := by rw [hfile]; decide
  refine wp_itrunc_locked hI (by omega) hF.tooBig hnd fun fs₁ hn₁ h₁ => ?_
  refine hend fs₁ ?_ h₁
  rw [hn₁]
  exact .set ⟨rfl, rfl, fun hd => absurd hd hnd⟩

/-- `sys_open` with the inode `i` locked. -/
theorem wp_openLocked (h : Mid sb (o + 1) s (refs s.slots) [⟨ip, i, true⟩]) (ho : 0 ≤ o)
    (hF : Room s p → Benign F) (hl : ¬ Last s.fs (refs s.holds) [] ip i)
    (hdir : (s.fs.disk.nodes i).type = T_DIR → omode = O_RDONLY)
    (hfail : ∀ s', (s.fs.disk.nodes i).type = T_DEVICE ∨ ¬ Room s p → s'.fs.disk = s.fs.disk →
      s'.proc = s.proc → Mid sb o s' (refs s'.slots) [] →
      Q (-1) s')
    (hok : ∀ s' (fd : Fin NOFILE) f, Room s p → (s.proc p).ofile fd = none →
      s'.proc = update s.proc p { s.proc p with ofile := update (s.proc p).ofile fd (some f) } →
      Settle s.fs.disk.nodes s'.fs.disk.nodes → Mid sb o s' (refs s'.slots) [] → Q fd.val s') :
    wp (openLocked sb p ip omode) (fun e _ => F e) Q s := by
  -- every failure ends in the same way
  have hbad : ∀ s₁ : Kernel, (s.fs.disk.nodes i).type = T_DEVICE ∨ ¬ Room s p → s₁.fs = s.fs →
      s₁.proc = s.proc → s₁.holds = s.holds → Mid sb (o + 1) s₁ (refs s.slots) [⟨ip, i, true⟩] →
      wp (onFs (failWith sb ip)) (fun e _ => F e) Q s₁ := by
    intro s₁ hwhy hfs hp hh h₁
    rw [wp_onFs]
    refine wp_failWith h₁.inodes ho (by rwa [hfs, hh]) fun fs₂ hd₂ h₂ => ?_
    have hslots : Kernel.slots { s₁ with fs := fs₂ } = s.slots := slots_congr fun q => by
      rw [← hp]
    exact hfail _ hwhy (hfs ▸ hd₂) hp (hslots ▸ h₁.setFs h₂)
  rw [openLocked, wp_bind, wp_onFs_getInode, wp_ite, ← congrArg Attr.type h.inodes.attr]
  refine ⟨fun hdev => hbad s (.inl hdev.1) rfl rfl rfl h, fun _ => ?_⟩
  rw [wp_bind]
  refine wp_filealloc h (fun hfull => ?_) fun f s₁ hc h₁ hfs₁ hp₁ _ hh₁ ht₁ _ => ?_
  · exact hbad s (.inr fun ⟨⟨f, hf⟩, _⟩ => hfull f hf) rfl rfl rfl h
  have hroom : ∃ f, (s.ftable f).ref = 0 := ⟨f, (h.files.ref f).trans hc⟩
  simp only
  rw [wp_bind]
  refine wp_fdalloc (fun hfull => ?_) fun fd x hfd hx => ?_
  · simp only
    rw [wp_bind]
    refine wp_fileclose_none h₁ hc ht₁ fun s₂ h₂ hfs₂ hp₂ hh₂ _ => ?_
    refine hbad s₂ (.inr fun ⟨_, fd, hfd⟩ => hfull fd (by rwa [hp₁])) (hfs₂.trans hfs₁)
      (hp₂.trans hp₁) (hh₂.trans hh₁) h₂
  have hfree : (s.proc p).ofile fd = none := hp₁ ▸ hfd
  have hR : Room s p := ⟨hroom, fd, hfree⟩
  have hslots₁ : s₁.slots = s.slots := slots_congr fun q => by rw [hp₁]
  have hslots : (s₁.setProc p x).slots = update s₁.slots (p, fd) (some f) :=
    slots_setProc (by rw [hx])
  have hrefs : refs s.slots + one f = refs (s₁.setProc p x).slots := by
    rw [hslots, refs_slots_fill hfd, hslots₁]
  simp only
  rw [wp_bind]
  refine wp_openFile (h₁.setProc (by rw [hx])) ho (hF hR) ht₁ (by simp) (hfs₁ ▸ hdir)
    fun s₂ hs₂ hp₂ h₂ => ?_
  rw [Kernel.setProc_fs, hfs₁] at hs₂
  refine hok s₂ fd f hR hfree (by rw [hp₂, Kernel.setProc_proc, hx, hp₁]) hs₂ ?_
  have hslots₂ : s₂.slots = (s₁.setProc p x).slots := slots_congr fun q => by rw [hp₂]
  rwa [hslots₂, ← hrefs]

end File

section Open

variable {path : Option (List UInt8)}

theorem wp_sysOpen_some {q : List UInt8} (hcwd : (s.proc p).cwd = some cwd)
    (h : wp (openInode sb cwd q omode) (fun e fs => E e { s with fs := fs }) (fun r fs => wp (match
      r with | none => pure (-1) | some ip => openLocked sb p ip omode) E Q { s with fs := fs })
      s.fs) :
    wp (sysOpen sb p (some q) omode) E Q s := by
  simp only [sysOpen]
  rw [wp_bind]
  refine wp_getCwd hcwd ?_
  rwa [wp_bind, wp_onFs]

end Open

/-! ## All descriptors in use -/

/-- A process on the small file system has used up its descriptors on one end of a pipe. -/
def crowded : Kernel where
  fs := smallFs
  ftable f :=
    { type := if f = 0 then .pipe else .none, ref := if f = 0 then NOFILE else 0, readable := true,
      writable := false, pipe := 0, ip := 0, off := 0, major := 0 }
  pipe pi :=
    if pi = 0 then
      some { data := fun _ => 0, nread := 0, nwrite := 0, readopen := true, writeopen := false }
    else none
  proc q :=
    { state := if q = 0 then .runnable else .unused, killed := false, xstate := 0, pid := q,
      parent := none, ofile := fun _ => if q = 0 then some 0 else none,
      cwd := if q = 0 then some 0 else none }
  nextpid := 1

theorem refs_crowded_slots (f : Fptr) :
    refs crowded.slots f = if f = 0 then NOFILE else 0 := by
  by_cases hf : f = 0
  · subst hf
    decide +kernel
  · rw [if_neg hf]
    refine refs_eq_zero fun i hi => ?_
    simp only [Kernel.slots, crowded] at hi
    split_ifs at hi
    exact hf (Option.some.inj hi).symm

theorem refs_crowded_holds : refs crowded.holds = smallFs.refs := by
  have hh : crowded.holds = update (fun _ => none) (.inr 0) (some 0) := by
    funext i
    rcases i with f | q
    · by_cases hf : f = 0 <;> simp [Kernel.holds, crowded, File.inode, hf]
    · by_cases hq : q = 0
      · subst hq
        simp [Kernel.holds, crowded]
      · simp [Kernel.holds, crowded, hq]
  funext k
  rw [hh, refs_fill rfl, refs_eq_zero (by simp), Nat.zero_add]
  simp only [smallFs.refs, eq_comm]

theorem isEnd_crowded {pi : ℕ} {w : Bool} {f : Fptr} :
    IsEnd crowded.ftable pi w f ↔ f = 0 ∧ pi = 0 ∧ w = false := by
  by_cases hf : f = 0 <;> simp [IsEnd, crowded, hf, eq_comm]

theorem mid_crowded : Mid smallFs.superblock 0 crowded (refs crowded.slots) [] := by
  refine ⟨⟨fun f => ?_, fun f hf => ?_, fun pi w => ?_, fun pi w f g hf hg => ?_⟩, ?_, nofun⟩
  · rw [refs_crowded_slots]
    rfl
  · rw [refs_crowded_slots] at hf
    split_ifs at hf with h₀
    simp [crowded, h₀]
  · simp only [isEnd_crowded]
    by_cases hpi : pi = 0 <;> cases w <;> simp [crowded, hpi, Pipe.isOpen]
  · rw [isEnd_crowded] at hf hg
    rw [hf.1, hg.1]
  · rw [refs_crowded_holds]
    exact inv_smallFs.retag

end Xv6.Sys

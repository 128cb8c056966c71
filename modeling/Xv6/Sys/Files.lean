import Xv6.Fs.Calls
import Xv6.Logic.Refs
import Xv6.Sys.Kernel

/-! # Open files and their inodes

The references to files, inodes and pipes while a system call runs. `c` counts
the references to each file; an inode has one reference for each open file and
each current directory that holds it, and those in `R` of the call itself.
-/

namespace Xv6

open Function

namespace Fs

/-- The inode number and the type that an entry of the table shows. -/
@[grind =] def tags (s : State) (k : Iptr) : ℕ × ℤ :=
  ((s.itable k).inum, (s.disk.nodes (s.itable k).inum).type)

namespace Inv

variable {sb : Superblock} {B B' : Iptr → ℕ} {T : Iptr → ℕ × ℤ} {o : ℤ} {s : State} {R : List Ref}
  {X : Set ℕ} {ip : Iptr} {i : ℕ}

theorem retag (h : Inv sb B T o s R X) : Inv sb B (tags s) o s R X :=
  { h with tag := fun k hk => ⟨rfl, (h.tag k hk).2⟩ }

/-- A reference of the call becomes one that lasts. -/
theorem keep (h : Inv sb B T o s (⟨ip, i, false⟩ :: R) X) (ht : (s.disk.nodes i).type ≠ 0)
    (hT : T ip = (i, (s.disk.nodes i).type)) (hB : ∀ k, B' k = B k + if ip = k then 1 else 0) :
    Inv sb B' T o s R X where
  __ := h
  ref k := by
    rw [h.ref, hB, refs_cons]
    dsimp only
    omega
  inum r hr := h.inum r (List.mem_cons_of_mem _ hr)
  locked k := by simp [h.locked k]
  once := (List.pairwise_cons.mp h.once).2
  tag k hk := by
    rcases eq_or_ne ip k with rfl | hne
    · rw [h.inum ⟨ip, i, false⟩ List.mem_cons_self]
      exact ⟨hT, ht⟩
    · rw [hB, if_neg hne] at hk
      exact h.tag k hk

theorem hold (h : Inv sb B T o s (⟨ip, i, false⟩ :: R) X) (ht : (s.disk.nodes i).type ≠ 0)
    (hB : ∀ k, B' k = B k + if ip = k then 1 else 0) : Inv sb B' (tags s) o s R X := by
  refine h.retag.keep ht ?_ hB
  rw [tags, h.inum ⟨ip, i, false⟩ List.mem_cons_self]

end Inv

end Fs

namespace Sys

open Fs

variable {sb : Superblock} {o : ℤ} {s s' : Kernel} {fs fs' : State} {c c' : Fptr → ℕ} {f g : Fptr}
  {R R' : List Ref} {p : Pptr} {pi : ℕ} {w : Bool} {F : Halt → Prop} {x y : File}

namespace Kernel

/-- All descriptors. -/
def slots (s : Kernel) : Pptr × Fin NOFILE → Option Fptr := fun i => (s.proc i.1).ofile i.2

end Kernel

/-- The inode of an open file. -/
@[grind =] def File.inode (x : File) : Option Iptr :=
  match x.type with
  | .inode | .device => some x.ip
  | _ => none

/-- The inodes that files and current directories hold. -/
@[grind =] def Kernel.holds (s : Kernel) : Fptr ⊕ Pptr → Option Iptr
  | .inl f => (s.ftable f).inode
  | .inr p => (s.proc p).cwd

namespace Kernel

variable {z : Proc} {v : Option Pipe}

@[simp] theorem setFile_fs : (s.setFile f x).fs = s.fs := rfl

@[simp] theorem setFile_ftable : (s.setFile f x).ftable = update s.ftable f x := rfl

@[simp] theorem setFile_pipe : (s.setFile f x).pipe = s.pipe := rfl

@[simp] theorem setFile_proc : (s.setFile f x).proc = s.proc := rfl

@[simp] theorem setFile_setFile : (s.setFile f x).setFile f y = s.setFile f y := by
  simp [setFile]

@[simp] theorem setPipe_fs : (s.setPipe pi v).fs = s.fs := rfl

@[simp] theorem setPipe_ftable : (s.setPipe pi v).ftable = s.ftable := rfl

@[simp] theorem setPipe_pipe : (s.setPipe pi v).pipe = update s.pipe pi v := rfl

@[simp] theorem setPipe_proc : (s.setPipe pi v).proc = s.proc := rfl

@[simp] theorem setProc_fs : (s.setProc p z).fs = s.fs := rfl

@[simp] theorem setProc_ftable : (s.setProc p z).ftable = s.ftable := rfl

@[simp] theorem setProc_pipe : (s.setProc p z).pipe = s.pipe := rfl

@[simp] theorem setProc_proc : (s.setProc p z).proc = update s.proc p z := rfl

theorem holds_setFile : (s.setFile f x).holds = update s.holds (.inl f) x.inode := by
  funext i
  rcases i with g | p
  · rcases eq_or_ne g f with rfl | hg
    · simp [holds]
    · simp [holds, hg]
  · simp [holds]

theorem holds_setFile_eq (h : x.inode = (s.ftable f).inode) : (s.setFile f x).holds = s.holds := by
  rw [holds_setFile, h]
  exact update_eq_self ..

@[simp] theorem setPipe_holds : (s.setPipe pi v).holds = s.holds := rfl

theorem holds_congr (hf : ∀ f, (s'.ftable f).inode = (s.ftable f).inode)
    (hp : ∀ p, (s'.proc p).cwd = (s.proc p).cwd) : s'.holds = s.holds := by
  funext i
  cases i with
  | inl f => exact hf f
  | inr p => exact hp p

end Kernel

section Commands

variable {α : Type} {E : Halt → Kernel → Prop}

@[simp] theorem wp_onFs {m : K α} {Q : α → Kernel → Prop} : wp (onFs m) E Q s ↔
    wp m (fun e fs => E e { s with fs := fs }) (fun a fs => Q a { s with fs := fs }) s.fs := by
  unfold wp onFs
  cases m s.fs <;> rfl

@[simp] theorem wp_onFs_getInode {ip : Iptr} {Q : Inode → Kernel → Prop} :
    wp (onFs (getInode ip)) E Q s ↔ Q (s.fs.itable ip) s := Iff.rfl

@[simp] theorem wp_getFile {Q : File → Kernel → Prop} :
    wp (getFile f) E Q s ↔ Q (s.ftable f) s := Iff.rfl

@[simp] theorem wp_modifyFile {h : File → File} {Q : Unit → Kernel → Prop} :
    wp (modifyFile f h) E Q s ↔ Q () (s.setFile f (h (s.ftable f))) := Iff.rfl

@[simp] theorem wp_getProc {Q : Proc → Kernel → Prop} :
    wp (getProc p) E Q s ↔ Q (s.proc p) s := Iff.rfl

@[simp] theorem wp_modifyProc {h : Proc → Proc} {Q : Unit → Kernel → Prop} :
    wp (modifyProc p h) E Q s ↔ Q () (s.setProc p (h (s.proc p))) := Iff.rfl

theorem wp_getCwd {Q : Iptr → Kernel → Prop} {ip : Iptr} (h : (s.proc p).cwd = some ip)
    (hQ : Q ip s) : wp (getCwd p) E Q s := by
  rw [getCwd, wp_bind, wp_getProc, h]
  exact hQ

end Commands

/-- Is this end of the pipe open? -/
def Pipe.isOpen (x : Pipe) (writable : Bool) : Bool := if writable then x.writeopen else x.readopen

/-- `f` is an end of the pipe `pi`. -/
@[grind =] def IsEnd (ft : Fptr → File) (pi : ℕ) (writable : Bool) (f : Fptr) : Prop :=
  (ft f).type = .pipe ∧ (ft f).pipe = pi ∧ (ft f).writable = writable

/-- One reference to `f`. -/
def one (f : Fptr) : Fptr → ℕ := fun g => if f = g then 1 else 0

@[simp] theorem one_self : one f f = 1 := if_pos rfl

theorem one_of_ne (h : f ≠ g) : one f g = 0 := if_neg h

/-- The file table and the pipes when the references to files are counted by `c`. -/
structure Files (s : Kernel) (c : Fptr → ℕ) : Prop where
  ref : ∀ f, (s.ftable f).ref = c f
  idle : ∀ f, c f = 0 → (s.ftable f).type = .none
  ends : ∀ pi w, (∃ v ∈ s.pipe pi, v.isOpen w = true) ↔ ∃ f, IsEnd s.ftable pi w f
  inj : ∀ pi w f g, IsEnd s.ftable pi w f → IsEnd s.ftable pi w g → f = g

/-- No directory is open for writing. -/
def NoDirWrite (ft : Fptr → File) (fs : State) : Prop :=
  ∀ f, (ft f).type = .inode → (ft f).writable = true → (tags fs (ft f).ip).2 ≠ T_DIR

/-- The kernel while a call holds the references `R`. -/
structure Mid (sb : Superblock) (o : ℤ) (s : Kernel) (c : Fptr → ℕ) (R : List Ref) : Prop where
  files : Files s c
  inodes : Inv sb (Xv6.refs s.holds) (tags s.fs) o s.fs R ∅
  write : NoDirWrite s.ftable s.fs

namespace Files

/-- The file system and the processes do not matter. -/
theorem congr (h : Files s c) (hf : s'.ftable = s.ftable) (hp : s'.pipe = s.pipe) : Files s' c := by
  obtain ⟨h₁, h₂, h₃, h₄⟩ := h
  constructor
  · rwa [hf]
  · rwa [hf]
  · rwa [hf, hp]
  · rwa [hf]

/-- One file changes, but no end of a pipe. -/
theorem setFile (h : Files s c)
    (hend : ∀ pi w, IsEnd (s.setFile f x).ftable pi w f ↔ IsEnd s.ftable pi w f)
    (href : x.ref = c' f) (hc : ∀ g ≠ f, c' g = c g) (hidle : c' f = 0 → x.type = .none) :
    Files (s.setFile f x) c' := by
  have hends : ∀ pi w g, IsEnd (s.setFile f x).ftable pi w g ↔ IsEnd s.ftable pi w g := by
    intro pi w g
    rcases eq_or_ne g f with rfl | hg
    · exact hend pi w
    · simp [IsEnd, hg]
  refine ⟨fun g => ?_, fun g hg => ?_, fun pi w => ?_, fun pi w g g' h₁ h₂ => ?_⟩
  · rcases eq_or_ne g f with rfl | hne
    · rw [Kernel.setFile_ftable, update_self, href]
    · rw [Kernel.setFile_ftable, update_of_ne hne, hc g hne, h.ref]
  · rcases eq_or_ne g f with rfl | hne
    · rw [Kernel.setFile_ftable, update_self]
      exact hidle hg
    · rw [Kernel.setFile_ftable, update_of_ne hne]
      exact h.idle g (hc g hne ▸ hg)
  · simp only [hends]
    exact h.ends pi w
  · exact h.inj pi w g g' ((hends _ _ _).mp h₁) ((hends _ _ _).mp h₂)

end Files

namespace NoDirWrite

theorem update {ft : Fptr → File} (h : NoDirWrite ft fs)
    (hx : x.type = .inode → x.writable = true → (tags fs x.ip).2 ≠ T_DIR) :
    NoDirWrite (update ft f x) fs := by
  intro g
  rcases eq_or_ne g f with rfl | hg
  · rwa [update_self]
  · rw [update_of_ne hg]
    exact h g

/-- The types of the inodes that are held do not change. -/
theorem of_inv {ft : Fptr → File} {B : Iptr → ℕ} (h : NoDirWrite ft fs)
    (hI : Inv sb B (tags fs) o fs' R ∅) (hB : ∀ f, (ft f).type = .inode → 0 < B (ft f).ip) :
    NoDirWrite ft fs' := by
  intro f ht hw
  have htag : tags fs (ft f).ip = tags fs' (ft f).ip := (hI.tag _ (hB f ht)).1
  rw [← htag]
  exact h f ht hw

theorem setFs {o' : ℤ} (h : NoDirWrite s.ftable s.fs)
    (hI : Inv sb (Xv6.refs s.holds) (tags s.fs) o' fs R ∅) : NoDirWrite s.ftable fs :=
  h.of_inv hI fun f ht => refs_pos.mpr ⟨.inl f, by simp [Kernel.holds, File.inode, ht]⟩

end NoDirWrite

namespace Mid

theorem setFs {o' : ℤ} (h : Mid sb o s c R)
    (hI : Inv sb (Xv6.refs s.holds) (tags s.fs) o' fs R' ∅) : Mid sb o' { s with fs := fs } c R' :=
  ⟨h.files.congr rfl rfl, hI.retag, h.write.setFs hI⟩

/-- A file changes, but neither its inode nor a pipe. -/
theorem setFile (h : Mid sb o s c R) (hi : x.inode = (s.ftable f).inode)
    (hend : ∀ pi w, IsEnd (s.setFile f x).ftable pi w f ↔ IsEnd s.ftable pi w f)
    (href : x.ref = c' f) (hc : ∀ g ≠ f, c' g = c g) (hidle : c' f = 0 → x.type = .none)
    (hw : x.type = .inode → x.writable = true → (tags s.fs x.ip).2 ≠ T_DIR) :
    Mid sb o (s.setFile f x) c' R := by
  refine ⟨h.files.setFile hend href hc hidle, ?_, h.write.update hw⟩
  rw [Kernel.holds_setFile_eq hi]
  exact h.inodes

end Mid

section Alloc

variable {Q : Option Fptr → Kernel → Prop}

theorem wp_filealloc (h : Mid sb o s c R) (hnone : (∀ f, (s.ftable f).ref ≠ 0) → Q none s)
    (hsome : ∀ f s', c f = 0 → Mid sb o s' (c + one f) R → s'.fs = s.fs → s'.proc = s.proc →
      s'.pipe = s.pipe → s'.holds = s.holds → (s'.ftable f).type = .none →
      (∀ g ≠ f, s'.ftable g = s.ftable g) → Q (some f) s') :
    wp filealloc (fun e _ => F e) Q s := by
  rw [filealloc, wp_bind, wp_get]
  split
  next f hf =>
    have hz : (s.ftable f).ref = 0 := by simpa using List.find?_some hf
    have hc : c f = 0 := (h.files.ref f).symm.trans hz
    have ht : (s.ftable f).type = .none := h.files.idle f hc
    rw [wp_bind, wp_modifyFile]
    refine hsome f _ hc (h.setFile rfl (fun pi w => ?_) ?_ (fun g hg => ?_) (fun _ => ht) (h.write f))
      rfl rfl rfl ?_ ?_ fun g hg => ?_
    · simp [IsEnd, ht]
    · simp [hc]
    · rw [Pi.add_apply, one_of_ne hg.symm, Nat.add_zero]
    · exact Kernel.holds_setFile_eq rfl
    · simpa using ht
    · simp [hg]
  next hf =>
    refine hnone fun f hz => ?_
    simpa [hz] using List.find?_eq_none.mp hf f (List.mem_finRange f)

end Alloc

section Close

theorem wp_iputOp {Q : Unit → State → Prop} {B : Iptr → ℕ} {T : Iptr → ℕ × ℤ} {ip : Iptr} {i : ℕ}
    (h : Inv sb B T o fs [⟨ip, i, false⟩] ∅) (ho : 0 ≤ o) (hF : Benign F)
    (hQ : ∀ fs', Settle fs.disk.nodes fs'.disk.nodes → Inv sb B T o fs' [] ∅ → Q () fs') :
    wp (iputOp sb ip) (fun e _ => F e) Q fs := by
  rw [iputOp, wp_bind]
  refine wp_beginOp h ho hF.sleep fun s₁ hd₁ _ h₁ => ?_
  rw [wp_bind]
  refine wp_iput_settle h₁ (by omega) hF.tooBig fun s₂ hs₂ h₂ => ?_
  refine wp_endOp h₂ fun s₃ hd₃ _ h₃ => hQ s₃ ?_ h₃
  rw [hd₃, ← hd₁]
  exact hs₂

/-- A file without an inode or a pipe is closed. -/
theorem wp_fileclose_none {Q : Unit → Kernel → Prop} (h : Mid sb o s (c + one f) R) (hc : c f = 0)
    (ht : (s.ftable f).type = .none)
    (hQ : ∀ s', Mid sb o s' c R → s'.fs = s.fs → s'.proc = s.proc → s'.holds = s.holds →
      (∀ g ≠ f, s'.ftable g = s.ftable g) → Q () s') :
    wp (fileclose sb f) (fun e _ => F e) Q s := by
  have href : (s.ftable f).ref = 1 := by rw [h.files.ref, Pi.add_apply, hc, one_self]
  rw [fileclose, wp_bind, wp_getFile, wp_bind, wp_stopIf]
  refine ⟨fun hlt => absurd hlt (by omega), fun _ => ?_⟩
  rw [wp_bind, wp_modifyFile, wp_runIf]
  refine ⟨fun _ => ?_, fun hne => absurd href hne⟩
  rw [wp_bind, wp_modifyFile, Kernel.setFile_setFile, Kernel.setFile_ftable, update_self]
  simp only [ht]
  rw [wp_pure]
  refine hQ _ (h.setFile ?_ (fun pi w => ?_) ?_ (fun g hg => ?_) (fun _ => rfl) nofun) rfl rfl ?_
    fun g hg => ?_
  · simp [File.inode, ht]
  · simp [IsEnd, ht]
  · simp [href, hc]
  · rw [Pi.add_apply, one_of_ne hg.symm, Nat.add_zero]
  · exact Kernel.holds_setFile_eq (by simp [File.inode, ht])
  · simp [hg]

end Close

end Sys

end Xv6

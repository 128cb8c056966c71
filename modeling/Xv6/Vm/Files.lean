import Xv6.Logic.Refs
import Xv6.Vm.Kernel

/-! # Open files and the pages of pipes

The count of an open file, the flags in a pipe's page and the page itself go together:
the page is owned as long as a file of the pipe is open.
-/

namespace Xv6.Vm

open Function

open Sys (ProcState FdType Fptr Pptr)

variable {s s₁ s' : Kern} {mem mem' : Mem} {ft ft' : Fptr → File} {c c₁ c' : Fptr → ℕ} {f g : Fptr}
  {H : Multiset ℕ} {K : Set Fptr} {q : ℕ}

namespace Kern

variable {x y : File} {p p' : Pptr} {z z' : Proc}

@[simp] theorem setMem_mem : (s.setMem mem).mem = mem := rfl

@[simp] theorem setMem_ftable : (s.setMem mem).ftable = s.ftable := rfl

@[simp] theorem setMem_proc : (s.setMem mem).proc = s.proc := rfl

@[simp] theorem setMem_setMem : (s.setMem mem).setMem mem' = s.setMem mem' := rfl

@[simp] theorem setFile_ftable : (s.setFile f x).ftable = update s.ftable f x := rfl

@[simp] theorem setFile_setFile : (s.setFile f x).setFile f y = s.setFile f y := by
  simp [setFile]

@[simp] theorem setProc_mem : (s.setProc p z).mem = s.mem := rfl

@[simp] theorem setProc_proc : (s.setProc p z).proc = update s.proc p z := rfl

@[simp] theorem setProc_setProc : (s.setProc p z).setProc p z' = s.setProc p z' := by
  simp [setProc]

theorem setMem_setProc : (s.setProc p z).setMem mem = (s.setMem mem).setProc p z := rfl

end Kern

variable {Q : Unit → Kern → Prop}

section

variable {E : Panic → Kern → Prop} {α : Type}

@[simp] theorem wp_onMem {m : M α} {Q : α → Kern → Prop} : wp (onMem m) E Q s ↔
    wp m (fun e mem => E e (s.setMem mem)) (fun a mem => Q a (s.setMem mem)) s.mem := by
  unfold wp onMem
  cases m s.mem <;> rfl

@[simp] theorem wp_getFile {Q : File → Kern → Prop} :
    wp (getFile f) E Q s ↔ Q (s.ftable f) s := Iff.rfl

@[simp] theorem wp_getProc {p : Pptr} {Q : Proc → Kern → Prop} :
    wp (getProc p) E Q s ↔ Q (s.proc p) s := Iff.rfl

@[simp] theorem wp_modifyFile {h : File → File} :
    wp (modifyFile f h) E Q s ↔ Q () (s.setFile f (h (s.ftable f))) := Iff.rfl

@[simp] theorem wp_modifyProc {p : Pptr} {h : Proc → Proc} :
    wp (modifyProc p h) E Q s ↔ Q () (s.setProc p (h (s.proc p))) := Iff.rfl

end

/-- An end of the pipe in page `q` is open. -/
def Mem.EndOpen (mem : Mem) (q : ℕ) (writable : Bool) : Prop :=
  (mem.page q).get32 (if writable then WRITEOPEN else READOPEN) ≠ 0

/-- The pages of the pipes with an open file. -/
@[grind =] def pipes (ft : Fptr → File) : Finset ℕ :=
  (Finset.univ.filter fun f => 0 < (ft f).ref ∧ (ft f).type = .pipe).image fun f => (ft f).pipe

/-- `f` is an end of the pipe in page `q`. -/
def IsEnd (ft : Fptr → File) (q : ℕ) (writable : Bool) (f : Fptr) : Prop :=
  (ft f).type = .pipe ∧ (ft f).pipe = q ∧ (ft f).writable = writable

/-- The file table when the references to its files are counted by `c`. -/
structure Files (mem : Mem) (ft : Fptr → File) (c : Fptr → ℕ) : Prop where
  ref : ∀ f, (ft f).ref = c f
  idle : ∀ f, c f = 0 → (ft f).type = .none
  ends : ∀ q w, q ∈ pipes ft → (mem.EndOpen q w ↔ ∃ f, IsEnd ft q w f)
  inj : ∀ q w f g, IsEnd ft q w f → IsEnd ft q w g → f = g

/-- One reference to `f`. -/
def one (f : Fptr) : Fptr → ℕ := fun g => if f = g then 1 else 0

@[simp] theorem one_self : one f f = 1 := if_pos rfl

theorem one_of_ne (h : f ≠ g) : one f g = 0 := if_neg h

theorem mem_pipes_of_idle (h : ∀ f, (ft f).ref = 0 → (ft f).type = .none) :
    q ∈ pipes ft ↔ ∃ f w, IsEnd ft q w f := by
  simp only [pipes, Finset.mem_image, Finset.mem_filter, Finset.mem_univ, true_and]
  constructor
  · rintro ⟨f, ⟨_, ht⟩, hq⟩
    exact ⟨f, _, ht, hq, rfl⟩
  · rintro ⟨f, w, ht, hq, _⟩
    refine ⟨f, ⟨Nat.pos_of_ne_zero fun hz => ?_, ht⟩, hq⟩
    rw [h f hz] at ht
    cases ht

namespace Files

theorem mem_pipes (h : Files mem ft c) : q ∈ pipes ft ↔ ∃ f w, IsEnd ft q w f :=
  mem_pipes_of_idle fun f hz => h.idle f ((h.ref f).symm.trans hz)

theorem congr (h : Files mem ft c) (hf : Frame mem mem' ((pipes ft).val + H)) :
    Files mem' ft c where
  ref := h.ref
  idle := h.idle
  ends q w hq := by
    rw [Mem.EndOpen, hf.page q (Multiset.mem_add.mpr (.inl hq))]
    exact h.ends q w hq
  inj := h.inj

end Files

/-- What the file keeps while it is open. -/
def SameFile (x y : File) : Prop := x.type = y.type ∧ x.pipe = y.pipe ∧ x.writable = y.writable

/-- The file table and memory have changed: the references are counted by `c'` now, the pages of
`H` and the files of `K` are as before. -/
structure FileStep (s s' : Kern) (H : Multiset ℕ) (c' : Fptr → ℕ) (K : Set Fptr) : Prop where
  files : Files s'.mem s'.ftable c'
  own : Own s'.mem ((pipes s'.ftable).val + H)
  frame : Frame s.mem s'.mem H
  rest : s' = { s with mem := s'.mem, ftable := s'.ftable }
  kept : ∀ g ∈ K, SameFile (s'.ftable g) (s.ftable g)

namespace FileStep

theorem refl (h : Files s.mem s.ftable c) (ho : Own s.mem ((pipes s.ftable).val + H)) :
    FileStep s s H c K :=
  ⟨h, ho, .refl _ _, rfl, fun _ _ => ⟨rfl, rfl, rfl⟩⟩

theorem trans (h : FileStep s s₁ H c₁ K) (h' : FileStep s₁ s' H c' K) : FileStep s s' H c' K where
  files := h'.files
  own := h'.own
  frame := h.frame.trans h'.frame
  rest := by
    rw [h'.rest, h.rest]
  kept g hg := by
    obtain ⟨h₁, h₂, h₃⟩ := h.kept g hg
    obtain ⟨h₁', h₂', h₃'⟩ := h'.kept g hg
    exact ⟨h₁'.trans h₁, h₂'.trans h₂, h₃'.trans h₃⟩

theorem mono {K' : Set Fptr} (h : FileStep s s' H c' K) (hK : K' ⊆ K) : FileStep s s' H c' K' :=
  ⟨h.files, h.own, h.frame, h.rest, fun g hg => h.kept g (hK hg)⟩

end FileStep

theorem isEnd_congr (h : ∀ f, SameFile (ft' f) (ft f)) {w : Bool} :
    IsEnd ft' q w f ↔ IsEnd ft q w f := by
  obtain ⟨h₁, h₂, h₃⟩ := h f
  rw [IsEnd, IsEnd, h₁, h₂, h₃]

/-- Only a count changes. -/
theorem fileStep_ref (h : Files s.mem s.ftable c) (ho : Own s.mem ((pipes s.ftable).val + H)) {n : ℕ}
    (hc : ∀ g, c' g = if g = f then n else c g) (hidle : c' f = 0 → (s.ftable f).type = .none) :
    FileStep s (s.setFile f { s.ftable f with ref := n }) H c' K := by
  have hsame : ∀ g, SameFile (update s.ftable f { s.ftable f with ref := n } g)
      (s.ftable g) := fun g => by
    rcases eq_or_ne g f with rfl | hg
    · rw [update_self]
      exact ⟨rfl, rfl, rfl⟩
    · rw [update_of_ne hg]
      exact ⟨rfl, rfl, rfl⟩
  have hidle' : ∀ g, c' g = 0 →
      (update s.ftable f { s.ftable f with ref := n } g).type = .none := fun g hg => by
    rw [(hsame g).1]
    rcases eq_or_ne g f with rfl | hgf
    · exact hidle hg
    · rw [hc, if_neg hgf] at hg
      exact h.idle g hg
  have href : ∀ g, (update s.ftable f { s.ftable f with ref := n } g).ref = c' g :=
    fun g => by
      rw [hc]
      rcases eq_or_ne g f with rfl | hgf
      · rw [update_self, if_pos rfl]
      · rw [update_of_ne hgf, if_neg hgf, h.ref]
  have hpipes : pipes (update s.ftable f { s.ftable f with ref := n }) = pipes s.ftable := by
    ext x
    rw [h.mem_pipes, mem_pipes_of_idle fun g hz => hidle' g ((href g).symm.trans hz)]
    simp only [isEnd_congr hsame]
  refine ⟨⟨href, hidle', fun x w hx => ?_, fun x w g₁ g₂ h₁ h₂ => ?_⟩, hpipes ▸ ho, .refl _ _, rfl,
    fun g _ => hsame g⟩
  · simp only [Kern.setFile_ftable, isEnd_congr hsame]
    refine h.ends x w ?_
    rw [← hpipes]
    exact hx
  · exact h.inj x w g₁ g₂ ((isEnd_congr hsame).mp h₁) ((isEnd_congr hsame).mp h₂)

theorem wp_filealloc (h : Files s.mem s.ftable c) (ho : Own s.mem ((pipes s.ftable).val + H)) :
    wp filealloc NoPanic (fun o s' => match o with
      | none => s' = s
      | some f => c f = 0 ∧ FileStep s s' H (c + one f) K) s := by
  rw [filealloc, wp_bind, wp_get]
  split
  next f hf =>
    have hz : (s.ftable f).ref = 0 := by simpa using List.find?_some hf
    have hc : c f = 0 := (h.ref f).symm.trans hz
    rw [wp_bind, wp_modifyFile]
    refine ⟨hc, fileStep_ref h ho (fun g => ?_) fun _ => h.idle f hc⟩
    rcases eq_or_ne g f with rfl | hg
    · simp [hc]
    · simp [one, hg, hg.symm]
  next => rfl

theorem wp_filedup (h : Files s.mem s.ftable c) (ho : Own s.mem ((pipes s.ftable).val + H))
    (hf : 0 < c f) : wp (filedup f) NoPanic (fun _ s' => FileStep s s' H (c + one f) K) s := by
  rw [filedup, wp_bind, wp_getFile, wp_bind, wp_stopIf]
  refine ⟨fun hc => absurd (h.ref f ▸ hc) (by omega), fun _ => ?_⟩
  rw [wp_modifyFile]
  refine fileStep_ref h ho (fun g => ?_) fun hc => ?_
  · rcases eq_or_ne g f with rfl | hg
    · simp [h.ref]
    · simp [one, hg, hg.symm]
  · simp at hc

/-! ## Closing -/

section

variable {x : File}

theorem isEnd_close (hx : x.type = .none) {w : Bool} :
    IsEnd (update ft f x) q w g ↔ g ≠ f ∧ IsEnd ft q w g := by
  rcases eq_or_ne g f with rfl | hg
  · simp [IsEnd, hx]
  · simp [IsEnd, hg]

theorem idle_close (h : Files mem ft c) (hx : x.type = .none) :
    (update ft f x g).ref = 0 → (update ft f x g).type = .none := by
  rcases eq_or_ne g f with rfl | hg
  · rw [update_self]
    exact fun _ => hx
  · rw [update_of_ne hg, h.ref]
    exact h.idle g

theorem mem_pipes_close (h : Files mem ft c) (hx : x.type = .none) :
    q ∈ pipes (update ft f x) ↔ ∃ g w, g ≠ f ∧ IsEnd ft q w g := by
  rw [mem_pipes_of_idle fun g => idle_close h hx]
  simp only [isEnd_close hx]

/-- The last reference to `f` goes. -/
theorem Files.close (h : Files mem ft (c + one f)) (hc : c f = 0) (hx : x.type = .none)
    (hz : x.ref = 0) (hm : ∀ q w, q ∈ pipes (update ft f x) →
      (mem'.EndOpen q w ↔ ∃ g, g ≠ f ∧ IsEnd ft q w g)) :
    Files mem' (update ft f x) c := by
  have href : ∀ g, (update ft f x g).ref = c g := fun g => by
    rcases eq_or_ne g f with rfl | hg
    · rw [update_self, hz, hc]
    · rw [update_of_ne hg, h.ref, Pi.add_apply, one_of_ne hg.symm, Nat.add_zero]
  refine ⟨href, fun g hg => ?_, fun q w hq => ?_, fun q w g₁ g₂ h₁ h₂ => ?_⟩
  · exact idle_close h hx ((href g).trans hg)
  · simp only [isEnd_close hx]
    exact hm q w hq
  · exact h.inj q w g₁ g₂ ((isEnd_close hx).mp h₁).2 ((isEnd_close hx).mp h₂).2

/-- A file that is no end of a pipe is closed. -/
theorem Files.close_other (h : Files mem ft (c + one f)) (hc : c f = 0) (hx : x.type = .none)
    (hz : x.ref = 0) (ht : (ft f).type ≠ .pipe) :
    Files mem (update ft f x) c ∧ pipes (update ft f x) = pipes ft := by
  have hne : ∀ q w g, IsEnd ft q w g → g ≠ f := by
    rintro q w g hg rfl
    exact ht hg.1
  have hpipes : pipes (update ft f x) = pipes ft := by
    ext q
    rw [mem_pipes_close h hx, h.mem_pipes]
    exact ⟨fun ⟨g, w, _, hg⟩ => ⟨g, w, hg⟩, fun ⟨g, w, hg⟩ => ⟨g, w, hne q w g hg, hg⟩⟩
  refine ⟨h.close hc hx hz fun q w hq => ?_, hpipes⟩
  rw [h.ends q w (hpipes ▸ hq)]
  exact ⟨fun ⟨g, hg⟩ => ⟨g, hne q w g hg, hg⟩, fun ⟨g, _, hg⟩ => ⟨g, hg⟩⟩

/-! ### The end of a pipe -/

section

variable {w : Bool} {b : Page}

/-- The ends that are left. -/
theorem isEnd_left (h : Files mem ft c) (hend : IsEnd ft q w f) {w' : Bool} :
    g ≠ f ∧ IsEnd ft q w' g ↔ w' ≠ w ∧ IsEnd ft q w' g := by
  refine and_congr_left fun hg => not_congr ⟨?_, ?_⟩
  · rintro rfl
    exact hg.2.2.symm.trans hend.2.2
  · rintro rfl
    exact h.inj q w' g f hg hend

theorem ne_of_isEnd {q' : ℕ} {w' : Bool} (hend : IsEnd ft q w f) (hq : q' ≠ q)
    (hg : IsEnd ft q' w' g) : g ≠ f := by
  rintro rfl
  exact hq (hg.2.1.symm.trans hend.2.1)

/-- Clearing the flag of an end. -/
theorem endOpen_clear (h : Files mem ft c) (hend : IsEnd ft q w f)
    (hb : b = (mem.page q).set32 (if w then WRITEOPEN else READOPEN) 0) {q' : ℕ} (w' : Bool)
    (hq' : q' ∈ pipes ft) : (mem.put q b).EndOpen q' w' ↔ ∃ g, g ≠ f ∧ IsEnd ft q' w' g := by
  rcases eq_or_ne q' q with rfl | hne
  · simp only [isEnd_left h hend, exists_and_left]
    rw [Mem.EndOpen, put_page_self, hb]
    rcases eq_or_ne w' w with rfl | hw
    · rw [Bytes.get32_set32 (by cases w' <;> decide) (by decide)]
      simp
    · rw [Bytes.get32_set32_of_disjoint (by cases w <;> cases w' <;> simp_all)]
      simp only [hw, ne_eq, not_false_eq_true, true_and]
      exact h.ends q' w' hq'
  · rw [Mem.EndOpen, put_page_of_ne hne]
    refine (h.ends q' w' hq').trans ⟨fun ⟨g, hg⟩ => ⟨g, ?_, hg⟩, fun ⟨g, _, hg⟩ => ⟨g, hg⟩⟩
    exact ne_of_isEnd hend hne hg

/-- The pipe stays if an end is open, else its page is the only one that goes. -/
theorem pipes_close (h : Files mem ft c) (hend : IsEnd ft q w f) (hx : x.type = .none) :
    pipes (update ft f x) = pipes ft ∨
      q ∉ pipes (update ft f x) ∧
        (pipes ft).val = q ::ₘ (pipes (update ft f x)).val := by
  have hsub : ∀ q', q' ∈ pipes (update ft f x) → q' ∈ pipes ft := fun q' hq => by
    obtain ⟨g, w', _, hg⟩ := (mem_pipes_close h hx).mp hq
    exact h.mem_pipes.mpr ⟨g, w', hg⟩
  have hback : ∀ q', q' ∈ pipes ft → q' ≠ q → q' ∈ pipes (update ft f x) := by
    intro q' hq' hne
    obtain ⟨g, w', hg⟩ := h.mem_pipes.mp hq'
    exact (mem_pipes_close h hx).mpr ⟨g, w', ne_of_isEnd hend hne hg, hg⟩
  by_cases hin : q ∈ pipes (update ft f x)
  · refine .inl (Finset.ext fun q' => ⟨hsub q', fun hq' => ?_⟩)
    by_cases hne : q' = q
    · exact hne ▸ hin
    · exact hback q' hq' hne
  · refine .inr ⟨hin, ?_⟩
    rw [← Finset.cons_val hin]
    refine congrArg _ (Finset.ext fun q' => ?_)
    rw [Finset.mem_cons]
    constructor
    · intro hq'
      by_cases hne : q' = q
      · exact .inl hne
      · exact .inr (hback q' hq' hne)
    · rintro (rfl | hq')
      · exact h.mem_pipes.mpr ⟨f, w, hend⟩
      · exact hsub q' hq'

theorem wp_pipeclose (h : Files mem ft (c + one f)) (ho : Own mem ((pipes ft).val + H))
    (hc : c f = 0) (hend : IsEnd ft q w f) (hx : x.type = .none) (hz : x.ref = 0) :
    wp (pipeclose q w) NoPanic (fun _ mem' => Files mem' (update ft f x) c ∧
      Own mem' ((pipes (update ft f x)).val + H) ∧ Frame mem mem' H) mem := by
  have hmem : q ∈ pipes ft := h.mem_pipes.mpr ⟨f, w, hend⟩
  rw [pipeclose, wp_bind, wp_get, wp_bind, wp_setPage, wp_runIf]
  generalize hb : (mem.page q).set32 (if w then WRITEOPEN else READOPEN) 0 = b
  have hopen := fun (q' : ℕ) (w' : Bool) (hq' : q' ∈ pipes ft) =>
    endOpen_clear h hend hb.symm w' hq'
  have hmem' : q ∈ pipes (update ft f x) ↔
      ¬ (b.get32 READOPEN = 0 ∧ b.get32 WRITEOPEN = 0) := by
    have h₁ := hopen q false hmem
    have h₂ := hopen q true hmem
    rw [Mem.EndOpen, put_page_self] at h₁ h₂
    simp only [Bool.false_eq_true, if_false, if_true] at h₁ h₂
    rw [mem_pipes_close h hx, not_and_or, ← ne_eq, ← ne_eq, h₁, h₂, exists_comm, Bool.exists_bool]
  have hsub : ∀ q', q' ∈ pipes (update ft f x) → q' ∈ pipes ft := fun q' hq => by
    obtain ⟨g, w', _, hg⟩ := (mem_pipes_close h hx).mp hq
    exact h.mem_pipes.mpr ⟨g, w', hg⟩
  refine ⟨fun hfree => ?_, fun hkeep => ?_⟩
  · obtain hsame | ⟨_, hcons⟩ := pipes_close h hend hx
    · exact absurd (hsame ▸ hmem) (by rw [hmem']; exact not_not.mpr hfree)
    rw [hcons, Multiset.cons_add] at ho
    refine (wp_kfree ho.put).post fun _ mem' ⟨ho', hf'⟩ => ⟨?_, ho', ?_⟩
    · refine h.close hc hx hz fun q' w' hq' => ?_
      rw [← hopen q' w' (hsub q' hq'), Mem.EndOpen, Mem.EndOpen,
        hf'.page q' (Multiset.mem_add.mpr (.inl hq'))]
    · exact (ho.frame_put.trans hf').mono fun y hy => Multiset.mem_add.mpr (.inr hy)
  · obtain hsame | ⟨hnot, _⟩ := pipes_close h hend hx
    · refine ⟨h.close hc hx hz fun q' w' hq' => hopen q' w' (hsub q' hq'), ?_, ?_⟩
      · rw [hsame]
        exact ho.put
      · exact ho.frame_put_left hmem
    · exact absurd (hmem'.mpr hkeep) hnot

end

end

theorem wp_fileclose (h : Files s.mem s.ftable (c + one f))
    (ho : Own s.mem ((pipes s.ftable).val + H)) :
    wp (fileclose f) NoPanic (fun _ s' => FileStep s s' H c {g | 0 < c g}) s := by
  have href : (s.ftable f).ref = c f + 1 := by rw [h.ref, Pi.add_apply, one_self]
  rw [fileclose, wp_bind, wp_getFile, wp_bind, wp_stopIf]
  refine ⟨fun hc => absurd hc (by omega), fun _ => ?_⟩
  rw [wp_bind, wp_modifyFile, wp_runIf, href, Nat.add_sub_cancel]
  refine ⟨fun hc => ?_, fun hc => ?_⟩
  · have hc : c f = 0 := by omega
    rw [wp_bind, wp_modifyFile, Kern.setFile_setFile, Kern.setFile_ftable, update_self]
    generalize hx : File.mk .none _ _ _ = x
    have hxt : x.type = .none := hx ▸ rfl
    have hxr : x.ref = 0 := hx ▸ hc
    have hkept : ∀ g ∈ {g | 0 < c g}, SameFile (update s.ftable f x g) (s.ftable g) :=
      fun g (hg : 0 < c g) => by
        rw [update_of_ne (by rintro rfl; omega)]
        exact ⟨rfl, rfl, rfl⟩
    rw [wp_runIf]
    refine ⟨fun ht => ?_, fun ht => ?_⟩
    · rw [wp_onMem]
      refine (wp_pipeclose h ho hc ⟨ht, rfl, rfl⟩ hxt hxr).post fun _ mem' ⟨hf', ho', hfr'⟩ => ?_
      exact ⟨hf', ho', hfr', rfl, hkept⟩
    · obtain ⟨hfiles, hpipes⟩ := h.close_other hc hxt hxr ht
      exact ⟨hfiles, hpipes ▸ ho, .refl _ _, rfl, hkept⟩
  · refine fileStep_ref h ho (fun g => ?_) fun hz => absurd hz (by omega)
    rcases eq_or_ne g f with rfl | hg
    · simp
    · simp [one, hg, hg.symm]

/-! ## Opening a pipe -/

/-- Both ends of a pipe in the page `q` that was not in use. -/
theorem Files.open_pipe {f₀ f₁ : Fptr} {x₀ x₁ : File} (h : Files mem ft c) (hq : q ∉ pipes ft)
    (hne : f₀ ≠ f₁) (ht₀ : (ft f₀).type = .none) (ht₁ : (ft f₁).type = .none)
    (hc₀ : c f₀ ≠ 0) (hc₁ : c f₁ ≠ 0)
    (hx₀ : x₀ = { ft f₀ with type := .pipe, writable := false, pipe := q })
    (hx₁ : x₁ = { ft f₁ with type := .pipe, writable := true, pipe := q })
    (hpage : ∀ q' ∈ pipes ft, mem'.page q' = mem.page q') (hopen : ∀ w, mem'.EndOpen q w) :
    Files mem' (update (update ft f₀ x₀) f₁ x₁) c ∧
      (pipes (update (update ft f₀ x₀) f₁ x₁)).val = q ::ₘ (pipes ft).val := by
  obtain ⟨ft', hft'⟩ : ∃ ft', update (update ft f₀ x₀) f₁ x₁ = ft' := ⟨_, rfl⟩
  have h₀ : ft' f₀ = x₀ := by rw [← hft', update_of_ne hne, update_self]
  have h₁ : ft' f₁ = x₁ := by rw [← hft', update_self]
  have hother : ∀ g, g ≠ f₀ → g ≠ f₁ → ft' g = ft g := fun g hg₀ hg₁ => by
    rw [← hft', update_of_ne hg₁, update_of_ne hg₀]
  have href : ∀ g, (ft' g).ref = c g := fun g => by
    rw [← h.ref]
    by_cases hg₀ : g = f₀
    · rw [hg₀, h₀, hx₀]
    by_cases hg₁ : g = f₁
    · rw [hg₁, h₁, hx₁]
    · rw [hother g hg₀ hg₁]
  have hidle : ∀ g, c g = 0 → (ft' g).type = .none := fun g hg => by
    rw [hother g (by rintro rfl; exact hc₀ hg) (by rintro rfl; exact hc₁ hg)]
    exact h.idle g hg
  have hend : ∀ q' w g, IsEnd ft' q' w g ↔
      IsEnd ft q' w g ∨ q' = q ∧ (if w then f₁ else f₀) = g := fun q' w g => by
    by_cases hg₀ : g = f₀
    · subst hg₀
      rw [IsEnd, h₀, hx₀, IsEnd, ht₀, eq_comm (a := q')]
      cases w <;> simp [hne.symm]
    by_cases hg₁ : g = f₁
    · subst hg₁
      rw [IsEnd, h₁, hx₁, IsEnd, ht₁, eq_comm (a := q')]
      cases w <;> simp [hne]
    · rw [IsEnd, hother g hg₀ hg₁, IsEnd]
      cases w <;> simp [Ne.symm hg₀, Ne.symm hg₁]
  have hpipes : pipes ft' = Finset.cons q (pipes ft) hq := by
    ext q'
    rw [mem_pipes_of_idle fun g hg => hidle g ((href g).symm.trans hg), Finset.mem_cons, h.mem_pipes]
    simp only [hend]
    constructor
    · rintro ⟨g, w, hg | ⟨rfl, _⟩⟩
      exacts [.inr ⟨g, w, hg⟩, .inl rfl]
    · rintro (rfl | ⟨g, w, hg⟩)
      exacts [⟨f₀, false, .inr ⟨rfl, rfl⟩⟩, ⟨g, w, .inl hg⟩]
  have hnew : ∀ w g, ¬ IsEnd ft q w g := fun w g hg => hq (h.mem_pipes.mpr ⟨g, w, hg⟩)
  rw [hft']
  refine ⟨⟨href, hidle, fun q' w hq' => ?_, fun q' w g₁ g₂ hg₁ hg₂ => ?_⟩, ?_⟩
  · simp only [hend]
    rw [hpipes, Finset.mem_cons] at hq'
    rcases hq' with rfl | hq'
    · exact ⟨fun _ => ⟨_, .inr ⟨rfl, rfl⟩⟩, fun _ => hopen w⟩
    · rw [Mem.EndOpen, hpage q' hq']
      refine (h.ends q' w hq').trans (exists_congr fun g => ?_)
      have hqq : q' ≠ q := by
        rintro rfl
        exact hq hq'
      simp [hqq]
  · rw [hend] at hg₁ hg₂
    rcases hg₁ with hg₁ | ⟨rfl, rfl⟩ <;> rcases hg₂ with hg₂ | ⟨hqq, rfl⟩
    · exact h.inj q' w g₁ g₂ hg₁ hg₂
    · exact absurd (hqq ▸ hg₁) (hnew w g₁)
    · exact absurd hg₂ (hnew w g₂)
    · rfl
  · rw [hpipes, Finset.cons_val]

theorem endOpen_fresh {b : Page} {w : Bool}
    (hb : b = ((((mem.page q).set32 READOPEN 1).set32 WRITEOPEN 1).set32 NWRITE 0).set32 NREAD 0) :
    (mem.put q b).EndOpen q w := by
  rw [Mem.EndOpen, put_page_self, hb]
  cases w with
  | true =>
    rw [if_pos rfl, Bytes.get32_set32_of_disjoint (by decide),
      Bytes.get32_set32_of_disjoint (by decide), Bytes.get32_set32 (by decide) (by decide)]
    decide
  | false =>
    rw [if_neg (by decide), Bytes.get32_set32_of_disjoint (by decide),
      Bytes.get32_set32_of_disjoint (by decide), Bytes.get32_set32_of_disjoint (by decide),
      Bytes.get32_set32 (by decide) (by decide)]
    decide

theorem wp_pipealloc (h : Files s.mem s.ftable c) (ho : Own s.mem ((pipes s.ftable).val + H)) :
    wp pipealloc NoPanic (fun o s' => match o with
      | none => FileStep s s' H c {g | 0 < c g}
      | some b => FileStep s s' H (c + one b.1 + one b.2) {g | 0 < c g}) s := by
  rw [pipealloc, wp_bind]
  refine (wp_filealloc h ho (K := Set.univ)).post fun o s₁ h₁ => ?_
  cases o with
  | none =>
    subst h₁
    exact .refl h ho
  | some f₀ =>
    obtain ⟨hc₀, h₁⟩ := h₁
    rw [wp_bind]
    refine (wp_filealloc h₁.files h₁.own (K := Set.univ)).post fun o s₂ h₂ => ?_
    cases o with
    | none =>
      subst h₂
      rw [wp_bind]
      exact (wp_fileclose h₁.files h₁.own).post fun _ s' h' => (h₁.mono (Set.subset_univ _)).trans h'
    | some f₁ =>
      obtain ⟨hc₁, h₂⟩ := h₂
      have hne : f₀ ≠ f₁ := by
        rintro rfl
        simp at hc₁
      replace hc₁ : c f₁ = 0 := (Nat.add_eq_zero_iff.mp hc₁).1
      have hs₂ := h₁.trans h₂
      rw [wp_bind, wp_onMem]
      refine (wp_kalloc hs₂.own).post fun o mem hm => ?_
      cases o with
      | none =>
        obtain rfl : mem = s₂.mem := hm
        have hcomm : c + one f₀ + one f₁ = c + one f₁ + one f₀ := add_right_comm _ _ _
        rw [wp_bind]
        refine (wp_fileclose (hcomm ▸ hs₂.files) hs₂.own).post fun _ s₃ h₃ => ?_
        rw [wp_bind]
        refine (wp_fileclose h₃.files h₃.own).post fun _ s' h' => ?_
        refine ((hs₂.mono (Set.subset_univ _)).trans (h₃.mono fun g hg => ?_)).trans h'
        exact Nat.add_pos_left hg _
      | some pi =>
        obtain ⟨ho₃, hf₃⟩ := hm
        have hpi : pi ∉ pipes s₂.ftable := fun hc => ho₃.notMem (Multiset.mem_add.mpr (.inl hc))
        have ht : ∀ g, c g = 0 → (s₂.ftable g).type = .none := fun g hg =>
          (hs₂.kept g (Set.mem_univ g)).1.trans (h.idle g hg)
        rw [wp_bind, wp_onMem, wp_bind, wp_get, wp_setPage, wp_bind, wp_modifyFile, wp_bind,
          wp_modifyFile]
        have hf₄ := hf₃.trans (ho₃.frame_put (b := (((((mem.page pi).set32 READOPEN 1).set32
          WRITEOPEN 1).set32 NWRITE 0).set32 NREAD 0)))
        obtain ⟨hfiles, hpipes⟩ := hs₂.files.open_pipe hpi hne (ht f₀ hc₀) (ht f₁ hc₁) (by simp)
          (by simp) rfl rfl (fun q' hq' => hf₄.page q' (Multiset.mem_add.mpr (.inl hq')))
          fun w => endOpen_fresh rfl
        simp only [Kern.setFile_ftable, Kern.setMem_ftable, update_of_ne hne.symm]
        refine ⟨hfiles, ?_, hs₂.frame.trans (hf₄.mono fun y hy => ?_), ?_, fun g hg => ?_⟩
        · simp only [Kern.setFile_ftable, Kern.setMem_ftable]
          rw [hpipes, Multiset.cons_add]
          exact ho₃.put
        · exact Multiset.mem_add.mpr (.inr hy)
        · rw [hs₂.rest]
          rfl
        · simp only [Set.mem_ofPred_eq] at hg
          simp only [Kern.setFile_ftable, Kern.setMem_ftable]
          rw [update_of_ne (by rintro rfl; omega),
            update_of_ne (by rintro rfl; omega)]
          exact hs₂.kept g (Set.mem_univ g)

end Xv6.Vm

import Xv6.Vm.Process

/-! # Calls

Every call keeps the invariant and touches the caller, a process it creates and a
process it buries; the others keep their memory and their open files.
-/

namespace Xv6.Vm

open Function

open Sys (ProcState FdType Fptr Pptr)

variable {s s₁ s' : Kern} {mem mem' : Mem} {c c' : Fptr → ℕ} {f g : Fptr} {p q : Pptr}
  {x y : Proc} {A B : Set Pptr} {K K' : Set Fptr} {fd : Fin NOFILE}

/-! ## What a call leaves alone -/

/-- The process is as before, up to its parent. -/
structure Same (s s' : Kern) (q : Pptr) : Prop where
  proc : s'.proc q = { s.proc q with parent := (s'.proc q).parent }
  pages : (s'.proc q).pages s'.mem = (s.proc q).pages s.mem

namespace Same

theorem of_eq (h : s'.proc q = s.proc q) (hp : (s.proc q).pages s'.mem = (s.proc q).pages s.mem) :
    Same s s' q :=
  ⟨by rw [h], by rw [h, hp]⟩

theorem trans (h : Same s s₁ q) (h' : Same s₁ s' q) : Same s s' q :=
  ⟨by rw [h'.proc, h.proc], h'.pages.trans h.pages⟩

theorem state (h : Same s s' q) : (s'.proc q).state = (s.proc q).state := by rw [h.proc]

theorem ofile (h : Same s s' q) : (s'.proc q).ofile = (s.proc q).ofile := by rw [h.proc]

theorem pid (h : Same s s' q) : (s'.proc q).pid = (s.proc q).pid := by rw [h.proc]

end Same

/-- The processes outside of `A` and the files of `K` are as before. -/
structure Effect (s s' : Kern) (A : Set Pptr) (K : Set Fptr) : Prop where
  same : ∀ q ∉ A, Same s s' q
  file : ∀ g ∈ K, SameFile (s'.ftable g) (s.ftable g)
  nextpid : s.nextpid ≤ s'.nextpid
  boot : s'.boot = s.boot
  image : s'.mem.image = s.mem.image

namespace Effect

theorem refl (s : Kern) (A : Set Pptr) (K : Set Fptr) : Effect s s A K :=
  ⟨fun _ _ => .of_eq rfl rfl, fun _ _ => ⟨rfl, rfl, rfl⟩, le_rfl, rfl, rfl⟩

theorem trans (h : Effect s s₁ A K) (h' : Effect s₁ s' A K) : Effect s s' A K where
  same q hq := (h.same q hq).trans (h'.same q hq)
  file g hg := by
    obtain ⟨h₁, h₂, h₃⟩ := h.file g hg
    obtain ⟨h₁', h₂', h₃'⟩ := h'.file g hg
    exact ⟨h₁'.trans h₁, h₂'.trans h₂, h₃'.trans h₃⟩
  nextpid := h.nextpid.trans h'.nextpid
  boot := h'.boot.trans h.boot
  image := h'.image.trans h.image

theorem mono (h : Effect s s' A K) (hA : A ⊆ B) (hK : K' ⊆ K) : Effect s s' B K' :=
  ⟨fun q hq => h.same q fun hc => hq (hA hc), fun g hg => h.file g (hK hg), h.nextpid, h.boot,
    h.image⟩

theorem of_procStep (hs : Inv s c) (h : ProcStep s s' c p x) : Effect s s' {p} Set.univ where
  same _ hq := ⟨by rw [h.proc_of_ne hq], h.pages hs hq⟩
  file g _ := by
    rw [h.ftable]
    exact ⟨rfl, rfl, rfl⟩
  nextpid := h.nextpid
  boot := by
    rw [h.eq]
    rfl
  image := h.frame.image

end Effect

/-! ## Changes of the file table -/

/-- The pages that belong to no pipe. -/
def spaces (s : Kern) : Multiset ℕ := ∑ p, (s.proc p).pages s.mem + s.boot

theorem pages_subset_spaces : (s.proc q).pages s.mem ⊆ spaces s := fun _ hy =>
  Multiset.mem_add.mpr (.inl (Multiset.mem_sum.mpr ⟨q, Finset.mem_univ q, hy⟩))

namespace Inv

theorem own_spaces (h : Inv s c) : Own s.mem ((pipes s.ftable).val + spaces s) := by
  rw [spaces, add_left_comm]
  exact h.own

theorem fileStep (h : Inv s c) (hf : FileStep s s' (spaces s) c' K) :
    Inv s' c' ∧ Effect s s' ∅ K := by
  have hproc : s'.proc = s.proc := by rw [hf.rest]
  have hboot : s'.boot = s.boot := by rw [hf.rest]
  have hpages := fun q => (h.space q).congr hf.frame pages_subset_spaces
  refine ⟨⟨fun q => hproc ▸ (hpages q).1, hf.files, ?_⟩, fun q _ => ?_, hf.kept, ?_, hboot,
    hf.frame.image⟩
  · have ho := hf.own
    rw [spaces, add_left_comm] at ho
    rw [hproc, hboot, Finset.sum_congr rfl fun q _ => (hpages q).2]
    exact ho
  · exact .of_eq (by rw [hproc]) (hpages q).2
  · rw [hf.rest]

end Inv

/-! ## Changes of a process without its memory -/

/-- The same memory. -/
structure SameSpace (x y : Proc) : Prop where
  unused : x.state = .unused ↔ y.state = .unused
  pagetable : x.pagetable = y.pagetable
  trapframe : x.trapframe = y.trapframe
  sz : x.sz = y.sz

namespace SameSpace

theorem refl (x : Proc) : SameSpace x x := ⟨Iff.rfl, rfl, rfl, rfl⟩

theorem pages (h : SameSpace x y) : x.pages mem = y.pages mem := by
  simp only [Proc.pages, Proc.tablePages, Proc.userPages, h.unused, h.pagetable, h.trapframe, h.sz]

theorem holds (h : SameSpace x y) (hy : y.Holds mem) : x.Holds mem := by
  refine ⟨fun hx => ?_, fun hx => ?_⟩
  · simp only [Proc.tablePages, h.pagetable, h.trapframe, h.sz]
    exact hy.live fun hc => hx (h.unused.mpr hc)
  · rw [h.pagetable, h.trapframe, h.sz]
    exact hy.idle (h.unused.mp hx)

end SameSpace

theorem Inv.relabel {proc' : Pptr → Proc} (h : Inv s c) (hx : ∀ q, SameSpace (proc' q) (s.proc q)) :
    Inv { s with proc := proc' } c := by
  refine ⟨fun q => (hx q).holds (h.space q), h.files, ?_⟩
  rw [Finset.sum_congr rfl fun q _ => (hx q).pages]
  exact h.own

theorem Inv.setProc (h : Inv s c) (hx : SameSpace x (s.proc p)) :
    Inv (s.setProc p x) c ∧ Effect s (s.setProc p x) {p} Set.univ := by
  refine ⟨h.relabel fun q => ?_, fun q hq => ?_, fun _ _ => ⟨rfl, rfl, rfl⟩, le_rfl, rfl, rfl⟩
  · rcases eq_or_ne q p with rfl | hq
    · rwa [update_self]
    · rw [update_of_ne hq]
      exact .refl _
  · exact .of_eq (update_of_ne hq _ _) rfl

/-! ## Descriptors -/

/-- All descriptors. -/
def Kern.slots (s : Kern) : Pptr × Fin NOFILE → Option Fptr := fun i => (s.proc i.1).ofile i.2

theorem slots_congr (h : ∀ q, (s'.proc q).ofile = (s.proc q).ofile) : s'.slots = s.slots := by
  funext i
  exact congrFun (h i.1) i.2

theorem slots_setProc {o : Option Fptr} (hx : x.ofile = update (s.proc p).ofile fd o) :
    (s.setProc p x).slots = update s.slots (p, fd) o := by
  funext ⟨q, fd'⟩
  simp only [Kern.slots, Kern.setProc_proc]
  rcases eq_or_ne q p with rfl | hq
  · rw [update_self, hx]
    rcases eq_or_ne fd' fd with rfl | hfd
    · rw [update_self, update_self]
    · rw [update_of_ne hfd, update_of_ne (by simp [hfd])]
      rfl
  · rw [update_of_ne hq, update_of_ne (by simp [hq])]
    rfl

theorem refs_slots_fill (h : s.slots (p, fd) = none) :
    refs (update s.slots (p, fd) (some f)) = refs s.slots + one f := by
  funext g
  exact refs_fill h

theorem refs_slots_clear (h : s.slots (p, fd) = some f) :
    refs (update s.slots (p, fd) none) + one f = refs s.slots := by
  funext g
  exact refs_clear h

/-- A process whose descriptors and number are in order. -/
structure Fine (s : Kern) (q : Pptr) : Prop where
  closed : (s.proc q).state = .unused ∨ (s.proc q).state = .zombie → ∀ fd, (s.proc q).ofile fd = none
  pid : (s.proc q).state ≠ .unused → (s.proc q).pid < s.nextpid

/-- The state between calls. -/
structure Valid (s : Kern) : Prop where
  inv : Inv s (refs s.slots)
  fine : ∀ q, Fine s q

theorem Fine.of_same (h : Fine s q) (hs : Same s s' q) (hn : s.nextpid ≤ s'.nextpid) : Fine s' q := by
  refine ⟨?_, ?_⟩
  · rw [hs.state, hs.ofile]
    exact h.closed
  · rw [hs.state, hs.pid]
    exact fun hq => (h.pid hq).trans_le hn

theorem Valid.of_effect (h : Valid s) (he : Effect s s' A K) (hi : Inv s' (refs s'.slots))
    (hA : ∀ q ∈ A, Fine s' q) : Valid s' := by
  refine ⟨hi, fun q => ?_⟩
  by_cases hq : q ∈ A
  · exact hA q hq
  · exact (h.fine q).of_same (he.same q hq) he.nextpid

/-- Only the caller changes, and it goes on. -/
theorem Valid.of_caller (h : Valid s) (he : Effect s s' {p} K) (hi : Inv s' (refs s'.slots))
    (hp : (s.proc p).state = .runnable) (hst : (s'.proc p).state = (s.proc p).state)
    (hpid : (s'.proc p).pid = (s.proc p).pid) : Valid s' := by
  refine h.of_effect he hi fun q hq => ?_
  obtain rfl : q = p := hq
  refine ⟨fun hc => ?_, fun _ => ?_⟩
  · rw [hst, hp] at hc
    simp at hc
  · rw [hpid]
    exact ((h.fine q).pid (by simp [hp])).trans_le he.nextpid

/-- The files that the processes outside of `A` hold. -/
def held (s : Kern) (A : Set Pptr) : Set Fptr := {g | ∃ q fd, q ∉ A ∧ (s.proc q).ofile fd = some g}

theorem held_congr (h : Effect s s' A K) : held s' A = held s A := by
  ext g
  refine exists_congr fun q => exists_congr fun fd => and_congr_right fun hq => ?_
  rw [(h.same q hq).ofile]

theorem held_subset : held s A ⊆ {g | 0 < refs s.slots g} := by
  rintro g ⟨q, fd, _, hg⟩
  exact refs_pos.mpr ⟨(q, fd), hg⟩

/-! ## close -/

/-- The process has other descriptors. -/
def SameButFiles (x y : Proc) : Prop := x = { y with ofile := x.ofile }

theorem SameButFiles.sameSpace (h : SameButFiles x y) : SameSpace x y := by
  rw [h]
  exact ⟨Iff.rfl, rfl, rfl, rfl⟩

theorem SameButFiles.trans {z : Proc} (h : SameButFiles x y) (h' : SameButFiles y z) :
    SameButFiles x z := by
  rw [SameButFiles, h, h']

/-- A file is closed that is referred to once more than by the descriptors that count. -/
theorem wp_fileclose_inv (h : Inv s (c + one f)) : wp (fileclose f) NoPanic
    (fun _ s' => Inv s' c ∧ Effect s s' ∅ {g | 0 < c g} ∧ s'.proc = s.proc) s :=
  (wp_fileclose h.files h.own_spaces).post fun _ s' hs' =>
    ⟨(h.fileStep hs').1, (h.fileStep hs').2, by rw [hs'.rest]⟩

theorem Inv.setFiles (h : Inv s c) (p : Pptr) (fd : Fin NOFILE) (o : Option Fptr)
    (hx : x = { s.proc p with ofile := update (s.proc p).ofile fd o }) :
    Inv (s.setProc p x) c ∧ Effect s (s.setProc p x) {p} Set.univ ∧
      (s.setProc p x).slots = update s.slots (p, fd) o ∧ SameButFiles x (s.proc p) := by
  have hsame : SameButFiles x (s.proc p) := by rw [hx, SameButFiles]
  refine ⟨(h.setProc hsame.sameSpace).1, (h.setProc hsame.sameSpace).2, slots_setProc ?_, hsame⟩
  rw [hx]

theorem wp_sysClose {fd : ℕ} (h : Valid s) (hp : (s.proc p).state = .runnable) :
    wp (sysClose p fd) NoPanic (fun _ s' => Valid s' ∧ Effect s s' {p} (held s {p}) ∧
      SameButFiles (s'.proc p) (s.proc p)) s := by
  have hsame : Valid s ∧ Effect s s {p} (held s {p}) ∧ SameButFiles (s.proc p) (s.proc p) :=
    ⟨h, .refl s _ _, rfl⟩
  rw [sysClose, wp_bind, wp_getProc]
  split
  next hfd =>
    split
    next => exact hsame
    next f hf =>
      obtain ⟨hi₁, he₁, hs₁, hx₁⟩ := h.inv.setFiles p ⟨fd, hfd⟩ none rfl
      rw [wp_bind, fdclear, wp_modifyProc, wp_bind]
      generalize hs : s.setProc p _ = s₁ at hi₁ he₁ hs₁ ⊢
      have hslot : s.slots (p, ⟨fd, hfd⟩) = some f := hf
      rw [← refs_slots_clear hslot, ← hs₁] at hi₁
      refine (wp_fileclose_inv hi₁).post fun _ s' ⟨hi', he', hp'⟩ => ?_
      have hslots : s'.slots = s₁.slots := slots_congr fun q => by rw [hp']
      have he : Effect s s' {p} (held s {p}) := by
        refine (he₁.mono le_rfl (Set.subset_univ _)).trans (he'.mono (Set.empty_subset _) ?_)
        rw [← held_congr he₁]
        exact held_subset
      have hx : SameButFiles (s'.proc p) (s.proc p) := by
        rw [hp', ← hs, Kern.setProc_proc, update_self]
        exact hx₁
      refine ⟨h.of_caller he (hslots ▸ hi') hp ?_ ?_, he, hx⟩
      · rw [hx]
      · rw [hx]
  next => exact hsame

/-! ## pipe -/

/-- Both new files are closed again. -/
theorem wp_close_both {f₀ f₁ : Fptr} (h : Inv s (c + one f₀ + one f₁)) :
    wp (do fileclose f₀; fileclose f₁; pure (-1 : ℤ)) NoPanic
      (fun _ s' => Inv s' c ∧ Effect s s' ∅ {g | 0 < c g} ∧ s'.proc = s.proc) s := by
  rw [add_right_comm] at h
  rw [wp_bind]
  refine (wp_fileclose_inv h).post fun _ s₁ ⟨hi₁, he₁, hp₁⟩ => ?_
  rw [wp_bind]
  refine (wp_fileclose_inv hi₁).post fun _ s' ⟨hi', he', hp'⟩ => ⟨hi', ?_, hp'.trans hp₁⟩
  exact (he₁.mono le_rfl fun g hg => Nat.add_pos_left hg _).trans he'

/-- A free descriptor is taken, if there is one. -/
theorem wp_fdalloc {E : Panic → Kern → Prop} : wp (fdalloc p f) E (fun o s' => match o with
    | none => s' = s
    | some fd => s.slots (p, fd) = none ∧ s' = s.setProc p
        { s.proc p with ofile := update (s.proc p).ofile fd (some f) }) s := by
  rw [fdalloc, wp_bind, wp_getProc]
  split
  next fd hfd =>
    rw [wp_bind, wp_modifyProc]
    have hnone : (s.proc p).ofile fd = none := by simpa using List.find?_some hfd
    exact ⟨hnone, rfl⟩
  next => rfl

variable {fdarray : ℕ}

theorem wp_copyoutFds {fd₀ fd₁ : Fin NOFILE} (h : Inv s c) (hp : (s.proc p).state ≠ .unused) :
    wp (copyoutFds (s.proc p).pagetable fdarray fd₀ fd₁) NoPanic
      (fun _ mem' => ProcStep s (s.setMem mem') c p (s.proc p) ∧
        (s.proc p).pages mem' = (s.proc p).pages s.mem) s.mem := by
  rw [copyoutFds, wp_bind]
  refine (wp_copyout_proc h hp).post fun ok mem₁ ⟨h₁, hpages₁⟩ => ?_
  cases ok with
  | false => exact ⟨h₁, hpages₁⟩
  | true =>
    rw [if_pos rfl]
    refine (wp_copyout_proc h₁.inv hp).post fun _ mem' ⟨h', hpages'⟩ => ?_
    exact ⟨h₁.trans h h', hpages'.trans hpages₁⟩

/-- What `sys_pipe` has done when it ends. -/
structure PipeStep (s s' : Kern) (p : Pptr) : Prop where
  inv : Inv s' (refs s'.slots)
  effect : Effect s s' {p} {g | 0 < refs s.slots g}
  proc : SameButFiles (s'.proc p) (s.proc p)

theorem wp_sysPipe_mid (h : Inv s (refs s.slots)) (hp : (s.proc p).state ≠ .unused) :
    wp (sysPipe p fdarray) NoPanic (fun _ s' => PipeStep s s' p) s := by
  obtain ⟨K, hK⟩ : ∃ K, {g | 0 < refs s.slots g} = K := ⟨_, rfl⟩
  rw [sysPipe, wp_bind]
  refine (wp_pipealloc h.files h.own_spaces).post fun o s₁ h₁ => ?_
  cases o with
  | none =>
    obtain ⟨hi₁, he₁⟩ := h.fileStep h₁
    have hp₁ : s₁.proc = s.proc := by rw [h₁.rest]
    have hslots : s₁.slots = s.slots := slots_congr fun q => by rw [hp₁]
    exact ⟨hslots ▸ hi₁, he₁.mono (Set.empty_subset _) le_rfl, by rw [hp₁]; rfl⟩
  | some b =>
    obtain ⟨hi₁, he₁⟩ := h.fileStep h₁
    have hp₁ : s₁.proc = s.proc := by rw [h₁.rest]
    have hslots₁ : s₁.slots = s.slots := slots_congr fun q => by rw [hp₁]
    replace he₁ : Effect s s₁ {p} K := hK ▸ he₁.mono (Set.empty_subset _) le_rfl
    -- giving up with the descriptors as they were
    have hback : ∀ s₂, Inv s₂ (refs s.slots + one b.1 + one b.2) → Effect s s₂ {p} K →
        SameButFiles (s₂.proc p) (s.proc p) → s₂.slots = s.slots →
        wp (do fileclose b.1; fileclose b.2; pure (-1 : ℤ)) NoPanic
          (fun _ s' => PipeStep s s' p) s₂ := fun s₂ hi₂ he₂ hx₂ hs₂ => by
      refine (wp_close_both hi₂).post fun _ s' ⟨hi', he', hp'⟩ => ?_
      have hslots : s'.slots = s.slots := (slots_congr fun q => by rw [hp']).trans hs₂
      refine ⟨hslots ▸ hi', ?_, hp' ▸ hx₂⟩
      rw [hK] at he' ⊢
      exact he₂.trans (he'.mono (Set.empty_subset _) le_rfl)
    rw [wp_bind]
    refine wp_fdalloc.post fun o s₂ h₂ => ?_
    cases o with
    | none =>
      subst h₂
      exact hback s₂ hi₁ he₁ (by rw [hp₁]; rfl) hslots₁
    | some fd₀ =>
      obtain ⟨hfree₀, hs₂⟩ := h₂
      obtain ⟨hi₂, he₂, hslots₂, hx₂⟩ := hi₁.setFiles p fd₀ (some b.1) rfl
      rw [← hs₂] at hi₂ he₂ hslots₂
      rw [hslots₁] at hfree₀ hslots₂
      have hp₂ : SameButFiles (s₂.proc p) (s.proc p) := by
        rw [hs₂, Kern.setProc_proc, update_self, ← hp₁]
        exact hx₂
      replace he₂ := he₁.trans (he₂.mono le_rfl (Set.subset_univ _))
      rw [wp_bind]
      refine wp_fdalloc.post fun o s₃ h₃ => ?_
      cases o with
      | none =>
        subst h₃
        obtain ⟨hi₄, he₄, hslots₄, hx₄⟩ := hi₂.setFiles p fd₀ none rfl
        rw [wp_bind, fdclear, wp_modifyProc]
        refine hback _ hi₄ (he₂.trans (he₄.mono le_rfl (Set.subset_univ _))) ?_ ?_
        · rw [Kern.setProc_proc, update_self]
          exact hx₄.trans hp₂
        · rw [hslots₄, hslots₂, update_idem, ← hfree₀, update_eq_self]
      | some fd₁ =>
        obtain ⟨hfree₁, hs₃⟩ := h₃
        obtain ⟨hi₃, he₃, hslots₃, hx₃⟩ := hi₂.setFiles p fd₁ (some b.2) rfl
        rw [← hs₃] at hi₃ he₃ hslots₃
        have hp₃ : SameButFiles (s₃.proc p) (s.proc p) := by
          rw [hs₃, Kern.setProc_proc, update_self]
          exact hx₃.trans hp₂
        replace he₃ := he₂.trans (he₃.mono le_rfl (Set.subset_univ _))
        have hst₃ : (s₃.proc p).state ≠ .unused := by
          rw [hp₃]
          exact hp
        have hrefs : refs s₃.slots = refs s.slots + one b.1 + one b.2 := by
          rw [hslots₃, refs_slots_fill hfree₁, hslots₂, refs_slots_fill hfree₀]
        rw [wp_bind, wp_getProc, wp_bind, wp_onMem]
        refine (wp_copyoutFds hi₃ hst₃).post fun ok mem' ⟨h₄, hpages⟩ => ?_
        have he₄ : Effect s₃ (s₃.setMem mem') {p} K :=
          (Effect.of_procStep hi₃ h₄).mono le_rfl (Set.subset_univ _)
        cases ok with
        | true =>
          refine ⟨?_, hK ▸ he₃.trans he₄, hp₃⟩
          rw [show (s₃.setMem mem').slots = s₃.slots from rfl, hrefs]
          exact h₄.inv
        | false =>
          rw [if_neg (by decide), wp_bind, fdclear, wp_modifyProc, wp_bind, fdclear, wp_modifyProc]
          obtain ⟨hi₅, he₅, hslots₅, hx₅⟩ := h₄.inv.setFiles p fd₀ none rfl
          generalize hs₅ : (s₃.setMem mem').setProc p _ = s₅ at hi₅ he₅ hslots₅ ⊢
          obtain ⟨hi₆, he₆, hslots₆, hx₆⟩ := hi₅.setFiles p fd₁ none rfl
          refine hback _ hi₆ (((he₃.trans he₄).trans (he₅.mono le_rfl (Set.subset_univ _))).trans
            (he₆.mono le_rfl (Set.subset_univ _))) ?_ ?_
          · rw [Kern.setProc_proc, update_self]
            refine hx₆.trans ?_
            rw [← hs₅, Kern.setProc_proc, update_self]
            exact hx₅.trans hp₃
          · rw [hslots₆, hslots₅, show (s₃.setMem mem').slots = s₃.slots from rfl, hslots₃, hslots₂]
            exact update_back hfree₀ (hslots₂ ▸ hfree₁)

theorem wp_sysPipe (h : Valid s) (hp : (s.proc p).state = .runnable) :
    wp (sysPipe p fdarray) NoPanic (fun _ s' => Valid s' ∧ Effect s s' {p} (held s {p}) ∧
      (s'.proc p).pid = (s.proc p).pid) s := by
  refine (wp_sysPipe_mid h.inv (by simp [hp])).post fun _ s' h' => ?_
  have he := h'.effect.mono le_rfl (held_subset (A := {p}))
  have hpid : (s'.proc p).pid = (s.proc p).pid := by rw [h'.proc]
  exact ⟨h.of_caller he h'.inv hp (by rw [h'.proc]) hpid, he, hpid⟩

/-! ## exit -/

theorem wp_closeFrom {fds : List (Fin NOFILE)} (h : Inv s (refs s.slots)) :
    wp (closeFrom p fds) NoPanic (fun _ s' => Inv s' (refs s'.slots) ∧
      Effect s s' {p} (held s {p}) ∧ SameButFiles (s'.proc p) (s.proc p) ∧
      ∀ fd, fd ∈ fds ∨ (s.proc p).ofile fd = none → (s'.proc p).ofile fd = none) s := by
  induction fds generalizing s with
  | nil => exact ⟨h, .refl s _ _, rfl, fun fd hfd => hfd.resolve_left (List.not_mem_nil)⟩
  | cons fd fds ih =>
    rw [closeFrom, wp_bind, wp_getProc, wp_bind]
    cases hf : (s.proc p).ofile fd with
    | none =>
      refine (ih h).post fun _ s' ⟨hi', he', hx', hn'⟩ => ⟨hi', he', hx', fun fd' hfd' => hn' fd' ?_⟩
      rcases hfd' with hfd' | hfd'
      · rcases List.mem_cons.mp hfd' with rfl | hfd'
        · exact .inr hf
        · exact .inl hfd'
      · exact .inr hfd'
    | some f =>
      have hslot : s.slots (p, fd) = some f := hf
      rw [← refs_slots_clear hslot] at h
      rw [Option.elim_some, wp_bind]
      refine (wp_fileclose_inv h).post fun _ s₁ ⟨hi₁, he₁, hp₁⟩ => ?_
      obtain ⟨hi₂, he₂, hs₂, hx₂⟩ := hi₁.setFiles p fd none rfl
      rw [fdclear, wp_modifyProc]
      generalize hs : s₁.setProc p _ = s₂ at hi₂ he₂ hs₂ ⊢
      have hslots : s₁.slots = s.slots := slots_congr fun q => by rw [hp₁]
      rw [hslots] at hs₂
      rw [← hs₂] at hi₂
      have hheld : held s {p} ⊆ {g | 0 < refs (update s.slots (p, fd) none) g} := by
        rintro g ⟨q, fd', hq, hg⟩
        refine refs_pos.mpr ⟨(q, fd'), ?_⟩
        rw [update_of_ne (by simpa using fun hc _ => hq hc)]
        exact hg
      have he : Effect s s₂ {p} (held s {p}) :=
        (he₁.mono (Set.empty_subset _) hheld).trans (he₂.mono le_rfl (Set.subset_univ _))
      have hproc : s₂.proc p = { s.proc p with ofile := update (s.proc p).ofile fd none } := by
        rw [← hs, Kern.setProc_proc, update_self, hp₁]
      refine (ih hi₂).post fun _ s' ⟨hi', he', hx', hn'⟩ => ⟨hi', ?_, ?_, fun fd' hfd' => hn' fd' ?_⟩
      · rw [held_congr he] at he'
        exact he.trans he'
      · refine hx'.trans ?_
        rw [hproc, SameButFiles]
      · rw [hproc]
        rcases eq_or_ne fd' fd with rfl | hne
        · exact .inr (update_self _ _ _)
        · rcases hfd' with hfd' | hfd'
          · exact .inl ((List.mem_cons.mp hfd').resolve_left hne)
          · exact .inr ((update_of_ne hne _ _).trans hfd')

theorem wp_exit {status : ℤ} (h : Valid s) (hp : (s.proc p).state = .runnable) :
    wp (exit p status) (fun e _ => e = .initExiting) (fun _ s' => Valid s' ∧
      Effect s s' {p} (held s {p}) ∧ (s'.proc p).pid = (s.proc p).pid) s := by
  rw [exit, wp_bind, wp_get, wp_bind, wp_stopIf]
  refine ⟨fun _ => rfl, fun _ => ?_⟩
  rw [wp_bind]
  refine (wp_closeFrom h.inv).mono (fun _ _ => False.elim) fun _ s₁ ⟨hi₁, he₁, hx₁, hn₁⟩ => ?_
  rw [wp_bind, reparent, wp_modify, wp_modifyProc]
  generalize hs₂ : Kern.mk s₁.mem s₁.boot s₁.ftable _ s₁.nextpid s₁.initproc = s₂
  -- reparenting changes parents only
  have hpar : ∀ q, s₂.proc q = { s₁.proc q with parent := (s₂.proc q).parent } := fun q => by
    rw [← hs₂]
    dsimp only
    split <;> rfl
  have hspace : ∀ q, SameSpace (s₂.proc q) (s₁.proc q) := fun q => by
    rw [hpar]
    exact ⟨Iff.rfl, rfl, rfl, rfl⟩
  have hi₂ : Inv s₂ (refs s₁.slots) := by
    have := hi₁.relabel hspace
    rw [← hs₂] at this ⊢
    exact this
  have he₂ : Effect s₁ s₂ {p} (held s {p}) := by
    refine ⟨fun q _ => ⟨hpar q, ?_⟩, fun g _ => ?_, ?_, ?_, ?_⟩
    · rw [(hspace q).pages, ← hs₂]
    · rw [← hs₂]
      exact ⟨rfl, rfl, rfl⟩
    all_goals rw [← hs₂]
  have hst : (s₂.proc p).state = .runnable := by
    rw [hpar, hx₁]
    exact hp
  obtain ⟨hi', he'⟩ := hi₂.setProc (p := p) (x := { s₂.proc p with
    xstate := status, state := .zombie }) ⟨by simp [hst], rfl, rfl, rfl⟩
  have he := (he₁.trans he₂).trans (he'.mono le_rfl (Set.subset_univ _))
  have hslots : (s₂.setProc p { s₂.proc p with xstate := status, state := .zombie }).slots =
      s₁.slots := slots_congr fun q => by
    rw [Kern.setProc_proc]
    rcases eq_or_ne q p with rfl | hq
    · rw [update_self, hpar]
    · rw [update_of_ne hq, hpar]
  have hpid : (s₂.proc p).pid = (s.proc p).pid := by rw [hpar, hx₁]
  refine ⟨h.of_effect he (hslots ▸ hi') fun q hq => ?_, he, ?_⟩
  · obtain rfl : q = p := hq
    refine ⟨fun _ fd => ?_, fun _ => ?_⟩
    · rw [Kern.setProc_proc, update_self, hpar]
      exact hn₁ fd (.inl (List.mem_finRange fd))
    · rw [Kern.setProc_proc, update_self]
      exact (hpid ▸ (h.fine q).pid (by simp [hp])).trans_le he.nextpid
  · rw [Kern.setProc_proc, update_self]
    exact hpid

/-! ## sbrk and exec -/

/-- A step of the caller that keeps its descriptors. -/
theorem Valid.of_procStep (h : Valid s) (hp : (s.proc p).state = .runnable)
    (hstep : ProcStep s s' (refs s.slots) p x) (hst : x.state = (s.proc p).state)
    (hpid : x.pid = (s.proc p).pid) (hof : x.ofile = (s.proc p).ofile) :
    Valid s' ∧ Effect s s' {p} Set.univ ∧ (s'.proc p).pid = (s.proc p).pid := by
  have he := Effect.of_procStep h.inv hstep
  have hslots : s'.slots = s.slots := slots_congr fun q => by
    rcases eq_or_ne q p with rfl | hq
    · rw [hstep.proc_self, hof]
    · rw [hstep.proc_of_ne hq]
  have hpid' : (s'.proc p).pid = (s.proc p).pid := by rw [hstep.proc_self, hpid]
  exact ⟨h.of_caller he (hslots ▸ hstep.inv) hp (by rw [hstep.proc_self, hst]) hpid', he, hpid'⟩

theorem wp_sbrk {n : ℤ} (h : Valid s) (hp : (s.proc p).state = .runnable) (hn : n < 2 ^ 31) :
    wp (growproc p n) NoPanic (fun b s' => (Valid s' ∧ Effect s s' {p} Set.univ ∧
      (s'.proc p).pid = (s.proc p).pid) ∧
      (b = false → s'.proc = s.proc ∧ SameMap s.mem s'.mem (s.proc p))) s :=
  (wp_growproc h.inv (by simp [hp]) hn).post fun _ _ ⟨⟨_, hstep⟩, hfail⟩ =>
    ⟨h.of_procStep hp hstep rfl rfl rfl, hfail⟩

theorem wp_execCall_valid {file : Option (List UInt8)} {args : List Arg} (h : Valid s)
    (hp : (s.proc p).state = .runnable) : wp (execCall p file args) NoPanic (fun _ s' => Valid s' ∧
      Effect s s' {p} Set.univ ∧ (s'.proc p).pid = (s.proc p).pid) s :=
  (wp_execCall h.inv (by simp [hp])).post fun _ _ ⟨_, _, hstep⟩ => h.of_procStep hp hstep rfl rfl rfl

/-! ## fork -/

/-- The slot was free or its process dead, and it is free or has a new process now. -/
def Renewed (s s' : Kern) (q : Pptr) : Prop :=
  ((s.proc q).state = .unused ∨ (s.proc q).state = .zombie) ∧
    ((s'.proc q).state = .unused ∨ s.nextpid ≤ (s'.proc q).pid)

theorem wp_dupFrom {fds : List (Fin NOFILE)} (h : Inv s (refs s.slots)) (hd : fds.Nodup)
    (hfree : ∀ fd ∈ fds, (s.proc q).ofile fd = none) :
    wp (dupFrom p q fds) NoPanic (fun _ s' => Inv s' (refs s'.slots) ∧ Effect s s' {q} Set.univ ∧
      SameButFiles (s'.proc q) (s.proc q)) s := by
  induction fds generalizing s with
  | nil => exact ⟨h, .refl s _ _, rfl⟩
  | cons fd fds ih =>
    obtain ⟨hnot, hd⟩ := List.nodup_cons.mp hd
    rw [dupFrom, wp_bind, wp_getProc, wp_bind]
    cases hf : (s.proc p).ofile fd with
    | none => exact ih h hd fun fd' hfd' => hfree fd' (List.mem_cons_of_mem _ hfd')
    | some f =>
      have hpos : 0 < refs s.slots f := refs_pos.mpr ⟨(p, fd), hf⟩
      have hslot : s.slots (q, fd) = none := hfree fd List.mem_cons_self
      rw [Option.elim_some, wp_bind]
      refine (wp_filedup h.files h.own_spaces hpos (K := Set.univ)).post fun _ s₁ h₁ => ?_
      obtain ⟨hi₁, he₁⟩ := h.fileStep h₁
      have hp₁ : s₁.proc = s.proc := by rw [h₁.rest]
      have hslots₁ : s₁.slots = s.slots := slots_congr fun q => by rw [hp₁]
      obtain ⟨hi₂, he₂, hslots₂, hx₂⟩ := hi₁.setFiles q fd (some f) rfl
      rw [wp_modifyProc]
      generalize hs₂ : s₁.setProc q _ = s₂ at hi₂ he₂ hslots₂ ⊢
      rw [hslots₁] at hslots₂
      rw [← refs_slots_fill hslot, ← hslots₂] at hi₂
      have hproc : s₂.proc q = { s.proc q with ofile := update (s.proc q).ofile fd (some f) } := by
        rw [← hs₂, Kern.setProc_proc, update_self, hp₁]
      have he : Effect s s₂ {q} Set.univ := (he₁.mono (Set.empty_subset _) le_rfl).trans he₂
      refine (ih hi₂ hd fun fd' hfd' => ?_).post fun _ s' ⟨hi', he', hx'⟩ => ⟨hi', he.trans he', ?_⟩
      · rw [hproc]
        refine (update_of_ne ?_ _ _).trans (hfree fd' (List.mem_cons_of_mem _ hfd'))
        rintro rfl
        exact hnot hfd'
      · refine hx'.trans ?_
        rw [hproc, SameButFiles]

/-- The slot of no process, or of a dead one, is free. -/
theorem Valid.of_freed (h : Valid s)
    (hq : (s.proc q).state = .unused ∨ (s.proc q).state = .zombie) (hstep : ProcStep s s' (refs s.slots) q x)
    (hx : x.state = .unused) (hof : x.ofile = (s.proc q).ofile) :
    Valid s' ∧ ∃ A, Effect s s' A Set.univ ∧ ∀ q ∈ A, Renewed s s' q := by
  have he := Effect.of_procStep h.inv hstep
  have hslots : s'.slots = s.slots := slots_congr fun q' => by
    rcases eq_or_ne q' q with rfl | hne
    · rw [hstep.proc_self, hof]
    · rw [hstep.proc_of_ne hne]
  refine ⟨h.of_effect he (hslots ▸ hstep.inv) fun q' hq' => ?_, {q}, he, fun q' hq' => ?_⟩ <;>
    obtain rfl : q' = q := hq'
  · refine ⟨fun _ fd => ?_, fun hc => absurd (hstep.proc_self ▸ hx) hc⟩
    rw [hstep.proc_self, hof]
    exact (h.fine q').closed hq fd
  · exact ⟨hq, .inl (hstep.proc_self ▸ hx)⟩

theorem wp_copyTrapframe {old tf : ℕ} {Q : Unit → Mem → Prop} {E : Panic → Mem → Prop}
    (h : ∀ b b', Q () ((mem.put tf b).put tf b')) : wp (copyTrapframe old tf) E Q mem := by
  rw [copyTrapframe, wp_bind, wp_get, wp_bind, wp_setPage, wp_setReg]
  exact h _ _

/-- The child has its memory; it gets its files and may run. -/
theorem wp_forkEnd {pid : ℤ} (h : Valid s) (hq : (s.proc q).state = .unused)
    (h₁ : ProcStep s s₁ (refs s.slots) q x) (hst : x.state = .used) (hpid : x.pid = s.nextpid)
    (hof : x.ofile = (s.proc q).ofile) (hn : s.nextpid < s₁.nextpid) :
    wp (do
      dupFrom p q (List.finRange NOFILE)
      modifyProc q fun y => { y with parent := some p, state := .runnable }
      pure pid) NoPanic (fun _ s' => Valid s' ∧
        ∃ A, Effect s s' A Set.univ ∧ ∀ q ∈ A, Renewed s s' q) s₁ := by
  have he₁ := Effect.of_procStep h.inv h₁
  have hslots : s₁.slots = s.slots := slots_congr fun q' => by
    rcases eq_or_ne q' q with rfl | hne
    · rw [h₁.proc_self, hof]
    · rw [h₁.proc_of_ne hne]
  rw [wp_bind]
  refine (wp_dupFrom (hslots ▸ h₁.inv) (List.nodup_finRange _) fun fd _ => ?_).post
    fun _ s₂ ⟨hi₂, he₂, hx₂⟩ => ?_
  · rw [h₁.proc_self, hof]
    exact (h.fine q).closed (.inl hq) fd
  have hst₂ : (s₂.proc q).state = .used := by rw [hx₂, h₁.proc_self, hst]
  have hpid₂ : (s₂.proc q).pid = s.nextpid := by rw [hx₂, h₁.proc_self, hpid]
  obtain ⟨hi', he'⟩ := hi₂.setProc (p := q) (x := { s₂.proc q with
    parent := some p, state := .runnable }) ⟨by simp [hst₂], rfl, rfl, rfl⟩
  rw [wp_bind, wp_modifyProc]
  generalize hs' : s₂.setProc q _ = s' at hi' he' ⊢
  have hq' : s'.proc q = { s₂.proc q with parent := some p, state := .runnable } := by
    rw [← hs', Kern.setProc_proc, update_self]
  have hslots' : s'.slots = s₂.slots := slots_congr fun q' => by
    rcases eq_or_ne q' q with rfl | hne
    · rw [hq']
    · rw [← hs', Kern.setProc_proc, update_of_ne hne]
  have he := (he₁.trans he₂).trans he'
  refine ⟨h.of_effect he (hslots' ▸ hi') fun q' hqq => ?_, {q}, he, fun q' hqq => ?_⟩ <;>
    obtain rfl : q' = q := hqq
  · refine ⟨fun hc => ?_, fun _ => ?_⟩
    · simp [hq'] at hc
    · rw [hq', hpid₂]
      exact hn.trans_le (he₂.trans he').nextpid
  · refine ⟨.inl hq, .inr ?_⟩
    rw [hq', hpid₂]

theorem wp_fork (h : Valid s) (hp : (s.proc p).state = .runnable) :
    wp (fork p) NoPanic (fun _ s' => Valid s' ∧
      ∃ A, Effect s s' A Set.univ ∧ ∀ q ∈ A, Renewed s s' q) s := by
  rw [fork, wp_bind]
  refine (wp_allocproc h.inv).post fun o s₁ h₁ => ?_
  cases o with
  | none =>
    rcases h₁ with rfl | ⟨q, hq, hstep⟩
    · exact ⟨h, ∅, .refl _ _ _, nofun⟩
    · exact h.of_freed (.inl hq) hstep rfl rfl
  | some q =>
    obtain ⟨hq, hn, tf, r, h₁⟩ := h₁
    have hpq : p ≠ q := by
      rintro rfl
      simp [hp] at hq
    have hp₁ : s₁.proc p = s.proc p := h₁.proc_of_ne hpq
    have hq₁ := h₁.proc_self
    have hst : (s₁.proc q).state ≠ .unused := by
      rw [hq₁]
      nofun
    have hsz : (s₁.proc q).sz = 0 := by
      rw [hq₁]
      exact ((h.inv.space q).idle hq).2.2
    rw [wp_bind, wp_getProc, wp_bind, wp_getProc, wp_bind, wp_onMem]
    refine (wp_uvmcopy_proc h₁.inv (by rw [hp₁, hp]; nofun) hst hpq hsz).post
      fun ok mem' ⟨hf', O', m', hi'⟩ => ?_
    cases ok with
    | false =>
      rw [if_neg (by decide), wp_bind]
      rw [if_neg (by decide), ← hsz] at hi'
      have h₂ := ProcStep.of_image h₁.inv hf' hst hi'
      rw [show (s₁.setMem mem').setProc q (s₁.proc q) = s₁.setMem mem' by
        simp [Kern.setProc, Kern.setMem]] at h₂
      refine (wp_freeproc h₂.inv hst).post fun _ s' h₃ => ?_
      refine h.of_freed (.inl hq) ((h₁.trans h.inv h₂).trans h.inv h₃) rfl ?_
      rw [Kern.setMem_proc, hq₁]
      rfl
    | true =>
      rw [if_pos rfl] at hi' ⊢
      rw [wp_bind, wp_modifyProc, wp_bind, wp_onMem]
      refine wp_copyTrapframe fun b b' => ?_
      obtain ⟨hi₂, hf₂⟩ := hi'.put_trapframe (b := b)
      obtain ⟨hi₃, hf₃⟩ := hi₂.put_trapframe (b := b')
      have h₃ := ProcStep.of_image (x := { s₁.proc q with sz := (s₁.proc p).sz }) h₁.inv
        ((hf'.trans hf₂).trans hf₃) hst hi₃
      refine wp_forkEnd h hq (h₁.trans h.inv h₃) ?_ ?_ ?_ (Nat.lt_of_succ_le hn.ge)
      all_goals rw [hq₁]

/-! ## wait -/

/-- The caller's memory is written. -/
theorem Valid.of_copyout (h : Valid s) (hstep : ProcStep s (s.setMem mem') (refs s.slots) p (s.proc p))
    (hpages : (s.proc p).pages mem' = (s.proc p).pages s.mem) :
    Valid (s.setMem mem') ∧ Effect s (s.setMem mem') ∅ Set.univ := by
  refine ⟨⟨hstep.inv, fun q => ⟨(h.fine q).closed, (h.fine q).pid⟩⟩, fun q _ => .of_eq rfl ?_,
    fun _ _ => ⟨rfl, rfl, rfl⟩, le_rfl, rfl, hstep.frame.image⟩
  rcases eq_or_ne q p with rfl | hq
  · exact hpages
  · exact hstep.pages h.inv hq

theorem wp_wait {addr : ℕ} {killed : Bool} (h : Valid s) (hp : (s.proc p).state = .runnable) :
    wp (wait p addr killed) NoPanic (fun _ s' => Valid s' ∧
      ∃ A, Effect s s' A Set.univ ∧ ∀ q ∈ A, Renewed s s' q) s := by
  have hp' : (s.proc p).state ≠ .unused := by simp [hp]
  rw [wait, wp_bind, wp_get]
  split
  next q hfind =>
    have hq : (s.proc q).state = .zombie := by
      have := List.find?_some hfind
      simp only [decide_eq_true_eq] at this
      exact this.2
    -- after the status is copied out
    have hrest : ∀ ok mem', Valid (s.setMem mem') → Effect s (s.setMem mem') ∅ Set.univ →
        wp (if ok = true then do freeproc q; pure (some ((s.proc q).pid : ℤ)) else pure (some (-1)))
          NoPanic (fun _ s' => Valid s' ∧ ∃ A, Effect s s' A Set.univ ∧ ∀ q ∈ A, Renewed s s' q)
          (s.setMem mem') := fun ok mem' hv he => by
      cases ok with
      | false => exact ⟨hv, ∅, he, nofun⟩
      | true =>
        rw [if_pos rfl, wp_bind]
        refine (wp_freeproc hv.inv (by simp [hq])).post fun _ s' hstep => ?_
        obtain ⟨hv', A, he', hA⟩ := hv.of_freed (.inr hq) hstep rfl rfl
        exact ⟨hv', A, (he.mono (Set.empty_subset _) le_rfl).trans he', hA⟩
    dsimp only
    split
    · exact hrest true s.mem h (.refl s _ _)
    · rw [wp_bind, wp_onMem]
      refine (wp_copyout_proc h.inv hp').post fun ok mem' ⟨hstep, hpages⟩ => ?_
      obtain ⟨hv, he⟩ := h.of_copyout hstep hpages
      exact hrest ok mem' hv he
  next =>
    split <;> exact ⟨h, ∅, .refl s _ _, nofun⟩

end Xv6.Vm

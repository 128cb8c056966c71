import Xv6.Vm.Runs

/-! # Page ownership

Between calls every page of the allocator is free or has one owner. The calls of
processes that have come and gone leave no trace in the number of free pages.
-/

namespace Xv6.Vm

open Multiset

open Sys (ProcState FdType Fptr Pptr)

variable {s s₀ t t' : Kern} {p q : Pptr} {call : Call} {l : List (Pptr × Call)} {L : Layout}

/-- In how many places page `q` is accounted for: on the free list, as a boot-time page, as a page
of a process and as the buffer of an open pipe. -/
def holders (s : Kern) (q : ℕ) : ℕ :=
  s.mem.free.count q + s.boot.count q + ∑ p, ((s.proc p).pages s.mem).count q +
    if q ∈ pipes s.ftable then 1 else 0

variable {c : Fptr → ℕ}

theorem Inv.holders_eq (h : Inv s c) (q : ℕ) : holders s q = s.mem.image.pages.count q := by
  rw [← h.own, holders]
  simp only [count_add, count_sum', coe_count]
  rw [count_eq_of_nodup (pipes s.ftable).nodup]
  simp only [Finset.mem_val]
  omega

theorem Inv.free_nodup (h : Inv s c) : s.mem.free.Nodup := by
  have := s.mem.image.nodup_pages
  rw [← h.own, nodup_add] at this
  exact coe_nodup.mp this.1

theorem Inv.disjoint_pages (h : Inv s c) (hpq : p ≠ q) :
    Disjoint ((s.proc p).pages s.mem) ((s.proc q).pages s.mem) := by
  have hd := (nodup_add.mp (h.own_rest p).nodup).2.2
  exact disjoint_left.mpr fun ha hb =>
    disjoint_left.mp hd ha (pages_subset_rest hpq.symm hb)

theorem Proc.userPages_subset {x : Proc} {mem : Mem} (h : x.state ≠ .unused) :
    x.userPages mem ⊆ x.pages mem := fun y hy => by
  rw [pages, if_neg h]
  simp [hy]

/-! ## Processes that come and go -/

/-- The process of slot `p` in `s` is still there in `t`. -/
def Original (s t : Kern) (p : Pptr) : Prop :=
  (s.proc p).state ≠ .unused ∧ (t.proc p).pid = (s.proc p).pid

instance : Decidable (Original s t p) := inferInstanceAs (Decidable (_ ∧ _))

/-- The processes of `s` make no calls but `fork` and `wait`. -/
def Quiet (s : Kern) (t : Kern) (a : Pptr × Call) : Prop := Original s t a.1 → a.2.quiet = true

instance (s t : Kern) (a : Pptr × Call) : Decidable (Quiet s t a) :=
  inferInstanceAs (Decidable (_ → _))

/-- The same processes in both states. -/
def SameProcs (s t : Kern) : Prop := ∀ p,
  ((t.proc p).state = .unused ↔ (s.proc p).state = .unused) ∧
    ((s.proc p).state ≠ .unused → (t.proc p).pid = (s.proc p).pid)

instance : Decidable (SameProcs s t) := inferInstanceAs (Decidable (∀ _, _ ∧ (_ → _)))

/-- What has become of the processes of `s` while they were quiet. -/
structure Since (s t : Kern) : Prop where
  boot : t.boot = s.boot
  image : t.mem.image = s.mem.image
  nextpid : s.nextpid ≤ t.nextpid
  proc : ∀ q, (s.proc q).state ≠ .unused ∧ Same s t q ∨
    ((t.proc q).state = .unused ∨ s.nextpid ≤ (t.proc q).pid)
  alive : ∀ q, (s.proc q).state ≠ .unused → (s.proc q).state ≠ .zombie → Same s t q
  file : ∀ q fd f, (s.proc q).ofile fd = some f → SameFile (t.ftable f) (s.ftable f)

theorem Since.refl (s : Kern) : Since s s := by
  refine ⟨rfl, rfl, le_rfl, fun q => ?_, fun q _ _ => .of_eq rfl rfl, fun _ _ _ _ => ⟨rfl, rfl, rfl⟩⟩
  by_cases hq : (s.proc q).state = .unused
  · exact .inr (.inl hq)
  · exact .inl ⟨hq, .of_eq rfl rfl⟩

theorem Fine.open_of_file {fd : Fin NOFILE} {f : Fptr} (h : Fine s q)
    (hf : (s.proc q).ofile fd = some f) :
    (s.proc q).state ≠ .unused ∧ (s.proc q).state ≠ .zombie := by
  constructor <;> intro hc
  · rw [h.closed (.inl hc) fd] at hf
    cases hf
  · rw [h.closed (.inr hc) fd] at hf
    cases hf

/-- One call, which is quiet if a process of `s` makes it. -/
theorem Since.after_call (hs : Valid s) (h : Since s t) (hrun : (t.proc p).state = .runnable)
    (hquiet : Quiet s t (p, call)) (hc : CallStep t t' p call) : Since s t' := by
  obtain ⟨A, he, hA, hpA⟩ := hc.effect
  -- a process of `s` that lives on is not touched
  have hout : ∀ q, (s.proc q).state ≠ .unused → (s.proc q).state ≠ .zombie → q ∉ A := by
    intro q h₁ h₂ hq
    have hsame := h.alive q h₁ h₂
    rcases hA q hq with rfl | ⟨hdead, _⟩
    · exact hpA (hquiet ⟨h₁, hsame.pid⟩) hq
    · rw [hsame.state] at hdead
      exact hdead.elim h₁ h₂
  refine ⟨he.boot.trans h.boot, he.image.trans h.image, h.nextpid.trans he.nextpid, fun q => ?_,
    fun q h₁ h₂ => (h.alive q h₁ h₂).trans (he.same q (hout q h₁ h₂)), fun q fd f hf => ?_⟩
  · by_cases hq : q ∈ A
    · refine .inr ?_
      rcases hA q hq with rfl | ⟨_, hnew⟩
      · rcases h.proc q with ⟨hlive, hsame⟩ | hdead | hnew
        · exact absurd hq (hpA (hquiet ⟨hlive, hsame.pid⟩))
        · simp [hrun] at hdead
        · exact .inr (hc.pid.symm ▸ hnew)
      · exact hnew.imp_right h.nextpid.trans
    · have hsame := he.same q hq
      rcases h.proc q with ⟨hlive, hold⟩ | hnew
      · exact .inl ⟨hlive, hold.trans hsame⟩
      · rw [hsame.state, hsame.pid]
        exact .inr hnew
  · obtain ⟨h₁, h₂⟩ := (hs.fine q).open_of_file hf
    obtain ⟨ha, hb, hc'⟩ := h.file q fd f hf
    obtain ⟨ha', hb', hc''⟩ := he.file f
      ⟨q, fd, hout q h₁ h₂, by rw [(h.alive q h₁ h₂).ofile, hf]⟩
    exact ⟨ha'.trans ha, hb'.trans hb, hc''.trans hc'⟩

theorem Since.run (hs : Valid s) (hr : Run (Next (restrict step (Quiet s))) s l t) :
    Valid t ∧ Since s t := by
  refine hr.invariant (I := fun t => Valid t ∧ Since s t) (fun t a t' _ hstep ⟨hv, h⟩ => ?_)
    ⟨hs, .refl s⟩
  obtain ⟨hquiet, hnext⟩ := (next_restrict step).mp hstep
  have hc := step_valid hv hnext
  exact ⟨hc.valid, h.after_call hs (runnable_of_next hnext) hquiet hc⟩

section

variable (hs : Valid s) (ht : Valid t) (h : Since s t) (hp : SameProcs s t)

include h hp hs in
/-- With the same processes as before, each of them is as it was. -/
theorem Since.same (hq : (s.proc q).state ≠ .unused) : Same s t q := by
  rcases h.proc q with ⟨_, hsame⟩ | hdead | hnew
  · exact hsame
  · exact absurd ((hp q).1.mp hdead) hq
  · rw [(hp q).2 hq] at hnew
    exact absurd ((hs.fine q).pid hq) (by omega)

include h hp hs ht

theorem Since.slots_eq : t.slots = s.slots := by
  refine slots_congr fun q => ?_
  by_cases hq : (s.proc q).state = .unused
  · funext fd
    rw [(ht.fine q).closed (.inl ((hp q).1.mpr hq)) fd, (hs.fine q).closed (.inl hq) fd]
  · exact (h.same hs hp hq).ofile

theorem Since.pipes_eq : pipes t.ftable = pipes s.ftable := by
  have href : ∀ f, (t.ftable f).ref = (s.ftable f).ref := fun f => by
    rw [ht.inv.files.ref, hs.inv.files.ref, h.slots_eq hs ht hp]
  have hfile : ∀ f, 0 < (s.ftable f).ref → SameFile (t.ftable f) (s.ftable f) := fun f hf => by
    rw [hs.inv.files.ref] at hf
    obtain ⟨⟨q, fd⟩, hq⟩ := refs_pos.mp hf
    exact h.file q fd f hq
  ext x
  simp only [pipes, Finset.mem_image, Finset.mem_filter, Finset.mem_univ, true_and]
  refine exists_congr fun f => ?_
  rw [href]
  constructor
  · rintro ⟨⟨hpos, htype⟩, hx⟩
    obtain ⟨h₁, h₂, _⟩ := hfile f hpos
    exact ⟨⟨hpos, h₁.symm.trans htype⟩, h₂.symm.trans hx⟩
  · rintro ⟨⟨hpos, htype⟩, hx⟩
    obtain ⟨h₁, h₂, _⟩ := hfile f hpos
    exact ⟨⟨hpos, h₁.trans htype⟩, h₂.trans hx⟩

theorem Since.free_length : t.mem.free.length = s.mem.free.length := by
  have hpages : ∀ q, (t.proc q).pages t.mem = (s.proc q).pages s.mem := fun q => by
    by_cases hq : (s.proc q).state = .unused
    · rw [Proc.pages_of_unused hq, Proc.pages_of_unused ((hp q).1.mpr hq)]
    · exact (h.same hs hp hq).pages
  have h₁ := congrArg card hs.inv.own
  have h₂ := congrArg card ht.inv.own
  rw [h.pipes_eq hs ht hp, h.boot, h.image, Finset.sum_congr rfl fun q _ => hpages q] at h₂
  rw [card_add, coe_card] at h₁ h₂
  omega

end

/-- In every run from boot, between any two calls, the free list has no duplicates and every page
of the allocator is on it or has exactly one owner; no two processes share a user page; and if from
some moment on the processes that exist then make no calls but `fork` and `wait`, the number of free
pages is the same again once all other processes have exited and been waited for. -/
theorem page_ownership (hb : Booted L s₀) (hr : Run (Next step) s₀ l s) :
    s.mem.free.Nodup ∧ (∀ q ∈ s.mem.image.pages, holders s q = 1) ∧
      (∀ q ∉ s.mem.image.pages, holders s q = 0) ∧
      (∀ p q, p ≠ q → (s.proc p).state ≠ .unused → (s.proc q).state ≠ .unused →
        Disjoint ((s.proc p).userPages s.mem) ((s.proc q).userPages s.mem)) ∧
      ∀ l' t, Run (Next (restrict step (Quiet s))) s l' t → SameProcs s t →
        t.mem.free.length = s.mem.free.length := by
  have hv := run_valid hr (booted_valid hb)
  refine ⟨hv.inv.free_nodup, fun q hq => ?_, fun q hq => ?_, fun p q hpq hp hq => ?_,
    fun l' t ht hp => ?_⟩
  · rw [hv.inv.holders_eq, count_eq_one_of_mem s.mem.image.nodup_pages hq]
  · rw [hv.inv.holders_eq, count_eq_zero_of_notMem hq]
  · exact disjoint_left.mpr fun ha hb => disjoint_left.mp
      (hv.inv.disjoint_pages hpq) (Proc.userPages_subset hp ha) (Proc.userPages_subset hq hb)
  · obtain ⟨hvt, hsince⟩ := Since.run hv ht
    exact hsince.free_length hv hvt hp

/-! ## A small machine -/

/-- A machine whose allocator has `n` pages. -/
def tiny (n : ℕ) (h : n < 2 ^ 14) : Layout where
  kend := PHYSTOP - n * PGSIZE
  trampoline := KERNBASE
  kend_le := Nat.sub_le _ _
  trampoline_align := KERNBASE_mod
  trampoline_ge := le_rfl
  trampoline_le := by
    unfold PHYSTOP KERNBASE PGSIZE
    omega

/-- The state after boot, if the kernel comes up. -/
def bootState (k : ℕ) (initcode : List UInt8) (L : Layout) : Option Kern :=
  match bootKern k initcode (.blank L) with
  | .ok true s => some s
  | _ => none

theorem booted_of_bootState {k : ℕ} {initcode : List UInt8}
    (h : bootState k initcode L = some s) : Booted L s := by
  refine ⟨k, initcode, ?_⟩
  unfold bootState at h
  split at h
  next t hb =>
    cases h
    exact hb
  next => cases h

/-- A property of the state after boot that can be evaluated. -/
theorem exists_booted (k : ℕ) (initcode : List UInt8) {P : Kern → Bool}
    (h : (bootState k initcode L).any P = true) : ∃ s, Booted L s ∧ P s = true := by
  obtain ⟨s, hs, hP⟩ := (Option.any_eq_true _ _).mp h
  exact ⟨s, booted_of_bootState hs, hP⟩

/-- The first process grows by a page: no other process ever existed, and a page less is free. -/
theorem free_pages_not_restored : ∃ s₀ s, Booted (tiny 8 (by decide)) s₀ ∧
    Run (Next step) s₀ [(0, .sbrk 4096)] s ∧ SameProcs s₀ s ∧
      s.mem.free.length ≠ s₀.mem.free.length := by
  have heval : ∃ s₀, Booted (tiny 8 (by decide)) s₀ ∧
      (Xv6.exec step s₀ [(0, .sbrk 4096)]).any (fun s =>
        decide (SameProcs s₀ s ∧ s.mem.free.length ≠ s₀.mem.free.length)) = true :=
    exists_booted 0 [] (by decide +kernel)
  obtain ⟨s₀, hb, hs⟩ := heval
  obtain ⟨s, he, hP⟩ := exists_of_exec step hs
  exact ⟨s₀, s, hb, run_of_exec step he, hP⟩

/-- With one free page a `fork` fails and gives the page back. -/
theorem page_ownership_failed_fork : ∃ s t, Booted (tiny 8 (by decide)) s ∧
    Run (Next (restrict step (Quiet s))) s [(0, .fork), (0, .wait 0 false)] t ∧ SameProcs s t ∧
      t.mem.free.length = s.mem.free.length := by
  have heval : ∃ s, Booted (tiny 8 (by decide)) s ∧
      (Xv6.exec (restrict step (Quiet s)) s [(0, .fork), (0, .wait 0 false)]).any (fun t =>
        decide (SameProcs s t)) = true :=
    exists_booted 0 [] (by decide +kernel)
  obtain ⟨s, hb, hs⟩ := heval
  obtain ⟨t, he, hp⟩ := exists_of_exec (restrict step (Quiet s)) hs
  have hr := run_of_exec (restrict step (Quiet s)) he
  exact ⟨s, t, hb, hr, hp, (page_ownership hb (.nil s)).2.2.2.2 _ t hr hp⟩

/-! ## Open files -/

/-- In every run from boot, between any two calls, an open file has as many references as there are
descriptors for it, and an entry of the table without any is free; an end of a pipe is open in the
page of the pipe if and only if exactly one open file is that end; and no call panics but the exit of
the first process. -/
theorem open_files_counted (hb : Booted L s₀) (hr : Run (Next step) s₀ l s) :
    (∀ f, (s.ftable f).ref = refs s.slots f) ∧
      (∀ f, (∀ p fd, (s.proc p).ofile fd ≠ some f) → (s.ftable f).type = .none) ∧
      (∀ q w, q ∈ pipes s.ftable → (s.mem.EndOpen q w ↔ ∃! f, IsEnd s.ftable q w f)) ∧
      ∀ p call e, step s (p, call) = some (.error e) → e = .initExiting := by
  have hv := run_valid hr (booted_valid hb)
  have hf := hv.inv.files
  refine ⟨hf.ref, fun f hnone => hf.idle f (refs_eq_zero fun i => hnone i.1 i.2), fun q w hq => ?_,
    fun p call e he => step_panic hv he⟩
  rw [hf.ends q w hq]
  constructor
  · rintro ⟨f, hend⟩
    exact ⟨f, hend, fun g hg => hf.inj q w g f hg hend⟩
  · rintro ⟨f, hend, -⟩
    exact ⟨f, hend⟩

/-- The first process opens a pipe. -/
theorem open_files_counted_pipe : ∃ s₀ s, Booted (tiny 8 (by decide)) s₀ ∧
    Run (Next step) s₀ [(0, .pipe 0)] s ∧ (s.ftable 0).type = .pipe ∧
      (s.ftable 0).ref = refs s.slots 0 := by
  have heval : ∃ s₀, Booted (tiny 8 (by decide)) s₀ ∧
      (Xv6.exec step s₀ [(0, .pipe 0)]).any (fun s => decide ((s.ftable 0).type = .pipe)) = true :=
    exists_booted 0 [] (by decide +kernel)
  obtain ⟨s₀, hb, hs⟩ := heval
  obtain ⟨s, he, ht⟩ := exists_of_exec step hs
  have hr := run_of_exec step he
  exact ⟨s₀, s, hb, hr, ht, (open_files_counted hb hr).1 0⟩

end Xv6.Vm

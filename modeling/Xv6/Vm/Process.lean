import Xv6.Vm.Files

/-! # The memory of processes

Every page that is not free belongs to one process, to one open pipe or to the kernel
itself. A process that is created, grown, shrunk, copied or freed changes its own
pages only.
-/

namespace Xv6.Vm

open Multiset

open Sys (ProcState FdType Fptr Pptr)

variable {s s₁ s' : Kern} {mem mem' : Mem} {c c' : Fptr → ℕ} {f : Fptr} {p q : Pptr}
  {H R O : Multiset ℕ} {x y : Proc} {m : ℕ → ℕ}

namespace Proc

/-- The pages of the page table. -/
def tablePages (mem : Mem) (x : Proc) : Multiset ℕ := tree.nodes mem.pte 2 x.pagetable

/-- The pages that hold the user's memory. -/
def userPages (mem : Mem) (x : Proc) : Multiset ℕ :=
  mapped (tree.look mem.pte 2 x.pagetable) 0 (pg x.sz)

/-- All pages of a process. -/
def pages (mem : Mem) (x : Proc) : Multiset ℕ :=
  if x.state = .unused then 0 else x.tablePages mem + (x.userPages mem + {x.trapframe})

/-- The page table of a process is well formed; a free slot has none. -/
structure Holds (mem : Mem) (x : Proc) : Prop where
  live : x.state ≠ .unused → ∃ m, Table mem x.pagetable m (x.tablePages mem) ∧
    Maps mem.image x.trapframe (pg x.sz) m
  idle : x.state = .unused → x.pagetable = 0 ∧ x.trapframe = 0 ∧ x.sz = 0

theorem pages_of_unused (h : x.state = .unused) : x.pages mem = 0 := if_pos h

end Proc

theorem TableOf.mapped_look {r k : ℕ} (h : Table mem r m O) (hk : k ≤ 2 ^ 15) :
    mapped (tree.look mem.pte 2 r) 0 k = mapped m 0 k := by
  refine mapped_congr fun j hj => h.look _ ?_
  unfold NVPN NPTE
  omega

/-- A process whose page table is in order. -/
theorem Proc.holds_of_image (hx : x.state ≠ .unused)
    (h : Image mem x.pagetable x.trapframe (pg x.sz) H O m) :
    x.Holds mem ∧ x.pages mem = O + (mapped m 0 (pg x.sz) + {x.trapframe}) := by
  have ht : x.tablePages mem = O := h.table.nodes
  refine ⟨⟨fun _ => ⟨m, ht ▸ h.table, h.maps⟩, fun hc => absurd hc hx⟩, ?_⟩
  rw [pages, if_neg hx, ht, userPages, h.table.mapped_look h.maps.le]

/-- The pages of a process depend on their own contents only. -/
theorem Proc.Holds.congr (h : x.Holds mem) (hf : Frame mem mem' H) (hH : x.pages mem ⊆ H) :
    x.Holds mem' ∧ x.pages mem' = x.pages mem := by
  by_cases hx : x.state = .unused
  · exact ⟨⟨fun hc => absurd hx hc, h.idle⟩, by rw [pages, if_pos hx, pages, if_pos hx]⟩
  · obtain ⟨m, ht, hm⟩ := h.live hx
    have hsub : x.tablePages mem ⊆ H := fun y hy => hH (by
      rw [pages, if_neg hx]
      exact mem_add.mpr (.inl hy))
    have ht' := ht.congr hf hsub
    have hnodes : x.tablePages mem' = x.tablePages mem := ht'.nodes
    refine ⟨⟨fun _ => ⟨m, hnodes ▸ ht', hf.image ▸ hm⟩, fun hc => absurd hc hx⟩, ?_⟩
    rw [pages, if_neg hx, hnodes, userPages, ht'.mapped_look hm.le, pages, if_neg hx, userPages,
      ht.mapped_look hm.le]

/-! ## The invariant -/

/-- Every page is free or has one owner; the references to open files are counted by `c`. -/
structure Inv (s : Kern) (c : Fptr → ℕ) : Prop where
  space : ∀ p, (s.proc p).Holds s.mem
  files : Files s.mem s.ftable c
  own : Own s.mem (∑ p, (s.proc p).pages s.mem + ((pipes s.ftable).val + s.boot))

/-- The pages that do not belong to `p`. -/
def rest (s : Kern) (p : Pptr) : Multiset ℕ :=
  ∑ q ∈ Finset.univ.erase p, (s.proc q).pages s.mem + ((pipes s.ftable).val + s.boot)

theorem pages_subset_rest (h : q ≠ p) : (s.proc q).pages s.mem ⊆ rest s p := by
  intro y hy
  have hq : q ∈ Finset.univ.erase p := Finset.mem_erase.mpr ⟨h, Finset.mem_univ q⟩
  exact mem_add.mpr (.inl (mem_sum.mpr ⟨q, hq, hy⟩))

namespace Inv

theorem own_rest (h : Inv s c) (p : Pptr) : Own s.mem ((s.proc p).pages s.mem + rest s p) := by
  rw [rest, ← add_assoc, Finset.add_sum_erase _ (fun q => (s.proc q).pages s.mem)
    (Finset.mem_univ p)]
  exact h.own

/-- The address space of a process. -/
theorem image (h : Inv s c) (hp : (s.proc p).state ≠ .unused) :
    ∃ O m, Image s.mem (s.proc p).pagetable (s.proc p).trapframe (pg (s.proc p).sz)
      ({(s.proc p).trapframe} + rest s p) O m := by
  obtain ⟨m, ht, hm⟩ := (h.space p).live hp
  refine ⟨_, m, ht, hm, ?_⟩
  have ho := h.own_rest p
  rw [Proc.pages, if_neg hp, Proc.userPages, ht.mapped_look hm.le, add_assoc, add_assoc] at ho
  exact ho

/-- The pages of the other processes are the same. -/
theorem pages_eq (h : Inv s c) (hf : Frame s.mem mem' (rest s p)) (hq : q ≠ p) :
    (s.proc q).Holds mem' ∧ (s.proc q).pages mem' = (s.proc q).pages s.mem :=
  (h.space q).congr hf (pages_subset_rest hq)

theorem rest_eq (h : Inv s c) (hf : Frame s.mem mem' (rest s p)) :
    rest ((s.setMem mem').setProc p x) p = rest s p := by
  unfold rest
  refine congrArg (· + _) (Finset.sum_congr rfl fun q hq => ?_)
  replace hq := Finset.ne_of_mem_erase hq
  simp only [Kern.setProc_proc, Kern.setProc_mem, Kern.setMem_mem, Kern.setMem_proc]
  rw [Function.update_of_ne hq]
  exact (h.pages_eq hf hq).2

/-- Process `p` becomes `x`. -/
theorem set (h : Inv s c) (hf : Frame s.mem mem' (rest s p)) (hx : x.Holds mem')
    (ho : Own mem' (x.pages mem' + rest s p)) : Inv ((s.setMem mem').setProc p x) c := by
  refine ⟨fun q => ?_, ?_, ?_⟩
  · rcases eq_or_ne q p with rfl | hq
    · simpa using hx
    · simpa [hq] using (h.pages_eq hf hq).1
  · refine h.files.congr (H := s.boot) (hf.mono fun y hy => ?_)
    exact mem_add.mpr (.inr hy)
  · rw [← h.rest_eq hf (x := x), rest, ← add_assoc] at ho
    rw [← Finset.add_sum_erase _ _ (Finset.mem_univ p)]
    simpa using ho

end Inv

/-- Process `p` has become `x`; the other pages are as before. -/
structure ProcStep (s s' : Kern) (c : Fptr → ℕ) (p : Pptr) (x : Proc) : Prop where
  inv : Inv s' c
  frame : Frame s.mem s'.mem (rest s p)
  eq : s' = { (s.setMem s'.mem).setProc p x with nextpid := s'.nextpid }
  nextpid : s.nextpid ≤ s'.nextpid

namespace ProcStep

theorem of_set (h : Inv s c) (hf : Frame s.mem mem' (rest s p)) (hx : x.Holds mem')
    (ho : Own mem' (x.pages mem' + rest s p)) : ProcStep s ((s.setMem mem').setProc p x) c p x :=
  ⟨h.set hf hx ho, hf, rfl, le_rfl⟩

theorem of_image (h : Inv s c) (hf : Frame s.mem mem' (rest s p)) (hx : x.state ≠ .unused)
    (hi : Image mem' x.pagetable x.trapframe (pg x.sz) ({x.trapframe} + rest s p) O m) :
    ProcStep s ((s.setMem mem').setProc p x) c p x := by
  obtain ⟨hh, hp⟩ := Proc.holds_of_image hx hi
  refine of_set h hf hh ?_
  rw [hp, add_assoc, add_assoc]
  exact hi.own

theorem proc_self (h : ProcStep s s' c p x) : s'.proc p = x := by
  rw [h.eq]
  exact Function.update_self _ _ _

theorem proc_of_ne (h : ProcStep s s' c p x) (hq : q ≠ p) : s'.proc q = s.proc q := by
  rw [h.eq]
  exact Function.update_of_ne hq _ _

theorem ftable (h : ProcStep s s' c p x) : s'.ftable = s.ftable := by
  rw [h.eq]
  rfl

theorem pages (hs : Inv s c) (h : ProcStep s s' c p x) (hq : q ≠ p) :
    (s'.proc q).pages s'.mem = (s.proc q).pages s.mem := by
  rw [h.proc_of_ne hq]
  exact (hs.pages_eq h.frame hq).2

theorem rest_eq (hs : Inv s c) (h : ProcStep s s' c p x) : rest s' p = rest s p := by
  rw [← hs.rest_eq h.frame (x := x), h.eq]
  rfl

theorem trans (hs : Inv s c) (h : ProcStep s s₁ c p x) (h' : ProcStep s₁ s' c p y) :
    ProcStep s s' c p y where
  inv := h'.inv
  frame := h.frame.trans (h.rest_eq hs ▸ h'.frame)
  eq := by
    conv_lhs => rw [h'.eq, h.eq]
    simp [Kern.setProc, Kern.setMem]
  nextpid := h.nextpid.trans h'.nextpid

end ProcStep

/-! ## Freeing and allocating a process -/

theorem wp_freeproc_mem (h : Image s.mem (s.proc p).pagetable (s.proc p).trapframe
    (pg (s.proc p).sz) ({(s.proc p).trapframe} + R) O m) :
    wp (freeproc p) NoPanic (fun _ s' => ∃ mem',
      s' = (s.setMem mem').setProc p (s.proc p).freed ∧ Own mem' R ∧ Frame s.mem mem' R) s := by
  obtain ⟨x, hx⟩ : ∃ x, s.proc p = x := ⟨_, rfl⟩
  rw [hx] at h ⊢
  have htf : x.trapframe ≠ 0 := h.own.ne_zero (by simp)
  have hr : x.pagetable ≠ 0 := h.own.ne_zero (mem_add.mpr (.inl h.table.mem))
  have ho := h.own
  rw [show O + (mapped m 0 (pg x.sz) + ({x.trapframe} + R)) =
    {x.trapframe} + (O + (mapped m 0 (pg x.sz) + R)) by abel, singleton_add] at ho
  rw [freeproc, wp_bind, wp_getProc, hx, wp_bind, wp_runIf]
  refine ⟨fun _ => ?_, fun hc => absurd htf hc⟩
  rw [wp_onMem]
  refine (wp_kfree ho).post fun _ mem₁ ⟨ho₁, hf₁⟩ => ?_
  rw [wp_bind, wp_runIf]
  refine ⟨fun _ => ?_, fun hc => absurd hr hc⟩
  rw [wp_onMem]
  have ht₁ := h.table.congr hf₁ fun y hy => mem_add.mpr (.inl hy)
  refine (wp_procFreepagetable ht₁ h.maps ho₁).post fun _ mem' ⟨ho', hf'⟩ => ?_
  rw [wp_modifyProc]
  refine ⟨mem', ?_, ho', (hf₁.mono fun y hy => ?_).trans hf'⟩
  · simp [hx]
  · simp [hy]

theorem Proc.holds_freed : x.freed.Holds mem := ⟨fun hc => absurd rfl hc, fun _ => ⟨rfl, rfl, rfl⟩⟩

theorem wp_freeproc (h : Inv s c) (hp : (s.proc p).state ≠ .unused) :
    wp (freeproc p) NoPanic (fun _ s' => ProcStep s s' c p (s.proc p).freed) s := by
  obtain ⟨O, m, hi⟩ := h.image hp
  refine (wp_freeproc_mem hi).post fun _ s' ⟨mem', hs', ho', hf'⟩ => ?_
  rw [hs']
  refine .of_set h hf' Proc.holds_freed ?_
  rw [Proc.pages_of_unused rfl, zero_add]
  exact ho'

theorem ProcStep.withPid {n : ℕ} (h : ProcStep s s' c p x) (hn : s'.nextpid ≤ n) :
    ProcStep s { s' with nextpid := n } c p x where
  inv := ⟨h.inv.space, h.inv.files, h.inv.own⟩
  frame := h.frame
  eq := by
    conv_lhs => rw [h.eq]
  nextpid := h.nextpid.trans hn

/-- A slot without a page table is freed. -/
theorem wp_freeproc_early (hr : (s.proc p).pagetable = 0)
    (ho : Own s.mem (if (s.proc p).trapframe = 0 then R else (s.proc p).trapframe ::ₘ R)) :
    wp (freeproc p) NoPanic (fun _ s' => ∃ mem',
      s' = (s.setMem mem').setProc p (s.proc p).freed ∧ Own mem' R ∧ Frame s.mem mem' R) s := by
  have hskip : ¬ (s.proc p).pagetable ≠ 0 := not_not.mpr hr
  rw [freeproc, wp_bind, wp_getProc, wp_bind, wp_runIf]
  refine ⟨fun htf => ?_, fun htf => ?_⟩
  · rw [if_neg htf] at ho
    rw [wp_onMem]
    refine (wp_kfree ho).post fun _ mem' ⟨ho', hf'⟩ => ?_
    rw [wp_bind, wp_runIf]
    exact ⟨fun hc => absurd hc hskip, fun _ => ⟨mem', rfl, ho', hf'⟩⟩
  · rw [if_pos (not_not.mp htf)] at ho
    rw [wp_bind, wp_runIf]
    exact ⟨fun hc => absurd hc hskip, fun _ => ⟨s.mem, rfl, ho, .refl _ _⟩⟩

/-- `allocproc` takes a free slot, or fails and frees what it took. -/
theorem wp_allocproc (h : Inv s c) : wp allocproc NoPanic (fun o s' => match o with
    | none => s' = s ∨ ∃ p, (s.proc p).state = .unused ∧ ProcStep s s' c p (s.proc p).freed
    | some p => (s.proc p).state = .unused ∧ s'.nextpid = s.nextpid + 1 ∧ ∃ tf r, ProcStep s s' c p
        { s.proc p with pid := s.nextpid, state := .used, trapframe := tf, pagetable := r }) s := by
  rw [allocproc, wp_bind, wp_get]
  split
  next => exact .inl rfl
  next p hfind =>
    have hp : (s.proc p).state = .unused := by simpa using List.find?_some hfind
    obtain ⟨hr, htf, hsz⟩ := (h.space p).idle hp
    have ho : Own s.mem (rest s p) := by
      have := h.own_rest p
      rwa [Proc.pages_of_unused hp, zero_add] at this
    -- what a failure leaves
    have hback : ∀ n mem', s.nextpid ≤ n → Own mem' (rest s p) → Frame s.mem mem' (rest s p) →
        ProcStep s { (s.setMem mem').setProc p (s.proc p).freed with nextpid := n } c p
          (s.proc p).freed := fun n mem' hn ho' hf' => by
      refine (ProcStep.of_set h hf' Proc.holds_freed ?_).withPid hn
      rw [Proc.pages_of_unused rfl, zero_add]
      exact ho'
    rw [wp_bind, wp_modify, wp_bind, wp_modifyProc, wp_bind, wp_onMem]
    refine (wp_kalloc ho).post fun o mem₁ h₁ => ?_
    cases o with
    | none =>
      obtain rfl : mem₁ = s.mem := h₁
      rw [wp_bind]
      refine (wp_freeproc_early (R := rest s p) ?_ ?_).post fun _ s' ⟨mem', hs', ho', hf'⟩ => ?_
      · simpa using hr
      · simpa [htf] using ho
      · refine .inr ⟨p, hp, ?_⟩
        have := hback (s.nextpid + 1) mem' (Nat.le_succ _) ho' hf'
        rw [hs']
        convert this using 1
        simp [Kern.setProc, Kern.setMem, Proc.freed]
    | some tf =>
      obtain ⟨ho₁, hf₁⟩ := h₁
      have htf' : tf ∈ tf ::ₘ rest s p := mem_cons_self tf _
      have hsub : rest s p ⊆ tf ::ₘ rest s p := subset_cons _ _
      rw [wp_bind, wp_modifyProc, wp_bind, wp_onMem]
      refine (wp_procPagetable ho₁ (ho₁.lt htf')).post fun o mem₂ ⟨hf₂, h₂⟩ => ?_
      have hf := hf₁.trans (hf₂.mono hsub)
      cases o with
      | none =>
        rw [wp_bind]
        refine (wp_freeproc_early (R := rest s p) ?_ ?_).post fun _ s' ⟨mem', hs', ho', hf'⟩ => ?_
        · simpa using hr
        · have hne : tf ≠ 0 := ho₁.ne_zero htf'
          simpa [hne] using h₂
        · refine .inr ⟨p, hp, ?_⟩
          have := hback (s.nextpid + 1) mem' (Nat.le_succ _) ho' (hf.trans hf')
          rw [hs']
          convert this using 1
          simp [Kern.setProc, Kern.setMem, Proc.freed]
      | some r =>
        obtain ⟨O, m, ho₂, ht₂, hm₂⟩ := h₂
        rw [wp_bind, wp_modifyProc]
        refine ⟨hp, rfl, tf, r, ?_⟩
        have hi : Image mem₂ r tf (pg (s.proc p).sz) ({tf} + rest s p) O m := by
          refine ⟨ht₂, ?_, ?_⟩
          · rw [hsz, hf₂.image]
            exact hm₂
          · rw [hsz, show pg 0 = 0 from rfl, mapped_zero, zero_add, singleton_add]
            exact ho₂
        have := (ProcStep.of_image (x := { s.proc p with
          pid := s.nextpid, state := .used, trapframe := tf, pagetable := r }) h hf nofun hi).withPid
          (n := s.nextpid + 1) (Nat.le_succ _)
        convert this using 1
        simp [Kern.setProc, Kern.setMem]

/-! ## Growing and shrinking -/

/-- The process maps the same pages and finds the same contents in them. -/
structure SameMap (mem mem' : Mem) (x : Proc) : Prop where
  entry : ∀ v < NVPN, tree.look mem'.pte 2 x.pagetable v = tree.look mem.pte 2 x.pagetable v
  page : ∀ v < NVPN, tree.look mem.pte 2 x.pagetable v &&& PTE_V ≠ 0 →
    mem'.page (PTE2PA (tree.look mem.pte 2 x.pagetable v)) =
      mem.page (PTE2PA (tree.look mem.pte 2 x.pagetable v))

/-- The contents of the pages that a process maps. -/
theorem Maps.page_eq {tf k v : ℕ} (hm : Maps mem.image tf k m) (hal : tf % PGSIZE = 0)
    (hf : Frame mem mem' (mapped m 0 k + {tf})) (hv : v < NVPN) (hval : m v &&& PTE_V ≠ 0) :
    mem'.page (PTE2PA (m v)) = mem.page (PTE2PA (m v)) := by
  by_cases hk : v < k
  · exact hf.page _ (mem_add.mpr (.inl (mem_mapped hk)))
  by_cases h₁ : v = VTRAP
  · rw [h₁, hm.trapframe, mkPte, PTE2PA_mk hal (by decide)]
    exact hf.page _ (by simp)
  by_cases h₂ : v = VTRAMP
  · rw [h₂, hm.trampoline, mkPte, PTE2PA_mk mem.image.trampoline_align (by decide)]
    exact hf.outside _ mem.image.trampoline_notMem
  · exact absurd (by rw [hm.free v hv (by omega) h₁ h₂]; rfl) hval

theorem SameMap.of_image {O' : Multiset ℕ}
    (h : Image mem x.pagetable x.trapframe (pg x.sz) ({x.trapframe} + R) O m)
    (h' : Image mem' x.pagetable x.trapframe (pg x.sz) ({x.trapframe} + R) O' m)
    (hf : Frame mem mem' (mapped m 0 (pg x.sz) + ({x.trapframe} + R))) : SameMap mem mem' x := by
  refine ⟨fun v hv => (h'.table.look v hv).trans (h.table.look v hv).symm, fun v hv hval => ?_⟩
  rw [h.table.look v hv] at hval ⊢
  refine h.maps.page_eq (h.own.mem (by simp)).1 (hf.mono ?_) hv hval
  rw [← add_assoc]
  exact fun y hy => mem_add.mpr (.inl hy)

/-- What leaves the pages of a process alone leaves its map alone. -/
theorem Inv.sameMap (h : Inv s c) (hp : (s.proc p).state ≠ .unused) (hf : Frame s.mem mem' H)
    (hH : (s.proc p).pages s.mem ⊆ H) : SameMap s.mem mem' (s.proc p) := by
  obtain ⟨O, m, hi⟩ := h.image hp
  rw [(Proc.holds_of_image hp hi).2] at hH
  have ht := hi.table.congr hf fun y hy => hH (mem_add.mpr (.inl hy))
  refine ⟨fun v hv => (ht.look v hv).trans (hi.table.look v hv).symm, fun v hv hval => ?_⟩
  rw [hi.table.look v hv] at hval ⊢
  refine hi.maps.page_eq (hi.own.mem (by simp)).1 (hf.mono fun y hy => hH ?_) hv hval
  exact mem_add.mpr (.inr hy)

/-- `growproc` changes the size of the process; if it fails, nothing changes for the process. -/
theorem wp_growproc {n : ℤ} (h : Inv s c) (hp : (s.proc p).state ≠ .unused) (hn : n < 2 ^ 31) :
    wp (growproc p n) NoPanic (fun b s' =>
      (∃ sz, ProcStep s s' c p { s.proc p with sz := sz }) ∧
      (b = false → s'.proc = s.proc ∧ SameMap s.mem s'.mem (s.proc p))) s := by
  obtain ⟨O, m, hi⟩ := h.image hp
  have hsub : rest s p ⊆ {(s.proc p).trapframe} + rest s p := fun y hy =>
    mem_add.mpr (.inr hy)
  have hstep : ∀ mem' sz O' m', Frame s.mem mem' (rest s p) →
      Image mem' (s.proc p).pagetable (s.proc p).trapframe (pg sz)
        ({(s.proc p).trapframe} + rest s p) O' m' →
      ProcStep s ((s.setMem mem').setProc p { s.proc p with sz := sz }) c p
        { s.proc p with sz := sz } := fun mem' sz O' m' hf hi' =>
    ProcStep.of_image (x := { s.proc p with sz := sz }) h hf hp hi'
  have hsame : ∀ mem', (s.setMem mem').setProc p { s.proc p with sz := (s.proc p).sz } =
      s.setMem mem' := fun mem' => by simp [Kern.setProc, Kern.setMem]
  rw [growproc, wp_bind, wp_getProc]
  split
  next hpos =>
    have hnew : ((((s.proc p).sz : ℤ) + n) % 2 ^ 64).toNat ≠ 0 := by
      have hle := hi.maps.le
      unfold pg PGSIZE at hle
      omega
    rw [wp_bind, wp_onMem]
    refine (wp_uvmalloc_image (by decide) hi).post fun z mem' h' => ?_
    obtain ⟨sz', O', m', hi', _, _, hres⟩ := h'.image
    have hf := (h'.frame.mono fun y hy => mem_add.mpr (.inr hy)).mono hsub
    split
    next hz =>
      have hfail : sz' = (s.proc p).sz ∧ m' = m := by
        rcases hres with ⟨rfl, _, hle, _⟩ | ⟨_, hsz, hm⟩
        · omega
        · exact ⟨hsz, hm⟩
      obtain ⟨rfl, rfl⟩ := hfail
      have := hstep mem' _ O' m' hf hi'
      rw [hsame] at this
      exact ⟨⟨_, this⟩, fun _ => ⟨rfl, SameMap.of_image hi hi' h'.frame⟩⟩
    next hz =>
      obtain rfl : z = sz' := by
        rcases hres with ⟨rfl, _⟩ | ⟨rfl, _⟩
        · rfl
        · exact absurd rfl hz
      rw [wp_bind, wp_modifyProc]
      exact ⟨⟨z, hstep mem' z O' m' hf hi'⟩, nofun⟩
  next =>
    split
    · rw [wp_bind, wp_onMem]
      refine (wp_uvmdealloc_image hi).post fun z mem' ⟨hf, O', m', hi'⟩ => ?_
      rw [wp_bind, wp_modifyProc]
      exact ⟨⟨z, hstep mem' z O' m' (hf.mono hsub) hi'⟩, nofun⟩
    · refine ⟨⟨(s.proc p).sz, ?_⟩, nofun⟩
      have := hstep s.mem (s.proc p).sz O m (.refl _ _) hi
      rw [hsame] at this
      exact this

/-! ## exec and copying -/

theorem wp_execCall {file : Option (List UInt8)} {args : List Arg} (h : Inv s c)
    (hp : (s.proc p).state ≠ .unused) : wp (execCall p file args) NoPanic (fun _ s' => ∃ r sz,
      ProcStep s s' c p { s.proc p with pagetable := r, sz := sz }) s := by
  obtain ⟨O, m, hi⟩ := h.image hp
  have hsub : rest s p ⊆ O + (mapped m 0 (pg (s.proc p).sz) + ({(s.proc p).trapframe} + rest s p)) :=
    fun y hy => by simp [hy]
  rw [execCall, wp_bind, wp_getProc, wp_bind, wp_onMem]
  refine (wp_sysExec rfl hi).post fun o mem' h' => ?_
  cases o with
  | none =>
    refine ⟨(s.proc p).pagetable, (s.proc p).sz, ?_⟩
    have := ProcStep.of_image (x := s.proc p) h (h'.2.mono hsub) hp h'.1
    rw [show (s.setMem mem').setProc p (s.proc p) = s.setMem mem' by simp [Kern.setProc, Kern.setMem]]
      at this
    exact this
  | some b =>
    obtain ⟨O', m', hi', hf'⟩ := h'
    rw [wp_bind, wp_modifyProc]
    exact ⟨b.1, b.2.1, ProcStep.of_image (x := { s.proc p with pagetable := b.1, sz := b.2.1 }) h hf'
      hp hi'⟩

/-- Writing to the user's memory. -/
theorem wp_copyout_proc {dstva : ℕ} {src : List UInt8} (h : Inv s c)
    (hp : (s.proc p).state ≠ .unused) :
    wp (copyout (s.proc p).pagetable dstva src) NoPanic
      (fun _ mem' => ProcStep s (s.setMem mem') c p (s.proc p) ∧
        (s.proc p).pages mem' = (s.proc p).pages s.mem) s.mem := by
  obtain ⟨O, m, hi⟩ := h.image hp
  refine (wp_copyoutFrom hi).post fun _ mem' ⟨hf', hfree⟩ => ?_
  have hi' := hi.congr hf' hfree
  have hstep := ProcStep.of_image (x := s.proc p) h (hf'.mono fun y hy => by simp [hy]) hp hi'
  rw [show (s.setMem mem').setProc p (s.proc p) = s.setMem mem' by simp [Kern.setProc, Kern.setMem]]
    at hstep
  exact ⟨hstep, (Proc.holds_of_image hp hi').2.trans (Proc.holds_of_image hp hi).2.symm⟩

/-- The trapframe is written. -/
theorem Image.put_trapframe {r tf k : ℕ} {b : Page} (h : Image mem r tf k ({tf} + R) O m) :
    Image (mem.put tf b) r tf k ({tf} + R) O m ∧ Frame mem (mem.put tf b) R := by
  have ho := h.own
  rw [show O + (mapped m 0 k + ({tf} + R)) = {tf} + (O + (mapped m 0 k + R)) by abel,
    singleton_add] at ho
  have hf := ho.frame_put (b := b)
  refine ⟨⟨h.table.congr hf fun y hy => by simp [hy], h.maps, h.own.put⟩, hf.mono fun y hy => ?_⟩
  simp [hy]

/-- The memory of `p` is copied for its child `q`, which has none yet. -/
theorem wp_uvmcopy_proc (h : Inv s c) (hp : (s.proc p).state ≠ .unused)
    (hq : (s.proc q).state ≠ .unused) (hpq : p ≠ q) (hsz : (s.proc q).sz = 0) :
    wp (uvmcopy (s.proc p).pagetable (s.proc q).pagetable (s.proc p).sz) NoPanic
      (fun b mem' => Frame s.mem mem' (rest s q) ∧ ∃ O' m', Image mem' (s.proc q).pagetable
        (s.proc q).trapframe (pg (if b then (s.proc p).sz else 0))
        ({(s.proc q).trapframe} + rest s q) O' m') s.mem := by
  obtain ⟨mp, htp, hmp⟩ := (h.space p).live hp
  obtain ⟨O, m, hi⟩ := h.image hq
  have hm := hi.maps
  have ho := hi.own
  rw [hsz, show pg 0 = 0 from rfl] at hm
  rw [hsz, show pg 0 = 0 from rfl, mapped_zero, zero_add] at ho
  have hOp : (s.proc p).tablePages s.mem ⊆ {(s.proc q).trapframe} + rest s q := fun y hy => by
    refine mem_add.mpr (.inr (pages_subset_rest hpq ?_))
    rw [Proc.pages, if_neg hp]
    exact mem_add.mpr (.inl hy)
  have hz : ∀ v < VTRAP, m v = 0 := fun v hv => by
    have h₁ : v < NVPN := hv.trans (by decide)
    have h₂ : v < VTRAMP := hv.trans (by decide)
    exact hm.free v h₁ (Nat.zero_le v) hv.ne h₂.ne
  refine (wp_uvmcopy htp hOp hmp.le hmp.user hi.table ho hz).post fun b mem' h' => ?_
  obtain ⟨O', m', hf', ht', hres⟩ := h'
  refine ⟨hf'.mono fun y hy => by simp [hy], O', m', ?_⟩
  cases b with
  | false =>
    obtain ⟨ho', rfl⟩ := hres
    rw [if_neg (by decide), show pg 0 = 0 from rfl]
    refine ⟨ht', hf'.image ▸ hm, ?_⟩
    rw [mapped_zero, zero_add]
    exact ho'
  | true =>
    obtain ⟨ho', hval, hother, -⟩ := hres
    have hle := hmp.le
    have hbig : ∀ v, 2 ^ 15 ≤ v → m' v = m v := fun v hv => hother v (by omega)
    refine ⟨ht', ⟨hle, hval, ?_, ?_, fun v hv hkv h₁ h₂ => ?_⟩, ho'⟩
    · rw [hbig _ (by decide)]
      exact hm.trapframe
    · rw [hbig _ (by decide), hf'.image]
      exact hm.trampoline
    · rw [hother v hkv]
      exact hm.free v hv (Nat.zero_le v) h₁ h₂

end Xv6.Vm

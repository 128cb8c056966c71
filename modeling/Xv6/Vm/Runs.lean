import Xv6.Logic.Steps
import Xv6.Vm.Calls

/-! # Runs

From the start of the kernel on, every page is free or has one owner between any two
calls, and no call panics except the exit of the first process.
-/

namespace Xv6.Vm

open Function Multiset

open Sys (ProcState FdType Fptr Pptr)

variable {s s₁ s' : Kern} {mem mem' : Mem} {H R O : Multiset ℕ} {p q : Pptr} {call : Call}
  {m : ℕ → ℕ} {l : List (Pptr × Call)}

/-! ## One call -/

/-- The calls that leave the memory and the files of the caller alone. -/
def Call.quiet : Call → Bool
  | .fork => true
  | .wait _ _ => true
  | _ => false

/-- What a call of `p` has done. -/
structure CallStep (s s' : Kern) (p : Pptr) (call : Call) : Prop where
  valid : Valid s'
  pid : (s'.proc p).pid = (s.proc p).pid
  effect : ∃ A, Effect s s' A (held s A) ∧ (∀ q ∈ A, q = p ∨ Renewed s s' q) ∧
    (call.quiet = true → p ∉ A)

theorem callStep_of_caller (hv : Valid s') (he : Effect s s' {p} (held s {p}))
    (hpid : (s'.proc p).pid = (s.proc p).pid) (hq : call.quiet = false) : CallStep s s' p call :=
  ⟨hv, hpid, {p}, he, fun _ h => .inl h, fun hc => absurd hc (by simp [hq])⟩

theorem callStep_of_quiet {A : Set Pptr} (hp : (s.proc p).state = .runnable) (hv : Valid s')
    (he : Effect s s' A Set.univ) (hA : ∀ q ∈ A, Renewed s s' q) : CallStep s s' p call := by
  have hpA : p ∉ A := fun hc => by
    have := (hA p hc).1
    simp [hp] at this
  exact ⟨hv, (he.same p hpA).pid, A, he.mono le_rfl (Set.subset_univ _), fun q hq => .inr (hA q hq),
    fun _ => hpA⟩

theorem wp_syscall (call : Call) (h : Valid s) (hp : (s.proc p).state = .runnable) : wp (syscall p call)
    (fun e _ => e = .initExiting) (fun _ s' => CallStep s s' p call) s := by
  have hno : ∀ (e : Panic) (s' : Kern), NoPanic e s' → e = .initExiting := fun _ _ => False.elim
  cases call with
  | fork =>
    rw [syscall, wp_map]
    exact (wp_fork h hp).mono hno fun _ s' ⟨hv, A, he, hA⟩ => callStep_of_quiet hp hv he hA
  | exec file args =>
    rw [syscall, wp_map]
    refine (wp_execCall_valid h hp).mono hno fun _ s' ⟨hv, he, hpid⟩ => ?_
    exact callStep_of_caller hv (he.mono le_rfl (Set.subset_univ _)) hpid rfl
  | sbrk n =>
    rw [syscall, wp_bind, wp_getProc, wp_bind]
    refine (wp_sbrk h hp BitVec.toInt_lt).mono hno fun _ s' ⟨⟨hv, he, hpid⟩, _⟩ => ?_
    exact callStep_of_caller hv (he.mono le_rfl (Set.subset_univ _)) hpid rfl
  | pipe fdarray =>
    rw [syscall, wp_map]
    exact (wp_sysPipe h hp).mono hno fun _ s' ⟨hv, he, hpid⟩ => callStep_of_caller hv he hpid rfl
  | close fd =>
    rw [syscall, wp_map]
    refine (wp_sysClose h hp).mono hno fun _ s' ⟨hv, he, hx⟩ => ?_
    exact callStep_of_caller hv he (by rw [hx]) rfl
  | exit status =>
    rw [syscall, wp_map]
    exact (wp_exit h hp).post fun _ s' ⟨hv, he, hpid⟩ => callStep_of_caller hv he hpid rfl
  | wait addr killed =>
    rw [syscall]
    exact (wp_wait h hp).mono hno fun _ s' ⟨hv, A, he, hA⟩ => callStep_of_quiet hp hv he hA

theorem step_valid (h : Valid s) (hs : Next step s (p, call) s') : CallStep s s' p call := by
  simp only [Next, step] at hs
  split at hs
  next hp =>
    have hwp := wp_syscall call h hp
    cases hr : syscall p call s with
    | ok a t =>
      rw [hr] at hs
      obtain rfl : t = s' := by simpa using hs
      exact hwp.ok hr
    | error e t =>
      rw [hr] at hs
      simp at hs
  next => simp at hs

theorem runnable_of_next (hs : Next step s (p, call) s') : (s.proc p).state = .runnable := by
  simp only [Next, step] at hs
  split at hs
  next hp => exact hp
  next => simp at hs

/-- The only panic. -/
theorem step_panic {e : Panic} (h : Valid s) (hs : step s (p, call) = some (.error e)) :
    e = .initExiting := by
  simp only [step] at hs
  split at hs
  next hp =>
    have hwp := wp_syscall call h hp
    cases hr : syscall p call s with
    | ok a t =>
      rw [hr] at hs
      simp at hs
    | error e' t =>
      rw [hr] at hs
      obtain rfl : e' = e := by simpa using hs
      exact hwp.error hr
  next => simp at hs

theorem run_valid (h : Run (Next step) s l s') (hs : Valid s) : Valid s' :=
  h.invariant (fun _ _ _ _ hstep hv => (step_valid hv hstep).valid) hs

/-! ## Boot -/

theorem wp_freerangeFrom {k a : ℕ} (ha : mem.image.lo ≤ a) (hk : a + k ≤ PHYSTOP / PGSIZE) :
    wp (freerangeFrom k (a * PGSIZE)) NoPanic (fun _ mem' => mem'.image = mem.image ∧
      (mem'.free : Multiset ℕ) =
        mem.free + (range k).map fun i => (a + i) * PGSIZE) mem := by
  induction k generalizing mem a with
  | zero => simp [freerangeFrom]
  | succ k ih =>
    have hlo : mem.image.kend ≤ a * PGSIZE := by
      unfold Layout.lo at ha
      unfold PGSIZE at *
      omega
    have htop : a * PGSIZE < PHYSTOP := by
      unfold PHYSTOP KERNBASE PGSIZE at *
      omega
    rw [freerangeFrom, wp_bind, kfree, wp_bind, wp_get, wp_bind, wp_stopIf, Nat.mul_mod_left]
    refine ⟨fun hc => by omega, fun _ => ?_⟩
    rw [wp_bind, wp_memset, wp_modify, show a * PGSIZE + PGSIZE = (a + 1) * PGSIZE by ring]
    generalize hm : Mem.mk (mem.put (a * PGSIZE) fun _ => 1).image _ _ = mem₁
    have hi₁ : mem₁.image = mem.image := hm ▸ rfl
    have hf₁ : mem₁.free = a * PGSIZE :: mem.free := hm ▸ rfl
    refine (ih (hi₁ ▸ ha.trans (Nat.le_succ a)) (by omega)).post fun _ mem' ⟨hi', hf'⟩ =>
      ⟨hi'.trans hi₁, hf'.trans ?_⟩
    rw [hf₁, ← cons_coe, cons_add, Nat.add_comm k, range_add,
      map_add, map_map, show range 1 = {0} from rfl,
      map_singleton, singleton_add, add_cons]
    refine congrArg₂ _ rfl (congrArg _ (map_congr rfl fun i _ => ?_))
    rw [comp_apply, Nat.add_assoc]

theorem wp_kinit (h : mem.free = []) :
    wp kinit NoPanic (fun _ mem' => Own mem' 0) mem := by
  have hround : PGROUNDUP mem.image.kend = mem.image.lo * PGSIZE :=
    PGROUNDUP_eq (mem.image.kend_le.trans_lt (by decide))
  have hsub : (PHYSTOP - mem.image.lo * PGSIZE) / PGSIZE = PHYSTOP / PGSIZE - mem.image.lo := by
    unfold PHYSTOP KERNBASE PGSIZE
    omega
  have hle : mem.image.lo ≤ PHYSTOP / PGSIZE := by
    have := mem.image.kend_le
    unfold Layout.lo PHYSTOP KERNBASE PGSIZE at *
    omega
  rw [kinit, wp_bind, wp_get, hround, hsub]
  refine (wp_freerangeFrom le_rfl (by omega)).post fun _ mem' ⟨hi', hf'⟩ => ?_
  rw [Own, hf', h, hi', Layout.pages]
  simp

theorem wp_takePages {k : ℕ} (h : Own mem H) :
    wp (takePages k) NoPanic (fun l mem' => Own mem' (l + H)) mem := by
  induction k generalizing mem H with
  | zero => simpa [takePages] using h
  | succ k ih =>
    rw [takePages, wp_bind]
    refine (wp_kalloc h).post fun o mem₁ h₁ => ?_
    cases o with
    | none =>
      subst h₁
      simpa using h
    | some pa =>
      rw [wp_bind]
      refine (ih h₁.1).post fun l mem' h' => ?_
      rw [wp_pure, ← cons_coe, cons_add, ← add_cons]
      exact h'

/-- The first process gets one page. -/
theorem wp_uvmfirst {r tf : ℕ} {src : List UInt8} (h : Image mem r tf 0 H O m) :
    wp (uvmfirst r src) NoPanic (fun ok mem' => Frame mem mem' H ∧
      (ok = true → ∃ O' m', Image mem' r tf 1 H O' m')) mem := by
  have ho := h.own
  rw [mapped_zero, zero_add] at ho
  rw [uvmfirst, wp_bind]
  refine (wp_kalloc ho).post fun o mem₁ h₁ => ?_
  cases o with
  | none =>
    subst h₁
    exact ⟨.refl _ _, nofun⟩
  | some pa =>
    obtain ⟨ho₁, hf₁⟩ := h₁
    have hpa := ho₁.mem (mem_cons_self pa _)
    have hlt := ho₁.lt (mem_cons_self pa _)
    have hz : ¬ m 0 &&& PTE_V ≠ 0 := by
      rw [h.maps.free 0 (by decide) le_rfl (by decide) (by decide)]
      decide
    have hf₂ := hf₁.trans (ho₁.frame_put (b := fun _ => 0))
    have ht₂ := h.table.congr hf₂ fun y hy => mem_add.mpr (.inl hy)
    rw [← add_cons] at ho₁
    rw [wp_bind, wp_memset, wp_bind, ← Nat.zero_mul PGSIZE]
    refine (wp_mappages ht₂ ho₁.put (by decide) hz (by decide) (by decide) hlt).post
      fun ok mem₃ ⟨O₃, ho₃, hf₃, ht₃⟩ => ?_
    have hf : Frame mem mem₃ H := (hf₂.mono fun y hy => by simp [hy]).trans
      (hf₃.mono (subset_cons _ _))
    cases ok with
    | false => exact ⟨hf, nofun⟩
    | true =>
      rw [if_pos rfl] at ht₃ ⊢
      have hmap := mapped_update (m := m) (v := 0) (j := 0) hpa.1
        (show PTE_W ||| PTE_R ||| PTE_X ||| PTE_U < 1024 by decide)
      rw [mapped_zero] at hmap
      generalize hm' : update m 0 _ = m' at ht₃ hmap
      have hother : ∀ v, v ≠ 0 → m' v = m v := fun v hv => hm' ▸ update_of_ne hv _ _
      have hi₃ : Image mem₃ r tf 1 H O₃ m' := by
        refine ⟨ht₃, ⟨by decide, fun v hv => ?_, ?_, ?_, fun v hv hle h₁ h₂ => ?_⟩, ?_⟩
        · obtain rfl : v = 0 := by omega
          rw [← hm', update_self]
          exact valid_mk (by decide)
        · rw [hother _ (by decide)]
          exact h.maps.trapframe
        · rw [hother _ (by decide), hf.image]
          exact h.maps.trampoline
        · rw [hother v (by omega)]
          exact h.maps.free v hv (Nat.zero_le v) h₁ h₂
        · rw [hmap, cons_add, zero_add]
          exact ho₃
      have hmem : pa ∈ mapped m' 0 1 := hmap ▸ mem_cons_self pa 0
      rw [wp_bind, wp_get, wp_bind, wp_setPage]
      refine ⟨hf.trans ((hi₃.frame_put hmem _).mono fun y hy => ?_), fun _ => ⟨O₃, m', hi₃.put hmem _⟩⟩
      exact mem_add.mpr (.inr hy)

/-- A process has come into a free slot. -/
theorem Valid.first {x : Proc} (h : Valid s) (hstep : ProcStep s₁ s' (refs s.slots) p x)
    (hoth : ∀ q, q ≠ p → s₁.proc q = s.proc q) (hst : x.state = .runnable)
    (hof : x.ofile = (s.proc p).ofile) (hpid : x.pid < s₁.nextpid) (hn : s.nextpid ≤ s₁.nextpid) :
    Valid s' := by
  have hother : ∀ q, q ≠ p → s'.proc q = s.proc q := fun q hq => by
    rw [hstep.proc_of_ne hq, hoth q hq]
  have hslots : s'.slots = s.slots := slots_congr fun q => by
    rcases eq_or_ne q p with rfl | hq
    · rw [hstep.proc_self, hof]
    · rw [hother q hq]
  refine ⟨hslots ▸ hstep.inv, fun q => ?_⟩
  rcases eq_or_ne q p with rfl | hq
  · refine ⟨fun hc => ?_, fun _ => ?_⟩
    · simp [hstep.proc_self, hst] at hc
    · rw [hstep.proc_self]
      exact hpid.trans_le hstep.nextpid
  · refine ⟨?_, ?_⟩ <;> rw [hother q hq]
    · exact (h.fine q).closed
    · exact fun hc => ((h.fine q).pid hc).trans_le (hn.trans hstep.nextpid)

theorem wp_userinit {initcode : List UInt8} (h : Valid s) :
    wp (userinit initcode) NoPanic (fun ok s' => ok = true → Valid s') s := by
  rw [userinit, wp_bind]
  refine (wp_allocproc h.inv).post fun o s₁ h₁ => ?_
  cases o with
  | none => exact nofun
  | some p =>
    obtain ⟨hp, hn, tf, r, h₁⟩ := h₁
    have hst : (s₁.proc p).state ≠ .unused := by
      rw [h₁.proc_self]
      nofun
    have hsz : (s₁.proc p).sz = 0 := by
      rw [h₁.proc_self]
      exact ((h.inv.space p).idle hp).2.2
    rw [wp_bind, wp_modify, wp_bind, wp_getProc, wp_bind, wp_onMem]
    generalize hs₂ : Kern.mk s₁.mem s₁.boot s₁.ftable s₁.proc s₁.nextpid _ = s₂
    have hproc : s₂.proc = s₁.proc := hs₂ ▸ rfl
    have hi₂ : Inv s₂ (refs s.slots) := by
      rw [← hs₂]
      exact ⟨h₁.inv.space, h₁.inv.files, h₁.inv.own⟩
    rw [← hproc] at hst hsz
    obtain ⟨O, m, him⟩ := hi₂.image hst
    rw [hsz, show pg 0 = 0 from rfl] at him
    refine (wp_uvmfirst him).post fun ok mem' ⟨hf', hres⟩ => ?_
    cases ok with
    | false => exact nofun
    | true =>
      obtain ⟨O', m', him'⟩ := hres rfl
      rw [if_pos rfl, wp_bind, wp_modifyProc, wp_bind, wp_onMem, wp_setReg, wp_bind, wp_onMem,
        wp_setReg, wp_bind, wp_modifyProc]
      have hpg : pg PGSIZE = 1 := by decide
      have hstep : ∀ b b', ProcStep s₂ ((s₂.setMem ((mem'.put (s₂.proc p).trapframe b).put
          (s₂.proc p).trapframe b')).setProc p { s₂.proc p with sz := PGSIZE, state := .runnable })
          (refs s.slots) p { s₂.proc p with sz := PGSIZE, state := .runnable } := fun b b' => by
        obtain ⟨hi₃, hf₃⟩ := him'.put_trapframe (b := b)
        obtain ⟨hi₄, hf₄⟩ := hi₃.put_trapframe (b := b')
        refine ProcStep.of_image hi₂ (((hf'.mono fun y hy => ?_).trans hf₃).trans hf₄) nofun
          (hpg ▸ hi₄)
        exact mem_add.mpr (.inr hy)
      intro _
      rw [Kern.setMem_setProc, Kern.setMem_setProc, Kern.setProc_setProc, Kern.setMem_setMem,
        Kern.setMem_setMem]
      simp only [Kern.setProc_proc, Kern.setMem_proc, update_self]
      have hpid : (s₂.proc p).pid < s₂.nextpid := by
        rw [hproc, h₁.proc_self, ← hs₂]
        exact Nat.lt_of_succ_le hn.ge
      refine h.first (hstep _ _) (fun q hq => ?_) rfl ?_ hpid ?_
      · rw [hproc, h₁.proc_of_ne hq]
      · rw [hproc, h₁.proc_self]
      · rw [← hs₂]
        exact h₁.nextpid

theorem valid_blank {L : Layout} {boot : List ℕ} (h : Own mem boot) :
    Valid { (Kern.blank L).setMem mem with boot := boot } := by
  have hslots : ∀ f, refs { (Kern.blank L).setMem mem with boot := boot }.slots f = 0 := fun f =>
    refs_eq_zero fun _ => nofun
  have hpipes : pipes (Kern.blank L).ftable = ∅ := by simp [pipes, Kern.blank]
  refine ⟨⟨fun p => ⟨fun hc => absurd rfl hc, fun _ => ⟨rfl, rfl, rfl⟩⟩, ⟨?_, ?_, ?_, ?_⟩, ?_⟩,
    fun q => ⟨fun _ _ => rfl, fun hc => absurd rfl hc⟩⟩
  · exact fun f => (hslots f).symm
  · exact fun _ _ => rfl
  · intro q w hq
    exact absurd (hpipes ▸ hq) (Finset.notMem_empty q)
  · intro q w f g hf
    exact absurd hf.1 nofun
  · have hpages : ∀ p, ((Kern.blank L).proc p).pages mem = 0 := fun p => Proc.pages_of_unused rfl
    have hsum : ∑ p, ((Kern.blank L).proc p).pages mem +
        ((pipes (Kern.blank L).ftable).val + (boot : Multiset ℕ)) = boot := by
      simp [hpages, hpipes]
    exact hsum.symm ▸ h

theorem booted_valid {L : Layout} (h : Booted L s) : Valid s := by
  obtain ⟨k, initcode, hb⟩ := h
  suffices hwp : wp (bootKern k initcode) NoPanic (fun ok s' => ok = true → Valid s') (.blank L) from
    hwp.ok hb rfl
  rw [bootKern, wp_bind, wp_onMem]
  refine (wp_kinit rfl).post fun _ mem₁ h₁ => ?_
  rw [wp_bind, wp_onMem]
  refine (wp_takePages h₁).post fun boot mem₂ h₂ => ?_
  rw [wp_bind, wp_modify]
  rw [add_zero] at h₂
  exact wp_userinit (valid_blank (L := L) h₂)

end Xv6.Vm

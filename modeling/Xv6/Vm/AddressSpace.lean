import Xv6.Vm.Ownership

/-! # Address spaces of processes

A process has its user memory mapped from address 0 up to its size, its trapframe and
the trampoline, and nothing else.
-/

namespace Xv6.Vm

open Sys (ProcState FdType Fptr Pptr)

variable {s s₀ : Kern} {mem mem' : Mem} {x : Proc} {p : Pptr} {l : List (Pptr × Call)} {L : Layout}
  {va : ℕ}

/-- The entry that `walk` finds for an address, or 0. -/
def Proc.pteAt (mem : Mem) (x : Proc) (va : ℕ) : ℕ :=
  match walk x.pagetable va false mem with
  | .ok (some l) mem' => mem'.pte l.1 l.2
  | _ => 0

theorem Proc.pteAt_eq (hva : va < MAXVA) :
    x.pteAt mem va = tree.look mem.pte 2 x.pagetable (va / PGSIZE) := by
  have hw := wp_walk_find (s := mem) (r := x.pagetable) (Q := fun o mem' =>
    o = tree.find mem.pte 2 x.pagetable (va / PGSIZE) ∧ mem' = mem) hva ⟨rfl, rfl⟩
  rw [pteAt, Radix.look]
  cases hr : walk x.pagetable va false mem with
  | ok o mem' =>
    obtain ⟨rfl, rfl⟩ := hw.ok hr
    cases tree.find mem'.pte 2 x.pagetable (va / PGSIZE) with
    | none => exact tree_blank.symm
    | some l => rfl
  | error e mem' => exact (hw.error hr).elim

/-- The page at `va` is mapped. -/
def Proc.MapsPage (mem : Mem) (x : Proc) (va : ℕ) : Prop :=
  x.pteAt mem va &&& PTE_V ≠ 0 ∧ Leaf (x.pteAt mem va)

theorem vpn_lt (hva : va < MAXVA) : va / PGSIZE < NVPN := by
  unfold MAXVA at hva
  unfold NVPN NPTE PGSIZE
  omega

/-- What the map of an address space means for its addresses. -/
theorem Proc.Holds.maps (h : x.Holds mem) (hx : x.state ≠ .unused) (hva : va < MAXVA)
    (hpage : va % PGSIZE = 0) :
    x.MapsPage mem va ↔ va < PGROUNDUP x.sz ∨ va = TRAPFRAME ∨ va = TRAMPOLINE := by
  obtain ⟨m, ht, hm⟩ := h.live hx
  have hlt := vpn_lt hva
  have hsz : x.sz < 2 ^ 63 := by
    have := hm.le
    unfold pg PGSIZE at this
    omega
  have hvalid : x.MapsPage mem va ↔ m (va / PGSIZE) &&& PTE_V ≠ 0 := by
    rw [Proc.MapsPage, Proc.pteAt_eq hva, ht.look _ hlt]
    exact and_iff_left_of_imp (ht.leaf hlt)
  have huser : va < PGROUNDUP x.sz ↔ va / PGSIZE < pg x.sz := by
    rw [PGROUNDUP_eq hsz]
    exact (Nat.div_lt_iff_lt_mul (by decide)).symm
  have htf : va = TRAPFRAME ↔ va / PGSIZE = VTRAP := by
    unfold VTRAP TRAPFRAME TRAMPOLINE MAXVA PGSIZE at *
    omega
  have htr : va = TRAMPOLINE ↔ va / PGSIZE = VTRAMP := by
    unfold VTRAMP TRAMPOLINE MAXVA PGSIZE at *
    omega
  rw [hvalid, huser, htf, htr]
  constructor
  · intro hv
    by_contra hc
    push Not at hc
    rw [hm.free _ hlt hc.1 hc.2.1 hc.2.2] at hv
    exact hv rfl
  · rintro (hv | hv | hv)
    · exact hm.user _ hv
    · rw [hv, hm.trapframe]
      exact valid_mk (by decide)
    · rw [hv, hm.trampoline]
      exact valid_mk (by decide)

/-- The user has no access to the trapframe and the trampoline. -/
theorem Proc.Holds.not_user (h : x.Holds mem) (hx : x.state ≠ .unused) :
    x.pteAt mem TRAPFRAME &&& PTE_U = 0 ∧ x.pteAt mem TRAMPOLINE &&& PTE_U = 0 := by
  obtain ⟨m, ht, hm⟩ := h.live hx
  have htf : m VTRAP &&& PTE_U = 0 := by
    rw [hm.trapframe]
    exact user_mk (by decide)
  have htr : m VTRAMP &&& PTE_U = 0 := by
    rw [hm.trampoline]
    exact user_mk (by decide)
  rw [Proc.pteAt_eq (by decide), Proc.pteAt_eq (by decide), ht.look _ (by decide),
    ht.look _ (by decide)]
  exact ⟨htf, htr⟩

/-- In every run from boot, between any two calls, the pages of a process below its size, its
trapframe and the trampoline are mapped and no others, the latter two not for the user; `growproc`
with a positive argument changes nothing for the process if it fails; and no call panics except the
exit of the first process. -/
theorem address_space (hb : Booted L s₀) (hr : Run (Next step) s₀ l s) :
    (∀ p, (s.proc p).state ≠ .unused →
      (∀ va < MAXVA, va % PGSIZE = 0 → ((s.proc p).MapsPage s.mem va ↔
        va < PGROUNDUP (s.proc p).sz ∨ va = TRAPFRAME ∨ va = TRAMPOLINE)) ∧
      (s.proc p).pteAt s.mem TRAPFRAME &&& PTE_U = 0 ∧
      (s.proc p).pteAt s.mem TRAMPOLINE &&& PTE_U = 0) ∧
    (∀ p (n : ℤ) s', (s.proc p).state ≠ .unused → 0 < n → n < 2 ^ 31 →
      growproc p n s = .ok false s' → s'.proc p = s.proc p ∧
        (∀ va < MAXVA, (s'.proc p).pteAt s'.mem va = (s.proc p).pteAt s.mem va) ∧
        ∀ va < MAXVA, (s.proc p).MapsPage s.mem va →
          s'.mem.page (PTE2PA ((s.proc p).pteAt s.mem va)) =
            s.mem.page (PTE2PA ((s.proc p).pteAt s.mem va))) ∧
    ∀ a e, step s a = some (.error e) → e = .initExiting := by
  have hv := run_valid hr (booted_valid hb)
  refine ⟨fun p hp => ⟨fun va hva hpage => (hv.inv.space p).maps hp hva hpage,
    (hv.inv.space p).not_user hp⟩, fun p n s' hp _ hn hs' => ?_, fun a e he => step_panic hv he⟩
  obtain ⟨hproc, hsame⟩ := ((wp_growproc hv.inv hp hn).ok hs').2 rfl
  refine ⟨by rw [hproc], fun va hva => ?_, fun va hva hm => ?_⟩
  · rw [hproc, Proc.pteAt_eq hva, Proc.pteAt_eq hva]
    exact hsame.entry _ (vpn_lt hva)
  · have hval := hm.1
    rw [Proc.pteAt_eq hva] at hval ⊢
    exact hsame.page _ (vpn_lt hva) hval

/-- After `sbrk(5)` the first process has the page of its new bytes. -/
theorem address_space_sbrk : ∃ s₀ s, Booted (tiny 8 (by decide)) s₀ ∧
    Run (Next step) s₀ [(0, .sbrk 5)] s ∧ (s.proc 0).sz = PGSIZE + 5 ∧
      (s.proc 0).MapsPage s.mem PGSIZE := by
  have heval : ∃ s₀, Booted (tiny 8 (by decide)) s₀ ∧
      (Xv6.exec step s₀ [(0, .sbrk 5)]).any (fun s =>
        decide ((s.proc 0).state ≠ .unused ∧ (s.proc 0).sz = PGSIZE + 5)) = true :=
    exists_booted 0 [] (by decide +kernel)
  obtain ⟨s₀, hb, hs⟩ := heval
  obtain ⟨s, he, hP⟩ := exists_of_exec step hs
  obtain ⟨hstate, hsz⟩ := hP
  have hr := run_of_exec step he
  refine ⟨s₀, s, hb, hr, hsz, ?_⟩
  refine (((address_space hb hr).1 0 hstate).1 PGSIZE (by decide) (by decide)).mpr (.inl ?_)
  rw [hsz]
  decide

end Xv6.Vm

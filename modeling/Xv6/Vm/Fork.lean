import Xv6.Vm.UserCopy

/-! # The memory of a forked process

`uvmcopy` gives a new process a copy of its parent's memory, on pages of its own, or
nothing.
-/

namespace Xv6.Vm

open Sys (ProcState FdType Fptr Pptr)

variable {s t : Kern} {mem mem' mem₁ mem₂ : Mem} {c : Fptr → ℕ} {p q : Pptr} {va : ℕ}

/-- What the user of `mem` finds in the pages of the table `r` up to the size `sz`, that of `mem'` finds
in those of `r'`. -/
def Clone (mem mem' : Mem) (r r' sz : ℕ) : Prop :=
  ∀ va < PGROUNDUP sz, PTE_FLAGS (mem'.entry r' va) = PTE_FLAGS (mem.entry r va) ∧
    mem'.page (mem'.frame r' va) = mem.page (mem.frame r va)

/-- A `copyout` to the process with the table `r` or to the one with the table `r'`. -/
def Writes (r r' : ℕ) (mem : Mem) (a : Bool × ℕ × List UInt8) (mem' : Mem) : Prop :=
  ∃ b, copyout (if a.1 then r' else r) a.2.1 a.2.2 mem = .ok b mem'

theorem vpn_lt_pg {sz : ℕ} (hsz : pg sz ≤ 2 ^ 15) (hva : va < PGROUNDUP sz) :
    va < MAXVA ∧ va / PGSIZE < pg sz := by
  have hlt : sz < 2 ^ 63 := by
    unfold pg PGSIZE at hsz
    omega
  rw [PGROUNDUP_eq hlt] at hva
  unfold MAXVA PGSIZE at *
  omega

/-! ## Two processes -/

/-- A `copyout` to `p` leaves the other processes alone. -/
theorem copyout_sameMap (h : Inv s c) (hp : (s.proc p).state ≠ .unused)
    (hq : (s.proc q).state ≠ .unused) (hpq : q ≠ p) {dst : ℕ} {src : List UInt8} {b : Bool}
    (hrun : copyout (s.proc p).pagetable dst src s.mem = .ok b mem') :
    Inv (s.setMem mem') c ∧ SameMap s.mem mem' (s.proc q) := by
  obtain ⟨hstep, -⟩ := (wp_copyout_proc h hp).ok hrun
  exact ⟨hstep.inv, h.sameMap hq hstep.frame (pages_subset_rest hpq)⟩

theorem writes_inv (h : Inv s c) (hp : (s.proc p).state ≠ .unused)
    (hq : (s.proc q).state ≠ .unused) (hpq : p ≠ q) {l : List (Bool × ℕ × List UInt8)}
    (hr : Run (Writes (s.proc p).pagetable (s.proc q).pagetable) s.mem l mem') :
    Inv (s.setMem mem') c := by
  refine hr.invariant (I := fun mem => Inv (s.setMem mem) c) (fun mem a mem'' _ hw hi => ?_) h
  obtain ⟨b, hrun⟩ := hw
  rcases a with ⟨⟨⟩ | ⟨⟩, dst, src⟩
  · exact (copyout_sameMap (p := p) (q := q) hi hp hq hpq.symm hrun).1
  · exact (copyout_sameMap (p := q) (q := p) hi hq hp hpq hrun).1

/-! ## The copy -/

/-- The child, once its size is set. -/
def forked (s : Kern) (p q : Pptr) (mem : Mem) : Kern :=
  (s.setMem mem).setProc q { s.proc q with sz := (s.proc p).sz }

theorem forked_parent (hpq : p ≠ q) : (forked s p q mem).proc p = s.proc p :=
  Function.update_of_ne hpq _ _

theorem forked_child :
    (forked s p q mem).proc q = { s.proc q with sz := (s.proc p).sz } :=
  Function.update_self _ _ _

theorem wp_uvmcopy_clone (h : Inv s c) (hp : (s.proc p).state ≠ .unused)
    (hq : (s.proc q).state ≠ .unused) (hpq : p ≠ q) (hsz : (s.proc q).sz = 0) :
    wp (uvmcopy (s.proc p).pagetable (s.proc q).pagetable (s.proc p).sz) NoPanic
      (fun b mem' => SameMap s.mem mem' (s.proc p) ∧
        if b then Inv (forked s p q mem') c ∧
          Clone s.mem mem' (s.proc p).pagetable (s.proc q).pagetable (s.proc p).sz
        else (∀ va < TRAPFRAME, mem'.entry (s.proc q).pagetable va = 0) ∧
          (mem'.free : Multiset ℕ) + (s.proc q).tablePages mem' =
            s.mem.free + (s.proc q).tablePages s.mem) s.mem := by
  have hpages : (s.proc p).pages s.mem ⊆ rest s q := pages_subset_rest hpq
  obtain ⟨Op, mp, hip⟩ := h.image hp
  rw [(Proc.holds_of_image hp hip).2] at hpages
  obtain ⟨O, m, hi⟩ := h.image hq
  have hm := hi.maps
  have ho := hi.own
  rw [hsz, show pg 0 = 0 from rfl] at hm
  rw [hsz, show pg 0 = 0 from rfl, mapped_zero, zero_add] at ho
  have hrest : rest s q ⊆ {(s.proc q).trapframe} + rest s q := fun y hy => by simp [hy]
  have hOp : Op ⊆ {(s.proc q).trapframe} + rest s q := fun y hy =>
    hrest (hpages (Multiset.mem_add.mpr (.inl hy)))
  have hz : ∀ v < VTRAP, m v = 0 := fun v hv => by
    have h₁ : v < NVPN := hv.trans (by decide)
    have h₂ : v < VTRAMP := hv.trans (by decide)
    exact hm.free v h₁ (Nat.zero_le v) hv.ne h₂.ne
  have hwp := (wp_uvmcopy hip.table hOp hip.maps.le hip.maps.user hi.table ho hz).and
    (wp_uvmcopy_proc h hp hq hpq hsz)
  refine hwp.mono (fun _ _ he => he.1) fun b mem' ⟨⟨O', m', hf', ht', hres⟩, hf, O'', m'', hi''⟩ => ?_
  refine ⟨h.sameMap hp hf (pages_subset_rest hpq), ?_⟩
  cases b with
  | false =>
    obtain ⟨ho', rfl⟩ := hres
    refine ⟨fun va hva => ?_, ?_⟩
    · have hlt : va < MAXVA := hva.trans (by decide)
      rw [Mem.entry, ht'.look _ (vpn_lt hlt)]
      refine hz _ ?_
      unfold VTRAP TRAPFRAME TRAMPOLINE MAXVA PGSIZE at *
      omega
    · rw [show (s.proc q).tablePages mem' = O' from ht'.nodes,
        show (s.proc q).tablePages s.mem = O from hi.table.nodes]
      -- both sides are what the other owners leave
      refine add_right_cancel (b := {(s.proc q).trapframe} + rest s q) ?_
      rw [add_assoc, add_assoc]
      exact ho'.trans (hf'.image ▸ ho.symm)
  | true =>
    obtain ⟨-, -, -, hdup⟩ := hres
    refine ⟨(ProcStep.of_image (x := { s.proc q with sz := (s.proc p).sz }) h hf hq hi'').inv,
      fun va hva => ?_⟩
    obtain ⟨hlt, hk⟩ := vpn_lt_pg hip.maps.le hva
    obtain ⟨hflags, hpage⟩ := hdup _ (Nat.zero_le _) hk
    rw [Mem.frame, Mem.frame, Mem.entry, Mem.entry, ht'.look _ (vpn_lt hlt),
      hip.table.look _ (vpn_lt hlt)]
    refine ⟨hflags, hpage (hrest (hpages ?_))⟩
    simp [mem_mapped hk]

/-- The pages of the child are its own. -/
theorem forked_distinct (h : Inv (forked s p q mem) c)
    (hq : (s.proc q).state ≠ .unused) (hpq : p ≠ q) :
    (∀ va < PGROUNDUP (s.proc p).sz, ∀ va' < PGROUNDUP (s.proc p).sz,
      mem.frame (s.proc q).pagetable va = mem.frame (s.proc q).pagetable va' →
        va / PGSIZE = va' / PGSIZE) ∧
    ∀ va < PGROUNDUP (s.proc p).sz,
      mem.frame (s.proc q).pagetable va ∉ (s.proc p).pages mem := by
  have hq' : ((forked s p q mem).proc q).state ≠ .unused := by
    rw [forked_child]
    exact hq
  obtain ⟨O, m, hi⟩ := h.image hq'
  rw [forked_child] at hi
  have hframe : ∀ va < PGROUNDUP (s.proc p).sz, va / PGSIZE < pg (s.proc p).sz ∧
      mem.frame (s.proc q).pagetable va = PTE2PA (m (va / PGSIZE)) := fun va hva => by
    obtain ⟨hlt, hk⟩ := vpn_lt_pg hi.maps.le hva
    exact ⟨hk, congrArg PTE2PA (hi.table.look _ (vpn_lt hlt))⟩
  refine ⟨fun va hva va' hva' he => ?_, fun va hva hc => ?_⟩
  · obtain ⟨hk, hf⟩ := hframe va hva
    obtain ⟨hk', hf'⟩ := hframe va' hva'
    have hd := (Multiset.nodup_add.mp (Multiset.nodup_add.mp hi.own.nodup).2.1).1
    exact mapped_inj hd hk hk' (by rw [← hf, ← hf', he])
  · obtain ⟨hk, hf⟩ := hframe va hva
    have hd := h.disjoint_pages hpq
    rw [forked_parent hpq] at hd
    refine Multiset.disjoint_left.mp hd hc ?_
    rw [(Proc.holds_of_image hq' (by rw [forked_child]; exact hi)).2, forked_child, hf]
    simp [mem_mapped hk]

/-- If `uvmcopy` succeeds, the child has the pages of its parent with their flags and contents, on
pages of its own, and nothing that is later written to one of the two shows in the other. If it
fails, the child has no user page and no page is lost. The parent's memory is left alone. -/
theorem uvmcopy_exact (h : Inv s c) (hp : (s.proc p).state ≠ .unused)
    (hq : (s.proc q).state ≠ .unused) (hpq : p ≠ q) (hsz : (s.proc q).sz = 0) :
    ∃ b mem', uvmcopy (s.proc p).pagetable (s.proc q).pagetable (s.proc p).sz s.mem = .ok b mem' ∧
      SameMap s.mem mem' (s.proc p) ∧
      (b = true →
        Clone s.mem mem' (s.proc p).pagetable (s.proc q).pagetable (s.proc p).sz ∧
        (∀ va < PGROUNDUP (s.proc p).sz, ∀ va' < PGROUNDUP (s.proc p).sz,
          mem'.frame (s.proc q).pagetable va = mem'.frame (s.proc q).pagetable va' →
            va / PGSIZE = va' / PGSIZE) ∧
        (∀ va < PGROUNDUP (s.proc p).sz,
          mem'.frame (s.proc q).pagetable va ∉ (s.proc p).pages mem') ∧
        ∀ l mem₁, Run (Writes (s.proc p).pagetable (s.proc q).pagetable) mem' l mem₁ →
          ∀ dst src b₂ mem₂,
            (copyout (s.proc p).pagetable dst src mem₁ = .ok b₂ mem₂ →
              SameMap mem₁ mem₂ (s.proc q)) ∧
            (copyout (s.proc q).pagetable dst src mem₁ = .ok b₂ mem₂ →
              SameMap mem₁ mem₂ (s.proc p))) ∧
      (b = false → (∀ va < TRAPFRAME, mem'.entry (s.proc q).pagetable va = 0) ∧
        (mem'.free : Multiset ℕ) + (s.proc q).tablePages mem' =
          s.mem.free + (s.proc q).tablePages s.mem) := by
  obtain ⟨b, mem', hrun, hsame, hres⟩ := (wp_uvmcopy_clone h hp hq hpq hsz).returns
  refine ⟨b, mem', hrun, hsame, fun hb => ?_, fun hb => ?_⟩
  · rw [if_pos hb] at hres
    obtain ⟨hinv, hclone⟩ := hres
    obtain ⟨hdist, hown⟩ := forked_distinct hinv hq hpq
    refine ⟨hclone, hdist, hown, fun l mem₁ hr dst src b₂ mem₂ => ?_⟩
    have hp' : ((forked s p q mem').proc p).state ≠ .unused := by rwa [forked_parent hpq]
    have hq' : ((forked s p q mem').proc q).state ≠ .unused := by
      rw [forked_child]
      exact hq
    have hr' : Run (Writes ((forked s p q mem').proc p).pagetable
        ((forked s p q mem').proc q).pagetable) (forked s p q mem').mem l mem₁ := by
      rw [forked_parent hpq, forked_child]
      exact hr
    have hinv₁ := writes_inv hinv hp' hq' hpq hr'
    refine ⟨fun hw => ?_, fun hw => ?_⟩
    · have hw' : copyout ((forked s p q mem').proc p).pagetable dst src mem₁ = .ok b₂ mem₂ := by
        rwa [forked_parent hpq]
      have hm := (copyout_sameMap hinv₁ hp' hq' hpq.symm hw').2
      rw [Kern.setMem_proc, forked_child] at hm
      exact ⟨hm.entry, hm.page⟩
    · have hw' : copyout ((forked s p q mem').proc q).pagetable dst src mem₁ = .ok b₂ mem₂ := by
        rwa [forked_child]
      have hm := (copyout_sameMap hinv₁ hq' hp' hpq hw').2
      rwa [Kern.setMem_proc, forked_parent hpq] at hm
  · rw [if_neg (by simp [hb])] at hres
    exact hres

/-- The first process forks: the child's page has the contents of its parent's. -/
theorem uvmcopy_exact_first : ∃ (s s₁ : Kern) (q : Pptr) (mem' : Mem),
    Booted (tiny 16 (by decide)) s ∧ allocproc s = .ok (some q) s₁ ∧
    uvmcopy (s₁.proc 0).pagetable (s₁.proc q).pagetable (s₁.proc 0).sz s₁.mem = .ok true mem' ∧
    mem'.page (mem'.frame (s₁.proc q).pagetable 0) = s₁.mem.page (s₁.mem.frame (s₁.proc 0).pagetable 0) := by
  have heval : ∃ s : Kern, Booted (tiny 16 (by decide)) s ∧ decide (wp allocproc
      (fun _ _ => False) (fun o s₁ => o ≠ none ∧ ∀ q ∈ o, 0 < (s₁.proc 0).sz ∧
        (s₁.proc 0).sz < 2 ^ 20 ∧ 0 ≠ q ∧ (s.proc 0).state ≠ .unused ∧
        wp (uvmcopy (s₁.proc 0).pagetable (s₁.proc q).pagetable (s₁.proc 0).sz)
          (fun _ _ => False) (fun b _ => b = true) s₁.mem) s) = true :=
    exists_booted 0 [] (by decide +kernel)
  obtain ⟨s, hb, hs⟩ := heval
  have hinv := (booted_valid hb).inv
  have hall := wp_allocproc hinv
  obtain ⟨o, s₁, hrun, hsome, hd⟩ := (of_decide_eq_true hs).returns
  cases o with
  | none => exact absurd rfl hsome
  | some q =>
    obtain ⟨hpos, hsmall, hne, hst, hok⟩ := hd q rfl
    obtain ⟨hq, -, tf, r, hstep⟩ := hall.ok hrun
    have hp₁ := hstep.proc_of_ne hne
    have hq₁ := hstep.proc_self
    have hsz : (s₁.proc q).sz = 0 := by
      rw [hq₁]
      exact ((hinv.space q).idle hq).2.2
    obtain ⟨b, mem', hcopy, -, hyes, -⟩ :=
      uvmcopy_exact hstep.inv (by rwa [hp₁]) (by rw [hq₁]; nofun) hne hsz
    obtain rfl : b = true := hok.ok hcopy
    refine ⟨s, s₁, q, mem', hb, hrun, hcopy, ((hyes rfl).1 0 ?_).2⟩
    rw [PGROUNDUP_eq (by omega)]
    unfold pg PGSIZE
    omega

end Xv6.Vm

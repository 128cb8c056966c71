import Xv6.Vm.AddressSpace

/-! # sbrk

`sbrk` returns the old size and changes the size by its argument, or fails and changes
nothing, as long as the new size is not negative. If it is, the call succeeds and
changes nothing.
-/

namespace Xv6.Vm

open Sys (ProcState FdType Fptr Pptr)

variable {s : Kern} {mem : Mem} {c : Fptr → ℕ} {p : Pptr} {r va perm a k oldsz newsz xperm : ℕ}

/-! ## Pages that are taken -/

theorem ensures_kalloc : Ensures kalloc (fun o mem' => match o with
    | none => mem'.free.length ≤ mem.free.length
    | some _ => mem'.free.length + 1 ≤ mem.free.length) mem := by
  rw [kalloc, Ensures, wp_bind, wp_get]
  cases hf : mem.free with
  | nil => exact (congrArg List.length hf).le
  | cons q rest => exact le_rfl

theorem ensures_walkFrom {alloc : Bool} {n : ℕ} : Ensures (walkFrom alloc va n r)
    (fun _ mem' => mem'.free.length ≤ mem.free.length) mem := by
  induction n generalizing mem r with
  | zero => exact le_rfl
  | succ n ih =>
    rw [walkFrom, Ensures, wp_bind, wp_readPte]
    split
    · exact ih
    · split
      · exact le_rfl
      · rw [wp_bind]
        refine ensures_kalloc.post fun o mem₁ h₁ => ?_
        cases o with
        | none => exact h₁
        | some q =>
          rw [wp_bind, wp_memset, wp_bind, wp_writePte]
          exact ih.post fun _ mem' h' => h'.trans ((Nat.le_succ _).trans h₁)

theorem ensures_walk {alloc : Bool} : Ensures (walk r va alloc)
    (fun _ mem' => mem'.free.length ≤ mem.free.length) mem := by
  rw [walk, Ensures, wp_bind, wp_stopIf]
  exact ⟨fun _ => trivial, fun _ => ensures_walkFrom⟩

theorem ensures_mappagesFrom {pa : ℕ} : Ensures (mappagesFrom r perm k a pa)
    (fun _ mem' => mem'.free.length ≤ mem.free.length) mem := by
  induction k generalizing mem a pa with
  | zero =>
    rw [mappagesFrom, Ensures, wp_bind]
    refine ensures_walk.post fun o mem₁ h₁ => ?_
    cases o with
    | none => exact h₁
    | some l =>
      rw [wp_bind, wp_readPte, wp_bind, wp_stopIf]
      exact ⟨fun _ => trivial, fun _ => h₁⟩
  | succ k ih =>
    rw [mappagesFrom, Ensures, wp_bind]
    refine ensures_walk.post fun o mem₁ h₁ => ?_
    cases o with
    | none => exact h₁
    | some l =>
      rw [wp_bind, wp_readPte, wp_bind, wp_stopIf]
      refine ⟨fun _ => trivial, fun _ => ?_⟩
      rw [wp_bind, wp_writePte]
      exact ih.post fun _ mem' h' => h'.trans h₁

theorem ensures_mappages {size pa : ℕ} : Ensures (mappages r va size pa perm)
    (fun _ mem' => mem'.free.length ≤ mem.free.length) mem := by
  rw [mappages, Ensures, wp_bind, wp_stopIf]
  exact ⟨fun _ => trivial, fun _ => ensures_mappagesFrom⟩

/-- Every page of the growth is taken from the free list. -/
theorem ensures_uvmallocFrom : Ensures (uvmallocFrom r oldsz xperm k a)
    (fun b mem' => b = true → mem'.free.length + k ≤ mem.free.length) mem := by
  induction k generalizing mem a with
  | zero => exact fun _ => le_rfl
  | succ k ih =>
    have hfail : ∀ mem₁ : Mem, Ensures (do let _ ← uvmdealloc r a oldsz; pure false)
        (fun b mem' => b = true → mem'.free.length + (k + 1) ≤ mem.free.length) mem₁ := fun mem₁ => by
      rw [Ensures, wp_bind, wp_iff]
      exact ⟨fun _ _ _ => nofun, fun _ _ _ => trivial⟩
    rw [uvmallocFrom, Ensures, wp_bind]
    refine ensures_kalloc.post fun o mem₁ h₁ => ?_
    cases o with
    | none => exact hfail mem₁
    | some q =>
      rw [wp_bind, wp_memset, wp_bind]
      refine ensures_mappages.post fun b mem₂ h₂ => ?_
      cases b with
      | false =>
        rw [if_neg (by decide), wp_bind, wp_iff]
        exact ⟨fun _ mem' _ => hfail mem', fun _ _ _ => trivial⟩
      | true =>
        rw [if_pos rfl]
        refine ih.post fun b mem' h' hb => ?_
        have := h' hb
        have : mem₂.free.length ≤ mem₁.free.length := h₂
        have : mem₁.free.length + 1 ≤ mem.free.length := h₁
        omega

theorem ensures_uvmalloc (h : oldsz ≤ newsz) (hsz : oldsz < 2 ^ 63) :
    Ensures (uvmalloc r oldsz newsz xperm) (fun z mem' =>
      z ≠ 0 → z = newsz ∧ mem'.free.length + (pg newsz - pg oldsz) ≤ mem.free.length) mem := by
  rw [uvmalloc, if_neg (Nat.not_lt.mpr h), PGROUNDUP_eq hsz, pagesTo_pg, Ensures, wp_bind]
  refine ensures_uvmallocFrom.post fun b mem' h' => ?_
  cases b with
  | false => exact fun hc => absurd rfl hc
  | true => exact fun _ => ⟨rfl, h' rfl⟩

theorem ensures_uvmdealloc : Ensures (uvmdealloc r oldsz newsz)
    (fun z _ => z = if oldsz ≤ newsz then oldsz else newsz) mem := by
  unfold uvmdealloc
  split
  · exact rfl
  · rw [Ensures, wp_bind, wp_iff]
    exact ⟨fun _ _ _ => rfl, fun _ _ _ => trivial⟩

/-! ## The size -/

/-- The pages that a change of the size by `n` adds. -/
def grownPages (x : Proc) (n : ℤ) : ℕ := pg (x.sz + n).toNat - pg x.sz

theorem ensures_growproc {n : ℤ} (hsz : (s.proc p).sz < 2 ^ 62) (hn : |n| ≤ 2 ^ 31) :
    Ensures (growproc p n) (fun b s' => (n < 0 → b = true) ∧ (b = true →
      ((s'.proc p).sz : ℤ) = (if ((s.proc p).sz + n : ℤ) < 0 then ((s.proc p).sz : ℤ)
        else (s.proc p).sz + n) ∧ grownPages (s.proc p) n ≤ s.mem.free.length)) s := by
  obtain ⟨hlo, hhi⟩ := abs_le.mp hn
  rw [growproc, Ensures, wp_bind, wp_getProc]
  split
  next hpos =>
    have hnew : ((((s.proc p).sz : ℤ) + n) % 2 ^ 64).toNat = ((s.proc p).sz + n).toNat := by omega
    have hnn : ¬ ((s.proc p).sz + n : ℤ) < 0 := by omega
    rw [wp_bind, wp_onMem, hnew]
    refine (ensures_uvmalloc (by omega) (by omega)).post fun z mem' h' => ?_
    split
    · exact ⟨fun hc => absurd hc (by omega), nofun⟩
    next hz =>
      rw [wp_bind, wp_modifyProc]
      obtain ⟨rfl, hfree⟩ := h' hz
      refine ⟨fun _ => rfl, fun _ => ?_⟩
      rw [Kern.setProc_proc, Function.update_self]
      refine ⟨Int.toNat_of_nonneg (by omega), ?_⟩
      unfold grownPages
      omega
  next hpos =>
    have hpages : grownPages (s.proc p) n = 0 :=
      Nat.sub_eq_zero_of_le (pg_mono (by omega))
    split
    next hneg =>
      rw [wp_bind, wp_onMem]
      refine ensures_uvmdealloc.post fun z mem' hz => ?_
      rw [wp_bind, wp_modifyProc]
      refine ⟨fun _ => rfl, fun _ => ?_⟩
      rw [Kern.setProc_proc, Function.update_self, hpages]
      refine ⟨?_, Nat.zero_le _⟩
      dsimp only
      rw [hz]
      split_ifs <;> omega
    next hneg =>
      obtain rfl : n = 0 := by omega
      refine ⟨fun _ => rfl, fun _ => ?_⟩
      rw [hpages, if_neg (by omega), Int.add_zero]
      exact ⟨rfl, Nat.zero_le _⟩

/-- `sbrk` returns the old size and changes the size by `n`, or returns -1 and changes nothing for the
process. It returns -1 if the new size is negative or more pages are needed than are free. -/
def SbrkExact (s : Kern) (p : Pptr) (n : BitVec 32) : Prop :=
  ∃ r s', syscall p (.sbrk n) s = .ok (some r) s' ∧
    (r ≠ -1 → r = (s.proc p).sz ∧ ((s'.proc p).sz : ℤ) = (s.proc p).sz + n.toInt) ∧
    ((s.proc p).sz + n.toInt < 0 ∨ s.mem.free.length < grownPages (s.proc p) n.toInt → r = -1) ∧
    (r = -1 → s'.proc = s.proc ∧ SameMap s.mem s'.mem (s.proc p))

theorem abs_toInt_le (n : BitVec 32) : |n.toInt| ≤ 2 ^ 31 := by
  have h₁ := BitVec.toInt_lt (x := n)
  have h₂ := BitVec.le_toInt (x := n)
  rw [abs_le]
  omega

/-- `sbrk` is exact unless the new size is negative. -/
theorem sbrk_exact_iff (h : Inv s c) (hp : (s.proc p).state ≠ .unused) (n : BitVec 32) :
    SbrkExact s p n ↔ 0 ≤ (s.proc p).sz + n.toInt := by
  have hsz : (s.proc p).sz < 2 ^ 62 := by
    obtain ⟨O, m, hi⟩ := h.image hp
    have := hi.maps.le
    unfold pg PGSIZE at this
    omega
  have hwp := (wp_growproc h hp (BitVec.toInt_lt (x := n))).and
    (ensures_growproc hsz (abs_toInt_le n))
  obtain ⟨b, s', hrun, ⟨-, hfail⟩, hneg, hok⟩ := (hwp.mono (fun _ _ he => he.1) fun _ _ h => h).returns
  have hcall : syscall p (.sbrk n) s = .ok (some (if b then ((s.proc p).sz : ℤ) else -1)) s' := by
    simp [syscall, getProc, bind, EStateM.bind, hrun, pure, EStateM.pure]
  constructor
  · rintro ⟨r, t, hr, -, hminus, -⟩
    by_contra hc
    rw [hcall, if_pos (hneg (by omega))] at hr
    cases hr
    have := hminus (.inl (by omega))
    omega
  · intro hnn
    refine ⟨_, s', hcall, ?_⟩
    cases b with
    | false =>
      refine ⟨fun hc => absurd rfl hc, fun _ => rfl, fun _ => hfail rfl⟩
    | true =>
      obtain ⟨hsize, hfree⟩ := hok rfl
      rw [if_neg (by omega)] at hsize
      rw [if_pos rfl]
      exact ⟨fun _ => ⟨rfl, hsize⟩, fun hc => by omega, fun hc => by omega⟩

theorem sbrk_exact_first : ∃ s, Booted (tiny 8 (by decide)) s ∧ SbrkExact s 0 (-4096) := by
  have heval : ∃ s, Booted (tiny 8 (by decide)) s ∧
      decide ((s.proc 0).state ≠ .unused ∧ (s.proc 0).sz = PGSIZE) = true :=
    exists_booted 0 [] (by decide +kernel)
  obtain ⟨s, hb, hs⟩ := heval
  obtain ⟨hstate, hsz⟩ := of_decide_eq_true hs
  refine ⟨s, hb, (sbrk_exact_iff (booted_valid hb).inv hstate _).mpr ?_⟩
  rw [hsz]
  decide

/-- The first process has one page and asks for two pages less. -/
theorem sbrk_negative : ∃ s s', Booted (tiny 8 (by decide)) s ∧ (s.proc 0).sz = 4096 ∧
    syscall 0 (.sbrk (-8192)) s = .ok (some 4096) s' ∧ (s'.proc 0).sz = 4096 := by
  have heval : ∃ s : Kern, Booted (tiny 8 (by decide)) s ∧ decide ((s.proc 0).sz = 4096 ∧
      wp (syscall 0 (.sbrk (-8192))) (fun _ _ => False)
        (fun r s' => r = some 4096 ∧ (s'.proc 0).sz = 4096) s) = true :=
    exists_booted 0 [] (by decide +kernel)
  obtain ⟨s, hb, hs⟩ := heval
  obtain ⟨hsz, hcall⟩ := of_decide_eq_true hs
  obtain ⟨r, s', hrun, rfl, hsz'⟩ := hcall.returns
  exact ⟨s, s', hb, hsz, hrun, hsz'⟩

end Xv6.Vm

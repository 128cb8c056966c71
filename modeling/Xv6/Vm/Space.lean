import Xv6.Vm.Table

/-! # Address spaces

A process maps its user pages from address 0 on, its trapframe and the trampoline.
The functions of `vm.c` that grow, shrink, copy and free user memory, and those of
`proc.c` that create and free a process's page table, keep this and lose no page.
-/

namespace Xv6.Vm

open Function Multiset

/-! ## `proc.c` -/

def procPagetable (trapframe : ℕ) : M (Option ℕ) := do
  match ← uvmcreate with
  | none => pure none
  | some pagetable =>
    let s ← get
    if ← mappages pagetable TRAMPOLINE PGSIZE s.image.trampoline (PTE_R ||| PTE_X) then
      if ← mappages pagetable TRAPFRAME PGSIZE trapframe (PTE_R ||| PTE_W) then
        pure (some pagetable)
      else
        uvmunmap pagetable TRAMPOLINE 1 false
        uvmfree pagetable 0
        pure none
    else
      uvmfree pagetable 0
      pure none

def procFreepagetable (pagetable sz : ℕ) : M Unit := do
  uvmunmap pagetable TRAMPOLINE 1 false
  uvmunmap pagetable TRAPFRAME 1 false
  uvmfree pagetable sz

variable {s s' : Mem} {X H O O' : Multiset ℕ} {q r n p v va pa perm e sz oldsz newsz : ℕ} {m m' : ℕ → ℕ}

/-! ## Sizes -/

/-- The pages of a memory of `sz` bytes. -/
def pg (sz : ℕ) : ℕ := (sz + PGSIZE - 1) / PGSIZE

abbrev VTRAP : ℕ := TRAPFRAME / PGSIZE
abbrev VTRAMP : ℕ := TRAMPOLINE / PGSIZE

theorem PGROUNDUP_eq (h : sz < 2 ^ 63) : PGROUNDUP sz = pg sz * PGSIZE := by
  unfold PGROUNDUP pg PGSIZE
  rw [Nat.mod_eq_of_lt (by omega)]

theorem pg_mul (n : ℕ) : pg (n * PGSIZE) = n := by
  unfold pg PGSIZE
  omega

theorem pg_mono (h : oldsz ≤ newsz) : pg oldsz ≤ pg newsz := by
  unfold pg
  exact Nat.div_le_div_right (by omega)

theorem pagesTo_pg (n newsz : ℕ) : pagesTo (n * PGSIZE) newsz = pg newsz - n := by
  unfold pagesTo pg PGSIZE
  omega

/-! ## Maps -/

/-- `k` user pages, the trapframe `tf` and the trampoline are mapped, and nothing else. -/
structure Maps (L : Layout) (tf k : ℕ) (m : ℕ → ℕ) : Prop where
  le : k ≤ 2 ^ 15
  user : ∀ v < k, m v &&& PTE_V ≠ 0
  trapframe : m VTRAP = mkPte tf (PTE_R ||| PTE_W)
  trampoline : m VTRAMP = mkPte L.trampoline (PTE_R ||| PTE_X)
  free : ∀ v < NVPN, k ≤ v → v ≠ VTRAP → v ≠ VTRAMP → m v = 0

theorem mapped_add (m : ℕ → ℕ) (v j k : ℕ) : mapped m v (j + k) = mapped m v j + mapped m (v + j) k := by
  induction j generalizing v with
  | zero => rw [mapped_zero, Nat.zero_add, Nat.add_zero, zero_add]
  | succ j ih =>
    rw [show j + 1 + k = j + k + 1 by omega, mapped_succ, ih, mapped_succ, cons_add,
      show v + 1 + j = v + (j + 1) by omega]

/-- One more page is mapped. -/
theorem mapped_update {j : ℕ} (hpa : pa % PGSIZE = 0) (hp : perm < 1024) :
    mapped (update m (v + j) (mkPte pa perm)) v (j + 1) = pa ::ₘ mapped m v j := by
  rw [mapped_add, mapped_succ, mapped_zero, update_self, PTE2PA_mk hpa hp,
    mapped_congr fun i hi => update_of_ne (show v + i ≠ v + j by omega) _ _,
    add_cons, add_zero]

/-! ## Shrinking -/

theorem wp_uvmdealloc (h : Table s r m O) (hle : pg oldsz ≤ 2 ^ 20)
    (ho : Own s (O + (mapped m (pg newsz) (pg oldsz - pg newsz) + H)))
    (hm : ∀ v, pg newsz ≤ v → v < pg oldsz → m v &&& PTE_V ≠ 0) :
    wp (uvmdealloc r oldsz newsz) NoPanic (fun z s' => Own s' (O + H) ∧ Frame s s' H ∧
      Table s' r (cleared m (pg newsz) (pg oldsz - pg newsz)) O ∧ z = min oldsz newsz) s := by
  have hsz : oldsz < 2 ^ 63 := by
    unfold pg PGSIZE at hle
    omega
  unfold uvmdealloc
  split
  next hc =>
    have hz : pg oldsz - pg newsz = 0 := Nat.sub_eq_zero_of_le (pg_mono hc)
    rw [hz, mapped_zero, zero_add] at ho
    rw [hz]
    exact ⟨ho, .refl s H, (cleared_zero m _).symm ▸ h, (min_eq_left hc).symm⟩
  next hc =>
    have hlt : newsz < oldsz := Nat.lt_of_not_le hc
    have hsub : PGROUNDUP oldsz - PGROUNDUP newsz = (pg oldsz - pg newsz) * PGSIZE := by
      rw [PGROUNDUP_eq hsz, PGROUNDUP_eq (hlt.trans hsz), Nat.sub_mul]
    have hmin : newsz = min oldsz newsz := (min_eq_right hlt.le).symm
    rw [wp_bind, wp_runIf]
    refine ⟨fun _ => ?_, fun hcc => ?_⟩
    · rw [hsub, Nat.mul_div_cancel _ (by decide), PGROUNDUP_eq (hlt.trans hsz)]
      refine (wp_uvmunmap true h ho ?_ fun j hj => ?_).post fun _ s' h' => ?_
      · have := pg_mono hlt.le
        unfold MAXVA PGSIZE
        omega
      · exact hm _ (by omega) (by omega)
      · exact ⟨h'.1, h'.2.1, h'.2.2, hmin⟩
    · have hz : pg oldsz - pg newsz = 0 := by
        rw [PGROUNDUP_eq hsz, PGROUNDUP_eq (hlt.trans hsz)] at hcc
        unfold PGSIZE at hcc
        omega
      rw [hz, mapped_zero, zero_add] at ho
      rw [hz]
      exact ⟨ho, .refl s H, (cleared_zero m _).symm ▸ h, hmin⟩

/-! ## Growing -/

/-- `k` pages from `v` on are mapped with the flags `perm`, the other entries are as before. -/
structure Grown (m m' : ℕ → ℕ) (v k perm : ℕ) : Prop where
  flags : ∀ x, v ≤ x → x < v + k → PTE_FLAGS (m' x) = perm ||| PTE_V
  other : ∀ x, x < v ∨ v + k ≤ x → m' x = m x

theorem valid_of_flags (h : PTE_FLAGS e = perm ||| PTE_V) : e &&& PTE_V ≠ 0 := by
  rw [valid_flags, h, Nat.and_or_distrib_right]
  simp

namespace Grown

variable {k : ℕ}

theorem zero (m : ℕ → ℕ) (v perm : ℕ) : Grown m m v 0 perm :=
  ⟨fun _ h₁ h₂ => absurd h₂ (by omega), fun _ _ => rfl⟩

theorem valid (h : Grown m m' v k perm) {x : ℕ} (h₁ : v ≤ x) (h₂ : x < v + k) :
    m' x &&& PTE_V ≠ 0 := valid_of_flags (h.flags x h₁ h₂)

theorem cons {pa : ℕ} (h : Grown (update m v (mkPte pa perm)) m' (v + 1) k perm)
    (hp : perm < 1024) : Grown m m' v (k + 1) perm := by
  refine ⟨fun x h₁ h₂ => ?_, fun x hx => ?_⟩
  · rcases eq_or_ne x v with rfl | hne
    · rw [h.other x (.inl (by omega)), update_self, PTE_FLAGS_mk hp]
    · exact h.flags x (by omega) (by omega)
  · rw [h.other x (by omega), update_of_ne (by omega)]

end Grown

/-- `k` pages from `v` on are mapped to pages of zeros. -/
def Zeroed (s : Mem) (m : ℕ → ℕ) (v k : ℕ) : Prop :=
  ∀ x, v ≤ x → x < v + k → s.page (PTE2PA (m x)) = fun _ => 0

/-- `j` pages from page `n₀` on are mapped, with room above them. -/
structure Adding (s : Mem) (r : ℕ) (m : ℕ → ℕ) (O H : Multiset ℕ) (n₀ j : ℕ) : Prop where
  table : Table s r m O
  own : Own s (O + (mapped m n₀ j + H))
  zero : ∀ v, n₀ + j ≤ v → v < VTRAP → m v = 0
  valid : ∀ i < j, m (n₀ + i) &&& PTE_V ≠ 0

namespace Adding

variable {n₀ j k : ℕ} {s₁ : Mem} {b : Page}

theorem start (h : Table s r m O) (ho : Own s (O + H)) (hz : ∀ v, n₀ ≤ v → v < VTRAP → m v = 0) :
    Adding s r m O H n₀ 0 where
  table := h
  own := by
    rw [mapped_zero, zero_add]
    exact ho
  zero := hz
  valid _ hi := absurd hi (Nat.not_lt_zero _)

/-- The next page goes to the end, or back to the free list. -/
theorem wp_mappages (h : Adding s r m O H n₀ j) (hlt : n₀ + j < VTRAP) (hp : perm < 1024)
    (hleaf : Leaf perm) (ho : Own s₁ (pa ::ₘ (O + (mapped m n₀ j + H))))
    (hf : Frame s s₁ (O + (mapped m n₀ j + H))) :
    wp (mappages r ((n₀ + j) * PGSIZE) PGSIZE pa perm) NoPanic (fun ok s₂ =>
      Frame s s₂ (mapped m n₀ j + H) ∧ if ok then s₂.page pa = b ∧
        ∃ O₂, Adding s₂ r (update m (n₀ + j) (mkPte pa perm)) O₂ H n₀ (j + 1)
      else wp (kfree pa) NoPanic (fun _ s₃ => Frame s s₃ H ∧ ∃ O₂, Adding s₃ r m O₂ H n₀ j) s₂)
      (s₁.put pa b) := by
  have hpa := ho.lt (mem_cons_self pa _)
  have hpal := (ho.mem (mem_cons_self pa _)).1
  have hH : H ⊆ mapped m n₀ j + H := fun x hx => mem_add.mpr (.inr hx)
  have hf₁ : Frame s (s₁.put pa b) (O + (mapped m n₀ j + H)) := hf.trans ho.frame_put
  rw [← add_cons] at ho
  refine (Vm.wp_mappages (h.table.congr hf₁ fun x hx => mem_add.mpr (.inl hx)) ho.put ?_
    (by rw [h.zero _ le_rfl hlt]; simp) hp hleaf hpa).post fun ok s₂ ⟨O₂, ho₂, hf₂, ht₂⟩ => ?_
  · unfold VTRAP TRAPFRAME TRAMPOLINE at hlt
    unfold MAXVA PGSIZE at *
    omega
  have hf' : Frame s s₂ (mapped m n₀ j + H) :=
    (hf₁.mono fun y hy => mem_add.mpr (.inr hy)).trans (hf₂.mono fun y hy => mem_cons_of_mem hy)
  refine ⟨hf', ?_⟩
  cases ok with
  | false =>
    rw [add_cons] at ho₂
    refine (wp_kfree ho₂).post fun _ s₃ ⟨ho₃, hf₃⟩ => ⟨?_, O₂, ?_, ho₃, h.zero, h.valid⟩
    · exact (hf'.mono hH).trans (hf₃.mono fun x hx => mem_add.mpr (.inr (hH hx)))
    · exact TableOf.congr ht₂ hf₃ fun x hx => mem_add.mpr (.inl hx)
  | true =>
    refine ⟨(hf₂.page _ (mem_cons_self _ _)).trans put_page_self, O₂, ht₂, ?_, fun v h₁ h₂ => ?_,
      fun i hi => ?_⟩
    · rw [mapped_update hpal hp, cons_add]
      exact ho₂
    · rw [update_of_ne (by omega)]
      exact h.zero v (by omega) h₂
    · rcases Nat.lt_succ_iff_lt_or_eq.mp hi with hi | rfl
      · rw [update_of_ne (by omega)]
        exact h.valid i hi
      · rw [update_self]
        exact valid_mk hp

/-- Without the last page the map is as it was. -/
theorem cleared_update (h : Adding s r m O H n₀ j) (hlt : n₀ + j < VTRAP) :
    cleared (update m (n₀ + j) e) n₀ (j + 1) = cleared m n₀ j := by
  have hz := h.zero _ le_rfl hlt
  funext x
  unfold cleared
  grind

end Adding

theorem wp_uvmallocFrom {n₀ j k xperm : ℕ} (hn : n₀ ≤ 2 ^ 16) (hx : xperm < 1024)
    (h : Adding s r m O H n₀ j) :
    wp (uvmallocFrom r (n₀ * PGSIZE) xperm k ((n₀ + j) * PGSIZE)) NoPanic (fun b s' => ∃ O' m',
      Frame s s' H ∧ Table s' r m' O' ∧ if b then
        Own s' (O' + (mapped m' n₀ (j + k) + H)) ∧
          Grown m m' (n₀ + j) k (PTE_R ||| PTE_U ||| xperm) ∧
          Frame s s' (mapped m n₀ j + H) ∧ Zeroed s' m' (n₀ + j) k
      else Own s' (O' + H) ∧ m' = cleared m n₀ j) s := by
  have hperm : PTE_R ||| PTE_U ||| xperm < 1024 := Nat.or_lt_two_pow (n := 10) (by decide) hx
  have hleaf : Leaf (PTE_R ||| PTE_U ||| xperm) := by
    rw [Leaf, Nat.and_or_distrib_right]
    exact fun hc => absurd (Nat.or_eq_zero_iff.mp hc).1 (by decide)
  induction k generalizing s m O j with
  | zero => exact ⟨O, m, .refl s H, h.table, h.own, .zero m _ _, .refl s _, fun _ _ _ => by omega⟩
  | succ k ih =>
    have hj : j ≤ 2 ^ 15 := by
      have := h.own.card_le
      rw [card_add, card_add, card_mapped] at this
      omega
    have hlt : n₀ + j < VTRAP := by
      unfold VTRAP TRAPFRAME TRAMPOLINE MAXVA PGSIZE
      omega
    have hH : H ⊆ mapped m n₀ j + H := fun x hx => mem_add.mpr (.inr hx)
    -- every failure unmaps the pages that were added
    have hback : ∀ s₁ O₁, Frame s s₁ H → Adding s₁ r m O₁ H n₀ j →
        wp (uvmdealloc r ((n₀ + j) * PGSIZE) (n₀ * PGSIZE)) NoPanic (fun _ s' => ∃ O' m',
          Frame s s' H ∧ Table s' r m' O' ∧ Own s' (O' + H) ∧ m' = cleared m n₀ j) s₁ := by
      intro s₁ O₁ hf₁ h₁
      have hsub : pg ((n₀ + j) * PGSIZE) - pg (n₀ * PGSIZE) = j := by
        rw [pg_mul, pg_mul]
        omega
      refine (wp_uvmdealloc h₁.table (by rw [pg_mul]; omega) (H := H) ?_ fun v hv₁ hv₂ => ?_).post
        fun _ s' h' => ?_
      · rw [hsub, pg_mul]
        exact h₁.own
      · rw [pg_mul] at hv₁ hv₂
        have := h₁.valid (v - n₀) (by omega)
        rwa [show n₀ + (v - n₀) = v by omega] at this
      · rw [hsub, pg_mul] at h'
        exact ⟨O₁, _, hf₁.trans h'.2.1, h'.2.2.1, h'.1, rfl⟩
    rw [uvmallocFrom, wp_bind]
    refine (wp_kalloc h.own).post fun o s₁ h₁ => ?_
    cases o with
    | none =>
      subst h₁
      rw [wp_bind]
      exact hback _ O (.refl _ H) h
    | some pa =>
      have hpal := (h₁.1.mem (mem_cons_self pa _)).1
      rw [wp_bind, wp_memset, wp_bind]
      refine (h.wp_mappages hlt hperm hleaf h₁.1 h₁.2).post fun b s₂ ⟨hf, h₂⟩ => ?_
      cases b with
      | false =>
        rw [if_neg (by decide), wp_bind]
        refine wp.post h₂ fun _ s₃ ⟨hf₃, O₃, h₃⟩ => ?_
        rw [wp_bind]
        exact hback s₃ O₃ hf₃ h₃
      | true =>
        rw [if_pos rfl, show (n₀ + j) * PGSIZE + PGSIZE = (n₀ + (j + 1)) * PGSIZE by ring]
        obtain ⟨hpage, O₂, h₂⟩ := h₂
        refine (ih h₂).post fun b s' ⟨O', m', hf', ht', hres⟩ => ?_
        refine ⟨O', m', (hf.mono hH).trans hf', ht', ?_⟩
        cases b with
        | false => exact ⟨hres.1, hres.2.trans (h.cleared_update hlt)⟩
        | true =>
          obtain ⟨ho', hg', hkeep, hzero⟩ := hres
          rw [mapped_update hpal hperm, cons_add] at hkeep
          rw [show j + (k + 1) = j + 1 + k by omega]
          refine ⟨ho', hg'.cons hperm, hf.trans (hkeep.mono fun y hy => mem_cons_of_mem hy),
            fun x h₁ h₂ => ?_⟩
          rcases eq_or_ne x (n₀ + j) with rfl | hne
          · -- the page that was added first
            rw [hg'.other _ (.inl (by omega)), update_self, PTE2PA_mk hpal hperm,
              hkeep.page _ (mem_cons_self _ _), hpage]
          · exact hzero x (by omega) (by omega)

/-- `uvmalloc` maps the pages up to `newsz`, or fails and leaves the map as it was. -/
theorem wp_uvmalloc {xperm : ℕ} (hn : pg oldsz ≤ 2 ^ 16) (hx : xperm < 1024) (h : Table s r m O)
    (ho : Own s (O + H)) (hz : ∀ v, pg oldsz ≤ v → v < VTRAP → m v = 0) :
    wp (uvmalloc r oldsz newsz xperm) NoPanic (fun z s' => ∃ O' m', Frame s s' H ∧
      Table s' r m' O' ∧ (if newsz < oldsz then Own s' (O' + H) ∧ m' = m ∧ z = oldsz
        else (Own s' (O' + (mapped m' (pg oldsz) (pg newsz - pg oldsz) + H)) ∧
          Grown m m' (pg oldsz) (pg newsz - pg oldsz) (PTE_R ||| PTE_U ||| xperm) ∧
          Zeroed s' m' (pg oldsz) (pg newsz - pg oldsz) ∧ z = newsz) ∨
          Own s' (O' + H) ∧ m' = m ∧ z = 0)) s := by
  have hsz : oldsz < 2 ^ 63 := by
    unfold pg PGSIZE at hn
    omega
  unfold uvmalloc
  split
  next hc => exact ⟨O, m, .refl s H, h, ho, rfl, rfl⟩
  next hc =>
    rw [PGROUNDUP_eq hsz, pagesTo_pg, wp_bind]
    have hloop := wp_uvmallocFrom (k := pg newsz - pg oldsz) hn hx (.start h ho hz)
    rw [Nat.add_zero] at hloop
    refine hloop.post fun b s' h' => ?_
    obtain ⟨O', m', hf', ht', hres⟩ := h'
    cases b with
    | false =>
      simp only [Bool.false_eq_true, if_false] at hres ⊢
      rw [cleared_zero] at hres
      exact ⟨O', m', hf', ht', .inr ⟨hres.1, hres.2, rfl⟩⟩
    | true =>
      simp only [if_true] at hres ⊢
      rw [Nat.zero_add] at hres
      exact ⟨O', m', hf', ht', .inl ⟨hres.1, hres.2.1, hres.2.2.2, rfl⟩⟩

/-! ## Freeing -/

theorem wp_uvmfree (hn : pg sz ≤ 2 ^ 16) (h : Table s r m O)
    (ho : Own s (O + (mapped m 0 (pg sz) + H))) (hm : ∀ v < pg sz, m v &&& PTE_V ≠ 0)
    (hz : ∀ v < NVPN, pg sz ≤ v → m v = 0) :
    wp (uvmfree r sz) NoPanic (fun _ s' => Own s' H ∧ Frame s s' H) s := by
  have hsz : sz < 2 ^ 63 := by
    unfold pg PGSIZE at hn
    omega
  have hfree : ∀ s₁, Own s₁ (O + H) → Frame s s₁ H → Table s₁ r (cleared m 0 (pg sz)) O →
      wp (freewalk 3 r) NoPanic (fun _ s' => Own s' H ∧ Frame s s' H) s₁ := by
    intro s₁ ho₁ hf₁ ht₁
    refine (wp_freewalk_table ht₁ ho₁ fun v hv => ?_).post fun _ s' h' => ⟨h'.1, hf₁.trans h'.2⟩
    unfold cleared
    split
    · simp
    · rw [hz v hv (by omega)]
      simp
  rw [uvmfree, wp_bind, wp_runIf]
  refine ⟨fun _ => ?_, fun hc => ?_⟩
  · rw [PGROUNDUP_eq hsz, Nat.mul_div_cancel _ (by decide), ← Nat.zero_mul PGSIZE]
    refine (wp_uvmunmap true h ho ?_ fun j hj => ?_).post fun _ s₁ h₁ => ?_
    · unfold MAXVA PGSIZE
      omega
    · rw [Nat.zero_add]
      exact hm j hj
    · exact hfree s₁ h₁.1 h₁.2.1 h₁.2.2
  · obtain rfl : sz = 0 := by omega
    have hpz : pg 0 = 0 := rfl
    rw [hpz, mapped_zero, zero_add] at ho
    refine hfree s ho (.refl s H) ?_
    rw [hpz, cleared_zero]
    exact h

theorem wp_procFreepagetable {L : Layout} {tf : ℕ} (h : Table s r m O) (hm : Maps L tf (pg sz) m)
    (ho : Own s (O + (mapped m 0 (pg sz) + H))) :
    wp (procFreepagetable r sz) NoPanic (fun _ s' => Own s' H ∧ Frame s s' H) s := by
  have hle := hm.le
  have hH : H ⊆ mapped m 0 (pg sz) + H := fun x hx => mem_add.mpr (.inr hx)
  rw [procFreepagetable, wp_bind, show TRAMPOLINE = VTRAMP * PGSIZE from rfl]
  refine (wp_uvmunmap false (k := 1) h (H := mapped m 0 (pg sz) + H) ?_ (by decide)
    fun j hj => ?_).post fun _ s₁ ⟨ho₁, hf₁, ht₁⟩ => ?_
  · simpa using ho
  · obtain rfl : j = 0 := by omega
    rw [Nat.add_zero, hm.trampoline]
    exact valid_mk (by decide)
  rw [wp_bind, show TRAPFRAME = VTRAP * PGSIZE from rfl]
  refine (wp_uvmunmap false (k := 1) ht₁ (H := mapped m 0 (pg sz) + H) ?_ (by decide)
    fun j hj => ?_).post fun _ s₂ ⟨ho₂, hf₂, ht₂⟩ => ?_
  · simpa using ho₁
  · obtain rfl : j = 0 := by omega
    have hne : ¬ (VTRAMP ≤ VTRAP ∧ VTRAP < VTRAMP + 1) := by decide
    rw [Nat.add_zero, cleared, if_neg hne, hm.trapframe]
    exact valid_mk (by decide)
  -- only the user pages are left
  have huser : ∀ v < 2 ^ 16, cleared (cleared m VTRAMP 1) VTRAP 1 v = m v := fun v hv => by
    unfold cleared VTRAMP VTRAP TRAPFRAME TRAMPOLINE MAXVA PGSIZE
    rw [if_neg (by omega), if_neg (by omega)]
  refine (wp_uvmfree (hle.trans (by decide)) ht₂ ?_ (fun v hv => ?_) fun v hv hle' => ?_).post
    fun _ s' h' => ⟨h'.1, ((hf₁.mono hH).trans (hf₂.mono hH)).trans h'.2⟩
  · rw [mapped_congr fun j hj => huser _ (by omega)]
    exact ho₂
  · rw [huser v (by omega)]
    exact hm.user v hv
  · unfold cleared
    split
    · rfl
    · split
      · rfl
      · exact hm.free v hv hle' (by omega) (by omega)

/-! ## Creating -/

theorem wp_uvmcreate (ho : Own s H) : wp uvmcreate NoPanic (fun o s' => match o with
    | none => s' = s
    | some r => Own s' (r ::ₘ H) ∧ Frame s s' H ∧ Table s' r (fun _ => 0) {r}) s := by
  rw [uvmcreate, wp_bind]
  refine (wp_kalloc ho).post fun o s₁ h₁ => ?_
  cases o with
  | none => exact h₁
  | some r =>
    rw [wp_bind, wp_memset]
    exact ⟨h₁.1.put, h₁.2.trans h₁.1.frame_put, TableOf.fresh links_kind pte_put_zero⟩

theorem wp_procPagetable {tf : ℕ} (ho : Own s H) (htf : tf < 2 ^ 56) :
    wp (procPagetable tf) NoPanic (fun o s' => Frame s s' H ∧ match o with
      | none => Own s' H
      | some r => ∃ O m, Own s' (O + H) ∧ Table s' r m O ∧ Maps s.image tf 0 m) s := by
  have hzero : ¬ (0 : ℕ) &&& PTE_V ≠ 0 := by decide
  rw [procPagetable, wp_bind]
  refine (wp_uvmcreate ho).post fun o s₁ h₁ => ?_
  cases o with
  | none =>
    subst h₁
    exact ⟨.refl _ H, ho⟩
  | some r =>
    obtain ⟨ho₁, hf₁, ht₁⟩ := h₁
    rw [← singleton_add] at ho₁
    -- a table without user pages is freed
    have hundo : ∀ s₂ O₂ m₂, Frame s s₂ H → Table s₂ r m₂ O₂ → Own s₂ (O₂ + H) →
        (∀ v, m₂ v = 0) → wp (uvmfree r 0) NoPanic (fun _ s' => Frame s s' H ∧ Own s' H) s₂ := by
      intro s₂ O₂ m₂ hf₂ ht₂ ho₂ hz
      have hp : pg 0 = 0 := rfl
      refine (wp_uvmfree (by rw [hp]; decide) ht₂ ?_ (by rw [hp]; simp) fun v _ _ => hz v).post
        fun _ s' h' => ⟨hf₂.trans h'.2, h'.1⟩
      rw [hp, mapped_zero, zero_add]
      exact ho₂
    rw [wp_bind, wp_get, wp_bind, show TRAMPOLINE = VTRAMP * PGSIZE from rfl, hf₁.image]
    refine (wp_mappages ht₁ ho₁ (by decide) hzero (by decide) (by decide)
      s.image.trampoline_lt).post fun b s₂ h₂ => ?_
    obtain ⟨O₂, ho₂, hf₂, ht₂⟩ := h₂
    cases b with
    | false =>
      rw [if_neg (by decide), wp_bind]
      exact hundo s₂ O₂ _ (hf₁.trans hf₂) ht₂ ho₂ fun _ => rfl
    | true =>
      simp only [if_true] at ht₂ ⊢
      rw [wp_bind, show TRAPFRAME = VTRAP * PGSIZE from rfl]
      have hne : VTRAP ≠ VTRAMP := by decide
      refine (wp_mappages ht₂ ho₂ (by decide) (by rw [update_of_ne hne]; exact hzero)
        (by decide) (by decide) htf).post fun b s₃ h₃ => ?_
      obtain ⟨O₃, ho₃, hf₃, ht₃⟩ := h₃
      have hf := (hf₁.trans hf₂).trans hf₃
      cases b with
      | false =>
        simp only [Bool.false_eq_true, if_false] at ht₃ ⊢
        rw [wp_bind]
        refine (wp_uvmunmap false (k := 1) ht₃ (H := H) (by simpa using ho₃) (by decide)
          fun j hj => ?_).post fun _ s₄ h₄ => ?_
        · obtain rfl : j = 0 := by omega
          rw [Nat.add_zero, update_self]
          exact valid_mk (by decide)
        · obtain ⟨ho₄, hf₄, ht₄⟩ := h₄
          rw [wp_bind]
          refine hundo s₄ O₃ _ (hf.trans hf₄) ht₄ ho₄ fun v => ?_
          unfold cleared
          split
          · rfl
          · rw [update_of_ne (by omega)]
      | true =>
        simp only [if_true] at ht₃ ⊢
        refine ⟨hf, O₃, _, ho₃, ht₃, by decide, fun v hv => absurd hv v.not_lt_zero, update_self _ _ _, ?_, ?_⟩
        · rw [update_of_ne hne.symm, update_self]
        · intro v _ _ h₁ h₂
          rw [update_of_ne h₁, update_of_ne h₂]

/-! ## Copying -/

/-- The pages from `j` to `k` are mapped by `m'` with the flags that they have in `mo`, to pages with
the contents that those of `mo` had, as far as these are in `H`. -/
def Duplicated (s s' : Mem) (H : Multiset ℕ) (mo m' : ℕ → ℕ) (j k : ℕ) : Prop :=
  ∀ v, j ≤ v → v < k → PTE_FLAGS (m' v) = PTE_FLAGS (mo v) ∧
    (PTE2PA (mo v) ∈ H → s'.page (PTE2PA (m' v)) = s.page (PTE2PA (mo v)))

theorem flags_or_valid (h : e &&& PTE_V ≠ 0) : PTE_FLAGS e ||| PTE_V = PTE_FLAGS e := by
  rw [and_one] at h
  have h₁ : PTE_FLAGS e / 2 * 2 + 1 = PTE_FLAGS e := by
    unfold PTE_FLAGS
    omega
  rw [← h₁, show PTE_FLAGS e / 2 * 2 = 2 ^ 1 * (PTE_FLAGS e / 2) by ring,
    Nat.two_pow_add_eq_or_of_lt (by decide), Nat.or_assoc]
  rfl

theorem wp_uvmcopyFrom {old k j : ℕ} {mo : ℕ → ℕ} {Oo : Multiset ℕ} (hold : Table s old mo Oo)
    (hOo : Oo ⊆ H) (hle : j + k ≤ 2 ^ 15) (hmo : ∀ v < j + k, mo v &&& PTE_V ≠ 0)
    (h : Adding s r m O H 0 j) :
    wp (uvmcopyFrom old r k (j * PGSIZE)) NoPanic (fun b s' => ∃ O' m', Frame s s' H ∧
      Table s' r m' O' ∧ if b then Own s' (O' + (mapped m' 0 (j + k) + H)) ∧
        (∀ v < j + k, m' v &&& PTE_V ≠ 0) ∧ (∀ v, j + k ≤ v → m' v = m v) ∧
        (∀ v < j, m' v = m v) ∧ Frame s s' (mapped m 0 j + H) ∧ Duplicated s s' H mo m' j (j + k)
      else Own s' (O' + H) ∧ m' = cleared m 0 j) s := by
  induction k generalizing s m O j with
  | zero =>
    exact ⟨O, m, .refl s H, h.table, h.own, fun v hv => Nat.zero_add v ▸ h.valid v hv,
      fun _ _ => rfl, fun _ _ => rfl, .refl s _, fun _ _ _ => by omega⟩
  | succ k ih =>
    have hj : j * PGSIZE < MAXVA := by
      unfold MAXVA PGSIZE
      omega
    have hjv : j < NVPN := by
      unfold NVPN NPTE
      omega
    have hlt : 0 + j < VTRAP := by
      unfold VTRAP TRAPFRAME TRAMPOLINE MAXVA PGSIZE
      omega
    have hvalid := hmo j (by omega)
    have hH : H ⊆ mapped m 0 j + H := fun x hx => mem_add.mpr (.inr hx)
    rw [uvmcopyFrom, wp_bind]
    refine wp_walk_find hj ?_
    rw [Nat.mul_div_cancel _ (by decide)]
    cases hl : tree.find s.pte 2 old j with
    | none => exact absurd (by rw [hold.of_find_none hjv hl]; rfl) hvalid
    | some l =>
      have hleaf := leaf_flags.mp (hold.leaf hjv hvalid)
      have hflags : PTE_FLAGS (mo j) < 1024 := Nat.mod_lt _ (by decide)
      -- every failure unmaps the pages that were copied
      have hback : ∀ s₁ O₁, Frame s s₁ H → Adding s₁ r m O₁ H 0 j →
          wp (uvmunmap r 0 j true) NoPanic (fun _ s' => ∃ O' m',
            Frame s s' H ∧ Table s' r m' O' ∧ Own s' (O' + H) ∧ m' = cleared m 0 j) s₁ := by
        intro s₁ O₁ hf₁ h₁
        rw [← Nat.zero_mul PGSIZE]
        refine (wp_uvmunmap true h₁.table h₁.own (by unfold MAXVA PGSIZE; omega) h₁.valid).post
          fun _ s' h' => ?_
        exact ⟨O₁, _, hf₁.trans h'.2.1, h'.2.2, h'.1, rfl⟩
      rw [wp_bind, wp_readPte, hold.entry hjv hl, wp_bind, wp_stopIf]
      refine ⟨fun hc => absurd hc hvalid, fun _ => ?_⟩
      rw [wp_bind]
      refine (wp_kalloc h.own).post fun o s₁ h₁ => ?_
      cases o with
      | none =>
        subst h₁
        rw [wp_bind]
        exact hback _ O (.refl _ H) h
      | some pa =>
        have hpal := (h₁.1.mem (mem_cons_self pa _)).1
        have hmap := h.wp_mappages (b := s₁.page (PTE2PA (mo j))) hlt hflags hleaf h₁.1 h₁.2
        have hupd := mapped_update (m := m) (v := 0) (j := j) hpal hflags
        rw [Nat.zero_add] at hmap hupd
        rw [wp_bind, wp_get, wp_bind, wp_setPage, wp_bind]
        refine hmap.post fun b s₂ ⟨hf, h₂⟩ => ?_
        cases b with
        | false =>
          rw [if_neg (by decide), wp_bind]
          refine wp.post h₂ fun _ s₃ ⟨hf₃, O₃, h₃⟩ => ?_
          rw [wp_bind]
          exact hback s₃ O₃ hf₃ h₃
        | true =>
          obtain ⟨hpage, O₂, h₂⟩ := h₂
          rw [if_pos rfl, show j * PGSIZE + PGSIZE = (j + 1) * PGSIZE by ring]
          have hmo' : ∀ v, v < j + 1 + k → mo v &&& PTE_V ≠ 0 := fun v hv => hmo v (by omega)
          refine (ih (hold.congr (hf.mono hH) hOo) (by omega) hmo' h₂).post
            fun b s' ⟨O', m', hf', ht', hres⟩ => ?_
          refine ⟨O', m', (hf.mono hH).trans hf', ht', ?_⟩
          cases b with
          | false =>
            have hclear := h.cleared_update (e := mkPte pa (PTE_FLAGS (mo j))) hlt
            rw [Nat.zero_add] at hclear
            exact ⟨hres.1, hres.2.trans hclear⟩
          | true =>
            obtain ⟨ho', hv', hother, hsame, hkeep, hdup⟩ := hres
            rw [hupd, cons_add] at hkeep
            rw [show j + (k + 1) = j + 1 + k by omega]
            refine ⟨ho', hv', fun v hv => (hother v hv).trans ?_, fun v hv => ?_,
              hf.trans (hkeep.mono fun y hy => mem_cons_of_mem hy), fun v h₁' h₂' => ?_⟩
            · exact update_of_ne (by omega) _ _
            · rw [hsame v (by omega), update_of_ne (by omega)]
            · rcases eq_or_ne v j with rfl | hne
              · -- the page that was copied first
                rw [hsame v (by omega), update_self, PTE_FLAGS_mk hflags, PTE2PA_mk hpal hflags]
                refine ⟨flags_or_valid hvalid, fun hmem => ?_⟩
                rw [hkeep.page _ (mem_cons_self _ _), hpage]
                exact h₁.2.page _ (mem_add.mpr (.inr (hH hmem)))
              · obtain ⟨hfl, hcopy⟩ := hdup v (by omega) h₂'
                exact ⟨hfl, fun hmem => (hcopy hmem).trans (hf.page _ (hH hmem))⟩

/-- `uvmcopy` maps as many pages in the new table as the old one has, or none. -/
theorem wp_uvmcopy {old : ℕ} {mo : ℕ → ℕ} {Oo : Multiset ℕ} (hold : Table s old mo Oo)
    (hOo : Oo ⊆ H) (hle : pg sz ≤ 2 ^ 15) (hmo : ∀ v < pg sz, mo v &&& PTE_V ≠ 0)
    (h : Table s r m O) (ho : Own s (O + H)) (hz : ∀ v < VTRAP, m v = 0) :
    wp (uvmcopy old r sz) NoPanic (fun b s' => ∃ O' m', Frame s s' H ∧ Table s' r m' O' ∧
      if b then Own s' (O' + (mapped m' 0 (pg sz) + H)) ∧ (∀ v < pg sz, m' v &&& PTE_V ≠ 0) ∧
        (∀ v, pg sz ≤ v → m' v = m v) ∧ Duplicated s s' H mo m' 0 (pg sz)
      else Own s' (O' + H) ∧ m' = m) s := by
  have hpages : pagesTo 0 sz = pg sz := by simpa using pagesTo_pg 0 sz
  have hloop := wp_uvmcopyFrom (j := 0) (k := pg sz) hold hOo (by omega) (by simpa using hmo)
    (.start h ho fun v _ => hz v)
  rw [Nat.zero_mul, Nat.zero_add, cleared_zero] at hloop
  rw [uvmcopy, hpages]
  refine hloop.post fun b s' h' => ?_
  obtain ⟨O', m', hf', ht', hres⟩ := h'
  refine ⟨O', m', hf', ht', ?_⟩
  cases b with
  | false => exact hres
  | true => exact ⟨hres.1, hres.2.1, hres.2.2.1, hres.2.2.2.2.2⟩

end Xv6.Vm

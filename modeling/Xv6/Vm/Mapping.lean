import Xv6.Logic.Steps
import Xv6.Vm.Table

/-! # A page table as a map

Single pages are mapped in and unmapped from one page table, while other kernel
code allocates, frees and writes the pages that are not the table's. What `walk`
finds is the map that the history of these operations says.
-/

namespace Xv6.Vm

open Function

/-- The page and the flags of an entry that passes the test of `PTE_V`. -/
def decode (pte : ℕ) : Option (ℕ × ℕ) :=
  if pte &&& PTE_V = 0 then none else some (PTE2PA pte, PTE_FLAGS pte)

/-- `walk(pagetable, va, 0)` followed by the test of the entry. -/
def translate (pagetable va : ℕ) : M (Option (ℕ × ℕ)) := do
  match ← walk pagetable va false with
  | none => pure none
  | some l =>
    let pte ← readPte l
    pure (decode pte)

inductive Edit
  /-- `mappages` of one page, with its success. -/
  | map (va pa perm : ℕ) (ok : Bool)
  /-- `uvmunmap` of one page that is not freed. -/
  | unmap (va : ℕ)
  /-- Kernel code that does not touch the table. -/
  | other

/-- The address of a page that a page table can map. -/
def PageAddr (va : ℕ) : Prop := va % PGSIZE = 0 ∧ va < MAXVA

instance (va : ℕ) : Decidable (PageAddr va) := inferInstanceAs (Decidable (_ ∧ _))

namespace Edit

/-- A page is mapped where none is and unmapped where one is. Other code leaves the pages of the
table alone and never finds one of them on the free list. -/
def Step (r : ℕ) (s : Mem) : Edit → Mem → Prop
  | map va pa perm ok, s' => PageAddr va ∧ pa < 2 ^ 64 ∧ perm < 1024 ∧
      translate r va s = .ok none s ∧ mappages r va PGSIZE pa perm s = .ok ok s'
  | unmap va, s' => PageAddr va ∧ (∃ x, translate r va s = .ok (some x) s) ∧
      uvmunmap r va 1 false s = .ok () s'
  | other, s' => s'.image = s.image ∧ (∀ q ∈ tree.nodes s.pte 2 r, s'.page q = s.page q) ∧
      ∃ X, Own s' (tree.nodes s.pte 2 r + X)

/-- The page whose mapping changes. -/
def target : Edit → Option ℕ
  | map va _ _ true | unmap va => some va
  | map _ _ _ false | other => none

/-- What an operation does to the map from page addresses to pages and flags. -/
def apply (m : ℕ → Option (ℕ × ℕ)) : Edit → ℕ → Option (ℕ × ℕ)
  | map va pa perm true => update m va (some (PGROUNDDOWN pa, perm ||| PTE_V))
  | unmap va => update m va none
  | map _ _ _ false | other => m

theorem apply_of_ne {m : ℕ → Option (ℕ × ℕ)} {e : Edit} {va : ℕ} (h : e.target ≠ some va) :
    e.apply m va = m va := by
  rcases e with ⟨va', pa, perm, _ | _⟩ | va' | _
  · rfl
  · exact update_of_ne (fun he => h (congrArg some he.symm)) ..
  · exact update_of_ne (fun he => h (congrArg some he.symm)) ..
  · rfl

end Edit

/-- The map after some operations on an empty table. -/
def contents (l : List Edit) : ℕ → Option (ℕ × ℕ) := l.foldl Edit.apply fun _ => none

variable {s s' t : Mem} {r va pa perm e : ℕ} {m : ℕ → ℕ} {μ : ℕ → Option (ℕ × ℕ)}
  {O : Multiset ℕ} {l : List Edit}

theorem decode_zero : decode 0 = none := rfl

theorem decode_eq_none : decode e = none ↔ ¬ e &&& PTE_V ≠ 0 := by
  unfold decode
  split <;> simp_all

theorem decode_mk (hp : perm < 1024) :
    decode (mkPte pa perm) = some (PGROUNDDOWN pa, perm ||| PTE_V) := by
  have h := or_lt hp
  have hpa : PTE2PA (mkPte pa perm) = PGROUNDDOWN pa := by
    rw [mkPte, mk_pte_eq hp, PTE2PA, PGROUNDDOWN]
    unfold PGSIZE
    omega
  rw [decode, if_neg (valid_mk hp), hpa, PTE_FLAGS_mk hp]

/-- The table at `r` shows the map `μ`; its pages are allocated. -/
structure Shows (s : Mem) (r : ℕ) (μ : ℕ → Option (ℕ × ℕ)) (m : ℕ → ℕ) (O : Multiset ℕ) :
    Prop where
  own : ∃ X, Own s (O + X)
  table : TableOf (fun _ _ => True) s r m O
  decode : ∀ v < NVPN, Vm.decode (m v) = μ (v * PGSIZE)

theorem links_true : Links fun _ _ => True := ⟨fun _ => trivial, fun _ _ => trivial⟩

theorem PageAddr.exists_page (h : PageAddr va) :
    ∃ v, va = v * PGSIZE ∧ v < NVPN ∧ v * PGSIZE < MAXVA := by
  obtain ⟨h₁, h₂⟩ := h
  have hdiv : va = va / PGSIZE * PGSIZE := by
    unfold PGSIZE at *
    omega
  refine ⟨va / PGSIZE, hdiv, ?_, hdiv ▸ h₂⟩
  unfold NVPN NPTE MAXVA PGSIZE at *
  omega

namespace Shows

/-- `walk` finds what the map says. -/
theorem translate_eq (h : Shows s r μ m O) (hva : PageAddr va) :
    translate r va s = .ok (μ va) s := by
  obtain ⟨v, rfl, hv, hlt⟩ := hva.exists_page
  have hwp : wp (translate r (v * PGSIZE)) NoPanic
      (fun o s' => o = μ (v * PGSIZE) ∧ s' = s) s := by
    rw [translate, wp_bind]
    refine wp_walk_find hlt ?_
    rw [Nat.mul_div_cancel _ (by decide), ← h.decode v hv]
    cases hl : tree.find s.pte 2 r v with
    | none =>
      rw [h.table.of_find_none hv hl]
      exact ⟨rfl, rfl⟩
    | some l =>
      rw [wp_bind, wp_readPte, h.table.entry hv hl]
      exact ⟨rfl, rfl⟩
  cases hr : translate r (v * PGSIZE) s with
  | ok o s' =>
    obtain ⟨rfl, rfl⟩ := hwp.ok hr
    rfl
  | error x s' => exact (hwp.error hr).elim

theorem update {v : ℕ} (h : ∀ v < NVPN, Vm.decode (m v) = μ (v * PGSIZE)) (e : ℕ) :
    ∀ x < NVPN, Vm.decode (update m v e x) =
      update μ (v * PGSIZE) (Vm.decode e) (x * PGSIZE) := by
  intro x hx
  rcases eq_or_ne x v with rfl | hne
  · rw [update_self, update_self]
  · have hne' : x * PGSIZE ≠ v * PGSIZE := fun he => hne (Nat.eq_of_mul_eq_mul_right (by decide) he)
    rw [update_of_ne hne, update_of_ne hne', h x hx]

/-- `mappages` of a page that is not mapped does not panic. -/
theorem wp_map (h : Shows s r μ m O) (hva : PageAddr va) (hM : μ va = none) (hpa : pa < 2 ^ 64)
    (hp : perm < 1024) :
    wp (mappages r va PGSIZE pa perm) NoPanic (fun ok s' =>
      ∃ m' O', Shows s' r ((Edit.map va pa perm ok).apply μ) m' O') s := by
  obtain ⟨v, rfl, hv, hlt⟩ := hva.exists_page
  obtain ⟨X, ho⟩ := h.own
  have hm : ¬ m v &&& PTE_V ≠ 0 := by rwa [← decode_eq_none, h.decode v hv]
  refine (wp_mappages_of links_true h.table ho hlt hm (mk_lt_of_lt hpa hp) trivial).post ?_
  rintro ok s' ⟨O', ho', -, ht⟩
  cases ok with
  | false => exact ⟨m, O', ⟨X, ho'⟩, ht, h.decode⟩
  | true =>
    refine ⟨_, O', ⟨X, ho'⟩, ht, ?_⟩
    have := update h.decode (v := v) (mkPte pa perm)
    rwa [decode_mk hp] at this

/-- `uvmunmap` of a mapped page panics only if its mapping has no permission. -/
theorem wp_unmap {f : ℕ} (h : Shows s r μ m O) (hva : PageAddr va) (hM : μ va = some (pa, f)) :
    wp (uvmunmap r va 1 false) (fun e s' => e = .notLeaf ∧ f = PTE_V ∧ s' = s)
      (fun _ s' => f ≠ PTE_V ∧ ∃ m' O', Shows s' r ((Edit.unmap va).apply μ) m' O') s := by
  obtain ⟨v, rfl, hv, hlt⟩ := hva.exists_page
  obtain ⟨X, ho⟩ := h.own
  have hd := h.decode v hv
  rw [hM, Vm.decode] at hd
  split_ifs at hd with h₀
  cases hd
  by_cases hf : PTE_FLAGS (m v) = PTE_V
  · -- the entry looks like a pointer to a table
    rw [uvmunmap, wp_bind, wp_stopIf]
    refine ⟨fun hc => absurd (Nat.mul_mod_left v PGSIZE) hc, fun _ => ?_⟩
    rw [uvmunmapFrom, wp_bind]
    refine wp.mono (wp_walk_find hlt (Q := fun o t => o = tree.find s.pte 2 r v ∧ t = s) ?_)
      (fun _ _ hc => hc.elim) ?_
    · rw [Nat.mul_div_cancel _ (by decide)]
      exact ⟨rfl, rfl⟩
    · rintro o t ⟨rfl, rfl⟩
      cases hl : tree.find t.pte 2 r v with
      | none => exact absurd (by rw [h.table.of_find_none hv hl]; rfl) h₀
      | some l =>
        rw [wp_bind, wp_readPte, h.table.entry hv hl, wp_bind, wp_stopIf]
        refine ⟨fun hc => absurd hc h₀, fun _ => ?_⟩
        rw [wp_bind, wp_stopIf]
        exact ⟨fun _ => ⟨rfl, hf, rfl⟩, fun hc => absurd hf hc⟩
  · have hend : (v + 1) * PGSIZE ≤ MAXVA := by
      unfold MAXVA PGSIZE at *
      omega
    have ho' : Own s (O + ((if false = true then mapped m v 1 else 0) + X)) := by
      rw [if_neg (by decide), zero_add]
      exact ho
    refine (wp_uvmunmap_of false trivial h.table ho' hend fun j hj => ?_).mono
      (fun _ _ hc => hc.elim) ?_
    · obtain rfl : j = 0 := by omega
      exact ⟨h₀, hf⟩
    · rintro - s' ⟨ho', -, ht⟩
      rw [cleared_succ, cleared_zero] at ht
      exact ⟨hf, _, O, ⟨X, ho'⟩, ht, update h.decode 0⟩

theorem step {e : Edit} (h : Shows s r μ m O) (hs : e.Step r s s') :
    ∃ m' O', Shows s' r (e.apply μ) m' O' := by
  cases e with
  | map va pa perm ok =>
    obtain ⟨hva, hpa, hp, ht, hm⟩ := hs
    rw [h.translate_eq hva, EStateM.Result.ok.injEq] at ht
    exact (h.wp_map hva ht.1 hpa hp).ok hm
  | unmap va =>
    obtain ⟨hva, ⟨⟨pa, f⟩, ht⟩, hu⟩ := hs
    rw [h.translate_eq hva, EStateM.Result.ok.injEq] at ht
    exact ((h.wp_unmap hva ht.1).ok hu).2
  | other =>
    obtain ⟨-, hp, X, ho⟩ := hs
    rw [h.table.nodes] at hp ho
    exact ⟨m, O, ⟨X, ho⟩, h.table.of_page hp, h.decode⟩

theorem run (h : Run (Edit.Step r) s l t) (hs : Shows s r μ m O) :
    ∃ m' O', Shows t r (l.foldl Edit.apply μ) m' O' := by
  induction h generalizing μ m O with
  | nil _ => exact ⟨m, O, hs⟩
  | cons h₁ _ ih =>
    obtain ⟨m', O', h'⟩ := hs.step h₁
    exact ih h'

/-- A page of zeroes is an empty table. -/
theorem empty {X : Multiset ℕ} (hr : ∀ j, s.pte r j = 0) (ho : Own s ({r} + X)) :
    Shows s r (fun _ => none) (fun _ => 0) {r} :=
  ⟨⟨X, ho⟩, .fresh links_true hr, fun _ _ => rfl⟩

end Shows

/-- After any operations on an empty table, `walk` and the test of the entry give the last mapping
made for a page, if it was not removed. A page that is not mapped can be mapped, as long as there is
memory, and one that is mapped can be unmapped, unless its mapping has no permission. No operation
changes the translation of a page it does not map or unmap, and `mappages` none when it fails. -/
theorem page_table_map {X : Multiset ℕ} (hr : ∀ j, s.pte r j = 0) (ho : Own s ({r} + X))
    (hrun : Run (Edit.Step r) s l t) :
    (∀ va, PageAddr va → translate r va t = .ok (contents l va) t) ∧
    (∀ va pa perm, PageAddr va → contents l va = none → pa < 2 ^ 64 → perm < 1024 →
      ∃ ok t', mappages r va PGSIZE pa perm t = .ok ok t') ∧
    (∀ va pa f, PageAddr va → contents l va = some (pa, f) →
      if f = PTE_V then uvmunmap r va 1 false t = .error .notLeaf t
      else ∃ t', uvmunmap r va 1 false t = .ok () t') ∧
    ∀ e t', Edit.Step r t e t' → ∀ va, PageAddr va → e.target ≠ some va →
      translate r va t' = .ok (contents l va) t' := by
  obtain ⟨m, O, h⟩ := Shows.run hrun (.empty hr ho)
  refine ⟨fun va hva => h.translate_eq hva, fun va pa perm hva hc hpa hp => ?_,
    fun va pa f hva hc => ?_, fun e t' he va hva hne => ?_⟩
  · have hw := h.wp_map hva hc hpa hp
    cases hm : mappages r va PGSIZE pa perm t with
    | ok ok t' => exact ⟨ok, t', rfl⟩
    | error x t' => exact (hw.error hm).elim
  · have hw := h.wp_unmap hva hc
    cases hm : uvmunmap r va 1 false t with
    | ok _ t' =>
      rw [if_neg (hw.ok hm).1]
      exact ⟨t', rfl⟩
    | error x t' =>
      obtain ⟨rfl, hf, rfl⟩ := hw.error hm
      rw [if_pos hf]
  · obtain ⟨m', O', h'⟩ := h.step he
    rw [h'.translate_eq hva, Edit.apply_of_ne hne]
    rfl

/-- A memory of four pages, the first one a page table. -/
def fourPages : Mem where
  image :=
    { kend := PHYSTOP - 4 * PGSIZE
      trampoline := KERNBASE
      kend_le := by decide
      trampoline_align := KERNBASE_mod
      trampoline_ge := by decide
      trampoline_le := by decide }
  page := fun _ _ => 0
  free := [PHYSTOP - 3 * PGSIZE, PHYSTOP - 2 * PGSIZE, PHYSTOP - PGSIZE]

theorem own_fourPages : Own fourPages ({PHYSTOP - 4 * PGSIZE} + 0) := by
  unfold Own
  decide +kernel

/-- A page is mapped at the second page address and a page mapped nowhere is not found. -/
theorem page_table_map_fourPages : ∃ t, Run (Edit.Step (PHYSTOP - 4 * PGSIZE)) fourPages
      [.map PGSIZE PHYSTOP PTE_R true] t ∧
    translate (PHYSTOP - 4 * PGSIZE) PGSIZE t = .ok (some (PHYSTOP, PTE_R ||| PTE_V)) t ∧
    translate (PHYSTOP - 4 * PGSIZE) 0 t = .ok none t := by
  have hr : ∀ j, fourPages.pte (PHYSTOP - 4 * PGSIZE) j = 0 := fun _ => Bytes.get64_zero
  have hok : (match mappages (PHYSTOP - 4 * PGSIZE) PGSIZE PGSIZE PHYSTOP PTE_R fourPages with
    | .ok b _ => b
    | .error _ _ => false) = true := by decide +kernel
  split at hok
  next b t hm =>
    subst hok
    have hrun : Run (Edit.Step (PHYSTOP - 4 * PGSIZE)) fourPages
        [.map PGSIZE PHYSTOP PTE_R true] t := by
      refine .single ⟨by decide, by decide, by decide, ?_, hm⟩
      exact (Shows.empty hr own_fourPages).translate_eq (by decide)
    obtain ⟨h, -⟩ := page_table_map hr own_fourPages hrun
    exact ⟨t, hrun, h PGSIZE (by decide), h 0 (by decide)⟩
  next => cases hok

end Xv6.Vm

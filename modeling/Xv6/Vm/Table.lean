import Xv6.Logic.Radix
import Xv6.Vm.Memory

/-! # Page ownership and page tables

The pages of memory are the free ones and the owned ones. A page table is a radix
tree whose nodes are owned pages; walking it, mapping and unmapping change its own
pages and the free list only.
-/

namespace Xv6.Vm

open Function Multiset

variable {s s' s'' : Mem} {X H O O' : Multiset ℕ} {q r n p v va pa perm e : ℕ} {m : ℕ → ℕ}

/-- No panic is reached. -/
abbrev NoPanic {σ : Type} : Panic → σ → Prop := fun _ _ => False

/-! ## Pages -/

theorem Layout.kend_ge (L : Layout) : KERNBASE ≤ L.kend :=
  L.trampoline_ge.trans ((Nat.le_add_right _ _).trans L.trampoline_le)

theorem Layout.trampoline_lt (L : Layout) : L.trampoline < 2 ^ 56 := by
  have h₁ := L.trampoline_le
  have h₂ := L.kend_le
  unfold PHYSTOP KERNBASE at h₂
  omega

/-- The first page address the allocator is given. -/
def Layout.lo (L : Layout) : ℕ := (L.kend + PGSIZE - 1) / PGSIZE

/-- The pages of `[PGROUNDUP(end), PHYSTOP)`. -/
def Layout.pages (L : Layout) : Multiset ℕ :=
  (range (PHYSTOP / PGSIZE - L.lo)).map fun k => (L.lo + k) * PGSIZE

theorem Layout.mem_pages {L : Layout} :
    q ∈ L.pages ↔ q % PGSIZE = 0 ∧ L.kend ≤ q ∧ q < PHYSTOP := by
  have hp : PGSIZE = 4096 := rfl
  have hs : PHYSTOP = 4096 * 557056 := rfl
  simp only [pages, mem_map, mem_range, lo, hp, hs]
  constructor
  · rintro ⟨k, hk, rfl⟩
    omega
  · rintro ⟨h₁, h₂, h₃⟩
    exact ⟨q / 4096 - (L.kend + 4096 - 1) / 4096, by omega, by omega⟩

theorem Layout.trampoline_notMem (L : Layout) : L.trampoline ∉ L.pages := fun hc => by
  have h₁ := (mem_pages.mp hc).2.1
  have h₂ := L.trampoline_le
  unfold PGSIZE at h₂
  omega

theorem Layout.nodup_pages (L : Layout) : L.pages.Nodup := by
  refine Multiset.Nodup.map (fun a b h => ?_) (nodup_range _)
  have := Nat.eq_of_mul_eq_mul_right (by decide) h
  omega

theorem Layout.card_pages_le (L : Layout) : L.pages.card ≤ 2 ^ 15 := by
  have h := L.kend_ge
  have hp : PGSIZE = 4096 := rfl
  have hs : PHYSTOP = 4096 * 557056 := rfl
  have hk : KERNBASE = 4096 * 524288 := rfl
  rw [pages, card_map, card_range, lo, hp, hs]
  omega

/-- The pages that are not free are `X`. -/
def Own (s : Mem) (X : Multiset ℕ) : Prop := (s.free : Multiset ℕ) + X = s.image.pages

/-- The pages of `H` keep their contents, and so does memory that is not the allocator's. -/
structure Frame (s s' : Mem) (H : Multiset ℕ) : Prop where
  image : s'.image = s.image
  page : ∀ q ∈ H, s'.page q = s.page q
  outside : ∀ q ∉ s.image.pages, s'.page q = s.page q

namespace Frame

theorem refl (s : Mem) (H : Multiset ℕ) : Frame s s H :=
  ⟨rfl, fun _ _ => rfl, fun _ _ => rfl⟩

theorem trans (h : Frame s s' H) (h' : Frame s' s'' H) : Frame s s'' H :=
  ⟨h'.image.trans h.image, fun q hq => (h'.page q hq).trans (h.page q hq),
    fun q hq => (h'.outside q (h.image.symm ▸ hq)).trans (h.outside q hq)⟩

theorem mono (h : Frame s s' H) (hX : X ⊆ H) : Frame s s' X :=
  ⟨h.image, fun q hq => h.page q (hX hq), h.outside⟩

theorem pte_eq (h : Frame s s' H) (hq : q ∈ H) (i : ℕ) : s'.pte q i = s.pte q i := by
  rw [Mem.pte, Mem.pte, h.page q hq]

end Frame

namespace Own

theorem nodup (h : Own s X) : X.Nodup := by
  have := s.image.nodup_pages
  rw [← h, nodup_add] at this
  exact this.2.1

theorem mem (h : Own s X) (hq : q ∈ X) : q % PGSIZE = 0 ∧ s.image.kend ≤ q ∧ q < PHYSTOP := by
  refine Layout.mem_pages.mp ?_
  rw [← h]
  exact mem_add.mpr (.inr hq)

theorem lt (h : Own s X) (hq : q ∈ X) : q < 2 ^ 56 := (h.mem hq).2.2.trans (by decide)

theorem ne_zero (h : Own s X) (hq : q ∈ X) : q ≠ 0 := by
  have h₁ := (h.mem hq).2.1
  have h₂ := s.image.kend_ge
  unfold KERNBASE at h₂
  omega

theorem card_le (h : Own s X) : X.card ≤ 2 ^ 15 := by
  have := s.image.card_pages_le
  rw [← h, card_add] at this
  omega

theorem congr (h : Own s X) (hf : s'.free = s.free) (hi : s'.image = s.image) : Own s' X := by
  rw [Own, hf, hi]
  exact h

theorem notMem (h : Own s (q ::ₘ X)) : q ∉ X := (nodup_cons.mp h.nodup).1

theorem notMem_left (h : Own s (O + H)) (hq : q ∈ O) : q ∉ H := fun hH =>
  disjoint_left.mp (nodup_add.mp h.nodup).2.2 hq hH

end Own

/-! ## The allocator -/

def Mem.put (s : Mem) (q : ℕ) (b : Page) : Mem := { s with page := update s.page q b }

variable {b : Page}

@[simp] theorem put_page_self : (s.put q b).page q = b := update_self _ _ _

theorem put_page_of_ne {x : ℕ} (h : x ≠ q) : (s.put q b).page x = s.page x :=
  update_of_ne h _ _

@[simp] theorem put_put {b' : Page} : (s.put q b).put q b' = s.put q b' := by simp [Mem.put]

theorem Own.put (h : Own s X) : Own (s.put q b) X := h

/-- A page that is owned beside `H` is written. -/
theorem frame_put (h : Own s X) (hq : q ∈ X) (hH : q ∉ H) : Frame s (s.put q b) H := by
  refine ⟨rfl, fun _ hx => put_page_of_ne (ne_of_mem_of_not_mem hx hH), fun x hx => ?_⟩
  refine put_page_of_ne ?_
  rintro rfl
  exact hx (h ▸ mem_add.mpr (.inr hq))

theorem Own.frame_put (h : Own s (q ::ₘ H)) : Frame s (s.put q b) H :=
  Vm.frame_put h (mem_cons_self q H) h.notMem

theorem Own.frame_put_left (h : Own s (O + H)) (hq : q ∈ O) : Frame s (s.put q b) H :=
  Vm.frame_put h (mem_add.mpr (.inl hq)) (h.notMem_left hq)

variable {l : ℕ × ℕ} {Q : Unit → Mem → Prop}

section

variable {E : Panic → Mem → Prop}

@[simp] theorem wp_setPage :
    wp (setPage q b) E Q s ↔ Q () (s.put q b) := Iff.rfl

@[simp] theorem wp_memset {c : UInt8} :
    wp (memset q c) E Q s ↔ Q () (s.put q fun _ => c) := Iff.rfl

@[simp] theorem wp_readPte {Q : ℕ → Mem → Prop} :
    wp (readPte l) E Q s ↔ Q (s.pte l.1 l.2) s := Iff.rfl

def Mem.setPte (s : Mem) (l : ℕ × ℕ) (e : ℕ) : Mem := s.put l.1 ((s.page l.1).set64 (8 * l.2) e)

@[simp] theorem wp_writePte :
    wp (writePte l e) E Q s ↔ Q () (s.setPte l e) := Iff.rfl

end

theorem wp_kalloc (h : Own s X) : wp kalloc NoPanic (fun o s' => match o with
    | none => s' = s
    | some q => Own s' (q ::ₘ X) ∧ Frame s s' X) s := by
  unfold kalloc
  rw [wp_bind, wp_get]
  cases hf : s.free with
  | nil => exact rfl
  | cons q rest =>
    have hown : (rest : Multiset ℕ) + (q ::ₘ X) = s.image.pages := by
      rw [← h, hf, add_cons, ← cons_coe, cons_add]
    have ho : Own { s with free := rest } (q ::ₘ X) := hown
    have hf : Frame s { s with free := rest } X := ⟨rfl, fun _ _ => rfl, fun _ _ => rfl⟩
    exact ⟨ho.put, hf.trans ho.frame_put⟩

theorem wp_kfree (h : Own s (q ::ₘ X)) :
    wp (kfree q) NoPanic (fun _ s' => Own s' X ∧ Frame s s' X) s := by
  obtain ⟨h₁, h₂, h₃⟩ := h.mem (mem_cons_self q X)
  unfold kfree
  rw [wp_bind, wp_get, wp_bind, wp_stopIf]
  refine ⟨fun hc => by omega, fun _ => ⟨?_, ?_⟩⟩
  · rw [Own, ← cons_coe, cons_add, ← add_cons]
    exact h
  · exact h.frame_put.trans ⟨rfl, fun _ _ => rfl, fun _ _ => rfl⟩

/-! ## Entries -/

theorem and_one (e : ℕ) : e &&& PTE_V ≠ 0 ↔ e % 2 = 1 := by
  rw [Nat.and_one_is_mod]
  omega

/-- The entry that maps a page. -/
theorem mk_pte_eq (hp : perm < 1024) : PA2PTE pa ||| perm ||| PTE_V =
    pa / PGSIZE * 1024 + (perm ||| PTE_V) := by
  have hlt : perm ||| PTE_V < 2 ^ 10 := Nat.or_lt_two_pow hp (by decide)
  rw [Nat.or_assoc, PA2PTE, Nat.mul_comm]
  exact (Nat.two_pow_add_eq_or_of_lt hlt _).symm

theorem or_lt (hp : perm < 1024) : perm ||| PTE_V < 1024 := Nat.or_lt_two_pow (n := 10) hp (by decide)

theorem PTE2PA_mk (hpa : pa % PGSIZE = 0) (hp : perm < 1024) :
    PTE2PA (PA2PTE pa ||| perm ||| PTE_V) = pa := by
  have h := or_lt hp
  rw [mk_pte_eq hp, PTE2PA]
  unfold PGSIZE at *
  omega

theorem PTE_FLAGS_mk (hp : perm < 1024) :
    PTE_FLAGS (PA2PTE pa ||| perm ||| PTE_V) = perm ||| PTE_V := by
  have h := or_lt hp
  rw [mk_pte_eq hp, PTE_FLAGS]
  omega

theorem mk_lt_of_lt (hpa : pa < 2 ^ 64) (hp : perm < 1024) :
    PA2PTE pa ||| perm ||| PTE_V < 2 ^ 64 := by
  have h := or_lt hp
  rw [mk_pte_eq hp]
  unfold PGSIZE
  omega

theorem mk_lt (hpa : pa < 2 ^ 56) (hp : perm < 1024) : PA2PTE pa ||| perm ||| PTE_V < 2 ^ 64 :=
  mk_lt_of_lt (hpa.trans (by decide)) hp

/-- The entry maps a page; otherwise a valid entry points to a table. -/
@[grind =] def Leaf (e : ℕ) : Prop := e &&& (PTE_R ||| PTE_W ||| PTE_X) ≠ 0

instance (e : ℕ) : Decidable (Leaf e) := inferInstanceAs (Decidable (_ ≠ _))

theorem leaf_flags : Leaf e ↔ Leaf (PTE_FLAGS e) := by
  have h : e &&& 14 = PTE_FLAGS e &&& 14 := by
    have hlt : e &&& 14 < 2 ^ 10 := lt_of_le_of_lt Nat.and_le_right (by decide)
    have := Nat.and_mod_two_pow (a := e) (b := 14) (n := 10)
    rwa [Nat.mod_eq_of_lt hlt] at this
  unfold Leaf
  rw [show PTE_R ||| PTE_W ||| PTE_X = 14 from rfl, h]

theorem valid_flags : e &&& PTE_V ≠ 0 ↔ PTE_FLAGS e &&& PTE_V ≠ 0 := by
  rw [and_one, and_one, PTE_FLAGS]
  omega

theorem valid_mk (hp : perm < 1024) : (PA2PTE pa ||| perm ||| PTE_V) &&& PTE_V ≠ 0 := by
  rw [valid_flags, PTE_FLAGS_mk hp, Nat.and_or_distrib_right]
  simp

theorem leaf_mk (hp : perm < 1024) : Leaf (PA2PTE pa ||| perm ||| PTE_V) ↔ Leaf perm := by
  rw [leaf_flags, PTE_FLAGS_mk hp, Leaf, Leaf, Nat.and_or_distrib_right]
  simp

/-! ## Walking -/

/-- The page tables as radix trees. -/
@[irreducible] def tree : Radix ℕ where
  W := NPTE
  child e := if e &&& PTE_V ≠ 0 then some (PTE2PA e) else none
  blank := 0
  pos := by decide
  child_blank := rfl

/-- Valid entries map pages at level 0 and point to tables above. -/
def Kind (h e : ℕ) : Prop := e &&& PTE_V ≠ 0 → (h = 0 ↔ Leaf e)

theorem tree_W : tree.W = NPTE := by
  unfold tree
  rfl

theorem tree_blank : tree.blank = 0 := by
  unfold tree
  rfl

theorem child_of_valid (h : e &&& PTE_V ≠ 0) : tree.child e = some (PTE2PA e) := by
  unfold tree
  exact if_pos h

theorem child_of_invalid (h : ¬ e &&& PTE_V ≠ 0) : tree.child e = none := by
  unfold tree
  exact if_neg h

theorem PX_eq (n va : ℕ) : PX n va = tree.idx n (va / PGSIZE) := by
  have hpow : 2 ^ (12 + 9 * n) = PGSIZE * NPTE ^ n := by
    rw [pow_add, pow_mul]
    rfl
  rw [PX, Radix.idx, hpow, ← Nat.div_div_eq_div_mul, tree_W]

theorem pte_setPte_self (hl : l.2 < NPTE) (he : e < 2 ^ 64) : (s.setPte l e).pte l.1 l.2 = e := by
  rw [Mem.pte, Mem.setPte, put_page_self]
  exact Bytes.get64_set64 (by unfold PGSIZE NPTE at *; omega) he

theorem pte_setPte_of_ne {x j : ℕ} (h : (x, j) ≠ l) : (s.setPte l e).pte x j = s.pte x j := by
  rw [Mem.pte, Mem.pte, Mem.setPte]
  rcases eq_or_ne x l.1 with rfl | hx
  · have hj : j ≠ l.2 := fun hj => h (by rw [hj])
    rw [put_page_self]
    exact Bytes.get64_set64_of_disjoint (by omega)
  · rw [put_page_of_ne hx]

theorem pte_put_of_ne {x j : ℕ} (h : x ≠ q) : (s.put q b).pte x j = s.pte x j := by
  rw [Mem.pte, Mem.pte, put_page_of_ne h]

theorem pte_put_zero (j : ℕ) : (s.put q fun _ => 0).pte q j = 0 := by
  rw [Mem.pte, put_page_self]
  exact Bytes.get64_zero

/-- The entry that maps the page `pa`. -/
abbrev mkPte (pa perm : ℕ) : ℕ := PA2PTE pa ||| perm ||| PTE_V

/-- Blank entries and those that point to tables meet `P`. -/
structure Links (P : ℕ → ℕ → Prop) : Prop where
  blank : ∀ n, P n 0
  table : ∀ n c, P (n + 1) (mkPte c 0)

theorem links_kind : Links Kind where
  blank _ h := absurd rfl h
  table n c _ := by
    rw [leaf_mk (by decide)]
    simp [Leaf]

variable {P : ℕ → ℕ → Prop}

/-- The table at `p` keeps its mappings; its pages may be more than before. -/
structure Walked (P : ℕ → ℕ → Prop) (s : Mem) (n p : ℕ) (H : Multiset ℕ) (v : ℕ)
    (o : Option (ℕ × ℕ)) (s' : Mem) : Prop where
  own : Own s' (tree.nodes s'.pte n p + H)
  frame : Frame s s' H
  look : ∀ v, tree.look s'.pte n p v = tree.look s.pte n p v
  each : tree.Each s'.pte P n p
  find : ∀ l, o = some l → tree.find s'.pte n p v = some l

/-- The walk through the entry `i` of a table, from a memory that differs from `s` only there. -/
theorem Walked.up {s₁ : Mem} {c i : ℕ} {o : Option (ℕ × ℕ)} (hi : tree.idx (n + 1) v = i)
    (hw : Walked P s₁ n c (p ::ₘ (tree.siblings s.pte n p i + H)) v o s')
    (hf : Frame s s₁ (tree.siblings s.pte n p i + H)) (he : tree.Each s.pte P (n + 1) p)
    (hp : ∀ j < tree.W, j ≠ i → s₁.pte p j = s.pte p j)
    (hc : tree.child (s₁.pte p i) = some c) (hk : P (n + 1) (s₁.pte p i))
    (hlook : ∀ v', tree.idx (n + 1) v' = i →
      tree.look s₁.pte n c v' = tree.look s.pte (n + 1) p v') :
    Walked P s (n + 1) p H v o s' := by
  have hself : p ∈ p ::ₘ (tree.siblings s.pte n p i + H) := mem_cons_self p _
  have hpage : ∀ j, s'.pte p j = s₁.pte p j := fun j => hw.frame.pte_eq hself j
  have hb : tree.Below s.pte s'.pte n p i := by
    refine ⟨hi ▸ Radix.idx_lt, fun j hj hne => (hpage j).trans (hp j hj hne), fun q hq j _ => ?_⟩
    have hq' := mem_add.mpr (Or.inl (b := q ∈ H) hq)
    rw [hw.frame.pte_eq (mem_cons_of_mem hq'), hf.pte_eq hq']
  have hc' : tree.child (s'.pte p i) = some c := by rw [hpage, hc]
  refine ⟨?_, ?_, fun v' => ?_, hb.each he ?_ fun c' h => ?_, fun l hl => ?_⟩
  · have := hw.own
    rwa [hb.nodes_eq, Radix.branch_of_child hc', cons_add, add_assoc,
      ← add_cons]
  · refine (hf.mono ?_).trans (hw.frame.mono ?_)
    · exact fun q hq => mem_add.mpr (.inr hq)
    · exact fun q hq => mem_cons_of_mem (mem_add.mpr (.inr hq))
  · by_cases hv : tree.idx (n + 1) v' = i
    · rw [Radix.look_succ (hv ▸ hc'), hw.look, hlook v' hv]
    · exact hb.look_of_ne hv
  · rw [hpage]
    exact hk
  · cases hc'.symm.trans h
    exact hw.each
  · rw [Radix.find_succ (hi ▸ hc')]
    exact hw.find l hl

theorem wp_walkFrom (hP : Links P) (ho : Own s (tree.nodes s.pte n p + H))
    (he : tree.Each s.pte P n p) :
    wp (walkFrom true va n p) NoPanic (Walked P s n p H (va / PGSIZE)) s := by
  induction n generalizing p s H with
  | zero =>
    refine ⟨ho, .refl s H, fun _ => rfl, he, fun l hl => ?_⟩
    cases hl
    rw [PX_eq]
    rfl
  | succ n ih =>
    obtain ⟨i, hi⟩ : ∃ i, tree.idx (n + 1) (va / PGSIZE) = i := ⟨_, rfl⟩
    have hlt : i < tree.W := hi ▸ Radix.idx_lt
    rw [Radix.nodes_succ hlt] at ho
    rw [walkFrom, wp_bind, wp_readPte, PX_eq, hi]
    dsimp only
    split
    next hv =>
      have hc := child_of_valid hv
      rw [Radix.branch_of_child hc, cons_add, add_assoc, ← add_cons] at ho
      refine (ih ho ((he i hlt).2 _ hc)).post fun o s' hw => ?_
      exact hw.up hi (.refl s _) he (fun _ _ _ => rfl) hc (he i hlt).1
        fun v' hi => (Radix.look_succ (hi ▸ hc)).symm
    next hv =>
      have hc := child_of_invalid hv
      rw [Radix.branch, hc] at ho
      rw [if_neg (by decide), wp_bind]
      refine (wp_kalloc ho).post fun o s₁ h₁ => ?_
      cases o with
      | none =>
        subst h₁
        refine ⟨?_, .refl _ H, fun _ => rfl, he, nofun⟩
        rw [Radix.nodes_succ hlt, Radix.branch, hc]
        exact ho
      | some c =>
        obtain ⟨ho₁, hf₁⟩ := h₁
        rw [wp_bind, wp_memset, wp_bind, wp_writePte]
        rw [Option.elim_none, zero_add, cons_add] at ho₁ hf₁
        have hca := (ho₁.mem (mem_cons_self c _)).1
        have hclt := ho₁.lt (mem_cons_self c _)
        have hcp : c ≠ p := fun he => ho₁.notMem (he ▸ mem_cons_self p _)
        -- the fresh table is linked to the entry
        obtain ⟨s₂, hs₂⟩ : ∃ s₂, (s₁.put c fun _ => 0).setPte (p, i) (PA2PTE c ||| PTE_V) = s₂ :=
          ⟨_, rfl⟩
        have hentry : s₂.pte p i = PA2PTE c ||| 0 ||| PTE_V := by
          rw [← hs₂, Nat.or_zero]
          refine pte_setPte_self (tree_W ▸ hlt) ?_
          simpa using mk_lt hclt (show 0 < 1024 by decide)
        have hblank : ∀ j < tree.W, s₂.pte c j = tree.blank := fun j _ => by
          rw [← hs₂, pte_setPte_of_ne (by simp [hcp]), pte_put_zero, tree_blank]
        have hc₂ : tree.child (s₂.pte p i) = some c := by
          rw [hentry, child_of_valid (valid_mk (by decide)), PTE2PA_mk hca (by decide)]
        have hf₂ : Frame s s₂ (tree.siblings s.pte n p i + H) := by
          have hp := (nodup_cons.mp (nodup_cons.mp ho₁.nodup).2).1
          rw [← hs₂]
          refine ((hf₁.trans (ho₁.frame_put (b := fun _ => 0))).mono (subset_cons _ _)).trans ?_
          exact frame_put ho₁.put (by simp) hp
        have ho₂ : Own s₂ (tree.nodes s₂.pte n c + (p ::ₘ (tree.siblings s.pte n p i + H))) := by
          rw [Radix.nodes_blank hblank, singleton_add, ← hs₂]
          exact ho₁
        have he₂ : tree.Each s₂.pte P n c := Radix.each_blank hblank fun n => by
          rw [tree_blank]
          exact hP.blank n
        rw [hs₂]
        refine (ih ho₂ he₂).post fun o s' hw => hw.up hi hf₂ he (fun j _ hne => ?_) hc₂ ?_ ?_
        · rw [← hs₂, pte_setPte_of_ne (by simp [hne]), pte_put_of_ne hcp.symm]
          exact hf₁.pte_eq (mem_cons_self p _) j
        · rw [hentry]
          exact hP.table n c
        · intro v' hv'
          rw [Radix.look_blank hblank, Radix.look_succ_of_none (hv' ▸ hc)]

/-! ## Page tables -/

/-- Page numbers below `NPTE ^ 3` are the keys of a page table. -/
abbrev NVPN : ℕ := NPTE ^ 3

/-- The page table at `r` consists of the pages `O`; the entry of page `v` is `m v`, and all entries
meet `P`. -/
structure TableOf (P : ℕ → ℕ → Prop) (s : Mem) (r : ℕ) (m : ℕ → ℕ) (O : Multiset ℕ) : Prop where
  nodes : tree.nodes s.pte 2 r = O
  look : ∀ v < NVPN, tree.look s.pte 2 r v = m v
  each : tree.Each s.pte P 2 r

/-- A page table whose valid entries map pages at level 0 and point to tables above. -/
abbrev Table := TableOf Kind

namespace TableOf

/-- The pages of the table are all it depends on. -/
theorem of_page (h : TableOf P s r m O) (hp : ∀ q ∈ O, s'.page q = s.page q) :
    TableOf P s' r m O := by
  have hpte : ∀ q ∈ tree.nodes s.pte 2 r, ∀ i < tree.W, s'.pte q i = s.pte q i :=
    fun q hq i _ => by rw [Mem.pte, Mem.pte, hp q (h.nodes ▸ hq)]
  refine ⟨?_, fun v hv => ?_, Radix.each_congr hpte h.each⟩
  · rw [Radix.nodes_congr hpte, h.nodes]
  · rw [Radix.look_congr hpte, h.look v hv]

theorem congr (h : TableOf P s r m O) (hf : Frame s s' H) (hO : O ⊆ H) : TableOf P s' r m O :=
  h.of_page fun q hq => hf.page q (hO hq)

theorem find_congr (h : TableOf P s r m O) (hf : Frame s s' H) (hO : O ⊆ H) :
    tree.find s'.pte 2 r v = tree.find s.pte 2 r v :=
  Radix.find_congr fun _ hq i _ => hf.pte_eq (hO (h.nodes ▸ hq)) i

theorem mem (h : TableOf P s r m O) : r ∈ O := h.nodes ▸ Radix.mem_self

theorem entry (h : TableOf P s r m O) (hv : v < NVPN) (hl : tree.find s.pte 2 r v = some l) :
    s.pte l.1 l.2 = m v := by
  rw [← h.look v hv, Radix.look, hl]
  rfl

theorem of_find_none (h : TableOf P s r m O) (hv : v < NVPN) (hl : tree.find s.pte 2 r v = none) :
    m v = 0 := by
  rw [← h.look v hv, Radix.look, hl]
  exact tree_blank

/-- A valid entry maps a page. -/
theorem leaf (h : TableOf Kind s r m O) (hv : v < NVPN) (hm : m v &&& PTE_V ≠ 0) : Leaf (m v) := by
  cases hl : tree.find s.pte 2 r v with
  | none => exact absurd (by rw [h.of_find_none hv hl]; rfl) hm
  | some l =>
    have hk : Kind 0 (s.pte l.1 l.2) := Radix.each_find h.each hl
    rw [h.entry hv hl] at hk
    exact (hk hm).mp rfl

/-- The entry of a page is changed. -/
theorem set (h : TableOf P s r m O) (ho : Own s (O + H)) (hv : v < NVPN)
    (hl : tree.find s.pte 2 r v = some l) (he : e < 2 ^ 64) (hk : P 0 e) :
    TableOf P (s.setPte l e) r (update m v e) O ∧ Frame s (s.setPte l e) H := by
  obtain ⟨hmem, hlt⟩ := Radix.find_mem hl
  rw [h.nodes] at hmem
  have hd : (tree.nodes s.pte 2 r).Nodup := h.nodes ▸ (nodup_add.mp ho.nodup).1
  have hW : tree.W ^ (2 + 1) = NVPN := by rw [tree_W]
  have ha := Radix.assign (w := e) hl hd (fun q j _ hne => pte_setPte_of_ne (s := s) (e := e) hne)
    (pte_setPte_self (tree_W ▸ hlt) he) h.each hk
  refine ⟨⟨ha.nodes.trans h.nodes, fun x hx => ?_, ha.each⟩, ho.frame_put_left hmem⟩
  rcases eq_or_ne x v with rfl | hne
  · rw [update_self]
    exact ha.same x fun _ _ => rfl
  · rw [update_of_ne hne, ← h.look x hx]
    exact ha.other x fun hs => hne (Radix.eq_of_same hs (hW ▸ hv) (hW ▸ hx))

/-- A fresh page is an empty table. -/
theorem fresh (hP : Links P) (h : ∀ j, s.pte r j = 0) : TableOf P s r (fun _ => 0) {r} := by
  have hb : ∀ j < tree.W, s.pte r j = tree.blank := fun j _ => (h j).trans tree_blank.symm
  refine ⟨Radix.nodes_blank hb, fun v _ => ?_, Radix.each_blank hb fun n => ?_⟩
  · exact (Radix.look_blank hb).trans tree_blank
  · rw [tree_blank]
    exact hP.blank n

end TableOf

theorem wp_walk (hP : Links P) (h : TableOf P s r m O) (ho : Own s (O + H)) (hva : va < MAXVA) :
    wp (walk r va true) NoPanic (fun o s' => ∃ O', Own s' (O' + H) ∧ Frame s s' H ∧
      TableOf P s' r m O' ∧ ∀ l, o = some l → tree.find s'.pte 2 r (va / PGSIZE) = some l) s := by
  rw [walk, wp_bind, wp_stopIf]
  refine ⟨fun hc => absurd hc (Nat.not_le.mpr hva), fun _ => ?_⟩
  refine (wp_walkFrom hP (h.nodes.symm ▸ ho) h.each).post fun o s' hw => ?_
  exact ⟨_, hw.own, hw.frame, ⟨rfl, fun v hv => (hw.look v).trans (h.look v hv), hw.each⟩, hw.find⟩

theorem wp_walkFrom_find {E : Panic → Mem → Prop} {Q : Option (ℕ × ℕ) → Mem → Prop}
    (hQ : Q (tree.find s.pte n p (va / PGSIZE)) s) : wp (walkFrom false va n p) E Q s := by
  induction n generalizing p with
  | zero =>
    rw [Radix.find, ← PX_eq] at hQ
    exact hQ
  | succ n ih =>
    rw [walkFrom, wp_bind, wp_readPte, PX_eq]
    split
    next hv =>
      refine ih ?_
      rwa [Radix.find_succ (child_of_valid hv)] at hQ
    next hv =>
      rw [Radix.find, child_of_invalid hv] at hQ
      exact hQ

theorem wp_walk_find {Q : Option (ℕ × ℕ) → Mem → Prop} (hva : va < MAXVA)
    (hQ : Q (tree.find s.pte 2 r (va / PGSIZE)) s) : wp (walk r va false) NoPanic Q s := by
  rw [walk, wp_bind, wp_stopIf]
  exact ⟨fun hc => absurd hc (Nat.not_le.mpr hva), fun _ => wp_walkFrom_find hQ⟩

/-! ## Mapping -/

theorem wp_mappages_of (hP : Links P) (h : TableOf P s r m O) (ho : Own s (O + H))
    (hv : v * PGSIZE < MAXVA) (hm : ¬ m v &&& PTE_V ≠ 0) (hlt : mkPte pa perm < 2 ^ 64)
    (hk : P 0 (mkPte pa perm)) :
    wp (mappages r (v * PGSIZE) PGSIZE pa perm) NoPanic (fun b s' => ∃ O', Own s' (O' + H) ∧
      Frame s s' H ∧ TableOf P s' r (if b then update m v (mkPte pa perm) else m) O') s := by
  have hdown : PGROUNDDOWN (v * PGSIZE) = v * PGSIZE := by
    rw [PGROUNDDOWN, Nat.mul_div_cancel _ (by decide)]
  have hlast : PGROUNDDOWN (v * PGSIZE + PGSIZE - 1) = v * PGSIZE := by
    unfold PGROUNDDOWN PGSIZE
    omega
  have hv' : v < NVPN := by
    unfold NVPN NPTE MAXVA PGSIZE at *
    omega
  rw [mappages, wp_bind, wp_stopIf]
  refine ⟨fun hc => absurd hc (by decide), fun _ => ?_⟩
  rw [hlast, hdown, Nat.sub_self, Nat.zero_div, mappagesFrom, wp_bind]
  refine (wp_walk hP h ho hv).post fun o s' hw => ?_
  obtain ⟨O', ho', hf, ht, hfind⟩ := hw
  rw [Nat.mul_div_cancel _ (by decide)] at hfind
  cases o with
  | none => exact ⟨O', ho', hf, ht⟩
  | some l =>
    rw [wp_bind, wp_readPte, wp_bind, wp_stopIf, ht.entry hv' (hfind l rfl)]
    refine ⟨fun hc => absurd hc hm, fun _ => ?_⟩
    rw [wp_bind, wp_writePte]
    obtain ⟨ht', hf'⟩ := ht.set ho' hv' (hfind l rfl) hlt hk
    exact ⟨O', ho'.put, hf.trans hf', ht'⟩

theorem wp_mappages (h : Table s r m O) (ho : Own s (O + H)) (hv : v * PGSIZE < MAXVA)
    (hm : ¬ m v &&& PTE_V ≠ 0) (hp : perm < 1024) (hl : Leaf perm) (hpa : pa < 2 ^ 56) :
    wp (mappages r (v * PGSIZE) PGSIZE pa perm) NoPanic (fun b s' => ∃ O', Own s' (O' + H) ∧
      Frame s s' H ∧ Table s' r (if b then update m v (mkPte pa perm) else m) O') s :=
  wp_mappages_of links_kind h ho hv hm (mk_lt hpa hp)
    fun _ => ⟨fun _ => (leaf_mk hp).mpr hl, fun _ => rfl⟩

/-! ## Unmapping -/

/-- The entries of `k` pages from `v` on are erased. -/
def cleared (m : ℕ → ℕ) (v k : ℕ) : ℕ → ℕ := fun x => if v ≤ x ∧ x < v + k then 0 else m x

/-- The pages that are mapped at `k` pages from `v` on. -/
@[irreducible] def mapped (m : ℕ → ℕ) (v k : ℕ) : Multiset ℕ :=
  (range k).map fun j => PTE2PA (m (v + j))

theorem mapped_succ (m : ℕ → ℕ) (v k : ℕ) :
    mapped m v (k + 1) = PTE2PA (m v) ::ₘ mapped m (v + 1) k := by
  have h : range (k + 1) = 0 ::ₘ (range k).map Nat.succ := by
    rw [range, List.range_succ_eq_map]
    rfl
  unfold mapped
  rw [h, map_cons, map_map, Nat.add_zero]
  refine congrArg _ (map_congr rfl fun j _ => ?_)
  rw [comp_apply, Nat.succ_eq_add_one, Nat.add_assoc, Nat.add_comm 1]

theorem cleared_succ (m : ℕ → ℕ) (v k : ℕ) :
    cleared m v (k + 1) = cleared (update m v 0) (v + 1) k := by
  funext x
  unfold cleared
  rcases eq_or_ne x v with rfl | hx
  · rw [update_self]
    simp
  · rw [update_of_ne hx]
    grind

theorem cleared_zero (m : ℕ → ℕ) (v : ℕ) : cleared m v 0 = m := by
  funext x
  unfold cleared
  rw [if_neg (by omega)]

variable {k : ℕ}

theorem mapped_congr {m' : ℕ → ℕ} (h : ∀ j < k, m' (v + j) = m (v + j)) :
    mapped m' v k = mapped m v k := by
  unfold mapped
  exact map_congr rfl fun j hj => by rw [h j (mem_range.mp hj)]

theorem mapped_zero (m : ℕ → ℕ) (v : ℕ) : mapped m v 0 = 0 := by
  unfold mapped
  rfl

theorem card_mapped (m : ℕ → ℕ) (v k : ℕ) : (mapped m v k).card = k := by
  unfold mapped
  rw [card_map, card_range]

theorem flags_ne_of_leaf (h : Leaf e) : PTE_FLAGS e ≠ PTE_V := by
  intro he
  rw [leaf_flags, he] at h
  exact h rfl

theorem wp_uvmunmapFrom {doFree : Bool} (hP : P 0 0) (h : TableOf P s r m O)
    (ho : Own s (O + ((if doFree then mapped m v k else 0) + H))) (hv : (v + k) * PGSIZE ≤ MAXVA)
    (hm : ∀ j < k, m (v + j) &&& PTE_V ≠ 0 ∧ PTE_FLAGS (m (v + j)) ≠ PTE_V) :
    wp (uvmunmapFrom r doFree k (v * PGSIZE)) NoPanic (fun _ s' => Own s' (O + H) ∧
      Frame s s' H ∧ TableOf P s' r (cleared m v k) O) s := by
  induction k generalizing s v m with
  | zero =>
    have hz : (if doFree then mapped m v 0 else 0) = 0 := by rw [mapped_zero, ite_self]
    rw [hz, zero_add] at ho
    exact ⟨ho, .refl s H, (cleared_zero m v).symm ▸ h⟩
  | succ k ih =>
    have hlt : v * PGSIZE < MAXVA := by
      unfold MAXVA PGSIZE at *
      omega
    have hv' : v < NVPN := by
      unfold NVPN NPTE MAXVA PGSIZE at *
      omega
    obtain ⟨hvalid, hflags⟩ := hm 0 (Nat.succ_pos k)
    rw [Nat.add_zero] at hvalid hflags
    rw [uvmunmapFrom, wp_bind]
    refine wp_walk_find hlt ?_
    rw [Nat.mul_div_cancel _ (by decide)]
    cases hl : tree.find s.pte 2 r v with
    | none => exact absurd (by rw [h.of_find_none hv' hl]; rfl) hvalid
    | some l =>
      rw [wp_bind, wp_readPte, h.entry hv' hl, wp_bind, wp_stopIf]
      refine ⟨fun hc => absurd hc hvalid, fun _ => ?_⟩
      rw [wp_bind, wp_stopIf]
      refine ⟨fun hc => absurd hc hflags, fun _ => ?_⟩
      -- after the page is freed, or not
      have hfree : wp (runIf (doFree = true) (kfree (PTE2PA (m v)))) NoPanic (fun _ s₁ =>
          Own s₁ (O + ((if doFree then mapped m (v + 1) k else 0) + H)) ∧
            Frame s s₁ (O + ((if doFree then mapped m (v + 1) k else 0) + H))) s := by
        rw [wp_runIf]
        cases doFree with
        | false => exact ⟨nofun, fun _ => ⟨ho, .refl s _⟩⟩
        | true =>
          simp only [if_true] at ho ⊢
          rw [mapped_succ, cons_add, add_cons] at ho
          exact ⟨fun _ => wp_kfree ho, fun hc => absurd trivial hc⟩
      rw [wp_bind]
      refine hfree.post fun _ s₁ ⟨ho₁, hf₁⟩ => ?_
      have hO : O ⊆ O + ((if doFree then mapped m (v + 1) k else 0) + H) := fun x hx =>
        mem_add.mpr (.inl hx)
      have hl₁ := (h.find_congr hf₁ hO).trans hl
      obtain ⟨ht₂, hf₂⟩ := (h.congr hf₁ hO).set ho₁ hv' hl₁ (e := 0) (by decide) hP
      have hnext : v * PGSIZE + PGSIZE = (v + 1) * PGSIZE := by ring
      have hother : ∀ j, update m v 0 (v + 1 + j) = m (v + 1 + j) := fun j =>
        update_of_ne (by omega) _ _
      have hsame : mapped (update m v 0) (v + 1) k = mapped m (v + 1) k :=
        mapped_congr fun j _ => hother j
      rw [wp_bind, wp_writePte, hnext]
      rw [← hsame] at ho₁
      refine (ih ht₂ ho₁.put ?_ fun j hj => ?_).post fun _ s' ⟨ho', hf', ht'⟩ => ?_
      · rw [show v + 1 + k = v + (k + 1) by omega]
        exact hv
      · rw [hother, Nat.add_assoc, Nat.add_comm 1]
        exact hm (j + 1) (by omega)
      · have hH : H ⊆ O + ((if doFree then mapped m (v + 1) k else 0) + H) := fun x hx =>
          mem_add.mpr (.inr (mem_add.mpr (.inr hx)))
        have hH' : H ⊆ (if doFree then mapped m (v + 1) k else 0) + H := fun x hx =>
          mem_add.mpr (.inr hx)
        refine ⟨ho', ((hf₁.mono hH).trans (hf₂.mono hH')).trans hf', ?_⟩
        rw [cleared_succ]
        exact ht'

theorem wp_uvmunmap_of (doFree : Bool) (hP : P 0 0) (h : TableOf P s r m O)
    (ho : Own s (O + ((if doFree then mapped m v k else 0) + H))) (hv : (v + k) * PGSIZE ≤ MAXVA)
    (hm : ∀ j < k, m (v + j) &&& PTE_V ≠ 0 ∧ PTE_FLAGS (m (v + j)) ≠ PTE_V) :
    wp (uvmunmap r (v * PGSIZE) k doFree) NoPanic (fun _ s' => Own s' (O + H) ∧
      Frame s s' H ∧ TableOf P s' r (cleared m v k) O) s := by
  rw [uvmunmap, wp_bind, wp_stopIf]
  refine ⟨fun hc => absurd (Nat.mul_mod_left v PGSIZE) hc, fun _ => ?_⟩
  exact wp_uvmunmapFrom hP h ho hv hm

theorem wp_uvmunmap (doFree : Bool) (h : Table s r m O)
    (ho : Own s (O + ((if doFree then mapped m v k else 0) + H))) (hv : (v + k) * PGSIZE ≤ MAXVA)
    (hm : ∀ j < k, m (v + j) &&& PTE_V ≠ 0) :
    wp (uvmunmap r (v * PGSIZE) k doFree) NoPanic (fun _ s' => Own s' (O + H) ∧
      Frame s s' H ∧ Table s' r (cleared m v k) O) s := by
  refine wp_uvmunmap_of doFree (links_kind.blank 0) h ho hv fun j hj => ⟨hm j hj, ?_⟩
  have hlt : v + j < NVPN := by
    unfold NVPN NPTE MAXVA PGSIZE at *
    omega
  exact flags_ne_of_leaf (h.leaf hlt (hm j hj))

/-! ## Freeing a table -/

/-- Valid entries point to tables and stand above level 0. -/
def Gone (h e : ℕ) : Prop := e &&& PTE_V ≠ 0 → h ≠ 0 ∧ ¬ Leaf e

theorem wp_freewalkFrom_leaf {sub : ℕ → M Unit} {i : ℕ}
    (he : ∀ j, i ≤ j → j < i + k → ¬ s.pte p j &&& PTE_V ≠ 0) :
    wp (freewalkFrom sub p k i) NoPanic (fun _ s' => s' = s) s := by
  induction k generalizing i with
  | zero => exact rfl
  | succ k ih =>
    have hi := he i le_rfl (by omega)
    rw [freewalkFrom, wp_bind, wp_readPte, if_neg fun hc => hi hc.1]
    rw [wp_bind, wp_stopIf]
    exact ⟨fun hc => absurd hc hi, fun _ => ih fun j hj hjk => he j (by omega) (by omega)⟩

theorem wp_freewalkFrom {sub : ℕ → M Unit} {i : ℕ} (hik : i + k = NPTE)
    (hsub : ∀ s c H, Own s (tree.nodes s.pte n c + H) → tree.Each s.pte Gone n c →
      wp (sub c) NoPanic (fun _ s' => Own s' H ∧ Frame s s' H) s)
    (ho : Own s (p ::ₘ (∑ j ∈ Finset.Ico i NPTE, tree.branch s.pte n (s.pte p j) + H)))
    (he : ∀ j, i ≤ j → j < NPTE → Gone (n + 1) (s.pte p j) ∧
      ∀ c, tree.child (s.pte p j) = some c → tree.Each s.pte Gone n c) :
    wp (freewalkFrom sub p k i) NoPanic (fun _ s' => Own s' (p ::ₘ H) ∧ Frame s s' H) s := by
  induction k generalizing i s with
  | zero =>
    rw [Nat.add_zero] at hik
    rw [hik, Finset.Ico_self, Finset.sum_empty, zero_add] at ho
    rw [freewalkFrom, wp_pure]
    exact ⟨ho, .refl s H⟩
  | succ k ih =>
    have hi : i < NPTE := by omega
    rw [Finset.sum_eq_sum_Ico_succ_bot hi] at ho
    rw [freewalkFrom, wp_bind, wp_readPte]
    -- the rest of the loop, from a memory in which the other entries are as before
    have hrest : ∀ s₁, Own s₁ (p ::ₘ (∑ j ∈ Finset.Ico (i + 1) NPTE,
        tree.branch s.pte n (s.pte p j) + H)) →
        Frame s s₁ (∑ j ∈ Finset.Ico (i + 1) NPTE, tree.branch s.pte n (s.pte p j) + H) →
        (∀ j, j ≠ i → s₁.pte p j = s.pte p j) →
        wp (freewalkFrom sub p k (i + 1)) NoPanic
          (fun _ s' => Own s' (p ::ₘ H) ∧ Frame s s' H) s₁ := by
      intro s₁ ho₁ hf₁ hp₁
      have hsame : ∀ j, i + 1 ≤ j → j < NPTE → ∀ c, tree.child (s.pte p j) = some c →
          ∀ q ∈ tree.nodes s.pte n c, ∀ x < tree.W, s₁.pte q x = s.pte q x := by
        intro j hj hjn c hc q hq x _
        refine hf₁.pte_eq (mem_add.mpr (.inl (mem_sum.mpr ⟨j, ?_, ?_⟩))) x
        · exact Finset.mem_Ico.mpr ⟨hj, hjn⟩
        · rwa [Radix.branch_of_child hc]
      have hbranch : ∑ j ∈ Finset.Ico (i + 1) NPTE, tree.branch s₁.pte n (s₁.pte p j) =
          ∑ j ∈ Finset.Ico (i + 1) NPTE, tree.branch s.pte n (s.pte p j) := by
        refine Finset.sum_congr rfl fun j hj => ?_
        obtain ⟨hj, hjn⟩ := Finset.mem_Ico.mp hj
        rw [hp₁ j (by omega)]
        cases hc : tree.child (s.pte p j) with
        | none => simp only [Radix.branch, hc, Option.elim_none]
        | some c =>
          rw [Radix.branch_of_child hc, Radix.branch_of_child hc,
            Radix.nodes_congr (hsame j hj hjn c hc)]
      refine (ih (by omega) (hbranch.symm ▸ ho₁) fun j hj hjn => ?_).post fun _ s' h' => ?_
      · rw [hp₁ j (by omega)]
        obtain ⟨h₁, h₂⟩ := he j (by omega) hjn
        exact ⟨h₁, fun c hc => Radix.each_congr (hsame j hj hjn c hc) (h₂ c hc)⟩
      · exact ⟨h'.1, (hf₁.mono fun x hx => mem_add.mpr (.inr hx)).trans h'.2⟩
    have hp := (nodup_cons.mp ho.nodup).1
    split
    next hv =>
      have hc := child_of_valid hv.1
      rw [Radix.branch_of_child hc, add_assoc, ← add_cons] at ho
      rw [Radix.branch_of_child hc, add_assoc] at hp
      rw [wp_bind]
      refine (hsub s _ _ ho ((he i le_rfl hi).2 _ hc)).post fun _ s₁ ⟨ho₁, hf₁⟩ => ?_
      rw [wp_bind, wp_writePte]
      refine hrest _ ho₁.put ?_ fun j hj => ?_
      · refine (hf₁.mono fun x hx => mem_cons_of_mem hx).trans ?_
        exact frame_put ho₁ (mem_cons_self p _)
          fun hx => hp (mem_add.mpr (.inr hx))
      · rw [pte_setPte_of_ne (by simp [hj])]
        exact hf₁.pte_eq (mem_cons_self p _) j
    next hv =>
      have hinv : ¬ s.pte p i &&& PTE_V ≠ 0 := fun hval =>
        hv ⟨hval, not_not.mp ((he i le_rfl hi).1 hval).2⟩
      rw [Radix.branch, child_of_invalid hinv, Option.elim_none, zero_add] at ho
      rw [wp_bind, wp_stopIf]
      exact ⟨fun hc => absurd hc hinv, fun _ => hrest s ho (.refl s _) fun _ _ => rfl⟩

theorem wp_freewalk (ho : Own s (tree.nodes s.pte n p + H)) (he : tree.Each s.pte Gone n p) :
    wp (freewalk (n + 1) p) NoPanic (fun _ s' => Own s' H ∧ Frame s s' H) s := by
  induction n generalizing s p H with
  | zero =>
    rw [freewalk, wp_bind]
    refine (wp_freewalkFrom_leaf fun j _ hj => ?_).post fun _ s' hs => ?_
    · intro hv
      exact ((he j (by rw [tree_W]; omega)) hv).1 rfl
    · subst hs
      exact wp_kfree ho
  | succ n ih =>
    rw [freewalk, wp_bind]
    have hsum : tree.nodes s.pte (n + 1) p + H =
        p ::ₘ (∑ j ∈ Finset.Ico 0 NPTE, tree.branch s.pte n (s.pte p j) + H) := by
      rw [Radix.nodes, tree_W, cons_add, ← Finset.range_eq_Ico]
      rfl
    rw [hsum] at ho
    refine (wp_freewalkFrom (Nat.zero_add _) (fun s c H ho he => ih ho he) ho fun j _ hj => ?_).post
      fun _ s' ⟨ho', hf'⟩ => ?_
    · exact he j (by rwa [tree_W])
    · exact (wp_kfree ho').post fun _ s'' ⟨ho'', hf''⟩ => ⟨ho'', hf'.trans hf''⟩

/-- A table without mappings is freed. -/
theorem wp_freewalk_table (h : Table s r m O) (ho : Own s (O + H))
    (hm : ∀ v < NVPN, ¬ m v &&& PTE_V ≠ 0) :
    wp (freewalk 3 r) NoPanic (fun _ s' => Own s' H ∧ Frame s s' H) s := by
  have hW : tree.W ^ (2 + 1) = NVPN := by rw [tree_W]
  refine wp_freewalk (h.nodes.symm ▸ ho) ?_
  have hnone : ∀ v < tree.W ^ (2 + 1), ¬ tree.look s.pte 2 r v &&& PTE_V ≠ 0 := fun v hv => by
    rw [h.look v (hW ▸ hv)]
    exact hm v (hW ▸ hv)
  refine Radix.each_mono ?_ (Radix.each_of_look (Q := fun e => ¬ e &&& PTE_V ≠ 0) h.each hnone)
  rintro l e ⟨hk, hz⟩ hv
  have hl : l ≠ 0 := fun hl => hz hl hv
  exact ⟨hl, fun hleaf => hl ((hk hv).mpr hleaf)⟩

end Xv6.Vm

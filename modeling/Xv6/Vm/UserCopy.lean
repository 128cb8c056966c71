import Xv6.Vm.AddressSpace

/-! # Copies between kernel and user memory

`copyout`, `copyin` and `copyinstr` look up each page of a range in the page table and
copy its part of the range. A range is copied exactly if the user may access all of
it. Whether the user may write there is not asked.
-/

namespace Xv6.Vm

open Sys (ProcState FdType Fptr Pptr)

variable {s s₁ s' : Mem} {r va dst len n k : ℕ} {src : List UInt8} {b : Bool}

namespace Mem

/-- The page-table entry for a user address, or 0. -/
def entry (s : Mem) (r va : ℕ) : ℕ := tree.look s.pte 2 r (va / PGSIZE)

/-- The physical page of a user address. -/
def frame (s : Mem) (r va : ℕ) : ℕ := PTE2PA (s.entry r va)

/-- Where a user address lies in physical memory. -/
def place (s : Mem) (r va : ℕ) : ℕ × ℕ := (s.frame r va, va % PGSIZE)

def byte (s : Mem) (r va : ℕ) : UInt8 := (s.page (s.frame r va)).get (va % PGSIZE)

/-- The address is mapped for the user. -/
def Access (s : Mem) (r va : ℕ) : Prop :=
  va < MAXVA ∧ s.entry r va &&& PTE_V ≠ 0 ∧ s.entry r va &&& PTE_U ≠ 0

instance : Decidable (s.Access r va) := inferInstanceAs (Decidable (_ ∧ _ ∧ _))

theorem entry_of_page (h : va / PGSIZE = k / PGSIZE) : s.entry r va = s.entry r k := by
  rw [entry, entry, h]

theorem frame_of_page (h : va / PGSIZE = k / PGSIZE) : s.frame r va = s.frame r k := by
  rw [frame, frame, entry_of_page h]

theorem access_of_page (h : va / PGSIZE = k / PGSIZE) : s.Access r va ↔ s.Access r k := by
  have hlt : va < MAXVA ↔ k < MAXVA := by
    unfold MAXVA PGSIZE at *
    omega
  rw [Access, Access, entry_of_page h, hlt]

theorem entry_congr (h : ∀ q ∈ tree.nodes s.pte 2 r, s'.page q = s.page q) :
    s'.entry r va = s.entry r va :=
  Radix.look_congr fun q hq i _ => by rw [pte, pte, h q hq]

theorem frame_congr (h : ∀ q ∈ tree.nodes s.pte 2 r, s'.page q = s.page q) :
    s'.frame r va = s.frame r va := by
  rw [frame, frame, entry_congr h]

theorem access_congr (h : ∀ q ∈ tree.nodes s.pte 2 r, s'.page q = s.page q) :
    s'.Access r va ↔ s.Access r va := by
  rw [Access, Access, entry_congr h]

end Mem

/-- Distinct pages that the user may access are distinct physical pages. None of them is page 0 or
belongs to the page table. -/
structure Separate (s : Mem) (r : ℕ) : Prop where
  inj : ∀ va va', s.Access r va → s.Access r va' → s.frame r va = s.frame r va' →
    va / PGSIZE = va' / PGSIZE
  ne_zero : ∀ va, s.Access r va → s.frame r va ≠ 0
  notMem : ∀ va, s.Access r va → s.frame r va ∉ tree.nodes s.pte 2 r

theorem Separate.congr (h : Separate s r) (hp : ∀ q ∈ tree.nodes s.pte 2 r, s'.page q = s.page q) :
    Separate s' r := by
  have hnodes : tree.nodes s'.pte 2 r = tree.nodes s.pte 2 r :=
    Radix.nodes_congr fun q hq i _ => by rw [Mem.pte, Mem.pte, hp q hq]
  constructor
  · intro va va' ha ha' he
    rw [Mem.frame_congr hp, Mem.frame_congr hp] at he
    exact h.inj va va' ((Mem.access_congr hp).mp ha) ((Mem.access_congr hp).mp ha') he
  · intro va ha
    rw [Mem.frame_congr hp]
    exact h.ne_zero va ((Mem.access_congr hp).mp ha)
  · intro va ha
    rw [Mem.frame_congr hp, hnodes]
    exact h.notMem va ((Mem.access_congr hp).mp ha)

theorem Separate.place_ne (h : Separate s r) {va' : ℕ} (ha : s.Access r va) (ha' : s.Access r va')
    (hne : va ≠ va') : s.place r va ≠ s.place r va' := fun he => by
  obtain ⟨hf, ho⟩ := Prod.mk.injEq .. ▸ he
  have hv := h.inj va va' ha ha' hf
  refine hne ?_
  rw [← Nat.div_add_mod va PGSIZE, ← Nat.div_add_mod va' PGSIZE, hv, ho]

theorem wp_walkaddr_access {Q : Option ℕ → Mem → Prop} (h : Separate s r)
    (hnone : ¬ s.Access r va → Q none s) (hsome : s.Access r va → Q (some (s.frame r va)) s) :
    wp (walkaddr r (PGROUNDDOWN va)) NoPanic Q s := by
  have hpage : PGROUNDDOWN va / PGSIZE = va / PGSIZE := by
    unfold PGROUNDDOWN
    rw [Nat.mul_div_cancel _ (by decide)]
  unfold walkaddr
  split
  next hva =>
    refine hnone fun hc => ?_
    rw [← Mem.access_of_page hpage] at hc
    exact absurd hc.1 (Nat.not_lt.mpr hva)
  next hva =>
    have hlt : va < MAXVA := by
      unfold PGROUNDDOWN MAXVA PGSIZE at *
      omega
    rw [wp_bind]
    refine wp_walk_find (Nat.lt_of_not_le hva) ?_
    rw [hpage]
    cases hl : tree.find s.pte 2 r (va / PGSIZE) with
    | none =>
      refine hnone fun hc => hc.2.1 ?_
      rw [Mem.entry, Radix.look, hl]
      exact congrArg (· &&& PTE_V) tree_blank
    | some l =>
      have he : s.pte l.1 l.2 = s.entry r va := by
        rw [Mem.entry, Radix.look, hl]
        rfl
      rw [wp_bind, wp_readPte, he]
      split
      next hv => exact hnone fun hc => hc.2.1 hv
      next hv =>
        split
        next hu => exact hnone fun hc => hc.2.2 hu
        next hu =>
          have ha : s.Access r va := ⟨hlt, hv, hu⟩
          have hz : PTE2PA (s.entry r va) ≠ 0 := h.ne_zero va ha
          rw [if_neg hz]
          exact hsome ha

/-! ## What is copied -/

/-- Of `len` bytes from `dst` on, the first `n` are accessible; the copy stops there unless it is
complete. -/
structure Reach (s : Mem) (r dst len n : ℕ) (b : Bool) : Prop where
  le : n ≤ len
  access : ∀ i < n, s.Access r (dst + i)
  complete : b = true → n = len
  stop : b = false → n < len ∧ ¬ s.Access r (dst + n)

namespace Reach

theorem iff (h : Reach s r dst len n b) : b = true ↔ ∀ i < len, s.Access r (dst + i) := by
  constructor
  · intro hb
    rw [← h.complete hb]
    exact h.access
  · intro ha
    by_contra hc
    obtain ⟨hlt, hn⟩ := h.stop (Bool.eq_false_of_not_eq_true hc)
    exact hn (ha n hlt)

theorem nil : Reach s r dst 0 0 true := ⟨le_rfl, nofun, fun _ => rfl, nofun⟩

theorem refused (ha : ¬ s.Access r dst) (hl : len ≠ 0) : Reach s r dst len 0 false :=
  ⟨Nat.zero_le _, nofun, nofun, fun _ => ⟨Nat.pos_of_ne_zero hl, ha⟩⟩

/-- The copy goes on after `n` bytes. -/
theorem next (ha : ∀ i < n, s.Access r (dst + i)) (hn : n ≤ len)
    (h : Reach s r (dst + n) (len - n) k b) : Reach s r dst len (n + k) b where
  le := by have := h.le; omega
  access i hi := by
    rcases Nat.lt_or_ge i n with hlt | hge
    · exact ha i hlt
    · have := h.access (i - n) (by omega)
      rwa [show dst + n + (i - n) = dst + i by omega] at this
  complete hb := by have := h.complete hb; omega
  stop hb := by
    obtain ⟨hlt, hstop⟩ := h.stop hb
    rw [Nat.add_assoc] at hstop
    exact ⟨by omega, hstop⟩

/-- The address does not matter when nothing is left to copy. -/
theorem move {dst' : ℕ} (h : Reach s r dst len n b) (hd : len = 0 ∨ dst = dst') :
    Reach s r dst' len n b := by
  rcases hd with rfl | rfl
  · refine ⟨h.le, fun i hi => absurd hi (by have := h.le; omega), h.complete, fun hb => ?_⟩
    exact absurd (h.stop hb).1 (Nat.not_lt_zero _)
  · exact h

theorem congr (hp : ∀ q ∈ tree.nodes s.pte 2 r, s'.page q = s.page q)
    (h : Reach s' r dst len n b) : Reach s r dst len n b where
  le := h.le
  access i hi := (Mem.access_congr hp).mp (h.access i hi)
  complete := h.complete
  stop hb := ⟨(h.stop hb).1, fun hc => (h.stop hb).2 ((Mem.access_congr hp).mpr hc)⟩

end Reach

/-- The first `n` bytes of `src` have come to the user addresses from `dst` on, and no other byte of
memory has changed. -/
structure Copied (s s' : Mem) (r dst : ℕ) (src : List UInt8) (n : ℕ) : Prop where
  free : s'.free = s.free
  image : s'.image = s.image
  inside : ∀ i < n, (s'.page (s.frame r (dst + i))).get ((dst + i) % PGSIZE) = src.getD i 0
  outside : ∀ q j, (∀ i < n, s.place r (dst + i) ≠ (q, j)) → (s'.page q).get j = (s.page q).get j

namespace Copied

theorem zero : Copied s s r dst src 0 := ⟨rfl, rfl, nofun, fun _ _ _ => rfl⟩

theorem move {dst' : ℕ} (h : Copied s s' r dst src n) (hd : n = 0 ∨ dst = dst') :
    Copied s s' r dst' src n := by
  rcases hd with rfl | rfl
  · exact ⟨h.free, h.image, nofun, fun q j _ => h.outside q j nofun⟩
  · exact h

/-- A page that holds none of the addresses keeps its bytes. -/
theorem page_eq (h : Copied s s' r dst src n) {q : ℕ} (hq : ∀ i < n, s.frame r (dst + i) ≠ q) :
    s'.page q = s.page q := by
  refine Bytes.eq_of_get fun j => h.outside q j fun i hi hc => hq i hi ?_
  exact (Prod.mk.injEq .. ▸ hc).1

theorem table (hs : Separate s r) (h : Copied s s' r dst src n)
    (ha : ∀ i < n, s.Access r (dst + i)) : ∀ q ∈ tree.nodes s.pte 2 r, s'.page q = s.page q :=
  fun _ hq => h.page_eq fun i hi hc => hs.notMem _ (ha i hi) (hc ▸ hq)

theorem byte_eq (hs : Separate s r) (h : Copied s s' r dst src n)
    (ha : ∀ i < n, s.Access r (dst + i)) {i : ℕ} (hi : i < n) :
    s'.byte r (dst + i) = src.getD i 0 := by
  rw [Mem.byte, Mem.frame_congr (h.table hs ha)]
  exact h.inside i hi

/-- The part of a range on one page is written. -/
theorem put (hn : dst % PGSIZE + n ≤ PGSIZE) :
    Copied s (s.put (s.frame r dst) ((s.page (s.frame r dst)).blit (dst % PGSIZE)
      (fun j => src.getD j 0) n)) r dst src n := by
  have hpage : ∀ i < n, (dst + i) / PGSIZE = dst / PGSIZE ∧
      (dst + i) % PGSIZE = dst % PGSIZE + i := fun i hi => by
    unfold PGSIZE at *
    omega
  refine ⟨rfl, rfl, fun i hi => ?_, fun q j hq => ?_⟩
  · rw [Mem.frame_of_page (hpage i hi).1, (hpage i hi).2, put_page_self,
      Bytes.get_blit _ hn, if_pos (by omega), Nat.add_sub_cancel_left]
  · rcases eq_or_ne q (s.frame r dst) with rfl | hne
    · rw [put_page_self, Bytes.get_blit _ hn, if_neg]
      rintro ⟨h₁, h₂⟩
      have hi : j - dst % PGSIZE < n := by omega
      refine hq _ hi ?_
      rw [Mem.place, Mem.frame_of_page (hpage _ hi).1, (hpage _ hi).2, Nat.add_sub_cancel' h₁]
    · rw [put_page_of_ne hne]

theorem trans (hs : Separate s r) (ha : ∀ i < n + k, s.Access r (dst + i))
    (h : Copied s s₁ r dst src n) (h' : Copied s₁ s' r (dst + n) (src.drop n) k) :
    Copied s s' r dst src (n + k) := by
  have hf : ∀ va, s₁.frame r va = s.frame r va := fun va =>
    Mem.frame_congr (h.table hs fun i hi => ha i (by omega))
  have hplace : ∀ i, s₁.place r (dst + n + i) = s.place r (dst + (n + i)) := fun i => by
    rw [Mem.place, Mem.place, hf, Nat.add_assoc]
  refine ⟨h'.free.trans h.free, h'.image.trans h.image, fun i hi => ?_, fun q j hq => ?_⟩
  · rcases Nat.lt_or_ge i n with hlt | hge
    · have hother : ∀ i' < k, s₁.place r (dst + n + i') ≠ s.place r (dst + i) := fun i' hi' => by
        rw [hplace]
        exact hs.place_ne (ha _ (by omega)) (ha i hi) (by omega)
      exact (h'.outside _ _ hother).trans (h.inside i hlt)
    · have := h'.inside (i - n) (by omega)
      rw [hf, show dst + n + (i - n) = dst + i by omega] at this
      rw [this, List.getD_eq_getElem?_getD, List.getElem?_drop, Nat.add_sub_cancel' hge,
        List.getD_eq_getElem?_getD]
  · have h₁ : ∀ i < n, s.place r (dst + i) ≠ (q, j) := fun i hi => hq i (by omega)
    have h₂ : ∀ i < k, s₁.place r (dst + n + i) ≠ (q, j) := fun i hi => by
      rw [hplace]
      exact hq (n + i) (by omega)
    exact (h'.outside q j h₂).trans (h.outside q j h₁)

end Copied

/-! ## `copyout` -/

/-- The part of a page that one round copies. -/
theorem round_eq (dst : ℕ) (hl : len ≠ 0) : ∃ n, min (PGSIZE - (dst - PGROUNDDOWN dst)) len = n ∧ 0 < n ∧
    n ≤ len ∧ dst % PGSIZE + n ≤ PGSIZE ∧ dst - PGROUNDDOWN dst = dst % PGSIZE ∧
    (∀ i < n, (dst + i) / PGSIZE = dst / PGSIZE) ∧
    (n = len ∨ PGROUNDDOWN dst + PGSIZE = dst + n) := by
  have hoff : dst - PGROUNDDOWN dst = dst % PGSIZE := by
    unfold PGROUNDDOWN PGSIZE
    omega
  have hlt : dst % PGSIZE < PGSIZE := Nat.mod_lt _ (by decide)
  refine ⟨_, rfl, ?_, ?_, ?_, hoff, fun i hi => ?_, ?_⟩ <;> rw [hoff] at * <;>
    unfold PGROUNDDOWN PGSIZE at * <;> omega

theorem wp_copyoutFrom_exact {fuel : ℕ} (h : Separate s r) (hf : src.length ≤ fuel) :
    wp (copyoutFrom r fuel dst src) NoPanic
      (fun b s' => ∃ n, Reach s r dst src.length n b ∧ Copied s s' r dst src n) s := by
  induction fuel generalizing s dst src with
  | zero =>
    obtain rfl : src = [] := List.length_eq_zero_iff.mp (Nat.le_zero.mp hf)
    exact ⟨0, .nil, .zero⟩
  | succ fuel ih =>
    rw [copyoutFrom]
    split
    next he =>
      obtain rfl : src = [] := List.isEmpty_iff.mp he
      exact ⟨0, .nil, .zero⟩
    next he =>
      have hl : src.length ≠ 0 := fun hc => he (List.isEmpty_iff.mpr (List.length_eq_zero_iff.mp hc))
      obtain ⟨n, hn, hpos, hle, hfit, hoff, hpage, hnext⟩ := round_eq dst hl
      rw [wp_bind]
      refine wp_walkaddr_access h (fun ha => ⟨0, .refused ha hl, .zero⟩) fun ha => ?_
      dsimp only
      rw [wp_bind, wp_get, wp_bind, wp_setPage, hn, hoff]
      have hall : ∀ i < n, s.Access r (dst + i) := fun i hi =>
        (Mem.access_of_page (hpage i hi)).mpr ha
      have hput : Copied s _ r dst src n := Copied.put hfit
      have htab := hput.table h hall
      refine (ih (h.congr htab) (by rw [List.length_drop]; omega)).post fun b s' h' => ?_
      obtain ⟨k, hreach, hcopy⟩ := h'
      rw [List.length_drop] at hreach
      have hmove : src.length - n = 0 ∨ PGROUNDDOWN dst + PGSIZE = dst + n := by omega
      have hr := ((hreach.congr htab).move hmove).next hall hle
      have hmove' : k = 0 ∨ PGROUNDDOWN dst + PGSIZE = dst + n := by
        have := hreach.le
        omega
      exact ⟨n + k, hr, hput.trans h hr.access (hcopy.move hmove')⟩

theorem wp_copyout (h : Separate s r) (dst : ℕ) (src : List UInt8) : wp (copyout r dst src) NoPanic
    (fun b s' => ∃ n, Reach s r dst src.length n b ∧ Copied s s' r dst src n) s :=
  wp_copyoutFrom_exact h le_rfl

/-! ## `copyin` -/

/-- The bytes at `n` user addresses from `va` on. -/
def Mem.range (s : Mem) (r va n : ℕ) : List UInt8 := (List.range n).map fun i => s.byte r (va + i)

theorem range_zero : s.range r va 0 = [] := rfl

theorem range_add (va n k : ℕ) : s.range r va (n + k) = s.range r va n ++ s.range r (va + n) k := by
  simp [Mem.range, List.range_add, Nat.add_assoc]

theorem length_range : (s.range r va n).length = n := by simp [Mem.range]

theorem getD_range {i : ℕ} (hi : i < n) : (s.range r va n).getD i 0 = s.byte r (va + i) := by
  simp [Mem.range, hi]

theorem bytes_eq_range (hn : va % PGSIZE + n ≤ PGSIZE) :
    s.bytes (s.frame r va) (va % PGSIZE) n = s.range r va n := by
  refine List.map_congr_left fun i hi => ?_
  have hi := List.mem_range.mp hi
  have hpage : (va + i) / PGSIZE = va / PGSIZE ∧ (va + i) % PGSIZE = va % PGSIZE + i := by
    unfold PGSIZE at *
    omega
  rw [Mem.byte, Mem.frame_of_page hpage.1, hpage.2]

theorem wp_copyinFrom {fuel : ℕ} (h : Separate s r) (hf : len ≤ fuel) :
    wp (copyinFrom r fuel va len) NoPanic (fun c s' => s' = s ∧
      ∃ n, Reach s r va len n c.1 ∧ c.2 = s.range r va n) s := by
  induction fuel generalizing va len with
  | zero =>
    obtain rfl : len = 0 := Nat.le_zero.mp hf
    exact ⟨rfl, 0, .nil, rfl⟩
  | succ fuel ih =>
    rw [copyinFrom]
    split
    next hl =>
      subst hl
      exact ⟨rfl, 0, .nil, rfl⟩
    next hl =>
      obtain ⟨n, hn, hpos, hle, hfit, hoff, hpage, hnext⟩ := round_eq va hl
      rw [wp_bind]
      refine wp_walkaddr_access h (fun ha => ⟨rfl, 0, .refused ha hl, rfl⟩) fun ha => ?_
      dsimp only
      rw [wp_bind, wp_get, wp_bind, hn, hoff, bytes_eq_range hfit]
      have hall : ∀ i < n, s.Access r (va + i) := fun i hi =>
        (Mem.access_of_page (hpage i hi)).mpr ha
      refine (ih (by omega)).post fun c s' h' => ?_
      obtain ⟨rfl, k, hreach, hc⟩ := h'
      have hmove : len - n = 0 ∨ PGROUNDDOWN va + PGSIZE = va + n := by omega
      refine ⟨rfl, n + k, (hreach.move hmove).next hall hle, ?_⟩
      rw [range_add, hc]
      rcases hmove with hz | hgo
      · obtain rfl : k = 0 := by have := hreach.le; omega
        rw [range_zero, range_zero]
      · rw [hgo]

theorem wp_copyin (h : Separate s r) (va len : ℕ) : wp (copyin r va len) NoPanic
    (fun c s' => s' = s ∧ ∃ n, Reach s r va len n c.1 ∧ c.2 = s.range r va n) s :=
  wp_copyinFrom h le_rfl

/-! ## `copyinstr` -/

/-- Of `max` bytes from `va` on, the first `n` are accessible and not NUL. A NUL follows if `b`;
otherwise these are all bytes or the next is not accessible. -/
structure Scan (s : Mem) (r va max n : ℕ) (b : Bool) : Prop where
  le : n ≤ max
  access : ∀ i < n, s.Access r (va + i)
  chars : ∀ i < n, s.byte r (va + i) ≠ 0
  found : b = true → n < max ∧ s.Access r (va + n) ∧ s.byte r (va + n) = 0
  stop : b = false → n = max ∨ ¬ s.Access r (va + n)

namespace Scan

variable {max : ℕ}

theorem iff (h : Scan s r va max n b) :
    b = true ↔ ∃ i < max, s.byte r (va + i) = 0 ∧ ∀ j ≤ i, s.Access r (va + j) := by
  constructor
  · intro hb
    obtain ⟨hlt, ha, hz⟩ := h.found hb
    refine ⟨n, hlt, hz, fun j hj => ?_⟩
    rcases Nat.lt_or_eq_of_le hj with hj | rfl
    · exact h.access j hj
    · exact ha
  · rintro ⟨i, hi, hz, ha⟩
    by_contra hb
    have hni : n ≤ i := by
      by_contra hc
      exact h.chars i (by omega) hz
    rcases h.stop (Bool.eq_false_of_not_eq_true hb) with rfl | hs
    · omega
    · exact hs (ha n hni)

theorem nil : Scan s r va 0 0 false := ⟨le_rfl, nofun, nofun, nofun, fun _ => .inl rfl⟩

theorem refused (ha : ¬ s.Access r va) : Scan s r va max 0 false :=
  ⟨Nat.zero_le _, nofun, nofun, nofun, fun _ => .inr ha⟩

theorem next (ha : ∀ i < n, s.Access r (va + i)) (hc : ∀ i < n, s.byte r (va + i) ≠ 0)
    (hn : n ≤ max) (h : Scan s r (va + n) (max - n) k b) : Scan s r va max (n + k) b := by
  have hsplit : ∀ i < n + k, i < n ∨ ∃ j < k, va + i = va + n + j := fun i hi => by
    rcases Nat.lt_or_ge i n with hlt | hge
    · exact .inl hlt
    · exact .inr ⟨i - n, by omega, by omega⟩
  have hle := h.le
  refine ⟨by omega, fun i hi => ?_, fun i hi => ?_, fun hb => ?_, fun hb => ?_⟩
  · rcases hsplit i hi with hlt | ⟨j, hj, he⟩
    · exact ha i hlt
    · exact he ▸ h.access j hj
  · rcases hsplit i hi with hlt | ⟨j, hj, he⟩
    · exact hc i hlt
    · exact he ▸ h.chars j hj
  · rw [← Nat.add_assoc]
    exact ⟨by have := (h.found hb).1; omega, (h.found hb).2⟩
  · rw [← Nat.add_assoc]
    exact (h.stop hb).imp_left fun _ => by omega

theorem move {va' : ℕ} (h : Scan s r va max n b) (hd : max = 0 ∨ va = va') :
    Scan s r va' max n b := by
  rcases hd with rfl | rfl
  · have hn : n = 0 := Nat.le_zero.mp h.le
    subst hn
    exact ⟨le_rfl, nofun, nofun, fun hb => absurd (h.found hb).1 (Nat.not_lt_zero _),
      fun _ => .inl rfl⟩
  · exact h

end Scan

/-- The inner loop stops after the first NUL. -/
theorem copyChars_eq (bs : List UInt8) :
    (copyChars bs = (false, bs) ∧ ∀ i < bs.length, bs.getD i 0 ≠ 0) ∨
    ∃ k < bs.length, copyChars bs = (true, bs.take k ++ [0]) ∧ bs.getD k 0 = 0 ∧
      ∀ i < k, bs.getD i 0 ≠ 0 := by
  induction bs with
  | nil => exact .inl ⟨rfl, nofun⟩
  | cons b bs ih =>
    by_cases hb : b = 0
    · subst hb
      exact .inr ⟨0, by simp, rfl, rfl, nofun⟩
    rw [copyChars, if_neg hb]
    have hcons : ∀ {k}, (∀ i < k, bs.getD i 0 ≠ 0) → ∀ i < k + 1, (b :: bs).getD i 0 ≠ 0 := by
      intro k hk i hi
      cases i with
      | zero => exact hb
      | succ i => exact hk i (by omega)
    rcases ih with ⟨he, hall⟩ | ⟨k, hk, he, hz, hall⟩
    · exact .inl ⟨by rw [he], hcons hall⟩
    · exact .inr ⟨k + 1, Nat.succ_lt_succ hk, by rw [he]; rfl, hz, hcons hall⟩

theorem take_range (hk : k ≤ n) : (s.range r va n).take k = s.range r va k := by
  obtain ⟨j, rfl⟩ := Nat.exists_eq_add_of_le hk
  rw [range_add, List.take_left' length_range]

theorem wp_copyinstrFrom {fuel max : ℕ} (h : Separate s r) (hf : max ≤ fuel) :
    wp (copyinstrFrom r fuel va max) NoPanic (fun c s' => s' = s ∧ ∃ n, Scan s r va max n c.1 ∧
      c.2 = s.range r va n ++ if c.1 then [0] else []) s := by
  induction fuel generalizing va max with
  | zero =>
    obtain rfl : max = 0 := Nat.le_zero.mp hf
    exact ⟨rfl, 0, .nil, rfl⟩
  | succ fuel ih =>
    rw [copyinstrFrom]
    split
    next hl =>
      subst hl
      exact ⟨rfl, 0, .nil, rfl⟩
    next hl =>
      obtain ⟨n, hn, hpos, hle, hfit, hoff, hpage, hnext⟩ := round_eq va hl
      rw [wp_bind]
      refine wp_walkaddr_access h (fun ha => ⟨rfl, 0, .refused ha, rfl⟩) fun ha => ?_
      dsimp only
      rw [wp_bind, wp_get, hn, hoff, bytes_eq_range hfit]
      have hall : ∀ i < n, s.Access r (va + i) := fun i hi =>
        (Mem.access_of_page (hpage i hi)).mpr ha
      rcases copyChars_eq (s.range r va n) with ⟨he, hc⟩ | ⟨k, hk, he, hz, hc⟩
      · rw [length_range] at hc
        have hchars : ∀ i < n, s.byte r (va + i) ≠ 0 := fun i hi => getD_range hi ▸ hc i hi
        rw [he, if_neg Bool.false_ne_true, wp_bind]
        refine (ih (by omega)).post fun c s' h' => ?_
        obtain ⟨rfl, k, hscan, hc'⟩ := h'
        have hmove : max - n = 0 ∨ PGROUNDDOWN va + PGSIZE = va + n := by omega
        refine ⟨rfl, n + k, (hscan.move hmove).next hall hchars hle, ?_⟩
        dsimp only
        rw [range_add, hc', List.append_assoc]
        rcases hmove with hz | hgo
        · obtain rfl : k = 0 := by have := hscan.le; omega
          rw [range_zero, range_zero]
        · rw [hgo]
      · rw [length_range] at hk
        rw [he, if_pos rfl]
        refine ⟨rfl, k, ⟨by omega, fun i hi => hall i (by omega), fun i hi => ?_, fun _ => ?_, nofun⟩, ?_⟩
        · exact getD_range (hi.trans hk) ▸ hc i hi
        · exact ⟨by omega, hall k hk, getD_range hk ▸ hz⟩
        · rw [take_range hk.le]
          rfl

theorem wp_copyinstr (h : Separate s r) (va max : ℕ) : wp (copyinstr r va max) NoPanic
    (fun c s' => s' = s ∧ ∃ n, Scan s r va max n c.1 ∧
      c.2 = s.range r va n ++ if c.1 then [0] else []) s :=
  wp_copyinstrFrom h le_rfl

/-! ## Address spaces of processes -/

variable {H O : Multiset ℕ} {m : ℕ → ℕ} {tf : ℕ}

theorem Image.entry_eq (h : Image s r tf k H O m) (hva : va < MAXVA) :
    s.entry r va = m (va / PGSIZE) := h.table.look _ (vpn_lt hva)

theorem Image.access_iff (h : Image s r tf k H O m) :
    s.Access r va ↔ va / PGSIZE < k ∧ m (va / PGSIZE) &&& PTE_U ≠ 0 := by
  constructor
  · rintro ⟨hva, hv, hu⟩
    rw [h.entry_eq hva] at hv hu
    exact ⟨h.maps.lt_of_user (vpn_lt hva) hv hu, hu⟩
  · rintro ⟨hk, hu⟩
    have hva : va < MAXVA := by
      have := h.maps.le
      unfold MAXVA PGSIZE at *
      omega
    rw [Mem.Access, h.entry_eq hva]
    exact ⟨hva, h.maps.user _ hk, hu⟩

/-- The page tables that the kernel builds. -/
theorem Image.separate (h : Image s r tf k H O m) : Separate s r := by
  have hd := h.own.nodup
  have hframe : ∀ va, s.Access r va → va / PGSIZE < k ∧ s.frame r va = PTE2PA (m (va / PGSIZE)) ∧
      s.frame r va ∈ mapped m 0 k := fun va ha => by
    have hk := (h.access_iff.mp ha).1
    rw [Mem.frame, h.entry_eq ha.1]
    exact ⟨hk, rfl, mem_mapped hk⟩
  constructor
  · intro va va' ha ha' he
    have hm := (Multiset.nodup_add.mp (Multiset.nodup_add.mp hd).2.1).1
    obtain ⟨hk, hf, -⟩ := hframe va ha
    obtain ⟨hk', hf', -⟩ := hframe va' ha'
    exact mapped_inj hm hk hk' (by rw [← hf, ← hf', he])
  · intro va ha
    refine h.own.ne_zero ?_
    simp [(hframe va ha).2.2]
  · intro va ha hc
    rw [h.table.nodes] at hc
    refine Multiset.disjoint_left.mp (Multiset.nodup_add.mp hd).2.2 hc ?_
    simp [(hframe va ha).2.2]

theorem Inv.separate {t : Kern} {c : Fptr → ℕ} {p : Pptr} (h : Inv t c)
    (hp : (t.proc p).state ≠ .unused) : Separate t.mem (t.proc p).pagetable := by
  obtain ⟨O, m, hi⟩ := h.image hp
  exact hi.separate

theorem range_eq_of_copied (hs : Separate s r) (h : Copied s s' r dst src src.length)
    (ha : ∀ i < src.length, s.Access r (dst + i)) : s'.range r dst src.length = src := by
  refine List.ext_getElem length_range fun i h₁ h₂ => ?_
  have hget : (s'.range r dst src.length)[i] = s'.byte r (dst + i) := by simp [Mem.range]
  rw [hget, h.byte_eq hs ha h₂, List.getD_eq_getElem?_getD, List.getElem?_eq_getElem h₂,
    Option.getD_some]

/-- Copies succeed exactly if the user may access the whole range; they transfer the bytes of the
range and change nothing else. -/
theorem user_copies_exact (h : Separate s r) :
    (∀ dst src, ∃ b s', copyout r dst src s = .ok b s' ∧
      (b = true ↔ ∀ i < src.length, s.Access r (dst + i)) ∧
      (b = true → Copied s s' r dst src src.length ∧
        copyin r dst src.length s' = .ok (true, src) s')) ∧
    (∀ va len, ∃ b bs, copyin r va len s = .ok (b, bs) s ∧
      (b = true ↔ ∀ i < len, s.Access r (va + i)) ∧ (b = true → bs = s.range r va len)) ∧
    ∀ va max, ∃ b bs, copyinstr r va max s = .ok (b, bs) s ∧
      (b = true ↔ ∃ i < max, s.byte r (va + i) = 0 ∧ ∀ j ≤ i, s.Access r (va + j)) ∧
      (b = true → ∃ n, bs = s.range r va n ++ [0] ∧ s.byte r (va + n) = 0 ∧
        ∀ i < n, s.byte r (va + i) ≠ 0) := by
  refine ⟨fun dst src => ?_, fun va len => ?_, fun va max => ?_⟩
  · obtain ⟨b, s', hrun, n, hreach, hcopy⟩ := (wp_copyout h dst src).returns
    refine ⟨b, s', hrun, hreach.iff, fun hb => ?_⟩
    obtain rfl := hreach.complete hb
    have htab := hcopy.table h hreach.access
    obtain ⟨⟨b', bs⟩, t, hin, rfl, n, hreach', hbs⟩ :=
      (wp_copyin (h.congr htab) dst src.length).returns
    obtain rfl : b' = true :=
      hreach'.iff.mpr fun i hi => (Mem.access_congr htab).mpr (hreach.access i hi)
    obtain rfl : n = src.length := hreach'.complete rfl
    obtain rfl : bs = src := hbs.trans (range_eq_of_copied h hcopy hreach.access)
    exact ⟨hcopy, hin⟩
  · obtain ⟨⟨b, bs⟩, t, hrun, rfl, n, hreach, hbs⟩ := (wp_copyin h va len).returns
    refine ⟨b, bs, hrun, hreach.iff, fun hb => ?_⟩
    rw [← hreach.complete hb]
    exact hbs
  · obtain ⟨⟨b, bs⟩, t, hrun, rfl, n, hscan, hbs⟩ := (wp_copyinstr h va max).returns
    refine ⟨b, bs, hrun, hscan.iff, fun hb => ⟨n, hbs.trans ?_, (hscan.found hb).2.2, hscan.chars⟩⟩
    rw [if_pos hb]

/-- Three bytes of the first page of the first process. -/
theorem user_copies_exact_first : ∃ s : Kern, Booted (tiny 8 (by decide)) s ∧
    ∃ mem', copyout (s.proc 0).pagetable 4093 [1, 2, 3] s.mem = .ok true mem' ∧
      Copied s.mem mem' (s.proc 0).pagetable 4093 [1, 2, 3] 3 ∧
      copyin (s.proc 0).pagetable 4093 3 mem' = .ok (true, [1, 2, 3]) mem' := by
  have heval : ∃ s, Booted (tiny 8 (by decide)) s ∧ decide ((s.proc 0).state ≠ .unused ∧
      ∀ i < ([1, 2, 3] : List UInt8).length, s.mem.Access (s.proc 0).pagetable (4093 + i)) = true :=
    exists_booted 0 [] (by decide +kernel)
  obtain ⟨s, hb, hs⟩ := heval
  obtain ⟨hstate, ha⟩ := of_decide_eq_true hs
  have hsep := (booted_valid hb).inv.separate hstate
  obtain ⟨b, mem', hrun, hiff, hres⟩ := (user_copies_exact hsep).1 4093 [1, 2, 3]
  obtain rfl : b = true := hiff.mpr ha
  exact ⟨s, hb, mem', hrun, hres rfl⟩

/-! ## Pages that the user may not write -/

/-- The page is mapped, and nowhere with the permission to write. -/
def ReadOnly (s : Mem) (r q : ℕ) : Prop :=
  (∃ va < MAXVA, s.entry r va &&& PTE_V ≠ 0 ∧ s.frame r va = q) ∧
  ∀ va < MAXVA, s.entry r va &&& PTE_V ≠ 0 → s.frame r va = q → s.entry r va &&& PTE_W = 0

/-- `copyout` of `len` bytes keeps the read-only pages, whatever the bytes are, exactly if it comes
to none of them before it ends. -/
theorem copyout_keeps_read_only_iff (h : Separate s r) (dst len : ℕ) :
    (∀ src : List UInt8, src.length = len → ∀ b s', copyout r dst src s = .ok b s' →
      ∀ q, ReadOnly s r q → s'.page q = s.page q) ↔
    ∀ i < len, (∀ j ≤ i, s.Access r (dst + j)) → ¬ ReadOnly s r (s.frame r (dst + i)) := by
  constructor
  · -- a byte that differs from the one in memory is written
    intro hkeep i hi ha hro
    obtain ⟨b, s', hrun, n, hreach, hcopy⟩ :=
      (wp_copyout h dst (List.replicate len (s.byte r (dst + i) + 1))).returns
    have hin : i < n := by
      by_contra hc
      cases b with
      | true => exact hc (by rw [hreach.complete rfl, List.length_replicate]; exact hi)
      | false => exact (hreach.stop rfl).2 (ha n (by omega))
    have hbyte := hcopy.inside i hin
    rw [hkeep _ List.length_replicate b s' hrun _ hro] at hbyte
    have hne : s.byte r (dst + i) + 1 ≠ s.byte r (dst + i) := by simp
    refine hne ?_
    simpa [hi, Mem.byte] using hbyte.symm
  · rintro hcond src rfl b s' hrun q hro
    obtain ⟨n, hreach, hcopy⟩ := (wp_copyout h dst src).ok hrun
    refine hcopy.page_eq fun i hi hc => ?_
    refine hcond i (hi.trans_le hreach.le) (fun j hj => hreach.access j (hj.trans_lt hi)) ?_
    rwa [hc]

/-- The first process may write its page. -/
theorem copyout_keeps_read_only_first : ∃ s : Kern, Booted (tiny 8 (by decide)) s ∧
    ∀ src : List UInt8, src.length = 4 → ∀ b mem',
      copyout (s.proc 0).pagetable 0 src s.mem = .ok b mem' →
        ∀ q, ReadOnly s.mem (s.proc 0).pagetable q → mem'.page q = s.mem.page q := by
  have heval : ∃ s, Booted (tiny 8 (by decide)) s ∧ decide ((s.proc 0).state ≠ .unused ∧
      s.mem.Access (s.proc 0).pagetable 0 ∧ s.mem.entry (s.proc 0).pagetable 0 &&& PTE_W ≠ 0) =
        true := exists_booted 0 [] (by decide +kernel)
  obtain ⟨s, hb, hs⟩ := heval
  obtain ⟨hstate, ha, hw⟩ := of_decide_eq_true hs
  have hsep := (booted_valid hb).inv.separate hstate
  refine ⟨s, hb, (copyout_keeps_read_only_iff hsep 0 4).mpr fun i hi _ hro => hw ?_⟩
  refine hro.2 0 ha.1 ha.2.1 (Mem.frame_of_page ?_)
  unfold PGSIZE
  omega

/-- A user page without the permission to write is mapped nowhere else. -/
theorem Image.readOnly {v : ℕ} (h : Image s r tf k H O m) (htf : tf ∈ H) (hv : v < k)
    (hw : m v &&& PTE_W = 0) : ReadOnly s r (PTE2PA (m v)) := by
  have hmem := mem_mapped (m := m) hv
  have hd := (Multiset.nodup_add.mp h.own.nodup).2.1
  have hva : v * PGSIZE < MAXVA := by
    have := h.maps.le
    unfold MAXVA PGSIZE
    omega
  have hentry := h.entry_eq hva
  rw [Nat.mul_div_cancel _ (by decide)] at hentry
  refine ⟨⟨v * PGSIZE, hva, hentry ▸ h.maps.user v hv, by rw [Mem.frame, hentry]⟩, ?_⟩
  intro va hva hval hf
  rw [Mem.frame, h.entry_eq hva] at hf
  rw [h.entry_eq hva] at hval ⊢
  rcases Nat.lt_or_ge (va / PGSIZE) k with hk | hk
  · rw [mapped_inj (Multiset.nodup_add.mp hd).1 hk hv hf]
    exact hw
  exfalso
  by_cases htrap : va / PGSIZE = VTRAP
  · rw [htrap, h.maps.trapframe, PTE2PA_mk (h.own.mem (by simp [htf])).1 (by decide)] at hf
    exact Multiset.disjoint_left.mp (Multiset.nodup_add.mp hd).2.2 (hf ▸ hmem) htf
  by_cases htramp : va / PGSIZE = VTRAMP
  · rw [htramp, h.maps.trampoline, PTE2PA_mk s.image.trampoline_align (by decide)] at hf
    refine s.image.trampoline_notMem ?_
    rw [hf, ← h.own]
    simp [hmem]
  · rw [h.maps.free _ (vpn_lt hva) hk htrap htramp] at hval
    exact hval rfl

/-- A page that is mapped as `exec` maps the text of a program is changed. -/
theorem copyout_changes_text : ∃ (s : Kern) (mem₁ mem₂ : Mem) (q : ℕ),
    Booted (tiny 8 (by decide)) s ∧
    uvmalloc (s.proc 0).pagetable PGSIZE (2 * PGSIZE) (flags2perm 5) s.mem = .ok (2 * PGSIZE) mem₁ ∧
    ReadOnly mem₁ (s.proc 0).pagetable q ∧
    copyout (s.proc 0).pagetable PGSIZE [1] mem₁ = .ok true mem₂ ∧ mem₂.page q ≠ mem₁.page q := by
  have heval : ∃ s : Kern, Booted (tiny 8 (by decide)) s ∧ (decide ((s.proc 0).state ≠ .unused ∧
      (s.proc 0).sz = PGSIZE) && match uvmalloc (s.proc 0).pagetable PGSIZE (2 * PGSIZE)
        (flags2perm 5) s.mem with
      | .ok z _ => z = 2 * PGSIZE
      | .error _ _ => false) = true :=
    exists_booted 0 [] (by decide +kernel)
  obtain ⟨s, hb, hs⟩ := heval
  obtain ⟨⟨hstate, hsz⟩, hz⟩ := (Bool.and_eq_true_iff.mp hs).imp_left of_decide_eq_true
  obtain ⟨O, m, hi⟩ := (booted_valid hb).inv.image hstate
  rw [hsz] at hi
  obtain ⟨z, mem₁, hrun, halloc⟩ := (wp_uvmalloc_image (flags2perm_lt 5) hi).returns
  rw [hrun] at hz
  obtain rfl : z = 2 * PGSIZE := of_decide_eq_true hz
  obtain ⟨sz', O', m', hi', -, -, ⟨rfl, -, -, -, hg, hzero⟩ | ⟨hc, -⟩⟩ := halloc.image
  swap
  · exact absurd hc (by decide)
  rw [show pg (2 * PGSIZE) = 2 by decide] at hi'
  have hflags : PTE_FLAGS (m' 1) = 27 := hg.flags 1 (by decide) (by decide)
  have hbit : ∀ w, w < 2 ^ 10 → m' 1 &&& w = 27 &&& w := fun w hw => by
    have hlt : m' 1 &&& w < 2 ^ 10 := lt_of_le_of_lt Nat.and_le_right hw
    have hmod := Nat.and_mod_two_pow (a := m' 1) (b := w) (n := 10)
    rw [Nat.mod_eq_of_lt hlt, Nat.mod_eq_of_lt hw] at hmod
    rw [hmod]
    exact congrArg (· &&& w) hflags
  have ha : mem₁.Access (s.proc 0).pagetable PGSIZE :=
    hi'.access_iff.mpr ⟨by decide, by rw [show PGSIZE / PGSIZE = 1 by decide, hbit _ (by decide)]; decide⟩
  have hframe : mem₁.frame (s.proc 0).pagetable PGSIZE = PTE2PA (m' 1) := by
    rw [Mem.frame, hi'.entry_eq (by decide)]
    rfl
  obtain ⟨b, mem₂, hrun₂, n, hreach, hcopy⟩ := (wp_copyout hi'.separate PGSIZE [1]).returns
  obtain rfl : b = true := hreach.iff.mpr fun i hi => by
    obtain rfl : i = 0 := Nat.lt_one_iff.mp hi
    exact ha
  obtain rfl : n = 1 := hreach.complete rfl
  refine ⟨s, mem₁, mem₂, _, hb, hrun, hi'.readOnly (by simp) (by decide) (v := 1) ?_, hrun₂, fun hc => ?_⟩
  · rw [hbit _ (by decide)]
    decide
  · have hin := hcopy.inside 0 Nat.one_pos
    rw [Nat.add_zero, hframe, hc, hzero 1 (by decide) (by decide)] at hin
    exact absurd hin (by decide)

end Xv6.Vm

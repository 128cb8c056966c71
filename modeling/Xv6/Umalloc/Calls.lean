import Xv6.Umalloc.FreeList

/-! # The calls of the allocator

`take` and `morecore` keep the free list, so `malloc` does; a call that returns
returns the same with more fuel.
-/

namespace Xv6.Umalloc

open Tiling

variable {base bp p a b n fuel : ℕ} {s s' : State} {as used l r : List ℕ} {m : Mem}
  {sb : Sbrk}

namespace Arena

/-- No header lies inside of a block. -/
theorem not_header (h : Arena base s as used) (ha : a ∈ as ++ used) {x : ℕ} (hne : a ≠ x)
    (hx : (blk s.mem a).Has x) : x ∉ base :: (as ++ used) := by
  have hlt := h.base_lt ha
  obtain ⟨hle, hend⟩ := hx
  simp only [blk] at hle hend
  intro hmem
  rcases List.mem_cons.mp hmem with rfl | hmem
  · omega
  · have : Std.Symm fun a b => a + 16 * (s.mem a).size ≤ b ∨ b + 16 * (s.mem b).size ≤ a :=
      ⟨fun _ _ => Or.symm⟩
    have hpos := h.pos x hmem
    have := h.apart.forall ha hmem hne
    omega

theorem lt_brk (h : Arena base s as used) (ha : a ∈ as ++ used) : a < s.brk := by
  have hpos := h.pos a ha
  have hx : (blk s.mem a).Has a := ⟨le_refl a, by simp only [blk]; omega⟩
  obtain ⟨g, hg, hgx⟩ := h.bytes.exists_has (List.mem_map_of_mem ha) hx
  have := (h.above g hg).2
  have := hgx.2
  omega

theorem perm {used' : List ℕ} (h : Arena base s as used) (hu : used.Perm used') :
    Arena base s as used' :=
  { h with
    pos := fun a ha => h.pos a ((hu.append_left as).mem_iff.mpr ha)
    bytes := (SameBytes.of_perm ((hu.append_left as).map _).symm).trans h.bytes }

/-- Memory apart from the headers does not matter. -/
theorem congr (h : Arena base s as used) (hm : ∀ x ∈ base :: (as ++ used), m x = s.mem x) :
    Arena base { s with mem := m } as used := by
  have hall : ∀ x ∈ as ++ used, m x = s.mem x := fun x hx => hm x (List.mem_cons_of_mem _ hx)
  have has : ∀ x ∈ as, m x = s.mem x := fun x hx => hall x (List.mem_append_left _ hx)
  constructor
  case ring =>
    refine h.ring.start ?_ fun x hx => ?_
    · simp only [next, hm base List.mem_cons_self]
    · simp only [next, has x hx]
  case freep => exact h.freep
  case zero => rw [← h.zero, ← hm base List.mem_cons_self]
  case pos => exact fun a ha => (h.pos a ha).trans_eq (by rw [← hall a ha])
  case gaps => exact Gaps.congr h.gaps fun a ha => congrArg Header.size (has a ha)
  case bytes => exact map_blk_congr hall ▸ h.bytes
  case separate => exact h.separate
  case above => exact h.above
  case brk => exact h.brk
  case bound => exact h.bound

/-- The whole block is taken. -/
theorem take_whole (h : Arena base s (l ++ a :: r) used) :
    Arena base { s with mem := s.mem.setPtr (lastOf base l) (s.mem a).ptr, freep := lastOf base l }
      (l ++ r) (a :: used) := by
  have hperm : (l ++ r ++ a :: used).Perm (l ++ a :: r ++ used) := by
    simp only [List.append_assoc, List.cons_append]
    exact List.perm_middle.append_left l
  have hnodup := (List.nodup_append.mp (List.cons_append ▸ h.nodup :
    (base :: (l ++ a :: r) ++ used).Nodup)).1
  rw [← List.cons_append] at hnodup
  have hout : ∀ x ∈ a :: r, x ≠ lastOf base l := fun x hx he =>
    (List.nodup_append.mp hnodup).2.2 _ lastOf_mem x hx he.symm
  obtain ⟨hlow, hhigh⟩ := path_append_cons.mp h.ring
  constructor
  case ring =>
    refine Path.skip (x := a) (hlow.redirect (List.nodup_append.mp hnodup).1 (fun x _ hx => ?_) ?_)
      (hhigh.congr fun x hx => ?_)
    · simp only [next, setPtr_ne _ hx]
    · simp only [next, setPtr_ptr, setPtr_ne _ (hout a List.mem_cons_self)]
    · simp only [next, setPtr_ne _ (hout x hx)]
  case freep =>
    rw [← List.cons_append]
    exact List.mem_append_left _ lastOf_mem
  case zero => exact (setPtr_size ..).trans h.zero
  case pos => exact fun x hx => (setPtr_size ..).symm ▸ h.pos x (hperm.mem_iff.mp hx)
  case gaps =>
    refine Gaps.congr (h.gaps.sublist ?_) fun x _ => setPtr_size ..
    exact (List.sublist_cons_self a r).append_left l
  case bytes =>
    refine SameBytes.trans ?_ h.bytes
    dsimp only
    rw [blk_setPtr]
    exact .of_perm (hperm.map _)
  case separate => exact h.separate
  case above => exact h.above
  case brk => exact h.brk
  case bound => exact h.bound

/-- The end of the block is taken. -/
theorem take_end (h : Arena base s (l ++ a :: r) used) (hn : 0 < n) (hlt : n < (s.mem a).size)
    (hb : b = a + 16 * ((s.mem a).size - n)) (hp : p ∈ base :: (l ++ a :: r)) :
    Arena base { s with
        mem := (s.mem.setSize a ((s.mem a).size - n)).setSize b n, freep := p }
      (l ++ a :: r) (b :: used) := by
  have hnew : b ∉ base :: (l ++ a :: r ++ used) := by
    refine h.not_header (a := a) (by simp) (by omega) ?_
    constructor <;> simp only [blk] <;> omega
  generalize hm : (s.mem.setSize a ((s.mem a).size - n)).setSize b n = m₁
  have hptr : ∀ x, (m₁ x).ptr = (s.mem x).ptr := fun x => by simp [← hm]
  have hother : ∀ x ∈ base :: (l ++ a :: r ++ used), x ≠ a → m₁ x = s.mem x := by
    intro x hx hxa
    have hxb : x ≠ b := fun he => hnew (he ▸ hx)
    rw [← hm, setSize_ne _ hxb, setSize_ne _ hxa]
  have hsize_a : (m₁ a).size = (s.mem a).size - n := by
    rw [← hm, setSize_ne _ (by omega), setSize_size]
  have hsize_b : (m₁ b).size = n := by rw [← hm, setSize_size]
  have hle : ∀ x ∈ l ++ a :: r ++ used, 0 < (m₁ x).size ∧ (m₁ x).size ≤ (s.mem x).size := by
    intro x hx
    by_cases hxa : x = a
    · rw [hxa, hsize_a]
      omega
    · rw [hother x (List.mem_cons_of_mem _ hx) hxa]
      exact ⟨h.pos x hx, le_rfl⟩
  constructor
  case ring => exact h.ring.congr fun x _ => hptr x
  case freep => exact hp
  case zero =>
    have hne : base ≠ a := (h.base_lt (by simp)).ne
    exact (congrArg Header.size (hother base List.mem_cons_self hne)).trans h.zero
  case pos =>
    intro x hx
    rcases List.mem_append.mp hx with hx | hx
    · exact (hle x (List.mem_append_left _ hx)).1
    rcases List.mem_cons.mp hx with rfl | hx
    · exact hn.trans_eq hsize_b.symm
    · exact (hle x (List.mem_append_right _ hx)).1
  case gaps =>
    refine List.Pairwise.imp_of_mem ?_ h.gaps
    intro x y hx _ hxy
    have := (hle x (List.mem_append_left _ hx)).2
    dsimp only
    omega
  case bytes =>
    refine SameBytes.trans ?_ h.bytes
    have hnd := (List.nodup_cons.mp h.nodup).2
    rw [List.append_assoc, List.cons_append, List.nodup_middle, List.nodup_cons] at hnd
    have hne : ∀ x ∈ l ++ (r ++ used), m₁ x = s.mem x := by
      intro x hx
      have hx' : x ∈ l ++ a :: r ++ used := by
        simp only [List.append_assoc, List.cons_append, List.mem_append, List.mem_cons] at hx ⊢
        tauto
      refine hother x (List.mem_cons_of_mem _ hx') ?_
      rintro rfl
      exact hnd.1 hx
    have hl := map_blk_congr fun x hx => hne x (List.mem_append_left _ hx)
    have hru := map_blk_congr fun x hx => hne x (List.mem_append_right _ hx)
    have hsame := SameBytes.split a (16 * (m₁ a).size) (16 * (m₁ b).size) ((r ++ used).map (blk s.mem))
    have hsum : 16 * (m₁ a).size + 16 * (m₁ b).size = 16 * (s.mem a).size := by omega
    rw [hsum, hsize_a, ← hb, ← hsize_a] at hsame
    have hperm : (l ++ a :: r ++ b :: used).Perm (l ++ a :: b :: (r ++ used)) := by
      simp only [List.append_assoc, List.cons_append]
      exact (List.perm_middle.cons a).append_left l
    refine (SameBytes.of_perm (hperm.map _)).trans ?_
    rw [List.append_assoc, List.cons_append, List.map_append, List.map_append, List.map_cons,
      List.map_cons, List.map_cons, hl, hru]
    exact (SameBytes.refl _).append hsame.symm
  case separate => exact h.separate
  case above => exact h.above
  case brk => exact h.brk
  case bound => exact h.bound

end Arena

/-- `take` cuts `n` units off a free block. -/
theorem take_spec (h : Arena base s as used) (hn : 0 < n) (hp : p ∈ base :: as)
    (ha : a ∈ base :: as) (hpa : next s.mem p = a) (hle : n ≤ (s.mem a).size) :
    ∃ b s' as₁, take n p a s = (b + 16, s') ∧ Arena base s' as₁ (b :: used) ∧
      s' = { s with mem := s'.mem, freep := s'.freep } ∧ (s'.mem b).size = n ∧
      ∀ x ∈ used, s'.mem x = s.mem x := by
  have has : a ∈ as := by
    refine (List.mem_cons.mp ha).resolve_left ?_
    rintro rfl
    have := h.zero
    omega
  obtain ⟨l, r, rfl⟩ := List.append_of_mem has
  have hnodup := h.nodup
  rw [← List.cons_append, List.nodup_append] at hnodup
  obtain rfl := h.ring.pred hnodup.1 hp hpa
  rcases hle.eq_or_lt with heq | hlt
  · refine ⟨a, _, _, ?_, h.take_whole, rfl, ?_, ?_⟩
    · rw [take, if_pos heq.symm]
    · rw [setPtr_size, heq]
    · intro x hx
      have hne : x ≠ lastOf base l := by
        rintro rfl
        refine hnodup.2.2 _ ?_ _ hx rfl
        rw [← List.cons_append]
        exact List.mem_append_left _ lastOf_mem
      exact setPtr_ne _ hne
  · refine ⟨_, _, _, ?_, h.take_end hn hlt rfl hp, rfl, setSize_size _, ?_⟩
    · rw [take, if_neg hlt.ne']
      simp only [setSize_size]
    · intro x hx
      have hxa : x ≠ a := fun he => hnodup.2.2 a ha x hx he.symm
      have hnew := h.not_header (a := a) (x := a + 16 * ((s.mem a).size - n)) (by simp) (by omega)
        (by constructor <;> simp only [blk] <;> omega)
      have hxb : x ≠ a + 16 * ((s.mem a).size - n) := by
        rintro rfl
        exact hnew (by simp [hx])
      dsimp only
      rw [setSize_ne _ hxb, setSize_ne _ hxa]

/-! ## More memory -/

theorem toInt_eq {k : ℕ} (h : k < 2 ^ 31) : toInt k = k := by
  have hmod : k % 2 ^ 32 = k := Nat.mod_eq_of_lt (by omega)
  rw [toInt, hmod, if_pos h]

/-- For a positive number of bytes, `sb` fails or returns memory above what it returned before. -/
def Grants (sb : Sbrk) : Prop := ∀ n : ℕ, 0 < n → n < 2 ^ 31 → ∀ s : State,
  (∃ k, sb n s = (none, { s with calls := k })) ∨ ∃ p k, s.brk ≤ p ∧
    sb n s = (some p, { s with calls := k, brk := p + n, got := (p, n) :: s.got })

theorem grants_sbrk (grant : ℕ → Option ℕ) : Grants (sbrk grant) := by
  intro n _ _ s
  unfold sbrk
  cases grant s.calls with
  | none => exact .inl ⟨_, rfl⟩
  | some gap => exact .inr ⟨s.brk + gap, _, Nat.le_add_right .., rfl⟩

theorem coreUnits_pos (n : ℕ) : 0 < coreUnits n ∧ n ≤ coreUnits n := by
  unfold coreUnits
  split_ifs <;> omega

/-- A region above all others is a block in use. -/
theorem Arena.grow (h : Arena base s as used) (hn : 0 < n) (hp : s.brk ≤ p)
    (hbound : total s.got + n * 16 < 2 ^ 36) {k : ℕ} :
    Arena base { s with
        mem := s.mem.setSize p n, calls := k, brk := p + n * 16, got := (p, n * 16) :: s.got }
      as (p :: used) := by
  have hne : ∀ x ∈ as ++ used, s.mem.setSize p n x = s.mem x := fun x hx =>
    setSize_ne _ ((h.lt_brk hx).trans_le hp).ne
  have hbrk := h.brk
  constructor
  case ring => exact h.ring.congr fun x _ => setSize_ptr ..
  case freep => exact h.freep
  case zero => exact (congrArg Header.size (setSize_ne _ (by omega))).trans h.zero
  case pos =>
    intro x hx
    rcases List.mem_cons.mp (List.perm_middle.mem_iff.mp hx) with rfl | hx
    · exact hn.trans_eq (setSize_size _).symm
    · exact (h.pos x hx).trans_eq (congrArg Header.size (hne x hx)).symm
  case gaps =>
    exact Gaps.congr h.gaps fun x hx => congrArg Header.size (hne x (List.mem_append_left _ hx))
  case bytes =>
    have hp : blk (s.mem.setSize p n) p = (p, n * 16) := by
      rw [blk, setSize_size, Nat.mul_comm]
    refine (SameBytes.of_perm (List.perm_middle.map _)).trans ?_
    dsimp only
    rw [List.map_cons, hp, map_blk_congr hne]
    exact (SameBytes.refl [(p, n * 16)]).append h.bytes
  case separate =>
    refine h.separate.cons fun g hg => ?_
    have := (h.above g hg).2
    dsimp only
    omega
  case above =>
    intro g hg
    rcases List.mem_cons.mp hg with rfl | hg
    · dsimp only
      omega
    · have := h.above g hg
      dsimp only
      omega
  case brk =>
    dsimp only
    omega
  case bound =>
    simp only [total_cons]
    omega

/-- What the calls leave alone. -/
structure Kept (s s' : State) (used : List ℕ) : Prop where
  live : s'.live = s.live
  mem : ∀ x ∈ used, s'.mem x = s.mem x

theorem Kept.trans {s'' : State} (h : Kept s s' used) (h' : Kept s' s'' used) :
    Kept s s'' used where
  live := h'.live.trans h.live
  mem x hx := (h'.mem x hx).trans (h.mem x hx)

/-- `morecore` fails, or there is a free block that is large enough. -/
theorem morecore_spec (hsb : Grants sb) (h : Arena base s as used)
    (hn : coreUnits n * 16 < 2 ^ 31) (hbound : total s.got + coreUnits n * 16 < 2 ^ 36) (hfuel : as.length < fuel) :
    ∃ p s' as₁, morecore sb fuel n s = some (p, s') ∧ Arena base s' as₁ used ∧ Kept s s' used ∧
      (p = 0 ∨ p = s'.freep ∧ ∃ a ∈ as₁, n ≤ (s'.mem a).size) := by
  obtain ⟨hpos, hle⟩ := coreUnits_pos n
  unfold morecore
  dsimp only
  rw [toInt_eq hn]
  rcases hsb _ (by omega) hn s with ⟨k, hk⟩ | ⟨q, k, hq, hk⟩
  · rw [hk]
    exact ⟨0, _, as, rfl, { h with }, ⟨rfl, fun x _ => rfl⟩, .inl rfl⟩
  · rw [hk]
    dsimp only
    have hgrow := h.grow hpos hq hbound (k := k)
    obtain ⟨s', as₁, hfree, harena, hs', hmem, a, ha, hsize⟩ := free_spec hgrow hfuel
    rw [hfree]
    refine ⟨s'.freep, s', as₁, rfl, harena, ⟨?_, ?_⟩, .inr ⟨rfl, a, ha, ?_⟩⟩
    · rw [hs']
    · intro x hx
      rw [hmem x hx]
      exact setSize_ne _ ((h.lt_brk (List.mem_append_right _ hx)).trans_le hq).ne
    · rw [setSize_size] at hsize
      exact hle.trans hsize

/-! ## The loop of `malloc` -/

/-- The loop looks at the free blocks up to `freep` and takes the first that is large enough, or
asks for more memory. -/
theorem mallocFrom_scan (sb : Sbrk) (n fuel : ℕ)
    (h : Path (next s.mem) p l s.freep) (hl : s.freep ∉ l) :
    (∃ q a, q ∈ p :: l ∧ a ∈ s.freep :: l ∧ next s.mem q = a ∧ n ≤ (s.mem a).size ∧
      mallocFrom sb n (fuel + 1 + l.length) p (s.mem p).ptr s = some (take n q a s)) ∨
    (∀ a ∈ s.freep :: l, (s.mem a).size < n) ∧
      mallocFrom sb n (fuel + 1 + l.length) p (s.mem p).ptr s =
        morecore sb fuel n s >>= fun x =>
          if x.1 = 0 then some (0, x.2) else mallocFrom sb n fuel x.1 (x.2.mem x.1).ptr x.2 := by
  induction l generalizing p with
  | nil =>
    have hp : (s.mem p).ptr = s.freep := h
    rw [List.length_nil, Nat.add_zero, mallocFrom, hp]
    by_cases hsize : n ≤ (s.mem s.freep).size
    · exact .inl ⟨p, s.freep, by simp, by simp, h, hsize, by rw [if_pos hsize]⟩
    · refine .inr ⟨by simpa using hsize, ?_⟩
      rw [if_neg hsize, if_pos rfl]
  | cons q l ih =>
    have hp : (s.mem p).ptr = q := h.1
    obtain ⟨hq, hl⟩ := not_or.mp (mt List.mem_cons.mpr hl)
    rw [List.length_cons, ← Nat.add_assoc, mallocFrom, hp]
    by_cases hsize : n ≤ (s.mem q).size
    · exact .inl ⟨p, q, by simp, by simp, h.1, hsize, by rw [if_pos hsize]⟩
    · rw [if_neg hsize, if_neg (Ne.symm hq)]
      rcases ih h.2 hl with ⟨q', a, hq', ha, hqa, hle, hrun⟩ | ⟨hall, hrun⟩
      · refine .inl ⟨q', a, List.mem_cons_of_mem _ hq', ?_, hqa, hle, hrun⟩
        exact List.mem_cons.mpr ((List.mem_cons.mp ha).imp_right (List.mem_cons_of_mem _))
      · refine .inr ⟨fun a ha => ?_, hrun⟩
        rcases List.mem_cons.mp ha with rfl | ha
        · exact hall _ List.mem_cons_self
        rcases List.mem_cons.mp ha with rfl | ha
        · exact Nat.lt_of_not_le hsize
        · exact hall a (List.mem_cons_of_mem _ ha)

/-- The result of `malloc`: nothing, or a block in use. -/
structure Returned (base n : ℕ) (s : State) (used : List ℕ) (x : ℕ × State) : Prop where
  kept : Kept s x.2 used
  block : (x.1 = 0 ∧ ∃ as, Arena base x.2 as used) ∨
    ∃ b as, x.1 = b + 16 ∧ Arena base x.2 as (b :: used) ∧ (x.2.mem b).size = n

/-- The free list from `freep` on. -/
theorem Arena.walk (h : Arena base s as used) :
    ∃ l, Path (next s.mem) s.freep l s.freep ∧ s.freep ∉ l ∧ (s.freep :: l).Perm (base :: as) := by
  obtain ⟨l, hpath, hperm⟩ := h.ring.rotate h.freep
  have hnodup := h.nodup
  rw [← List.cons_append] at hnodup
  have hl := hperm.nodup_iff.mpr (List.nodup_append.mp hnodup).1
  exact ⟨l, hpath, (List.nodup_cons.mp hl).1, hperm⟩

theorem Arena.returned {q : ℕ} (h : Arena base s as used) (hn : 0 < n) (hq : q ∈ base :: as)
    (ha : a ∈ base :: as) (hqa : next s.mem q = a) (hle : n ≤ (s.mem a).size) :
    Returned base n s used (take n q a s) := by
  obtain ⟨b, s', as₁, htake, harena, hs', hsize, hmem⟩ := take_spec h hn hq ha hqa hle
  rw [htake]
  exact ⟨⟨by rw [hs'], hmem⟩, .inr ⟨b, as₁, rfl, harena, hsize⟩⟩

/-- The loop with a free block that is large enough. -/
theorem mallocFrom_found (sb : Sbrk) (h : Arena base s as used) (hn : 0 < n)
    (hex : ∃ a ∈ as, n ≤ (s.mem a).size) : ∃ fuel x,
      mallocFrom sb n fuel s.freep (s.mem s.freep).ptr s = some x ∧ Returned base n s used x := by
  obtain ⟨l, hpath, hfreep, hperm⟩ := h.walk
  rcases mallocFrom_scan sb n 0 hpath hfreep with ⟨q, a, hq, ha, hqa, hle, hrun⟩ | ⟨hall, -⟩
  · exact ⟨_, _, hrun, h.returned hn (hperm.mem_iff.mp hq) (hperm.mem_iff.mp ha) hqa hle⟩
  · obtain ⟨a, ha, hle⟩ := hex
    exact absurd (hall a (hperm.mem_iff.mpr (List.mem_cons_of_mem _ ha))) (Nat.not_lt.mpr hle)

/-! ## More fuel -/

section Fuel

variable {fuel' x : ℕ} {y : ℕ × State}

theorem findSlot_mono (h : findSlot m bp fuel p = some x) (hle : fuel ≤ fuel') :
    findSlot m bp fuel' p = some x := by
  induction fuel generalizing p fuel' with
  | zero => cases h
  | succ fuel ih =>
    obtain ⟨k, rfl⟩ : ∃ k, fuel' = k + 1 := ⟨fuel' - 1, by omega⟩
    rw [findSlot] at h ⊢
    split_ifs at h ⊢
    · exact h
    · exact h
    · exact ih h (by omega)

theorem free_mono (h : free fuel p s = some s') (hle : fuel ≤ fuel') : free fuel' p s = some s' := by
  obtain ⟨x, hx, rfl⟩ := Option.map_eq_some_iff.mp h
  exact Option.map_eq_some_iff.mpr ⟨x, findSlot_mono hx hle, rfl⟩

theorem morecore_mono (h : morecore sb fuel n s = some y) (hle : fuel ≤ fuel') :
    morecore sb fuel' n s = some y := by
  simp only [morecore] at h ⊢
  generalize sb _ s = r at h ⊢
  obtain ⟨_ | hp, s₁⟩ := r
  · exact h
  · obtain ⟨s₂, hs₂, rfl⟩ := Option.map_eq_some_iff.mp h
    exact Option.map_eq_some_iff.mpr ⟨s₂, free_mono hs₂ hle, rfl⟩

theorem mallocFrom_mono (h : mallocFrom sb n fuel a p s = some y) (hle : fuel ≤ fuel') :
    mallocFrom sb n fuel' a p s = some y := by
  induction fuel generalizing a p s fuel' with
  | zero => cases h
  | succ fuel ih =>
    obtain ⟨k, rfl⟩ : ∃ k, fuel' = k + 1 := ⟨fuel' - 1, by omega⟩
    rw [mallocFrom] at h ⊢
    split_ifs at h ⊢
    · exact h
    · obtain ⟨⟨q, s₁⟩, hcore, hrest⟩ := Option.bind_eq_some_iff.mp h
      refine Option.bind_eq_some_iff.mpr ⟨(q, s₁), morecore_mono hcore (by omega), ?_⟩
      dsimp only at hrest ⊢
      split_ifs at hrest ⊢
      · exact hrest
      · exact ih hrest (by omega)
    · exact ih h (by omega)

end Fuel

theorem Arena.freep_pos (h : Arena base s as used) (hbase : 0 < base) : 0 < s.freep := by
  rcases List.mem_cons.mp h.freep with he | he
  · exact he ▸ hbase
  · exact hbase.trans (h.base_lt (List.mem_append_left _ he))

/-- The loop of `malloc` ends, with a block or without. -/
theorem mallocFrom_spec (hsb : Grants sb) (hbase : 0 < base) (h : Arena base s as used)
    (hn : 0 < n) (hcore : coreUnits n * 16 < 2 ^ 31)
    (hbound : total s.got + coreUnits n * 16 < 2 ^ 36) :
    ∃ fuel x, mallocFrom sb n fuel s.freep (s.mem s.freep).ptr s = some x ∧
      Returned base n s used x := by
  obtain ⟨l, hpath, hfreep, hperm⟩ := h.walk
  obtain ⟨p, s', as₁, hmore, harena, hkept, hp⟩ :=
    morecore_spec hsb h hcore hbound (Nat.lt_succ_self as.length)
  -- the second search finds the block that `morecore` has added
  have hagain : ∃ k x, Returned base n s used x ∧ ∀ fuel, k ≤ fuel →
      (if p = 0 then some (0, s') else mallocFrom sb n fuel p (s'.mem p).ptr s') = some x := by
    rcases hp with rfl | ⟨rfl, hex⟩
    · exact ⟨0, (0, s'), ⟨hkept, .inl ⟨rfl, as₁, harena⟩⟩, fun _ _ => if_pos rfl⟩
    · obtain ⟨k, x, hx, hret⟩ := mallocFrom_found sb harena hn hex
      refine ⟨k, x, ⟨hkept.trans hret.kept, hret.block⟩, fun fuel hle => ?_⟩
      rw [if_neg (harena.freep_pos hbase).ne', mallocFrom_mono hx hle]
  obtain ⟨k, x, hret, hx⟩ := hagain
  rcases mallocFrom_scan sb n (max (as.length + 1) k) hpath hfreep with
    ⟨q, a, hq, ha, hqa, hle, hrun⟩ | ⟨-, hrun⟩
  · exact ⟨_, _, hrun, h.returned hn (hperm.mem_iff.mp hq) (hperm.mem_iff.mp ha) hqa hle⟩
  · refine ⟨_, x, hrun.trans ?_, hret⟩
    rw [morecore_mono hmore (le_max_left _ _), Option.bind_eq_bind, Option.bind_some]
    exact hx _ (le_max_right _ _)

end Xv6.Umalloc

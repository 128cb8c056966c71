import Xv6.Logic.Path
import Xv6.Umalloc.Allocator

/-! # The free list

The free blocks form a ring with `base`, in the order of their addresses, and the
free blocks and the blocks in use are the bytes that `sbrk` has returned. `free`
and `take` keep this.
-/

namespace Xv6.Umalloc

open Tiling Function

variable {base bp p a b fuel : ℕ} {s s' : State} {as used l r : List ℕ} {m m₁ : Mem}

/-- The links between headers. -/
abbrev next (m : Mem) (p : ℕ) : ℕ := (m p).ptr

/-- There is a free byte, or more, between the blocks. -/
def Gaps (m : Mem) (as : List ℕ) : Prop := as.Pairwise fun a b => a + 16 * (m a).size < b

@[simp] theorem setPtr_size (v x : ℕ) : ((m.setPtr p v) x).size = (m x).size := by
  rw [Mem.setPtr, update_apply]
  split_ifs with hx
  · rw [hx]
  · rfl

@[simp] theorem setSize_ptr (v x : ℕ) : ((m.setSize p v) x).ptr = (m x).ptr := by
  rw [Mem.setSize, update_apply]
  split_ifs with hx
  · rw [hx]
  · rfl

@[simp] theorem setPtr_ptr (v : ℕ) : ((m.setPtr p v) p).ptr = v := by simp [Mem.setPtr]

@[simp] theorem setSize_size (v : ℕ) : ((m.setSize p v) p).size = v := by simp [Mem.setSize]

@[simp] theorem blk_setPtr (v : ℕ) : blk (m.setPtr p v) = blk m := by
  funext x
  rw [blk, blk, setPtr_size]

theorem setPtr_ne {x : ℕ} (v : ℕ) (hx : x ≠ p) : (m.setPtr p v) x = m x :=
  update_of_ne hx ..

theorem setSize_ne {x : ℕ} (v : ℕ) (hx : x ≠ p) : (m.setSize p v) x = m x :=
  update_of_ne hx ..

/-- The free blocks `as` and the blocks `used` in use. -/
structure Arena (base : ℕ) (s : State) (as used : List ℕ) : Prop where
  ring : Path (next s.mem) base as base
  freep : s.freep ∈ base :: as
  zero : (s.mem base).size = 0
  pos : ∀ a ∈ as ++ used, 0 < (s.mem a).size
  gaps : Gaps s.mem as
  bytes : SameBytes ((as ++ used).map (blk s.mem)) s.got
  separate : Separate s.got
  above : ∀ g ∈ s.got, base + 16 ≤ g.1 ∧ g.1 + g.2 ≤ s.brk
  brk : base + 16 ≤ s.brk
  bound : total s.got < 2 ^ 36

namespace Arena

theorem base_lt (h : Arena base s as used) (ha : a ∈ as ++ used) : base < a := by
  have hpos := h.pos a ha
  have hx : (blk s.mem a).Has a := ⟨le_refl a, by simp only [blk]; omega⟩
  obtain ⟨g, hg, hgx⟩ := h.bytes.exists_has (List.mem_map_of_mem ha) hx
  have := (h.above g hg).1
  have := hgx.1
  omega

/-- The blocks lie side by side. -/
theorem apart (h : Arena base s as used) : (as ++ used).Pairwise fun a b =>
    a + 16 * (s.mem a).size ≤ b ∨ b + 16 * (s.mem b).size ≤ a := by
  have hd := List.pairwise_map.mp (h.bytes.separate h.separate).pairwise
  refine hd.imp_of_mem ?_
  intro a b ha hb hab
  have hpa := h.pos a ha
  have hpb := h.pos b hb
  exact Extent.apart hab (by simp only [blk]; omega) (by simp only [blk]; omega)

theorem nodup (h : Arena base s as used) : (base :: (as ++ used)).Nodup := by
  refine List.nodup_cons.mpr ⟨fun hb => lt_irrefl _ (h.base_lt hb), ?_⟩
  refine h.apart.imp_of_mem ?_
  rintro a b ha hb hab rfl
  have := h.pos a ha
  omega

theorem sorted (h : Arena base s as used) : (base :: as).Pairwise (· < ·) := by
  refine List.pairwise_cons.mpr ⟨fun a ha => h.base_lt (List.mem_append_left _ ha), ?_⟩
  exact h.gaps.imp fun hab => by omega

end Arena

/-! ## Where a block goes -/

/-- The loop of `free` stops here. -/
def Stops (m : Mem) (bp p : ℕ) : Prop :=
  (p < bp ∧ bp < (m p).ptr) ∨ (m p).ptr ≤ p ∧ (p < bp ∨ bp < (m p).ptr)

/-- The loop walks along the ring up to a place where it stops. -/
theorem findSlot_walk (h : Path (next m) p l b) (hx : ∃ x ∈ p :: l, Stops m bp x)
    (hfuel : l.length < fuel) : ∃ x ∈ p :: l, Stops m bp x ∧ findSlot m bp fuel p = some x := by
  induction l generalizing p fuel with
  | nil =>
    obtain ⟨fuel, rfl⟩ := Nat.exists_eq_add_of_lt hfuel
    obtain ⟨x, hx, hstop⟩ := hx
    rw [List.mem_singleton.mp hx] at hstop
    refine ⟨p, List.mem_cons_self, hstop, ?_⟩
    rw [findSlot]
    split_ifs with h₁ h₂
    · rfl
    · rfl
    · exact absurd hstop (not_or.mpr ⟨h₁, h₂⟩)
  | cons q l ih =>
    cases fuel with
    | zero => omega
    | succ fuel =>
      rw [findSlot]
      split_ifs with h₁ h₂
      · exact ⟨p, List.mem_cons_self, .inl h₁, rfl⟩
      · exact ⟨p, List.mem_cons_self, .inr h₂, rfl⟩
      · have hrest : ∃ x ∈ q :: l, Stops m bp x := by
          obtain ⟨x, hx, hstop⟩ := hx
          rcases List.mem_cons.mp hx with rfl | hx
          · exact absurd hstop (not_or.mpr ⟨h₁, h₂⟩)
          · exact ⟨x, hx, hstop⟩
        obtain ⟨x, hx, hstop, he⟩ := ih h.2 hrest (by simpa using hfuel)
        refine ⟨x, List.mem_cons_of_mem _ hx, hstop, ?_⟩
        rw [show (m p).ptr = q from h.1, he]

/-- The list splits at each of its nodes. -/
theorem exists_split (hp : p ∈ base :: as) : ∃ l r, as = l ++ r ∧ p = lastOf base l := by
  rcases List.mem_cons.mp hp with rfl | hp
  · exact ⟨[], as, rfl, rfl⟩
  · obtain ⟨l, r, rfl⟩ := List.append_of_mem hp
    exact ⟨l ++ [p], r, by simp, by simp⟩

theorem le_lastOf (h : (p :: l).Pairwise (· < ·)) (ha : a ∈ p :: l) : a ≤ lastOf p l := by
  induction l generalizing p with
  | nil => exact (List.mem_singleton.mp ha).le
  | cons q l ih =>
    obtain ⟨hp, hq⟩ := List.pairwise_cons.mp h
    rw [lastOf_cons]
    rcases List.mem_cons.mp ha with rfl | ha
    · exact (hp _ lastOf_mem).le
    · exact ih hq ha

/-- The loop stops at the node in front of the block. -/
theorem stops_iff (h : Arena base s (l ++ r) (bp :: used)) :
    Stops s.mem bp (lastOf base l) ↔ (∀ a ∈ l, a < bp) ∧ ∀ a ∈ r, bp < a := by
  have hbp : base < bp := h.base_lt (by simp)
  have hsort := h.sorted
  rw [← List.cons_append] at hsort
  obtain ⟨hl, hr, hlr⟩ := List.pairwise_append.mp hsort
  have hle : ∀ a ∈ base :: l, a ≤ lastOf base l := fun a => le_lastOf hl
  have hlast : lastOf base l < bp ↔ ∀ a ∈ l, a < bp := by
    constructor
    · exact fun hlt a ha => (hle a (List.mem_cons_of_mem _ ha)).trans_lt hlt
    · intro hlt
      rcases List.mem_cons.mp (lastOf_mem (a := base) (l := l)) with he | he
      · exact he.trans_lt hbp
      · exact hlt _ he
  rw [← hlast]
  cases r with
  | nil =>
    have hptr : (s.mem (lastOf base l)).ptr = base := by
      have hring := h.ring
      rw [List.append_nil] at hring
      exact hring.last_eq
    have := hle base List.mem_cons_self
    simp only [Stops, hptr, List.not_mem_nil, false_imp_iff, implies_true, and_true]
    omega
  | cons c r =>
    have hptr : (s.mem (lastOf base l)).ptr = c := (path_append_cons.mp h.ring).1.last_eq
    have hc : lastOf base l < c := hlr _ lastOf_mem c List.mem_cons_self
    have hall : (∀ a ∈ c :: r, bp < a) ↔ bp < c := by
      refine ⟨fun hlt => hlt c List.mem_cons_self, fun hlt a ha => ?_⟩
      rcases List.mem_cons.mp ha with rfl | ha
      · exact hlt
      · exact hlt.trans ((List.pairwise_cons.mp hr).1 a ha)
    rw [hall]
    simp only [Stops, hptr]
    omega

theorem exists_around (h : as.Pairwise (· < ·)) (hbp : bp ∉ as) :
    ∃ l r, as = l ++ r ∧ (∀ a ∈ l, a < bp) ∧ ∀ a ∈ r, bp < a := by
  induction as with
  | nil => exact ⟨[], [], rfl, by simp, by simp⟩
  | cons a as ih =>
    obtain ⟨ha, has⟩ := List.pairwise_cons.mp h
    obtain ⟨hne, hbp⟩ := not_or.mp (mt List.mem_cons.mpr hbp)
    rcases Nat.lt_or_gt_of_ne hne with hlt | hlt
    · refine ⟨[], a :: as, rfl, by simp, fun b hb => ?_⟩
      rcases List.mem_cons.mp hb with rfl | hb
      · exact hlt
      · exact hlt.trans (ha b hb)
    · obtain ⟨l, r, rfl, hl, hr⟩ := ih has hbp
      refine ⟨a :: l, r, rfl, fun b hb => ?_, hr⟩
      rcases List.mem_cons.mp hb with rfl | hb
      · exact hlt
      · exact hl b hb

/-- The free blocks below and above a block. -/
theorem findSlot_spec (h : Arena base s as (bp :: used)) (hfuel : as.length < fuel) :
    ∃ l r, as = l ++ r ∧ (∀ a ∈ l, a < bp) ∧ (∀ a ∈ r, bp < a) ∧
      findSlot s.mem bp fuel s.freep = some (lastOf base l) := by
  obtain ⟨k, hk, hperm⟩ := h.ring.rotate h.freep
  have hlen : k.length < fuel := by
    have := hperm.length_eq
    simp only [List.length_cons] at this
    omega
  have hex : ∃ x ∈ s.freep :: k, Stops s.mem bp x := by
    obtain ⟨-, hnd⟩ := List.nodup_cons.mp h.nodup
    have hbp : bp ∉ as := fun hm => List.disjoint_of_nodup_append hnd hm List.mem_cons_self
    obtain ⟨l, r, rfl, hl, hr⟩ := exists_around (List.pairwise_cons.mp h.sorted).2 hbp
    refine ⟨lastOf base l, hperm.mem_iff.mpr ?_, (stops_iff h).mpr ⟨hl, hr⟩⟩
    rw [← List.cons_append]
    exact List.mem_append_left _ lastOf_mem
  obtain ⟨x, hx, hstop, hfind⟩ := findSlot_walk hk hex hlen
  obtain ⟨l, r, rfl, rfl⟩ := exists_split (hperm.mem_iff.mp hx)
  obtain ⟨hl, hr⟩ := (stops_iff h).mp hstop
  exact ⟨l, r, rfl, hl, hr, hfind⟩

/-! ## Joining a block to its neighbours -/

theorem map_blk_congr (h : ∀ a ∈ l, m₁ a = m a) : l.map (blk m₁) = l.map (blk m) :=
  List.map_congr_left fun a ha => by rw [blk, blk, h a ha]

/-- What `joinUpper` leaves: the block in front of the free blocks above it. -/
structure Upper (m m₁ : Mem) (bp base : ℕ) (r r₁ : List ℕ) : Prop where
  frame : ∀ x, x ≠ bp → m₁ x = m x
  path : Path (next m₁) bp r₁ base
  suffix : r₁ <:+ r
  gap : ∀ a ∈ r₁, bp + 16 * (m₁ bp).size < a
  bytes : SameBytes ((bp :: r₁).map (blk m₁)) ((bp :: r).map (blk m))
  size : (m bp).size ≤ (m₁ bp).size

theorem joinUpper_spec (hring : Path (next m) p r base) (hbase : base < bp) (hgaps : Gaps m r)
    (hr : ∀ a ∈ r, bp < a ∧ bp + 16 * (m bp).size ≤ a)
    (hfit : total ((bp :: r).map (blk m)) < 2 ^ 36) :
    ∃ r₁, Upper m (joinUpper p bp m) bp base r r₁ := by
  cases r with
  | nil =>
    have hptr : (m p).ptr = base := hring
    have hm : joinUpper p bp m = m.setPtr bp base := by
      rw [joinUpper, hptr, if_neg (by omega)]
    rw [hm]
    refine ⟨[], fun x => setPtr_ne _, setPtr_ptr _, List.nil_suffix, by simp, ?_, by simp⟩
    rw [blk_setPtr]
    exact .refl _
  | cons q r =>
    have hptr : (m p).ptr = q := hring.1
    obtain ⟨hlt, hle⟩ := hr q List.mem_cons_self
    obtain ⟨hq, hgaps⟩ := List.pairwise_cons.mp hgaps
    have hne : ∀ x ∈ q :: r, x ≠ bp := fun x hx => (hr x hx).1.ne'
    by_cases hjoin : bp + 16 * (m bp).size = q
    · have hsize : ((m bp).size + (m q).size) % 2 ^ 32 = (m bp).size + (m q).size := by
        simp only [List.map_cons, total_cons, blk] at hfit
        exact Nat.mod_eq_of_lt (by omega)
      have hm : joinUpper p bp m =
          (m.setSize bp ((m bp).size + (m q).size)).setPtr bp (m q).ptr := by
        rw [joinUpper, hptr, if_pos hjoin, hsize]
        simp only [setSize_ptr]
      have hframe : ∀ x, x ≠ bp → joinUpper p bp m x = m x := fun x hx => by
        rw [hm, setPtr_ne _ hx, setSize_ne _ hx]
      have hbp : (joinUpper p bp m bp).size = (m bp).size + (m q).size := by simp [hm]
      refine ⟨r, hframe, ?_, List.suffix_cons q r, ?_, ?_, by omega⟩
      · refine hring.2.start ?_ fun x hx => ?_
        · simp [next, hm]
        · simp only [next, hframe x (hne x (List.mem_cons_of_mem _ hx))]
      · intro a ha
        have := hq a ha
        omega
      · rw [List.map_cons, map_blk_congr fun x hx => hframe x (hne x (List.mem_cons_of_mem _ hx))]
        have hsplit := SameBytes.split bp (16 * (m bp).size) (16 * (m q).size) (r.map (blk m))
        rw [hjoin, ← Nat.mul_add] at hsplit
        rw [blk, hbp]
        exact hsplit
    · have hm : joinUpper p bp m = m.setPtr bp q := by
        rw [joinUpper, hptr, if_neg hjoin]
      rw [hm]
      refine ⟨q :: r, fun x => setPtr_ne _, ⟨setPtr_ptr _, ?_⟩, List.suffix_rfl, ?_, ?_, by simp⟩
      · exact hring.2.congr fun x hx => by simp only [next, setPtr_ne _ (hne x hx)]
      · intro a ha
        rw [setPtr_size]
        rcases List.mem_cons.mp ha with rfl | ha
        · omega
        · have := hq a ha
          omega
      · rw [blk_setPtr]
        exact .refl _

/-- What `joinLower` leaves: a ring with the block in it. -/
structure Lower (m m₁ : Mem) (p bp base : ℕ) (as as₁ : List ℕ) : Prop where
  frame : ∀ x, x ≠ p → m₁ x = m x
  ring : Path (next m₁) base as₁ base
  mem : p ∈ base :: as₁
  zero : (m₁ base).size = 0
  sub : as₁ ⊆ as
  gaps : Gaps m₁ as₁
  bytes : SameBytes (as₁.map (blk m₁)) (as.map (blk m))
  size : ∀ a ∈ as₁, (m a).size ≤ (m₁ a).size
  grown : ∃ a ∈ as₁, (m bp).size ≤ (m₁ a).size

theorem Gaps.congr (h : Gaps m as) (hm : ∀ a ∈ as, (m₁ a).size = (m a).size) : Gaps m₁ as :=
  h.imp_of_mem fun ha _ hab => by rwa [hm _ ha]

/-- A block that is linked to the free blocks `r` above it, but not yet to those below. -/
structure Half (m : Mem) (base : ℕ) (l : List ℕ) (bp : ℕ) (r : List ℕ) : Prop where
  low : ∃ t, Path (next m) base l t
  high : Path (next m) bp r base
  nodup : (base :: l ++ bp :: r).Nodup
  base_lt : base < bp
  zero : (m base).size = 0
  gaps_low : Gaps m l
  gaps_high : Gaps m (bp :: r)
  le : ∀ a ∈ l, a < bp ∧ a + 16 * (m a).size ≤ bp
  fit : total ((l ++ bp :: r).map (blk m)) < 2 ^ 36

namespace Half

theorem ne_last (h : Half m base l bp r) {x : ℕ} (hx : x ∈ bp :: r) : x ≠ lastOf base l :=
  fun he => (List.nodup_append.mp h.nodup).2.2 _ lastOf_mem x hx he.symm

/-- The block below ends where the block begins. -/
theorem join {k : List ℕ} {q : ℕ} (h : Half m base (k ++ [q]) bp r)
    (hq : q + 16 * (m q).size = bp) :
    Lower m (joinLower q bp m) q bp base (k ++ [q] ++ bp :: r) (k ++ [q] ++ r) := by
  have hlast : lastOf base (k ++ [q]) = q := by simp
  have hout : ∀ x ∈ bp :: r, x ≠ q := fun x hx => hlast ▸ h.ne_last hx
  have hnodup := (List.nodup_append.mp h.nodup).1
  have hne : ∀ x ∈ base :: k, x ≠ q := by
    rintro x hx rfl
    rw [← List.cons_append] at hnodup
    exact List.disjoint_of_nodup_append hnodup hx (by simp)
  obtain ⟨hgk, -, hkq⟩ := List.pairwise_append.mp h.gaps_low
  obtain ⟨hgbp, hgr⟩ := List.pairwise_cons.mp h.gaps_high
  have hsize : ((m q).size + (m bp).size) % 2 ^ 32 = (m q).size + (m bp).size := by
    have hfit := h.fit
    simp only [List.map_append, List.map_cons, total_append, total_cons, blk] at hfit
    exact Nat.mod_eq_of_lt (by omega)
  have hm : joinLower q bp m = (m.setSize q ((m q).size + (m bp).size)).setPtr q (m bp).ptr := by
    rw [joinLower, if_pos hq, hsize]
    simp only [setSize_ptr]
  have hframe : ∀ x, x ≠ q → joinLower q bp m x = m x := fun x hx => by
    rw [hm, setPtr_ne _ hx, setSize_ne _ hx]
  have hsum : (joinLower q bp m q).size = (m q).size + (m bp).size := by simp [hm]
  have hk : ∀ x ∈ k, joinLower q bp m x = m x := fun x hx =>
    hframe x (hne x (List.mem_cons_of_mem _ hx))
  have hr : ∀ x ∈ r, joinLower q bp m x = m x := fun x hx =>
    hframe x (hout x (List.mem_cons_of_mem _ hx))
  constructor
  case frame => exact hframe
  case ring =>
    obtain ⟨t, hlow⟩ := h.low
    refine Path.skip (x := bp) (hlow.redirect hnodup (fun x _ hx => ?_) ?_)
      (h.high.congr fun x hx => ?_)
    · simp only [next, hframe x (hlast ▸ hx)]
    · simp only [next, hlast, hframe bp (hout bp List.mem_cons_self)]
      simp [hm]
    · simp only [next, hframe x (hout x hx)]
  case mem => simp
  case zero => rw [hframe base (hne base List.mem_cons_self), h.zero]
  case sub => exact List.append_subset.mpr ⟨List.subset_append_left _ _, fun x hx => by simp [hx]⟩
  case gaps =>
    rw [List.append_assoc]
    refine List.pairwise_append.mpr ⟨Gaps.congr hgk fun a ha => by rw [hk a ha],
      List.pairwise_cons.mpr ⟨?_, Gaps.congr hgr fun a ha => by rw [hr a ha]⟩, ?_⟩
    · intro a ha
      have := hgbp a ha
      omega
    · intro a ha b hb
      have haq := hkq a ha q (by simp)
      rw [hk a ha]
      rcases List.mem_cons.mp hb with rfl | hb
      · exact haq
      · have := hgbp b hb
        have := (h.le q (by simp)).1
        omega
  case bytes =>
    have hsame := SameBytes.split q (16 * (m q).size) (16 * (m bp).size) (r.map (blk m))
    rw [hq, ← Nat.mul_add, ← hsum] at hsame
    simp only [List.append_assoc, List.map_append, List.map_cons, List.singleton_append]
    rw [map_blk_congr hk, map_blk_congr hr]
    exact .append (.refl _) hsame
  case size =>
    intro a _
    by_cases haq : a = q
    · rw [haq, hsum]
      omega
    · rw [hframe a haq]
  case grown => exact ⟨q, by simp, by omega⟩

/-- There is a gap below the block. -/
theorem link (h : Half m base l bp r) (hq : lastOf base l + 16 * (m (lastOf base l)).size ≠ bp) :
    Lower m (joinLower (lastOf base l) bp m) (lastOf base l) bp base (l ++ bp :: r)
      (l ++ bp :: r) := by
  have hm : joinLower (lastOf base l) bp m = m.setPtr (lastOf base l) bp := by
    rw [joinLower, if_neg hq]
  have hlt : ∀ a ∈ l, a + 16 * (m a).size < bp := by
    rcases List.eq_nil_or_concat l with rfl | ⟨k, q, rfl⟩
    · simp
    rw [List.concat_eq_append] at *
    have hlast : lastOf base (k ++ [q]) = q := by simp
    have hle := h.le q (by simp)
    rw [hlast] at hq
    intro a ha
    rcases List.mem_append.mp ha with ha | ha
    · have := (List.pairwise_append.mp h.gaps_low).2.2 a ha q (by simp)
      omega
    · rw [List.mem_singleton.mp ha]
      omega
  rw [hm]
  constructor
  case frame => exact fun x => setPtr_ne _
  case ring =>
    obtain ⟨t, hlow⟩ := h.low
    refine path_append_cons.mpr ⟨?_, h.high.congr fun x hx => ?_⟩
    · refine hlow.redirect (List.nodup_append.mp h.nodup).1 (fun x _ hx => ?_) (setPtr_ptr _)
      simp only [next, setPtr_ne _ hx]
    · simp only [next, setPtr_ne _ (h.ne_last hx)]
  case mem =>
    rw [← List.cons_append]
    exact List.mem_append_left _ lastOf_mem
  case zero => rw [setPtr_size, h.zero]
  case sub => exact fun x => id
  case gaps =>
    refine Gaps.congr (List.pairwise_append.mpr ⟨h.gaps_low, h.gaps_high, ?_⟩)
      fun a _ => setPtr_size ..
    intro a ha b hb
    have := hlt a ha
    rcases List.mem_cons.mp hb with rfl | hb
    · assumption
    · have := (List.pairwise_cons.mp h.gaps_high).1 b hb
      omega
  case bytes =>
    rw [blk_setPtr]
    exact .refl _
  case size => exact fun a _ => (setPtr_size ..).ge
  case grown => exact ⟨bp, by simp, (setPtr_size ..).ge⟩

theorem joinLower_spec (h : Half m base l bp r) : ∃ as₁,
    Lower m (joinLower (lastOf base l) bp m) (lastOf base l) bp base (l ++ bp :: r) as₁ := by
  by_cases hq : lastOf base l + 16 * (m (lastOf base l)).size = bp
  · rcases List.eq_nil_or_concat l with rfl | ⟨k, q, rfl⟩
    · have := h.base_lt
      rw [lastOf_nil, h.zero] at hq
      omega
    · rw [List.concat_eq_append] at *
      have hlast : lastOf base (k ++ [q]) = q := by simp
      rw [hlast] at hq ⊢
      exact ⟨_, h.join hq⟩
  · exact ⟨_, h.link hq⟩

end Half

namespace Arena

/-- A free block below a block in use ends below it, and one above begins above its end. -/
theorem apart_of_mem (h : Arena base s as used) (ha : a ∈ as) (hb : b ∈ used) :
    (a < b → a + 16 * (s.mem a).size ≤ b) ∧ (b < a → b + 16 * (s.mem b).size ≤ a) := by
  have hab := (List.pairwise_append.mp h.apart).2.2 a ha b hb
  omega

/-- The block between the free blocks `l` and `r`, after it has been joined to those above. -/
theorem half (h : Arena base s (l ++ r) (bp :: used)) (hl : ∀ a ∈ l, a < bp)
    (hr : ∀ a ∈ r, bp < a) : ∃ r₁, Upper s.mem (joinUpper (lastOf base l) bp s.mem) bp base r r₁ ∧
      Half (joinUpper (lastOf base l) bp s.mem) base l bp r₁ := by
  have hbp : base < bp := h.base_lt (by simp)
  have hfit : total (l.map (blk s.mem)) + total ((bp :: r).map (blk s.mem)) < 2 ^ 36 := by
    have htotal := h.bytes.total
    have := h.bound
    simp only [List.map_append, List.map_cons, total_append, total_cons] at htotal ⊢
    omega
  have hnodup : (base :: l ++ bp :: r).Nodup := by
    have hperm : (base :: (l ++ r ++ bp :: used)).Perm (base :: l ++ bp :: r ++ used) := by
      simp only [List.cons_append, List.append_assoc]
      exact ((List.perm_middle.append_left l).trans (by simp)).cons base
    exact (List.nodup_append.mp (hperm.nodup_iff.mp h.nodup)).1
  obtain ⟨hgl, hgr, -⟩ := List.pairwise_append.mp h.gaps
  obtain ⟨r₁, hup⟩ := joinUpper_spec h.ring.right hbp hgr
    (fun a ha => ⟨hr a ha, (h.apart_of_mem (List.mem_append_right l ha)
      List.mem_cons_self).2 (hr a ha)⟩) (by omega)
  have hframe : ∀ x ∈ base :: l, joinUpper (lastOf base l) bp s.mem x = s.mem x := by
    rintro x hx
    exact hup.frame x fun he => (List.nodup_append.mp hnodup).2.2 x hx bp List.mem_cons_self he
  have hframe_r : ∀ x ∈ r₁, joinUpper (lastOf base l) bp s.mem x = s.mem x := fun x hx =>
    hup.frame x (hr x (hup.suffix.subset hx)).ne'
  refine ⟨r₁, hup, ?_⟩
  constructor
  case low =>
    obtain ⟨t, ht⟩ := h.ring.left
    exact ⟨t, ht.congr fun x hx => by simp only [next, hframe x hx]⟩
  case high => exact hup.path
  case nodup =>
    exact hnodup.sublist ((hup.suffix.sublist.cons_cons bp).append_left (base :: l))
  case base_lt => exact hbp
  case zero => rw [hframe base List.mem_cons_self, h.zero]
  case gaps_low => exact Gaps.congr hgl fun a ha => by rw [hframe a (List.mem_cons_of_mem _ ha)]
  case gaps_high =>
    refine List.pairwise_cons.mpr ⟨hup.gap, ?_⟩
    exact Gaps.congr (hgr.sublist hup.suffix.sublist) fun a ha => by rw [hframe_r a ha]
  case le =>
    intro a ha
    rw [hframe a (List.mem_cons_of_mem _ ha)]
    exact ⟨hl a ha, (h.apart_of_mem (List.mem_append_left r ha) List.mem_cons_self).1 (hl a ha)⟩
  case fit =>
    rw [List.map_append, total_append, hup.bytes.total,
      map_blk_congr fun x hx => hframe x (List.mem_cons_of_mem _ hx)]
    exact hfit

end Arena

/-- `free` puts a block back into the free list. -/
theorem free_spec (h : Arena base s as (bp :: used)) (hfuel : as.length < fuel) :
    ∃ s' as₁, free fuel (bp + 16) s = some s' ∧ Arena base s' as₁ used ∧
      s' = { s with mem := s'.mem, freep := s'.freep } ∧
      (∀ x ∈ used, s'.mem x = s.mem x) ∧ ∃ a ∈ as₁, (s.mem bp).size ≤ (s'.mem a).size := by
  obtain ⟨l, r, rfl, hl, hr, hfind⟩ := findSlot_spec h hfuel
  obtain ⟨r₁, hup, hhalf⟩ := h.half hl hr
  obtain ⟨as₁, hlow⟩ := hhalf.joinLower_spec
  have hfree : free fuel (bp + 16) s = some { s with
      mem := joinLower (lastOf base l) bp (joinUpper (lastOf base l) bp s.mem)
      freep := lastOf base l } := by
    rw [free, Nat.add_sub_cancel, hfind]
    rfl
  rw [hfree]
  generalize joinUpper (lastOf base l) bp s.mem = m₁ at hup hhalf hlow ⊢
  generalize joinLower (lastOf base l) bp m₁ = m₂ at hlow ⊢
  have hused : ∀ x ∈ used, m₂ x = s.mem x := by
    intro x hx
    have hnodup := h.nodup
    rw [List.append_assoc, ← List.cons_append] at hnodup
    obtain ⟨-, hright, hdisj⟩ := List.nodup_append.mp hnodup
    rw [hlow.frame x, hup.frame x]
    · rintro rfl
      exact (List.nodup_cons.mp (List.nodup_append.mp hright).2.1).1 hx
    · exact fun he => hdisj _ lastOf_mem x (by simp [hx]) he.symm
  have hpos : ∀ a ∈ l ++ bp :: r₁, 0 < (m₁ a).size := by
    intro a ha
    by_cases he : a = bp
    · exact he ▸ (h.pos bp (by simp)).trans_le hup.size
    · rw [hup.frame a he]
      refine h.pos a (List.mem_append_left _ (List.mem_append.mpr ?_))
      refine (List.mem_append.mp ha).imp_right fun ha => ?_
      exact hup.suffix.subset ((List.mem_cons.mp ha).resolve_left he)
  refine ⟨_, as₁, rfl, ?_, rfl, hused, ?_⟩
  · constructor
    case ring => exact hlow.ring
    case freep => exact hlow.mem
    case zero => exact hlow.zero
    case pos =>
      intro a ha
      rcases List.mem_append.mp ha with ha | ha
      · exact (hpos a (hlow.sub ha)).trans_le (hlow.size a ha)
      · dsimp only
        rw [hused a ha]
        exact h.pos a (by simp [ha])
    case gaps => exact hlow.gaps
    case bytes =>
      refine SameBytes.trans ?_ h.bytes
      have hl' : l.map (blk m₁) = l.map (blk s.mem) := map_blk_congr fun x hx =>
        hup.frame x (hl x hx).ne
      have hnew := hlow.bytes
      rw [List.map_append, hl'] at hnew
      rw [List.map_append, map_blk_congr hused]
      refine ((hnew.trans (.append (.refl _) hup.bytes)).append (.refl _)).trans (.of_perm ?_)
      simp only [List.map_append, List.map_cons, List.append_assoc, List.cons_append]
      exact List.perm_middle.symm.append_left _
    case separate => exact h.separate
    case above => exact h.above
    case brk => exact h.brk
    case bound => exact h.bound
  · obtain ⟨a, ha, hsize⟩ := hlow.grown
    exact ⟨a, ha, hup.size.trans hsize⟩

end Xv6.Umalloc

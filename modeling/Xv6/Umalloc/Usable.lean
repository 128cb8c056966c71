import Xv6.Umalloc.Sound

/-! # Memory that the process has

With the `sbrk` of the kernel the process has the memory below its size. A small
request leads to a block in that memory. A request that does not fit into an `int`
makes `sbrk` shrink the process, or grow it by less than the block has.
-/

namespace Xv6.Umalloc

open Tiling

variable {base brk fuel n : ℕ} {s s' : State} {a : Act} {m : Mem} {sb : Sbrk} {ok : ℕ → Bool}

/-- The memory of the machine, in bytes. -/
def physical : ℕ := 2 ^ 27

/-- `sbrk` with `growproc`; the `k`th call that grows fails if the machine has not that much memory,
or if `ok k` is false. A size below zero wraps around and is no smaller than the old one. -/
def growproc (ok : ℕ → Bool) : Sbrk := fun n s =>
  if 0 < n then
    if ok s.calls ∧ s.brk + n.toNat ≤ physical then
      (some s.brk, { s with
        calls := s.calls + 1, brk := s.brk + n.toNat, got := (s.brk, n.toNat) :: s.got })
    else (none, { s with calls := s.calls + 1 })
  else
    let newsz := ((s.brk + n) % 2 ^ 64).toNat
    (some s.brk, { s with calls := s.calls + 1, brk := if newsz ≥ s.brk then s.brk else newsz })

/-- A call that a program may make returns. -/
def GrowStep (base : ℕ) (ok : ℕ → Bool) (s : State) (a : Act) (s' : State) : Prop :=
  Allowed s a ∧ ∃ fuel, perform base (growproc ok) fuel s a = some s'

/-- The requests whose size is an `int` even with the header and the rounding. -/
def Small : Act → Prop
  | .malloc nbytes => nbytes < 2 ^ 31 - 31
  | _ => True

/-- The process has the byte at `x`, and has it from `sbrk`. -/
def State.Has (s : State) (x : ℕ) : Prop := x < s.brk ∧ ∃ g ∈ s.got, g.Has x

theorem grants_growproc (ok : ℕ → Bool) : Grants (growproc ok) := by
  intro n hn _ s
  unfold growproc
  rw [if_pos (by omega), Int.toNat_natCast]
  split_ifs
  · exact .inr ⟨s.brk, _, le_rfl, rfl⟩
  · exact .inl ⟨_, rfl⟩

/-! ## The size of the process -/

/-- The process has grown from `brk`, and the machine has the memory for it. -/
structure Grown (brk : ℕ) (s : State) : Prop where
  le : brk ≤ s.brk
  total : total s.got ≤ s.brk
  physical : s.brk ≤ physical

theorem Grown.growproc (h : Grown brk s) (hn : 0 < n) : Grown brk (growproc ok n s).2 := by
  have hle := h.le
  have htotal := h.total
  unfold Umalloc.growproc
  rw [if_pos (by omega), Int.toNat_natCast]
  split_ifs with hok
  · constructor
    · dsimp only
      omega
    · simp only [total_cons]
      omega
    · exact hok.2
  · exact ⟨h.le, h.total, h.physical⟩

theorem Grown.free (h : Grown brk s) {ap : ℕ} (hs : free fuel ap s = some s') : Grown brk s' := by
  obtain ⟨p, -, rfl⟩ := Option.map_eq_some_iff.mp hs
  exact ⟨h.le, h.total, h.physical⟩

theorem Grown.take (h : Grown brk s) (prevp p : ℕ) : Grown brk (take n prevp p s).2 := by
  unfold Umalloc.take
  split_ifs
  · exact ⟨h.le, h.total, h.physical⟩
  · exact ⟨h.le, h.total, h.physical⟩

variable {x : ℕ × State}

theorem Grown.morecore (h : Grown brk s) (hn : coreUnits n * 16 < 2 ^ 31)
    (hx : morecore (Umalloc.growproc ok) fuel n s = some x) : Grown brk x.2 := by
  have hsb : Grown brk (Umalloc.growproc ok (coreUnits n * 16 : ℕ) s).2 := h.growproc (by
    have := (coreUnits_pos n).1
    omega)
  simp only [Umalloc.morecore, toInt_eq hn] at hx
  generalize Umalloc.growproc ok _ s = y at hsb hx
  obtain ⟨_ | hp, s₁⟩ := y
  · cases hx
    exact hsb
  · obtain ⟨s₂, hs₂, rfl⟩ := Option.map_eq_some_iff.mp hx
    have h₁ : Grown brk { s₁ with mem := s₁.mem.setSize hp (coreUnits n) } :=
      ⟨hsb.le, hsb.total, hsb.physical⟩
    exact h₁.free hs₂

theorem Grown.mallocFrom (hn : coreUnits n * 16 < 2 ^ 31) {prevp p : ℕ} (h : Grown brk s)
    (hx : mallocFrom (Umalloc.growproc ok) n fuel prevp p s = some x) : Grown brk x.2 := by
  induction fuel generalizing prevp p s with
  | zero => cases hx
  | succ fuel ih =>
    rw [Umalloc.mallocFrom] at hx
    split_ifs at hx
    · cases hx
      exact h.take prevp p
    · obtain ⟨y, hcore, hx⟩ := Option.bind_eq_some_iff.mp hx
      have hy := h.morecore hn hcore
      dsimp only at hx
      split_ifs at hx
      · cases hx
        exact hy
      · exact ih hy hx
    · exact ih h hx

theorem Grown.malloc {nbytes : ℕ} (hn : nbytes < 2 ^ 31 - 31) (h : Grown brk s)
    (hx : malloc base (Umalloc.growproc ok) fuel nbytes s = some x) : Grown brk x.2 := by
  refine Grown.mallocFrom (units_fit hn).2.2 ?_ hx
  split_ifs
  · exact ⟨h.le, h.total, h.physical⟩
  · exact h

theorem Grown.perform (hsmall : Small a) (h : Grown brk s)
    (hs : perform base (Umalloc.growproc ok) fuel s a = some s') : Grown brk s' := by
  cases a with
  | malloc nbytes =>
    obtain ⟨x, hx, rfl⟩ := Option.map_eq_some_iff.mp hs
    have h' := h.malloc hsmall hx
    split_ifs
    · exact h'
    · exact ⟨h'.le, h'.total, h'.physical⟩
  | free bp =>
    obtain ⟨s₁, hs₁, rfl⟩ := Option.map_eq_some_iff.mp hs
    have h' := h.free hs₁
    exact ⟨h'.le, h'.total, h'.physical⟩
  | write x hd =>
    cases hs
    exact ⟨h.le, h.total, h.physical⟩

theorem Grown.fits (h : Grown brk s) (hsmall : Small a) : Fits s a := by
  cases a with
  | malloc nbytes =>
    have hunits := (units_fit hsmall).2.2
    have htotal := h.total
    have hphys := h.physical
    unfold Umalloc.physical at hphys
    exact ⟨hsmall, by omega⟩
  | free bp => trivial
  | write x hd => trivial

/-! ## Blocks -/

/-- The process has the bytes of the live blocks. -/
theorem Inv.has_live {b : ℕ × ℕ} (hbase : 0 < base) (h : Inv base s) (hb : b ∈ s.live) :
    0 < b.1 ∧ ∀ x, b.1 + 16 ≤ x → x < b.1 + 16 + b.2 → s.Has x := by
  rcases h.arena with ⟨-, -, hnil, -⟩ | ⟨as, ha⟩
  · simp [hnil] at hb
  · refine ⟨hbase.trans (ha.base_lt (List.mem_append_right as (List.mem_map_of_mem hb))), ?_⟩
    intro x hle hlt
    obtain ⟨as', hsound⟩ := h.sound hbase
    obtain ⟨hroom, hgot⟩ := hsound.room b hb
    obtain ⟨g, hg, hgx⟩ := hgot x ⟨by simp only [blk]; omega, by simp only [blk]; omega⟩
    exact ⟨hgx.2.trans_le (ha.above g hg).2, g, hg, hgx⟩

/-- In every run of small requests, the next one returns without a block or with one that the
process has, and leaves the process at least as large. -/
theorem malloc_usable (hbase : 0 < base) (hbrk : base + 16 ≤ brk) (hphys : brk ≤ physical)
    {l : List Act}
    (h : Run (fun s a s' => Small a ∧ GrowStep base ok s a s') (State.init m brk) l s)
    (nbytes : ℕ) (hn : nbytes < 2 ^ 31 - 31) :
    ∃ fuel ap s', malloc base (growproc ok) fuel nbytes s = some (ap, s') ∧ s.brk ≤ s'.brk ∧
      (ap = 0 ∨ ∀ x, ap ≤ x → x < ap + nbytes → s'.Has x) := by
  have hinv : Inv base s ∧ Grown brk s := by
    have hinit : Grown brk (State.init m brk) := ⟨le_rfl, Nat.zero_le _, hphys⟩
    refine h.invariant (I := fun s => Inv base s ∧ Grown brk s) (fun _ _ _ _ hs hI => ?_)
      ⟨.init hbrk, hinit⟩
    obtain ⟨hsmall, hallow, _, hs⟩ := hs
    exact ⟨hI.1.perform_eq (grants_growproc ok) hbase hallow (hI.2.fits hsmall) hs,
      hI.2.perform hsmall hs⟩
  obtain ⟨hI, hG⟩ := hinv
  have hallow : Allowed s (.malloc nbytes) := show nbytes < 2 ^ 32 by omega
  obtain ⟨fuel, s₁, hs₁, hI₁⟩ :=
    hI.perform (grants_growproc ok) hbase hallow (hG.fits (a := .malloc nbytes) hn)
  obtain ⟨⟨ap, s'⟩, hx, rfl⟩ := Option.map_eq_some_iff.mp hs₁
  have hgrown : Grown s.brk s := ⟨le_rfl, hG.total, hG.physical⟩
  refine ⟨fuel, ap, s', hx, (hgrown.malloc hn hx).le, or_iff_not_imp_left.mpr fun hap => ?_⟩
  simp only [if_neg hap] at hI₁
  obtain ⟨hpos, hhas⟩ := hI₁.has_live hbase List.mem_cons_self
  dsimp only at hpos hhas
  rwa [show ap - 16 + 16 = ap by omega] at hhas

/-- A second block, after the first one. -/
theorem malloc_usable_second : ∃ s, Run (fun s a s' => Small a ∧ GrowStep 16 (fun _ => true) s a s')
    (State.init (fun _ => ⟨0, 0⟩) 32) [.malloc 100] s ∧ s.live = [(65440, 100)] ∧
    ∃ fuel ap s', malloc 16 (growproc fun _ => true) fuel 200 s = some (ap, s') ∧ s.brk ≤ s'.brk ∧
      (ap = 0 ∨ ∀ x, ap ≤ x → x < ap + 200 → s'.Has x) := by
  have hrun : ∃ s, perform 16 (growproc fun _ => true) 3 (State.init (fun _ => ⟨0, 0⟩) 32)
      (.malloc 100) = some s ∧ s.live = [(65440, 100)] := ⟨_, rfl, by decide +kernel⟩
  obtain ⟨s, hs, hlive⟩ := hrun
  have hall : Run (fun s a s' => Small a ∧ GrowStep 16 (fun _ => true) s a s')
      (State.init (fun _ => ⟨0, 0⟩) 32) [.malloc 100] s :=
    .single ⟨show 100 < 2 ^ 31 - 31 by decide, show 100 < 2 ^ 32 by decide, 3, hs⟩
  exact ⟨s, hall, hlive, malloc_usable (by decide) (by decide) (by decide) hall 200 (by decide)⟩

/-- `malloc (2 ^ 32 - 1)` gets 16 bytes, and the first byte of the block is not among them.
`malloc (2 ^ 32 - 33)` makes the process smaller. -/
theorem malloc_not_usable :
    (∃ s', malloc 16 (growproc fun _ => true) 3 (2 ^ 32 - 1) (State.init (fun _ => ⟨0, 0⟩) 5008) =
      some (5024, s') ∧ ¬ s'.Has 5024) ∧
    ∃ ap s', malloc 16 (growproc fun _ => true) 3 (2 ^ 32 - 33)
      (State.init (fun _ => ⟨0, 0⟩) 5008) = some (ap, s') ∧ ap ≠ 0 ∧ s'.brk = 4992 := by
  have hgrow : ∃ s', malloc 16 (growproc fun _ => true) 3 (2 ^ 32 - 1)
      (State.init (fun _ => ⟨0, 0⟩) 5008) = some (5024, s') ∧ s'.brk = 5024 :=
    ⟨_, rfl, by decide +kernel⟩
  obtain ⟨s', hs', hbrk⟩ := hgrow
  refine ⟨⟨s', hs', fun h => ?_⟩, _, _, rfl, by decide +kernel, by decide +kernel⟩
  have := h.1
  omega

end Xv6.Umalloc

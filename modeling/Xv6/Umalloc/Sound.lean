import Xv6.Umalloc.Calls

/-! # Runs of the allocator

Every call keeps the heap sound and returns, provided that a request stays below
`2 ^ 31 - 31` bytes, so that `sbrk` gets a positive number, and that the heap stays
below `2 ^ 32` units, so that no size wraps.
-/

namespace Xv6.Umalloc

open Tiling

variable {base brk fuel : ℕ} {s s' : State} {as : List ℕ} {a : Act} {m : Mem}
  {grant : ℕ → Option ℕ} {sb : Sbrk}

/-- The heap with the free blocks `as`. -/
structure Sound (base : ℕ) (s : State) (as : List ℕ) : Prop where
  /-- The free blocks and `base` form a ring, and `freep` points to it. -/
  ring : if s.freep = 0 then as = [] else Path (next s.mem) base as base ∧ s.freep ∈ base :: as
  increasing : (base :: as).Pairwise (· < ·)
  /-- Free blocks do not overlap and are not adjacent. -/
  gaps : Gaps s.mem as
  live_disjoint : s.live.Pairwise fun b c =>
    ∀ x, ¬ ((blk s.mem b.1).Has x ∧ (blk s.mem c.1).Has x)
  free_disjoint : ∀ b ∈ s.live, ∀ a ∈ as, ∀ x, ¬ ((blk s.mem a).Has x ∧ (blk s.mem b.1).Has x)
  /-- A live block has room for its header and the bytes requested, and `sbrk` has returned it. -/
  room : ∀ b ∈ s.live, 16 + b.2 ≤ 16 * (s.mem b.1).size ∧
    ∀ x, (blk s.mem b.1).Has x → ∃ g ∈ s.got, g.Has x
  sum : total (as.map (blk s.mem)) + total (s.live.map fun b => blk s.mem b.1) = total s.got

/-- The requests that `malloc` can serve. -/
def Fits (s : State) : Act → Prop
  | .malloc nbytes => nbytes < 2 ^ 31 - 31 ∧ total s.got + coreUnits (units nbytes) * 16 < 2 ^ 36
  | _ => True

/-- What holds between the calls. -/
structure Inv (base : ℕ) (s : State) : Prop where
  arena : (s.freep = 0 ∧ s.got = [] ∧ s.live = [] ∧ base + 16 ≤ s.brk) ∨
    ∃ as, Arena base s as (s.live.map Prod.fst)
  room : ∀ b ∈ s.live, 16 + b.2 ≤ 16 * (s.mem b.1).size

theorem Inv.init (h : base + 16 ≤ brk) : Inv base (State.init m brk) where
  arena := .inl ⟨rfl, rfl, rfl, h⟩
  room := by simp [State.init]

theorem Inv.sound (hbase : 0 < base) (h : Inv base s) : ∃ as, Sound base s as := by
  rcases h.arena with ⟨hfreep, hgot, hlive, -⟩ | ⟨as, ha⟩
  · refine ⟨[], ?_⟩
    constructor <;> simp [hfreep, hgot, hlive, Gaps]
  · refine ⟨as, ?_⟩
    have hdisj := (ha.bytes.separate ha.separate).pairwise
    rw [List.map_append, List.pairwise_append] at hdisj
    have htotal := ha.bytes.total
    rw [List.map_append, total_append, List.map_map] at htotal
    constructor
    case ring => rw [if_neg (ha.freep_pos hbase).ne']; exact ⟨ha.ring, ha.freep⟩
    case increasing => exact ha.sorted
    case gaps => exact ha.gaps
    case live_disjoint =>
      exact List.pairwise_map.mp (List.pairwise_map.mp hdisj.2.1)
    case free_disjoint =>
      exact fun b hb a ha' => hdisj.2.2 _ (List.mem_map_of_mem ha') _
        (List.mem_map_of_mem (List.mem_map_of_mem hb))
    case room =>
      intro b hb
      refine ⟨h.room b hb, fun x hx => ?_⟩
      exact ha.bytes.exists_has (List.mem_map_of_mem
        (List.mem_append_right _ (List.mem_map_of_mem hb))) hx
    case sum => exact htotal

theorem units_fit {n : ℕ} (h : n < 2 ^ 31 - 31) :
    0 < units n ∧ 16 + n ≤ 16 * units n ∧ coreUnits (units n) * 16 < 2 ^ 31 := by
  unfold coreUnits units
  split_ifs <;> omega

/-- The state in which the loop of `malloc` starts. -/
theorem Inv.start (hbase : 0 < base) (h : Inv base s) :
    ∃ s₁ as, Arena base s₁ as (s.live.map Prod.fst) ∧ s₁.got = s.got ∧
      Kept s s₁ (s.live.map Prod.fst) ∧ ∀ sb fuel nbytes, malloc base sb fuel nbytes s =
        mallocFrom sb (units nbytes) fuel s₁.freep (s₁.mem s₁.freep).ptr s₁ := by
  rcases h.arena with ⟨hfreep, hgot, hlive, hbrk⟩ | ⟨as, ha⟩
  · refine ⟨{ s with mem := Function.update s.mem base ⟨base, 0⟩, freep := base }, [], ?_, rfl,
      ⟨rfl, by simp [hlive]⟩, fun sb fuel nbytes => ?_⟩
    · constructor
      case ring => simp [Path, next]
      case freep => exact List.mem_cons_self
      case zero => simp
      case pos => simp [hlive]
      case gaps => exact .nil
      case bytes => simpa [hlive, hgot] using SameBytes.refl []
      case separate => simp [hgot, Separate]
      case above => simp [hgot]
      case brk => exact hbrk
      case bound => simp [hgot]
    · simp only [malloc, if_pos hfreep]
  · refine ⟨s, as, ha, rfl, ⟨rfl, fun _ _ => rfl⟩, fun sb fuel nbytes => ?_⟩
    simp only [malloc, if_neg (ha.freep_pos hbase).ne']

/-- A call that fits returns and keeps the invariant. -/
theorem Inv.perform (hsb : Grants sb) (hbase : 0 < base) (h : Inv base s)
    (hallow : Allowed s a) (hfit : Fits s a) :
    ∃ fuel s', Umalloc.perform base sb fuel s a = some s' ∧ Inv base s' := by
  cases a with
  | malloc nbytes =>
    obtain ⟨hlt, hbound⟩ := hfit
    obtain ⟨hpos, hroom, hcore⟩ := units_fit hlt
    obtain ⟨s₁, as, harena, hgot, hkept₁, hmalloc⟩ := h.start hbase
    obtain ⟨fuel, ⟨ap, s'⟩, hx, hkept₂, hblock⟩ :=
      mallocFrom_spec hsb hbase harena hpos hcore (hgot ▸ hbound)
    have hkept := hkept₁.trans hkept₂
    have hold : ∀ b ∈ s.live, 16 + b.2 ≤ 16 * (s'.mem b.1).size := fun b hb => by
      rw [hkept.mem b.1 (List.mem_map_of_mem hb)]
      exact h.room b hb
    rw [← hmalloc] at hx
    refine ⟨fuel, _, by rw [Umalloc.perform, hx, Option.map_some], ?_⟩
    dsimp only at hkept hblock ⊢
    rcases hblock with ⟨rfl, as₁, ha⟩ | ⟨b, as₁, rfl, ha, hsize⟩
    · rw [if_pos rfl]
      exact ⟨.inr ⟨as₁, hkept.live ▸ ha⟩, hkept.live ▸ hold⟩
    · rw [if_neg (by omega), Nat.add_sub_cancel]
      refine ⟨.inr ⟨as₁, ?_⟩, ?_⟩
      · rw [List.map_cons, hkept.live]
        exact { ha with }
      · intro c hc
        rcases List.mem_cons.mp hc with rfl | hc
        · dsimp only
          omega
        · exact hold c (hkept.live ▸ hc)
  | free bp =>
    obtain ⟨b, hb, rfl⟩ := hallow
    obtain ⟨⟨-, -, hnil, -⟩ | ⟨as, ha⟩, hroom⟩ := h
    · simp [hnil] at hb
    obtain ⟨c, l₁, l₂, -, hc, hlive, herase⟩ :=
      List.exists_of_eraseP (p := fun c : ℕ × ℕ => c.1 = b.1) hb (by simp)
    have hperm : (s.live.map Prod.fst).Perm (b.1 :: (l₁ ++ l₂).map Prod.fst) := by
      rw [hlive, ← show c.1 = b.1 by simpa using hc, ← List.map_cons]
      exact List.perm_middle.map _
    obtain ⟨s', as₁, hfree, ha', hs', hmem, -⟩ :=
      free_spec (ha.perm hperm) (Nat.lt_succ_self as.length)
    refine ⟨as.length + 1, _, by rw [Umalloc.perform, hfree, Option.map_some], ?_⟩
    rw [herase]
    refine ⟨.inr ⟨as₁, { ha' with }⟩, fun d hd => ?_⟩
    dsimp only at hd ⊢
    rw [hmem d.1 (List.mem_map_of_mem hd)]
    refine hroom d ?_
    rw [hlive]
    exact List.perm_middle.mem_iff.mpr (List.mem_cons_of_mem _ hd)
  | write x hd =>
    obtain ⟨b, hb, hne, hx⟩ := hallow
    obtain ⟨⟨-, -, hnil, -⟩ | ⟨as, ha⟩, hroom⟩ := h
    · simp [hnil] at hb
    have hout := ha.not_header (List.mem_append_right as (List.mem_map_of_mem hb)) hne hx
    have hsame : ∀ y ∈ base :: (as ++ s.live.map Prod.fst),
        Function.update s.mem x hd y = s.mem y := by
      intro y hy
      have hyx : y ≠ x := fun he => hout (he ▸ hy)
      rw [Function.update_of_ne hyx]
    refine ⟨0, _, rfl, .inr ⟨as, ha.congr hsame⟩, fun d hd' => ?_⟩
    dsimp only
    rw [hsame d.1 (List.mem_cons_of_mem _ (List.mem_append_right _ (List.mem_map_of_mem hd')))]
    exact hroom d hd'

theorem perform_mono {fuel' : ℕ} (h : perform base sb fuel s a = some s') (hle : fuel ≤ fuel') :
    perform base sb fuel' s a = some s' := by
  cases a with
  | malloc nbytes =>
    obtain ⟨x, hx, rfl⟩ := Option.map_eq_some_iff.mp h
    exact Option.map_eq_some_iff.mpr ⟨x, mallocFrom_mono hx hle, rfl⟩
  | free bp =>
    obtain ⟨x, hx, rfl⟩ := Option.map_eq_some_iff.mp h
    exact Option.map_eq_some_iff.mpr ⟨x, free_mono hx hle, rfl⟩
  | write x hd => exact h

/-- A call that fits keeps the invariant. -/
theorem Inv.perform_eq (hsb : Grants sb) (hbase : 0 < base) (h : Inv base s) (hallow : Allowed s a)
    (hfit : Fits s a) (hs' : Umalloc.perform base sb fuel s a = some s') : Inv base s' := by
  obtain ⟨fuel₁, s₁, hs₁, hinv⟩ := h.perform hsb hbase hallow hfit
  have hmax := perform_mono hs' (le_max_left fuel fuel₁)
  rw [perform_mono hs₁ (le_max_right fuel fuel₁)] at hmax
  exact Option.some.inj hmax ▸ hinv

/-- In every run of calls that fit, the heap is sound, and the next call that fits returns. -/
theorem heap_sound (hbase : 0 < base) (hbrk : base + 16 ≤ brk) {l : List Act}
    (h : Run (fun s a s' => Fits s a ∧ Step base grant s a s') (State.init m brk) l s) :
    (∃ as, Sound base s as) ∧
    ∀ a, Allowed s a → Fits s a → ∃ s', Step base grant s a s' := by
  have hinv : Inv base s := h.invariant (fun _ _ _ _ ⟨hfit, hallow, _, hs⟩ hI =>
    hI.perform_eq (grants_sbrk grant) hbase hallow hfit hs) (.init hbrk)
  refine ⟨hinv.sound hbase, fun a hallow hfit => ?_⟩
  obtain ⟨fuel, s', hs', -⟩ := hinv.perform (grants_sbrk grant) hbase hallow hfit
  exact ⟨s', hallow, fuel, hs'⟩

/-- The first block is the end of the first region. -/
theorem heap_sound_first : ∃ s, Run (fun s a s' => Fits s a ∧ Step 16 (fun _ => some 0) s a s')
    (State.init (fun _ => ⟨0, 0⟩) 32) [.malloc 100] s ∧ s.live = [(65440, 100)] ∧
      ∃ as, Sound 16 s as := by
  have hrun : ∃ s, perform 16 (sbrk fun _ => some 0) 3 (State.init (fun _ => ⟨0, 0⟩) 32) (.malloc 100) =
      some s ∧ s.live = [(65440, 100)] := ⟨_, rfl, by decide +kernel⟩
  obtain ⟨s, hs, hlive⟩ := hrun
  have hstep : Step 16 (fun _ => some 0) (State.init (fun _ => ⟨0, 0⟩) 32) (.malloc 100) s :=
    ⟨show 100 < 2 ^ 32 by decide, 3, hs⟩
  have hfits : Fits (State.init (fun _ => ⟨0, 0⟩) 32) (.malloc 100) := ⟨by decide, by decide⟩
  have hall : Run (fun s a s' => Fits s a ∧ Step 16 (fun _ => some 0) s a s')
      (State.init (fun _ => ⟨0, 0⟩) 32) [.malloc 100] s := .single ⟨hfits, hstep⟩
  exact ⟨s, hall, hlive, (heap_sound (by decide) (by decide) hall).1⟩

/-- `malloc (2 ^ 31 - 31)` asks `sbrk` for a negative number of bytes, and returns a block that
`sbrk` has not returned. -/
theorem heap_sound_fails : ∃ s, Run (Step 16 fun _ => some 0) (State.init (fun _ => ⟨0, 0⟩) 32)
    [.malloc (2 ^ 31 - 31)] s ∧ ∀ as, ¬ Sound 16 s as := by
  have hrun : ∃ s, perform 16 (sbrk fun _ => some 0) 3 (State.init (fun _ => ⟨0, 0⟩) 32)
      (.malloc (2 ^ 31 - 31)) = some s ∧
      s.live = [(32, 2 ^ 31 - 31)] ∧ s.got = [(32, 0)] ∧ (s.mem 32).size = 2 ^ 27 :=
    ⟨_, rfl, by decide +kernel, by decide +kernel, by decide +kernel⟩
  obtain ⟨s, hs, hlive, hgot, hsize⟩ := hrun
  refine ⟨s, .single ⟨show 2 ^ 31 - 31 < 2 ^ 32 by decide, 3, hs⟩, fun as hsound => ?_⟩
  obtain ⟨g, hg, hx⟩ := (hsound.room (32, 2 ^ 31 - 31) (by simp [hlive])).2 32
    (by simp [Extent.Has, blk, hsize])
  rw [hgot, List.mem_singleton] at hg
  simp [hg, Extent.Has] at hx

end Xv6.Umalloc

import Xv6.Logic.Forest
import Xv6.Proc.Locks

/-! # The process tree

A process is created after its parent, so the serial numbers fall along the
parent pointers. `exit` gives all children away before its slot becomes a zombie.
-/

namespace Xv6.Proc

open Sys

variable {s s' : Machine} {p q : Pptr} {ok : Bool} {pc pc' : Pc} {a : Act} {x y : Slot}
  {f : Slot → Slot}

/-- The states of a process that has not exited. -/
def Up (st : ProcState) : Prop := st = .sleeping ∨ st = .runnable ∨ st = .running

instance (st : ProcState) : Decidable (Up st) := inferInstanceAs (Decidable (_ ∨ _))

/-- In `exit`, with the children given away so far. -/
def Leaves (s : Machine) (p : Pptr) : Pc → Prop
  | .reparent _ i => p ≠ initproc ∧ ∀ q : Pptr, q.val < i → (s.slot q).parent ≠ some p
  | .zombie _ => p ≠ initproc ∧ ∀ q, (s.slot q).parent ≠ some p
  | .wakeup _ _ k => Leaves s p k
  | _ => True

structure Family (s : Machine) : Prop where
  parent : ∀ q r, (s.slot q).parent = some r →
    Up (s.slot r).state ∧ (s.slot r).serial < (s.slot q).serial
  child : ∀ q, Up (s.slot q).state ∨ (s.slot q).state = .zombie → q ≠ initproc →
    (s.slot q).parent ≠ none
  free : ∀ q, (s.slot q).state = .unused → (s.slot q).parent = none
  root : Up (s.slot initproc).state ∧ (s.slot initproc).serial = 0
  pos : ∀ q, q ≠ initproc → (s.slot q).state ≠ .unused → 0 < (s.slot q).serial
  born : ∀ q, (s.slot q).state ≠ .unused → (s.slot q).serial < s.born
  adopt : ∀ p np, (s.slot p).pc = .adopt np → (s.slot p).serial < (s.slot np).serial
  start : ∀ p np, (s.slot p).pc = .start np → (s.slot np).parent ≠ none
  leaves : ∀ p, Leaves s p (s.slot p).pc

/-- What most steps keep of a slot. -/
structure Keeps (x y : Slot) : Prop where
  parent : y.parent = x.parent
  serial : y.serial = x.serial
  up : Up y.state ↔ Up x.state
  zombie : y.state = .zombie ↔ x.state = .zombie
  unused : y.state = .unused ↔ x.state = .unused
  adopt : ∀ np, y.pc = .adopt np → x.pc = .adopt np
  start : ∀ np, y.pc = .start np → x.pc = .start np

theorem Keeps.refl (x : Slot) : Keeps x x :=
  ⟨rfl, rfl, .rfl, .rfl, .rfl, fun _ => id, fun _ => id⟩

/-- Another place, outside of `fork`. -/
theorem Keeps.of_child (hp : y.parent = x.parent) (hs : y.serial = x.serial)
    (hu : Up y.state ↔ Up x.state) (hx : Up x.state) (hc : y.pc.child = none) : Keeps x y where
  parent := hp
  serial := hs
  up := hu
  zombie := by
    have hy := hu.mpr hx
    constructor <;> intro h <;> simp [h, Up] at hx hy
  unused := by
    have hy := hu.mpr hx
    constructor <;> intro h <;> simp [h, Up] at hx hy
  adopt np h := by simp [h, Pc.child] at hc
  start np h := by simp [h, Pc.child] at hc

/-- Another state of a process that is up. -/
theorem Keeps.of_state {st : ProcState} (hx : Up x.state) (hst : Up st) :
    Keeps x { x with state := st } where
  parent := rfl
  serial := rfl
  up := ⟨fun _ => hx, fun _ => hst⟩
  zombie := by constructor <;> intro h <;> simp_all [Up]
  unused := by constructor <;> intro h <;> simp_all [Up]
  adopt _ := id
  start _ := id

theorem Keeps.kill (x : Slot) : Keeps x x.kill := by
  by_cases hs : x.state = .sleeping
  · refine ⟨rfl, rfl, ?_, ?_, ?_, fun _ => id, fun _ => id⟩ <;> simp [Slot.kill, hs, Up]
  · refine ⟨rfl, rfl, ?_, ?_, ?_, fun _ => id, fun _ => id⟩ <;> simp [Slot.kill, hs]

/-- Nobody becomes a child of the leaving process, which is not init. -/
theorem Leaves.mono
    (hp : p ≠ initproc → ∀ q, (s'.slot q).parent = some p → (s.slot q).parent = some p)
    (h : Leaves s p pc) : Leaves s' p pc := by
  induction pc with
  | wakeup c i k ih => exact ih h
  | reparent st i => exact ⟨h.1, fun q hq hc => h.2 q hq (hp h.1 q hc)⟩
  | zombie st => exact ⟨h.1, fun q hc => h.2 q (hp h.1 q hc)⟩
  | _ => trivial

theorem Leaves.congr (hp : ∀ q, (s'.slot q).parent = (s.slot q).parent) :
    Leaves s' p pc ↔ Leaves s p pc :=
  ⟨Leaves.mono fun _ q h => by rw [hp, h], Leaves.mono fun _ q h => by rw [← hp, h]⟩

theorem Jump.leaves (h : Jump s p pc pc') (hl : Leaves s p pc) : Leaves s p pc' := by
  cases h with
  | reparent q hq =>
    refine ⟨hl.1, fun r hr => ?_⟩
    rcases Nat.lt_succ_iff_lt_or_eq.mp hr with hr | hr
    · exact hl.2 r hr
    · exact Fin.ext hr ▸ hq
  | toParent hi _ => exact ⟨hl.1, fun q => hl.2 q (Nat.lt_of_lt_of_le q.isLt hi)⟩
  | orphan hi _ => exact ⟨hl.1, fun q => hl.2 q (Nat.lt_of_lt_of_le q.isLt hi)⟩
  | skip q _ => exact hl
  | woken _ => exact hl
  | @alive l _ => cases l <;> trivial
  | _ => trivial

namespace Family

theorem frame (h : Family s) (hb : s'.born = s.born) (hk : ∀ r, Keeps (s.slot r) (s'.slot r))
    (hl : ∀ r, Leaves s r (s'.slot r).pc) : Family s' where
  parent q r hq := by
    rw [(hk q).parent] at hq
    rw [(hk r).up, (hk r).serial, (hk q).serial]
    exact h.parent q r hq
  child q hq hi := by
    rw [(hk q).up, (hk q).zombie] at hq
    rw [(hk q).parent]
    exact h.child q hq hi
  free q hq := by
    rw [(hk q).parent]
    exact h.free q ((hk q).unused.mp hq)
  root := by
    rw [(hk initproc).up, (hk initproc).serial]
    exact h.root
  pos q hi hq := by
    rw [(hk q).serial]
    exact h.pos q hi (mt (hk q).unused.mpr hq)
  born q hq := by
    rw [(hk q).serial, hb]
    exact h.born q (mt (hk q).unused.mpr hq)
  adopt p np hp := by
    rw [(hk p).serial, (hk np).serial]
    exact h.adopt p np ((hk p).adopt np hp)
  start p np hp := by
    rw [(hk np).parent]
    exact h.start p np ((hk p).start np hp)
  leaves p := (Leaves.congr fun q => (hk q).parent).mpr (hl p)

/-- A step that changes nothing of the tree, by a process that goes to another place. -/
theorem modify (h : Family s) (hk : Keeps (s.slot q) (f (s.slot q)))
    (hl : Leaves s q (f (s.slot q)).pc) : Family (s.modify q f) := by
  refine h.frame rfl (fun r => ?_) fun r => ?_ <;> rw [Machine.slot_modify] <;> split
  next hr => exact hr ▸ hk
  next => exact .refl _
  next hr => exact hr ▸ hl
  next => exact h.leaves r

theorem congr (h : Family s) (hs : s'.slot = s.slot) (hb : s'.born = s.born) : Family s' :=
  h.frame hb (fun r => by rw [hs]; exact .refl _) fun r => by rw [hs]; exact h.leaves r

theorem up_running (h : (s.slot p).state = .running) : Up (s.slot p).state := .inr (.inr h)

/-- A slot that is not up is nobody's parent. -/
theorem ne_parent (h : Family s) (hq : ¬ Up (s.slot q).state) (r : Pptr) :
    (s.slot r).parent ≠ some q := fun hr => hq (h.parent r q hr).1

theorem alloc (h : Family s) (ho : Ok s) (hr : (s.slot p).state = .running)
    (hq : (s.slot q).state = .unused) : Family ((s.allocproc q true).goto p (.adopt q)) := by
  have hqp := ne_of_state hr hq (by simp)
  have hslot := slot_alloc (s := s) hqp
  have hborn : ((s.allocproc q true).goto p (.adopt q)).born = s.born + 1 := rfl
  have hup : ¬ Up (s.slot q).state := by simp [hq, Up]
  have hpar := h.ne_parent hup
  have hnone := h.free q hq
  have hpb := h.born p (by simp [hr])
  have hfree : ∀ r, (s.slot r).pc ≠ .adopt q := fun r hc => by
    have := ho.used r q (by rw [hc, Pc.child])
    simp [hq] at this
  have hparent : ∀ r, (((s.allocproc q true).goto p (.adopt q)).slot r).parent =
      (s.slot r).parent := by
    intro r
    rw [hslot]
    split
    next hrp => rw [hrp]
    split
    next hrq => rw [hrq, Slot.allocproc]
    · rfl
  constructor
  · intro r t ht
    rw [hparent] at ht
    have hrq : r ≠ q := by
      rintro rfl
      rw [hnone] at ht
      cases ht
    have htq : t ≠ q := fun he => hpar r (he ▸ ht)
    have := h.parent r t ht
    rw [hslot, hslot]
    grind
  · intro r hr' hi
    rw [hparent]
    have := h.child r
    rw [hslot] at hr'
    grind [Slot.allocproc, Up]
  · intro r hr'
    rw [hparent]
    have := h.free r
    rw [hslot] at hr'
    grind [Slot.allocproc]
  · have hi : initproc ≠ q := fun he => hup (he ▸ h.root.1)
    have := h.root
    rw [hslot]
    grind
  · intro r hi hr'
    have h₁ := h.pos r hi
    rw [hslot] at hr' ⊢
    grind [Slot.allocproc]
  · intro r hr'
    have h₁ := h.born r
    rw [hborn]
    rw [hslot] at hr' ⊢
    grind [Slot.allocproc]
  · intro r np hp
    have h₁ := h.adopt r np
    have h₂ := h.born r
    rw [hslot] at hp
    rw [hslot, hslot]
    grind [Slot.allocproc]
  · intro r np hp
    rw [hparent]
    have := h.start r np
    rw [hslot] at hp
    grind [Slot.allocproc]
  · intro r
    rw [Leaves.congr hparent]
    have := h.leaves r
    rw [hslot]
    split
    · trivial
    split
    · trivial
    · exact this

theorem adopted (h : Family s) (ho : Ok s) {np : Pptr} (hr : (s.slot p).state = .running)
    (hp : (s.slot p).pc = .adopt np) :
    Family ((s.modify np fun x => { x with parent := some p }).goto p (.start np)) := by
  have hu := ho.used p np (by rw [hp, Pc.child])
  have hnp := ne_of_state hr hu (by simp)
  have hlt := h.adopt p np hp
  have hslot : ∀ r, ((s.modify np fun x => { x with parent := some p }).goto p (.start np)).slot r =
      if r = p then { s.slot p with pc := .start np }
      else if r = np then { s.slot np with parent := some p } else s.slot r := by
    intro r
    rw [Machine.slot_goto, Machine.slot_modify, Machine.slot_modify]
    simp [hnp.symm]
  constructor
  · intro q r hq
    have := h.parent q r
    have := up_running hr
    rw [hslot] at hq
    rw [hslot, hslot]
    grind
  · intro q hq hi
    have := h.child q
    rw [hslot] at hq ⊢
    grind
  · intro q hq
    have := h.free q
    rw [hslot] at hq ⊢
    grind
  · have := h.root
    rw [hslot]
    grind
  · intro q hi hq
    have := h.pos q hi
    rw [hslot] at hq ⊢
    grind
  · intro q hq
    have : (s.slot q).state ≠ .unused → (s.slot q).serial < s.born := h.born q
    change _ < s.born
    rw [hslot] at hq ⊢
    grind
  · intro r m hm
    have := h.adopt r m
    rw [hslot] at hm
    rw [hslot, hslot]
    grind
  · intro r m hm
    have := h.start r m
    rw [hslot] at hm
    rw [hslot]
    grind
  · -- The new parent is in fork, so it is not the process that gives its children away.
    intro r
    have hl := h.leaves r
    rw [hslot]
    split
    · trivial
    next hrp =>
      have hpar : ∀ q, (((s.modify np fun x => { x with parent := some p }).goto p
          (.start np)).slot q).parent = some r → (s.slot q).parent = some r := by
        intro q
        rw [hslot]
        grind
      split
      next hrn =>
        subst hrn
        exact hl.mono fun _ => hpar
      · exact hl.mono fun _ => hpar

theorem started (h : Family s) (ho : Ok s) {np : Pptr} (hr : (s.slot p).state = .running)
    (hp : (s.slot p).pc = .start np) (z : ℤ) : Family ((s.modify np Slot.rouse).finish p z) := by
  have hu := ho.used p np (by rw [hp, Pc.child])
  have hnp := ne_of_state hr hu (by simp)
  have hsome := h.start p np hp
  have hslot := slot_start (s := s) (z := z) hnp
  have hparent : ∀ r, (((s.modify np Slot.rouse).finish p z).slot r).parent =
      (s.slot r).parent := by
    intro r
    rw [hslot]
    grind [Slot.rouse]
  constructor
  · intro q r hq
    rw [hparent] at hq
    have := h.parent q r hq
    rw [hslot, hslot]
    grind [Slot.rouse, Up]
  · intro q hq hi
    have := h.child q
    rw [hparent]
    rw [hslot] at hq
    grind [Slot.rouse]
  · intro q hq
    have := h.free q
    rw [hparent]
    rw [hslot] at hq
    grind [Slot.rouse]
  · have := h.root
    rw [hslot]
    grind [Slot.rouse, Up]
  · intro q hi hq
    have := h.pos q hi
    rw [hslot] at hq ⊢
    grind [Slot.rouse]
  · intro q hq
    have : (s.slot q).state ≠ .unused → (s.slot q).serial < s.born := h.born q
    change _ < s.born
    rw [hslot] at hq ⊢
    grind [Slot.rouse]
  · intro r m hm
    have := h.adopt r m
    rw [hslot] at hm
    rw [hslot, hslot]
    grind [Slot.rouse]
  · intro r m hm
    have := h.start r m
    rw [hparent]
    rw [hslot] at hm
    grind [Slot.rouse]
  · intro r
    rw [Leaves.congr hparent]
    have hl := h.leaves r
    rw [hslot]
    split
    · trivial
    split
    next hrn =>
      subst hrn
      exact hl
    · exact hl

/-- `reparent` gives the child `q` to init. -/
theorem reparented (h : Family s) {status : ℤ} (hp : (s.slot p).pc = .reparent status q.val)
    (hq : (s.slot q).parent = some p) :
    Family ((s.modify q fun x => { x with parent := some initproc }).goto p
      (.wakeup (.proc initproc) 0 (.reparent status (q + 1)))) := by
  have hleave := h.leaves p
  rw [hp] at hleave
  obtain ⟨hup, hlt⟩ := h.parent q p hq
  have hqi : q ≠ initproc := by
    rintro rfl
    rw [h.root.2] at hlt
    exact Nat.not_lt_zero _ hlt
  have hqu : (s.slot q).state ≠ .unused := fun hu => by
    rw [h.free q hu] at hq
    cases hq
  have hpos := h.pos q hqi hqu
  have hqp : q ≠ p := by
    rintro rfl
    exact Nat.lt_irrefl _ hlt
  have hslot : ∀ r, ((s.modify q fun x => { x with parent := some initproc }).goto p
      (.wakeup (.proc initproc) 0 (.reparent status (q + 1)))).slot r =
      if r = p then { s.slot p with pc := .wakeup (.proc initproc) 0 (.reparent status (q + 1)) }
      else if r = q then { s.slot q with parent := some initproc } else s.slot r := by
    intro r
    rw [Machine.slot_goto, Machine.slot_modify, Machine.slot_modify]
    simp [hqp.symm]
  have hroot := h.root
  constructor
  · intro r t ht
    have := h.parent r t
    rw [hslot] at ht
    rw [hslot, hslot]
    grind
  · intro r hr hi
    have := h.child r
    rw [hslot] at hr ⊢
    grind
  · intro r hr
    have := h.free r
    rw [hslot] at hr ⊢
    grind
  · rw [hslot]
    grind
  · intro r hi hr
    have := h.pos r hi
    rw [hslot] at hr ⊢
    grind
  · intro r hr
    have : (s.slot r).state ≠ .unused → (s.slot r).serial < s.born := h.born r
    change _ < s.born
    rw [hslot] at hr ⊢
    grind
  · intro r m hm
    have := h.adopt r m
    rw [hslot] at hm
    rw [hslot, hslot]
    grind
  · intro r m hm
    have := h.start r m
    rw [hslot] at hm
    rw [hslot]
    grind
  · intro r
    have hl := h.leaves r
    by_cases hrp : r = p
    · subst hrp
      rw [hslot, if_pos rfl]
      refine ⟨hleave.1, fun t ht => ?_⟩
      rw [hslot]
      rcases Nat.lt_succ_iff_lt_or_eq.mp ht with ht | ht
      · have := hleave.2 t ht
        grind
      · have : t = q := Fin.ext ht
        have := hleave.1
        grind
    · have hpar : r ≠ initproc → ∀ t, (((s.modify q fun x =>
          { x with parent := some initproc }).goto p
            (.wakeup (.proc initproc) 0 (.reparent status (q + 1)))).slot t).parent = some r →
          (s.slot t).parent = some r := by
        intro hri t
        rw [hslot]
        grind
      rw [hslot, if_neg hrp]
      split
      next hrq =>
        subst hrq
        exact hl.mono hpar
      · exact hl.mono hpar

/-- A process without children becomes a zombie. -/
theorem exited (h : Family s) {status : ℤ} (hr : (s.slot p).state = .running)
    (hp : (s.slot p).pc = .zombie status) : Family (s.modify p (·.exit status)) := by
  have hleave := h.leaves p
  rw [hp] at hleave
  obtain ⟨hi, hno⟩ := hleave
  have hslot : ∀ r, (s.modify p (·.exit status)).slot r =
      if r = p then (s.slot p).exit status else s.slot r := fun r => Machine.slot_modify
  have hparent : ∀ r, ((s.modify p (·.exit status)).slot r).parent = (s.slot r).parent := by
    intro r
    rw [hslot]
    grind [Slot.exit]
  constructor
  · intro q r hq
    rw [hparent] at hq
    have hrp : r ≠ p := fun he => hno q (he ▸ hq)
    have := h.parent q r hq
    rw [hslot, hslot, if_neg hrp]
    grind [Slot.exit]
  · intro q hq hi
    rw [hparent]
    have := h.child q
    have := up_running hr
    rw [hslot] at hq
    grind
  · intro q hq
    rw [hparent]
    have := h.free q
    rw [hslot] at hq
    grind [Slot.exit]
  · rw [hslot, if_neg hi.symm]
    exact h.root
  · intro q hi' hq
    have := h.pos q hi'
    rw [hslot] at hq ⊢
    grind [Slot.exit]
  · intro q hq
    have : (s.slot q).state ≠ .unused → (s.slot q).serial < s.born := h.born q
    change _ < s.born
    rw [hslot] at hq ⊢
    grind [Slot.exit]
  · intro r m hm
    have := h.adopt r m
    rw [hslot] at hm
    rw [hslot, hslot]
    grind [Slot.exit]
  · intro r m hm
    rw [hparent]
    have := h.start r m
    rw [hslot] at hm
    grind [Slot.exit]
  · intro r
    rw [Leaves.congr hparent, hslot]
    split
    · trivial
    · exact h.leaves r

/-- A slot that is not up becomes free. -/
theorem freed (h : Family s) (ho : Ok s)
    (hq : (s.slot q).state = .unused ∨ (s.slot q).state = .zombie) :
    Family (s.modify q Slot.freeproc) := by
  have hup : ¬ Up (s.slot q).state := by rcases hq with hq | hq <;> simp [hq, Up]
  have hpar := h.ne_parent hup
  have hqi : initproc ≠ q := fun he => hup (he ▸ h.root.1)
  have hslot : ∀ r, (s.modify q Slot.freeproc).slot r =
      if r = q then (s.slot q).freeproc else s.slot r := fun r => Machine.slot_modify
  have hsub : ∀ r t, ((s.modify q Slot.freeproc).slot r).parent = some t →
      r ≠ q ∧ (s.slot r).parent = some t := by
    intro r t
    rw [hslot]
    grind [Slot.freeproc]
  constructor
  · intro r t ht
    obtain ⟨hrq, ht⟩ := hsub r t ht
    have htq : t ≠ q := fun he => hpar r (he ▸ ht)
    rw [hslot, hslot, if_neg hrq, if_neg htq]
    exact h.parent r t ht
  · intro r hr hi
    have := h.child r
    rw [hslot] at hr ⊢
    grind [Slot.freeproc, Up]
  · intro r hr
    have := h.free r
    rw [hslot] at hr ⊢
    grind [Slot.freeproc]
  · rw [hslot, if_neg hqi]
    exact h.root
  · intro r hi hr
    have := h.pos r hi
    rw [hslot] at hr ⊢
    grind [Slot.freeproc]
  · intro r hr
    have : (s.slot r).state ≠ .unused → (s.slot r).serial < s.born := h.born r
    change _ < s.born
    rw [hslot] at hr ⊢
    grind [Slot.freeproc]
  · intro r m hm
    have := h.adopt r m
    rw [hslot] at hm
    rw [hslot, hslot]
    grind [Slot.freeproc]
  · intro r m hm
    have hrq : r ≠ q := by
      rintro rfl
      rw [hslot, if_pos rfl] at hm
      cases hm
    rw [hslot, if_neg hrq] at hm
    have hmq : m ≠ q := by
      rintro rfl
      have := ho.used r m (by rw [hm, Pc.child])
      simp [this] at hq
    rw [hslot, if_neg hmq]
    exact h.start r m hm
  · intro r
    have hmono : ∀ pc, Leaves s r pc → Leaves (s.modify q Slot.freeproc) r pc := fun _ hl =>
      hl.mono fun _ t ht => (hsub t r ht).2
    rw [hslot]
    split
    · trivial
    · exact hmono _ (h.leaves r)

end Family

theorem Family.goto (h : Family s) (hr : (s.slot p).state = .running) (hc : pc.child = none)
    (hl : Leaves s p pc) : Family (s.goto p pc) :=
  h.modify (.of_child rfl rfl .rfl (Family.up_running hr) hc) hl

theorem Family.finish (h : Family s) (hr : (s.slot p).state = .running) (z : ℤ) :
    Family (s.finish p z) :=
  h.modify (.of_child rfl rfl .rfl (Family.up_running hr) rfl) trivial

theorem Family.moves (h : Family s) (ho : Ok s) (hr : (s.slot p).state = .running)
    (hm : Moves s p ok (s.slot p).pc s') : Family s' := by
  have hlive := ho.live hr
  have hleave := h.leaves p
  obtain ⟨pc, hpc⟩ : ∃ pc, (s.slot p).pc = pc := ⟨_, rfl⟩
  rw [hpc] at hm hlive hleave
  cases hm with
  | jump hj => exact h.goto hr (hj.child_eq hlive) (hj.leaves hleave)
  | alloc q hq => exact h.alloc ho hr hq
  | noMemory q hq =>
    have hs : (s.allocproc q false).slot p = s.slot p :=
      slot_modify_of_ne (ne_of_state hr hq (by simp))
    have hf : Family (s.allocproc q false) := (h.freed ho (.inl hq)).congr rfl rfl
    exact hf.finish (by rw [hs, hr]) _
  | noSlot => exact h.finish hr _
  | adopt _ => exact h.adopted ho hr hpc
  | start => exact h.started ho hr hpc _
  | @exit status hi _ =>
    have hf : Family (s.goto p (.reparent status 0)) :=
      h.goto hr rfl ⟨hi, fun q hq => absurd hq (Nat.not_lt_zero _)⟩
    exact hf.congr rfl rfl
  | reparent q hq => exact h.reparented hpc hq
  | zombie => exact (h.exited hr hpc).congr rfl rfl
  | @wakeup c k q hq hs _ =>
    have hf : Family (s.modify q Slot.rouse) :=
      h.modify (.of_state (.inl hs) (.inr (.inl rfl))) (h.leaves q)
    have hp : (s.modify q Slot.rouse).slot p = s.slot p := slot_modify_of_ne hq
    refine hf.goto (by rw [hp, hr]) rfl ?_
    refine Leaves.mono (fun _ r hr' => ?_) hleave
    rw [Machine.slot_modify] at hr'
    split at hr'
    next hrq => rw [hrq]; exact hr'
    next => exact hr'
  | @kill pid q _ =>
    have hf : Family (s.modify q Slot.kill) := h.modify (.kill _) (h.leaves q)
    refine hf.finish ?_ _
    rw [Machine.slot_modify]
    split
    next hq => rw [← hq, Slot.kill]; simp [hr]
    next => exact hr
  | noPid => exact h.finish hr _
  | @enter l _ =>
    have hf : Family (s.goto p (.head l.locked)) := h.goto hr rfl trivial
    exact hf.congr rfl rfl
  | @sleep l =>
    have hf : Family (s.modify p fun x =>
        { x with chan := some (l.chan p), state := .sleeping, pc := .asleep l }) :=
      h.modify (.of_child rfl rfl ⟨fun _ => Family.up_running hr, fun _ => .inl rfl⟩
        (Family.up_running hr) rfl) trivial
    exact hf.congr rfl rfl
  | noCopy q _ _ _ _ => exact (h.finish hr _).congr rfl rfl
  | @reap addr hk q _ hz =>
    have hs : (s.modify q Slot.freeproc).slot p = s.slot p :=
      slot_modify_of_ne (ne_of_state hr hz (by simp))
    have hf : Family ((s.modify q Slot.freeproc).finish p (s.slot q).pid) :=
      (h.freed ho (.inr hz)).finish (by rw [hs, hr]) _
    exact hf.congr rfl rfl
  | @put i start b src _ =>
    have hf : Family (s.goto p (.head (.write (i + 1) start src))) := h.goto hr rfl trivial
    exact hf.congr rfl rfl
  | @get n i pc' _ _ hpc' =>
    have hf : Family (s.goto p pc') := by
      rcases hpc' with rfl | ⟨-, rfl⟩ <;> exact h.goto hr rfl trivial
    exact hf.congr rfl rfl
  | readEnd => exact (h.finish hr _).congr rfl rfl
  | @close w _ =>
    have hf : Family (s.goto p (.wakeup (if w then .nread else .nwrite) 0 (.ret .pipe 0))) :=
      h.goto hr rfl trivial
    exact hf.congr rfl rfl
  | @take n target c pc' hpc' =>
    have hf : Family (s.goto p pc') := by
      rcases hpc' with rfl | ⟨r, rfl⟩ <;> exact h.goto hr rfl trivial
    exact hf.congr rfl rfl
  | ret => exact (h.finish hr _).congr rfl rfl

theorem Family.does (h : Family s) (ho : Ok s) (hd : Does s a s') : Family s' := by
  cases hd with
  | sched p hr =>
    have hup : Up (s.slot p).state := .inr (.inl hr)
    have hl := h.leaves p
    refine h.modify ?_ ?_ <;> unfold Slot.sched <;> split
    · exact .of_child rfl rfl ⟨fun _ => hup, fun _ => .inr (.inr rfl)⟩ hup rfl
    · exact .of_state hup (.inr (.inr rfl))
    · trivial
    · exact hl
  | yield p hr _ => exact h.modify (.of_state (Family.up_running hr) (.inr (.inl rfl))) (h.leaves p)
  | trap p hr _ =>
    exact h.modify ⟨rfl, rfl, .rfl, .rfl, .rfl, fun _ => id, fun _ => id⟩ (h.leaves p)
  | call p c hr _ => exact h.goto hr (by cases c <;> rfl) (by cases c <;> trivial)
  | go p ok hr hm => exact h.moves ho hr hm
  | rouse p hr _ => exact h.modify (.of_state (.inl hr) (.inr (.inl rfl))) (h.leaves p)
  | consoleintr c _ => exact h.congr rfl rfl
  | clockintr _ => exact h.congr rfl rfl

theorem family_init (data : ℕ → UInt8) : Family (init data) := by
  have hparent : ∀ q, ((init data).slot q).parent = none := fun q => by
    by_cases hq : q = initproc <;> simp [init, hq]
  have hstate : ∀ q, q ≠ initproc → ((init data).slot q).state = .unused := fun q hq => by
    simp [init, hq]
  have hpc : ∀ q, ((init data).slot q).pc = .user ∨ ((init data).slot q).pc = .dead := fun q => by
    by_cases hq : q = initproc <;> simp [init, hq]
  constructor
  · intro q r hq
    simp [hparent] at hq
  · intro q hq hi
    simp [hstate q hi, Up] at hq
  · exact fun q _ => hparent q
  · simp [init, Up]
  · intro q hi hq
    exact absurd (hstate q hi) hq
  · intro q hq
    by_cases hi : q = initproc
    · simp [init, hi]
    · exact absurd (hstate q hi) hq
  · intro p np hp
    rcases hpc p with h | h <;> simp [h] at hp
  · intro p np hp
    rcases hpc p with h | h <;> simp [h] at hp
  · intro p
    rcases hpc p with h | h <;> rw [h] <;> trivial

/-- The invariants of places, locks and the tree in every state of a run. -/
theorem family_of_run {data : ℕ → UInt8} {l : List Act} (h : Run (Next step) (init data) l s) :
    Ok s ∧ Family s :=
  h.invariant (I := fun s => Ok s ∧ Family s)
    (fun _ _ _ _ hn hi =>
      ⟨hi.1.does (does_of_next hn), hi.2.does hi.1 (does_of_next hn)⟩)
    ⟨ok_init data, family_init data⟩

/-- Every process but init has a parent, the parents of a process lead to init without
a cycle, and no parent pointer leads to a slot that is free or a zombie. This holds
whether or not `wait_lock` is free. -/
theorem process_tree {data : ℕ → UInt8} {l : List Act} (h : Run (Next step) (init data) l s) :
    (∀ p, Up (s.slot p).state ∨ (s.slot p).state = .zombie → p ≠ initproc →
      (s.slot p).parent ≠ none ∧
      (∃ n, climb (fun q => (s.slot q).parent) n p = some initproc) ∧
      ∀ n q, climb (fun q => (s.slot q).parent) n p = some q →
        ∀ m, 0 < m → climb (fun q => (s.slot q).parent) m q ≠ some q) ∧
    ∀ q r, (s.slot q).parent = some r →
      (s.slot r).state ≠ .unused ∧ (s.slot r).state ≠ .zombie := by
  obtain ⟨-, hf⟩ := family_of_run h
  have hrank : ∀ x y, (s.slot x).parent = some y → (s.slot y).serial < (s.slot x).serial :=
    fun x y hxy => (hf.parent x y hxy).2
  refine ⟨fun p hp hi => ⟨hf.child p hp hi, ?_, fun n q _ m hm => ?_⟩, fun q r hq => ?_⟩
  · refine exists_climb_root (fun q => Up (s.slot q).state ∨ (s.slot q).state = .zombie)
      (fun q => (s.slot q).serial) hrank (fun x hx hxi => ?_) hp
    obtain ⟨y, hy⟩ := Option.ne_none_iff_exists'.mp (hf.child x hx hxi)
    exact ⟨y, hy, .inl (hf.parent x y hy).1⟩
  · exact climb_ne_self (fun q => (s.slot q).serial) hrank hm
  · have hup := (hf.parent q r hq).1
    constructor <;> intro he <;> simp [he, Up] at hup

/-- Init forks once. -/
def forkTrace : List Act :=
  [.sched 0, .call 0 .fork, .go 0 true, .go 0 true, .go 0 true, .go 0 true]

theorem process_tree_forkTrace : ∃ s, exec step (init fun _ => 0) forkTrace = some s ∧
    (s.slot 1).parent = some initproc ∧
    ∃ n, climb (fun q => (s.slot q).parent) n 1 = some initproc := by
  obtain ⟨s, hs⟩ : ∃ s, exec step (init fun _ => 0) forkTrace = some s :=
    Option.isSome_iff_exists.mp (by decide +kernel)
  have hstate : (exec step (init fun _ => 0) forkTrace).map
      (fun s => ((s.slot 1).state, (s.slot 1).parent)) = some (.runnable, some 0) := by
    decide +kernel
  rw [hs] at hstate
  obtain ⟨hr, hp⟩ := Prod.mk.inj (Option.some.inj hstate)
  exact ⟨s, hs, hp, ((process_tree (run_of_exec step hs)).1 1 (.inl (.inr (.inl hr))) (by decide)).2.1⟩

end Xv6.Proc

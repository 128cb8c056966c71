import Xv6.Sched.Switch

/-! # The states of a process

Every step keeps the invariant, changes the states of the processes along the edges of
`Changes`, and counts at most one event.
-/

namespace Xv6.Sched

open Sys (ProcState)

variable {N M : ℕ} {s s' t : State N M} {c : Fin M} {p q : Fin N} {k pc : Pc N} {ok : Bool}

/-! ## Places that a step leads to -/

/-- What a place says about locks and processes. -/
def Pc.attrs (me : Option (Fin N)) (pc : Pc N) :
    Option (Fin N) × Finset Lk × Bool × Option (Fin N) × Option (Fin N) :=
  (pc.holds me, pc.locks, pc.leaving, pc.makes, pc.target)

/-- The code goes from `pc` to `k` with the same locks. -/
structure Pc.Leads (me : Option (Fin N)) (pc k : Pc N) : Prop where
  wf : k.Wf me
  alive : k.Alive
  same : k.attrs me = pc.attrs me
  stays : pc.leaving = false
  setup : ∀ q k', pc ≠ .setup q k'

theorem Jump.of {s : Control N M} (hpc : s.pc c = pc) (h : pc.Leads (s.cpu c).runs k) :
    Jump s c k := by
  subst hpc
  obtain ⟨hholds, hlocks, hleaving, hmakes, htarget⟩ := by
    simpa only [Pc.attrs, Prod.mk.injEq] using h.same
  exact ⟨⟨h.wf, hleaving, hmakes, fun _ => htarget, h.alive,
    fun hd => absurd hd (Pc.not_dying (hleaving.trans h.stays)), h.setup⟩, hholds, hlocks⟩

variable {me : Option (Fin N)}

/-- A function returns to `k`, which holds no process lock. -/
theorem Pc.Leads.rest (hk : k.Wf me) (hholds : k.holds me = none) (hleaving : k.leaving = false)
    (hlocks : k.locks = pc.locks) (hmakes : k.makes = pc.makes) (hp : pc.holds me = none)
    (ht : pc.target = none) (hl : pc.leaving = false) (hs : ∀ q k', pc ≠ .setup q k') :
    pc.Leads me k where
  wf := hk
  alive := (hk.inner hholds).1
  same := by rw [attrs, attrs, hholds, hp, hlocks, hleaving, hl, hmakes, ht, (hk.inner hholds).2]
  stays := hl
  setup := hs

/-- Code without locks is not giving up the CPU. -/
theorem Pc.Wf.not_leaving (h : pc.Wf me) (hh : pc.holds me = none) (hl : pc.locks = ∅) :
    pc.leaving = false := by
  cases pc with
  | back p => cases hh
  | sched k => exact absurd hh h.1
  | release l k => simp [locks] at hl
  | _ => rfl

/-- A process lock is about to be released. -/
theorem Pc.Leads.unlock (hk : k.Wf me) (hholds : k.holds me = none) (hleaving : k.leaving = false)
    (hlocks : k.locks = pc.locks) (hmakes : k.makes = pc.makes) (hp : pc.holds me = some q)
    (ht : pc.target = none) (hl : pc.leaving = false) (hs : ∀ q k', pc ≠ .setup q k') :
    pc.Leads me (.unlock q k) where
  wf := ⟨hk, hholds, hleaving⟩
  alive := nofun
  same := by rw [attrs, attrs, hp, hl, ht, ← hlocks, ← hmakes]; rfl
  stays := hl
  setup := hs

theorem wf_trapEnd (h : me ≠ none) : trapEnd.Wf me :=
  ⟨h, ⟨h, rfl, rfl, rfl⟩, ⟨h, rfl, rfl, rfl⟩, rfl⟩

/-! ## What a step changes -/

/-- The edges of the state machine. -/
inductive Changes : ProcState → ProcState → Prop
  | refl (x) : Changes x x
  | alloc : Changes .unused .used
  | start : Changes .used .runnable
  | fail : Changes .used .unused
  | run : Changes .runnable .running
  | yield : Changes .running .runnable
  | sleep : Changes .running .sleeping
  | exit : Changes .running .zombie
  | wake : Changes .sleeping .runnable
  | reap : Changes .zombie .unused

/-- The edges out of a live state that is not `RUNNING`. -/
theorem Changes.live {x y : ProcState} (h : Changes x y) (hx : x ≠ .running) (hl : Live x) :
    Live y := by
  cases h <;> simp_all [Live]

/-- Nothing is counted and no process created. -/
structure Same (s s' : State N M) : Prop where
  history : s'.history = s.history
  born : s'.born = s.born
  count : ∀ p, (s'.data p).count = (s.data p).count
  serial : ∀ p, (s'.data p).serial = (s.data p).serial

/-- Nor is a sleeping process moved to another channel. -/
structure Calm (s s' : State N M) : Prop extends Same s s' where
  chan : ∀ p, (s.slot p).state = .sleeping → (s'.data p).chan = (s.data p).chan

theorem Calm.refl (s : State N M) : Calm s s :=
  ⟨⟨rfl, rfl, fun _ => rfl, fun _ => rfl⟩, fun _ _ => rfl⟩

theorem Calm.intena {b : Bool} : Calm s (s.setIntena c b) :=
  ⟨⟨rfl, rfl, fun _ => rfl, fun _ => rfl⟩, fun _ _ => rfl⟩

theorem State.data_modify {f : Data N → Data N} :
    (s.modify p f).data q = if q = p then f (s.data p) else s.data q := Function.update_apply ..

theorem Calm.modify {f : Data N → Data N} (hc : ∀ x, (f x).count = x.count)
    (hs : ∀ x, (f x).serial = x.serial)
    (hch : (s.slot p).state ≠ .sleeping ∨ ∀ x, (f x).chan = x.chan) : Calm s (s.modify p f) := by
  refine ⟨⟨rfl, rfl, fun q => ?_, fun q => ?_⟩, fun q hq => ?_⟩ <;> rw [State.data_modify] <;> split
  next he => rw [hc, he]
  next => rfl
  next he => rw [hs, he]
  next => rfl
  next he =>
    subst he
    rcases hch with hne | hch
    · exact absurd hq hne
    · rw [hch]
  next => rfl

/-- How an event changes the number of CPUs that run its process. -/
def What.delta : What → ℤ
  | run => 1
  | preempt _ | sleep | exit => -1
  | systemcall | interrupt | trap => 0

/-- Whether the process is running, as a number. -/
@[grind =] def busy (s : Control N M) (p : Fin N) : ℤ := if (s.slot p).state = .running then 1 else 0

/-- No slot comes into use, except perhaps `o`. -/
def Unused (s s' : Control N M) (o : Option (Fin N)) : Prop :=
  ∀ p, o ≠ some p → (s.slot p).state = .unused → (s'.slot p).state = .unused

inductive Effect (s s' : State N M) : Prop
  | same : Same s s' → Unused s.toControl s'.toControl none →
      (∀ p, busy s'.toControl p = busy s.toControl p) → Effect s s'
  | note (p : Fin N) (w : What) : Same (s.note p w) s' → Unused s.toControl s'.toControl none →
      (s.slot p).state ≠ .unused →
      (∀ q, busy s'.toControl q = busy s.toControl q + if q = p then w.delta else 0) → Effect s s'
  | enroll (q : Fin N) : Same (s.enroll q) s' → Unused s.toControl s'.toControl (some q) →
      (s.slot q).state = .unused → (∀ p, busy s'.toControl p = busy s.toControl p) → Effect s s'

structure Spec (s s' : State N M) : Prop where
  inv : Inv s'.toControl
  effect : Effect s s'
  changes : ∀ p, Changes (s.slot p).state (s'.slot p).state

/-- What a step on CPU `c` leaves to the other threads. -/
structure Passes (s s' : State N M) (c : Fin M) : Prop where
  pc : ∀ p, (s.cpu c).runs ≠ some p → Live (s.slot p).state → (s'.slot p).pc = (s.slot p).pc
  live : ∀ p, Live (s.slot p).state → (s.slot p).pc ≠ .zombie → Live (s'.slot p).state
  asleep : ∀ p, (s'.slot p).state = .sleeping →
    (s.slot p).state = .sleeping ∧ (s'.data p).chan = (s.data p).chan ∨
      ∃ l k, (s.slot p).pc = .sleeping (s'.data p).chan l k

structure Stepped (s s' : State N M) (c : Fin M) : Prop extends Spec s s', Passes s s' c

namespace Stepped

variable {x y : Control N M} {z : ProcState} {w : What}

theorem chan_note : ((s.note p w).data q).chan = (s.data q).chan := by
  simp only [State.note, State.data_modify]
  split
  next h => rw [h]
  next => rfl

theorem pc_other (hpc : ∀ p, (y.slot p).pc = (s.slot p).pc) (hr : (y.cpu c).runs = (s.cpu c).runs)
    (hp : (s.cpu c).runs ≠ some p) : ((y.goto c k).slot p).pc = (s.slot p).pc := by
  rw [Control.pc_goto, hr, if_neg hp, hpc]

/-- No state changes. -/
theorem passes (hx : ∀ p, (x.slot p).state = (s.slot p).state)
    (hpc : ∀ p, (s.cpu c).runs ≠ some p → Live (s.slot p).state → (x.slot p).pc = (s.slot p).pc)
    (hch : ∀ p, (s.slot p).state = .sleeping → (t.data p).chan = (s.data p).chan) :
    Passes s (t.on x) c where
  pc := hpc
  live p hp _ := (hx p).symm ▸ hp
  asleep p hp := by
    have hp : (s.slot p).state = .sleeping := (hx p).symm.trans hp
    exact .inl ⟨hp, hch p hp⟩

theorem quiet (hi : Inv x) (hx : ∀ p, (x.slot p).state = (s.slot p).state)
    (hpc : ∀ p, (s.cpu c).runs ≠ some p → Live (s.slot p).state → (x.slot p).pc = (s.slot p).pc)
    (ht : Calm s t) : Stepped s (t.on x) c where
  inv := hi
  effect := .same ⟨ht.history, ht.born, ht.count, ht.serial⟩ (fun p _ hp => (hx p).trans hp)
    fun p => by simp only [busy, State.on, hx]
  changes p := by
    simp only [State.on, hx]
    exact .refl _
  toPasses := passes hx hpc ht.chan

theorem note (hi : Inv (s.goto c k)) (hp : (s.slot p).state ≠ .unused) (hw : w.delta = 0)
    (ht : Calm (s.note p w) t) : Stepped s (t.on (s.goto c k)) c where
  inv := hi
  effect := .note p w ⟨ht.history, ht.born, ht.count, ht.serial⟩
    (fun p _ hp => Control.state_goto.trans hp) hp
    fun q => by simp only [busy, State.on, Control.state_goto, hw, ite_self, add_zero]
  changes p := by
    simp only [State.on, Control.state_goto]
    exact .refl _
  toPasses := passes (fun _ => Control.state_goto) (fun _ hp _ => pc_other (fun _ => rfl) rfl hp)
    fun q hq => (ht.chan q hq).trans chan_note

theorem changes_of (hx : ∀ p, (y.slot p).state = if p = q then z else (s.slot p).state)
    (hc : Changes (s.slot q).state z) (p : Fin N) :
    Changes (s.slot p).state ((y.goto c k).slot p).state := by
  rw [Control.state_goto, hx]
  split
  next he => exact he ▸ hc
  next => exact .refl _

theorem unused_of (hx : ∀ p, (y.slot p).state = if p = q then z else (s.slot p).state) (hne : p ≠ q)
    (hp : (s.slot p).state = .unused) : ((y.goto c k).slot p).state = .unused := by
  rw [Control.state_goto, hx, if_neg hne, hp]

/-- One process changes its state. -/
theorem passes_change (hpc : ∀ p, (y.slot p).pc = (s.slot p).pc)
    (hr : (y.cpu c).runs = (s.cpu c).runs)
    (hx : ∀ p, (y.slot p).state = if p = q then z else (s.slot p).state)
    (hl : Live (s.slot q).state → (s.slot q).pc ≠ .zombie → Live z)
    (hz : z = .sleeping → ∃ l k, (s.slot q).pc = .sleeping (t.data q).chan l k)
    (hch : ∀ p, p ≠ q → (s.slot p).state = .sleeping → (t.data p).chan = (s.data p).chan) :
    Passes s (t.on (y.goto c k)) c := by
  refine ⟨fun p hp _ => pc_other hpc hr hp, fun p hp hne => ?_, fun p hp => ?_⟩
  · rw [State.on, Control.state_goto, hx]
    split
    next he => exact hl (he ▸ hp) (he ▸ hne)
    next => exact hp
  · rw [State.on, Control.state_goto, hx] at hp
    rcases eq_or_ne p q with rfl | hne
    · exact .inr (hz (by rwa [if_pos rfl] at hp))
    · rw [if_neg hne] at hp
      exact .inl ⟨hp, hch p hne hp⟩

/-- A process that is not running changes its state. -/
theorem change (hi : Inv ((s.setState q z).goto c k)) (hc : Changes (s.slot q).state z)
    (hq : (s.slot q).state ≠ .running) (hz : z ≠ .running ∧ z ≠ .sleeping)
    (ht : (s.slot q).state ≠ .unused ∧ Calm s t ∨ (s.slot q).state = .unused ∧ Calm (s.enroll q) t) :
    Stepped s (t.on ((s.setState q z).goto c k)) c where
  inv := hi
  effect := by
    have hb : ∀ p, busy ((s.setState q z).goto c k) p = busy s.toControl p := fun p => by
      rw [busy, Control.state_goto, Control.state_setState]
      rcases eq_or_ne p q with rfl | hne
      · rw [if_pos rfl, if_neg hz.1, busy, if_neg hq]
      · rw [if_neg hne, busy]
    rcases ht with ⟨hu, ht⟩ | ⟨hu, ht⟩
    · refine .same ⟨ht.history, ht.born, ht.count, ht.serial⟩ (fun p _ hp => ?_) hb
      exact unused_of (fun _ => Control.state_setState) (fun he => hu (he ▸ hp)) hp
    · refine .enroll q ⟨ht.history, ht.born, ht.count, ht.serial⟩ (fun p hne hp => ?_) hu hb
      exact unused_of (fun _ => Control.state_setState) (fun he => hne (he ▸ rfl)) hp
  changes := changes_of (fun _ => Control.state_setState) hc
  toPasses := by
    refine passes_change (fun _ => Control.pc_setState) rfl (fun _ => Control.state_setState)
      (fun hl _ => ?_) (fun he => absurd he hz.2) fun p hne hp => ?_
    · exact hc.live hq hl
    · rcases ht with ⟨-, ht⟩ | ⟨-, ht⟩
      · exact ht.chan p hp
      · rw [ht.chan p hp]
        change ((s.modify q fun x => { x with pid := s.nextpid, serial := s.born }).data p).chan = _
        rw [State.data_modify, if_neg hne]

/-- A process comes to a CPU or gives it up. -/
theorem turn (hi : Inv (y.goto c k)) (hpc : ∀ q, (y.slot q).pc = (s.slot q).pc)
    (hr : (y.cpu c).runs = (s.cpu c).runs)
    (hx : ∀ q, (y.slot q).state = if q = p then z else (s.slot q).state)
    (hc : Changes (s.slot p).state z) (hp : (s.slot p).state ≠ .unused)
    (hw : (if z = .running then 1 else 0 : ℤ) = busy s.toControl p + w.delta)
    (hz : Live z ∨ (s.slot p).pc = .zombie)
    (hsl : z = .sleeping → ∃ l k, (s.slot p).pc = .sleeping (t.data p).chan l k)
    (ht : Calm (s.note p w) t) : Stepped s (t.on (y.goto c k)) c where
  inv := hi
  effect := by
    refine .note p w ⟨ht.history, ht.born, ht.count, ht.serial⟩ (fun q _ hq => ?_) hp fun q => ?_
    · exact unused_of hx (fun he => hp (he ▸ hq)) hq
    · change busy (y.goto c k) q = _
      rw [busy, Control.state_goto, hx]
      split
      next he => rw [he, hw]
      next => rw [add_zero, busy]
  changes := changes_of hx hc
  toPasses := passes_change hpc hr hx (fun _ hne => hz.resolve_right hne) hsl
    fun q _ hq => (ht.chan q hq).trans chan_note

end Stepped

/-! ## Every step -/

variable {f : Fin N → Option (Except Panic (State N M))}

theorem withProc_eq {r : Except Panic (State N M)} (h : s.withProc c f = some r) :
    (∃ p, (s.cpu c).proc = some p ∧ f p = some r) ∨ r = .error .noProc := by
  unfold State.withProc at h
  split at h
  · exact .inr (Option.some.inj h).symm
  next p hp => exact .inl ⟨p, hp, h⟩

/-- Code that only processes execute. -/
theorem mine (h : Inv s.toControl) (hpc : s.pc c = pc) (hn : ¬ pc.Wf none)
    (hs : s.withProc c f = some (.ok s')) :
    ∃ p, (s.cpu c).runs = some p ∧ pc.Wf (some p) ∧ f p = some (.ok s') := by
  obtain ⟨p, hr⟩ := h.runs_of_wf hpc hn
  refine ⟨p, hr, hr ▸ hpc ▸ h.wf c, ?_⟩
  obtain ⟨q, hq, hf⟩ | he := withProc_eq hs
  · rwa [Option.some.inj ((h.cpus.runs c p hr).1.symm.trans hq)]
  · cases he

theorem spec_jump (h : Inv s.toControl) (hpc : s.pc c = pc) (hs : t.jump c k = some (.ok s'))
    (ht : Calm s t) (htc : t.toControl = s.toControl) (hl : pc.Leads (s.cpu c).runs k) :
    Stepped s s' c := by
  cases hs
  rw [htc]
  exact .quiet (h.jump (.of hpc hl)) (fun _ => Control.state_goto)
    (fun _ hp _ => Stepped.pc_other (fun _ => rfl) rfl hp) ht

theorem spec_note {w : What} (h : Inv s.toControl) (hpc : s.pc c = pc)
    (hs : t.jump c k = some (.ok s')) (hr : (s.cpu c).runs = some p) (hw : w.delta = 0)
    (ht : Calm (s.note p w) t) (htc : t.toControl = s.toControl)
    (hl : pc.Leads (some p) k) : Stepped s s' c := by
  rw [← hr] at hl
  cases hs
  rw [htc]
  have hp : (s.slot p).pc.leaving = false := by
    rw [← Control.pc_of_runs hr, hpc]
    exact hl.stays
  refine .note (h.jump (.of hpc hl)) ?_ hw ht
  rw [h.state_of_runs hr hp]
  exact nofun

/-- A jump of a process. -/
theorem spec_mine (h : Inv s.toControl) (hpc : s.pc c = pc) (hr : (s.cpu c).runs = some p)
    (hs : t.jump c k = some (.ok s')) (ht : Calm s t) (htc : t.toControl = s.toControl)
    (hl : pc.Leads (some p) k) : Stepped s s' c :=
  spec_jump h hpc hs ht htc (hr ▸ hl)

theorem busy_of_runs (h : Inv s.toControl) (hpc : s.pc c = pc) (hr : (s.cpu c).runs = some p)
    (hl : pc.leaving = false) : (s.slot p).state = .running :=
  h.state_of_runs hr (by rwa [← Control.pc_of_runs hr, hpc])

theorem move_spec (h : Inv s.toControl) (hpc : s.pc c = pc) (hs : move s c ok pc = some (.ok s')) :
    Stepped s s' c := by
  have hw : pc.Wf (s.cpu c).runs := hpc ▸ h.wf c
  cases pc with
  | scan i =>
    rw [move] at hs
    split at hs
    · exact spec_jump h hpc hs (.refl s) rfl ⟨⟨hw, rfl, rfl, nofun, rfl⟩, nofun, rfl, rfl, nofun⟩
    · exact spec_jump h hpc hs .intena rfl ⟨hw, nofun, rfl, rfl, nofun⟩
  | choose p =>
    rw [move] at hs
    split at hs
    next hp =>
      cases hs
      exact .turn (h.choose hpc hp) (fun _ => Control.pc_setState) Control.runs_setProc
        (fun _ => Control.state_setState) (by rw [hp]; exact .run) (by simp [hp])
        (by simp [busy, hp, What.delta]) (.inl (.inr (.inr rfl))) nofun (.refl _)
    next =>
      exact spec_jump h hpc hs (.refl s) rfl ⟨⟨hw, rfl, rfl⟩, nofun, rfl, rfl, nofun⟩
  | switch p =>
    cases hs
    exact .quiet (h.switch hpc) (fun _ => Control.state_goto)
      (fun q hq _ => by rw [Control.slot_setRuns, Control.pc_goto, if_neg hq]) (.refl s)
  | back p =>
    cases hs
    exact .quiet (h.back hpc) (fun _ => Control.state_goto)
      (fun _ hp _ => Stepped.pc_other (fun _ => rfl) Control.runs_setProc hp) (.refl s)
  | lock q k =>
    rw [move] at hs
    split at hs
    · cases hs
    split at hs
    next hq =>
      cases hs
      exact .quiet (h.lock hpc hq) (fun _ => Control.state_goto.trans Control.state_setLock)
        (fun _ hp _ => Stepped.pc_other (fun _ => Control.pc_setLock) rfl hp) (.refl s)
    · cases hs
  | unlock q k =>
    rw [move] at hs
    split at hs
    · cases hs
      exact .quiet (h.unlock hpc) (fun _ => Control.state_goto.trans Control.state_setLock)
        (fun _ hp _ => Stepped.pc_other (fun _ => Control.pc_setLock) rfl hp) (.refl s)
    · cases hs
  | acquire l k =>
    rw [move] at hs
    split at hs
    · cases hs
    split at hs
    next hl =>
      cases hs
      exact .quiet (h.acquire hpc hl) (fun _ => Control.state_goto)
        (fun _ hp _ => Stepped.pc_other (fun _ => rfl) rfl hp) (.refl s)
    · cases hs
  | release l k =>
    rw [move] at hs
    split at hs
    · cases hs
      exact .quiet (h.release hpc) (fun _ => Control.state_goto)
        (fun _ hp _ => Stepped.pc_other (fun _ => rfl) rfl hp) (.refl s)
    · cases hs
  | user => cases hs
  | kernel held k => cases hs
  | handler held k => cases hs
  | forkret =>
    obtain ⟨p, hr, hw, hs⟩ := mine h hpc (fun hw => hw rfl) hs
    exact spec_mine h hpc hr hs (.refl s) rfl ⟨⟨hw, rfl, rfl⟩, nofun, rfl, rfl, nofun⟩
  | first =>
    rw [move] at hs
    split at hs
    · exact spec_jump h hpc hs ⟨⟨rfl, rfl, fun _ => rfl, fun _ => rfl⟩, fun _ _ => rfl⟩ rfl
        ⟨⟨hw, hw, rfl, rfl, rfl, rfl⟩, nofun, rfl, rfl, nofun⟩
    · exact spec_jump h hpc hs (.refl s) rfl ⟨hw, nofun, rfl, rfl, nofun⟩
  | usertrap cause =>
    cases cause with
    | syscall =>
      obtain ⟨p, hr, hw, hs⟩ := mine h hpc (fun hw => hw rfl) hs
      exact spec_note h hpc hs hr rfl (.refl _) rfl ⟨⟨hw, ⟨hw, rfl, rfl, rfl⟩, ⟨hw, rfl, rfl, rfl⟩,
        rfl⟩, nofun, rfl, rfl, nofun⟩
    | timer =>
      exact spec_jump h hpc hs (.refl s) rfl ⟨⟨⟨hw, ⟨hw, rfl, rfl, rfl⟩, ⟨hw, rfl, rfl, rfl⟩, rfl⟩,
        rfl, rfl, rfl⟩, nofun, rfl, rfl, nofun⟩
    | device =>
      exact spec_jump h hpc hs (.refl s) rfl ⟨⟨wf_trapEnd hw, rfl, rfl, rfl⟩, nofun, rfl, rfl, nofun⟩
    | fault =>
      exact spec_jump h hpc hs (.refl s) rfl
        ⟨⟨hw, wf_trapEnd hw, rfl, rfl, rfl, rfl⟩, nofun, rfl, rfl, nofun⟩
  | syscall =>
    exact spec_jump h hpc hs .intena rfl
      ⟨⟨hw, wf_trapEnd hw, rfl, rfl, rfl, rfl⟩, nofun, rfl, rfl, nofun⟩
  | timer =>
    obtain ⟨p, hr, hw, hs⟩ := mine h hpc (fun hw => hw rfl) hs
    exact spec_note h hpc hs hr rfl (.refl _) rfl ⟨⟨hw, hw, rfl, rfl, rfl⟩, nofun, rfl, rfl, nofun⟩
  | usertrapret => exact spec_jump h hpc hs .intena rfl ⟨hw, nofun, rfl, rfl, nofun⟩
  | kerneltrap timer k =>
    rw [move] at hs
    split at hs
    next hc =>
      obtain ⟨-, p, hp, -⟩ := hc
      have hne : (s.cpu c).runs ≠ none := fun hr => by
        rw [h.proc_eq_target hr, hpc] at hp
        cases hp
      exact spec_jump h hpc hs (.refl s) rfl
        ⟨⟨hne, hw, rfl, rfl, rfl⟩, nofun, rfl, rfl, nofun⟩
    next => exact spec_jump h hpc hs (.refl s) rfl ⟨hw, nofun, rfl, rfl, nofun⟩
  | sret k =>
    exact spec_jump h hpc hs .intena rfl
      (.rest hw.1 hw.2.1 hw.2.2.1 hw.2.2.2 rfl rfl rfl rfl nofun)
  | yield k =>
    obtain ⟨p, hr, hw, hs⟩ := mine h hpc (fun hw => hw.1 rfl) hs
    exact spec_mine h hpc hr hs (.refl s) rfl ⟨⟨hw, rfl, rfl, nofun, rfl⟩, nofun, rfl, rfl, nofun⟩
  | yielding k =>
    obtain ⟨p, hr, ⟨hne, hwk, hh, hl, -⟩, hs⟩ := mine h hpc (fun hw => hw.1 rfl) hs
    cases hs
    have hp := busy_of_runs h hpc hr rfl
    refine .turn (h.leave hr (by rw [hpc]; rfl) (by rw [hpc]; exact nofun)
      ⟨hne, .inr ⟨⟨hwk, hh, hl⟩, rfl, rfl, nofun, rfl⟩⟩ rfl (by rw [hpc]; rfl) (by rw [hpc]; rfl)
      (by rw [hpc]; rfl) nofun nofun nofun) (fun _ => Control.pc_setState) rfl
      (fun _ => Control.state_setState) (by rw [hp]; exact .yield) (by simp [hp])
      (by simp [busy, hp, What.delta]) (.inl (.inl rfl)) nofun (.refl _)
  | sched k =>
    obtain ⟨p, hr, -, hs⟩ := mine h hpc (fun hw => hw.1 rfl) hs
    split at hs
    · cases hs
    split at hs
    · cases hs
    next hn =>
      split at hs
      · cases hs
      cases hs
      have hk : k.locks = ∅ := by
        simpa [Pc.noff, Pc.locks, Pc.holds] using hn
      exact .quiet (h.sched hr hpc hk) (fun _ => Control.state_goto)
        (fun q hq _ => by rw [Control.slot_setRuns, Control.pc_goto, if_neg hq]) (.refl s)
  | resume b k =>
    obtain ⟨p, hr⟩ := h.runs_of_wf hpc fun hw => hw.1 rfl
    rw [hr] at hw
    have hp := busy_of_runs h hpc hr rfl
    have halive := h.threads.alive p (.inr (.inr hp))
    rw [← Control.pc_of_runs hr, hpc] at halive
    obtain ⟨-, rfl | ⟨hwk, hh, hl, hi⟩⟩ := hw
    · exact absurd rfl (halive b)
    · refine spec_mine h hpc hr hs .intena rfl ⟨hwk, hi.1, ?_, rfl, nofun⟩
      rw [Pc.attrs, Pc.attrs, hh, hl, hi.2]
      rfl
  | sleep chan l k =>
    obtain ⟨p, hr, hw, hs⟩ := mine h hpc (fun hw => hw.1 rfl) hs
    have hl : (Pc.lock p (.release l (.sleeping chan l k))).locks = (Pc.sleep chan l k).locks :=
      Finset.insert_erase hw.2.2.2.2.1
    refine spec_mine h hpc hr hs (.refl s) rfl
      ⟨⟨⟨hw, Finset.notMem_erase _ _, nofun, rfl⟩, rfl, rfl, nofun, rfl⟩, nofun, ?_, rfl, nofun⟩
    rw [Pc.attrs, Pc.attrs, hl]
    rfl
  | sleeping chan l k =>
    obtain ⟨p, hr, hw, hs⟩ := mine h hpc (fun hw => hw.1 rfl) hs
    cases hs
    have hp := busy_of_runs h hpc hr rfl
    refine .turn (h.leave hr (by rw [hpc]; rfl) (by rw [hpc]; exact nofun)
      ⟨hw.1, .inr ⟨hw, rfl, rfl, nofun, rfl⟩⟩ rfl (by rw [hpc]; rfl) (by rw [hpc]; rfl)
      (by rw [hpc]; rfl) nofun nofun nofun) (fun _ => Control.pc_setState) rfl
      (fun _ => Control.state_setState) (by rw [hp]; exact .sleep) (by simp [hp])
      (by simp [busy, hp, What.delta]) (.inl (.inr (.inl rfl))) (fun _ => ⟨l, k, ?_⟩)
      (.modify (s := s.note p .sleep) (fun _ => rfl) (fun _ => rfl) (.inl (hp ▸ nofun)))
    rw [← Control.pc_of_runs hr, hpc, State.data_modify, if_pos rfl]
  | slept l k =>
    obtain ⟨p, hr, ⟨-, hwk, hh, hl, hm, hmk⟩, hs⟩ := mine h hpc (fun hw => hw.1 rfl) hs
    have hp := busy_of_runs h hpc hr rfl
    exact spec_mine h hpc hr hs (.modify (fun _ => rfl) (fun _ => rfl) (.inl (by simp [hp]))) rfl
      (.unlock ⟨hwk, hh, hl, hm⟩ rfl rfl rfl hmk rfl rfl rfl nofun)
  | wakeup chan i k =>
    rw [move] at hs
    split at hs
    · split at hs
      · exact spec_jump h hpc hs (.refl s) rfl ⟨hw, nofun, rfl, rfl, nofun⟩
      · exact spec_jump h hpc hs (.refl s) rfl ⟨⟨hw, rfl, rfl, nofun, rfl⟩, nofun, rfl, rfl, nofun⟩
    · exact spec_jump h hpc hs (.refl s) rfl (.rest hw.1 hw.2.1 hw.2.2 rfl rfl rfl rfl rfl nofun)
  | wake chan q k =>
    have hj : (Pc.wake chan q k).Leads (s.cpu c).runs (.unlock q (.wakeup chan (q + 1) k)) :=
      ⟨⟨hw, rfl, rfl⟩, nofun, rfl, rfl, nofun⟩
    rw [move] at hs
    split at hs
    next hc =>
      cases hs
      obtain ⟨hq, -⟩ := hc
      exact .change (h.jump_state (.of hpc hj) nofun (by simp [hq]) (by simp [Live, hq])
        (fun hd => by simp [h.threads.dying q hd] at hq) (by simp [hq]))
        (by rw [hq]; exact .wake) (by simp [hq]) ⟨nofun, nofun⟩ (.inl ⟨by simp [hq], .refl s⟩)
    next => exact spec_jump h hpc hs (.refl s) rfl hj
  | kill pid i k =>
    obtain ⟨hne, hwk, hh, hl, hlk, hmk⟩ := hw
    rw [move] at hs
    split at hs
    · exact spec_jump h hpc hs (.refl s) rfl ⟨⟨⟨hne, hwk, hh, hl, hlk, hmk⟩, rfl, rfl, nofun, rfl⟩,
        nofun, rfl, rfl, nofun⟩
    · exact spec_jump h hpc hs (.refl s) rfl (.rest hwk hh hl hlk hmk rfl rfl rfl nofun)
  | killing pid q k =>
    obtain ⟨hne, hwk, hh, hl, hlk, hmk⟩ := hw
    have hj : (Pc.killing pid q k).Leads (s.cpu c).runs (.unlock q k) :=
      .unlock hwk hh hl hlk hmk rfl rfl rfl nofun
    rw [move] at hs
    split at hs
    · split at hs
      next hq =>
        cases hs
        exact .change (h.jump_state (.of hpc hj) nofun (by simp [hq]) (by simp [Live, hq])
          (fun hd => by simp [h.threads.dying q hd] at hq) (by simp [hq]))
          (by rw [hq]; exact .wake) (by simp [hq]) ⟨nofun, nofun⟩
          (.inl ⟨by simp [hq], .modify (fun _ => rfl) (fun _ => rfl) (.inr fun _ => rfl)⟩)
      next =>
        exact spec_jump h hpc hs (.modify (fun _ => rfl) (fun _ => rfl) (.inr fun _ => rfl)) rfl hj
    · exact spec_jump h hpc hs (.refl s) rfl ⟨⟨⟨hne, hwk, hh, hl, hlk, hmk⟩, rfl, rfl⟩, nofun, rfl,
        rfl, nofun⟩
  | killed yes no =>
    obtain ⟨p, hr, hw, hs⟩ := mine h hpc (fun hw => hw.1 rfl) hs
    exact spec_mine h hpc hr hs (.refl s) rfl ⟨⟨hw, rfl, rfl, nofun, rfl⟩, nofun, rfl, rfl, nofun⟩
  | readKilled yes no =>
    obtain ⟨p, hr, ⟨-, ⟨hy, hyh, hyl, hym⟩, ⟨hn, hnh, hnl, hnm⟩, heq⟩, hs⟩ :=
      mine h hpc (fun hw => hw.1 rfl) hs
    refine spec_mine h hpc hr hs (.refl s) rfl ?_
    split
    · exact .unlock hy hyh hyl heq hym rfl rfl rfl nofun
    · exact .unlock hn hnh hnl rfl hnm rfl rfl rfl nofun
  | setkilled k =>
    obtain ⟨p, hr, hw, hs⟩ := mine h hpc (fun hw => hw.1 rfl) hs
    exact spec_mine h hpc hr hs (.refl s) rfl ⟨⟨hw, rfl, rfl, nofun, rfl⟩, nofun, rfl, rfl, nofun⟩
  | writeKilled k =>
    obtain ⟨p, hr, ⟨-, hwk, hh, hl, hlk, hmk⟩, hs⟩ := mine h hpc (fun hw => hw.1 rfl) hs
    exact spec_mine h hpc hr hs (.modify (fun _ => rfl) (fun _ => rfl) (.inr fun _ => rfl)) rfl
      (.unlock hwk hh hl hlk hmk rfl rfl rfl nofun)
  | alloc i k =>
    obtain ⟨hne, hwk, hh, hl, hlk, hmk⟩ := hw
    rw [move] at hs
    split at hs
    · exact spec_jump h hpc hs (.refl s) rfl ⟨⟨⟨hne, hwk, hh, hl, hlk, hmk⟩, rfl, rfl, nofun, rfl⟩,
        nofun, rfl, rfl, nofun⟩
    · exact spec_jump h hpc hs (.refl s) rfl (.rest hwk hh hl hlk hmk rfl rfl rfl nofun)
  | allocating q k =>
    rw [move] at hs
    split at hs
    next hq =>
      cases hs
      exact .change (h.alloc hpc hq) (by rw [hq]; exact .alloc) (by simp [hq]) ⟨nofun, nofun⟩
        (.inr ⟨hq, .refl _⟩)
    next => exact spec_jump h hpc hs (.refl s) rfl ⟨⟨hw, rfl, rfl⟩, nofun, rfl, rfl, nofun⟩
  | setup q k =>
    have hq := h.state_setup hpc
    rw [move] at hs
    split at hs
    · cases hs
      refine .quiet (h.forked hpc) (fun _ => Control.state_goto.trans Control.state_setPc)
        (fun p hp hl => ?_) (.refl s)
      have hne : p ≠ q := fun he => by simp [Live, he, hq] at hl
      rw [Control.pc_goto, Control.cpu_setPc, if_neg hp, Control.pc_setPc, if_neg hne]
    · cases hs
      exact .change (h.noMemory hpc) (by rw [hq]; exact .fail) (by simp [hq]) ⟨nofun, nofun⟩
        (.inl ⟨by simp [hq], .modify (fun _ => rfl) (fun _ => rfl) (.inl (by simp [hq]))⟩)
  | adopt np k =>
    obtain ⟨p, hr, hw, hs⟩ := mine h hpc (fun hw => hw.1 rfl) hs
    exact spec_mine h hpc hr hs (.modify (fun _ => rfl) (fun _ => rfl) (.inr fun _ => rfl)) rfl
      ⟨⟨⟨hw, rfl, rfl, nofun, rfl⟩, Finset.notMem_empty _, nofun, rfl⟩, nofun, rfl, rfl, nofun⟩
  | ready np k =>
    have hq := h.state_ready hpc
    cases hs
    exact .change (h.ready hpc) (by rw [hq]; exact .start) (by simp [hq]) ⟨nofun, nofun⟩
      (.inl ⟨by simp [hq], .refl s⟩)
  | exit =>
    obtain ⟨p, hr, hw, hs⟩ := mine h hpc (fun hw => hw rfl) hs
    split at hs
    · cases hs
    · exact spec_mine h hpc hr hs (.refl s) rfl
        ⟨⟨hw, ⟨hw, rfl, rfl, Finset.mem_singleton_self _⟩, rfl, rfl, rfl, rfl⟩, nofun, rfl, rfl, nofun⟩
  | reparent i =>
    obtain ⟨p, hr, hw, hs⟩ := mine h hpc (fun hw => hw rfl) hs
    split at hs
    · split at hs
      · exact spec_mine h hpc hr hs (.modify (fun _ => rfl) (fun _ => rfl) (.inr fun _ => rfl)) rfl
          ⟨⟨hw, rfl, rfl⟩, nofun, rfl, rfl, nofun⟩
      · exact spec_mine h hpc hr hs (.refl s) rfl ⟨hw, nofun, rfl, rfl, nofun⟩
    · exact spec_mine h hpc hr hs (.refl s) rfl
        ⟨⟨⟨hw, rfl, rfl, nofun, rfl⟩, rfl, rfl⟩, nofun, rfl, rfl, nofun⟩
  | zombie =>
    obtain ⟨p, hr, hw, hs⟩ := mine h hpc (fun hw => hw rfl) hs
    cases hs
    have hp := busy_of_runs h hpc hr rfl
    refine .turn (h.leave hr (by rw [hpc]; rfl) (by rw [hpc]; exact nofun)
      ⟨⟨hw, .inl rfl⟩, Finset.notMem_empty _, nofun, rfl⟩ rfl (by rw [hpc]; rfl) (by rw [hpc]; rfl)
      (by rw [hpc]; rfl) nofun nofun fun _ => rfl) (fun _ => Control.pc_setState) rfl
      (fun _ => Control.state_setState) (by rw [hp]; exact .exit) (by simp [hp])
      (by simp [busy, hp, What.delta]) (.inr (Control.pc_of_runs hr ▸ hpc)) nofun (.refl _)
  | zombieExit => cases hs
  | search addr i havekids k =>
    obtain ⟨p, hr, ⟨hne, hwk, hh, hl, hlk, hmk⟩, hs⟩ := mine h hpc (fun hw => hw.1 rfl) hs
    have hw : (Pc.release .wait k).Wf (some p) :=
      ⟨hwk, by rw [hlk]; exact Finset.notMem_empty _, hwk.inner hh⟩
    have hlks : (Pc.release .wait k).locks = {.wait} := by
      rw [Pc.locks, hlk]
      rfl
    split at hs
    · split at hs
      · exact spec_mine h hpc hr hs (.refl s) rfl ⟨⟨⟨hne, hwk, hh, hl, hlk, hmk⟩, rfl, rfl, nofun,
          rfl⟩, nofun, rfl, rfl, nofun⟩
      · exact spec_mine h hpc hr hs (.refl s) rfl ⟨⟨hne, hwk, hh, hl, hlk, hmk⟩, nofun, rfl, rfl,
          nofun⟩
    split at hs
    · exact spec_mine h hpc hr hs (.refl s) rfl ⟨⟨hne, ⟨hw, hh, hl, hmk⟩, ⟨⟨hne,
        ⟨hne, hwk, hh, hl, hlk, hmk⟩, rfl, rfl, Finset.mem_singleton_self _, rfl⟩, rfl, rfl, rfl⟩,
        hlks⟩, nofun, rfl, rfl, nofun⟩
    · exact spec_mine h hpc hr hs (.refl s) rfl (.rest hw hh hl hlks hmk rfl rfl rfl nofun)
  | child addr q k =>
    obtain ⟨hne, hwk, hh, hl, hlk, hmk⟩ := hw
    have hw : (Pc.release .wait k).Wf (s.cpu c).runs :=
      ⟨hwk, by rw [hlk]; exact Finset.notMem_empty _, hwk.inner hh⟩
    have hlks : (Pc.release .wait k).locks = {.wait} := by
      rw [Pc.locks, hlk]
      rfl
    have hj : (Pc.child addr q k).Leads (s.cpu c).runs (.unlock q (.release .wait k)) :=
      .unlock hw hh hl hlks hmk rfl rfl rfl nofun
    rw [move] at hs
    split at hs
    next hq =>
      split at hs
      · exact spec_jump h hpc hs (.refl s) rfl hj
      · cases hs
        -- the lock is held here, so the zombie has left its CPU
        have hoff : ∀ c', (s.cpu c').runs ≠ some q := fun c' hc' =>
          h.off_of_holds (c := c) (by simp [hq]) (by rw [hpc]; rfl) (by rw [hpc]; rfl) c'
            (h.cpus.runs c' q hc').1
        have hd : ¬ (s.slot q).pc.Dying := by
          rcases (h.threads.halted q hoff).1 with he | ⟨b, k', he⟩ <;> rw [he] <;> exact id
        exact .change (h.jump_state (.of hpc hj) nofun (by simp [hq]) (by simp [Live])
          (absurd · hd) (by simp [hq])) (by rw [hq]; exact .reap) (by simp [hq]) ⟨nofun, nofun⟩
          (.inl ⟨by simp [hq], .modify (fun _ => rfl) (fun _ => rfl) (.inl (by simp [hq]))⟩)
    next =>
      exact spec_jump h hpc hs (.refl s) rfl ⟨⟨⟨hne, hwk, hh, hl, hlk, hmk⟩, rfl, rfl⟩, nofun, rfl,
        rfl, nofun⟩

variable {held : Finset Lk}

/-- The operations that kernel code and interrupt handlers share. -/
theorem operate_spec (code : Finset Lk → Pc N) {op : Op N} (h : Inv s.toControl)
    (hpc : s.pc c = code held)
    (hcode : ∀ held, (code held).Wf (s.cpu c).runs ∧
      (code held).attrs (s.cpu c).runs = (none, held, false, (code ∅).makes, none))
    (hk : (code held).Wf (s.cpu c).runs → held = ∅ → (code held).Leads (s.cpu c).runs k)
    (hs : operate s c held code k op = some (.ok s')) : Stepped s s' c := by
  have hattr := fun held => by simpa only [Pc.attrs, Prod.mk.injEq] using (hcode held).2
  obtain ⟨hh, hlk, hl, hm, ht⟩ := hattr held
  have hset : ∀ q k', code held ≠ .setup q k' := fun q k' he => by
    rw [he] at hh
    cases hh
  cases op with
  | acquire n =>
    rw [operate] at hs
    split at hs
    · cases hs
    next hn =>
      obtain ⟨hh', hlk', hl', hm', -⟩ := hattr (insert (.other n) held)
      refine spec_jump h hpc hs (.refl s) rfl (.rest ⟨(hcode _).1, hh', hl', ?_⟩ rfl rfl ?_
        (hm'.trans hm.symm) hh ht hl hset)
      · rw [hlk']
        exact Finset.mem_insert_self _ _
      · rw [Pc.locks, hlk', Finset.erase_insert hn, hlk]
  | release n =>
    rw [operate] at hs
    split at hs
    next hn =>
      obtain ⟨hh', hlk', hl', hm', -⟩ := hattr (held.erase (.other n))
      have hi := (hcode (held.erase (.other n))).1.inner hh'
      refine spec_jump h hpc hs (.refl s) rfl (.rest ⟨(hcode _).1, ?_, hi⟩ hh' hl' ?_
        (hm'.trans hm.symm) hh ht hl hset)
      · rw [hlk']
        exact Finset.notMem_erase _ _
      · rw [Pc.locks, hlk', Finset.insert_erase hn, hlk]
    · cases hs
  | wakeup chan =>
    exact spec_jump h hpc hs (.refl s) rfl
      (.rest ⟨(hcode _).1, hh, hl⟩ rfl rfl rfl rfl hh ht hl hset)
  | ret =>
    rw [operate] at hs
    split at hs
    next he => exact spec_jump h hpc hs (.refl s) rfl (hk (hcode _).1 he)
    · cases hs
  | _ => cases hs

theorem call_spec {op : Op N} (h : Inv s.toControl) (hpc : s.pc c = .kernel held k)
    (hs : call s c held k op = some (.ok s')) : Stepped s s' c := by
  obtain ⟨hne, hwk, hh, hl, hlk, hmk⟩ : (Pc.kernel held k).Wf (s.cpu c).runs := hpc ▸ h.wf c
  have hw : ∀ held, (Pc.kernel held k).Wf (s.cpu c).runs := fun _ => ⟨hne, hwk, hh, hl, hlk, hmk⟩
  have hcommon : ∀ hs : operate s c held (.kernel · k) k op = some (.ok s'), Stepped s s' c :=
    operate_spec (.kernel · k) h hpc (fun held => ⟨hw held, rfl⟩)
      fun _ he => .rest hwk hh hl (hlk.trans he.symm) hmk rfl rfl rfl nofun
  cases op with
  | sleep chan n =>
    rw [call] at hs
    split at hs
    next hn =>
      exact spec_jump h hpc hs (.refl s) rfl
        ⟨⟨hne, hw held, rfl, rfl, hn, rfl⟩, nofun, rfl, rfl, nofun⟩
    · cases hs
  | fork =>
    rw [call] at hs
    split at hs
    next he =>
      subst he
      exact spec_jump h hpc hs (.refl s) rfl
        ⟨⟨hne, hw ∅, rfl, rfl, rfl, rfl⟩, nofun, rfl, rfl, nofun⟩
    · cases hs
  | exit =>
    rw [call] at hs
    split at hs
    next he =>
      subst he
      exact spec_jump h hpc hs (.refl s) rfl ⟨hne, nofun, rfl, rfl, nofun⟩
    · cases hs
  | wait addr =>
    rw [call] at hs
    split at hs
    next he =>
      subst he
      exact spec_jump h hpc hs (.refl s) rfl ⟨⟨⟨hne, hw ∅, rfl, rfl, rfl, rfl⟩, rfl, rfl,
        Finset.mem_singleton_self _⟩, nofun, rfl, rfl, nofun⟩
    · cases hs
  | kill pid =>
    rw [call] at hs
    split at hs
    next he =>
      subst he
      exact spec_jump h hpc hs (.refl s) rfl
        ⟨⟨hne, hw ∅, rfl, rfl, rfl, rfl⟩, nofun, rfl, rfl, nofun⟩
    · cases hs
  | acquire n => exact hcommon hs
  | release n => exact hcommon hs
  | wakeup chan => exact hcommon hs
  | ret => exact hcommon hs

def Act.cpu : Act N M → Fin M
  | go c _ | op c _ | trap c _ | intr c _ => c

/-- What every step keeps and changes. -/
theorem step_spec {a : Act N M} (h : Inv s.toControl) (hs : Next step s a s') :
    Stepped s s' a.cpu := by
  cases a with
  | go c ok => exact move_spec h rfl hs
  | op c op =>
    rw [Next, step] at hs
    split at hs
    next held k hpc => exact call_spec h hpc hs
    next held k hpc =>
      obtain ⟨hwk, hh, hl, hlk⟩ : (Pc.handler held k).Wf (s.cpu c).runs := hpc ▸ h.wf c
      exact operate_spec (.handler · k) h hpc
        (fun held => ⟨⟨hwk, hh, hl, hlk⟩, rfl⟩)
        (fun _ he => .rest hwk hh hl (hlk.trans he.symm) rfl rfl rfl rfl nofun) hs
    next => cases hs
  | trap c cause =>
    rw [Next, step] at hs
    split at hs
    next hpc =>
      obtain ⟨p, hr, hw, hs⟩ := mine h hpc (fun hw => hw rfl) hs
      exact spec_note h hpc hs hr rfl .intena rfl ⟨hw, nofun, rfl, rfl, nofun⟩
    next => cases hs
  | intr c timer =>
    rw [Next, step] at hs
    split at hs
    next hc =>
      have hw := h.wf c
      obtain ⟨hlk, hh⟩ : (s.pc c).locks = ∅ ∧ (s.pc c).holds (s.cpu c).runs = none := by
        simpa [Pc.noff] using hc.2.1
      have hl := hw.not_leaving hh hlk
      refine spec_jump (c := c) h rfl hs .intena rfl ⟨⟨⟨hw, hh, hl, hlk⟩, rfl, rfl, rfl⟩, nofun, ?_, hl,
        fun q k' he => ?_⟩
      · rw [Pc.attrs, Pc.attrs, hh, hlk, hl, (hw.inner hh).2]
        rfl
      · rw [he] at hh
        cases hh
    next => cases hs

/-! ## Every run -/

theorem inv_init [NeZero N] : Inv (init : State N M).toControl where
  locks :=
    { proc := fun q c => by simp [init, Control.pc, Pc.holds]
      other := fun l c => by simp [init, Control.pc, Pc.locks] }
  cpus :=
    { runs := fun c p hr => by simp [init] at hr
      idle := fun c _ => rfl
      one := fun c c' p hp => by simp [init] at hp }
  threads :=
    { proc := fun p => by
        simp only [init]
        split
        · exact Option.some_ne_none p
        · exact ⟨Option.some_ne_none p, .inl rfl⟩
      cpu := fun c => rfl
      halted := fun p _ => by
        simp only [init]
        split
        · exact ⟨.inl rfl, rfl⟩
        · exact ⟨.inr ⟨false, .zombieExit, rfl⟩, rfl⟩
      alive := fun p hp => by
        simp only [init] at hp ⊢
        split
        · exact nofun
        next hne => simp [Live, hne] at hp
      dying := fun p hp => by
        simp only [init] at hp
        split at hp <;> exact hp.elim
      makes := fun p q hp => by
        simp only [init] at hp
        split at hp <;> cases hp
      maker := fun p p' q hp => by
        simp only [init] at hp
        split at hp <;> cases hp }
  running p := by
    simp only [init]
    refine iff_of_false ?_ ?_
    · split <;> exact nofun
    · rintro ⟨c, hc, -⟩
      cases hc

theorem inv_of_run [NeZero N] {l : List (Act N M)} (hr : Run (Next step) init l s) :
    Inv s.toControl :=
  hr.invariant (I := fun s => Inv s.toControl) (fun _ _ _ _ hs h => (step_spec h hs).inv) inv_init

/-- A panic that the lock of a process and its state rule out. -/
def Panic.Ruled (e : Panic) : Prop := e = .schedRunning ∨ e = .schedLock ∨ e = .zombieExit

variable {e : Panic}

theorem not_ruled_of_sched (h : Inv s.toControl) (hpc : s.pc c = .sched k)
    (hs : move s c ok (.sched k) = some (.error e)) : ¬ e.Ruled := by
  obtain ⟨p, hp, hs⟩ | he := withProc_eq hs
  · have hl : (s.pc c).leaving = true := by rw [hpc]; rfl
    rw [if_neg (not_not.mpr (h.lock_of_leaving hp hl)), if_neg (c := (s.slot p).state = .running)] at hs
    · split at hs <;> cases hs
      simp [Panic.Ruled]
    · rw [h.running]
      rintro ⟨c', hc', hl'⟩
      rw [h.cpus.one c' c p hc' hp, hl] at hl'
      cases hl'
  · cases he
    simp [Panic.Ruled]

theorem not_ruled_of_proc (hf : ∀ p, f p = some (.error e) → ¬ e.Ruled)
    (hs : s.withProc c f = some (.error e)) : ¬ e.Ruled := by
  obtain ⟨p, -, hp⟩ | he := withProc_eq hs
  · exact hf p hp
  · cases he
    simp [Panic.Ruled]

theorem move_not_ruled (h : Inv s.toControl) (hpc : s.pc c = pc)
    (hs : move s c ok pc = some (.error e)) : ¬ e.Ruled := by
  cases pc with
  | sched k => exact not_ruled_of_sched h hpc hs
  | zombieExit => exact absurd (h.wf c) (by rw [hpc]; exact id)
  | lock q k | unlock q k | acquire q k | release q k =>
    rw [move] at hs
    repeat' split at hs
    all_goals cases hs
    all_goals simp [Panic.Ruled]
  | exit =>
    refine not_ruled_of_proc (fun p hp => ?_) hs
    split at hp <;> cases hp
    simp [Panic.Ruled]
  | usertrap cause =>
    cases cause with
    | syscall => exact not_ruled_of_proc (fun _ hp => by cases hp) hs
    | _ => cases hs
  | forkret | timer | yield k | yielding k | sleep ch l k | sleeping ch l k | slept l k
  | killed yes no | readKilled yes no | setkilled k | writeKilled k | adopt np k | zombie =>
    exact not_ruled_of_proc (fun _ hp => by cases hp) hs
  | reparent i =>
    refine not_ruled_of_proc (fun p hp => ?_) hs
    repeat' split at hp
    all_goals cases hp
  | search addr i hk k =>
    refine not_ruled_of_proc (fun p hp => ?_) hs
    repeat' split at hp
    all_goals cases hp
  | _ =>
    rw [move] at hs
    repeat' split at hs
    all_goals cases hs

theorem operate_not_ruled {code : Finset Lk → Pc N} {op : Op N}
    (hs : operate s c held code k op = some (.error e)) : ¬ e.Ruled := by
  cases op with
  | acquire n | release n =>
    rw [operate] at hs
    split at hs <;> cases hs
    simp [Panic.Ruled]
  | ret =>
    rw [operate] at hs
    split at hs <;> cases hs
  | _ => cases hs

theorem call_not_ruled {op : Op N} (hs : call s c held k op = some (.error e)) : ¬ e.Ruled := by
  have hcommon : operate s c held (.kernel · k) k op = some (.error e) → ¬ e.Ruled :=
    operate_not_ruled
  cases op with
  | sleep chan n =>
    rw [call] at hs
    split at hs <;> cases hs
    simp [Panic.Ruled]
  | fork | exit | wait addr | kill pid =>
    rw [call] at hs
    split at hs <;> cases hs
  | acquire n | release n | wakeup chan | ret => exact hcommon hs

theorem step_not_ruled (h : Inv s.toControl) {a : Act N M} (hs : step s a = some (.error e)) :
    ¬ e.Ruled := by
  cases a with
  | go c ok => exact move_not_ruled h rfl hs
  | op c op =>
    rw [step] at hs
    split at hs
    · exact call_not_ruled hs
    · exact operate_not_ruled hs
    · cases hs
  | trap c cause =>
    rw [step] at hs
    split at hs
    · exact not_ruled_of_proc (fun _ hp => by cases hp) hs
    · cases hs
  | intr c timer =>
    rw [step] at hs
    split at hs <;> cases hs

/-- In every run from boot: a process whose lock is free is `RUNNING` if and only if exactly one CPU
has it as its process, a CPU has no process, or one that is running or whose lock the CPU holds; the
states of a process change along the edges of `Changes`; and the panics of `Panic.Ruled` are not
reached. -/
theorem scheduler_states [NeZero N] {l : List (Act N M)} (hr : Run (Next step) init l s) :
    (∀ p, (s.slot p).lock = none →
      ((s.slot p).state = .running ↔ ∃! c, (s.cpu c).proc = some p)) ∧
    (∀ c q, (s.cpu c).proc = some q →
      (s.slot q).state = .running ∨ (s.slot q).lock = some c) ∧
    (∀ a s', Next step s a s' → ∀ p, Changes (s.slot p).state (s'.slot p).state) ∧
    ∀ a e, step s a = some (.error e) → e ≠ .schedRunning ∧ e ≠ .schedLock ∧ e ≠ .zombieExit := by
  have h := inv_of_run hr
  refine ⟨fun p hp => ?_, fun c q hq => ?_, fun a s' hs => (step_spec h hs).changes,
    fun a e hs => ?_⟩
  · rw [h.running]
    constructor
    · rintro ⟨c, hc, -⟩
      exact ⟨c, hc, fun c' hc' => h.cpus.one c' c p hc' hc⟩
    · rintro ⟨c, hc, -⟩
      refine ⟨c, hc, ?_⟩
      by_contra hl
      rw [Bool.not_eq_false] at hl
      rw [h.lock_of_leaving hc hl] at hp
      cases hp
  · by_cases hl : (s.pc c).leaving = true
    · exact .inr (h.lock_of_leaving hq hl)
    · exact .inl ((h.running q).mpr ⟨c, hq, by simpa using hl⟩)
  · simpa only [Panic.Ruled, not_or] using step_not_ruled h hs

/-- The first process is scheduled, returns to user space and is interrupted by the timer; `n` more
steps follow. -/
def timerTrace (n : ℕ) : List (Act NPROC 1) :=
  List.replicate 8 (.go 0 true) ++ [.op 0 .ret, .go 0 true, .trap 0 .timer, .go 0 true, .op 0 .ret] ++
    List.replicate n (.go 0 true)

/-- In `yield` a CPU has a process that is not running any more. -/
theorem yield_not_running : ∃ s, Run (Next step) (init : State NPROC 1) (timerTrace 8) s ∧
    (s.slot 1).lock = none ∧ (s.cpu 0).proc = some 0 ∧ (s.slot 0).state = .runnable := by
  have heval : (exec step (init : State NPROC 1) (timerTrace 8)).any (fun s =>
      decide ((s.slot 1).lock = none ∧ (s.cpu 0).proc = some 0 ∧ (s.slot 0).state = .runnable)) =
        true := by decide +kernel
  obtain ⟨s, he, hs⟩ := exists_of_exec step heval
  exact ⟨s, run_of_exec step he, hs⟩

/-- In `usertrap` the first process is the one of its CPU. -/
theorem scheduler_states_running : ∃ s, Run (Next step) (init : State NPROC 1) (timerTrace 0) s ∧
    (s.slot 0).lock = none ∧ ∃! c, (s.cpu c).proc = some 0 := by
  have heval : (exec step (init : State NPROC 1) (timerTrace 0)).any (fun s =>
      decide ((s.slot 0).lock = none ∧ (s.slot 0).state = .running)) = true := by decide +kernel
  obtain ⟨s, he, hlock, hstate⟩ := exists_of_exec step heval
  have hr := run_of_exec step he
  exact ⟨s, hr, hlock, ((scheduler_states hr).1 0 hlock).mp hstate⟩

/-- In every run from boot no two CPUs are inside the critical section of one spin lock or run the
thread of one process, and a thread that no CPU runs is at a `swtch`, with no lock but its own. -/
theorem spinlocks_exclusive [NeZero N] {l : List (Act N M)} (hr : Run (Next step) init l s) :
    (∀ lk c c', lk ∈ (s.pc c).locks → lk ∈ (s.pc c').locks → c = c') ∧
    (∀ q c c', (s.pc c).holds (s.cpu c).runs = some q →
      (s.pc c').holds (s.cpu c').runs = some q → c = c') ∧
    (∀ p c c', (s.cpu c).runs = some p → (s.cpu c').runs = some p → c = c') ∧
    ∀ p, (∀ c, (s.cpu c).runs ≠ some p) → (s.slot p).pc.Halted ∧ (s.slot p).pc.locks = ∅ := by
  have h := inv_of_run hr
  refine ⟨fun lk c c' hc hc' => ?_, fun q c c' hc hc' => ?_, fun p c c' => h.cpus.runs_one,
    h.threads.halted⟩
  · have hlk := (h.locks.other lk c).mpr hc
    rw [(h.locks.other lk c').mpr hc'] at hlk
    exact (Option.some.inj hlk).symm
  · have hlk := (h.locks.proc q c).mpr hc
    rw [(h.locks.proc q c').mpr hc'] at hlk
    exact (Option.some.inj hlk).symm

/-- While one scheduler looks at the first process, no other does. -/
theorem spinlocks_exclusive_scan : ∃ s, Run (Next step) (init : State NPROC 2)
    (List.replicate 3 (.go 0 true)) s ∧ (s.slot 0).lock = some 0 ∧
      (s.pc 1).holds (s.cpu 1).runs ≠ some 0 := by
  have heval : (exec step (init : State NPROC 2) (List.replicate 3 (.go 0 true))).any (fun s =>
      decide ((s.slot 0).lock = some 0 ∧ (s.pc 0).holds (s.cpu 0).runs = some 0)) = true := by
    decide +kernel
  obtain ⟨s, he, hlock, hholds⟩ := exists_of_exec step heval
  have hr := run_of_exec step he
  exact ⟨s, hr, hlock, fun hc => absurd ((spinlocks_exclusive hr).2.1 0 0 1 hholds hc) (by decide)⟩

end Xv6.Sched

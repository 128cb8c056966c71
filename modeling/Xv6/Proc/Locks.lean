import Xv6.Proc.Moves

/-! # Places, states and locks

In every state a slot's place fits its state, and a process holds exactly the
lock its place says.
-/

namespace Xv6.Proc

open Sys

variable {s s' : Machine} {p q : Pptr} {ok : Bool} {pc pc' : Pc} {a : Act} {lk : Lock}
  {x : Slot} {f : Slot → Slot}

/-- A place where a process can run. -/
def Pc.Live : Pc → Prop
  | .dead | .asleep _ => False
  | .wakeup _ _ k => k.Live ∧ k.holds ≠ none
  | _ => True

/-- The state of slot `p` and its place belong together. -/
structure Fit (p : Pptr) (x : Slot) : Prop where
  live : x.pc = .dead ∨ (∃ l, x.pc = .asleep l) ∨ x.pc.Live
  held : x.pc.holds ≠ none → x.state = .running
  asleep : ∀ l, x.pc = .asleep l →
    x.chan = some (l.chan p) ∧ (x.state = .sleeping ∨ x.state = .runnable)
  sleeping : x.state = .sleeping → ∃ l, x.pc = .asleep l
  used : x.state = .used → x.pc = .user
  dead : x.state = .unused ∨ x.state = .zombie ↔ x.pc = .dead

namespace Fit

theorem of_running (hs : x.state = .running) (hl : x.pc.Live) : Fit p x where
  live := .inr (.inr hl)
  held _ := hs
  asleep l h := by
    rw [h] at hl
    exact hl.elim
  sleeping h := by simp [hs] at h
  used h := by simp [hs] at h
  dead := by
    constructor
    · intro h
      simp [hs] at h
    · intro h
      rw [h] at hl
      exact hl.elim

theorem of_dead (hs : x.state = .unused ∨ x.state = .zombie) (hp : x.pc = .dead) : Fit p x where
  live := .inl hp
  held h := absurd (by simp [hp, Pc.holds]) h
  asleep l h := by simp [hp] at h
  sleeping h := by simp [h] at hs
  used h := by simp [h] at hs
  dead := ⟨fun _ => hp, fun _ => hs⟩

theorem of_used (hs : x.state = .used) (hp : x.pc = .user) : Fit p x where
  live := by simp [hp, Pc.Live]
  held h := absurd (by simp [hp, Pc.holds]) h
  asleep l h := by simp [hp] at h
  sleeping h := by simp [hs] at h
  used _ := hp
  dead := by simp [hs, hp]

/-- A slot whose process sleeps, is new or gives up the CPU becomes runnable. -/
theorem rouse (h : Fit p x) (hn : x.pc.holds = none) (hd : x.pc ≠ .dead) : Fit p x.rouse where
  live := h.live
  held h := absurd hn h
  asleep l hl := ⟨(h.asleep l hl).1, .inr rfl⟩
  sleeping h := by cases h
  used h := by cases h
  dead := by simp [Slot.rouse, hd]

theorem holds_of_sleeping (h : Fit p x) (hs : x.state = .sleeping) :
    x.pc.holds = none ∧ x.pc ≠ .dead := by
  obtain ⟨l, hl⟩ := h.sleeping hs
  simp [hl, Pc.holds]

/-- What a change of the other fields keeps. -/
theorem congr {y : Slot} (h : Fit p x) (hs : y.state = x.state) (hp : y.pc = x.pc)
    (hc : y.chan = x.chan) : Fit p y := by
  obtain ⟨h₁, h₂, h₃, h₄, h₅, h₆⟩ := h
  constructor <;> simpa only [hs, hp, hc]

theorem kill (h : Fit p x) : Fit p x.kill := by
  by_cases hs : x.state = .sleeping
  · obtain ⟨hn, hd⟩ := h.holds_of_sleeping hs
    exact (h.rouse hn hd).congr (by simp [Slot.kill, Slot.rouse, hs]) rfl rfl
  · exact h.congr (by simp [Slot.kill, hs]) rfl rfl

theorem sched (h : Fit p x) (hs : x.state = .runnable) : Fit p x.sched := by
  unfold Slot.sched
  split
  next l hl => exact of_running rfl trivial
  next hl =>
    refine of_running rfl ?_
    rcases h.live with hd | ⟨l, hl'⟩ | hl'
    · have := h.dead.mpr hd
      simp [hs] at this
    · exact absurd hl' (hl l)
    · exact hl'

end Fit

/-- The slot a `fork` has taken and not yet made runnable. -/
def Pc.child : Pc → Option Pptr
  | .adopt np | .start np => some np
  | _ => none

structure Ok (s : Machine) : Prop where
  fit : ∀ p, Fit p (s.slot p)
  lock : ∀ p lk, (s.slot p).pc.holds = some lk ↔ s.lock lk = some p
  used : ∀ p np, (s.slot p).pc.child = some np → (s.slot np).state = .used
  owner : ∀ p q np, (s.slot p).pc.child = some np → (s.slot q).pc.child = some np → p = q

theorem Jump.holds (h : Jump s p pc pc') : pc'.holds = pc.holds := by
  cases h with
  | @alive l _ => cases l <;> rfl
  | _ => rfl

theorem Jump.live (h : Jump s p pc pc') (hl : pc.Live) : pc'.Live := by
  cases h with
  | @alive l _ => cases l <;> trivial
  | woken _ => exact hl.1
  | skip _ _ => exact hl
  | toParent _ _ => exact ⟨trivial, by simp [Pc.holds]⟩
  | written => exact ⟨trivial, by simp [Pc.holds]⟩
  | full _ => exact ⟨trivial, by simp [Pc.holds]⟩
  | fault => exact ⟨trivial, by simp [Pc.holds]⟩
  | copied _ => exact ⟨trivial, by simp [Pc.holds]⟩
  | _ => trivial

/-- A process that holds a lock is not in `fork`. -/
theorem child_of_holds (h : pc.holds = some lk) : pc.child = none := by
  cases pc <;> first | rfl | cases h

theorem Jump.child_eq (h : Jump s p pc pc') (hl : pc.Live) : pc'.child = none := by
  cases h with
  | @alive l _ => cases l <;> rfl
  | woken _ =>
    obtain ⟨lk, hlk⟩ := Option.ne_none_iff_exists'.mp hl.2
    exact child_of_holds hlk
  | _ => rfl

namespace Ok

theorem fit_modify (h : ∀ r, Fit r (s.slot r)) (hq : Fit q (f (s.slot q))) (r : Pptr) :
    Fit r ((s.modify q f).slot r) := by
  rw [Machine.slot_modify]
  split
  next hr =>
    subst hr
    exact hq
  next => exact h r

theorem congr (h : Ok s) (hs : s'.slot = s.slot) (hl : s'.lock = s.lock) : Ok s' := by
  obtain ⟨h₁, h₂, h₃, h₄⟩ := h
  constructor <;> simpa only [hs, hl]

theorem used_modify (h : Ok s) (hu : (s.slot q).state = .used → (f (s.slot q)).state = .used)
    (hc : ∀ np, (f (s.slot q)).pc.child = some np → (s.slot q).pc.child = some np) (p np : Pptr)
    (hp : ((s.modify q f).slot p).pc.child = some np) :
    (s.slot p).pc.child = some np ∧ ((s.modify q f).slot np).state = .used := by
  have hp' : (s.slot p).pc.child = some np := by
    rw [Machine.slot_modify] at hp
    split at hp
    next hpq => rw [hpq, hc np hp]
    next => exact hp
  refine ⟨hp', ?_⟩
  have := h.used p np hp'
  rw [Machine.slot_modify]
  split
  next hq => exact hu (hq ▸ this)
  next => exact this

/-- A change of one slot that keeps the lock its process holds. -/
theorem modify (h : Ok s) (hf : Fit q (f (s.slot q)))
    (hh : (f (s.slot q)).pc.holds = (s.slot q).pc.holds)
    (hu : (s.slot q).state = .used → (f (s.slot q)).state = .used)
    (hc : ∀ np, (f (s.slot q)).pc.child = some np → (s.slot q).pc.child = some np) :
    Ok (s.modify q f) where
  fit := fit_modify h.fit hf
  lock r lk := by
    rw [Machine.slot_modify, Machine.lock_modify, ← h.lock]
    split
    next hr => rw [hh, hr]
    next => rfl
  used p np hp := (h.used_modify hu hc p np hp).2
  owner p r np hp hr :=
    h.owner p r np (h.used_modify hu hc p np hp).1 (h.used_modify hu hc r np hr).1

theorem goto (h : Ok s) (hr : (s.slot p).state = .running) (hl : pc.Live)
    (hh : pc.holds = (s.slot p).pc.holds)
    (hc : ∀ np, pc.child = some np → (s.slot p).pc.child = some np) : Ok (s.goto p pc) :=
  h.modify (.of_running hr hl) hh (fun hu => by simp [hr] at hu) hc

theorem finish (h : Ok s) (hr : (s.slot p).state = .running) (hh : (s.slot p).pc.holds = none)
    (z : ℤ) : Ok (s.finish p z) :=
  h.modify (.of_running hr trivial) hh.symm (fun hu => by simp [hr] at hu)
    fun np hc => by simp [Pc.child] at hc

theorem setLock_modify (h : Ok s) {o : Option Pptr} (hf : Fit p (f (s.slot p)))
    (hs : (s.slot p).state = .running) (hc : (f (s.slot p)).pc.child = none)
    (hl : ∀ r lk', ((s.modify p f).slot r).pc.holds = some lk' ↔
      (s.setLock lk o).lock lk' = some r) : Ok ((s.setLock lk o).modify p f) where
  fit := fit_modify h.fit hf
  lock := hl
  used r np hr := (h.used_modify (fun hu => by simp [hs] at hu) (fun np hn => by
    simp [hc] at hn) r np hr).2
  owner r t np hr ht :=
    h.owner r t np
      (h.used_modify (fun hu => by simp [hs] at hu) (fun np hn => by simp [hc] at hn) r np hr).1
      (h.used_modify (fun hu => by simp [hs] at hu) (fun np hn => by simp [hc] at hn) t np ht).1

theorem acquire (h : Ok s) (hn : s.lock lk = none) (hr : (s.slot p).state = .running)
    (hp : (s.slot p).pc.holds = none) (hl : pc.Live) (hh : pc.holds = some lk) :
    Ok ((s.setLock lk (some p)).goto p pc) := by
  refine h.setLock_modify (.of_running hr hl) hr (child_of_holds hh) fun r lk' => ?_
  have := h.lock r lk'
  rw [Machine.slot_modify, Machine.lock_setLock]
  grind

theorem release (h : Ok s) (hr : (s.slot p).state = .running)
    (hp : (s.slot p).pc.holds = some lk) (hf : Fit p (f (s.slot p)))
    (hh : (f (s.slot p)).pc.holds = none) (hc : (f (s.slot p)).pc.child = none) :
    Ok ((s.setLock lk none).modify p f) := by
  refine h.setLock_modify hf hr hc fun r lk' => ?_
  have := h.lock r lk'
  have := (h.lock p lk).mp hp
  rw [Machine.slot_modify, Machine.lock_setLock]
  grind

theorem live (h : Ok s) (hr : (s.slot p).state = .running) : (s.slot p).pc.Live := by
  have hp := h.fit p
  rcases hp.live with hd | ⟨l, hl⟩ | hl
  · have := hp.dead.mpr hd
    simp [hr] at this
  · have := (hp.asleep l hl).2
    simp [hr] at this
  · exact hl

theorem pc_of_dead (h : Ok s) (hq : (s.slot q).state = .unused ∨ (s.slot q).state = .zombie) :
    (s.slot q).pc = .dead := (h.fit q).dead.mp hq

/-- A free or dead slot becomes free. -/
theorem freeproc (h : Ok s)
    (hq : (s.slot q).state = .unused ∨ (s.slot q).state = .zombie) :
    Ok (s.modify q Slot.freeproc) := by
  have hd := h.pc_of_dead hq
  refine h.modify (.of_dead (.inl rfl) rfl) ?_ ?_ ?_
  · rw [hd]
    rfl
  · intro hu
    simp [hu] at hq
  · intro np hc
    simp [Slot.freeproc, Pc.child] at hc

end Ok

/-- The running process keeps its place and its state when another slot changes. -/
theorem slot_modify_of_ne (hq : q ≠ p) : (s.modify q f).slot p = s.slot p := by
  rw [Machine.slot_modify, if_neg hq.symm]

theorem ne_of_state {st : ProcState} (hr : (s.slot p).state = .running)
    (hq : (s.slot q).state = st) (hst : st ≠ .running) : q ≠ p := by
  rintro rfl
  exact hst (hq.symm.trans hr)

theorem slot_alloc (hqp : q ≠ p) (r : Pptr) : ((s.allocproc q true).goto p (.adopt q)).slot r =
    if r = p then { s.slot p with pc := .adopt q }
    else if r = q then (s.slot q).allocproc s.nextpid s.born else s.slot r := by
  rw [Machine.slot_goto, Machine.slot_allocproc, Machine.slot_allocproc]
  simp [hqp.symm]

theorem slot_start {z : ℤ} (hqp : q ≠ p) (r : Pptr) :
    ((s.modify q Slot.rouse).finish p z).slot r =
      if r = p then { s.slot p with pc := .user, a0 := z }
      else if r = q then (s.slot q).rouse else s.slot r := by
  rw [Machine.slot_finish, Machine.slot_modify, Machine.slot_modify]
  simp [hqp.symm]

namespace Ok

/-- `fork` takes a free slot. -/
theorem alloc (h : Ok s) (hr : (s.slot p).state = .running) (hp : (s.slot p).pc.holds = none)
    (hq : (s.slot q).state = .unused) : Ok ((s.allocproc q true).goto p (.adopt q)) := by
  have hqp := ne_of_state hr hq (by simp)
  have hd := h.pc_of_dead (.inl hq)
  have hslot := slot_alloc (s := s) hqp
  -- Nobody has taken the slot, since it would not be free.
  have hfree : ∀ r, (s.slot r).pc.child ≠ some q := fun r hc => by
    have := h.used r q hc
    simp [hq] at this
  constructor
  · intro r
    rw [hslot]
    split
    · exact .of_running hr trivial
    split
    · exact .of_used rfl rfl
    · exact h.fit r
  · intro r lk
    rw [hslot, Machine.lock_goto, Machine.lock_allocproc, ← h.lock]
    split
    next hrp => rw [hrp, hp, Pc.holds] <;> simp
    split
    next hrq => rw [hrq, hd, Slot.allocproc, Pc.holds, Pc.holds] <;> simp
    · rfl
  · intro r np hc
    have := h.used r np
    rw [hslot] at hc ⊢
    grind [Pc.child, Slot.allocproc]
  · intro r t np hr ht
    have := h.owner r t np
    rw [hslot] at hr ht
    grind [Pc.child, Slot.allocproc]

/-- `fork` makes its child runnable. -/
theorem start {np : Pptr} (h : Ok s) (hr : (s.slot p).state = .running)
    (hp : (s.slot p).pc = .start np) (z : ℤ) : Ok ((s.modify np Slot.rouse).finish p z) := by
  have hc : (s.slot p).pc.child = some np := by rw [hp, Pc.child]
  have hu := h.used p np hc
  have hnp := ne_of_state hr hu (by simp)
  have hpc := (h.fit np).used hu
  have hslot := slot_start (s := s) (z := z) hnp
  constructor
  · intro r
    rw [hslot]
    split
    · exact .of_running hr trivial
    split
    next hrn =>
      subst hrn
      exact (h.fit r).rouse (by simp [hpc, Pc.holds]) (by simp [hpc])
    · exact h.fit r
  · intro r lk
    rw [hslot, Machine.lock_finish, Machine.lock_modify, ← h.lock]
    split
    next hrp => simp [hrp, hp, Pc.holds]
    split
    next hrn => rw [hrn, Slot.rouse]
    · rfl
  · intro r m hm
    have h₁ := h.used r m
    have h₂ := h.owner r p np
    rw [hslot] at hm ⊢
    grind [Pc.child, Slot.rouse]
  · intro r t m hm ht
    have := h.owner r t m
    rw [hslot] at hm ht
    grind [Pc.child, Slot.rouse]

end Ok

theorem Ok.moves (h : Ok s) (hr : (s.slot p).state = .running)
    (hm : Moves s p ok (s.slot p).pc s') : Ok s' := by
  have hlive := h.live hr
  obtain ⟨pc, hpc⟩ : ∃ pc, (s.slot p).pc = pc := ⟨_, rfl⟩
  rw [hpc] at hm hlive
  have hh : (s.slot p).pc.holds = pc.holds := by rw [hpc]
  cases hm with
  | jump hj =>
    exact h.goto hr (hj.live hlive) (by rw [hh, hj.holds]) fun np hc => by
      simp [hj.child_eq hlive] at hc
  | alloc q hq => exact h.alloc hr hh hq
  | noMemory q hq =>
    have hs : (s.allocproc q false).slot p = s.slot p :=
      slot_modify_of_ne (ne_of_state hr hq (by simp))
    have hok : Ok (s.allocproc q false) := (h.freeproc (.inl hq)).congr rfl rfl
    exact hok.finish (by rw [hs, hr]) (by rw [hs, hh]; rfl) _
  | noSlot => exact h.finish hr hh _
  | @adopt np _ =>
    have hnp : np ≠ p := ne_of_state hr (h.used p np (by rw [hpc, Pc.child])) (by simp)
    have hok : Ok (s.modify np fun x => { x with parent := some p }) :=
      h.modify ((h.fit np).congr rfl rfl rfl) rfl id fun _ => id
    have hs : (s.modify np fun x => { x with parent := some p }).slot p = s.slot p :=
      slot_modify_of_ne hnp
    refine hok.goto (by rw [hs, hr]) trivial (by rw [hs, hh]; rfl) fun m hm => ?_
    rw [hs, hpc]
    exact hm
  | start => exact h.start hr hpc _
  | exit _ hn => exact h.acquire hn hr hh trivial rfl
  | @reparent status q _ =>
    have hok : Ok (s.modify q fun x => { x with parent := some initproc }) :=
      h.modify ((h.fit q).congr rfl rfl rfl) rfl id fun _ => id
    have hs : ((s.modify q fun x => { x with parent := some initproc }).slot p).state = .running ∧
        ((s.modify q fun x => { x with parent := some initproc }).slot p).pc = (s.slot p).pc := by
      rw [Machine.slot_modify]
      split
      next hq => exact ⟨hq ▸ hr, by rw [hq]⟩
      next => exact ⟨hr, rfl⟩
    exact hok.goto hs.1 ⟨trivial, by simp [Pc.holds]⟩ (by rw [hs.2, hh]; rfl) fun m hm => by
      simp [Pc.child] at hm
  | @zombie status =>
    have hok : Ok ((s.setLock .wait none).modify p (·.exit status)) :=
      h.release hr hh (.of_dead (.inr rfl) rfl) rfl rfl
    exact hok.congr rfl rfl
  | @wakeup c k q hq hs _ =>
    obtain ⟨hn, hd⟩ := (h.fit q).holds_of_sleeping hs
    have hok : Ok (s.modify q Slot.rouse) :=
      h.modify ((h.fit q).rouse hn hd) rfl (fun hu => by simp [hs] at hu) fun _ => id
    have hp : (s.modify q Slot.rouse).slot p = s.slot p := slot_modify_of_ne hq
    exact hok.goto (by rw [hp, hr]) hlive (by rw [hp, hh]; rfl) fun m hm => by
      simp [Pc.child] at hm
  | @kill pid q _ =>
    have hok : Ok (s.modify q Slot.kill) :=
      h.modify (h.fit q).kill rfl (fun hu => by simp [Slot.kill, hu]) fun _ => id
    have hs : ((s.modify q Slot.kill).slot p).state = .running ∧
        ((s.modify q Slot.kill).slot p).pc = (s.slot p).pc := by
      rw [Machine.slot_modify]
      split
      next hq => exact ⟨by rw [← hq, Slot.kill]; simp [hr], by rw [hq, Slot.kill]⟩
      next => exact ⟨hr, rfl⟩
    exact hok.finish hs.1 (by rw [hs.2, hh]; rfl) _
  | noPid => exact h.finish hr hh _
  | @enter l hn =>
    exact h.acquire hn hr hh trivial (by cases l <;> rfl)
  | @sleep l =>
    refine h.release hr hh ?_ rfl rfl
    constructor <;> simp [Pc.holds]
  | noCopy q _ _ _ _ => exact h.release hr hh (.of_running hr trivial) rfl rfl
  | @reap addr hk q hq hz =>
    have hs : (s.modify q Slot.freeproc).slot p = s.slot p :=
      slot_modify_of_ne (ne_of_state hr hz (by simp))
    have hok : Ok (((s.modify q Slot.freeproc).setLock .wait none).finish p (s.slot q).pid) :=
      (h.freeproc (.inr hz)).release (by rw [hs, hr]) (by rw [hs, hh]; rfl)
        (.of_running (by rw [hs, hr]) trivial) rfl rfl
    exact hok.congr rfl rfl
  | @put i start b src _ =>
    have hok : Ok (s.goto p (.head (.write (i + 1) start src))) :=
      h.goto hr trivial (by rw [hh]; rfl) fun m hm => by simp [Pc.child] at hm
    exact hok.congr rfl rfl
  | @get n i pc' _ _ ho =>
    have hok : Ok (s.goto p pc') := by
      rcases ho with rfl | ⟨-, rfl⟩
      · exact h.goto hr trivial (by rw [hh]; rfl) fun m hm => by simp [Pc.child] at hm
      · exact h.goto hr ⟨trivial, by simp [Pc.holds]⟩ (by rw [hh]; rfl) fun m hm => by
          simp [Pc.child] at hm
    exact hok.congr rfl rfl
  | readEnd => exact h.release hr hh (.of_running hr trivial) rfl rfl
  | @close w hn =>
    have hok : Ok ((s.setLock .pipe (some p)).goto p
        (.wakeup (if w then .nread else .nwrite) 0 (.ret .pipe 0))) :=
      h.acquire hn hr hh ⟨trivial, by simp [Pc.holds]⟩ rfl
    exact hok.congr rfl rfl
  | @take n target c pc' ho =>
    have hok : Ok (s.goto p pc') := by
      rcases ho with rfl | ⟨r, rfl⟩ <;>
        exact h.goto hr trivial (by rw [hh]; rfl) fun m hm => by simp [Pc.child] at hm
    exact hok.congr rfl rfl
  | ret => exact h.release hr hh (.of_running hr trivial) rfl rfl

theorem ok_init (data : ℕ → UInt8) : Ok (init data) where
  fit p := by
    by_cases hp : p = initproc
    · constructor <;> simp [init, hp, Pc.holds, Pc.Live]
    · exact .of_dead (by simp [init, hp]) (by simp [init, hp])
  lock p lk := by by_cases hp : p = initproc <;> simp [init, hp, Pc.holds]
  used p np := by by_cases hp : p = initproc <;> simp [init, hp, Pc.child]
  owner p q np := by by_cases hp : p = initproc <;> simp [init, hp, Pc.child]

theorem Ok.does (h : Ok s) (hd : Does s a s') : Ok s' := by
  cases hd with
  | sched p hr =>
    refine h.modify ((h.fit p).sched hr) ?_ (fun hu => by simp [hr] at hu) ?_ <;>
      unfold Slot.sched <;> split <;> simp_all [Pc.holds, Pc.child]
  | yield p hr hn =>
    refine h.modify ((h.fit p).rouse hn ?_) rfl (fun hu => by simp [hr] at hu) fun _ => id
    intro hd
    have := (h.fit p).dead.mpr hd
    simp [hr] at this
  | trap p hr hp => exact h.modify ((h.fit p).congr rfl rfl rfl) rfl id fun _ => id
  | call p c hr hp =>
    refine h.goto hr ?_ ?_ ?_ <;> cases c <;> simp [Call.entry, hp, Pc.Live, Pc.holds, Pc.child]
  | go p ok hr hm => exact h.moves hr hm
  | rouse p hr _ =>
    obtain ⟨hn, hd⟩ := (h.fit p).holds_of_sleeping hr
    exact h.modify ((h.fit p).rouse hn hd) rfl (fun hu => by simp [hr] at hu) fun _ => id
  | consoleintr c _ => exact h.congr rfl rfl
  | clockintr _ => exact h.congr rfl rfl

/-- What a step of process `p` leaves of another slot. -/
structure Stays (x y : Slot) : Prop where
  pc : y.pc = x.pc ∨ y.pc = .user ∨ y.pc = .dead
  sleeping : y.state = .sleeping → x.state = .sleeping ∧ y.chan = x.chan ∧ y.pc = x.pc

theorem Stays.refl (x : Slot) : Stays x x := ⟨.inl rfl, fun h => ⟨h, rfl, rfl⟩⟩

theorem Stays.of_awake {y : Slot} (hp : y.pc = x.pc ∨ y.pc = .user ∨ y.pc = .dead)
    (hs : y.state ≠ .sleeping) : Stays x y := ⟨hp, fun h => absurd h hs⟩

theorem slot_goto_of_ne (hr : q ≠ p) : (s.goto p pc).slot q = s.slot q := by
  rw [Machine.slot_goto, if_neg hr]

theorem slot_finish_of_ne {z : ℤ} (hr : q ≠ p) : (s.finish p z).slot q = s.slot q := by
  rw [Machine.slot_finish, if_neg hr]

theorem Stays.modify {r : Pptr} (hq : r = q → Stays (s.slot q) (f (s.slot q))) :
    Stays (s.slot r) ((s.modify q f).slot r) := by
  rw [Machine.slot_modify]
  split
  next hr =>
    subst hr
    exact hq rfl
  next => exact .refl _

theorem Moves.stays (ho : Ok s) (hpc : (s.slot p).pc = pc) (hm : Moves s p ok pc s') {r : Pptr}
    (hr : r ≠ p) : Stays (s.slot r) (s'.slot r) := by
  cases hm with
  | jump _ => rw [slot_goto_of_ne hr]; exact .refl _
  | alloc q _ =>
    rw [slot_goto_of_ne hr, Machine.slot_allocproc]
    split
    · exact .of_awake (.inr (.inl rfl)) (by simp [Slot.allocproc])
    · exact .refl _
  | noMemory q _ =>
    rw [slot_finish_of_ne hr, Machine.slot_allocproc]
    split
    · exact .of_awake (.inr (.inr rfl)) (by simp [Slot.freeproc])
    · exact .refl _
  | noSlot => rw [slot_finish_of_ne hr]; exact .refl _
  | @adopt np _ =>
    have hu := ho.used p np (by rw [hpc, Pc.child])
    rw [slot_goto_of_ne hr]
    exact Stays.modify fun _ => .of_awake (.inl rfl) (by simp [hu])
  | start =>
    rw [slot_finish_of_ne hr]
    exact Stays.modify fun _ => .of_awake (.inl rfl) (by simp [Slot.rouse])
  | exit _ _ => rw [slot_goto_of_ne hr]; exact .refl _
  | reparent q _ =>
    rw [slot_goto_of_ne hr]
    exact Stays.modify fun _ => ⟨.inl rfl, fun h => ⟨h, rfl, rfl⟩⟩
  | @zombie status => exact Stays.modify (q := p) (f := (·.exit status)) fun h => absurd h hr
  | wakeup q _ _ _ =>
    rw [slot_goto_of_ne hr]
    exact Stays.modify fun _ => .of_awake (.inl rfl) (by simp [Slot.rouse])
  | kill q _ =>
    rw [slot_finish_of_ne hr]
    refine Stays.modify fun _ => .of_awake (.inl rfl) ?_
    by_cases hs : (s.slot q).state = .sleeping <;> simp [Slot.kill, hs]
  | noPid => rw [slot_finish_of_ne hr]; exact .refl _
  | enter _ => rw [slot_goto_of_ne hr]; exact .refl _
  | @sleep l =>
    exact Stays.modify (q := p) (f := fun x =>
      { x with chan := some (l.chan p), state := .sleeping, pc := .asleep l }) fun h => absurd h hr
  | noCopy q _ _ _ _ => rw [slot_finish_of_ne hr]; exact .refl _
  | @reap addr hk q _ _ =>
    have hs : (((s.modify q Slot.freeproc).setLock .wait none).finish p (s.slot q).pid).slot r =
        (s.modify q Slot.freeproc).slot r := slot_finish_of_ne hr
    have hst : Stays (s.slot r) ((s.modify q Slot.freeproc).slot r) :=
      Stays.modify fun _ => .of_awake (.inr (.inr rfl)) (by simp [Slot.freeproc])
    exact hs ▸ hst
  | put _ => rw [slot_goto_of_ne hr]; exact .refl _
  | get _ _ _ => rw [slot_goto_of_ne hr]; exact .refl _
  | readEnd => rw [slot_finish_of_ne hr]; exact .refl _
  | close _ => rw [slot_goto_of_ne hr]; exact .refl _
  | take _ => rw [slot_goto_of_ne hr]; exact .refl _
  | ret => rw [slot_finish_of_ne hr]; exact .refl _

/-- A step of `p` leaves the pipe alone, or nobody else holds its lock. -/
theorem Moves.pipe_or (ho : Ok s) (hpc : (s.slot p).pc = pc) (hm : Moves s p ok pc s')
    {r : Pptr} (hr : r ≠ p) : s'.pipe = s.pipe ∨ (s.slot r).pc.holds ≠ some .pipe := by
  have hheld : pc.holds = some .pipe → (s.slot r).pc.holds ≠ some .pipe := fun hp hq => by
    rw [← hpc, ho.lock] at hp
    rw [ho.lock, hp] at hq
    exact hr (Option.some.inj hq).symm
  cases hm with
  | put _ => exact .inr (hheld rfl)
  | get _ _ _ => exact .inr (hheld rfl)
  | close hn =>
    refine .inr fun hq => ?_
    rw [ho.lock, hn] at hq
    cases hq
  | _ => exact .inl (by simp)

/-- A lock stays with its holder while other processes move. -/
theorem Moves.lock_eq (ho : Ok s) (hpc : (s.slot p).pc = pc) (hm : Moves s p ok pc s')
    {h : Pptr} (hl : s.lock lk = some h) (hp : h ≠ p) : s'.lock lk = some h := by
  have hheld : ∀ lk', pc.holds = some lk' → lk ≠ lk' := by
    rintro lk' hlk rfl
    rw [← hpc, ho.lock, hl] at hlk
    exact hp (Option.some.inj hlk)
  have hfree : ∀ lk', s.lock lk' = none → lk ≠ lk' := by
    rintro lk' hn rfl
    simp [hl] at hn
  cases hm with
  | exit _ hn => simp [Machine.lock_setLock, hfree _ hn, hl]
  | zombie => simp [Machine.lock_setLock, hheld .wait rfl, hl]
  | enter hn => simp [Machine.lock_setLock, hfree _ hn, hl]
  | @sleep l => simp [Machine.lock_setLock, hheld l.lock rfl, hl]
  | noCopy q _ _ _ _ => simp [Machine.lock_setLock, hheld .wait rfl, hl]
  | reap q _ _ => simp [Machine.lock_setLock, hheld .wait rfl, hl]
  | readEnd => simp [Machine.lock_setLock, hheld .pipe rfl, hl]
  | close hn => simp [Machine.lock_setLock, hfree _ hn, hl]
  | @ret lk' r => simp [Machine.lock_setLock, hheld lk' rfl, hl]
  | _ => simpa using hl

/-- The holder of a lock keeps its place while other processes move. -/
theorem Moves.pc_eq (ho : Ok s) (hr : (s.slot p).state = .running) (hpc : (s.slot p).pc = pc)
    (hm : Moves s p ok pc s') {h : Pptr} (hl : s.lock lk = some h) (hp : h ≠ p) :
    (s'.slot h).pc = (s.slot h).pc := by
  have hok : Ok s' := ho.moves hr (hpc ▸ hm)
  have hheld := (hok.lock h lk).mpr (hm.lock_eq ho hpc hl hp)
  rcases (hm.stays ho hpc hp).pc with he | he | he
  · exact he
  · simp [he, Pc.holds] at hheld
  · simp [he, Pc.holds] at hheld

end Xv6.Proc

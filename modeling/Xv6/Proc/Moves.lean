import Xv6.Proc.Machine

/-! # What a step can do

`Jump` lists the steps that change only the place of the process that takes them,
`Moves` all steps of a process, and `Does` all steps of the machine.
-/

namespace Xv6.Proc

open Sys

inductive Jump (s : Machine) (p : Pptr) : Pc → Pc → Prop
  | alloc {i} : Jump s p (.alloc i) (.alloc (i + 1))
  | kill {pid i} : Jump s p (.kill pid i) (.kill pid (i + 1))
  | reparent {status} (q : Pptr) : (s.slot q).parent ≠ some p →
      Jump s p (.reparent status q) (.reparent status (q + 1))
  | toParent {status i q} : NPROC ≤ i → (s.slot p).parent = some q →
      Jump s p (.reparent status i) (.wakeup (.proc q) 0 (.zombie status))
  | orphan {status i} : NPROC ≤ i → (s.slot p).parent = none →
      Jump s p (.reparent status i) (.zombie status)
  | skip {c k} (q : Pptr) :
      ¬ (q ≠ p ∧ (s.slot q).state = .sleeping ∧ (s.slot q).chan = some c) →
      Jump s p (.wakeup c q k) (.wakeup c (q + 1) k)
  | woken {c i k} : NPROC ≤ i → Jump s p (.wakeup c i k) k
  | child {addr hk} (q : Pptr) : (s.slot q).parent = some p → (s.slot q).state ≠ .zombie →
      Jump s p (.scan addr q hk) (.scan addr (q + 1) true)
  | other {addr hk} (q : Pptr) : (s.slot q).parent ≠ some p →
      Jump s p (.scan addr q hk) (.scan addr (q + 1) hk)
  | kids {addr i} : NPROC ≤ i → Jump s p (.scan addr i true) (.test (.wait addr))
  | noKids {addr i} : NPROC ≤ i → Jump s p (.scan addr i false) (.ret .wait (-1))
  | killed {l} : (s.slot p).killed = true → Jump s p (.test l) (.ret l.lock (-1))
  | alive {l} : (s.slot p).killed = false → Jump s p (.test l) l.go
  | wait {addr} : Jump s p (.head (.wait addr)) (.scan addr 0 false)
  | empty {n} : isEmpty s.pipe = true → s.pipe.writeopen = true →
      Jump s p (.head (.read n)) (.test (.read n))
  | copy {n} : ¬ (isEmpty s.pipe = true ∧ s.pipe.writeopen = true) →
      Jump s p (.head (.read n)) (.get n 0)
  | written {i start} : Jump s p (.head (.write i start [])) (.wakeup .nread 0 (.ret .pipe i))
  | more {i start b src} : s.pipe.readopen = true →
      Jump s p (.head (.write i start (b :: src))) (.test (.write i start (b :: src)))
  | broken {i start b src} : s.pipe.readopen = false →
      Jump s p (.head (.write i start (b :: src))) (.ret .pipe (-1))
  | full {i start b src} : isFull s.pipe = true →
      Jump s p (.put i start (b :: src)) (.wakeup .nread 0 (.doze (.write i start (b :: src))))
  | fault {i start src} : Jump s p (.put i start src) (.wakeup .nread 0 (.ret .pipe i))
  | copied {n i} : ¬ (i < n ∧ isEmpty s.pipe = false) →
      Jump s p (.get n i) (.wakeup .nwrite 0 (.readEnd n i))
  | line {n target r} : Jump s p (.head (.cons n target)) (.ret .cons r)
  | noInput {n target} : Jump s p (.head (.cons n target)) (.test (.cons n target))
  | clock {n t t'} : Jump s p (.head (.ticks n t)) (.head (.ticks n t'))
  | early {n t} : Jump s p (.head (.ticks n t)) (.test (.ticks n t))
  | late {n t} : Jump s p (.head (.ticks n t)) (.ret .ticks 0)

/-- The steps of process `p` from `pc`. -/
inductive Moves (s : Machine) (p : Pptr) : Bool → Pc → Machine → Prop
  | jump {ok pc pc'} : Jump s p pc pc' → Moves s p ok pc (s.goto p pc')
  | alloc {ok} (q : Pptr) : (s.slot q).state = .unused →
      Moves s p ok (.alloc q) ((s.allocproc q true).goto p (.adopt q))
  | noMemory {ok} (q : Pptr) : (s.slot q).state = .unused →
      Moves s p ok (.alloc q) ((s.allocproc q false).finish p (-1))
  | noSlot {ok i} : Moves s p ok (.alloc i) (s.finish p (-1))
  | adopt {ok np} : s.lock .wait = none → Moves s p ok (.adopt np)
      ((s.modify np fun x => { x with parent := some p }).goto p (.start np))
  | start {ok np} : Moves s p ok (.start np) ((s.modify np Slot.rouse).finish p (s.slot np).pid)
  | exit {ok status} : p ≠ initproc → s.lock .wait = none →
      Moves s p ok (.exit status) ((s.setLock .wait (some p)).goto p (.reparent status 0))
  | reparent {ok status} (q : Pptr) : (s.slot q).parent = some p →
      Moves s p ok (.reparent status q)
        ((s.modify q fun x => { x with parent := some initproc }).goto p
          (.wakeup (.proc initproc) 0 (.reparent status (q + 1))))
  | zombie {ok status} : Moves s p ok (.zombie status)
      { (s.modify p (·.exit status)).setLock .wait none with
        exits := ((s.slot p).exit status).report :: s.exits }
  | wakeup {ok c k} (q : Pptr) : q ≠ p → (s.slot q).state = .sleeping →
      (s.slot q).chan = some c →
      Moves s p ok (.wakeup c q k) ((s.modify q Slot.rouse).goto p (.wakeup c (q + 1) k))
  | kill {ok pid} (q : Pptr) : (s.slot q).pid = pid →
      Moves s p ok (.kill pid q) ((s.modify q Slot.kill).finish p 0)
  | noPid {ok pid i} : Moves s p ok (.kill pid i) (s.finish p (-1))
  | enter {ok l} : s.lock l.lock = none → Moves s p ok (.enter l)
      ((s.setLock l.lock (some p)).goto p (.head l.locked))
  | sleep {ok l} : Moves s p ok (.doze l)
      ((s.setLock l.lock none).modify p fun x =>
        { x with chan := some (l.chan p), state := .sleeping, pc := .asleep l })
  | noCopy {ok addr hk} (q : Pptr) : addr ≠ 0 → ok = false → (s.slot q).parent = some p →
      (s.slot q).state = .zombie →
      Moves s p ok (.scan addr q hk) ((s.setLock .wait none).finish p (-1))
  | reap {ok addr hk} (q : Pptr) : (s.slot q).parent = some p → (s.slot q).state = .zombie →
      Moves s p ok (.scan addr q hk)
        { ((s.modify q Slot.freeproc).setLock .wait none).finish p (s.slot q).pid with
          reaps := (s.slot q).report :: s.reaps }
  | put {ok i start b src} : isFull s.pipe = false → Moves s p ok (.put i start (b :: src))
      (Machine.goto { s with pipe := putByte s.pipe b, inserted := s.inserted ++ [b] } p
        (.head (.write (i + 1) start src)))
  | get {ok n i pc} : i < n → isEmpty s.pipe = false →
      pc = .get n (i + 1) ∨ ok = false ∧ pc = .wakeup .nwrite 0 (.readEnd n i) →
      Moves s p ok (.get n i)
        (Machine.goto { s with pipe := (getByte s.pipe).2,
                               removed := s.removed ++ [(getByte s.pipe).1] } p pc)
  | readEnd {ok n} {i : ℕ} : Moves s p ok (.readEnd n i) ((s.setLock .pipe none).finish p i)
  | close {ok w} : s.lock .pipe = none → Moves s p ok (.close w)
      ((Machine.setLock { s with pipe := closeEnd s.pipe w } .pipe (some p)).goto p
        (.wakeup (if w then .nread else .nwrite) 0 (.ret .pipe 0)))
  | take {ok n target c pc} : pc = .head (.cons (n - 1) target) ∨ (∃ r, pc = .ret .cons r) →
      Moves s p ok (.head (.cons n target)) (Machine.goto { s with cons := c } p pc)
  | ret {ok lk r} : Moves s p ok (.ret lk r) ((s.setLock lk none).finish p r)

/-- The steps of the machine. -/
inductive Does (s : Machine) : Act → Machine → Prop
  | sched (p) : (s.slot p).state = .runnable → Does s (.sched p) (s.modify p Slot.sched)
  | yield (p) : (s.slot p).state = .running → (s.slot p).pc.holds = none →
      Does s (.yield p) (s.modify p Slot.rouse)
  | trap (p) : (s.slot p).state = .running → (s.slot p).pc = .user →
      Does s (.trap p) (s.modify p fun x => { x with killed := true })
  | call (p c) : (s.slot p).state = .running → (s.slot p).pc = .user →
      Does s (.call p c) (s.goto p c.entry)
  | go {s'} (p ok) : (s.slot p).state = .running → Moves s p ok (s.slot p).pc s' →
      Does s (.go p ok) s'
  | rouse (p) : (s.slot p).state = .sleeping →
      (s.slot p).chan = some .cons ∨ (s.slot p).chan = some .ticks →
      Does s (.rouse p) (s.modify p Slot.rouse)
  | consoleintr (c) : s.lock .cons = none →
      Does s (.consoleintr c) { s with cons := s.cons.intr c }
  | clockintr : s.lock .ticks = none → Does s .clockintr { s with ticks := (s.ticks + 1) % UINT }

variable {s s' : Machine} {p q : Pptr} {ok : Bool} {pc pc' : Pc} {a : Act}

theorem moves_round {l : Loop} : Moves s p ok (.head l) (s.round p ok l) := by
  cases l with
  | wait addr => exact .jump .wait
  | read n =>
    simp only [Machine.round]
    split
    next h => exact .jump (.empty h.1 h.2)
    next h => exact .jump (.copy h)
  | write i start src =>
    cases src with
    | nil => exact .jump .written
    | cons b src =>
      simp only [Machine.round]
      split
      next h => exact .jump (.more h)
      next h => exact .jump (.broken (Bool.eq_false_iff.mpr h))
  | cons n target =>
    simp only [Machine.round]
    split
    next => exact .jump .line
    split
    next => exact .jump .noInput
    -- A byte is taken; all its cases end at the head of the loop or at the release.
    unfold Machine.takeByte
    dsimp only
    split
    · split
      · exact .jump .line
      · exact .take (.inr ⟨_, rfl⟩)
    split
    · exact .take (.inr ⟨_, rfl⟩)
    split
    · exact .take (.inr ⟨_, rfl⟩)
    · exact .take (.inl rfl)
  | ticks n t =>
    cases t with
    | none => exact .jump .clock
    | some t =>
      simp only [Machine.round]
      split
      next => exact .jump .early
      next => exact .jump .late

theorem acquire_eq_some {lk : Lock} (h : (s.acquire p lk pc).map Except.ok =
    some (Except.ok s' : Except Panic Machine)) :
    s.lock lk = none ∧ s' = (s.setLock lk (some p)).goto p pc := by
  unfold Machine.acquire at h
  split at h
  next hn =>
    cases h
    exact ⟨hn, rfl⟩
  next => cases h

theorem moves_of_move (h : move s p ok pc = some (.ok s')) : Moves s p ok pc s' := by
  cases pc with
  | user => cases h
  | dead => cases h
  | asleep l => cases h
  | alloc i =>
    rw [move] at h
    split at h
    next hi =>
      split at h
      next hu =>
        split at h <;> cases h
        · exact .alloc ⟨i, hi⟩ hu
        · exact .noMemory ⟨i, hi⟩ hu
      next =>
        cases h
        exact .jump .alloc
    next =>
      cases h
      exact .noSlot
  | adopt np =>
    rw [move] at h
    split at h <;> cases h
    next hl => exact .adopt hl
  | start np =>
    cases h
    exact .start
  | exit status =>
    rw [move] at h
    split at h
    next => cases h
    next hp =>
      obtain ⟨hl, rfl⟩ := acquire_eq_some h
      exact .exit hp hl
  | reparent status i =>
    rw [move] at h
    split at h
    next hi =>
      split at h <;> cases h
      next hq => exact .reparent ⟨i, hi⟩ hq
      next hq => exact .jump (.reparent ⟨i, hi⟩ hq)
    next hi =>
      split at h <;> cases h
      next hq => exact .jump (.toParent (Nat.le_of_not_lt hi) hq)
      next hq => exact .jump (.orphan (Nat.le_of_not_lt hi) hq)
  | zombie status =>
    cases h
    exact .zombie
  | wakeup c i k =>
    rw [move] at h
    split at h
    next hi =>
      split at h <;> cases h
      next hq => exact .wakeup ⟨i, hi⟩ hq.1 hq.2.1 hq.2.2
      next hq => exact .jump (.skip ⟨i, hi⟩ hq)
    next hi =>
      cases h
      exact .jump (.woken (Nat.le_of_not_lt hi))
  | kill pid i =>
    rw [move] at h
    split at h
    next hi =>
      split at h <;> cases h
      next hq => exact .kill ⟨i, hi⟩ hq
      next => exact .jump .kill
    next =>
      cases h
      exact .noPid
  | enter l =>
    obtain ⟨hl, rfl⟩ := acquire_eq_some h
    exact .enter hl
  | head l =>
    cases h
    exact moves_round
  | test l =>
    rw [move] at h
    split at h <;> cases h
    next hk => exact .jump (.killed hk)
    next hk => exact .jump (.alive (Bool.eq_false_iff.mpr hk))
  | doze l =>
    cases h
    exact .sleep
  | scan addr i hk =>
    rw [move] at h
    split at h
    next hi =>
      split at h
      next hq =>
        split at h
        next hz =>
          split at h <;> cases h
          next ha => exact .noCopy ⟨i, hi⟩ ha.1 ha.2 hq hz
          next => exact .reap ⟨i, hi⟩ hq hz
        next hz =>
          cases h
          exact .jump (.child ⟨i, hi⟩ hq hz)
      next hq =>
        cases h
        exact .jump (.other ⟨i, hi⟩ hq)
    next hi =>
      split at h <;> cases h
      next hk =>
        subst hk
        exact .jump (.kids (Nat.le_of_not_lt hi))
      next hk =>
        obtain rfl := Bool.eq_false_iff.mpr hk
        exact .jump (.noKids (Nat.le_of_not_lt hi))
  | put i start src =>
    cases src with
    | nil =>
      cases h
      exact .jump .fault
    | cons b src =>
      rw [move] at h
      split at h
      next hf =>
        cases h
        exact .jump (.full hf)
      next hf =>
        split at h <;> cases h
        · exact .put (Bool.eq_false_iff.mpr hf)
        · exact .jump .fault
  | get n i =>
    rw [move] at h
    split at h
    next hi =>
      dsimp only at h
      split at h <;> cases h
      next => exact .get hi.1 hi.2 (.inl rfl)
      next hok => exact .get hi.1 hi.2 (.inr ⟨Bool.eq_false_iff.mpr hok, rfl⟩)
    next hi =>
      cases h
      exact .jump (.copied hi)
  | readEnd n i =>
    cases h
    exact .readEnd
  | close w =>
    obtain ⟨hl, rfl⟩ := acquire_eq_some h
    exact .close hl
  | ret lk r =>
    cases h
    exact .ret

theorem does_of_next (h : Next step s a s') : Does s a s' := by
  unfold Next at h
  cases a with
  | sched p =>
    rw [step] at h
    split at h <;> cases h
    next hp => exact .sched p hp
  | yield p =>
    rw [step] at h
    split at h <;> cases h
    next hp => exact .yield p hp.1 hp.2
  | trap p =>
    rw [step] at h
    split at h <;> cases h
    next hp => exact .trap p hp.1 hp.2
  | call p c =>
    rw [step] at h
    split at h <;> cases h
    next hp => exact .call p c hp.1 hp.2
  | go p ok =>
    rw [step] at h
    split at h
    next hp => exact .go p ok hp (moves_of_move h)
    next => cases h
  | rouse p =>
    rw [step] at h
    split at h <;> cases h
    next hp => exact .rouse p hp.1 hp.2
  | consoleintr c =>
    rw [step] at h
    split at h <;> cases h
    next hl => exact .consoleintr c hl
  | clockintr =>
    rw [step] at h
    split at h <;> cases h
    next hl => exact .clockintr hl

end Xv6.Proc

import Xv6.Proc.Pipe

/-! # Sleepers on the pipe

A process asleep on a channel of the pipe has a reason to be, or the holder of the
pipe's lock will still call `wakeup` for it. The killed path of `pipewrite` breaks
this: it returns without a `wakeup` for the bytes it has inserted.
-/

namespace Xv6.Proc

open Sys

variable {s s' : Machine} {p q r : Pptr} {ok : Bool} {pc pc' : Pc} {a : Act} {c : Chan}

/-- The reason to sleep on a channel of the pipe. -/
def Good (pi : Pipe) : Chan → Prop
  | .nread => isEmpty pi = true ∧ pi.writeopen = true
  | .nwrite => isFull pi = true ∧ pi.readopen = true
  | _ => True

/-- The holder of the pipe's lock at this place will wake slot `r` on channel `c`, if it is
not killed: it is in the `wakeup`, has inserted bytes since it took the lock, or has
removed some. -/
def Pc.Serves (c : Chan) (r : Pptr) : Pc → Prop
  | .wakeup c' i _ => c' = c ∧ i ≤ r.val
  | .head (.write i st _) | .test (.write i st _) | .put i st _ => c = .nread ∧ st < i
  | .get _ i => c = .nwrite ∧ 0 < i
  | _ => False

def Waits (s : Machine) (r : Pptr) (c : Chan) : Prop :=
  (s.slot r).state = .sleeping ∧ (s.slot r).chan = some c

/-- What the holder of the pipe's lock knows of the pipe. -/
def Knows (pi : Pipe) : Pc → Prop
  | .head (.write i start _) => start ≤ i ∧ (start < i → pi.readopen = true)
  | .test (.read _) | .doze (.read _) => Good pi .nread
  | .test (.write i start src) | .put i start src => start ≤ i ∧ src ≠ [] ∧ pi.readopen = true
  | .doze (.write ..) => Good pi .nwrite
  | .wakeup _ _ k => Knows pi k
  | _ => True

/-- In `pipewrite`, where a set flag makes it return without a `wakeup` for bytes it has
inserted or is about to insert. -/
def Pc.transfers (pi : Pipe) : Pc → Bool
  | .head (.write i st src) => decide (st < i ∧ src ≠ [])
  | .test (.write i st _) => decide (st < i)
  | .put _ _ (_ :: src) => !isFull pi && decide (src ≠ [])
  | .wakeup _ _ k => k.transfers pi
  | _ => false

/-- A `kill` of a process in the middle of a transfer while another one sleeps for it. -/
def Strands (s : Machine) (a : Act) : Prop :=
  ∃ q, Kills s a q ∧ (s.slot q).pc.transfers s.pipe = true ∧
    ∃ r, (s.slot r).state = .sleeping ∧ (s.slot r).chan = some .nread

instance (s : Machine) (a : Act) : Decidable (Strands s a) := inferInstanceAs (Decidable (∃ _, _))

structure Served (s : Machine) : Prop where
  reason : ∀ r c, Waits s r c → Good s.pipe c ∨
    ∃ h, s.lock .pipe = some h ∧ (s.slot h).pc.Serves c r
  knows : ∀ p, Knows s.pipe (s.slot p).pc
  killed : ∀ p, (s.slot p).killed = true → (s.slot p).pc.transfers s.pipe = true →
    ∀ r, ¬ Waits s r .nread

theorem knows_congr {pi pi' : Pipe} (h : pc.holds ≠ some .pipe) (hk : Knows pi pc) :
    Knows pi' pc := by
  induction pc with
  | wakeup c i k ih => exact ih h hk
  | put i start src => exact absurd rfl h
  | head l => cases l <;> first | exact absurd rfl h | trivial
  | test l => cases l <;> first | exact absurd rfl h | trivial
  | doze l => cases l <;> first | exact absurd rfl h | trivial
  | _ => trivial

theorem transfers_congr {pi pi' : Pipe} (h : pc.holds ≠ some .pipe) :
    pc.transfers pi = pc.transfers pi' := by
  induction pc with
  | wakeup c i k ih => exact ih h
  | put i start src => exact absurd rfl h
  | head l => cases l <;> rfl
  | test l => cases l <;> rfl
  | _ => rfl

theorem Jump.knows (h : Jump s p pc pc') (hk : Knows s.pipe pc) : Knows s.pipe pc' := by
  cases h with
  | @alive l _ => cases l <;> exact hk
  | empty he hw => exact ⟨he, hw⟩
  | more hr => exact ⟨hk.1, by simp, hr⟩
  | full hf => exact ⟨hf, hk.2.2⟩
  | skip _ _ => exact hk
  | woken _ => exact hk
  | _ => trivial

/-- A transfer goes on, or it starts where the flag is clear. -/
theorem Jump.transfers (h : Jump s p pc pc') (ht : pc'.transfers s.pipe = true) :
    pc.transfers s.pipe = true ∨ (s.slot p).killed = false := by
  cases h with
  | alive hk => exact .inr hk
  | @more i start b src _ =>
    have hlt : start < i := of_decide_eq_true ht
    exact .inl (decide_eq_true ⟨hlt, by simp⟩)
  | woken _ => exact .inl ht
  | skip _ _ => exact .inl ht
  | _ => cases ht

/-- What the holder of the lock owes to sleepers it still owes after a jump, or it has none. -/
theorem Jump.serves (h : Jump s p pc pc') (hk : Knows s.pipe pc)
    (hkill : (s.slot p).killed = true → pc.transfers s.pipe = true → ¬ Waits s r .nread)
    (hp : (s.slot p).state = .running) (hw : Waits s r c) (hs : pc.Serves c r) :
    pc'.Serves c r := by
  cases h with
  | skip q hq =>
    obtain ⟨rfl, hi⟩ := hs
    refine ⟨rfl, Nat.lt_of_le_of_ne hi fun he => ?_⟩
    have hqr : q = r := Fin.ext he
    subst hqr
    refine hq ⟨?_, hw.1, hw.2⟩
    rintro rfl
    have := hw.1
    simp [hp] at this
  | woken hi => exact absurd (Nat.lt_of_le_of_lt hs.2 r.isLt) (Nat.not_lt.mpr hi)
  | @killed l hkl =>
    cases l with
    | write i start src =>
      obtain ⟨rfl, hlt⟩ := hs
      exact absurd hw (hkill hkl (decide_eq_true hlt))
    | _ => exact hs.elim
  | @alive l _ =>
    cases l with
    | write i start src => exact hs
    | _ => exact hs.elim
  | written => exact ⟨hs.1.symm, Nat.zero_le _⟩
  | more _ => exact hs
  | broken hr =>
    have := hk.2 hs.2
    simp [hr] at this
  | full _ => exact ⟨hs.1.symm, Nat.zero_le _⟩
  | fault => exact ⟨hs.1.symm, Nat.zero_le _⟩
  | copied _ => exact ⟨hs.1.symm, Nat.zero_le _⟩
  | _ => exact hs.elim

theorem holds_of_transfers {pi : Pipe} (h : pc.transfers pi = true) : pc.holds = some .pipe := by
  induction pc with
  | wakeup c i k ih => exact ih h
  | head l => cases l <;> first | rfl | cases h
  | test l => cases l <;> first | rfl | cases h
  | put i start src => rfl
  | _ => cases h

/-- Who sleeps on a channel after a step slept on it before, or has just called `sleep`. -/
theorem Moves.waits (ho : Ok s) (hr : (s.slot p).state = .running) (hpc : (s.slot p).pc = pc)
    (hm : Moves s p ok pc s') (hw : Waits s' r c) :
    Waits s r c ∨ r = p ∧ ∃ l, pc = .doze l ∧ c = l.chan p ∧ s'.pipe = s.pipe := by
  by_cases hrp : r = p
  · subst hrp
    obtain ⟨l, hl, hc, hpi⟩ := hm.sleeping hr hpc ho hw.1
    exact .inr ⟨rfl, l, hl, Option.some.inj (hw.2.symm.trans hc), hpi⟩
  · obtain ⟨hs, hc, -⟩ := (hm.stays ho hpc hrp).sleeping hw.1
    exact .inl ⟨hs, hc ▸ hw.2⟩

theorem Moves.knows (hm : Moves s p ok pc s') (hk : Knows s.pipe pc) :
    Knows s'.pipe (s'.slot p).pc := by
  cases hm with
  | jump hj =>
    rw [Machine.slot_goto, if_pos rfl]
    exact hj.knows hk
  | wakeup q _ _ _ =>
    rw [Machine.slot_goto, if_pos rfl]
    exact hk
  | @enter l _ =>
    rw [Machine.slot_goto, if_pos rfl]
    cases l with
    | write i start src => exact ⟨Nat.le_refl i, fun h => absurd h (Nat.lt_irrefl i)⟩
    | _ => trivial
  | put _ =>
    rw [Machine.slot_goto, if_pos rfl]
    exact ⟨Nat.le_succ_of_le hk.1, fun _ => hk.2.2⟩
  | @get n i pc' _ _ ho =>
    rw [Machine.slot_goto, if_pos rfl]
    rcases ho with rfl | ⟨-, rfl⟩ <;> trivial
  | @take n target c pc' ho =>
    rw [Machine.slot_goto, if_pos rfl]
    rcases ho with rfl | ⟨r, rfl⟩ <;> trivial
  | zombie => simp [Machine.slot_modify, Slot.exit, Knows]
  | sleep => simp [Machine.slot_modify, Knows]
  | reap q _ _ => simp [Machine.slot_finish, Knows]
  | _ => simp [Machine.slot_goto, Machine.slot_finish, Knows]

theorem Moves.transfers (hk : Knows s.pipe pc) (hm : Moves s p ok pc s')
    (ht : (s'.slot p).pc.transfers s'.pipe = true) :
    pc.transfers s.pipe = true ∨ (s'.slot p).killed = false := by
  cases hm with
  | jump hj =>
    rw [Machine.slot_goto, if_pos rfl] at ht ⊢
    exact hj.transfers ht
  | wakeup q _ _ _ =>
    rw [Machine.slot_goto, if_pos rfl] at ht
    exact .inl ht
  | @enter l _ =>
    rw [Machine.slot_goto, if_pos rfl] at ht
    cases l with
    | write i start src => simp [Loop.locked, Pc.transfers] at ht
    | _ => cases ht
  | @put i start b src hf =>
    rw [Machine.slot_goto, if_pos rfl] at ht
    have hsrc : src ≠ [] := (of_decide_eq_true ht).2
    exact .inl (by simp [Pc.transfers, hf, hsrc])
  | @get n i pc' _ _ ho =>
    rw [Machine.slot_goto, if_pos rfl] at ht
    rcases ho with rfl | ⟨-, rfl⟩ <;> cases ht
  | @take n target c pc' ho =>
    rw [Machine.slot_goto, if_pos rfl] at ht
    rcases ho with rfl | ⟨r, rfl⟩ <;> cases ht
  | zombie => simp [Machine.slot_modify, Slot.exit, Pc.transfers] at ht
  | sleep => simp [Machine.slot_modify, Pc.transfers] at ht
  | reap q _ _ => simp [Machine.slot_finish, Pc.transfers] at ht
  | _ => simp [Machine.slot_goto, Machine.slot_finish, Pc.transfers] at ht

/-- The holder of the lock that changes the pipe owes a `wakeup` to those it gives a reason to
run, and keeps what it owes. -/
theorem Moves.reason (ho : Ok s) (hr : (s.slot p).state = .running) (hpc : (s.slot p).pc = pc)
    (hm : Moves s p ok pc s') (hk : Knows s.pipe pc)
    (hkill : (s.slot p).killed = true → pc.transfers s.pipe = true → ¬ Waits s r .nread)
    (hw : Waits s r c) (hw' : Waits s' r c)
    (h : Good s.pipe c ∨ s.lock .pipe = some p ∧ pc.Serves c r) :
    Good s'.pipe c ∨ s'.lock .pipe = some p ∧ (s'.slot p).pc.Serves c r := by
  have hheld : pc.holds = some .pipe → s.lock .pipe = some p := fun hh =>
    (ho.lock p .pipe).mp (hpc ▸ hh)
  cases hm with
  | jump hj =>
    rcases h with h | ⟨hl, h⟩
    · exact .inl h
    · refine .inr ⟨hl, ?_⟩
      rw [Machine.slot_goto, if_pos rfl]
      exact hj.serves hk hkill hr hw h
  | wakeup q hq _ _ =>
    rcases h with h | ⟨hl, rfl, hi⟩
    · exact .inl h
    · refine .inr ⟨hl, ?_⟩
      rw [Machine.slot_goto, if_pos rfl]
      refine ⟨rfl, Nat.lt_of_le_of_ne hi fun he => ?_⟩
      -- The slot that was just made runnable does not sleep.
      obtain rfl : q = r := Fin.ext he
      have := hw'.1
      rw [slot_goto_of_ne hq, Machine.slot_modify, if_pos rfl] at this
      cases this
  | put hf =>
    by_cases hc : c = .nread
    · refine .inr ⟨hheld rfl, ?_⟩
      rw [Machine.slot_goto, if_pos rfl]
      exact ⟨hc, Nat.lt_succ_of_le hk.1⟩
    · rcases h with h | ⟨-, h⟩
      · cases c with
        | nread => exact absurd rfl hc
        | nwrite => simp [hf, Good] at h
        | _ => exact .inl trivial
      · exact absurd h.1 hc
  | @get n i pc' _ he hpc' =>
    by_cases hc : c = .nwrite
    · refine .inr ⟨hheld rfl, ?_⟩
      rw [Machine.slot_goto, if_pos rfl]
      rcases hpc' with rfl | ⟨-, rfl⟩
      · exact ⟨hc, Nat.succ_pos i⟩
      · exact ⟨hc.symm, Nat.zero_le _⟩
    · rcases h with h | ⟨-, h⟩
      · cases c with
        | nread => simp [he, Good] at h
        | nwrite => exact absurd rfl hc
        | _ => exact .inl trivial
      · exact absurd h.1 hc
  | @close w hn =>
    rcases h with h | ⟨hl, -⟩
    · by_cases hc : c = if w then .nread else .nwrite
      · refine .inr ⟨by simp [Machine.lock_setLock], ?_⟩
        rw [Machine.slot_goto, if_pos rfl]
        exact ⟨hc.symm, Nat.zero_le _⟩
      · refine .inl ?_
        cases w <;> cases c <;> first | exact h | exact absurd rfl hc
    · simp [hn] at hl
  | _ =>
    rcases h with h | ⟨-, h⟩
    · exact .inl h
    · exact h.elim

theorem Served.moves (h : Served s) (ho : Ok s) (hr : (s.slot p).state = .running)
    (hm : Moves s p ok (s.slot p).pc s') (hs : ¬ Strands s (.go p ok)) : Served s' := by
  have hch := hm.change ho hr
  obtain ⟨pc, hpc⟩ : ∃ pc, (s.slot p).pc = pc := ⟨_, rfl⟩
  rw [hpc] at hm
  have hk : Knows s.pipe pc := hpc ▸ h.knows p
  have hkill : ∀ r, (s.slot p).killed = true → pc.transfers s.pipe = true → ¬ Waits s r .nread :=
    fun r hp ht => h.killed p hp (hpc ▸ ht) r
  constructor
  · intro r c hw'
    rcases hm.waits ho hr hpc hw' with hw | ⟨rfl, l, rfl, rfl, hpi⟩
    · rcases h.reason r c hw with hg | ⟨q, hl, hsv⟩
      · exact (hm.reason ho hr hpc hk (hkill r) hw hw' (.inl hg)).imp_right fun hp => ⟨p, hp⟩
      · by_cases hqp : q = p
        · subst hqp
          exact (hm.reason ho hr hpc hk (hkill r) hw hw' (.inr ⟨hl, hpc ▸ hsv⟩)).imp_right
            fun hp => ⟨q, hp⟩
        · refine .inr ⟨q, hm.lock_eq ho hpc hl hqp, ?_⟩
          rw [hm.pc_eq ho hr hpc hl hqp]
          exact hsv
    · -- The process that has just called sleep knows its reason.
      rw [hpi]
      cases l <;> exact .inl hk
  · intro r
    by_cases hrp : r = p
    · subst hrp
      exact hm.knows hk
    · rcases (hm.stays ho hpc hrp).pc with he | he | he <;> rw [he]
      · rcases hm.pipe_or ho hpc hrp with hpi | hpi
        · rw [hpi]
          exact h.knows r
        · exact knows_congr hpi (h.knows r)
      · trivial
      · trivial
  · intro q hq ht r hw'
    -- The transfer was under way before the step, with the flag set by it or before it.
    have hbefore : (s.slot q).pc.transfers s.pipe = true := by
      by_cases hqp : q = p
      · subst hqp
        rcases hm.transfers hk ht with hb | hb
        · rw [hpc]
          exact hb
        · simp [hq] at hb
      · rcases (hm.stays ho hpc hqp).pc with he | he | he <;> rw [he] at ht
        · rcases hm.pipe_or ho hpc hqp with hpi | hpi
          · exact hpi ▸ ht
          · exact transfers_congr hpi ▸ ht
        · cases ht
        · cases ht
    have hw : Waits s r .nread := by
      rcases hm.waits ho hr hpc hw' with hw | ⟨rfl, l, rfl, hc, -⟩
      · exact hw
      · -- A process that sleeps on the pipe gives up the lock, which the writer holds.
        have hl : l.lock = .pipe := by cases l <;> first | rfl | cases hc
        have h₁ := (ho.lock q .pipe).mp (holds_of_transfers hbefore)
        have h₂ := (ho.lock r .pipe).mp (by rw [hpc, Pc.holds, hl])
        obtain rfl : q = r := Option.some.inj (h₁.symm.trans h₂)
        rw [hpc] at hbefore
        cases hbefore
    cases hch q with
    | keep hkl _ _ => exact h.killed q (hkl ▸ hq) hbefore r hw
    | mark hmk _ _ _ =>
      rcases hmk with hmk | hmk
      · cases hmk
      · exact hs ⟨q, hmk, hbefore, r, hw⟩
    | free hkl _ _ => simp [hq] at hkl
    | create hu _ _ =>
      rw [ho.pc_of_dead (.inl hu)] at hbefore
      cases hbefore

/-- A step outside of the calls: one slot changes, and its process holds no lock or keeps
its place. -/
theorem Served.modify {f : Slot → Slot} (h : Served s) (ho : Ok s)
    (hpc : (f (s.slot p)).pc = (s.slot p).pc ∨
      (s.slot p).pc.holds = none ∧ Knows s.pipe (f (s.slot p)).pc ∧
        (f (s.slot p)).pc.transfers s.pipe = false)
    (hsl : (f (s.slot p)).state = .sleeping →
      (s.slot p).state = .sleeping ∧ (f (s.slot p)).chan = (s.slot p).chan)
    (hk : (f (s.slot p)).killed = true → (s.slot p).pc.transfers s.pipe = true →
      (s.slot p).killed = true) : Served (s.modify p f) := by
  have hw : ∀ r c, Waits (s.modify p f) r c → Waits s r c := by
    intro r c hw
    unfold Waits at hw
    rw [Machine.slot_modify] at hw
    split at hw
    next hrp =>
      subst hrp
      obtain ⟨hs, hc⟩ := hsl hw.1
      exact ⟨hs, hc ▸ hw.2⟩
    next => exact hw
  constructor
  · intro r c hw'
    refine (h.reason r c (hw r c hw')).imp_right fun ⟨q, hl, hsv⟩ => ⟨q, hl, ?_⟩
    rw [Machine.slot_modify]
    split
    next hqp =>
      subst hqp
      rcases hpc with he | ⟨hn, -⟩
      · rw [he]
        exact hsv
      · simp [(ho.lock q .pipe).mpr hl] at hn
    next => exact hsv
  · intro r
    rw [Machine.slot_modify, Machine.pipe_modify]
    split
    · rcases hpc with he | ⟨-, hkn, -⟩
      · rw [he]
        exact h.knows p
      · exact hkn
    · exact h.knows r
  · intro q hq ht r hw'
    rw [Machine.slot_modify] at hq ht
    rw [Machine.pipe_modify] at ht
    split at hq
    next hqp =>
      rw [if_pos hqp] at ht
      rcases hpc with he | ⟨-, -, hf⟩
      · rw [he] at ht
        exact h.killed p (hk hq ht) ht r (hw r _ hw')
      · simp [hf] at ht
    next hqp =>
      rw [if_neg hqp] at ht
      exact h.killed q hq ht r (hw r _ hw')

theorem Served.does (h : Served s) (ho : Ok s) (hd : Does s a s') (hs : ¬ Strands s a) :
    Served s' := by
  cases hd with
  | go p ok hr hm => exact h.moves ho hr hm hs
  | sched p hr =>
    have hn : (s.slot p).pc.holds = none := by
      by_contra hn
      have := (ho.fit p).held hn
      simp [hr] at this
    refine h.modify ho ?_ ?_ ?_ <;> unfold Slot.sched <;> split
    · exact .inr ⟨hn, trivial, rfl⟩
    · exact .inl rfl
    · intro h
      cases h
    · intro h
      cases h
    · exact fun h _ => h
    · exact fun h _ => h
  | yield p hr _ => exact h.modify ho (.inl rfl) (fun h => by cases h) fun h _ => h
  | trap p hr hp =>
    exact h.modify ho (.inl rfl) (fun h => ⟨h, rfl⟩) fun _ ht => by
      rw [hp] at ht
      cases ht
  | call p c hr hp =>
    refine h.modify ho (.inr ⟨by simp [hp, Pc.holds], ?_, ?_⟩) (fun h => ⟨h, rfl⟩) fun h _ => h
    · cases c <;> trivial
    · cases c <;> rfl
  | rouse p hr _ => exact h.modify ho (.inl rfl) (fun h => by cases h) fun h _ => h
  | consoleintr c _ => exact ⟨h.reason, h.knows, h.killed⟩
  | clockintr _ => exact ⟨h.reason, h.knows, h.killed⟩

theorem served_init (data : ℕ → UInt8) : Served (init data) where
  reason r c hw := by
    have := hw.1
    by_cases hr : r = initproc <;> simp [init, hr] at this
  knows p := by by_cases hp : p = initproc <;> simp [init, hp, Knows]
  killed p hp := by by_cases hi : p = initproc <;> simp [init, hi] at hp

/-- The machine in which no `kill` hits a `pipewrite` in the middle of a transfer for which
another process sleeps. -/
def orderly : Machine → Act → Option (Except Panic Machine) :=
  restrict step fun s a => ¬ Strands s a

/-- In a run in which no `kill` hits a `pipewrite` in the middle of a transfer for which another
process sleeps: while the pipe's lock is free, a process asleep on `nread` means that the pipe
is empty with its write end open, and one on `nwrite` that it is full with its read end open. -/
theorem no_stranded_sleeper {data : ℕ → UInt8} {l : List Act}
    (h : Run (Next orderly) (init data) l s) (hl : s.lock .pipe = none) :
    (∀ p, (s.slot p).state = .sleeping → (s.slot p).chan = some .nread →
      isEmpty s.pipe = true ∧ s.pipe.writeopen = true) ∧
    ∀ p, (s.slot p).state = .sleeping → (s.slot p).chan = some .nwrite →
      isFull s.pipe = true ∧ s.pipe.readopen = true := by
  obtain ⟨-, hsv⟩ : Ok s ∧ Served s := by
    refine h.invariant (I := fun s => Ok s ∧ Served s) (fun s a s' _ hn hi => ?_)
      ⟨ok_init data, served_init data⟩
    obtain ⟨hs, hn⟩ := (next_restrict step).mp hn
    have hd := does_of_next hn
    exact ⟨hi.1.does hd, hi.2.does hi.1 hd hs⟩
  have hgood : ∀ p c, Waits s p c → Good s.pipe c := by
    intro p c hw
    rcases hsv.reason p c hw with hg | ⟨q, hq, -⟩
    · exact hg
    · simp [hl] at hq
  exact ⟨fun p hs hc => hgood p .nread ⟨hs, hc⟩, fun p hs hc => hgood p .nwrite ⟨hs, hc⟩⟩

/-- Init forks twice, and the first child sleeps in `piperead`. -/
def sleeperTrace : List Act :=
  .sched 0 :: forkSteps ++ .call 0 .fork :: List.replicate 5 (.go 0 true) ++
    [.sched 1, .call 1 (.piperead 1)] ++ List.replicate 4 (.go 1 true)

/-- The reader of an empty pipe sleeps. -/
theorem no_stranded_sleeper_reader : ∃ s, exec orderly (init fun _ => 0) sleeperTrace = some s ∧
    s.lock .pipe = none ∧ (s.slot 1).state = .sleeping ∧
    isEmpty s.pipe = true ∧ s.pipe.writeopen = true := by
  obtain ⟨s, hs, hl, hst, hc⟩ : ∃ s, exec orderly (init fun _ => 0) sleeperTrace = some s ∧
      s.lock .pipe = none ∧ (s.slot 1).state = .sleeping ∧ (s.slot 1).chan = some .nread :=
    exists_of_exec orderly (by decide +kernel)
  exact ⟨s, hs, hl, hst, (no_stranded_sleeper (run_of_exec orderly hs) hl).1 1 hst hc⟩

/-- A writer that is killed after the first of its two bytes leaves the reader asleep with a
byte in the pipe. -/
theorem stranded_reader : ∃ s, exec step (init fun _ => 0)
      (sleeperTrace ++ [.sched 2, .call 2 (.pipewrite [7, 8])] ++ List.replicate 4 (.go 2 true) ++
        .call 0 (.kill 3) :: List.replicate 3 (.go 0 true) ++ List.replicate 3 (.go 2 true)) =
      some s ∧
    s.lock .pipe = none ∧ (s.slot 1).state = .sleeping ∧ (s.slot 1).chan = some .nread ∧
    isEmpty s.pipe = false ∧ (s.slot 2).pc = .user ∧ (s.slot 2).a0 = -1 :=
  exists_of_exec step (by decide +kernel)

end Xv6.Proc

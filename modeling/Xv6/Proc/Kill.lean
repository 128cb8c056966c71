import Xv6.Proc.Locks

/-! # Kills

Who sets the flag of a process, and whether a killed process can be asleep.
-/

namespace Xv6.Proc

open Sys

variable {s s' t : Machine} {p q : Pptr} {ok : Bool} {pc pc' : Pc} {a : Act} {x y : Slot}
  {f : Slot → Slot}

/-- The pid and the slot that a step of `kill` compares. -/
def aim (s : Machine) : Act → Option (ℤ × ℕ)
  | .go p _ =>
    match (s.slot p).pc with
    | .kill pid i => some (pid, i)
    | _ => none
  | _ => none

/-- The step is a `kill` that finds its pid in slot `q`. -/
def Kills (s : Machine) (a : Act) (q : Pptr) : Prop := aim s a = some ((s.slot q).pid, q.val)

instance (s : Machine) (a : Act) (q : Pptr) : Decidable (Kills s a q) :=
  inferInstanceAs (Decidable (_ = _))

theorem kills_of_pc {pid : ℤ} (hp : (s.slot p).pc = .kill pid q.val)
    (hq : (s.slot q).pid = pid) : Kills s (.go p ok) q := by
  simp only [Kills, aim, hp, hq]

/-- The step sets the flag of slot `q`: a `kill` with its pid, or a trap of its own. -/
def Marks (s : Machine) (a : Act) (q : Pptr) : Prop := a = .trap q ∨ Kills s a q

/-- What a step can do to the flag and the pid of slot `q`. -/
inductive Change (s : Machine) (a : Act) (q : Pptr) (y : Slot) : Prop
  | keep : y.killed = (s.slot q).killed → y.pid = (s.slot q).pid →
      (y.state = .unused ↔ (s.slot q).state = .unused) → Change s a q y
  | mark : Marks s a q → y.killed = true → y.state ≠ .sleeping →
      (y.state = .unused ↔ (s.slot q).state = .unused) → Change s a q y
  | free : y.killed = false → y.pid = 0 → y.state = .unused → Change s a q y
  | create : (s.slot q).state = .unused → y.killed = (s.slot q).killed → y.state = .used →
      Change s a q y

namespace Change

theorem refl (s : Machine) (a : Act) (q : Pptr) : Change s a q (s.slot q) := .keep rfl rfl .rfl

/-- The other fields do not matter. -/
theorem congr (h : Change s a q x) (hk : y.killed = x.killed) (hp : y.pid = x.pid)
    (hs : y.state = x.state) : Change s a q y := by
  cases h with
  | keep h₁ h₂ h₃ => exact .keep (hk.trans h₁) (hp.trans h₂) (by rw [hs]; exact h₃)
  | mark h₁ h₂ h₃ h₄ => exact .mark h₁ (hk.trans h₂) (by rw [hs]; exact h₃) (by rw [hs]; exact h₄)
  | free h₁ h₂ h₃ => exact .free (hk.trans h₁) (hp.trans h₂) (hs.trans h₃)
  | create h₁ h₂ h₃ => exact .create h₁ (hk.trans h₂) (hs.trans h₃)

theorem modify (h : ∀ r, Change s a r (t.slot r)) (hq : Change s a q (f (t.slot q))) (r : Pptr) :
    Change s a r ((t.modify q f).slot r) := by
  rw [Machine.slot_modify]
  split
  next hr =>
    subst hr
    exact hq
  next => exact h r

theorem goto (h : ∀ r, Change s a r (t.slot r)) (r : Pptr) :
    Change s a r ((t.goto p pc).slot r) :=
  modify h ((h p).congr rfl rfl rfl) r

theorem finish {z : ℤ} (h : ∀ r, Change s a r (t.slot r)) (r : Pptr) :
    Change s a r ((t.finish p z).slot r) :=
  modify h ((h p).congr rfl rfl rfl) r

/-- A slot in use changes to another state of a slot in use. -/
theorem state (hx : (s.slot q).state ≠ .unused) (hk : y.killed = (s.slot q).killed)
    (hp : y.pid = (s.slot q).pid) (hy : y.state ≠ .unused) : Change s a q y :=
  .keep hk hp ⟨fun h => absurd h hy, fun h => absurd h hx⟩

end Change

theorem Moves.change (ho : Ok s) (hr : (s.slot p).state = .running)
    (hm : Moves s p ok (s.slot p).pc s') (r : Pptr) : Change s (.go p ok) r (s'.slot r) := by
  have href := Change.refl s (.go p ok)
  obtain ⟨pc, hpc⟩ : ∃ pc, (s.slot p).pc = pc := ⟨_, rfl⟩
  rw [hpc] at hm
  cases hm with
  | jump _ => exact Change.goto href r
  | alloc q hq =>
    refine Change.goto (fun r => ?_) r
    rw [Machine.slot_allocproc]
    split
    next hrq =>
      subst hrq
      exact .create hq rfl rfl
    next => exact href r
  | noMemory q hq =>
    refine Change.finish (fun r => ?_) r
    rw [Machine.slot_allocproc]
    split
    next hrq =>
      subst hrq
      exact .free rfl rfl rfl
    next => exact href r
  | noSlot => exact Change.finish href r
  | @adopt np _ => exact Change.goto (Change.modify href ((href np).congr rfl rfl rfl)) r
  | @start np =>
    have hu := ho.used p np (by rw [hpc, Pc.child])
    exact Change.finish (Change.modify href (.state (by simp [hu]) rfl rfl (by simp [Slot.rouse]))) r
  | exit _ _ => exact Change.goto href r
  | reparent q _ => exact Change.goto (Change.modify href ((href q).congr rfl rfl rfl)) r
  | @zombie status =>
    exact Change.modify (t := s) (q := p) (f := (·.exit status)) href
      (.state (by simp [hr]) rfl rfl (by simp [Slot.exit])) r
  | wakeup q _ hs _ =>
    exact Change.goto (Change.modify href (.state (by simp [hs]) rfl rfl (by simp [Slot.rouse]))) r
  | kill q hq =>
    refine Change.finish (Change.modify href (.mark (.inr (kills_of_pc hpc hq)) rfl ?_ ?_)) r <;>
      by_cases hs : (s.slot q).state = .sleeping <;> simp [Slot.kill, hs]
  | noPid => exact Change.finish href r
  | enter _ => exact Change.goto href r
  | @sleep l =>
    exact Change.modify (t := s) (q := p) (f := fun x =>
      { x with chan := some (l.chan p), state := .sleeping, pc := .asleep l }) href
      (.state (by simp [hr]) rfl rfl (by simp)) r
  | noCopy q _ _ _ _ => exact Change.finish href r
  | reap q _ _ => exact Change.finish (Change.modify href (.free rfl rfl rfl)) r
  | put _ => exact Change.goto href r
  | get _ _ _ => exact Change.goto href r
  | readEnd => exact Change.finish href r
  | close _ => exact Change.goto href r
  | take _ => exact Change.goto href r
  | ret => exact Change.finish href r

theorem Does.change (ho : Ok s) (hd : Does s a s') (r : Pptr) : Change s a r (s'.slot r) := by
  have href := Change.refl s a
  cases hd with
  | sched p hr =>
    refine Change.modify href ?_ r
    unfold Slot.sched
    split <;> exact .state (by simp [hr]) rfl rfl (by simp)
  | yield p hr _ =>
    exact Change.modify href (.state (by simp [hr]) rfl rfl (by simp [Slot.rouse])) r
  | trap p hr _ => exact Change.modify href (.mark (.inl rfl) rfl (by simp [hr]) .rfl) r
  | call p c _ _ => exact Change.goto href r
  | go p ok hr hm => exact hm.change ho hr r
  | rouse p hr _ =>
    exact Change.modify href (.state (by simp [hr]) rfl rfl (by simp [Slot.rouse])) r
  | consoleintr c _ => exact href r
  | clockintr _ => exact href r

/-! ## Kills of free slots -/

/-- A `kill` that finds its pid in a free slot. -/
def Stray (s : Machine) (a : Act) : Prop := ∃ q, Kills s a q ∧ (s.slot q).state = .unused

instance (s : Machine) (a : Act) : Decidable (Stray s a) := inferInstanceAs (Decidable (∃ _, _))

/-- Free slots are as `freeproc` leaves them. -/
def Clean (s : Machine) : Prop :=
  ∀ q, (s.slot q).state = .unused → (s.slot q).killed = false ∧ (s.slot q).pid = 0

theorem Marks.unused (h : Marks s a q) (hn : Next step s a s') (hs : ¬ Stray s a) :
    (s.slot q).state ≠ .unused := by
  intro hu
  rcases h with rfl | h
  · cases does_of_next hn with
    | trap _ hr _ => simp [hu] at hr
  · exact hs ⟨q, h, hu⟩

theorem Clean.next (h : Clean s) (ho : Ok s) (hn : Next step s a s') (hs : ¬ Stray s a) :
    Clean s' := by
  intro q hq
  cases (does_of_next hn).change ho q with
  | keep h₁ h₂ h₃ => rw [h₁, h₂]; exact h q (h₃.mp hq)
  | mark h₁ _ _ h₄ => exact absurd (h₄.mp hq) (h₁.unused hn hs)
  | free h₁ h₂ _ => exact ⟨h₁, h₂⟩
  | create _ _ h₃ => simp [hq] at h₃

/-- The machine in which no `kill` finds a free slot. -/
def aimed : Machine → Act → Option (Except Panic Machine) := restrict step fun s a => ¬ Stray s a

theorem clean_of_run {data : ℕ → UInt8} {l : List Act} (h : Run (Next aimed) (init data) l s) :
    Ok s ∧ Clean s := by
  refine h.invariant (I := fun s => Ok s ∧ Clean s) (fun s a s' _ hn hi => ?_)
    ⟨ok_init data, fun q hq => ?_⟩
  · obtain ⟨hs, hn⟩ := (next_restrict step).mp hn
    exact ⟨hi.1.does (does_of_next hn), hi.2.next hi.1 hn hs⟩
  · by_cases hi : q = initproc
    · simp [init, hi] at hq
    · simp [init, hi]

/-- In a run in which no `kill` finds its pid in a free slot: a `kill` that returns 0 has found
a slot in use with its pid, a new process starts without the flag, and a process gets
the flag only from a `kill` with its own pid or from a trap of its own. -/
theorem kill_hits_target {data : ℕ → UInt8} {l : List Act} (h : Run (Next aimed) (init data) l s)
    (hn : Next aimed s a s') :
    (∀ p ok pid i, a = .go p ok → (s.slot p).pc = .kill pid i → (s'.slot p).pc = .user →
      (s'.slot p).a0 = 0 → ∃ q, (s.slot q).state ≠ .unused ∧ (s.slot q).pid = pid) ∧
    (∀ q, (s.slot q).state = .unused → (s'.slot q).state = .used →
      (s'.slot q).killed = false) ∧
    ∀ q, (s.slot q).killed = false → (s'.slot q).killed = true →
      (s.slot q).state ≠ .unused ∧ Marks s a q := by
  obtain ⟨ho, hc⟩ := clean_of_run h
  obtain ⟨hs, hn⟩ := (next_restrict step).mp hn
  have hd := does_of_next hn
  refine ⟨?_, fun q hq hq' => ?_, fun q hq hq' => ?_⟩
  · rintro p ok pid i rfl hp hu ha
    cases hd with
    | go _ _ hr hm =>
      rw [hp] at hm
      cases hm with
      | jump hj =>
        cases hj
        rw [Machine.slot_goto, if_pos rfl] at hu
        cases hu
      | kill q hq => exact ⟨q, fun hu => hs ⟨q, kills_of_pc hp hq, hu⟩, hq⟩
      | noPid =>
        rw [Machine.slot_finish, if_pos rfl] at ha
        cases ha
  · cases hd.change ho q with
    | keep _ _ h₃ => simp [hq, hq'] at h₃
    | mark h₁ _ _ _ => exact absurd hq (h₁.unused hn hs)
    | free _ _ h₃ => simp [hq'] at h₃
    | create _ h₂ _ => rw [h₂]; exact (hc q hq).1
  · cases hd.change ho q with
    | keep h₁ _ _ => simp [h₁, hq] at hq'
    | mark h₁ _ _ _ => exact ⟨h₁.unused hn hs, h₁⟩
    | free h₁ _ _ => simp [hq'] at h₁
    | create _ h₂ _ => simp [h₂, hq] at hq'

/-- Init calls `fork`, which takes slot 1. -/
def forkSteps : List Act := [.call 0 .fork, .go 0 true, .go 0 true, .go 0 true, .go 0 true]

/-- Init forks and kills its child. -/
theorem kill_hits_target_child : ∃ s s', exec aimed (init fun _ => 0)
      (.sched 0 :: forkSteps ++ [.call 0 (.kill 2), .go 0 true]) = some s ∧
    Next aimed s (.go 0 true) s' ∧ (s'.slot 1).killed = true ∧ (s.slot 1).state ≠ .unused ∧
    Marks s (.go 0 true) 1 := by
  obtain ⟨s, hs, hk, ha⟩ : ∃ s, exec aimed (init fun _ => 0)
      (.sched 0 :: forkSteps ++ [.call 0 (.kill 2), .go 0 true]) = some s ∧
      (s.slot 1).killed = false ∧ (exec aimed s [.go 0 true]).any
        (fun s' => (s'.slot 1).killed) = true := exists_of_exec aimed (by decide +kernel)
  obtain ⟨s', hs', hk'⟩ : ∃ s', exec aimed s [.go 0 true] = some s' ∧
      (s'.slot 1).killed = true := exists_of_exec aimed (by simpa using ha)
  have hn : Next aimed s (.go 0 true) s' := by
    cases run_of_exec aimed hs' with
    | cons hn hr =>
      cases hr
      exact hn
  exact ⟨s, s', hs, hn, hk', (kill_hits_target (run_of_exec aimed hs) hn).2.2 1 hk hk'⟩

/-- Init calls `kill(0)`. -/
def strayTrace : List Act := [.sched 0, .call 0 (.kill 0), .go 0 true, .go 0 true]

/-- `kill(0)` returns 0 although no slot in use has pid 0, and the process that the next
`fork` creates has the flag before anyone could have killed it. -/
theorem kill_hits_free_slot :
    (∃ s, exec step (init fun _ => 0) strayTrace = some s ∧ (s.slot 0).pc = .user ∧
      (s.slot 0).a0 = 0 ∧ ∀ q, (s.slot q).state ≠ .unused → (s.slot q).pid ≠ 0) ∧
    ∃ s, exec step (init fun _ => 0) (strayTrace ++ forkSteps) = some s ∧
      (s.slot 1).state = .runnable ∧ (s.slot 1).pid = 2 ∧ (s.slot 1).killed = true :=
  ⟨exists_of_exec step (by decide +kernel), exists_of_exec step (by decide +kernel)⟩

/-! ## Kills between the test and the sleep -/

/-- The process will call `sleep` without another call of `killed`. -/
def Pc.gap (pi : Pipe) : Pc → Bool
  | .doze _ => true
  | .wakeup _ _ k => k.gap pi
  | .put _ _ (_ :: _) => isFull pi
  | _ => false

/-- A `kill` of a process that is about to sleep. -/
def Late (s : Machine) (a : Act) : Prop := ∃ q, Kills s a q ∧ (s.slot q).pc.gap s.pipe = true

instance (s : Machine) (a : Act) : Decidable (Late s a) := inferInstanceAs (Decidable (∃ _, _))

/-- No killed process sleeps or is about to. -/
def Alert (s : Machine) : Prop :=
  ∀ p, (s.slot p).state = .sleeping ∨ (s.slot p).pc.gap s.pipe = true → (s.slot p).killed = false

/-- Only the holder of the pipe's lock looks at the pipe. -/
theorem gap_congr {pi pi' : Pipe} (h : pc.holds ≠ some .pipe) : pc.gap pi = pc.gap pi' := by
  induction pc with
  | wakeup c i k ih => exact ih h
  | put i start src => exact absurd rfl h
  | _ => rfl

theorem Jump.gap (h : Jump s p pc pc') (hg : pc'.gap s.pipe = true) :
    pc.gap s.pipe = true ∨ (s.slot p).killed = false := by
  cases h with
  | alive hk => exact .inr hk
  | full hf => exact .inl hf
  | skip _ _ => exact .inl hg
  | woken _ => exact .inl hg
  | _ => cases hg

/-- A process is about to sleep only if it was before or its flag is clear. -/
theorem Moves.gap (hpc : (s.slot p).pc = pc) (hm : Moves s p ok pc s')
    (hg : (s'.slot p).pc.gap s'.pipe = true) :
    pc.gap s.pipe = true ∨ (s'.slot p).killed = false := by
  cases hm with
  | jump hj =>
    rw [Machine.slot_goto, if_pos rfl] at hg ⊢
    exact hj.gap hg
  | wakeup q hq _ _ =>
    rw [Machine.slot_goto, if_pos rfl] at hg
    exact .inl hg
  | @get n i pc' _ _ hpc' =>
    rw [Machine.slot_goto, if_pos rfl] at hg
    rcases hpc' with rfl | ⟨-, rfl⟩ <;> cases hg
  | @take n target c pc' hpc' =>
    rw [Machine.slot_goto, if_pos rfl] at hg
    rcases hpc' with rfl | ⟨r, rfl⟩ <;> cases hg
  | zombie => simp [Machine.slot_modify, Slot.exit, Pc.gap] at hg
  | sleep => simp [Machine.slot_modify, Pc.gap] at hg
  | reap q _ _ => simp [Machine.slot_finish, Pc.gap] at hg
  | _ => simp [Machine.slot_goto, Machine.slot_finish, Pc.gap] at hg

/-- A process goes to sleep only by `sleep`. -/
theorem Moves.sleeping (hr : (s.slot p).state = .running) (hpc : (s.slot p).pc = pc)
    (ho : Ok s) (hm : Moves s p ok pc s') (hs : (s'.slot p).state = .sleeping) :
    ∃ l, pc = .doze l ∧ (s'.slot p).chan = some (l.chan p) ∧ s'.pipe = s.pipe := by
  cases hm with
  | @sleep l => exact ⟨l, rfl, by simp [Machine.slot_modify], rfl⟩
  | zombie => simp [Machine.slot_modify, Slot.exit] at hs
  | alloc q hq =>
    have hqp := ne_of_state hr hq (by simp)
    simp [Machine.slot_goto, Machine.slot_allocproc, hqp.symm, hr] at hs
  | noMemory q hq =>
    have hqp := ne_of_state hr hq (by simp)
    simp [Machine.slot_finish, Machine.slot_allocproc, hqp.symm, hr] at hs
  | @adopt np _ =>
    have hnp := ne_of_state hr (ho.used p np (by rw [hpc, Pc.child])) (by simp)
    simp [Machine.slot_goto, Machine.slot_modify, hnp.symm, hr] at hs
  | @start np =>
    have hnp := ne_of_state hr (ho.used p np (by rw [hpc, Pc.child])) (by simp)
    simp [Machine.slot_finish, Machine.slot_modify, hnp.symm, hr] at hs
  | reparent q _ =>
    simp only [Machine.slot_goto, Machine.slot_modify, if_true] at hs
    split at hs <;> simp_all
  | wakeup q hq _ _ => simp [Machine.slot_goto, Machine.slot_modify, hq.symm, hr] at hs
  | kill q _ =>
    simp only [Machine.slot_finish, Machine.slot_modify, if_true] at hs
    split at hs <;> simp_all [Slot.kill]
  | reap q _ hz =>
    have hqp := ne_of_state hr hz (by simp)
    simp [Machine.slot_finish, Machine.slot_modify, hqp.symm, hr] at hs
  | _ => simp [Machine.slot_goto, Machine.slot_finish, hr] at hs

/-- Where a process was before a step that leaves it asleep or about to sleep. -/
structure Drowsy (s s' : Machine) (r : Pptr) : Prop where
  gap : (s'.slot r).pc.gap s'.pipe = true →
    (s.slot r).pc.gap s.pipe = true ∨ (s'.slot r).killed = false
  sleeping : (s'.slot r).state = .sleeping →
    (s.slot r).state = .sleeping ∨ (s.slot r).pc.gap s.pipe = true

theorem Drowsy.of_pc {r : Pptr} (hp : s'.pipe = s.pipe) (hpc : (s'.slot r).pc = (s.slot r).pc)
    (hs : (s'.slot r).state = .sleeping → (s.slot r).state = .sleeping) : Drowsy s s' r where
  gap h := by
    rw [hp, hpc] at h
    exact .inl h
  sleeping h := .inl (hs h)

/-- A step of the machine that changes slot `q` only. -/
theorem Drowsy.modify {r : Pptr} (hq : Drowsy s (s.modify q f) q) :
    Drowsy s (s.modify q f) r := by
  by_cases hr : r = q
  · exact hr ▸ hq
  · have hs : (s.modify q f).slot r = s.slot r := slot_modify_of_ne (Ne.symm hr)
    exact .of_pc rfl (by rw [hs]) (by rw [hs]; exact id)

theorem Moves.drowsy (ho : Ok s) (hr : (s.slot p).state = .running)
    (hm : Moves s p ok (s.slot p).pc s') (r : Pptr) : Drowsy s s' r := by
  obtain ⟨pc, hpc⟩ : ∃ pc, (s.slot p).pc = pc := ⟨_, rfl⟩
  rw [hpc] at hm
  by_cases hrp : r = p
  · subst hrp
    constructor
    · intro h
      rw [hpc]
      exact hm.gap hpc h
    · intro h
      obtain ⟨l, rfl, -⟩ := hm.sleeping hr hpc ho h
      rw [hpc]
      exact .inr rfl
  · have hst := hm.stays ho hpc hrp
    refine ⟨fun h => ?_, fun h => .inl (hst.sleeping h).1⟩
    rcases hst.pc with he | he | he <;> rw [he] at h
    · rcases hm.pipe_or ho hpc hrp with hpi | hpi
      · exact .inl (hpi ▸ h)
      · exact .inl (gap_congr hpi ▸ h)
    · cases h
    · cases h

theorem Does.drowsy (ho : Ok s) (hd : Does s a s') (r : Pptr) : Drowsy s s' r := by
  cases hd with
  | go p ok hr hm => exact hm.drowsy ho hr r
  | sched p hr =>
    refine Drowsy.modify ?_
    constructor <;> rw [Machine.slot_modify, if_pos rfl] <;> unfold Slot.sched <;> split <;> intro h
    · cases h
    · exact .inl h
    · cases h
    · cases h
  | yield p hr _ =>
    refine Drowsy.modify ⟨fun h => .inl ?_, fun h => ?_⟩ <;>
      rw [Machine.slot_modify, if_pos rfl] at h
    · exact h
    · cases h
  | trap p hr _ =>
    refine Drowsy.modify (.of_pc rfl ?_ ?_) <;> rw [Machine.slot_modify, if_pos rfl]
    exact id
  | call p c hr _ =>
    refine Drowsy.modify ⟨fun h => ?_, fun h => ?_⟩ <;> rw [Machine.slot_modify, if_pos rfl] at h
    · cases c <;> cases h
    · exact .inl h
  | rouse p hr _ =>
    refine Drowsy.modify ⟨fun h => .inl ?_, fun h => ?_⟩ <;>
      rw [Machine.slot_modify, if_pos rfl] at h
    · exact h
    · cases h
  | consoleintr c _ => exact .of_pc rfl rfl id
  | clockintr _ => exact .of_pc rfl rfl id

theorem Alert.next (h : Alert s) (ho : Ok s) (hn : Next step s a s') (hl : ¬ Late s a) :
    Alert s' := by
  intro r hr
  have hd := does_of_next hn
  have hdr := hd.drowsy ho r
  cases hd.change ho r with
  | keep hk _ _ =>
    rcases hr with hr | hr
    · rw [hk]
      exact h r (hdr.sleeping hr)
    · rcases hdr.gap hr with hg | hg
      · rw [hk]
        exact h r (.inr hg)
      · exact hg
  | mark hm hk hs _ =>
    rcases hr with hr | hr
    · exact absurd hr hs
    · rcases hdr.gap hr with hg | hg
      · -- The process was about to sleep when the flag was set.
        rcases hm with rfl | hm
        · cases hd with
          | trap _ _ hp =>
            rw [hp] at hg
            cases hg
        · exact absurd ⟨r, hm, hg⟩ hl
      · exact hg
  | free hk _ _ => exact hk
  | create hu hk hs =>
    rcases hr with hr | hr
    · simp [hs] at hr
    · rcases hdr.gap hr with hg | hg
      · rw [ho.pc_of_dead (.inl hu)] at hg
        cases hg
      · exact hg

/-- The machine in which no `kill` comes between the test of the flag and the sleep. -/
def timely : Machine → Act → Option (Except Panic Machine) := restrict step fun s a => ¬ Late s a

theorem alert_of_run {data : ℕ → UInt8} {l : List Act} (h : Run (Next timely) (init data) l s) :
    Ok s ∧ Alert s := by
  refine h.invariant (I := fun s => Ok s ∧ Alert s) (fun s a s' _ hn hi => ?_)
    ⟨ok_init data, fun p _ => ?_⟩
  · obtain ⟨hl, hn⟩ := (next_restrict step).mp hn
    exact ⟨hi.1.does (does_of_next hn), hi.2.next hi.1 hn hl⟩
  · by_cases hp : p = initproc <;> simp [init, hp]

/-- In a run in which no `kill` comes between the test of the flag and the sleep, no killed
process is asleep in `wait`, `piperead`, `pipewrite`, `consoleread` or `sys_sleep`. -/
theorem killed_not_sleeping {data : ℕ → UInt8} {l : List Act}
    (h : Run (Next timely) (init data) l s) (hk : (s.slot p).killed = true) :
    (s.slot p).state ≠ .sleeping := by
  intro hs
  have := (alert_of_run h).2 p (.inl hs)
  simp [hk] at this

/-- The child of init calls `piperead` on the empty pipe and finds its flag clear. -/
def readTrace : List Act :=
  .sched 0 :: forkSteps ++ [.sched 1, .call 1 (.piperead 1), .go 1 true, .go 1 true, .go 1 true]

/-- Init kills its child. -/
def killSteps : List Act := [.call 0 (.kill 2), .go 0 true, .go 0 true]

/-- The child sleeps, is killed and can run again. -/
theorem killed_not_sleeping_reader : ∃ s, exec timely (init fun _ => 0)
      (readTrace ++ .go 1 true :: killSteps) = some s ∧ (s.slot 0).a0 = 0 ∧
    (s.slot 1).killed = true ∧ (s.slot 1).pc = .asleep (.read 1) ∧
    (s.slot 1).state ≠ .sleeping := by
  obtain ⟨s, hs, ha, hk, hp⟩ : ∃ s, exec timely (init fun _ => 0)
      (readTrace ++ .go 1 true :: killSteps) = some s ∧ (s.slot 0).a0 = 0 ∧
      (s.slot 1).killed = true ∧ (s.slot 1).pc = .asleep (.read 1) :=
    exists_of_exec timely (by decide +kernel)
  exact ⟨s, hs, ha, hk, hp, killed_not_sleeping (run_of_exec timely hs) hk⟩

/-- A `kill` that returns 0 between the test of the flag and the call of `sleep` leaves its
process asleep. -/
theorem killed_sleeping_reader : ∃ s, exec step (init fun _ => 0)
      (readTrace ++ killSteps ++ [.go 1 true]) = some s ∧ (s.slot 0).a0 = 0 ∧
    (s.slot 0).pc = .user ∧ (s.slot 1).killed = true ∧ (s.slot 1).state = .sleeping ∧
    (s.slot 1).pc = .asleep (.read 1) :=
  exists_of_exec step (by decide +kernel)

end Xv6.Proc

import Xv6.Sched.States

/-! # No lost wakeup

A waiter runs `acquire(lk); while(!cond) sleep(chan, lk); ... release(lk)`, a notifier
`acquire(lk); cond = 1; wakeup(chan); release(lk)`. A waiter that has found the condition
false holds `lk` until it holds its own lock, so a notifier comes either before its test or
finds it asleep.
-/

namespace Xv6.Sched

open Sys (ProcState)

variable {N M : ℕ} {s s' t : State N M} {c : Fin M} {p q : Fin N} {k pc : Pc N} {ok : Bool}

/-! ## Threads in the code -/

namespace Pc

/-- The channel of a call of `sleep` whose process is not `SLEEPING` yet. -/
def going : Pc N → Option (Chan N)
  | sleep chan _ _ | sleeping chan _ _ => some chan
  | lock _ k | release _ k => k.going
  | _ => none

/-- In kernel code with lock `n`, or in a call or an interrupt that comes back there. -/
def Inside (n : ℕ) : Pc N → Prop
  | kernel held _ => .other n ∈ held
  | sleep _ _ k | sleeping _ _ k | slept _ k => k.Inside n ∧ k.going = none ∧ .other n ∈ k.locks
  | release l k => k.Inside n ∧ (k.going = none ∨ ∃ chan k', k = sleeping chan l k')
  | lock _ k => k.Inside n ∧ (k.going = none ∨ ∃ l chan k', k = release l (sleeping chan l k'))
  | unlock _ k | acquire _ k | handler _ k | kerneltrap _ k | sret k | yield k | yielding k
  | sched k | resume _ k | wakeup _ _ k | wake _ _ k => k.Inside n ∧ k.going = none
  | _ => False

/-- A `wakeup(chan)` of kernel code that goes on at slot `i`. -/
inductive Scans (chan : Chan N) : ℕ → Pc N → Prop
  | wakeup (i held k) : Scans chan i (.wakeup chan i (.kernel held k))
  | lock (q : Fin N) (held k) : Scans chan q (.lock q (.wake chan q (.kernel held k)))
  | wake (q : Fin N) (held k) : Scans chan q (.wake chan q (.kernel held k))
  | unlock (q i held k) : Scans chan i (.unlock q (.wakeup chan i (.kernel held k)))

variable {n i : ℕ} {chan : Chan N}

theorem Inside.locks_of_scans (h : pc.Inside n) (hs : pc.Scans chan i) : .other n ∈ pc.locks := by
  cases hs with
  | wakeup => exact h.1
  | lock => exact h.1.1
  | wake => exact h.1
  | unlock => exact h.1.1

/-- Only past `release(lk)` is a process without the lock on its way into `sleep`. -/
theorem Inside.sleeping_of_going (h : pc.Inside n) (hg : pc.going = some chan)
    (hn : .other n ∉ pc.locks) : ∃ l k, pc = sleeping chan l k := by
  cases pc with
  | sleep ch l k => exact absurd h.2.2 hn
  | sleeping ch l k =>
    cases hg
    exact ⟨l, k, rfl⟩
  | release l k =>
    rcases h.2 with hk | ⟨ch, k, rfl⟩
    · rw [going, hk] at hg
      cases hg
    · exact absurd h.1.2.2 fun hk => hn (by simp only [locks, Finset.mem_insert, Finset.mem_erase]; tauto)
  | lock q k =>
    rcases h.2 with hk | ⟨l, ch, k, rfl⟩
    · rw [going, hk] at hg
      cases hg
    · exact absurd h.1.1.2.2
        fun hk => hn (by simp only [locks, Finset.mem_insert, Finset.mem_erase]; tauto)
  | _ => cases hg

/-- A thread in the code goes from `pc` to `k`, where it does not call `sleep(chan)`. -/
structure Continues (chan : Chan N) (n : ℕ) (pc k : Pc N) : Prop where
  inside : k.Inside n
  going : k.going ≠ some chan ∨ k.going = pc.going ∧ k.locks ⊆ pc.locks

theorem Continues.rest (h : k.Inside n ∧ k.going = none) : pc.Continues chan n k :=
  ⟨h.1, .inl (by rw [h.2]; exact nofun)⟩

end Pc

variable {n i : ℕ} {chan : Chan N}

theorem Pc.Continues.on {x : Control N M} (h : pc.Continues chan n k) (hr : (x.cpu c).runs = some p) :
    pc.Continues chan n ((t.on (x.goto c k)).slot p).pc := by
  change pc.Continues chan n ((x.goto c k).slot p).pc
  rwa [Control.pc_goto, if_pos hr]

theorem Pc.Continues.jump (hs : t.jump c k = some (.ok s')) (hr : (t.cpu c).runs = some p)
    (h : pc.Continues chan n k) : pc.Continues chan n (s'.slot p).pc := by
  cases hs
  exact h.on hr

theorem move_continues (hi : Inv s.toControl) (hr : (s.cpu c).runs = some p) (hpc : s.pc c = pc)
    (hin : pc.Inside n) (hs : move s c ok pc = some (.ok s')) :
    pc.Continues chan n (s'.slot p).pc := by
  cases pc with
  | lock q k =>
    rw [move] at hs
    split at hs
    · cases hs
    split at hs
    · cases hs
      exact Pc.Continues.on ⟨hin.1, .inr ⟨rfl, subset_rfl⟩⟩ hr
    · cases hs
  | unlock q k =>
    rw [move] at hs
    split at hs
    · cases hs
      exact Pc.Continues.on (.rest hin) hr
    · cases hs
  | acquire l k =>
    rw [move] at hs
    split at hs
    · cases hs
    split at hs
    · cases hs
      exact Pc.Continues.on (.rest hin) hr
    · cases hs
  | release l k =>
    rw [move] at hs
    split at hs
    · cases hs
      exact Pc.Continues.on ⟨hin.1, .inr ⟨rfl, Finset.subset_insert l k.locks⟩⟩ hr
    · cases hs
  | kernel held k => cases hs
  | handler held k => cases hs
  | kerneltrap timer k =>
    rw [move] at hs
    split at hs
    · exact Pc.Continues.jump hs hr ⟨⟨hin, rfl⟩, .inl nofun⟩
    · exact Pc.Continues.jump hs hr ⟨hin, .inl nofun⟩
  | sret k =>
    rw [move] at hs
    exact Pc.Continues.jump hs hr (.rest hin)
  | yield k =>
    obtain ⟨q, -, -, hs⟩ := mine hi hpc (fun hw => hw.1 rfl) hs
    exact Pc.Continues.jump hs hr ⟨⟨hin, .inl rfl⟩, .inl nofun⟩
  | yielding k =>
    obtain ⟨q, -, -, hs⟩ := mine hi hpc (fun hw => hw.1 rfl) hs
    cases hs
    exact Pc.Continues.on ⟨⟨hin, rfl⟩, .inl nofun⟩ hr
  | sched k =>
    obtain ⟨q, -, -, hs⟩ := mine hi hpc (fun hw => hw.1 rfl) hs
    repeat' split at hs
    all_goals cases hs
    exact Pc.Continues.on (t := s) ⟨hin, .inl nofun⟩ hr
  | resume intena k =>
    rw [move] at hs
    exact Pc.Continues.jump hs hr (.rest hin)
  | sleep ch l k =>
    obtain ⟨q, -, hw, hs⟩ := mine hi hpc (fun hw => hw.1 rfl) hs
    have hl : insert l (k.locks.erase l) ⊆ k.locks := (Finset.insert_erase hw.2.2.2.2.1).subset
    exact Pc.Continues.jump hs hr
      ⟨⟨⟨hin, .inr ⟨ch, k, rfl⟩⟩, .inr ⟨l, ch, k, rfl⟩⟩, .inr ⟨rfl, hl⟩⟩
  | sleeping ch l k =>
    obtain ⟨q, -, -, hs⟩ := mine hi hpc (fun hw => hw.1 rfl) hs
    cases hs
    exact Pc.Continues.on ⟨⟨hin, rfl⟩, .inl nofun⟩ hr
  | slept l k =>
    obtain ⟨q, -, -, hs⟩ := mine hi hpc (fun hw => hw.1 rfl) hs
    exact Pc.Continues.jump hs hr ⟨⟨⟨hin.1, hin.2.1⟩, rfl⟩, .inl nofun⟩
  | wakeup ch i k =>
    rw [move] at hs
    split at hs
    · split at hs
      · exact Pc.Continues.jump hs hr ⟨hin, .inl nofun⟩
      · exact Pc.Continues.jump hs hr ⟨⟨hin, .inl rfl⟩, .inl nofun⟩
    · exact Pc.Continues.jump hs hr (.rest hin)
  | wake ch q k =>
    rw [move] at hs
    split at hs
    · cases hs
      exact Pc.Continues.on ⟨⟨hin, rfl⟩, .inl nofun⟩ hr
    · exact Pc.Continues.jump hs hr ⟨⟨hin, rfl⟩, .inl nofun⟩
  | _ => exact hin.elim

/-! ## The protocol -/

/-- Where a process is in its code. -/
inductive Stage
  /-- In neither of the two. -/
  | out
  /-- A waiter before its test: in `acquire`, in `sleep`, or at the head of the loop. -/
  | loop
  /-- A waiter that has found the condition false. -/
  | wait
  /-- A waiter past its loop. -/
  | done
  /-- A notifier before it makes the condition true. -/
  | notify
  /-- A notifier before its `wakeup`. -/
  | set
  /-- A notifier in `wakeup` or before its `release`. -/
  | waking
  deriving DecidableEq, Repr

def Stage.Waits (x : Stage) : Prop := x = .loop ∨ x = .wait ∨ x = .done

structure Sync (N M : ℕ) extends State N M where
  cond : Bool
  stage : Fin N → Stage

inductive Turn (N M : ℕ)
  /-- A step that is not one of the two programs. -/
  | act (a : Act N M)
  /-- The process on the CPU begins one of them. -/
  | enter (c : Fin M) (notifier : Bool)
  /-- It executes the next statement. -/
  | code (c : Fin M)
  deriving DecidableEq

/-- Operations of other code, and those of a waiter past its loop. -/
def Op.other (chan : Chan N) (n : ℕ) (x : Stage) : Op N → Bool
  | acquire m | release m => m ≠ n
  | sleep ch m => m ≠ n ∧ (x = .done → ch ≠ chan)
  | _ => true

namespace Sync

variable (chan : Chan N) (n : ℕ) (x : Sync N M)

def go (s : State N M) (p : Fin N) (y : Stage) : Sync N M :=
  { x with toState := s, stage := Function.update x.stage p y }

/-- The process executes `op` and goes on at `y`. -/
def does (c : Fin M) (p : Fin N) (op : Op N) (y : Stage) : Option (Except Panic (Sync N M)) :=
  (Sched.step x.toState (.op c op)).map (·.map (x.go · p y))

/-- The next statement of a waiter or a notifier that executes kernel code. -/
def statement (c : Fin M) (p : Fin N) : Option (Except Panic (Sync N M)) :=
  match x.stage p with
  | .out => none
  | .loop => some (.ok (x.go x.toState p (if x.cond then .done else .wait)))
  | .wait => x.does c p (.sleep chan n) .loop
  | .done => x.does c p (.release n) .out
  | .notify => some (.ok { x.go x.toState p .set with cond := true })
  | .set => x.does c p (.wakeup chan) .waking
  | .waking => x.does c p (.release n) .out

/-- Kernel code of a process that is in one of the programs does only what they say. -/
def allows : Act N M → Bool
  | .op c op =>
    match x.pc c, (x.cpu c).runs with
    | .kernel .., some p => (x.stage p = .out ∨ x.stage p = .done) ∧ op.other chan n (x.stage p)
    | _, _ => true
  | _ => true

def step : Turn N M → Option (Except Panic (Sync N M))
  | .act a =>
    if x.allows chan n a then (Sched.step x.toState a).map (·.map fun s => { x with toState := s })
    else none
  | .enter c notifier =>
    match x.pc c, (x.cpu c).runs with
    | .kernel .., some p =>
      if x.stage p = .out then x.does c p (.acquire n) (if notifier then .notify else .loop)
      else none
    | _, _ => none
  | .code c =>
    match x.pc c, (x.cpu c).runs with
    | .kernel .., some p => x.statement chan n c p
    | _, _ => none

def init [NeZero N] : Sync N M where
  toState := Sched.init
  cond := false
  stage _ := .out

end Sync

/-! ## The invariant -/

section

variable (chan : Chan N) (n : ℕ)

/-- The process is asleep on the channel, or about to be and without lock `n`. -/
def Drowsy (s : State N M) (p : Fin N) : Prop :=
  (s.slot p).pc.going = some chan ∧ .other n ∉ (s.slot p).pc.locks ∨
    (s.slot p).state = .sleeping ∧ (s.data p).chan = chan

/-- Notifier `q` has yet to come to slot `p`. -/
def Comes (x : Sync N M) (q p : Fin N) : Prop :=
  x.stage q = .set ∨ x.stage q = .waking ∧ ∃ i ≤ p.val, (x.slot q).pc.Scans chan i

structure Synced (x : Sync N M) : Prop where
  inside : ∀ p, x.stage p ≠ .out → (x.slot p).pc.Inside n ∧ Live (x.slot p).state
  kernel : ∀ p, x.stage p = .wait ∨ x.stage p = .set → ∃ held k, (x.slot p).pc = .kernel held k
  unset : ∀ p, x.stage p = .wait → x.cond = false
  cond : ∀ p, x.stage p = .set ∨ x.stage p = .waking → x.cond = true
  going : ∀ p, (x.stage p).Waits → (x.slot p).pc.going = some chan →
    .other n ∈ (x.slot p).pc.locks → x.cond = false
  drowsy : ∀ p, (x.stage p).Waits → Drowsy chan n x.toState p →
    x.cond = false ∨ ∃ q, Comes chan x q p

end

variable {x x' : Sync N M}

/-- At most one thread holds a lock. -/
theorem Inv.holder_eq {s : Control N M} (hi : Inv s) {l : Lk} (hp : l ∈ (s.slot p).pc.locks)
    (hq : l ∈ (s.slot q).pc.locks) : p = q := by
  have hrun : ∀ p, l ∈ (s.slot p).pc.locks → ∃ c, (s.cpu c).runs = some p := fun p hp => by
    by_contra hc
    push Not at hc
    rw [(hi.threads.halted p hc).2] at hp
    cases hp
  obtain ⟨c, hc⟩ := hrun p hp
  obtain ⟨c', hc'⟩ := hrun q hq
  rw [← Control.pc_of_runs hc, ← hi.locks.other] at hp
  rw [← Control.pc_of_runs hc', ← hi.locks.other] at hq
  obtain rfl : c = c' := Option.some.inj (hp.symm.trans hq)
  exact Option.some.inj (hc.symm.trans hc')

theorem noff_ne_of_mem {l : Lk} {me : Option (Fin N)} (h : l ∈ pc.locks) : pc.noff me ≠ 0 := by
  rw [Pc.noff]
  have := Finset.card_pos.mpr ⟨l, h⟩
  omega

/-- A thread between its test and `SLEEPING` is not interrupted. -/
theorem Pc.Inside.not_going (h : pc.Inside n) (hn : pc.noff (some p) = 0) : pc.going = none := by
  by_contra hg
  obtain ⟨ch, hg⟩ := Option.ne_none_iff_exists'.mp hg
  have hl : .other n ∉ pc.locks := fun hl => noff_ne_of_mem hl hn
  obtain ⟨l, k, rfl⟩ := h.sleeping_of_going hg hl
  simp [noff, holds] at hn

theorem Pc.Inside.ne_zombie (h : pc.Inside n) : pc ≠ .zombie := by
  rintro rfl
  exact h

variable {held : Finset Lk}

theorem operate_continues (code : Finset Lk → Pc N) {op : Op N} (hr : (s.cpu c).runs = some p)
    (hsame : (code held).Inside n ∧ (code held).going = none)
    (hacq : ∀ m, op = .acquire m → (code (insert (.other m) held)).Inside n ∧
      (code (insert (.other m) held)).going = none)
    (hrel : ∀ m, op = .release m → (code (held.erase (.other m))).Inside n ∧
      (code (held.erase (.other m))).going = none)
    (hk : held = ∅ → k.Inside n ∧ k.going = none) (hs : operate s c held code k op = some (.ok s'))
      :
    pc.Continues chan n (s'.slot p).pc := by
  cases op with
  | acquire m =>
    rw [operate] at hs
    split at hs
    · cases hs
    · exact .jump hs hr ⟨hacq m rfl, .inl nofun⟩
  | release m =>
    rw [operate] at hs
    split at hs
    · obtain ⟨hin, hg⟩ := hrel m rfl
      refine .jump hs hr (.rest ⟨⟨hin, .inl hg⟩, hg⟩)
    · cases hs
  | wakeup ch => exact .jump hs hr ⟨hsame, .inl nofun⟩
  | ret =>
    rw [operate] at hs
    split at hs
    next he => exact .jump hs hr (.rest (hk he))
    · cases hs
  | _ => cases hs

variable {y : Stage}

/-- Past the loop a waiter keeps its lock and does not sleep on the channel. -/
theorem call_continues {op : Op N} (hr : (s.cpu c).runs = some p) (hn : .other n ∈ held)
    (hy : y = .done) (hop : op.other chan n y = true) (hs : call s c held k op = some (.ok s')) :
    pc.Continues chan n (s'.slot p).pc := by
  have hne : held ≠ ∅ := Finset.ne_empty_of_mem hn
  have hcommon : ∀ hs : operate s c held (.kernel · k) k op = some (.ok s'),
      pc.Continues chan n (s'.slot p).pc := by
    refine operate_continues (.kernel · k) hr ⟨hn, rfl⟩ (fun m _ => ⟨?_, rfl⟩) (fun m hm => ⟨?_, rfl⟩)
      fun he => absurd he hne
    · exact Finset.mem_insert_of_mem hn
    · subst hm
      have hm : m ≠ n := by simpa [Op.other] using hop
      exact Finset.mem_erase.mpr ⟨fun he => hm (Lk.other.inj he).symm, hn⟩
  cases op with
  | sleep ch m =>
    rw [call] at hs
    split at hs
    · have hch : ch ≠ chan := (of_decide_eq_true hop).2 hy
      exact .jump hs hr ⟨⟨hn, rfl, hn⟩, .inl fun hg => hch (Option.some.inj hg)⟩
    · cases hs
  | fork | exit | wait _ | kill _ =>
    rw [call, if_neg hne] at hs
    cases hs
  | acquire m | release m | wakeup ch | ret =>
    rw [call] at hs
    · exact hcommon hs
    all_goals nofun

variable {a : Act N M}

/-- A step of a thread in the code that is not a statement of the programs. -/
theorem act_continues (hi : Inv x.toControl) (hc : a.cpu = c) (hr : (x.cpu c).runs = some p)
    (hst : x.stage p ≠ .out) (hin : (x.slot p).pc.Inside n) (hal : x.allows chan n a = true)
    (hs : step x.toState a = some (.ok s')) : (x.slot p).pc.Continues chan n (s'.slot p).pc := by
  have hp := Control.pc_of_runs hr
  cases a with
  | go c' ok =>
    obtain rfl : c' = c := hc
    rw [step, hp] at hs
    exact move_continues hi hr hp hin hs
  | op c' op =>
    obtain rfl : c' = c := hc
    rw [step, hp] at hs
    rw [Sync.allows, hp, hr] at hal
    split at hs
    next held k hpc =>
      rw [hpc] at hal hin
      simp only [decide_eq_true_eq, hst, false_or] at hal
      exact call_continues hr hin hal.1 hal.2 hs
    next held k hpc =>
      rw [hpc] at hin
      exact operate_continues (.handler · k) hr ⟨hin, rfl⟩ (fun _ _ => ⟨hin, rfl⟩)
        (fun _ _ => ⟨hin, rfl⟩) (fun _ => hin) hs
    next => cases hs
  | trap c' cause =>
    obtain rfl : c' = c := hc
    rw [step, hp] at hs
    split at hs
    next hpc =>
      rw [hpc] at hin
      exact hin.elim
    next => cases hs
  | intr c' timer =>
    obtain rfl : c' = c := hc
    rw [step, hp] at hs
    split at hs
    next hc =>
      have hn : (x.slot p).pc.noff (some p) = 0 := hr ▸ hc.2.1
      exact .jump hs hr ⟨⟨⟨hin, hin.not_going hn⟩, rfl⟩, .inl nofun⟩
    next => cases hs

/-- A program is not left between its statements. -/
theorem not_act_of_kernel (hc : a.cpu = c) (hr : (x.cpu c).runs = some p)
    (hpc : (x.slot p).pc = .kernel held k) (hn : .other n ∈ held)
    (hst : x.stage p ≠ .out ∧ x.stage p ≠ .done) (hal : x.allows chan n a = true) :
    step x.toState a ≠ some (.ok s') := by
  have hp := (Control.pc_of_runs hr).trans hpc
  cases a with
  | go c' ok =>
    obtain rfl : c' = c := hc
    rw [step, hp]
    exact nofun
  | op c' op =>
    obtain rfl : c' = c := hc
    rw [Sync.allows, hp, hr] at hal
    simp [hst] at hal
  | trap c' cause =>
    obtain rfl : c' = c := hc
    rw [step, hp, if_neg nofun]
    exact nofun
  | intr c' timer =>
    obtain rfl : c' = c := hc
    rw [step, if_neg]
    · exact nofun
    · rw [hp]
      have hlocks : .other n ∈ (Pc.kernel held k).locks := hn
      exact fun hc => noff_ne_of_mem hlocks hc.2.1

/-- A process on its way to sleep holds its own lock. -/
theorem Inv.runs_eq_of_lock {s : Control N M} {l : Lk} (hi : Inv s) (hlock : (s.slot p).lock = some c)
    (hr : (s.cpu c).runs = some q) (hp : (s.slot p).pc = .sleeping chan l k) : p = q := by
  have hrun : ∃ c', (s.cpu c').runs = some p := by
    by_contra hc
    push Not at hc
    rcases (hi.threads.halted p hc).1 with he | ⟨b, k, he⟩ <;> rw [hp] at he <;> cases he
  obtain ⟨c', hc'⟩ := hrun
  have hlock' := hi.lock_eq (c := c') (q := p) (by rw [Control.pc_of_runs hc', hp, hc']; rfl)
  obtain rfl : c = c' := Option.some.inj (hlock.symm.trans hlock')
  exact Option.some.inj (hc'.symm.trans hr)

/-- While it scans, a notifier does not leave a process asleep behind. -/
theorem scans_move {i : ℕ} (hi : Inv s.toControl) (hr : (s.cpu c).runs = some q)
    (hsc : (s.slot q).pc.Scans chan i) (hs : move s c ok (s.slot q).pc = some (.ok s')) (hne : p ≠ q)
    (hip : i ≤ p.val) (hin : (s.slot p).pc.Inside n) (hlive : Live (s.slot p).state)
    (hd : Drowsy chan n s' p) : ∃ j ≤ p.val, (s'.slot q).pc.Scans chan j := by
  have hq := Control.pc_of_runs hr
  have hmove : ∀ {t : State N M} {k : Pc N} {j : ℕ}, (t.cpu c).runs = some q →
      t.jump c k = some (.ok s') → j ≤ p.val → k.Scans chan j →
      ∃ j ≤ p.val, (s'.slot q).pc.Scans chan j := fun {t k j} hr hs hj hk => by
    cases hs
    exact ⟨j, hj, by rwa [State.on, Control.pc_goto, if_pos hr]⟩
  generalize hpc : (s.slot q).pc = pc at hsc hs
  cases hsc with
  | wakeup i held k =>
    rw [move] at hs
    have hN : i < N := lt_of_le_of_lt hip p.isLt
    rw [dif_pos hN] at hs
    split at hs
    next hproc =>
      have hqi : q = ⟨i, hN⟩ := Option.some.inj ((hi.cpus.runs c q hr).1.symm.trans hproc)
      have : i ≠ p.val := fun he => hne (hqi ▸ Fin.ext he.symm)
      exact hmove hr hs (by omega) (.wakeup ..)
    next => exact hmove hr hs hip (.lock ⟨i, hN⟩ held k)
  | lock j held k =>
    rw [move] at hs
    repeat' split at hs
    all_goals cases hs
    exact ⟨j, hip, by rw [State.on, Control.pc_goto, Control.cpu_setLock, if_pos hr]; exact .wake ..⟩
  | wake j held k =>
    have hlt : j.val < p.val := by
      refine lt_of_le_of_ne hip fun he => ?_
      obtain rfl : j = p := Fin.ext he
      have hlock := hi.lock_eq (c := c) (q := j) (by rw [hq, hpc]; rfl)
      rcases hd with ⟨hg, hl⟩ | ⟨hst, hch⟩
      · have hpj : (s'.slot j).pc = (s.slot j).pc :=
          (move_spec hi (hq.trans hpc) hs).pc j (fun hj => hne (Option.some.inj (hj.symm.trans hr))) hlive
        rw [hpj] at hg hl
        obtain ⟨l, k', hj⟩ := hin.sleeping_of_going hg hl
        exact hne (hi.runs_eq_of_lock hlock hr hj)
      · rw [move] at hs
        split at hs
        · cases hs
          rw [State.on, Control.state_goto, Control.state_setState, if_pos rfl] at hst
          cases hst
        next hno =>
          cases hs
          rw [State.on, Control.state_goto] at hst
          exact hno ⟨hst, hch⟩
    rw [move] at hs
    split at hs
    · cases hs
      refine ⟨j + 1, hlt, ?_⟩
      rw [State.on, Control.pc_goto, Control.cpu_setState, if_pos hr]
      exact .unlock ..
    · exact hmove hr hs hlt (.unlock ..)
  | unlock r i held k =>
    rw [move] at hs
    split at hs
    · cases hs
      exact ⟨i, hip, by rw [State.on, Control.pc_goto, Control.cpu_setLock, if_pos hr]; exact .wakeup ..⟩
    · cases hs

/-- Where a waiter is drowsy after a step, it was before or the condition is false. -/
theorem Synced.drowsy_of_act (h : Synced chan n x) (hi : Inv x.toControl)
    (hal : x.allows chan n a = true) (hs : step x.toState a = some (.ok s'))
    (hp : (x.stage p).Waits) (hd : Drowsy chan n s' p) :
    Drowsy chan n x.toState p ∨ x.cond = false := by
  have hps := step_spec hi hs
  have hout : x.stage p ≠ .out := by rcases hp with he | he | he <;> rw [he] <;> exact nofun
  obtain ⟨hin, hlive⟩ := h.inside p hout
  -- on its way to sleep the process has the lock until it is drowsy
  have hgoing : (x.slot p).pc.going = some chan → Drowsy chan n x.toState p ∨ x.cond = false :=
    fun hg => by
      by_cases hl : .other n ∈ (x.slot p).pc.locks
      · exact .inr (h.going p hp hg hl)
      · exact .inl (.inl ⟨hg, hl⟩)
  rcases hd with ⟨hg, hl⟩ | ⟨hst, hch⟩
  · by_cases hr : (x.cpu a.cpu).runs = some p
    · rcases (act_continues hi rfl hr hout hin hal hs).going with hne | ⟨he, -⟩
      · exact absurd hg hne
      · exact hgoing (he ▸ hg)
    · rw [hps.pc p hr hlive] at hg
      exact hgoing hg
  · rcases hps.asleep p hst with ⟨hst, he⟩ | ⟨l, k, hpc⟩
    · exact .inl (.inr ⟨hst, he ▸ hch⟩)
    · rw [hch] at hpc
      exact hgoing (by rw [hpc]; rfl)

/-- A notifier that has yet to come to a process in the code still has to, or the process is awake. -/
theorem Synced.comes_of_act (h : Synced chan n x) (hi : Inv x.toControl)
    (hal : x.allows chan n a = true) (hs : step x.toState a = some (.ok s'))
    (hp : (x.stage p).Waits) (hd : Drowsy chan n s' p) (hc : Comes chan x q p) :
    Comes chan { x with toState := s' } q p := by
  rcases hc with hset | ⟨hw, i, hip, hsc⟩
  · exact .inl hset
  have hne : p ≠ q := by
    rintro rfl
    rcases hp with he | he | he <;> rw [he] at hw <;> cases hw
  obtain ⟨hinq, hliveq⟩ := h.inside q (by rw [hw]; exact nofun)
  obtain ⟨hin, hlive⟩ := h.inside p (by rcases hp with he | he | he <;> rw [he] <;> exact nofun)
  refine .inr ⟨hw, ?_⟩
  by_cases hr : (x.cpu a.cpu).runs = some q
  · have hq := Control.pc_of_runs hr
    have hlocks := hinq.locks_of_scans hsc
    cases a with
    | go c ok =>
      change x.pc c = _ at hq
      rw [step, hq] at hs
      exact scans_move hi hr hsc hs hne hip hin hlive hd
    | op c op =>
      change x.pc c = _ at hq
      rw [step, hq] at hs
      generalize (x.slot q).pc = pc at hs hsc
      cases hsc <;> cases hs
    | trap c cause =>
      change x.pc c = _ at hq
      rw [step, hq] at hs
      generalize (x.slot q).pc = pc at hs hsc
      cases hsc <;> cases hs
    | intr c timer =>
      change x.pc c = _ at hq
      rw [step, hq, if_neg fun hc => noff_ne_of_mem hlocks hc.2.1] at hs
      cases hs
  · refine ⟨i, hip, ?_⟩
    change (s'.slot q).pc.Scans chan i
    rwa [(step_spec hi hs).pc q hr hliveq]

theorem Synced.act (h : Synced chan n x) (hi : Inv x.toControl) (hal : x.allows chan n a = true)
    (hs : step x.toState a = some (.ok s')) : Synced chan n { x with toState := s' } := by
  have hps := step_spec hi hs
  refine ⟨fun p hp => ?_, fun p hp => ?_, h.unset, h.cond, fun p hp hg hl => ?_, fun p hp hd => ?_⟩
  · obtain ⟨hin, hlive⟩ := h.inside p hp
    refine ⟨?_, hps.live p hlive hin.ne_zombie⟩
    by_cases hr : (x.cpu a.cpu).runs = some p
    · exact (act_continues hi rfl hr hp hin hal hs).inside
    · rwa [hps.pc p hr hlive]
  · have hst : x.stage p ≠ .out ∧ x.stage p ≠ .done := by
      rcases hp with he | he <;> (change x.stage p = _ at he; rw [he]; exact ⟨nofun, nofun⟩)
    obtain ⟨hin, hlive⟩ := h.inside p hst.1
    obtain ⟨held, k, hk⟩ := h.kernel p hp
    by_cases hr : (x.cpu a.cpu).runs = some p
    · rw [hk] at hin
      exact absurd hs (not_act_of_kernel rfl hr hk hin hst hal)
    · exact ⟨held, k, (hps.pc p hr hlive).trans hk⟩
  · have hout : x.stage p ≠ .out := by rcases hp with he | he | he <;> (change x.stage p = _ at he; rw [he]; exact nofun)
    obtain ⟨hin, hlive⟩ := h.inside p hout
    by_cases hr : (x.cpu a.cpu).runs = some p
    · rcases (act_continues hi rfl hr hout hin hal hs).going with hne | ⟨he, hsub⟩
      · exact absurd hg hne
      · exact h.going p hp (he ▸ hg) (hsub hl)
    · change (s'.slot p).pc.going = _ at hg
      change _ ∈ (s'.slot p).pc.locks at hl
      rw [hps.pc p hr hlive] at hg hl
      exact h.going p hp hg hl
  · rcases h.drowsy_of_act hi hal hs hp hd with hd' | hc
    · exact (h.drowsy p hp hd').imp_right fun ⟨q, hq⟩ => ⟨q, h.comes_of_act hi hal hs hp hd hq⟩
    · exact .inl hc

/-- What a statement of process `p` changes. -/
structure Updates (chan : Chan N) (n : ℕ) (x x' : Sync N M) (p : Fin N) : Prop where
  inv : Inv x'.toControl
  stage : ∀ q, q ≠ p → x'.stage q = x.stage q
  slot : ∀ q, q ≠ p → x'.slot q = x.slot q
  data : x'.data = x.data
  running : (x'.slot p).state = .running
  inside : x'.stage p ≠ .out → (x'.slot p).pc.Inside n
  kernel : x'.stage p = .wait ∨ x'.stage p = .set → ∃ held k, (x'.slot p).pc = .kernel held k
  unset : x'.stage p = .wait → x'.cond = false
  set : x'.stage p = .set ∨ x'.stage p = .waking → x'.cond = true
  going : (x'.slot p).pc.going = some chan → x'.cond = false
  cond : x'.cond = x.cond ∧ (∀ q, Comes chan x p q → Comes chan x' p q) ∨
    x'.stage p = .set ∧ x'.cond = true ∧ ∀ q, q ≠ p → .other n ∉ (x.slot q).pc.locks

theorem Updates.drowsy (h : Updates chan n x x' p) (hq : (x'.stage q).Waits)
    (hd : Drowsy chan n x'.toState q) :
    q ≠ p ∧ (x.stage q).Waits ∧ Drowsy chan n x.toState q ∨ x'.cond = false := by
  rcases eq_or_ne q p with rfl | hne
  · rcases hd with ⟨hg, -⟩ | ⟨hs, -⟩
    · exact .inr (h.going hg)
    · rw [h.running] at hs
      cases hs
  · refine .inl ⟨hne, h.stage q hne ▸ hq, ?_⟩
    unfold Drowsy at hd ⊢
    rwa [h.slot q hne, h.data] at hd

theorem Synced.update (h : Synced chan n x) (hu : Updates chan n x x' p) : Synced chan n x' := by
  refine ⟨fun q hq => ?_, fun q hq => ?_, fun q hq => ?_, fun q hq => ?_, fun q hq hg hl => ?_,
    fun q hq hd => ?_⟩
  · rcases eq_or_ne q p with rfl | hne
    · exact ⟨hu.inside hq, .inr (.inr hu.running)⟩
    · rw [hu.slot q hne]
      exact h.inside q (hu.stage q hne ▸ hq)
  · rcases eq_or_ne q p with rfl | hne
    · exact hu.kernel hq
    · rw [hu.slot q hne]
      exact h.kernel q (hu.stage q hne ▸ hq)
  · rcases eq_or_ne q p with rfl | hne
    · exact hu.unset hq
    rw [hu.stage q hne] at hq
    rcases hu.cond with ⟨he, -⟩ | ⟨-, -, hno⟩
    · exact he.trans (h.unset q hq)
    · -- a waiter past its test holds the lock
      obtain ⟨held, k, hpc⟩ := h.kernel q (.inl hq)
      have hin := (h.inside q (by rw [hq]; exact nofun)).1
      have hn := hno q hne
      rw [hpc] at hin hn
      exact absurd hin hn
  · rcases eq_or_ne q p with rfl | hne
    · exact hu.set hq
    rw [hu.stage q hne] at hq
    rcases hu.cond with ⟨he, -⟩ | ⟨-, he, -⟩
    · exact he.trans (h.cond q hq)
    · exact he
  · rcases eq_or_ne q p with rfl | hne
    · exact hu.going hg
    rw [hu.slot q hne] at hg hl
    rw [hu.stage q hne] at hq
    rcases hu.cond with ⟨he, -⟩ | ⟨-, -, hno⟩
    · exact he.trans (h.going q hq hg hl)
    · exact absurd hl (hno q hne)
  · rcases hu.drowsy hq hd with ⟨hne, hq, hd⟩ | hc
    · rcases hu.cond with ⟨he, hcomes⟩ | ⟨hs, -, -⟩
      · refine (h.drowsy q hq hd).imp he.trans fun ⟨r, hr⟩ => ⟨r, ?_⟩
        rcases eq_or_ne r p with rfl | hrp
        · exact hcomes q hr
        · unfold Comes at hr ⊢
          rwa [hu.stage r hrp, hu.slot r hrp]
      · exact .inr ⟨p, .inl hs⟩
    · exact .inl hc

theorem Control.slot_goto_of_ne {s : Control N M} (hr : (s.cpu c).runs = some p) (h : q ≠ p) :
    (s.goto c k).slot q = s.slot q := by
  rw [Control.goto, hr]
  exact Control.slot_setSlot.trans (if_neg h)

theorem Sync.does_eq {op : Op N} (hs : x.does c p op y = some (.ok x')) :
    ∃ s', Sched.step x.toState (.op c op) = some (.ok s') ∧ x' = x.go s' p y := by
  unfold Sync.does at hs
  match hst : Sched.step x.toState (.op c op) with
  | none => simp [hst] at hs
  | some (.error e) => simp [hst, Except.map] at hs
  | some (.ok s') =>
    refine ⟨s', rfl, ?_⟩
    simpa [hst, Except.map, eq_comm] using hs

/-- A statement that goes on at `k`. -/
theorem updates_call (hi : Inv x.toControl) (hinv : Inv s'.toControl) (hr : (x.cpu c).runs = some p)
    (hl : (x.pc c).leaving = false) (hs : x.jump c k = some (.ok s')) (hin : y ≠ .out → k.Inside n)
    (hy : y ≠ .wait ∧ y ≠ .set) (hset : y = .waking → x.cond = true)
    (hgoing : k.going = some chan → x.cond = false)
    (hcomes : ∀ q, Comes chan x p q → y = .waking ∧ k.Scans chan 0) :
    Updates chan n x (x.go s' p y) p := by
  cases hs
  have hpc : ((x.goto c k).slot p).pc = k := by rw [Control.pc_goto, if_pos hr]
  have hstage : (x.go (x.on (x.goto c k)) p y).stage p = y := Function.update_self ..
  refine ⟨hinv, fun q hq => Function.update_of_ne hq _ _, fun q hq => Control.slot_goto_of_ne hr hq, rfl,
    ?_, ?_, ?_, ?_, ?_, ?_, .inl ⟨rfl, fun q hq => ?_⟩⟩
  · exact Control.state_goto.trans (hi.state_of_runs hr (Control.pc_of_runs hr ▸ hl))
  · rw [hstage]
    intro hne
    change ((x.goto c k).slot p).pc.Inside n
    rw [hpc]
    exact hin hne
  · rw [hstage]
    rintro (he | he)
    · exact absurd he hy.1
    · exact absurd he hy.2
  · rw [hstage]
    exact fun he => absurd he hy.1
  · rw [hstage]
    rintro (he | he)
    · exact absurd he hy.2
    · exact hset he
  · intro hg
    change ((x.goto c k).slot p).pc.going = _ at hg
    rw [hpc] at hg
    exact hgoing hg
  · obtain ⟨he, hk⟩ := hcomes q hq
    refine .inr ⟨hstage.trans he, 0, Nat.zero_le _, ?_⟩
    change ((x.goto c k).slot p).pc.Scans chan 0
    rwa [hpc]

/-- A statement that is not a call. -/
theorem updates_turn {b : Bool} (hi : Inv x.toControl) (hr : (x.cpu c).runs = some p)
    (hpc : (x.slot p).pc = .kernel held k) (hn : .other n ∈ held) (hunset : y = .wait → b = false)
    (hset : y = .set ∨ y = .waking → b = true) (hp : x.stage p ≠ .set)
    (hcond : b = x.cond ∨ y = .set ∧ b = true) :
    Updates chan n x { x.go x.toState p y with cond := b } p := by
  have hstage : ({ x.go x.toState p y with cond := b } : Sync N M).stage p = y :=
    Function.update_self ..
  refine ⟨hi, fun q hq => Function.update_of_ne hq _ _, fun _ _ => rfl, rfl,
    hi.state_of_runs hr (by rw [hpc]; rfl), fun _ => ?_, fun _ => ⟨held, k, hpc⟩,
    fun he => hunset (hstage.symm.trans he), fun he => hset (by rwa [hstage] at he), fun hg => ?_, ?_⟩
  · change (x.slot p).pc.Inside n
    rw [hpc]
    exact hn
  · change (x.slot p).pc.going = _ at hg
    rw [hpc] at hg
    cases hg
  · rcases hcond with he | ⟨he, hb⟩
    · refine .inl ⟨he, fun q hq => ?_⟩
      rcases hq with hq | ⟨-, i, -, hsc⟩
      · exact absurd hq hp
      · rw [hpc] at hsc
        cases hsc
    · refine .inr ⟨hstage.trans he, hb, fun q hq hl => hq (hi.holder_eq hl ?_)⟩
      rw [hpc]
      exact hn

theorem Synced.statement_updates (h : Synced chan n x) (hi : Inv x.toControl)
    (hr : (x.cpu c).runs = some p) (hpc : x.pc c = .kernel held k)
    (hs : x.statement chan n c p = some (.ok x')) : Updates chan n x x' p := by
  have hp : (x.slot p).pc = .kernel held k := (Control.pc_of_runs hr).symm.trans hpc
  have hl : (x.pc c).leaving = false := by rw [hpc]; rfl
  have hnc : ∀ q, x.stage p ≠ .set → ¬ Comes chan x p q := by
    rintro q hne (hq | ⟨-, i, -, hsc⟩)
    · exact hne hq
    · rw [hp] at hsc
      cases hsc
  have hheld : x.stage p ≠ .out → .other n ∈ held := fun hne => by
    have hin := (h.inside p hne).1
    rwa [hp] at hin
  have hop : ∀ {op : Op N} {y : Stage}, x.does c p op y = some (.ok x') →
      ∃ s', call x.toState c held k op = some (.ok s') ∧ Inv s'.toControl ∧ x' = x.go s' p y :=
    fun hs => by
      obtain ⟨s', hc, rfl⟩ := Sync.does_eq hs
      have hinv := (step_spec hi hc).inv
      rw [step, hpc] at hc
      exact ⟨s', hc, hinv, rfl⟩
  unfold Sync.statement at hs
  split at hs
  next => cases hs
  next hst =>
    cases hs
    exact updates_turn (b := x.cond) hi hr hp (hheld (by rw [hst]; exact nofun)) (by split <;> simp_all)
      (by split <;> simp) (by rw [hst]; exact nofun) (.inl rfl)
  next hst =>
    obtain ⟨s', hc, hinv, rfl⟩ := hop hs
    have hn := hheld (by rw [hst]; exact nofun)
    rw [call, if_pos hn] at hc
    exact updates_call hi hinv hr hl hc (fun _ => ⟨hn, rfl, hn⟩) ⟨nofun, nofun⟩ nofun (fun _ => h.unset p hst)
      fun q hq => absurd hq (hnc q (by rw [hst]; exact nofun))
  next hst =>
    obtain ⟨s', hc, hinv, rfl⟩ := hop hs
    have hn := hheld (by rw [hst]; exact nofun)
    rw [call, operate, if_pos hn] at hc
    · exact updates_call hi hinv hr hl hc (fun hne => absurd rfl hne) ⟨nofun, nofun⟩ nofun nofun
        fun q hq => absurd hq (hnc q (by rw [hst]; exact nofun))
    all_goals nofun
  next hst =>
    cases hs
    exact updates_turn hi hr hp (hheld (by rw [hst]; exact nofun)) nofun (fun _ => rfl)
      (by rw [hst]; exact nofun) (.inr ⟨rfl, rfl⟩)
  next hst =>
    obtain ⟨s', hc, hinv, rfl⟩ := hop hs
    have hn := hheld (by rw [hst]; exact nofun)
    rw [call, operate] at hc
    · exact updates_call hi hinv hr hl hc (fun _ => ⟨hn, rfl⟩) ⟨nofun, nofun⟩ (fun _ => h.cond p (.inl hst)) nofun
        fun q hq => ⟨rfl, .wakeup ..⟩
    all_goals nofun
  next hst =>
    obtain ⟨s', hc, hinv, rfl⟩ := hop hs
    have hn := hheld (by rw [hst]; exact nofun)
    rw [call, operate, if_pos hn] at hc
    · exact updates_call hi hinv hr hl hc (fun hne => absurd rfl hne) ⟨nofun, nofun⟩ nofun nofun
        fun q hq => absurd hq (hnc q (by rw [hst]; exact nofun))
    all_goals nofun

theorem enter_updates (hi : Inv x.toControl) (hr : (x.cpu c).runs = some p)
    (hpc : x.pc c = .kernel held k) (hp : x.stage p = .out) (hy : y = .notify ∨ y = .loop)
    (hs : x.does c p (.acquire n) y = some (.ok x')) : Updates chan n x x' p := by
  obtain ⟨s', hc, rfl⟩ := Sync.does_eq hs
  have hinv := (step_spec hi hc).inv
  rw [step, hpc] at hc
  change call x.toState c held k (.acquire n) = _ at hc
  rw [call, operate] at hc
  · split at hc
    · cases hc
    · refine updates_call hi hinv hr (by rw [hpc]; rfl) hc
        (fun _ => ⟨Finset.mem_insert_self _ _, rfl⟩) ?_ ?_ nofun ?_
      · rcases hy with rfl | rfl <;> exact ⟨nofun, nofun⟩
      · rcases hy with rfl | rfl <;> exact nofun
      · rintro q (hq | ⟨hq, -⟩) <;> rw [hp] at hq <;> cases hq
  all_goals nofun

/-- A step is one of the machine or a statement of a program. -/
theorem Synced.step_cases {a : Turn N M} (h : Synced chan n x) (hi : Inv x.toControl)
    (hs : Next (Sync.step chan n) x a x') :
    (∃ a s', x.allows chan n a = true ∧ step x.toState a = some (.ok s') ∧
      x' = { x with toState := s' }) ∨ ∃ p, Updates chan n x x' p := by
  cases a with
  | act a =>
    rw [Next, Sync.step] at hs
    split at hs
    next hal =>
      match hst : step x.toState a with
      | none => simp [hst] at hs
      | some (.error e) => simp [hst, Except.map] at hs
      | some (.ok s') =>
        refine .inl ⟨a, s', hal, hst, ?_⟩
        simpa [hst, Except.map, eq_comm] using hs
    next => cases hs
  | enter c notifier =>
    rw [Next, Sync.step] at hs
    split at hs
    next held k p hpc hr =>
      split at hs
      next hp => exact .inr ⟨p, enter_updates hi hr hpc hp (by cases notifier <;> simp) hs⟩
      next => cases hs
    next => cases hs
  | code c =>
    rw [Next, Sync.step] at hs
    split at hs
    next held k p hpc hr => exact .inr ⟨p, h.statement_updates hi hr hpc hs⟩
    next => cases hs

theorem Synced.step {a : Turn N M} (h : Inv x.toControl ∧ Synced chan n x)
    (hs : Next (Sync.step chan n) x a x') : Inv x'.toControl ∧ Synced chan n x' := by
  rcases h.2.step_cases h.1 hs with ⟨a, s', hal, ha, rfl⟩ | ⟨p, hu⟩
  · exact ⟨(step_spec h.1 ha).inv, h.2.act h.1 hal ha⟩
  · exact ⟨hu.inv, h.2.update hu⟩

theorem synced_init [NeZero N] : Synced chan n (Sync.init : Sync N M) where
  inside _ hp := absurd rfl hp
  kernel _ hp := by rcases hp with hp | hp <;> cases hp
  unset _ _ := rfl
  cond _ hp := by rcases hp with hp | hp <;> cases hp
  going _ _ _ _ := rfl
  drowsy _ _ _ := .inl rfl

theorem synced_of_run [NeZero N] {l : List (Turn N M)}
    (hr : Run (Next (Sync.step chan n)) Sync.init l x) : Inv x.toControl ∧ Synced chan n x :=
  hr.invariant (I := fun x => Inv x.toControl ∧ Synced chan n x) (fun _ _ _ _ hs h => Synced.step h hs)
    ⟨inv_init, synced_init⟩

/-! ## After a wakeup -/

/-- The `wakeup(chan)` of notifier `q` has returned. -/
def Sync.Finished (x : Sync N M) (q : Fin N) : Prop :=
  x.stage q = .waking ∧ ∃ held k, (x.slot q).pc = .kernel held k

/-- The condition is true, and no waiter sleeps on the channel or is about to. -/
def Settled (chan : Chan N) (n : ℕ) (x : Sync N M) : Prop :=
  x.cond = true ∧ ∀ p, (x.stage p).Waits → ¬ Drowsy chan n x.toState p

theorem settled_of_finished (hi : Inv x.toControl) (h : Synced chan n x) (hf : x.Finished q) :
    Settled chan n x := by
  obtain ⟨hq, held, k, hpc⟩ := hf
  have hcond := h.cond q (.inr hq)
  have hn : .other n ∈ (x.slot q).pc.locks := by
    have hin := (h.inside q (by rw [hq]; exact nofun)).1
    rw [hpc] at hin ⊢
    exact hin
  refine ⟨hcond, fun p hp hd => ?_⟩
  rcases h.drowsy p hp hd with hc | ⟨r, hr⟩
  · rw [hcond] at hc
    cases hc
  -- another notifier that has yet to come would hold the lock too
  have hrn : .other n ∈ (x.slot r).pc.locks := by
    rcases hr with hr | ⟨hr, i, -, hsc⟩
    · obtain ⟨held', k', hpc'⟩ := h.kernel r (.inr hr)
      have hin := (h.inside r (by rw [hr]; exact nofun)).1
      rw [hpc'] at hin ⊢
      exact hin
    · exact (h.inside r (by rw [hr]; exact nofun)).1.locks_of_scans hsc
  obtain rfl := hi.holder_eq hn hrn
  rcases hr with hr | ⟨-, i, -, hsc⟩
  · rw [hq] at hr
    cases hr
  · rw [hpc] at hsc
    cases hsc

theorem Settled.step {a : Turn N M} (hi : Inv x.toControl) (h : Synced chan n x)
    (hset : Settled chan n x) (hs : Next (Sync.step chan n) x a x') : Settled chan n x' := by
  rcases h.step_cases hi hs with ⟨a, s', hal, ha, rfl⟩ | ⟨p, hu⟩
  · refine ⟨hset.1, fun p hp hd => ?_⟩
    rcases h.drowsy_of_act hi hal ha hp hd with hd | hc
    · exact hset.2 p hp hd
    · rw [hset.1] at hc
      cases hc
  · have hcond : x'.cond = true := by
      rcases hu.cond with ⟨he, -⟩ | ⟨-, he, -⟩
      · exact he.trans hset.1
      · exact he
    refine ⟨hcond, fun q hq hd => ?_⟩
    rcases hu.drowsy hq hd with ⟨-, hq, hd⟩ | hc
    · exact hset.2 q hq hd
    · rw [hcond] at hc
      cases hc

/-- Once a notifier's `wakeup(chan)` has returned, no waiter is `SLEEPING` on `chan` in any state
that follows. -/
theorem no_lost_wakeup [NeZero N] {y : Sync N M} {l l' : List (Turn N M)}
    (hx : Run (Next (Sync.step chan n)) Sync.init l x) (hf : x.Finished q)
    (hy : Run (Next (Sync.step chan n)) x l' y) (p : Fin N) (hp : (y.stage p).Waits) :
    ¬((y.slot p).state = .sleeping ∧ (y.data p).chan = chan) := by
  obtain ⟨hi, h⟩ := synced_of_run hx
  obtain ⟨-, -, hset⟩ := hy.invariant
    (I := fun y => Inv y.toControl ∧ Synced chan n y ∧ Settled chan n y)
    (fun y a y' _ hs ⟨hi, h, hset⟩ => by
      obtain ⟨hi', h'⟩ := Synced.step ⟨hi, h⟩ hs
      exact ⟨hi', h', hset.step hi h hs⟩)
    ⟨hi, h, settled_of_finished hi h hf⟩
  exact fun hs => hset.2 p hp (.inr hs)

/-- The CPU takes `k` steps. -/
def Turn.goes (c : Fin M) (k : ℕ) : List (Turn N M) := List.replicate k (.act (.go c true))

/-- A child sleeps in its loop when its parent makes the condition true and wakes it up. -/
def wakeupTrace : List (Turn 2 2) := List.flatten [
  Turn.goes 0 8, [.act (.op 0 .fork)], Turn.goes 0 15, Turn.goes 1 13, [.act (.trap 1 .syscall)], Turn.goes 1 6,
  [.enter 1 false], Turn.goes 1 1, [.code 1, .code 1], Turn.goes 1 7,
  [.enter 0 true], Turn.goes 0 1, [.code 0, .code 0], Turn.goes 0 6]

/-- The parent releases the lock and the child goes on. -/
def wokenTrace : List (Turn 2 2) := List.flatten [[.code 0], Turn.goes 0 1, Turn.goes 1 13, [.code 1]]

theorem no_lost_wakeup_child : ∃ x y, Run (Next (Sync.step (.addr 1) 0)) Sync.init wakeupTrace x ∧
    x.Finished 0 ∧ (x.slot 1).state = .runnable ∧
    Run (Next (Sync.step (.addr 1) 0)) x wokenTrace y ∧ y.stage 1 = .done ∧
    ¬((y.slot 1).state = .sleeping ∧ (y.data 1).chan = .addr 1) := by
  have heval : (exec (Sync.step (.addr 1) 0) Sync.init wakeupTrace).any (fun x => decide
      ((x.stage 0 = .waking ∧ (x.slot 0).pc = .kernel {.other 0} .usertrapret ∧
        (x.slot 1).state = .runnable) ∧
        (exec (Sync.step (.addr 1) 0) x wokenTrace).any (fun y => decide (y.stage 1 = .done)) =
          true)) = true := by decide +kernel
  obtain ⟨x, hx, ⟨hst, hpc, hrun⟩, hy⟩ := exists_of_exec (Sync.step (.addr 1) 0) heval
  obtain ⟨y, hy, hdone⟩ := exists_of_exec (Sync.step (.addr 1) 0) hy
  have hrx := run_of_exec (Sync.step (.addr 1) 0) hx
  have hry := run_of_exec (Sync.step (.addr 1) 0) hy
  have hf : x.Finished 0 := ⟨hst, _, _, hpc⟩
  exact ⟨x, y, hrx, hf, hrun, hry, hdone, no_lost_wakeup hrx hf hry 1 (.inr (.inr hdone))⟩

end Xv6.Sched

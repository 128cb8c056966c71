import Xv6.Virtio.Requests

/-! # Runs of the disk driver

No step of a call, of the handler or of the device panics, and a call returns only after
the device has executed the request that the call has posted.
-/

namespace Xv6.Virtio

open Function

variable {β : Type} [DecidableEq β]

structure Inv (s : State β) (unread ready : List ℕ) : Prop where
  core : Core (fun b => (s.rw b).phase) s.toShared unread ready
  rw : ∀ b, (s.rw b).locked = true ↔ s.lock = some (.rw b)
  intr : s.intr ≠ .out ↔ s.lock = some .intr
  entry : s.intr = .entry → ready ≠ []

namespace Inv

variable {s s' : State β} {unread ready : List ℕ} {b : β} {x : Chain} {y : Stage}

theorem phase_goto : (fun b' => ((s.goto b y).rw b').phase) =
    update (fun b' => (s.rw b').phase) b y.phase :=
  comp_update Stage.phase s.rw b y

theorem phase_same (h : y.phase = (s.rw b).phase) :
    (fun b' => ((s.goto b y).rw b').phase) = fun b' => (s.rw b').phase := by
  rw [phase_goto, update_eq_self_iff, h]

/-- While a call holds the lock the other calls sleep or have no chain. -/
theorem others_posted (h : Inv s unread ready) (hl : (s.rw b).locked = true) (b' : β) (ph : Phase)
    (x : Chain) (hne : b' ≠ b) (hb' : (s.rw b').phase = some (ph, x)) : ph = .posted := by
  have hlock := (h.rw b).mp hl
  have hnot : (s.rw b').locked = false := by
    by_contra hc
    rw [Bool.not_eq_false, h.rw, hlock, Option.some.injEq, Holder.rw.injEq] at hc
    exact hne hc.symm
  cases hs : s.rw b' with
  | asleep y =>
    rw [hs] at hb'
    cases hb'
    rfl
  | _ => simp_all [Stage.phase, Stage.locked]

/-- The lock after a step of the call that holds it. -/
theorem lock_rw (h : Inv s unread ready) (hl : (s.rw b).locked = true) (b' : β) :
    (update s.rw b y b').locked = true ↔
      (if y.locked then s.lock else none) = some (.rw b') := by
  have hlock := (h.rw b).mp hl
  rcases eq_or_ne b' b with rfl | hne
  · rw [update_self]
    split <;> simp_all
  · rw [update_of_ne hne, h.rw, hlock]
    have : b ≠ b' := hne.symm
    split <;> simp_all

/-- A step of a call that holds the lock. -/
theorem step (h : Inv s unread ready) (hl : (s.rw b).locked = true) {t : Shared β}
    {unread' : List ℕ}
    (hc : Core (update (fun b' => (s.rw b').phase) b y.phase) t unread' ready) :
    Inv { toShared := t, lock := if y.locked then s.lock else none,
          rw := update s.rw b y, intr := s.intr } unread' ready where
  core := by
    change Core (fun b' => ((s.goto b y).rw b').phase) t unread' ready
    rwa [phase_goto]
  rw := h.lock_rw hl
  intr := by
    rw [h.intr, (h.rw b).mp hl]
    split <;> simp
  entry := h.entry

end Inv

/-- The step succeeds and keeps the invariant. -/
def Good (r : Except Panic (State β)) : Prop :=
  ∃ s', r = .ok s' ∧ ∃ unread ready, Inv s' unread ready

variable {s s' : State β} {unread ready : List ℕ} {b : β} {r : Except Panic (State β)}

theorem rwStep_good (h : Inv s unread ready) (hs : s.rwStep b = some r) : Good r := by
  have hc := h.core
  unfold State.rwStep at hs
  split at hs
  next write blockno hst =>
    have hl : (s.rw b).locked = true := by rw [hst]; rfl
    have hp : (s.rw b).phase = none := by rw [hst]; rfl
    obtain ⟨⟨o, d⟩, heq, hal⟩ := s.disk.alloc3Desc_spec
    rw [heq] at hs
    cases o with
    | none =>
      cases hs
      refine ⟨_, rfl, unread, ready, h.step (y := .enter write blockno) hl ?_⟩
      rw [update_eq_self_iff.mpr hp.symm]
      exact hc.rollback hal
    | some x =>
      cases hs
      exact ⟨_, rfl, unread, ready, h.step (y := .format write blockno x) hl (hc.allocated hp hal)⟩
  next write blockno x hst =>
    cases hs
    exact ⟨_, rfl, unread, ready, h.step (y := .post write blockno x) (by rw [hst]; rfl)
      (hc.formatted (by rw [hst]; rfl))⟩
  next write blockno x hst =>
    have hl : (s.rw b).locked = true := by rw [hst]; rfl
    cases hs
    exact ⟨_, rfl, unread, ready, h.step (y := .publish write blockno x) hl
      (hc.staged (by rw [hst]; rfl) (h.others_posted hl))⟩
  next write blockno x hst =>
    have hl : (s.rw b).locked = true := by rw [hst]; rfl
    cases hs
    exact ⟨_, rfl, unread ++ [x.i₀], ready, h.step (y := .wait x) hl
      (hc.published (by rw [hst]; rfl) (h.others_posted hl))⟩
  next x hst =>
    have hl : (s.rw b).locked = true := by rw [hst]; rfl
    have hp : (s.rw b).phase = some (.posted, x) := by rw [hst]; rfl
    cases hs
    refine ⟨_, rfl, unread, ready, ?_⟩
    split
    · refine h.step (y := .asleep x) (t := s.toShared) hl ?_
      rw [update_eq_self_iff.mpr hp.symm]
      exact hc
    next hb => exact h.step (y := .reclaim x) (t := s.toShared) hl (hc.done hp (by simpa using hb))
  next x hst =>
    obtain ⟨d, heq, hc'⟩ := hc.reclaimed (b := b) (x := x) (by rw [hst]; rfl)
    dsimp only at hs heq
    rw [heq] at hs
    cases hs
    exact ⟨_, rfl, unread, ready, h.step (y := .leave) (by rw [hst]; rfl) hc'⟩
  next hst =>
    have hp : (s.rw b).phase = none := by rw [hst]; rfl
    cases hs
    refine ⟨_, rfl, unread, ready, h.step (y := .idle) (t := s.toShared) (by rw [hst]; rfl) ?_⟩
    rw [update_eq_self_iff.mpr hp.symm]
    exact hc
  all_goals cases hs

theorem intrStep_good (h : Inv s unread ready) (hs : s.intrStep = some r) : Good r := by
  have hc := h.core
  unfold State.intrStep at hs
  split at hs
  next => cases hs
  next hst =>
    cases hs
    refine ⟨_, rfl, unread, ready, hc, h.rw, ?_, fun he => ?_⟩
    · rw [← h.intr, hst]
      split <;> simp
    · have hne : s.disk.usedIdx ≠ s.disk.used.idx := by
        by_contra hn
        simp [hn] at he
      exact fun hr => hne (hc.queues.used.empty_iff.mpr hr)
  next hst =>
    obtain ⟨b, x, ready', rfl, hb, -, hcell, hlt, hstat, hbuf⟩ :=
      hc.entry fun he => h.entry hst (hc.queues.used.empty_iff.mp he)
    simp only [hcell, hstat, hbuf, if_neg (Nat.not_le.mpr hlt), ne_eq, not_true_eq_false,
      if_false] at hs
    cases hs
    refine ⟨_, rfl, unread, ready', (hc.handled hb).1, h.rw, ?_, nofun⟩
    rw [← h.intr, hst]
    simp
  next hst =>
    cases hs
    refine ⟨_, rfl, unread, ready, hc, fun b => ?_, by simp, nofun⟩
    have hlock := h.intr.mp (by rw [hst]; exact nofun)
    rw [h.rw, hlock]
    simp

theorem complete_good {i : ℕ} (h : Inv s unread ready) (hs : s.complete i = some r) : Good r := by
  unfold State.complete at hs
  split at hs
  next hm =>
    obtain ⟨b, x, hb, rfl, hf, hc⟩ := h.core.completed hm
    obtain ⟨f, hdata⟩ := hf.data
    have hflags : ¬(VRING_DESC_F_NEXT &&& VRING_DESC_F_NEXT = 0 ∨
        (f ||| VRING_DESC_F_NEXT) &&& VRING_DESC_F_NEXT = 0) := by
      simpa using Disk.or_next_and_next f
    simp only [hf.head, hdata, hf.status, if_neg hflags] at hs
    cases hs
    refine ⟨_, rfl, unread, ready ++ [x.i₀], hc, h.rw, h.intr, fun _ => ?_⟩
    simp
  next => cases hs

/-- No step fails, and every step keeps the invariant. -/
theorem step_good {a : Act β} (h : Inv s unread ready) (hs : s.step a = some r) : Good r := by
  have hc := h.core
  cases a with
  | start b write blockno =>
    rw [State.step] at hs
    split at hs
    next hst =>
      cases hs
      refine ⟨_, rfl, unread, ready, ?_, fun b' => ?_, h.intr, h.entry⟩
      · rw [Inv.phase_same (by rw [hst]; rfl)]
        exact hc
      · change _ ↔ s.lock = some (.rw b')
        rw [← h.rw b']
        rcases eq_or_ne b' b with rfl | hne
        · simp [State.goto, hst, Stage.locked]
        · simp [State.goto, hne]
    next => cases hs
  | acquire b =>
    rw [State.step] at hs
    split at hs
    next hfree =>
      have hnone : ∀ b', (s.rw b').locked = false := fun b' => by
        by_contra hl
        rw [Bool.not_eq_false, h.rw, hfree] at hl
        cases hl
      have hgood : ∀ y : Stage, y.phase = (s.rw b).phase → y.locked = true →
          Good (.ok { s.goto b y with lock := some (.rw b) }) := fun y hy hl => by
        refine ⟨_, rfl, unread, ready, ?_, fun b' => ?_, ?_, h.entry⟩
        · change Core (fun b' => ((s.goto b y).rw b').phase) s.toShared unread ready
          rw [Inv.phase_same hy]
          exact hc
        · rcases eq_or_ne b' b with rfl | hne
          · simp [State.goto, hl]
          · simp [State.goto, hne, hnone, Ne.symm hne]
        · have : s.intr = .out := by
            by_contra hi
            rw [← ne_eq, h.intr, hfree] at hi
            cases hi
          simp [State.goto, this]
      split at hs
      next write blockno hst =>
        cases hs
        exact hgood _ (by rw [hst]; rfl) rfl
      next x hst =>
        cases hs
        exact hgood _ (by rw [hst]; rfl) rfl
      next => cases hs
    next => cases hs
  | run b => exact rwStep_good h hs
  | interrupt =>
    rw [State.step] at hs
    split at hs
    next hfree =>
      cases hs
      refine ⟨_, rfl, unread, ready, hc, fun b => ?_, by simp, nofun⟩
      rw [h.rw, hfree]
      simp
    next => cases hs
  | handle => exact intrStep_good h hs
  | fetch =>
    rw [State.step] at hs
    split at hs
    next => cases hs
    next hne =>
      cases hs
      obtain ⟨unread', hc'⟩ := hc.fetched hne
      exact ⟨_, rfl, unread', ready, hc', h.rw, h.intr, h.entry⟩
  | complete i => exact complete_good h hs

theorem inv_init : Inv (State.init : State β) [] [] where
  core := by
    refine ⟨⟨nofun, fun i => ?_, nofun⟩, nofun, .nil (by decide) (by decide) _,
      .nil (by decide) (by decide) _, by simp [State.init], fun h => ?_, nofun, rfl, le_rfl, nofun,
      fun _ _ => rfl⟩
    · simp [State.init, Stage.phase]
    · simp [State.init, Stage.phase, sent]
  rw b := by simp [State.init, Stage.locked]
  intr := by simp [State.init]
  entry := nofun

theorem inv_of_run {l : List (Act β)} (hr : Run (Next State.step) State.init l s) :
    ∃ unread ready, Inv s unread ready :=
  hr.invariant (I := fun s => ∃ unread ready, Inv s unread ready)
    (fun s a s' _ hs ⟨unread, ready, h⟩ => by
      obtain ⟨t, he, ht⟩ := step_good h hs
      cases he
      exact ht)
    ⟨[], [], inv_init⟩

/-! ## The bookkeeping -/

/-- The request of the call on `b` has been posted and its chain has not been freed. -/
def State.Posted (s : State β) (b : β) (x : Chain) : Prop :=
  s.rw b = .wait x ∨ s.rw b = .asleep x ∨ s.rw b = .reclaim x

omit [DecidableEq β] in
theorem State.Posted.phase {x : Chain} (h : s.Posted b x) :
    ∃ ph, ph ≠ .raw ∧ (s.rw b).phase = some (ph, x) := by
  rcases h with h | h | h <;> rw [h]
  · exact ⟨.posted, nofun, rfl⟩
  · exact ⟨.posted, nofun, rfl⟩
  · exact ⟨.done, nofun, rfl⟩

/-- With the lock free only posted requests have descriptors. -/
theorem Inv.posted_of_phase {x : Chain} {ph : Phase} (h : Inv s unread ready) (hl : s.lock = none)
    (hb : (s.rw b).phase = some (ph, x)) : s.Posted b x := by
  have hnot : (s.rw b).locked = false := by
    by_contra hc
    rw [Bool.not_eq_false, h.rw, hl] at hc
    cases hc
  cases hs : s.rw b with
  | asleep y =>
    rw [hs] at hb
    cases hb
    exact .inr (.inl hs)
  | _ => simp_all [Stage.phase, Stage.locked]

/-- A step sees no completion, or the next one, whose buffer is the only one that it clears. -/
def Clears (s s' : State β) (a : Act β) : Prop :=
  (s'.cleared = s.cleared ∧ ∀ b, s.busy b = true → s'.busy b = true) ∨
    a = .handle ∧ s'.cleared = s.cleared + 1 ∧ ∃ r, s.served[s.cleared]? = some r ∧
      s.busy r.b = true ∧ s'.busy = update s.busy r.b false

theorem rwStep_clears {a : Act β} (hs : s.rwStep b = some (.ok s')) : Clears s s' a := by
  unfold State.rwStep at hs
  split at hs
  next =>
    obtain ⟨⟨o, d⟩, heq, -⟩ := s.disk.alloc3Desc_spec
    rw [heq] at hs
    cases o <;> cases hs <;> exact .inl ⟨rfl, fun _ hb => hb⟩
  next =>
    cases hs
    refine .inl ⟨rfl, fun b' hb' => ?_⟩
    change update s.busy b true b' = true
    rw [update_apply]
    split
    · rfl
    · exact hb'
  next =>
    cases hs
    exact .inl ⟨rfl, fun _ hb => hb⟩
  next =>
    cases hs
    exact .inl ⟨rfl, fun _ hb => hb⟩
  next =>
    cases hs
    refine .inl ?_
    split <;> exact ⟨rfl, fun _ hb => hb⟩
  next x _ =>
    dsimp only at hs
    cases hd : Disk.freeChain { s.disk with
        info := update s.disk.info x.i₀ { s.disk.info x.i₀ with b := none } } x.i₀ with
    | error e =>
      dsimp only at hd
      rw [hd] at hs
      cases hs
    | ok d =>
      dsimp only at hd
      rw [hd] at hs
      cases hs
      exact .inl ⟨rfl, fun _ hb => hb⟩
  next =>
    cases hs
    exact .inl ⟨rfl, fun _ hb => hb⟩
  all_goals cases hs

theorem intrStep_clears (h : Inv s unread ready) (hs : s.intrStep = some (.ok s')) :
    Clears s s' .handle := by
  have hc := h.core
  unfold State.intrStep at hs
  split at hs
  next => cases hs
  next =>
    cases hs
    exact .inl ⟨rfl, fun _ hb => hb⟩
  next hst =>
    obtain ⟨b, x, ready', rfl, hb, hbusy, hcell, hlt, hstat, hbuf⟩ :=
      hc.entry fun he => h.entry hst (hc.queues.used.empty_iff.mp he)
    obtain ⟨r, hr, hrb⟩ := Option.map_eq_some_iff.mp (hc.handled hb).2
    simp only [hcell, hstat, hbuf, if_neg (Nat.not_le.mpr hlt), ne_eq, not_true_eq_false,
      if_false] at hs
    cases hs
    subst hrb
    exact .inr ⟨rfl, rfl, r, hr, hbusy, rfl⟩
  next =>
    cases hs
    exact .inl ⟨rfl, fun _ hb => hb⟩

theorem step_clears {a : Act β} (h : Inv s unread ready) (hs : Next State.step s a s') :
    Clears s s' a := by
  have hsame : ∀ {t : State β}, t.cleared = s.cleared → t.busy = s.busy → Clears s t a :=
    fun h₁ h₂ => .inl ⟨h₁, fun b hb => h₂ ▸ hb⟩
  cases a with
  | run b => exact rwStep_clears hs
  | handle => exact intrStep_clears h hs
  | start b write blockno =>
    rw [Next, State.step] at hs
    split at hs <;> cases hs
    exact hsame rfl rfl
  | acquire b =>
    rw [Next, State.step] at hs
    repeat' split at hs
    all_goals cases hs
    all_goals exact hsame rfl rfl
  | interrupt =>
    rw [Next, State.step] at hs
    split at hs <;> cases hs
    exact hsame rfl rfl
  | fetch =>
    rw [Next, State.step] at hs
    split at hs <;> cases hs
    exact hsame rfl rfl
  | complete i =>
    rw [Next, State.step, State.complete] at hs
    split at hs
    · dsimp only at hs
      repeat' split at hs
      all_goals cases hs
      exact hsame rfl rfl
    · cases hs

/-- When `virtio_disk_intr` finds no entry it has seen every completion. -/
theorem cleared_of_loop (h : Inv s unread ready) (hu : s.disk.usedIdx = s.disk.used.idx) :
    s.cleared = s.served.length := by
  have hq := h.core.queues
  have hcomp := hq.completed
  rw [hq.used.empty_iff.mp hu, List.map_nil] at hcomp
  have hlen := congrArg List.length hcomp
  rw [List.length_nil, List.length_map, List.length_drop] at hlen
  have := hq.cleared
  omega

/-- In every run of the driver and the device: with `vdisk_lock` free the descriptors in use are the
disjoint chains of the requests posted and not reclaimed; completions are seen one by one, each once,
and clear the flag of their own buffer only; `virtio_disk_intr` leaves its loop when it has seen all;
a call returns with all its requests done, in order; the entry of the `avail` ring that is written next
is not one that the device has yet to read; and nothing panics. -/
theorem virtio_requests {l : List (Act β)} (hr : Run (Next State.step) State.init l s) :
    (s.lock = none →
      (∀ i, i < NUM → (s.disk.free i = false ↔ ∃ b x, s.Posted b x ∧ i ∈ x.toList)) ∧
      ∀ b x, s.Posted b x →
        (x.toList.Nodup ∧ (s.disk.desc x.i₀).next = x.i₁ ∧ (s.disk.desc x.i₁).next = x.i₂) ∧
        ∀ b' x', s.Posted b' x' → b' ≠ b → x.toList.Disjoint x'.toList) ∧
    (∀ a s', Next State.step s a s' → Clears s s' a) ∧
    (∀ s', s.intr = .loop → Next State.step s .handle s' → s'.intr = .leave →
      s.cleared = s.served.length) ∧
    (∀ b, s.rw b = .leave → requestsOf b s.served = requestsOf b s.posted) ∧
    (∀ b write blockno x, s.rw b = .post write blockno x →
      ∀ j, j < (s.disk.avail.idx + IDX - s.dev.lastAvail) % IDX →
        (s.dev.lastAvail + j) % NUM ≠ s.disk.avail.idx % NUM) ∧
    ∀ a e, s.step a ≠ some (.error e) := by
  obtain ⟨unread, ready, h⟩ := inv_of_run hr
  have hc := h.core
  refine ⟨fun hl => ⟨fun i hi => ?_, fun b x hb => ?_⟩, fun a s' => step_clears h,
    fun s' hst hs hleave => ?_, fun b hb => ?_, fun b write blockno x hb j hj => ?_, fun a e hs => ?_⟩
  · constructor
    · intro hf
      obtain ⟨b, x, hb, hix⟩ := (hc.own.taken i).mp ⟨hi, hf⟩
      obtain ⟨⟨ph, y⟩, hp, rfl⟩ := Option.map_eq_some_iff.mp hb
      exact ⟨b, y, h.posted_of_phase hl hp, hix⟩
    · rintro ⟨b, x, hb, hix⟩
      obtain ⟨ph, -, hp⟩ := hb.phase
      exact (hc.lt hp hix).2
  · obtain ⟨ph, hraw, hp⟩ := hb.phase
    obtain ⟨hf, -⟩ := (hc.shape b ph x hp).formatted hraw
    obtain ⟨f, hdata⟩ := hf.data
    refine ⟨⟨hc.own.nodup b x (Core.own_of hp), by rw [hf.head], by rw [hdata]⟩,
      fun b' x' hb' hne i hi hi' => ?_⟩
    obtain ⟨ph', -, hp'⟩ := hb'.phase
    exact hc.not_mem hp hp' hne hi' hi
  · rw [Next, State.step, State.intrStep, hst] at hs
    cases hs
    refine cleared_of_loop h ?_
    by_contra hne
    simp [hne] at hleave
  · refine (hc.queues.settled b fun x hx => ?_).symm
    rw [hb] at hx
    cases hx
  · have hlen := hc.queues.avail.length_eq
    have hp : (s.rw b).phase = some (.formatted (blkReq write blockno), x) := by rw [hb]; rfl
    have hroom := hc.room hp nofun
    rw [hlen] at hj
    rw [hc.queues.avail.index]
    exact Fifo.mod_ne hj (by omega)
  · obtain ⟨s', he, -⟩ := step_good h hs
    cases he

/-- Two requests are posted, and the device completes the second one first. -/
def overtakeTrace : List (Act ℕ) :=
  [.start 0 false 5, .acquire 0, .run 0, .run 0, .run 0, .run 0, .run 0,
   .start 1 true 6, .acquire 1, .run 1, .run 1, .run 1, .run 1, .run 1, .fetch, .fetch, .complete 3,
   .interrupt, .handle, .handle, .handle, .handle, .acquire 1, .run 1, .run 1]

/-- The second call returns after its own request. -/
theorem virtio_requests_overtake : ∃ s : State ℕ,
    Run (Next State.step) State.init overtakeTrace s ∧
    s.rw 1 = .leave ∧ requestsOf 1 s.served = requestsOf 1 s.posted := by
  have heval : (exec State.step (State.init : State ℕ) overtakeTrace).any
      (fun s => decide (s.rw 1 = .leave)) = true := by decide +kernel
  obtain ⟨s, he, hs⟩ := exists_of_exec State.step heval
  have hr := run_of_exec State.step he
  exact ⟨s, hr, hs, (virtio_requests hr).2.2.2.1 1 hs⟩

end Xv6.Virtio

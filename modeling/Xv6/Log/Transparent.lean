import Xv6.Log.Journal
import Xv6.Log.Protocol

/-! # The cache and the log together

Processes read, modify, log and release buffers, and the last operation to end
commits. The history variables keep what was logged last for each block, which
blocks are logged and not yet installed, and which buffers are modified and not
yet logged. The cache shows for each block what was logged last, or the disk.
-/

namespace Xv6.Journal

open Buffer Function

/-- `log_write` of a buffer: the list, and the pin of a block that is new on it. -/
def logWriteBuf (i : Fin NBUF) : M Unit := do
  let s ← get
  match logWrite s.log (s.buf i).blockno with
  | .error e => throw e
  | .ok log =>
    if (s.buf i).blockno ∉ s.log.lh then bpin i
    modify fun s => { s with log := log }

/-- The cache and the log with their processes, whose pids are their numbers. -/
structure System (n : ℕ) where
  machine : Machine
  pc : Fin n → Pc
  /-- The contents logged last. -/
  last : ℕ → Option Block
  /-- The blocks that are logged and not yet installed. -/
  uninstalled : List ℕ
  /-- The buffers that are modified and not yet logged. -/
  dirty : Finset (Fin NBUF)

inductive Call
  | enter
  | beginOp
  | bread (b : ℕ)
  /-- Store into the data of a buffer. -/
  | modify (i : Fin NBUF) (data : Block)
  | logWrite (i : Fin NBUF)
  | brelse (i : Fin NBUF)
  | endOp
  | commit
  | clear
  | unlock

variable {n b : ℕ} {i : Fin NBUF} {u : Unit}

namespace System

def goto (σ : System n) (p : Fin n) (machine : Machine) (pc : Pc) : System n :=
  { σ with machine := machine, pc := update σ.pc p pc }

/-- Run a command of process `p` and go on; a process that has to sleep makes no step. -/
def run {α : Type} (σ : System n) (m : M α) (k : α → Machine → System n) :
    Option (Except Halt (System n)) :=
  match m σ.machine with
  | .ok a t => some (.ok (k a t))
  | .error .sleep _ => none
  | .error e _ => some (.error e)

def withLog (σ : System n) (log : Log) : Machine := { σ.machine with log := log }

/-- A step inside `commit`. -/
def commitStep (σ : System n) (p : Fin n) : Option (Except Halt (System n)) :=
  let lh := σ.machine.log.lh
  match σ.pc p with
  | .commit => some (.ok (σ.goto p σ.machine (if lh.length > 0 then .writeLog 0 else .unlock)))
  | .writeLog tail =>
    match lh[tail]? with
    | some b => σ.run (writeLogAt p tail b) fun _ t => σ.goto p t (.writeLog (tail + 1))
    | none => some (.ok (σ.goto p σ.machine .writeHead))
  | .writeHead => σ.run (writeHead p) fun _ t => σ.goto p t (.installTrans 0)
  | .installTrans tail =>
    match lh[tail]? with
    | some b => σ.run (installAt p false tail b) fun _ t =>
        { σ with uninstalled := σ.uninstalled.erase b }.goto p t (.installTrans (tail + 1))
    | none => some (.ok (σ.goto p σ.machine .clear))
  | .eraseHead => σ.run (writeHead p) fun _ t => σ.goto p t .unlock
  | _ => none

/-- The buffer is locked by the process. -/
def Holds (σ : System n) (p : Fin n) (i : Fin NBUF) : Prop :=
  (σ.machine.buf i).lock = some p.val

instance (σ : System n) (p : Fin n) (i : Fin NBUF) : Decidable (σ.Holds p i) :=
  inferInstanceAs (Decidable (_ = _))

instance (start size b : ℕ) : Decidable (InLog start size b) :=
  inferInstanceAs (Decidable (_ ∧ _))

/-- One call of process `p`. Buffers are modified and logged by their holder inside an operation,
logged blocks lie outside the log area, and what is modified is logged before it is released. -/
def step (σ : System n) : Fin n × Call → Option (Except Halt (System n))
  | (p, call) =>
    let log := σ.machine.log
    match call, σ.pc p with
    | .enter, .idle => some (.ok (σ.goto p σ.machine .waiting))
    | .beginOp, .waiting =>
      match beginOp log with
      | some log => some (.ok (σ.goto p (σ.withLog log) (.running [])))
      | none => some (.ok σ)
    | .bread b, _ => σ.run (bread p ROOTDEV b) fun _ t => { σ with machine := t }
    | .modify i data, .running _ =>
      if σ.Holds p i then
        some (.ok { σ with
          machine := σ.machine.withBuf i { σ.machine.buf i with data := data }
          dirty := insert i σ.dirty })
      else none
    | .logWrite i, .running bs =>
      let b := (σ.machine.buf i).blockno
      if σ.Holds p i ∧ ¬ InLog log.start log.size b then
        σ.run (logWriteBuf i) fun _ t => { σ with
          machine := t
          pc := update σ.pc p (.running (b :: bs))
          last := update σ.last b (some (σ.machine.buf i).data)
          uninstalled := if b ∈ log.lh then σ.uninstalled else σ.uninstalled ++ [b]
          dirty := σ.dirty.erase i }
      else none
    | .brelse i, _ =>
      if σ.Holds p i ∧ i ∉ σ.dirty then σ.run (brelse p i) fun _ t => { σ with machine := t }
      else none
    | .endOp, .running _ =>
      if ∀ i ∈ σ.dirty, ¬ σ.Holds p i then
        match endOp log with
        | .error e => some (.error e)
        | .ok (log, doCommit) =>
          some (.ok (σ.goto p (σ.withLog log) (if doCommit then .commit else .idle)))
      else none
    | .commit, _ => σ.commitStep p
    | .clear, .clear => some (.ok (σ.goto p (σ.withLog { log with lh := [] }) .eraseHead))
    | .unlock, .unlock =>
      some (.ok (σ.goto p (σ.withLog { log with committing := false }) .idle))
    | _, _ => none

/-- The contents of a block for the processes: what was logged last, or the disk. -/
def view (σ : System n) (b : ℕ) : Block := (σ.last b).getD (σ.machine.disk b)

/-- The log and the processes alone. -/
def protocol (σ : System n) : State (Fin n) := ⟨σ.machine.log, σ.pc⟩

/-- What is on the disk while a process commits. -/
def Phase (σ : System n) : Pc → Prop
  | .commit => σ.uninstalled = σ.machine.log.lh
  | .writeLog tail => σ.uninstalled = σ.machine.log.lh ∧ ∀ t b, t < tail →
      σ.machine.log.lh[t]? = some b → σ.machine.disk (σ.machine.log.start + t + 1) = σ.view b
  | .writeHead => σ.uninstalled = σ.machine.log.lh ∧ ∀ t b,
      σ.machine.log.lh[t]? = some b → σ.machine.disk (σ.machine.log.start + t + 1) = σ.view b
  | .installTrans tail => σ.uninstalled = σ.machine.log.lh.drop tail ∧ ∀ t b,
      σ.machine.log.lh[t]? = some b → σ.machine.disk (σ.machine.log.start + t + 1) = σ.view b
  | .clear => σ.uninstalled = []
  | .eraseHead | .unlock => σ.uninstalled = [] ∧ σ.machine.log.lh = []
  | _ => True

structure Good (σ : System n) : Prop where
  protocol : Consistent σ.protocol
  dev : σ.machine.log.dev = ROOTDEV
  inv : Inv σ.machine σ.uninstalled σ.dirty σ.view
  home : ∀ b ∈ σ.machine.log.lh, ¬ InLog σ.machine.log.start σ.machine.log.size b
  fits : σ.machine.log.lh.length < σ.machine.log.size
  area : ∀ b, InLog σ.machine.log.start σ.machine.log.size b → σ.last b = none
  dirty : ∀ i ∈ σ.dirty, ∃ p bs, σ.Holds p i ∧ σ.pc p = .running bs
  pins : σ.uninstalled.Sublist σ.machine.log.lh
  quiet : σ.machine.log.committing = false → σ.uninstalled = σ.machine.log.lh
  phase : ∀ p, σ.Phase (σ.pc p)

theorem run_eq_ok {α : Type} {σ σ' : System n} {m : M α} {k : α → Machine → System n}
    (h : σ.run m k = some (.ok σ')) : ∃ a t, m σ.machine = .ok a t ∧ σ' = k a t := by
  unfold run at h
  split at h
  next a t hm =>
    cases h
    exact ⟨a, t, hm, rfl⟩
  next => cases h
  next => cases h

theorem logWriteBuf_eq_ok {s t : Machine} (h : logWriteBuf i s = .ok u t) :
    ∃ log, logWrite s.log (s.buf i).blockno = .ok log ∧
      t = { (if (s.buf i).blockno ∈ s.log.lh then s
        else s.withBuf i { s.buf i with refcnt := (s.buf i).refcnt + 1 }) with log := log } := by
  have hspec : wp (logWriteBuf i) (fun _ _ => True) (fun _ t => ∃ log,
      logWrite s.log (s.buf i).blockno = .ok log ∧
      t = { (if (s.buf i).blockno ∈ s.log.lh then s
        else s.withBuf i { s.buf i with refcnt := (s.buf i).refcnt + 1 }) with log := log }) s := by
    unfold logWriteBuf
    simp only [wp_bind, wp_get]
    split
    next => trivial
    next log hlog =>
      simp only [wp_bind, wp_ite, bpin, wp_get, wp_setBuf, wp_modify]
      constructor
      · intro hb
        exact ⟨log, hlog, by rw [if_neg hb]⟩
      · intro hb
        exact ⟨log, hlog, by rw [if_pos (not_not.mp hb)]⟩
  exact hspec.ok h

section phase

variable {σ σ' : System n} {c : Pc}

theorem phase_of_not_commits (h : ¬ c.Commits) : σ.Phase c := by
  cases c <;> first | trivial | exact absurd trivial h

theorem Phase.congr (h : σ.Phase c) (hu : σ'.uninstalled = σ.uninstalled)
    (hlh : σ'.machine.log.lh = σ.machine.log.lh)
    (hstart : σ'.machine.log.start = σ.machine.log.start)
    (hdisk : σ'.machine.disk = σ.machine.disk) (hlast : σ'.last = σ.last) : σ'.Phase c := by
  have he : σ'.Phase c = σ.Phase c := by
    unfold Phase view
    rw [hu, hlh, hstart, hdisk, hlast]
  rw [he]
  exact h

end phase

namespace Good

variable {σ : System n} {p : Fin n}

/-- While a process commits no buffer is modified. -/
theorem dirty_eq_empty (h : Good σ) (hc : σ.machine.log.committing = true) : σ.dirty = ∅ := by
  refine Finset.eq_empty_of_forall_notMem fun i hi => ?_
  obtain ⟨q, bs, -, hq⟩ := h.dirty i hi
  exact h.protocol.not_running hc q bs hq

theorem not_commits (h : Good σ) {q : Fin n} (hp : (σ.pc p).Commits) (hq : q ≠ p) :
    ¬ (σ.pc q).Commits := fun hc => hq (h.protocol.exclusive q p hc hp)

theorem not_commits_of_quiet (h : Good σ) (hc : σ.machine.log.committing = false) (q : Fin n) :
    ¬ (σ.pc q).Commits := by
  intro hq
  have := h.protocol.commits q hq
  rw [show σ.protocol.log.committing = false from hc] at this
  cases this

/-- Who holds a modified buffer is inside an operation. -/
theorem running_of_dirty (h : Good σ) (hi : i ∈ σ.dirty) (hl : σ.Holds p i) :
    ∃ bs, σ.pc p = .running bs := by
  obtain ⟨q, bs, hq, hpc⟩ := h.dirty i hi
  have he : some p.val = some q.val := hl.symm.trans hq
  obtain rfl : p = q := Fin.ext (Option.some.inj he)
  exact ⟨bs, hpc⟩

/-- A process moves on and the log changes, but not the cache. -/
theorem goto_log {a : Act} {log : Log} {pc : Pc} (h : Good σ)
    (hn : Next Journal.step σ.protocol (p, a) (σ.goto p (σ.withLog log) pc).protocol)
    (hlh : log.lh = σ.machine.log.lh ∨ log.lh = []) (hstart : log.start = σ.machine.log.start)
    (hsize : log.size = σ.machine.log.size) (hdev : log.dev = σ.machine.log.dev)
    (hdirty : ∀ i ∈ σ.dirty, σ.Holds p i → ∃ bs, pc = .running bs)
    (hpins : σ.uninstalled.Sublist log.lh)
    (hquiet : log.committing = false → σ.uninstalled = log.lh)
    (hself : (σ.goto p (σ.withLog log) pc).Phase pc)
    (hrest : ∀ q, q ≠ p → (σ.goto p (σ.withLog log) pc).Phase (σ.pc q)) :
    Good (σ.goto p (σ.withLog log) pc) where
  protocol := h.protocol.next hn
  dev := hdev.trans h.dev
  inv := { h.inv with }
  home b hb := by
    change b ∈ log.lh at hb
    change ¬ InLog log.start log.size b
    rw [hstart, hsize]
    rcases hlh with he | he
    · exact h.home b (he ▸ hb)
    · rw [he] at hb
      cases hb
  fits := by
    change log.lh.length < log.size
    rw [hsize]
    rcases hlh with he | he
    · rw [he]
      exact h.fits
    · rw [he]
      exact Nat.zero_lt_of_lt h.fits
  area b hb := by
    change InLog log.start log.size b at hb
    rw [hstart, hsize] at hb
    exact h.area b hb
  dirty i hi := by
    obtain ⟨q, bs, hq, hpc⟩ := h.dirty i hi
    by_cases hqp : q = p
    · subst hqp
      obtain ⟨bs', rfl⟩ := hdirty i hi hq
      exact ⟨q, bs', hq, update_self ..⟩
    · exact ⟨q, bs, hq, (update_of_ne hqp ..).trans hpc⟩
  pins := hpins
  quiet := hquiet
  phase := (forall_update_iff σ.pc fun _ c => (σ.goto p (σ.withLog log) pc).Phase c).mpr
    ⟨hself, hrest⟩

/-- The cache changes, but neither the disk nor the log. -/
theorem withMachine {t : Machine} (h : Good σ) (hlog : t.log = σ.machine.log)
    (hdisk : t.disk = σ.machine.disk) (hinv : Inv t σ.uninstalled σ.dirty σ.view)
    (hlock : ∀ i ∈ σ.dirty, (t.buf i).lock = (σ.machine.buf i).lock) :
    Good { σ with machine := t } where
  protocol := by
    have hp : ({ σ with machine := t } : System n).protocol = σ.protocol := by
      simp only [System.protocol, hlog]
    rw [hp]
    exact h.protocol
  dev := by rw [hlog]; exact h.dev
  inv := by
    have hv : ({ σ with machine := t } : System n).view = σ.view := by
      unfold view
      simp only [hdisk]
    rw [hv]
    exact hinv
  home := by rw [hlog]; exact h.home
  fits := by rw [hlog]; exact h.fits
  area := by rw [hlog]; exact h.area
  dirty i hi := by
    obtain ⟨q, bs, hq, hpc⟩ := h.dirty i hi
    exact ⟨q, bs, (hlock i hi).trans hq, hpc⟩
  pins := by rw [hlog]; exact h.pins
  quiet := by rw [hlog]; exact h.quiet
  phase q := (h.phase q).congr rfl (by rw [hlog]) (by rw [hlog]) hdisk rfl

theorem next_bread {t : Machine} (h : Good σ) (hm : bread p ROOTDEV b σ.machine = .ok i t) :
    Good { σ with machine := t } := by
  have hspec : wp (bread p ROOTDEV b) (fun _ _ => True)
      (fun _ t => Good { σ with machine := t }) σ.machine := by
    refine h.inv.wp_bread (fun _ _ _ _ => trivial) fun i t hl hf _ hinv => ?_
    refine h.withMachine hf.log hf.disk hinv fun j hj => ?_
    have hji : j ≠ i := by
      rintro rfl
      exact h.inv.held j hj hl
    rw [hf.buf j hji]
  exact hspec.ok hm

theorem next_brelse {t : Machine} (h : Good σ) (hl : σ.Holds p i) (hi : i ∉ σ.dirty)
    (hm : brelse p i σ.machine = .ok u t) : Good { σ with machine := t } := by
  have hspec : wp (brelse p i) (fun _ _ => True)
      (fun _ t => Good { σ with machine := t }) σ.machine := by
    refine h.inv.wp_brelse hl hi fun t hf _ hinv => ?_
    refine h.withMachine hf.log hf.disk hinv fun j hj => ?_
    have hji : j ≠ i := by
      rintro rfl
      exact hi hj
    rw [hf.buf j hji]
  exact hspec.ok hm

/-- Storing into a buffer that a running operation holds. -/
theorem next_modify {data : Block} {bs : List ℕ} (h : Good σ) (hpc : σ.pc p = .running bs)
    (hl : σ.Holds p i) :
    Good { σ with
      machine := σ.machine.withBuf i { σ.machine.buf i with data := data }
      dirty := insert i σ.dirty } := by
  have hlock : ∀ j, ((σ.machine.withBuf i { σ.machine.buf i with data := data }).buf j).lock =
      (σ.machine.buf j).lock := by
    intro j
    by_cases hji : j = i
    · subst hji
      rw [withBuf_buf_self]
    · rw [withBuf_buf_of_ne hji]
  have hinv : Inv (σ.machine.withBuf i { σ.machine.buf i with data := data }) σ.uninstalled
      ↑(insert i σ.dirty) σ.view := by
    rw [Finset.coe_insert]
    have hn : (σ.machine.buf i).lock ≠ none := by simp [show _ = some p.val from hl]
    exact h.inv.wp_store (E := fun _ _ => True)
      (Q := fun _ t => Inv t σ.uninstalled (insert i ↑σ.dirty) σ.view) hn fun _ _ _ hi => hi
  exact {
    protocol := h.protocol
    dev := h.dev
    inv := hinv
    home := h.home
    fits := h.fits
    area := h.area
    dirty := fun j hj => by
      rcases Finset.mem_insert.mp hj with rfl | hj
      · exact ⟨p, bs, (hlock j).trans hl, hpc⟩
      · obtain ⟨q, bs', hq, hqpc⟩ := h.dirty j hj
        exact ⟨q, bs', (hlock j).trans hq, hqpc⟩
    pins := h.pins
    quiet := h.quiet
    phase := fun q => (h.phase q).congr rfl rfl rfl rfl rfl }

/-- Logging a buffer that a running operation holds. -/
theorem next_logWrite {bs : List ℕ} {t : Machine} (h : Good σ) (hpc : σ.pc p = .running bs)
    (hl : σ.Holds p i)
    (hb : ¬ InLog σ.machine.log.start σ.machine.log.size (σ.machine.buf i).blockno)
    (hm : logWriteBuf i σ.machine = .ok u t) :
    Good { σ with
      machine := t
      pc := update σ.pc p (.running ((σ.machine.buf i).blockno :: bs))
      last := update σ.last (σ.machine.buf i).blockno (some (σ.machine.buf i).data)
      uninstalled := if (σ.machine.buf i).blockno ∈ σ.machine.log.lh then σ.uninstalled
        else σ.uninstalled ++ [(σ.machine.buf i).blockno]
      dirty := σ.dirty.erase i } := by
  obtain ⟨log, hlog, rfl⟩ := logWriteBuf_eq_ok hm
  have hn : (σ.machine.buf i).lock ≠ none := by simp [show _ = some p.val from hl]
  have hquiet : σ.machine.log.committing = false := by
    rw [← Bool.not_eq_true]
    exact fun hc => h.protocol.not_running hc p bs hpc
  have huninst := h.quiet hquiet
  have hlen := length_of_logWrite hlog
  have hnc := h.not_commits_of_quiet hquiet
  set b := (σ.machine.buf i).blockno with hbdef
  set s₁ := if b ∈ σ.machine.log.lh then σ.machine
    else σ.machine.withBuf i { σ.machine.buf i with refcnt := (σ.machine.buf i).refcnt + 1 } with hs₁
  have hnext : Next Journal.step σ.protocol (p, .logWrite b)
      ⟨log, update σ.pc p (.running (b :: bs))⟩ := by
    simp [Next, Journal.step, System.protocol, hpc, move, hlog, Except.map, State.goto]
  have hdisk : s₁.disk = σ.machine.disk := by
    rw [hs₁]
    split <;> rfl
  have hlock : ∀ j, (s₁.buf j).lock = (σ.machine.buf j).lock := by
    intro j
    rw [hs₁]
    split
    · rfl
    · obtain ⟨r, hr⟩ := Inv.refcnt_withBuf σ.machine i ((σ.machine.buf i).refcnt + 1) j
      rw [hr]
  have hview : (fun c => (update σ.last b (some (σ.machine.buf i).data) c).getD (s₁.disk c))
      = update σ.view b (σ.machine.buf i).data := by
    funext c
    by_cases hc : c = b
    · rw [hc, update_self, update_self, Option.getD_some]
    · rw [update_of_ne hc, update_of_ne hc, hdisk, view]
  have hinv : Inv s₁ (if b ∈ σ.machine.log.lh then σ.uninstalled else σ.uninstalled ++ [b])
      (↑σ.dirty \ {i}) (update σ.view b (σ.machine.buf i).data) := by
    rw [hs₁]
    split
    next hmem => exact h.inv.absorb hn (by rw [huninst]; exact hmem)
    next hmem => exact h.inv.pin hn (by rw [huninst]; exact hmem)
  have hlh : log = { σ.machine.log with lh := if b ∈ σ.machine.log.lh then σ.machine.log.lh
      else σ.machine.log.lh ++ [b] } := by
    rcases (logWrite_eq_ok hlog).2 with ⟨hmem, rfl⟩ | ⟨hmem, rfl⟩
    · rw [if_pos hmem]
    · rw [if_neg hmem]
  exact {
    protocol := h.protocol.next hnext
    dev := by rw [hlh]; exact h.dev
    inv := by
      rw [show (({ σ with
        machine := { s₁ with log := log }
        pc := update σ.pc p (.running (b :: bs))
        last := update σ.last b (some (σ.machine.buf i).data)
        uninstalled := if b ∈ σ.machine.log.lh then σ.uninstalled else σ.uninstalled ++ [b]
        dirty := σ.dirty.erase i } : System n).view) = _ from hview, Finset.coe_erase]
      exact { hinv with }
    home := by
      rw [hlh]
      intro c hc
      dsimp only at hc
      split at hc
      · exact h.home c hc
      · rcases List.mem_append.mp hc with hc | hc
        · exact h.home c hc
        · rw [List.mem_singleton.mp hc]
          exact hb
    fits := by
      rw [hlh]
      dsimp only
      split
      · exact h.fits
      · rw [List.length_append, List.length_singleton]
        exact hlen
    area := by
      rw [hlh]
      intro c hc
      have hne : c ≠ b := by
        rintro rfl
        exact hb hc
      exact (update_of_ne hne ..).trans (h.area c hc)
    dirty := fun j hj => by
      obtain ⟨q, bs', hq, hqpc⟩ := h.dirty j (Finset.mem_of_mem_erase hj)
      by_cases hqp : q = p
      · subst hqp
        exact ⟨q, b :: bs, (hlock j).trans hq, update_self ..⟩
      · exact ⟨q, bs', (hlock j).trans hq, (update_of_ne hqp ..).trans hqpc⟩
    pins := by rw [hlh, huninst]
    quiet := fun _ => by rw [hlh, huninst]
    phase := (forall_update_iff σ.pc _).mpr
      ⟨trivial, fun q _ => phase_of_not_commits (hnc q)⟩ }

section rounds

variable {t : Machine} {x : ℕ} {v : Block} {pins : List ℕ} {pc : Pc}

theorem view_round (h : Good σ) (hdisk : t.disk = update σ.machine.disk x v)
    (hx : InLog σ.machine.log.start σ.machine.log.size x ∨ v = σ.view x) :
    ({ σ with uninstalled := pins }.goto p t pc).view = update σ.view x v := by
  funext c
  change (σ.last c).getD (t.disk c) = _
  rw [hdisk]
  by_cases hcx : c = x
  · subst hcx
    rw [update_self, update_self]
    rcases hx with hx | rfl
    · rw [h.area c hx, Option.getD_none]
    · rw [view]
      cases σ.last c <;> rfl
  · rw [update_of_ne hcx, update_of_ne hcx, view]

/-- The blocks of the list keep their contents, and so do the log blocks written before. -/
theorem view_round_of_mem (h : Good σ) (hdisk : t.disk = update σ.machine.disk x v)
    (hx : InLog σ.machine.log.start σ.machine.log.size x ∨ v = σ.view x) (hb : b ∈
      σ.machine.log.lh) :
    ({ σ with uninstalled := pins }.goto p t pc).view b = σ.view b := by
  rw [h.view_round hdisk hx]
  by_cases hbx : b = x
  · subst hbx
    rw [update_self]
    exact hx.resolve_left (h.home b hb)
  · rw [update_of_ne hbx]

/-- A round of `commit` writes one block, in the log area or with the contents it has. -/
theorem next_round (h : Good σ) (hp : (σ.pc p).Commits)
    (hnext : Next Journal.step σ.protocol (p, .commit) ⟨σ.machine.log, update σ.pc p pc⟩)
    (ht : Leaves σ.machine t pins (update σ.view x v)
      (update σ.machine.disk x v))
    (hx : InLog σ.machine.log.start σ.machine.log.size x ∨ v = σ.view x)
    (hpins : pins.Sublist σ.machine.log.lh)
    (hphase : ({ σ with uninstalled := pins }.goto p t pc).Phase pc) :
    Good ({ σ with uninstalled := pins }.goto p t pc) := by
  have hc : σ.machine.log.committing = true := h.protocol.commits p hp
  have hempty := h.dirty_eq_empty hc
  have hlog : t.log = σ.machine.log := ht.log
  exact {
    protocol := by
      have he : ({ σ with uninstalled := pins }.goto p t pc).protocol =
          ⟨σ.machine.log, update σ.pc p pc⟩ := by
        simp only [System.protocol, System.goto, hlog]
      rw [he]
      exact h.protocol.next hnext
    dev := (congrArg Log.dev hlog).trans h.dev
    inv := by
      rw [h.view_round ht.disk hx]
      change Inv t pins ↑σ.dirty _
      rw [hempty, Finset.coe_empty]
      exact ht.inv
    home := by
      change ∀ b ∈ t.log.lh, ¬ InLog t.log.start t.log.size b
      rw [hlog]
      exact h.home
    fits := by
      change t.log.lh.length < t.log.size
      rw [hlog]
      exact h.fits
    area := by
      change ∀ b, InLog t.log.start t.log.size b → σ.last b = none
      rw [hlog]
      exact h.area
    dirty := fun i hi => by
      change i ∈ σ.dirty at hi
      rw [hempty] at hi
      cases hi
    pins := by
      change pins.Sublist t.log.lh
      rw [hlog]
      exact hpins
    quiet := fun hf => by
      change t.log.committing = false at hf
      rw [hlog, hc] at hf
      cases hf
    phase := (forall_update_iff σ.pc _).mpr
      ⟨hphase, fun q hq => phase_of_not_commits (h.not_commits hp hq)⟩ }

theorem next_writeLog {tail : ℕ} (h : Good σ) (hpc : σ.pc p = .writeLog tail)
    (hb : σ.machine.log.lh[tail]? = some b) (hm : writeLogAt p tail b σ.machine = .ok u t) :
    Good (σ.goto p t (.writeLog (tail + 1))) := by
  have hp : (σ.pc p).Commits := by rw [hpc]; trivial
  have hc : σ.machine.log.committing = true := h.protocol.commits p hp
  obtain ⟨htail, hget⟩ := List.getElem?_eq_some_iff.mp hb
  have hfits := h.fits
  have hx : InLog σ.machine.log.start σ.machine.log.size (σ.machine.log.start + tail + 1) :=
    ⟨by omega, by omega⟩
  have hphase := h.phase p
  rw [hpc] at hphase
  obtain ⟨hu, hcopied⟩ := hphase
  have hinv := h.inv
  rw [h.dirty_eq_empty hc, Finset.coe_empty] at hinv
  have ht := ((writeLogAt_spec p hinv h.dev).ok hm).2
  refine h.next_round hp ?_ ht (.inl hx) h.pins ⟨?_, fun r c hr hrc => ?_⟩
  · simp [Next, Journal.step, System.protocol, hpc, move, htail, Except.map, State.goto]
  · change σ.uninstalled = t.log.lh
    rw [ht.log, hu]
  · change t.log.lh[r]? = some c at hrc
    rw [ht.log] at hrc
    rw [h.view_round_of_mem ht.disk (.inl hx) (List.mem_of_getElem? hrc)]
    change t.disk (t.log.start + r + 1) = _
    rw [ht.log, ht.disk]
    rcases Nat.lt_succ_iff_lt_or_eq.mp hr with hr | rfl
    · rw [update_of_ne (by omega)]
      exact hcopied r c hr hrc
    · rw [hb] at hrc
      cases hrc
      rw [update_self]

theorem next_writeHead (h : Good σ) (hpc : σ.pc p = .writeHead)
    (hm : writeHead p σ.machine = .ok u t) : Good (σ.goto p t (.installTrans 0)) := by
  have hp : (σ.pc p).Commits := by rw [hpc]; trivial
  have hc : σ.machine.log.committing = true := h.protocol.commits p hp
  have hx : InLog σ.machine.log.start σ.machine.log.size σ.machine.log.start :=
    ⟨le_rfl, by have := h.fits; omega⟩
  have hphase := h.phase p
  rw [hpc] at hphase
  obtain ⟨hu, hcopied⟩ := hphase
  have hinv := h.inv
  rw [h.dirty_eq_empty hc, Finset.coe_empty] at hinv
  have ht := ((writeHead_spec p hinv h.dev).ok hm).2
  refine h.next_round hp ?_ ht (.inl hx) h.pins ⟨?_, fun r c hrc => ?_⟩
  · simp [Next, Journal.step, System.protocol, hpc, move, Except.map, State.goto]
  · change σ.uninstalled = t.log.lh.drop 0
    rw [ht.log, List.drop_zero, hu]
  · change t.log.lh[r]? = some c at hrc
    rw [ht.log] at hrc
    rw [h.view_round_of_mem ht.disk (.inl hx) (List.mem_of_getElem? hrc)]
    change t.disk (t.log.start + r + 1) = _
    rw [ht.log, ht.disk, update_of_ne (by omega)]
    exact hcopied r c hrc

theorem next_eraseHead (h : Good σ) (hpc : σ.pc p = .eraseHead)
    (hm : writeHead p σ.machine = .ok u t) : Good (σ.goto p t .unlock) := by
  have hp : (σ.pc p).Commits := by rw [hpc]; trivial
  have hc : σ.machine.log.committing = true := h.protocol.commits p hp
  have hx : InLog σ.machine.log.start σ.machine.log.size σ.machine.log.start :=
    ⟨le_rfl, by have := h.fits; omega⟩
  have hphase := h.phase p
  rw [hpc] at hphase
  have hinv := h.inv
  rw [h.dirty_eq_empty hc, Finset.coe_empty] at hinv
  have ht := ((writeHead_spec p hinv h.dev).ok hm).2
  refine h.next_round hp ?_ ht (.inl hx) h.pins ⟨hphase.1, ?_⟩
  · simp [Next, Journal.step, System.protocol, hpc, move, Except.map, State.goto]
  · change t.log.lh = []
    rw [ht.log]
    exact hphase.2

theorem next_installTrans {tail : ℕ} (h : Good σ) (hpc : σ.pc p = .installTrans tail)
    (hb : σ.machine.log.lh[tail]? = some b) (hm : installAt p false tail b σ.machine = .ok u t) :
    Good ({ σ with uninstalled := σ.uninstalled.erase b }.goto p t (.installTrans (tail + 1))) := by
  have hp : (σ.pc p).Commits := by rw [hpc]; trivial
  have hc : σ.machine.log.committing = true := h.protocol.commits p hp
  obtain ⟨htail, hget⟩ := List.getElem?_eq_some_iff.mp hb
  have hfits := h.fits
  have hphase := h.phase p
  rw [hpc] at hphase
  obtain ⟨hu, hcopied⟩ := hphase
  have hdrop : σ.uninstalled = b :: σ.machine.log.lh.drop (tail + 1) := by
    rw [hu, List.drop_eq_getElem_cons htail, hget]
  have hnodup : σ.uninstalled.Nodup := by
    rw [hu]
    exact h.protocol.nodup.sublist (List.drop_sublist ..)
  have harea : σ.view (σ.machine.log.start + tail + 1) = σ.view b := by
    rw [← hcopied tail b hb, view, h.area _ ⟨by omega, by omega⟩, Option.getD_none]
  have hinv := h.inv
  rw [h.dirty_eq_empty hc, Finset.coe_empty] at hinv
  have ht := ((installAt_spec p false hinv h.dev
    (show b ∈ σ.uninstalled ∧ σ.uninstalled.Nodup from ⟨by simp [hdrop], hnodup⟩)).ok hm).2
  rw [harea] at ht
  refine h.next_round hp ?_ ht (.inr rfl) (List.erase_sublist.trans h.pins) ⟨?_, fun r c hrc => ?_⟩
  · simp [Next, Journal.step, System.protocol, hpc, move, htail, Except.map, State.goto]
  · change σ.uninstalled.erase b = t.log.lh.drop (tail + 1)
    rw [ht.log, hdrop, List.erase_cons_head]
  · change t.log.lh[r]? = some c at hrc
    rw [ht.log] at hrc
    rw [h.view_round_of_mem ht.disk (.inr rfl) (List.mem_of_getElem? hrc)]
    change t.disk (t.log.start + r + 1) = _
    have hne : σ.machine.log.start + r + 1 ≠ b := by
      rintro rfl
      obtain ⟨hr, -⟩ := List.getElem?_eq_some_iff.mp hrc
      exact h.home _ (List.mem_of_getElem? hb) ⟨by omega, by omega⟩
    rw [ht.log, ht.disk, update_of_ne hne]
    exact hcopied r c hrc

end rounds

/-- A step inside `commit` that only moves the process on. -/
theorem goto_commit {pc : Pc} (h : Good σ) (hp : (σ.pc p).Commits)
    (hnext : Next Journal.step σ.protocol (p, .commit) (σ.goto p σ.machine pc).protocol)
    (hphase : (σ.goto p σ.machine pc).Phase pc) : Good (σ.goto p σ.machine pc) := by
  have hc : σ.machine.log.committing = true := h.protocol.commits p hp
  refine h.goto_log hnext (.inl rfl) rfl rfl rfl (fun i hi => ?_) h.pins (fun hf => ?_) hphase
    fun q hq => phase_of_not_commits (h.not_commits hp hq)
  · rw [h.dirty_eq_empty hc] at hi
    cases hi
  · rw [hc] at hf
    cases hf

theorem next_commit {σ' : System n} (h : Good σ) (hn : σ.commitStep p = some (.ok σ')) :
    Good σ' := by
  have hphase := h.phase p
  unfold commitStep at hn
  dsimp only at hn
  split at hn
  next hpc =>
    cases hn
    rw [hpc] at hphase
    refine h.goto_commit (by rw [hpc]; trivial) ?_ ?_
    · simp [Next, Journal.step, System.protocol, System.goto, hpc, move, Except.map, State.goto]
    · split
      next => exact ⟨hphase, fun t b ht => absurd ht (Nat.not_lt_zero t)⟩
      next hlen =>
        have hnil : σ.machine.log.lh = [] := by simpa using hlen
        exact ⟨hphase.trans hnil, hnil⟩
  next tail hpc =>
    split at hn
    next b hb =>
      obtain ⟨u, t, hm, rfl⟩ := run_eq_ok hn
      exact h.next_writeLog hpc hb hm
    next hnone =>
      cases hn
      have hlen : σ.machine.log.lh.length ≤ tail := List.getElem?_eq_none_iff.mp hnone
      rw [hpc] at hphase
      refine h.goto_commit (by rw [hpc]; trivial) ?_ ⟨hphase.1, fun t b hb => ?_⟩
      · simp [Next, Journal.step, System.protocol, System.goto, hpc, move, Nat.not_lt.mpr hlen,
          Except.map, State.goto]
      · have hlt : t < σ.machine.log.lh.length := (List.getElem?_eq_some_iff.mp hb).1
        exact hphase.2 t b (by omega) hb
  next hpc =>
    obtain ⟨u, t, hm, rfl⟩ := run_eq_ok hn
    exact h.next_writeHead hpc hm
  next tail hpc =>
    split at hn
    next b hb =>
      obtain ⟨u, t, hm, rfl⟩ := run_eq_ok hn
      exact h.next_installTrans hpc hb hm
    next hnone =>
      cases hn
      have hlen : σ.machine.log.lh.length ≤ tail := List.getElem?_eq_none_iff.mp hnone
      rw [hpc] at hphase
      refine h.goto_commit (by rw [hpc]; trivial) ?_ ?_
      · simp [Next, Journal.step, System.protocol, System.goto, hpc, move, Nat.not_lt.mpr hlen,
          Except.map, State.goto]
      · exact hphase.1.trans (List.drop_eq_nil_of_le hlen)
  next hpc =>
    obtain ⟨u, t, hm, rfl⟩ := run_eq_ok hn
    exact h.next_eraseHead hpc hm
  next => cases hn

/-- Every step keeps the system good. -/
theorem next {σ' : System n} {call : Call} (h : Good σ) (hn : Next step σ (p, call) σ') :
    Good σ' := by
  have hclean : ∀ {pc : Pc}, σ.pc p = pc → (∀ bs, pc ≠ .running bs) → ∀ i ∈ σ.dirty,
      ¬ σ.Holds p i := by
    intro pc hpc hne i hi hl
    obtain ⟨bs, hbs⟩ := h.running_of_dirty hi hl
    exact hne bs (hpc.symm.trans hbs)
  unfold Next step at hn
  dsimp only at hn
  split at hn
  next hpc =>
    -- enter
    cases hn
    have hnext : Next Journal.step σ.protocol (p, .enter)
        (σ.goto p (σ.withLog σ.machine.log) .waiting).protocol := by
      simp [Next, Journal.step, System.protocol, System.goto, System.withLog, hpc, move, Except.map,
        State.goto]
    exact h.goto_log hnext (.inl rfl) rfl rfl rfl
      (fun i hi hl => absurd hl (hclean hpc (by simp) i hi)) h.pins h.quiet trivial
      fun q _ => (h.phase q).congr rfl rfl rfl rfl rfl
  next hpc =>
    -- begin_op
    split at hn
    next log hlog =>
      cases hn
      have hnext : Next Journal.step σ.protocol (p, .beginOp)
          (σ.goto p (σ.withLog log) (.running [])).protocol := by
        simp [Next, Journal.step, System.protocol, System.goto, System.withLog, hpc, move, hlog,
          Except.map, State.goto]
      obtain ⟨hc, -, rfl⟩ := beginOp_eq_some hlog
      exact h.goto_log hnext (.inl rfl) rfl rfl rfl
        (fun i hi hl => absurd hl (hclean hpc (by simp) i hi)) h.pins (fun _ => h.quiet hc) trivial
        fun q _ => phase_of_not_commits (h.not_commits_of_quiet hc q)
    next =>
      cases hn
      exact h
  next b _ =>
    obtain ⟨i, t, hm, rfl⟩ := run_eq_ok hn
    exact h.next_bread hm
  next i data bs hpc =>
    split at hn
    next hl =>
      cases hn
      exact h.next_modify hpc hl
    next => cases hn
  next i bs hpc =>
    split at hn
    next hl =>
      obtain ⟨u, t, hm, rfl⟩ := run_eq_ok hn
      exact h.next_logWrite hpc hl.1 hl.2 hm
    next => cases hn
  next i _ =>
    split at hn
    next hl =>
      obtain ⟨u, t, hm, rfl⟩ := run_eq_ok hn
      exact h.next_brelse hl.1 hl.2 hm
    next => cases hn
  next bs hpc =>
    -- endOp
    split at hn
    next hd =>
      split at hn
      next => cases hn
      next log doCommit hlog =>
        cases hn
        have hnext : Next Journal.step σ.protocol (p, .endOp)
            (σ.goto p (σ.withLog log) (if doCommit then .commit else .idle)).protocol := by
          simp [Next, Journal.step, System.protocol, System.goto, System.withLog, hpc, move, hlog,
            Except.map, State.goto]
        obtain ⟨hc, -, rfl⟩ := endOp_eq_ok hlog
        have hu := h.quiet hc
        refine h.goto_log hnext (.inl rfl) rfl rfl rfl (fun i hi hl => absurd hl (hd i hi))
          h.pins (fun _ => hu) ?_ fun q _ => phase_of_not_commits (h.not_commits_of_quiet hc q)
        cases doCommit with
        | true => exact hu
        | false => trivial
    next => cases hn
  next => exact h.next_commit hn
  next hpc =>
    -- clear
    cases hn
    have hp : (σ.pc p).Commits := by rw [hpc]; trivial
    have hc : σ.machine.log.committing = true := h.protocol.commits p hp
    have hphase := h.phase p
    rw [hpc] at hphase
    refine h.goto_log (a := .clear) ?_ (.inr rfl) rfl rfl rfl
      (fun i hi hl => absurd hl (hclean hpc (by simp) i hi)) (by rw [hphase]) (fun _ => hphase)
      ⟨hphase, rfl⟩
      fun q hq => phase_of_not_commits (h.not_commits hp hq)
    simp [Next, Journal.step, System.protocol, System.goto, System.withLog, hpc, move, Except.map,
      State.goto]
  next hpc =>
    -- unlock
    cases hn
    have hp : (σ.pc p).Commits := by rw [hpc]; trivial
    have hphase := h.phase p
    rw [hpc] at hphase
    refine h.goto_log (a := .unlock) ?_ (.inl rfl) rfl rfl rfl
      (fun i hi hl => absurd hl (hclean hpc (by simp) i hi)) h.pins
      (fun _ => hphase.1.trans hphase.2.symm) trivial
      fun q hq => phase_of_not_commits (h.not_commits hp hq)
    simp [Next, Journal.step, System.protocol, System.goto, System.withLog, hpc, move, Except.map,
      State.goto]
  next => cases hn

end Good

/-- Memory after `initlog`: the cache shows the disk and no operation has begun. -/
structure Recovered (m : Machine) : Prop where
  inv : Inv m [] ∅ m.disk
  dev : m.log.dev = ROOTDEV
  size : 0 < m.log.size
  outstanding : m.log.outstanding = 0
  committing : m.log.committing = false
  lh : m.log.lh = []

theorem recovered_boot (disk : ℕ → Block) (start : ℕ) {size : ℕ} (h : 0 < size) :
    Recovered (boot disk start size) :=
  ⟨inv_boot disk start size, rfl, h, rfl, rfl, rfl⟩

/-- All processes idle. -/
def start (m : Machine) : System n := ⟨m, fun _ => .idle, fun _ => none, [], ∅⟩

theorem good_start {m : Machine} (h : Recovered m) : Good (start m : System n) where
  protocol := {
    outstanding := by simp [start, System.protocol, State.ops, Pc.ops, h.outstanding]
    commits := fun _ hc => hc.elim
    exclusive := fun _ _ hc => hc.elim
    quiet := fun hc => by
      rw [show (start m : System n).protocol.log.committing = false from h.committing] at hc
      cases hc
    nodup := by
      rw [show (start m : System n).protocol.log.lh = [] from h.lh]
      exact List.nodup_nil
    logged := fun _ _ hb => by cases hb }
  dev := h.dev
  inv := by
    rw [show ((start m : System n).dirty : Set (Fin NBUF)) = ∅ from Finset.coe_empty]
    exact h.inv
  home b hb := by
    rw [show (start m : System n).machine.log.lh = [] from h.lh] at hb
    cases hb
  fits := by
    rw [show (start m : System n).machine.log.lh = [] from h.lh]
    exact h.size
  area _ _ := rfl
  dirty _ hi := by cases hi
  pins := List.nil_sublist _
  quiet _ := h.lh.symm
  phase _ := trivial

theorem good_of_run {m : Machine} {σ : System n} {l : List (Fin n × Call)} (hm : Recovered m)
    (h : Run (Next step) (start m) l σ) : Good σ :=
  h.invariant (fun _ _ _ _ hn hs => hs.next hn) (good_start hm)

namespace Good

variable {σ : System n} {p : Fin n}

theorem bread_or_stuck (h : Good σ) (p : Fin n) (b : ℕ) :
    Stuck σ.machine b ∨ ∃ i t, bread p ROOTDEV b σ.machine = .ok i t ∧ (t.buf i).For b ∧
      (t.buf i).lock = some p.val ∧ (t.buf i).data = (σ.last b).getD (σ.machine.disk b) := by
  have hspec : wp (bread p ROOTDEV b) (fun _ _ => Stuck σ.machine b) (fun i t =>
      (t.buf i).For b ∧ (t.buf i).lock = some p.val ∧ (t.buf i).data = σ.view b) σ.machine := by
    refine h.inv.wp_bread (fun _ _ _ hst => hst) fun i t _ _ hi _ => ?_
    rw [hi]
    exact ⟨fetched_for, rfl, rfl⟩
  cases hm : bread p ROOTDEV b σ.machine with
  | ok i t => exact .inr ⟨i, t, rfl, hspec.ok hm⟩
  | error e t => exact .inl (hspec.error hm)

/-- A pinned buffer is in use, and no `bread` gives it to another block. -/
theorem pinned_kept (h : Good σ) (hb : b ∈ σ.uninstalled) :
    ∃ i, (σ.machine.buf i).For b ∧ 1 ≤ (σ.machine.buf i).refcnt ∧
      ∀ (p : Fin n) c j t, bread p ROOTDEV c σ.machine = .ok j t → (t.buf i).For b := by
  obtain ⟨i, hi, -⟩ := h.inv.pinned b hb
  have hp : (σ.machine.buf i).dev = ROOTDEV ∧ (σ.machine.buf i).blockno ∈ σ.uninstalled :=
    ⟨hi.1, hi.2 ▸ hb⟩
  refine ⟨i, hi, ?_, fun p c j t hm => ?_⟩
  · rw [h.inv.refcnt i, Buf.refs, if_pos hp]
    omega
  · have hspec : wp (bread p ROOTDEV c) (fun _ _ => True) (fun _ t => (t.buf i).For b)
        σ.machine := by
      refine h.inv.wp_bread (fun _ _ _ _ => trivial) fun j t _ hf _ hinv => ?_
      obtain ⟨k, hk, -⟩ := hinv.pinned b hb
      by_cases hkj : k = j
      · by_cases hij : i = j
        · rw [hij, ← hkj]
          exact hk
        · rw [hf.buf i hij]
          exact hi
      · rw [hf.buf k hkj] at hk
        obtain rfl := h.inv.unique hk hi
        rw [hf.buf k hkj]
        exact hi
    exact hspec.ok hm

end Good

/-- The cache and the log are transparent. `bread` returns what was logged last for the block, or
the disk contents if it was never logged; no block has two buffers; the list is a ring of all
buffers; a block that is logged and not yet installed keeps its buffer; and a buffer counts its
holder and, exactly while its block is logged and not installed, one pin. -/
theorem cache_transparent {m : Machine} {σ : System n} {l : List (Fin n × Call)} (hm : Recovered m)
    (h : Run (Next step) (start m) l σ) :
    (∀ (p : Fin n) b, Stuck σ.machine b ∨ ∃ i t, bread p ROOTDEV b σ.machine = .ok i t ∧
      (t.buf i).For b ∧ (t.buf i).lock = some p.val ∧
      (t.buf i).data = (σ.last b).getD (σ.machine.disk b)) ∧
    (∀ i j b, (σ.machine.buf i).For b → (σ.machine.buf j).For b → i = j) ∧
    (∃ l, Ring σ.machine.next σ.machine.prev l ∧ ∀ i, i ∈ l) ∧
    (∀ b ∈ σ.uninstalled, ∃ i, (σ.machine.buf i).For b ∧ 1 ≤ (σ.machine.buf i).refcnt ∧
      ∀ (p : Fin n) c j t, bread p ROOTDEV c σ.machine = .ok j t → (t.buf i).For b) ∧
    (∀ i, (σ.machine.buf i).refcnt = (if (σ.machine.buf i).lock = none then 0 else 1) +
      (if (σ.machine.buf i).dev = ROOTDEV ∧ (σ.machine.buf i).blockno ∈ σ.uninstalled then 1
        else 0)) ∧
    σ.uninstalled.Nodup ∧ σ.uninstalled ⊆ σ.machine.log.lh ∧
    (σ.machine.log.committing = false → σ.uninstalled = σ.machine.log.lh) := by
  have hσ := good_of_run hm h
  refine ⟨hσ.bread_or_stuck, fun i j b => hσ.inv.unique, hσ.inv.ring, fun b => hσ.pinned_kept,
    hσ.inv.refcnt, hσ.protocol.nodup.sublist hσ.pins, hσ.pins.subset, hσ.quiet⟩

/-- One operation reads block 46, fills it, logs it and lets it go. -/
def fill : List (Fin 2 × Call) :=
  [(0, .enter), (0, .beginOp), (0, .bread 46), (0, .modify 0 fun _ => 7), (0, .logWrite 0),
    (0, .brelse 0)]

theorem fill_transparent : ∃ σ : System 2,
    Run (Next step) (start (boot (fun _ => Bytes.zero) 2 LOGSIZE)) fill σ ∧
      σ.uninstalled = [46] ∧ ∃ i t, bread (1 : Fin 2) ROOTDEV 46 σ.machine = .ok i t ∧
        (t.buf i).data = fun _ => 7 := by
  have hrun : ∃ σ : System 2, exec step (start (boot (fun _ => Bytes.zero) 2 LOGSIZE)) fill = some σ ∧
      σ.uninstalled = [46] ∧ σ.last 46 = some (fun _ => 7) ∧ (σ.machine.buf 0).For 46 ∧
      ∀ i, (σ.machine.buf i).lock = none :=
    ⟨_, rfl, rfl, rfl, ⟨rfl, rfl⟩, by decide +kernel⟩
  obtain ⟨σ, hσ, hu, hlast, hfor, hlock⟩ := hrun
  refine ⟨σ, run_of_exec _ hσ, hu, ?_⟩
  obtain hst | ⟨i, t, ht, -, -, hdata⟩ :=
    (cache_transparent (recovered_boot _ 2 (by decide)) (run_of_exec _ hσ)).1 1 46
  · rcases hst with ⟨i, -, hi⟩ | ⟨hno, -⟩
    · exact absurd (hlock i) hi
    · exact absurd hfor (hno 0)
  · rw [hlast] at hdata
    exact ⟨i, t, ht, hdata⟩

end System

end Xv6.Journal

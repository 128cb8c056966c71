import Xv6.Log.Journal

/-! # Crashes of the log

A crash keeps the block writes that reached the disk and loses memory. The disk
is in one of three phases while a transaction commits and while the log is
recovered: not committed, committed with the log still needed, and installed.
Every write of `commit` and of `recover_from_log` keeps the phase or moves it on.
-/

namespace Xv6.Journal

open Buffer Function

variable {s : Machine} {L old new d : ℕ → Block} {start size : ℕ} {lh : List ℕ}

/-- The block writes a command performs before it returns or stops. -/
def writesOf {α : Type} (m : M α) (s : Machine) : List (ℕ × Block) :=
  match m s with
  | .ok _ s' => s'.writes.drop s.writes.length
  | .error _ s' => s'.writes.drop s.writes.length

/-- The disks that any number of crashes inside `recover_from_log` can leave. -/
inductive Crashes (start size : ℕ) (d : ℕ → Block) : (ℕ → Block) → Prop
  | none : Crashes start size d d
  | again {d'} (pid j : ℕ) : Crashes start size d d' → Crashes start size d
      (applyWrites d' ((writesOf (recoverFromLog pid) (boot d' start size)).take j))

/-- The header with `n > 0` is among the writes. -/
def Committed (start : ℕ) (w : List (ℕ × Block)) : Prop := ∃ x ∈ w, x.1 = start ∧ 0 < x.2.get32 0

/-- A transaction in memory that `commit` may be called on: the cache shows the contents `L`, and
the blocks of `lh` are the ones the disk does not have yet. -/
structure Pending (s : Machine) (L : ℕ → Block) : Prop where
  inv : Inv s s.log.lh ∅ L
  dev : s.log.dev = ROOTDEV
  nodup : s.log.lh.Nodup
  fits : s.log.lh.length < s.log.size
  length_le : s.log.lh.length ≤ LOGSIZE
  lt : ∀ b ∈ s.log.lh, b < 2 ^ 32
  home : ∀ b ∈ s.log.lh, ¬ InLog s.log.start s.log.size b

variable {w : List (ℕ × Block)}

theorem Traces.writesOf_le {α : Type} {m : M α} {ok : Prop} {Q : α → Machine → Prop}
    (h : Traces m s w ok Q) : writesOf m s <+: w := by
  unfold Traces wp at h
  unfold writesOf
  cases hm : m s with
  | ok a s' =>
    rw [hm] at h
    simp [h.1]
  | error e s' =>
    rw [hm] at h
    obtain ⟨-, w', hp, hw⟩ := h
    simpa [hw] using hp

theorem Traces.run {α : Type} {m : M α} {ok : Prop} {Q : α → Machine → Prop} (h : Traces m s w ok Q)
    (hok : ok) : ∃ a s', m s = .ok a s' ∧ s'.writes = s.writes ++ w ∧ Q a s' := by
  unfold Traces wp at h
  cases hm : m s with
  | ok a s' =>
    rw [hm] at h
    exact ⟨a, s', rfl, h⟩
  | error e s' =>
    rw [hm] at h
    exact absurd hok h.1

/-- The blocks outside the log area agree. -/
def HomeEq (start size : ℕ) (d d' : ℕ → Block) : Prop := ∀ b, ¬ InLog start size b → d b = d' b

/-- No transaction is on the disk, whose home blocks are `v`. -/
structure Clean (start size : ℕ) (v d : ℕ → Block) : Prop where
  header : (d start).get32 0 = 0
  home : HomeEq start size d v

/-- The transaction `lh` is on the disk, and its blocks may be in part installed. -/
structure Logged (start size : ℕ) (lh : List ℕ) (new d : ℕ → Block) : Prop where
  header : headerBlocks (d start) = lh
  log : ∀ t (ht : t < lh.length), d (start + 0 + 1 + t) = new lh[t]
  home : ∀ b, ¬ InLog start size b → b ∉ lh → d b = new b

theorem headerBlocks_of_zero {hb : Block} (h : hb.get32 0 = 0) : headerBlocks hb = [] := by
  simp [headerBlocks, h]

theorem append_cases {α : Type} {p u v : List α} (h : p <+: u ++ v) :
    p <+: u ∨ ∃ q, q <+: v ∧ p = u ++ q := by
  rcases List.prefix_or_prefix_of_prefix h (List.prefix_append u v) with hp | ⟨q, rfl⟩
  · exact .inl hp
  · exact .inr ⟨q, (List.prefix_append_right_inj u).mp h, rfl⟩

theorem applyWrites_map (bs : List ℕ) (v d : ℕ → Block) (b : ℕ) :
    applyWrites d (bs.map fun b => (b, v b)) b = if b ∈ bs then v b else d b := by
  induction bs generalizing d with
  | nil => rfl
  | cons c bs ih =>
    rw [List.map_cons, applyWrites_cons, ih]
    by_cases hb : b ∈ bs
    · simp [hb]
    · by_cases hc : b = c
      · subst hc; simp
      · simp [hb, hc]

section phases

/-- Writes into the log area that spare the header keep the disk clean. -/
theorem Clean.applyWrites_log (h : Clean start size old d)
    (hw : ∀ x ∈ w, start < x.1 ∧ x.1 < start + size) : Clean start size old (applyWrites d w) := by
  constructor
  · rw [applyWrites_of_notMem fun x hx he => by have := (hw x hx).1; omega, h.header]
  · intro b hb
    rw [applyWrites_of_notMem, h.home b hb]
    rintro x hx rfl
    exact hb ⟨(hw x hx).1.le, (hw x hx).2⟩

theorem Clean.clear (h : Clean start size old d) (hs : 0 < size) (hb : Block) :
    Clean start size old (update d start (putHeader [] hb)) := by
  constructor
  · rw [update_self, get32_putHeader (by decide), List.length_nil]
  · intro b hb
    have hne : b ≠ start := by
      rintro rfl
      exact hb ⟨le_rfl, by omega⟩
    rw [update_of_ne hne, h.home b hb]

variable (hlh : ∀ b ∈ lh, ¬ InLog start size b) (hfit : lh.length < size)
include hlh hfit

/-- Installing some blocks of the transaction keeps it in the log. -/
theorem Logged.install (h : Logged start size lh new d) (hw : ∀ x ∈ w, x.1 ∈ lh ∧ x.2 = new x.1) :
    Logged start size lh new (applyWrites d w) := by
  have hlog : ∀ b, InLog start size b → applyWrites d w b = d b := by
    intro b hb
    refine applyWrites_of_notMem ?_
    rintro x hx rfl
    exact hlh _ (hw x hx).1 hb
  refine ⟨?_, fun t ht => ?_, fun b hb hn => ?_⟩
  · rw [hlog start ⟨le_rfl, by omega⟩, h.header]
  · rw [hlog _ ⟨by omega, by omega⟩, h.log t ht]
  · rw [applyWrites_of_notMem, h.home b hb hn]
    rintro x hx rfl
    exact hn (hw x hx).1

/-- Clearing the header after all blocks are installed. -/
theorem Logged.clear (h : Logged start size lh new d) (hb : Block) :
    Clean start size new
      (applyWrites d (lh.map (fun b => (b, new b)) ++ [(start, putHeader [] hb)])) := by
  rw [applyWrites_append, applyWrites_cons, applyWrites_nil]
  constructor
  · rw [update_self, get32_putHeader (by decide), List.length_nil]
  · intro b hb
    have hne : b ≠ start := by
      rintro rfl
      exact hb ⟨le_rfl, by omega⟩
    rw [update_of_ne hne, applyWrites_map]
    split
    next => rfl
    next hn => exact h.home b hb hn

/-- Any part of the installation and the clearing keeps the transaction recoverable. -/
theorem Logged.install_part {hb : Block} (h : Logged start size lh new d)
    (hw : w <+: lh.map (fun b => (b, new b)) ++ [(start, putHeader [] hb)]) :
    Logged start size lh new (applyWrites d w) ∨ Clean start size new (applyWrites d w) := by
  rcases List.prefix_concat_iff.mp hw with rfl | hw
  · exact .inr (h.clear hlh hfit hb)
  · refine .inl (h.install hlh hfit fun x hx => ?_)
    obtain ⟨b, hb, rfl⟩ := List.mem_map.mp (hw.subset hx)
    exact ⟨hb, rfl⟩

end phases

section recovery

variable {v : ℕ → Block}

/-- Recovery will leave the home blocks `v`: nothing is logged, or the rest of `v` is. -/
def Recovers (start size : ℕ) (lh : List ℕ) (v d : ℕ → Block) : Prop :=
  Clean start size v d ∨ Logged start size lh v d

theorem recoverWrites_clean (h : Clean start size v d) :
    recoverWrites start d = [(start, putHeader [] (d start))] := by
  rw [recoverWrites, headerBlocks_of_zero h.header]
  rfl

theorem recoverWrites_logged (h : Logged start size lh v d) :
    recoverWrites start d = lh.map (fun b => (b, v b)) ++ [(start, putHeader [] (d start))] := by
  rw [recoverWrites, h.header, installWrites_eq_map h.log]

variable (hn : lh.Nodup) (hlh : ∀ b ∈ lh, ¬ InLog start size b) (hfit : lh.length < size)
include hn hlh hfit

/-- `recover_from_log` right after a reboot is never stopped. -/
theorem Recovers.traces (h : Recovers start size lh v d) (pid : ℕ) :
    Traces (recoverFromLog pid) (boot d start size) (recoverWrites start d) True fun _ s' =>
      s'.disk = applyWrites d (recoverWrites start d) := by
  have hheader : headerBlocks (d start) = [] ∨ headerBlocks (d start) = lh :=
    h.imp (fun hc => headerBlocks_of_zero hc.header) Logged.header
  have hspec : ∀ bs, headerBlocks (d start) = bs → bs.Nodup → bs.length < size →
      (∀ b ∈ bs, ¬ InLog start size b) →
      Traces (recoverFromLog pid) (boot d start size) (recoverWrites start d) True fun _ s' =>
        s'.disk = applyWrites d (recoverWrites start d) := by
    rintro _ rfl h₁ h₂ h₃
    exact (recoverFromLog_spec pid (inv_boot d start size) rfl h₁ h₂ h₃).mono
      (fun _ => calm_boot d start size) fun _ _ h => h.disk
  rcases hheader with he | he
  · exact hspec [] he List.nodup_nil (by simp; omega) (by simp)
  · exact hspec lh he hn hfit hlh

/-- A crash inside recovery leaves a disk to recover from. -/
theorem Recovers.crash (h : Recovers start size lh v d) (pid j : ℕ) :
    Recovers start size lh v
      (applyWrites d ((writesOf (recoverFromLog pid) (boot d start size)).take j)) := by
  have hw := ( List.take_prefix j _).trans (h.traces hn hlh hfit pid).writesOf_le
  generalize (writesOf (recoverFromLog pid) (boot d start size)).take j = w at hw
  rcases h with hc | hl
  · left
    rw [recoverWrites_clean hc, ← List.nil_append [_], List.prefix_concat_iff] at hw
    rcases hw with rfl | hw
    · exact hc.clear (by omega) (d start)
    · rw [List.prefix_nil.mp hw]
      exact hc
  · rw [recoverWrites_logged hl] at hw
    exact (hl.install_part hlh hfit hw).symm

theorem Recovers.crashes {d' : ℕ → Block} (h : Recovers start size lh v d)
    (hc : Crashes start size d d') : Recovers start size lh v d' := by
  induction hc with
  | none => exact h
  | again pid j _ ih => exact ih.crash hn hlh hfit pid j

/-- Recovery that runs to its end leaves a clean disk. -/
theorem Recovers.recover (h : Recovers start size lh v d) (pid : ℕ) :
    ∃ s', recoverFromLog pid (boot d start size) = .ok () s' ∧ Clean start size v s'.disk := by
  obtain ⟨_, s', hrun, -, hdisk⟩ := (h.traces hn hlh hfit pid).run trivial
  refine ⟨s', hrun, ?_⟩
  rw [hdisk]
  rcases h with hc | hl
  · rw [recoverWrites_clean hc]
    exact hc.clear (by omega) (d start)
  · rw [recoverWrites_logged hl]
    exact hl.clear hlh hfit (d start)

end recovery

namespace Pending

variable (h : Pending s L) (h0 : (s.disk s.log.start).get32 0 = 0)
include h h0

/-- Before the header is written the transaction has not happened. -/
theorem clean_of_writeLog (hw : w <+: logWrites s.log.start L 0 s.log.lh) :
    Clean s.log.start s.log.size s.disk (applyWrites s.disk w) ∧ ¬ Committed s.log.start w := by
  have hfit := h.fits
  have hmem : ∀ x ∈ w, s.log.start < x.1 ∧ x.1 < s.log.start + s.log.size := fun x hx => by
    have := mem_logWrites (hw.subset hx)
    omega
  have hclean : Clean s.log.start s.log.size s.disk s.disk := ⟨h0, fun _ _ => rfl⟩
  refine ⟨hclean.applyWrites_log hmem, ?_⟩
  rintro ⟨x, hx, he, -⟩
  have := (hmem x hx).1
  omega

omit h0 in
/-- The header write makes the transaction recoverable. -/
theorem logged : Logged s.log.start s.log.size s.log.lh L
    (applyWrites s.disk (logWrites s.log.start L 0 s.log.lh ++
      [(s.log.start, putHeader s.log.lh (L s.log.start))])) := by
  have hfit := h.fits
  rw [applyWrites_append, applyWrites_cons, applyWrites_nil]
  refine ⟨?_, fun t ht => ?_, fun b hb hn => ?_⟩
  · rw [update_self, headerBlocks_putHeader h.length_le h.lt]
  · rw [update_of_ne (by omega), applyWrites_logWrites ht]
  · have hne : b ≠ s.log.start := by
      rintro rfl
      exact hb ⟨le_rfl, by omega⟩
    rw [update_of_ne hne, applyWrites_of_notMem, h.inv.disk b hn]
    rintro x hx rfl
    have := mem_logWrites hx
    exact hb ⟨by omega, by omega⟩

/-- After any writes of `commit`, recovery leaves the old contents or the new ones. -/
theorem recovers (hne : s.log.lh ≠ []) (hw : w <+: commitWrites s.log.start s.log.lh L) :
    (Committed s.log.start w ∧
      Recovers s.log.start s.log.size s.log.lh L (applyWrites s.disk w)) ∨
    (¬ Committed s.log.start w ∧
      Recovers s.log.start s.log.size s.log.lh s.disk (applyWrites s.disk w)) := by
  rcases append_cases hw with hw | ⟨q, hq, rfl⟩
  · obtain ⟨hc, hn⟩ := h.clean_of_writeLog h0 hw
    exact .inr ⟨hn, .inl hc⟩
  · cases q with
    | nil =>
      rw [List.append_nil]
      obtain ⟨hc, hn⟩ := h.clean_of_writeLog h0 (List.prefix_refl _)
      exact .inr ⟨hn, .inl hc⟩
    | cons x q =>
      obtain ⟨rfl, hq'⟩ := List.cons_prefix_cons.mp hq
      left
      constructor
      · refine ⟨_, List.mem_append_right _ List.mem_cons_self, rfl, ?_⟩
        rw [get32_putHeader h.length_le]
        exact List.length_pos_iff.mpr hne
      · rw [← List.singleton_append, ← List.append_assoc, applyWrites_append]
        exact (h.logged.install_part h.home h.fits hq').symm

end Pending

/-- Crash atomicity. However many writes of `commit` reach the disk, and however often recovery
is cut short after that, a completed recovery leaves all home blocks as they were before the
transaction or all as the transaction has them, the latter when the header had reached the disk. -/
theorem commit_crash_atomic (h : Pending s L) (h0 : (s.disk s.log.start).get32 0 = 0)
    (pid j : ℕ) {d : ℕ → Block}
    (hd : Crashes s.log.start s.log.size
      (applyWrites s.disk ((writesOf (commit pid) s).take j)) d) (pid' : ℕ) :
    ∃ s', recoverFromLog pid' (boot d s.log.start s.log.size) = .ok () s' ∧
      (s'.disk s.log.start).get32 0 = 0 ∧
      (Committed s.log.start ((writesOf (commit pid) s).take j) →
        ∀ b, ¬ InLog s.log.start s.log.size b → s'.disk b = L b) ∧
      (¬ Committed s.log.start ((writesOf (commit pid) s).take j) →
        ∀ b, ¬ InLog s.log.start s.log.size b → s'.disk b = s.disk b) := by
  have hphase : (Committed s.log.start ((writesOf (commit pid) s).take j) ∧
        Recovers s.log.start s.log.size s.log.lh L
          (applyWrites s.disk ((writesOf (commit pid) s).take j))) ∨
      (¬ Committed s.log.start ((writesOf (commit pid) s).take j) ∧
        Recovers s.log.start s.log.size s.log.lh s.disk
          (applyWrites s.disk ((writesOf (commit pid) s).take j))) := by
    by_cases hne : s.log.lh = []
    · have hnone : writesOf (commit pid) s = [] := by
        have hlen : ¬ 0 < s.log.lh.length := by simp [hne]
        have hrun : commit pid s = .ok () s := congrFun (if_neg hlen) s
        rw [writesOf, hrun]
        exact List.drop_length
      rw [hnone, List.take_nil]
      exact .inr ⟨by simp [Committed], .inl ⟨h0, fun _ _ => rfl⟩⟩
    · have hw := (commit_spec pid h.inv h.dev h.nodup h.fits h.home hne).writesOf_le
      exact h.recovers h0 hne (( List.take_prefix j _).trans hw)
  rcases hphase with ⟨hc, hr⟩ | ⟨hc, hr⟩
  · obtain ⟨s', hrun, hclean⟩ :=
      (hr.crashes h.nodup h.home h.fits hd).recover h.nodup h.home h.fits pid'
    exact ⟨s', hrun, hclean.header, fun _ => hclean.home, fun hn => absurd hc hn⟩
  · obtain ⟨s', hrun, hclean⟩ :=
      (hr.crashes h.nodup h.home h.fits hd).recover h.nodup h.home h.fits pid'
    exact ⟨s', hrun, hclean.header, fun hy => absurd hy hc, fun _ => hclean.home⟩

/-- `commit` performs all its writes when no buffer is locked and one is not pinned. -/
theorem Pending.writesOf_commit (h : Pending s L) (hne : s.log.lh ≠ []) (hc : Calm s)
    (hp : s.log.lh.length < NBUF) (pid : ℕ) :
    writesOf (commit pid) s = commitWrites s.log.start s.log.lh L := by
  obtain ⟨_, s', hrun, hw, -⟩ :=
    (commit_spec pid h.inv h.dev h.nodup h.fits h.home hne).run ⟨hc, hp⟩
  simp [writesOf, hrun, hw]

/-- A machine whose cache holds block 46, logged and not yet on the disk. -/
def oneLogged : Machine :=
  { (boot (fun _ => Bytes.zero) 2 LOGSIZE).withBuf 0 ⟨true, ROOTDEV, 46, none, 1, fun _ => 7⟩ with
    log := ⟨2, LOGSIZE, 0, true, ROOTDEV, [46]⟩ }

theorem oneLogged_buf (i : Fin NBUF) :
    oneLogged.buf i = if i = 0 then ⟨true, ROOTDEV, 46, none, 1, fun _ => 7⟩
      else ⟨false, 0, 0, none, 0, Bytes.zero⟩ := by
  split
  next hi =>
    subst hi
    rfl
  next hi => exact withBuf_buf_of_ne hi

theorem oneLogged_for {i : Fin NBUF} {b : ℕ} : (oneLogged.buf i).For b ↔ i = 0 ∧ b = 46 := by
  rw [oneLogged_buf]
  split <;> simp_all [Buf.For, eq_comm]

theorem calm_oneLogged : Calm oneLogged := fun i => by
  rw [oneLogged_buf]
  split <;> rfl

theorem pending_oneLogged :
    Pending oneLogged (update (fun _ => Bytes.zero) 46 fun _ => 7) where
  inv := {
    ring := (inv_boot (fun _ => Bytes.zero) 2 LOGSIZE).ring
    unique := fun hi hj => (oneLogged_for.mp hi).1.trans (oneLogged_for.mp hj).1.symm
    refcnt := fun i => by
      rw [oneLogged_buf]
      split <;> simp [Buf.refs, oneLogged]
    pinned := fun b hb => ⟨0, oneLogged_for.mpr ⟨rfl, List.mem_singleton.mp hb⟩, rfl⟩
    data := fun {i b} hi _ _ => by
      obtain ⟨rfl, rfl⟩ := oneLogged_for.mp hi
      rfl
    disk := fun b hb => (update_of_ne (by simpa [oneLogged] using hb) ..).symm
    held := fun i hi => absurd hi (by simp)
    locked := fun i hi => absurd (calm_oneLogged i) hi }
  dev := rfl
  nodup := List.nodup_singleton 46
  fits := by decide
  length_le := by decide
  lt := by decide
  home := by simp [oneLogged, InLog, LOGSIZE, MAXOPBLOCKS]

theorem oneLogged_crash_atomic :
    ∃ s', recoverFromLog 1 (boot (applyWrites oneLogged.disk
        ((writesOf (commit 1) oneLogged).take 2)) 2 LOGSIZE) = .ok () s' ∧
      (s'.disk 2).get32 0 = 0 ∧ s'.disk 46 = fun _ => 7 := by
  have h0 : (oneLogged.disk oneLogged.log.start).get32 0 = 0 := Bytes.get32_zero ..
  have hw := pending_oneLogged.writesOf_commit (by decide) calm_oneLogged (by decide) 1
  have hc : Committed oneLogged.log.start ((writesOf (commit 1) oneLogged).take 2) := by
    rw [hw]
    refine ⟨_, List.mem_cons_of_mem _ List.mem_cons_self, rfl, ?_⟩
    rw [get32_putHeader (by decide)]
    decide
  obtain ⟨s', hrun, hheader, hnew, -⟩ := commit_crash_atomic pending_oneLogged h0 1 2 .none 1
  refine ⟨s', hrun, hheader, ?_⟩
  rw [hnew hc 46 (by simp [oneLogged, InLog, LOGSIZE, MAXOPBLOCKS])]
  rfl

end Xv6.Journal

import Xv6.Pid.Table

/-! # Process identifiers

A pid names one process as long as the counter has not wrapped. Failed creations
use up pids too, so that the counter can be driven around by a process that
always fails to fork.
-/

namespace Xv6.Pid

open Sys (ProcState Pptr)

variable {t t' : Table} {a : Act} {i j : Pptr} {l : List Act}

/-- The pids of the processes are positive and pairwise distinct. -/
structure Table.Identified (t : Table) : Prop where
  pos : ∀ i, t.Live i → 0 < (t.proc i).pid
  inj : ∀ i j, t.Live i → t.Live j → (t.proc i).pid = (t.proc j).pid → i = j

/-- A pid is handed out only while the counter has not wrapped. -/
def Fresh (t : Table) : Act → Prop
  | .alloc _ => 0 < t.nextpid
  | _ => True

instance : DecidablePred (Fresh t)
  | .alloc _ => inferInstanceAs (Decidable (0 < t.nextpid))
  | .abandon _ | .start .. | .adopt .. | .move .. | .exit _ | .reap .. | .kill .. =>
    inferInstanceAs (Decidable True)

/-- The steps before the counter wraps. -/
def freshStep : Table → Act → Option (Except Panic Table) := restrict step Fresh

structure Inv (t : Table) : Prop extends t.Identified where
  dead : ∀ i, ¬ t.Live i → (t.proc i).pid = 0
  range : t.nextpid < 2 ^ 31
  below : 0 < t.nextpid → ∀ i, (t.proc i).pid < t.nextpid

theorem int_succ {z : ℤ} (h₀ : 0 < z) (h : z < 2 ^ 31) :
    int (z + 1) = if z = 2 ^ 31 - 1 then - 2 ^ 31 else z + 1 := by
  unfold int
  rw [Int.bmod_def]
  push_cast
  split_ifs <;> omega

namespace Inv

theorem boot : Inv Table.boot := by
  have hfirst : ∀ i, Table.boot.Live i → i = 0 := by decide
  have hpid : ∀ i, (Table.boot.proc i).pid < 2 := by decide
  refine ⟨⟨by decide, fun i j hi hj _ => ?_⟩, by decide, by decide, fun _ => hpid⟩
  rw [hfirst i hi, hfirst j hj]

theorem alloc (h : Inv t) (hi : ¬ t.Live i) (hn : 0 < t.nextpid) : Inv (t.found i) := by
  have hlt := h.below hn
  have hr := h.range
  have hother : ∀ j ≠ i, (t.found i).proc j = t.proc j := fun j hj => by simp [hj]
  have hlive : ∀ j ≠ i, (t.found i).Live j ↔ t.Live j := fun j hj => by
    rw [Table.Live, Table.Live, hother j hj]
  have hself : ((t.found i).proc i).pid = t.nextpid := by simp
  refine ⟨⟨fun j hj => ?_, fun j k hj hk he => ?_⟩, fun j hj => ?_, ?_, fun hp j => ?_⟩
  · rcases eq_or_ne j i with rfl | hji
    · rwa [hself]
    · rw [hother j hji]
      exact h.pos j ((hlive j hji).mp hj)
  · rcases eq_or_ne j i with hji | hji <;> rcases eq_or_ne k i with hki | hki
    · rw [hji, hki]
    · have := hlt k
      rw [hji, hself, hother k hki] at he
      omega
    · have := hlt j
      rw [hki, hself, hother j hji] at he
      omega
    · rw [hother j hji, hother k hki] at he
      exact h.inj j k ((hlive j hji).mp hj) ((hlive k hki).mp hk) he
  · rcases eq_or_ne j i with rfl | hji
    · simp [Table.Live] at hj
    · rw [hother j hji]
      exact h.dead j fun hl => hj ((hlive j hji).mpr hl)
  · rw [Table.found_nextpid, int_succ hn hr]
    split_ifs <;> omega
  · rw [Table.found_nextpid, int_succ hn hr] at hp ⊢
    split_ifs at hp ⊢ with hmax
    · omega
    · rcases eq_or_ne j i with rfl | hji
      · rw [hself]
        omega
      · have := hlt j
        rw [hother j hji]
        omega

theorem free (h : Inv t) (hi : t.Live i) : Inv (t.freeproc i) := by
  have hpos := h.pos i hi
  have hother : ∀ j ≠ i, (t.freeproc i).proc j = t.proc j := fun j hj => by simp [hj]
  have hself : (t.freeproc i).proc i = .free := by simp
  have hdead : ¬ (t.freeproc i).Live i := by simp [Table.Live, Slot.free]
  have hlive : ∀ j, (t.freeproc i).Live j → j ≠ i ∧ t.Live j := fun j hj => by
    rcases eq_or_ne j i with rfl | hji
    · exact absurd hj hdead
    · rw [Table.Live, hother j hji] at hj
      exact ⟨hji, hj⟩
  refine ⟨⟨fun j hj => ?_, fun j k hj hk he => ?_⟩, fun j hj => ?_, h.range, fun hp j => ?_⟩
  · obtain ⟨hji, hl⟩ := hlive j hj
    rw [hother j hji]
    exact h.pos j hl
  · obtain ⟨hji, hl⟩ := hlive j hj
    obtain ⟨hki, hl'⟩ := hlive k hk
    rw [hother j hji, hother k hki] at he
    exact h.inj j k hl hl' he
  · rcases eq_or_ne j i with rfl | hji
    · rw [hself]
      rfl
    · rw [hother j hji]
      refine h.dead j fun hl => hj ?_
      rwa [Table.Live, hother j hji]
  · rcases eq_or_ne j i with rfl | hji
    · rw [hself]
      exact hp
    · rw [hother j hji]
      exact h.below hp j

theorem step (h : Inv t) (hs : Next freshStep t a t') : Inv t' := by
  obtain ⟨hf, hs⟩ := (next_restrict _).mp hs
  cases Change.of_next hs with
  | alloc i label dead eq =>
    subst label eq
    exact h.alloc dead hf
  | free i _ live eq =>
    subst eq
    exact h.free live
  | keep pid live next =>
    refine ⟨⟨fun i hi => ?_, fun i j hi hj he => ?_⟩, fun i hi => ?_, ?_, fun hp i => ?_⟩
    · rw [pid]
      exact h.pos i ((live i).mp hi)
    · rw [pid, pid] at he
      exact h.inj i j ((live i).mp hi) ((live j).mp hj) he
    · rw [pid]
      exact h.dead i fun hl => hi ((live i).mpr hl)
    · rw [next]
      exact h.range
    · rw [next] at hp ⊢
      rw [pid]
      exact h.below hp i

theorem run (h : Run (Next freshStep) Table.boot l t) : Inv t :=
  h.invariant (fun _ _ _ _ hs hi => hi.step hs) boot

end Inv

/-- As long as the counter of pids has not wrapped, the pids of the processes are positive and
distinct: `fork` returns a positive pid for the child it made, and the slot where `kill` stops and
the one that `wait` frees are those of the only process with that pid. -/
theorem pids_identify (h : Run (Next freshStep) Table.boot l t) :
    t.Identified ∧
    (∀ i r t', Next step t (.start i r) t' → 0 < r) ∧
    (∀ pid i t', Next step t (.kill pid i) t' → ∀ j, t.Live j → (t.proc j).pid = pid → j = i) ∧
    ∀ p i r t', Next step t (.reap p i r) t' →
      0 < r ∧ ∀ j, t.Live j → (t.proc j).pid = r → j = i := by
  have hI := Inv.run h
  refine ⟨hI.toIdentified, fun i r t' hs => ?_, fun pid i t' hs j hj he => ?_,
    fun p i r t' hs => ?_⟩
  · simp only [Next, step] at hs
    split_ifs at hs with h₀
    rw [h₀.2.2]
    exact hI.pos i (by simp [Table.Live, h₀.1])
  · simp only [Next, step] at hs
    split_ifs at hs with h₀
    subst he
    -- a free slot has pid 0, which no process has
    by_cases hi : t.Live i
    · exact hI.inj j i hj hi h₀.symm
    · have := hI.pos j hj
      rw [← h₀, hI.dead i hi] at this
      omega
  · simp only [Next, step] at hs
    split_ifs at hs with h₀
    have hi : t.Live i := by simp [Table.Live, h₀.2.1]
    rw [h₀.2.2]
    exact ⟨hI.pos i hi, fun j hj he => hI.inj j i hj hi he⟩

/-- The first process and its child have different pids. -/
theorem pids_identify_child : ∃ t, exec freshStep Table.boot
      [.move 0 .running, .alloc 1, .adopt 0 1, .start 1 2] = some t ∧ t.Identified := by
  obtain ⟨t, ht, -⟩ := exists_of_exec freshStep (P := fun _ => True) (s := Table.boot)
    (l := [.move 0 .running, .alloc 1, .adopt 0 1, .start 1 2]) (by decide)
  exact ⟨t, ht, (pids_identify (run_of_exec freshStep ht)).1⟩

/-! ## Wrapping around -/

/-- `n` creations that fail. -/
def churn (n : ℕ) : List Act := (List.replicate n [Act.alloc 1, Act.abandon 1]).flatten

/-- The table with another value of the counter. -/
def Table.withNext (t : Table) (z : ℤ) : Table := { t with nextpid := z }

/-- A failed creation leaves nothing behind but the counter. -/
theorem run_fail (h : t.proc 1 = .free) :
    Run (Next step) t [.alloc 1, .abandon 1] (t.withNext (int (t.nextpid + 1))) := by
  have hback : (t.found 1).freeproc 1 = t.withNext (int (t.nextpid + 1)) := by
    simp only [Table.found, Table.allocpid, Table.freeproc, Table.set, Table.withNext,
      Function.update_idem, ← h, Function.update_eq_self]
  have hfound : Next step t (.alloc 1) (t.found 1) := by simp [Next, step, h, Slot.free]
  refine .cons hfound (.single ?_)
  simp [Next, step, hback, h, Slot.free]

theorem run_churn (n : ℕ) (h : t.proc 1 = .free) (hint : int t.nextpid = t.nextpid) :
    Run (Next step) t (churn n) (t.withNext (int (t.nextpid + n))) := by
  induction n generalizing t with
  | zero =>
    have : t.withNext (int (t.nextpid + (0 : ℕ))) = t := by
      simp [Table.withNext, hint]
    rw [this]
    exact .nil t
  | succ n ih =>
    have := ih (t := t.withNext (int (t.nextpid + 1))) h (Int.bmod_bmod ..)
    have hsum : int (int (t.nextpid + 1) + n) = int (t.nextpid + (n + 1 : ℕ)) := by
      unfold int
      rw [Int.bmod_add_bmod]
      push_cast
      ring_nf
    simp only [Table.withNext, hsum] at this
    exact (run_fail h).append this

/-- The first process forks. -/
theorem run_fork (h : t.proc 1 = .free) : ∃ t', Run (Next step) t
      [.alloc 1, .adopt 0 1, .start 1 t.nextpid] t' ∧ t'.proc 0 = t.proc 0 ∧
      t'.proc 1 = ⟨.runnable, t.nextpid, some 0, false⟩ := by
  obtain ⟨u, hu⟩ : ∃ u, u = (t.found 1).set 1 ⟨.used, t.nextpid, some 0, false⟩ := ⟨_, rfl⟩
  refine ⟨u.set 1 ⟨.runnable, t.nextpid, some 0, false⟩, ?_, by simp [hu], by simp⟩
  have hfound : Next step t (.alloc 1) (t.found 1) := by simp [Next, step, h, Slot.free]
  have hadopt : Next step (t.found 1) (.adopt 0 1) u := by simp [Next, step, hu, h, Slot.free]
  refine .cons hfound (.cons hadopt (.single ?_))
  simp [Next, step, hu]

/-- A fork after `n` failed ones. -/
theorem run_fork_churn (n : ℕ) : ∃ l t, Run (Next step) Table.boot l t ∧
    t.proc 0 = ⟨.running, 1, none, false⟩ ∧
    t.proc 1 = ⟨.runnable, int (2 + n), some 0, false⟩ := by
  obtain ⟨u, hu⟩ : ∃ u, u = Table.boot.set 0 ⟨.running, 1, none, false⟩ := ⟨_, rfl⟩
  have h₀ : Next step Table.boot (.move 0 .running) u := by
    rw [hu]
    rfl
  have hnext : u.nextpid = 2 := by
    rw [hu]
    rfl
  have h₁ : u.proc 1 = .free := by
    rw [hu]
    rfl
  have hchurn := run_churn n h₁ (by rw [hnext]; rfl)
  obtain ⟨t, hrun, ht₀, ht₁⟩ := run_fork (t := u.withNext (int (u.nextpid + n))) h₁
  refine ⟨_, t, (Run.single h₀).append (hchurn.append hrun), ?_, ?_⟩
  · rw [ht₀, hu]
    rfl
  · rw [ht₁, ← hnext]
    rfl

/-- After 2³¹ - 2 failed forks the next child has a negative pid, and after 2³² - 1 of them it has
the pid of the first process. -/
theorem pids_wrap :
    (∃ l t, Run (Next step) Table.boot l t ∧ ∃ i, t.Live i ∧ (t.proc i).pid < 0) ∧
    ∃ l t, Run (Next step) Table.boot l t ∧
      ∃ i j, i ≠ j ∧ t.Live i ∧ t.Live j ∧ (t.proc i).pid = (t.proc j).pid := by
  constructor
  · obtain ⟨l, t, hrun, -, h₁⟩ := run_fork_churn (2 ^ 31 - 2)
    refine ⟨l, t, hrun, 1, ?_, ?_⟩
    · simp [Table.Live, h₁]
    · rw [h₁]
      decide
  · obtain ⟨l, t, hrun, h₀, h₁⟩ := run_fork_churn (2 ^ 32 - 1)
    refine ⟨l, t, hrun, 0, 1, by decide, ?_, ?_, ?_⟩
    · simp [Table.Live, h₀]
    · simp [Table.Live, h₁]
    · rw [h₀, h₁]
      decide

end Xv6.Pid

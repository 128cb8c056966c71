import Xv6.Sched.Control

/-! # Switching

`swtch` hands the lock of a process from the scheduler to its thread and back.
-/

namespace Xv6.Sched

open Sys (ProcState)

variable {N M : ℕ} {s t : Control N M} {c : Fin M} {p : Fin N} {k : Pc N} {y : Cpu N}

namespace Inv

theorem runs_none (h : Inv s) {pc : Pc N} (hpc : s.pc c = pc) (hn : ∀ p, ¬ pc.Wf (some p)) :
    (s.cpu c).runs = none := by
  cases hr : (s.cpu c).runs with
  | none => rfl
  | some p => exact absurd (hr ▸ hpc ▸ h.wf c) (hn p)

theorem proc_eq_target (h : Inv s) (hr : (s.cpu c).runs = none) :
    (s.cpu c).proc = (s.pc c).target := by
  rw [Control.pc_of_none hr, h.cpus.idle c hr]

/-- What is left to show when CPU `c` goes from its scheduler to a thread or back, to `k`. -/
theorem setCpu (h : Inv s) (hcpu : t.cpu = s.cpu)
    (hlock : ∀ q, (t.slot q).lock = (s.slot q).lock) (hlk : t.lk = s.lk)
    (hpc : ∀ c', c' ≠ c → ∀ q, (s.cpu c').runs = some q → (t.slot q).pc = (s.slot q).pc)
    (hk : (t.setCpu c y).pc c = k) (hholds : k.holds y.runs = (s.pc c).holds (s.cpu c).runs)
    (hlocks : k.locks = (s.pc c).locks)
    (hruns : ∀ q, y.runs = some q → y.proc = some q ∧ y.pc = .back q)
    (hidle : y.runs = none → y.proc = y.pc.target)
    (hone : ∀ q, y.proc = some q → ∀ c', c' ≠ c → (s.cpu c').proc ≠ some q) (hwf : y.pc.Wf none)
    (hproc : ∀ q, (t.slot q).pc.Wf (some q))
    (hhalted : ∀ q, y.runs ≠ some q → (∀ c', c' ≠ c → (s.cpu c').runs ≠ some q) →
      (t.slot q).pc.Halted ∧ (t.slot q).pc.locks = ∅)
    (halive : ∀ q, Live (t.slot q).state → (t.slot q).pc.Alive)
    (hdying : ∀ q, (t.slot q).pc.Dying → (t.slot q).state = .zombie)
    (hmakes : ∀ p q, (t.slot p).pc.makes = some q → (t.slot q).state = .used ∧
      ((t.slot q).pc = .forkret ∨ ∃ k, (t.slot p).pc = .setup q k))
    (hmaker : ∀ p p' q, (t.slot p).pc.makes = some q → (t.slot p').pc.makes = some q → p = p')
    (hrun : ∀ q, (t.slot q).state = .running ↔ y.proc = some q ∧ k.leaving = false ∨
      (s.cpu c).proc ≠ some q ∧ (s.slot q).state = .running) : Inv (t.setCpu c y) := by
  have hself : (t.setCpu c y).cpu c = y := by rw [Control.cpu_setCpu, if_pos rfl]
  have hother : ∀ c', c' ≠ c → (t.setCpu c y).cpu c' = s.cpu c' := fun c' hne => by
    rw [Control.cpu_setCpu, if_neg hne, hcpu]
  have hcur : ∀ c', c' ≠ c → (t.setCpu c y).pc c' = s.pc c' := fun c' hne => by
    unfold Control.pc
    rw [hother c' hne]
    split
    · rfl
    next q hq => exact hpc c' hne q hq
  refine ⟨h.locks.congr hlock hlk (fun c' => ?_) fun c' => ?_, ⟨fun c' q hc' => ?_,
    fun c' hc' => ?_, fun c₁ c₂ q h₁ h₂ => ?_⟩, ⟨hproc, fun c' => ?_, fun q hq => ?_, halive,
    hdying, hmakes, hmaker⟩, fun q => ?_⟩
  · rcases eq_or_ne c' c with rfl | hne
    · rw [hk, hself, hholds]
    · rw [hcur c' hne, hother c' hne]
  · rcases eq_or_ne c' c with rfl | hne
    · rw [hk, hlocks]
    · rw [hcur c' hne]
  · rcases eq_or_ne c' c with rfl | hne
    · rw [hself] at hc' ⊢
      exact hruns q hc'
    · rw [hother c' hne] at hc' ⊢
      exact h.cpus.runs c' q hc'
  · rcases eq_or_ne c' c with rfl | hne
    · rw [hself] at hc' ⊢
      exact hidle hc'
    · rw [hother c' hne] at hc' ⊢
      exact h.cpus.idle c' hc'
  · rcases eq_or_ne c₁ c with rfl | hne₁ <;> rcases eq_or_ne c₂ c₁ with rfl | hne
    · rfl
    · rw [hself] at h₁
      rw [hother c₂ hne] at h₂
      exact absurd h₂ (hone q h₁ c₂ hne)
    · rfl
    · rw [hother c₁ hne₁] at h₁
      rcases eq_or_ne c₂ c with rfl | hne₂
      · rw [hself] at h₂
        exact absurd h₁ (hone q h₂ c₁ hne₁)
      · rw [hother c₂ hne₂] at h₂
        exact h.cpus.one c₁ c₂ q h₁ h₂
  · rcases eq_or_ne c' c with rfl | hne
    · rwa [hself]
    · rw [hother c' hne]
      exact h.threads.cpu c'
  · exact hhalted q (hself ▸ hq c) fun c' hne => hother c' hne ▸ hq c'
  · rw [Control.slot_setCpu, hrun]
    constructor
    · rintro (⟨hy, hl⟩ | ⟨hne, hq⟩)
      · exact ⟨c, by rw [hself, hy], by rw [hk, hl]⟩
      · obtain ⟨c', hc', hl⟩ := (h.running q).mp hq
        have hcc : c' ≠ c := fun he => hne (he ▸ hc')
        exact ⟨c', by rw [hother c' hcc, hc'], by rw [hcur c' hcc, hl]⟩
    · rintro ⟨c', hc', hl⟩
      rcases eq_or_ne c' c with rfl | hne
      · exact .inl ⟨by rwa [hself] at hc', by rwa [hk] at hl⟩
      · rw [hother c' hne] at hc'
        rw [hcur c' hne] at hl
        exact .inr ⟨fun hc => hne (h.cpus.one c' c q hc' hc), (h.running q).mpr ⟨c', hc', hl⟩⟩

theorem not_running (h : Inv s) (hp : (s.cpu c).proc = some p) (hl : (s.pc c).leaving = true) :
    (s.slot p).state ≠ .running := by
  rw [Ne, h.running]
  rintro ⟨c', hc', hl'⟩
  rw [h.cpus.one c' c p hc' hp, hl] at hl'
  cases hl'

/-- `scheduler` makes `p` the process of its CPU. -/
theorem choose (h : Inv s) (hpc : s.pc c = .choose p) (hp : (s.slot p).state = .runnable) :
    Inv (((s.setState p .running).setProc c (some p)).goto c (.switch p)) := by
  have hr := h.runs_none hpc fun p => by simp [Pc.Wf]
  have hproc : (s.cpu c).proc = none := by rw [h.proc_eq_target hr, hpc]; rfl
  have hoff : ∀ c', (s.cpu c').proc ≠ some p :=
    h.off_of_holds (c := c) (by simp [hp]) (by rw [hpc]; rfl) (by rw [hpc]; rfl)
  have heq : ((s.setState p .running).setProc c (some p)).goto c (.switch p) =
      (s.setState p .running).setCpu c ⟨some p, none, .switch p⟩ := by
    simp [Control.goto, Control.setProc, Control.setCpu, hr]
  rw [heq]
  refine h.setCpu (k := .switch p) rfl (fun _ => Control.lock_setState) rfl
    (fun _ _ _ _ => Control.pc_setState) (by simp [Control.pc, Control.setCpu])
    (by rw [hpc]; rfl) (by rw [hpc]; rfl) nofun (fun _ => rfl)
    (fun q hq c' _ => Option.some.inj hq ▸ hoff c') rfl (fun q => ?_) (fun q _ hq => ?_)
    (fun q hq => ?_) (fun q hq => ?_) (fun q q' hq => ?_) (fun q₁ q₂ q h₁ h₂ => ?_) fun q => ?_
  · rw [Control.pc_setState]
    exact h.threads.proc q
  · rw [Control.pc_setState]
    refine h.threads.halted q fun c' => ?_
    rcases eq_or_ne c' c with rfl | hne
    · simp [hr]
    · exact hq c' hne
  · rw [Control.state_setState] at hq
    rw [Control.pc_setState]
    split at hq
    next he => exact h.threads.alive q (he ▸ .inl hp)
    next => exact h.threads.alive q hq
  · rw [Control.pc_setState] at hq
    have hz := h.threads.dying q hq
    rw [Control.state_setState, if_neg]
    · exact hz
    · rintro rfl
      simp [hp] at hz
  · rw [Control.pc_setState] at hq
    obtain ⟨hu, hf⟩ := h.threads.makes q q' hq
    rw [Control.state_setState, if_neg, Control.pc_setState, Control.pc_setState]
    · exact ⟨hu, hf⟩
    · rintro rfl
      simp [hp] at hu
  · rw [Control.pc_setState] at h₁ h₂
    exact h.threads.maker q₁ q₂ q h₁ h₂
  · rw [Control.state_setState]
    rcases eq_or_ne q p with rfl | hne
    · simp [Pc.leaving]
    · simp [hne, hne.symm, hproc]

/-- The process has given up the CPU. -/
theorem back (h : Inv s) (hpc : s.pc c = .back p) :
    Inv ((s.setProc c none).goto c (.unlock p (.scan (p + 1)))) := by
  have hr := h.runs_none hpc fun p => by simp [Pc.Wf]
  have hproc : (s.cpu c).proc = some p := by rw [h.proc_eq_target hr, hpc]; rfl
  have hnot := h.not_running hproc (by rw [hpc]; rfl)
  have heq : (s.setProc c none).goto c (.unlock p (.scan (p + 1))) =
      s.setCpu c ⟨none, none, .unlock p (.scan (p + 1))⟩ := by
    simp [Control.goto, Control.setProc, Control.setCpu, hr]
  rw [heq]
  refine h.setCpu (k := .unlock p (.scan (p + 1))) rfl (fun _ => rfl) rfl (fun _ _ _ _ => rfl)
    (by simp [Control.pc, Control.setCpu]) (by rw [hpc]; rfl) (by rw [hpc]; rfl) nofun (fun _ =>
      rfl)
    nofun ⟨rfl, rfl, rfl⟩ h.threads.proc (fun q _ hq => h.threads.halted q fun c' => ?_)
    h.threads.alive h.threads.dying h.threads.makes h.threads.maker fun q => ?_
  · rcases eq_or_ne c' c with rfl | hne
    · simp [hr]
    · exact hq c' hne
  · rcases eq_or_ne q p with rfl | hne
    · simp [hnot]
    · simp [hproc, hne.symm]

theorem switch (h : Inv s) (hpc : s.pc c = .switch p) :
    Inv ((s.goto c (.back p)).setRuns c (some p)) := by
  have hr := h.runs_none hpc fun p => by simp [Pc.Wf]
  have hproc : (s.cpu c).proc = some p := by rw [h.proc_eq_target hr, hpc]; rfl
  have hone : ∀ c', c' ≠ c → (s.cpu c').proc ≠ some p := fun c' hne hc' =>
    hne (h.cpus.one c' c p hc' hproc)
  have hstate : (s.slot p).state = .running := (h.running p).mpr ⟨c, hproc, by rw [hpc]; rfl⟩
  obtain ⟨hhalted, hlocks⟩ := h.threads.halted p fun c' hc' => by
    rcases eq_or_ne c' c with rfl | hne
    · simp [hr] at hc'
    · exact hone c' hne (h.cpus.runs c' p hc').1
  -- the thread has the lock of its process where it went to sleep
  have hholds : (s.slot p).pc.holds (some p) = some p := by
    rcases hhalted with hp | ⟨b, k, hp⟩ <;> rw [hp] <;> rfl
  have hleaving : (s.slot p).pc.leaving = false := by
    rcases hhalted with hp | ⟨b, k, hp⟩ <;> rw [hp] <;> rfl
  have heq : (s.goto c (.back p)).setRuns c (some p) =
      s.setCpu c ⟨some p, some p, .back p⟩ := by
    simp [Control.goto, Control.setRuns, Control.setCpu, hr, hproc]
  rw [heq]
  refine h.setCpu (k := (s.slot p).pc) rfl (fun _ => rfl) rfl (fun _ _ _ _ => rfl)
    (by simp [Control.pc, Control.setCpu]) (by rw [hpc]; exact hholds) (by rw [hpc]; exact hlocks)
    (fun q hq => Option.some.inj hq ▸ ⟨rfl, rfl⟩) nofun (fun q hq => Option.some.inj hq ▸ hone) rfl
    h.threads.proc (fun q hne hq => h.threads.halted q fun c' => ?_) h.threads.alive h.threads.dying
    h.threads.makes h.threads.maker fun q => ?_
  · rcases eq_or_ne c' c with rfl | hne
    · simp [hr]
    · exact hq c' hne
  · rcases eq_or_ne q p with rfl | hne
    · simp [hstate, hleaving]
    · simp [hproc, hne.symm]

theorem sched (h : Inv s) {b : Bool} (hr : (s.cpu c).runs = some p) (hpc : s.pc c = .sched k)
    (hk : k.locks = ∅) : Inv ((s.goto c (.resume b k)).setRuns c none) := by
  obtain ⟨hproc, hback⟩ := h.cpus.runs c p hr
  have hp : (s.slot p).pc = .sched k := by rw [← Control.pc_of_runs hr, hpc]
  have hw : (Pc.sched k).Wf (some p) := hr ▸ hpc ▸ h.wf c
  have hnot := h.not_running hproc (by rw [hpc]; rfl)
  have heq : (s.goto c (.resume b k)).setRuns c none =
      (s.setPc p (.resume b k)).setCpu c ⟨some p, none, .back p⟩ := by
    simp [Control.goto, Control.setRuns, Control.setCpu, hr, hproc, hback]
  have hmk : ∀ q, ((s.setPc p (.resume b k)).slot q).pc.makes = (s.slot q).pc.makes := fun q => by
    rw [Control.pc_setPc]
    split
    next he => rw [he, hp]; rfl
    next => rfl
  rw [heq]
  refine h.setCpu (k := .back p) rfl (fun _ => Control.lock_setPc) rfl (fun c' hne q hq => ?_)
    (by simp [Control.pc, Control.setCpu]) (by rw [hpc, hr]; rfl) (by rw [hpc]; exact hk.symm) nofun
    (fun _ => rfl) (fun q hq c' hne hc' => ?_) rfl (fun q => ?_) (fun q _ hq => ?_) (fun q hq => ?_)
    (fun q hq => ?_) (fun q q' hq => ?_) (fun q₁ q₂ q h₁ h₂ => ?_) fun q => ?_
  · rw [Control.pc_setPc, if_neg]
    rintro rfl
    exact hne (h.cpus.runs_one hq hr)
  · exact hne (h.cpus.one c' c q hc' (hproc.trans hq))
  · rw [Control.pc_setPc]
    split
    next he => exact he ▸ hw
    next => exact h.threads.proc q
  · rw [Control.pc_setPc]
    split
    · exact ⟨.inr ⟨b, k, rfl⟩, hk⟩
    next he =>
      refine h.threads.halted q fun c' hc' => ?_
      rcases eq_or_ne c' c with rfl | hne
      · exact he (Option.some.inj (hc'.symm.trans hr))
      · exact hq c' hne hc'
  · rw [Control.state_setPc] at hq
    rw [Control.pc_setPc]
    split
    next he =>
      -- a process that went through `exit` is a zombie
      rintro b' hb
      injection hb with _ hz
      have := h.threads.dying p (by rw [hp]; exact hz)
      rw [he, this] at hq
      simp [Live] at hq
    next => exact h.threads.alive q hq
  · rw [Control.pc_setPc] at hq
    rw [Control.state_setPc]
    split at hq
    · exact hq.elim
    · exact h.threads.dying q hq
  · rw [hmk] at hq
    obtain ⟨hu, hf⟩ := h.threads.makes q q' hq
    refine ⟨Control.state_setPc.trans hu, ?_⟩
    rcases hf with hf | ⟨k', hf⟩
    · refine .inl ?_
      rw [Control.pc_setPc, if_neg, hf]
      rintro rfl
      simp [hp] at hf
    · refine .inr ⟨k', ?_⟩
      rw [Control.pc_setPc, if_neg, hf]
      rintro rfl
      simp [hp] at hf
  · rw [hmk] at h₁ h₂
    exact h.threads.maker q₁ q₂ q h₁ h₂
  · rw [Control.state_setPc]
    rcases eq_or_ne q p with rfl | hne
    · simp [hnot, hproc, Pc.leaving]
    · simp [hproc, hne.symm]

end Inv

end Xv6.Sched

import Xv6.Proc.Sleepers
import Xv6.Proc.Tree

/-! # Exit and wait

Each exit is reported by at most one `wait`, to the parent, and no parent sleeps in
`wait` while it has a zombie child, unless the holder of `wait_lock` will wake it.
-/

namespace Xv6.Proc

open Sys

variable {s s' : Machine} {p q r : Pptr} {ok : Bool} {pc pc' : Pc} {a : Act} {x y : Slot}

/-! ## Reports -/

/-- The exits so far, and what `wait` has reported of them, by pid. -/
structure Reports (s : Machine) : Prop where
  nextpid : 0 < s.nextpid
  pid : ∀ q, (s.slot q).state ≠ .unused → 0 < (s.slot q).pid ∧ (s.slot q).pid < s.nextpid
  unique : ∀ q r, (s.slot q).state ≠ .unused → (s.slot r).state ≠ .unused →
    (s.slot q).pid = (s.slot r).pid → q = r
  old : ∀ e ∈ s.exits, e.pid < s.nextpid
  exits : (s.exits.map Exit.pid).Nodup
  reaps : (s.reaps.map Exit.pid).Nodup
  sub : ∀ e ∈ s.reaps, e ∈ s.exits
  live : ∀ q, (s.slot q).state ≠ .unused → (s.slot q).state ≠ .zombie →
    (s.slot q).pid ∉ s.exits.map Exit.pid
  zombie : ∀ q, (s.slot q).state = .zombie →
    (s.slot q).report ∈ s.exits ∧ (s.slot q).pid ∉ s.reaps.map Exit.pid

/-- A slot with the same process and the same report. -/
structure Same (x y : Slot) : Prop where
  report : y.report = x.report
  unused : y.state = .unused ↔ x.state = .unused
  zombie : y.state = .zombie ↔ x.state = .zombie

theorem Same.refl (x : Slot) : Same x x := ⟨rfl, .rfl, .rfl⟩

theorem Same.pid (h : Same x y) : y.pid = x.pid := congrArg Exit.pid h.report

theorem Same.of_state {st : ProcState} (hx : x.state ≠ .unused) (hx' : x.state ≠ .zombie)
    (hs : st ≠ .unused) (hs' : st ≠ .zombie) (hr : y.report = x.report) (hy : y.state = st) :
    Same x y :=
  ⟨hr, by simp [hy, hs, hx], by simp [hy, hs', hx']⟩

theorem Same.rouse (hx : x.state ≠ .unused) (hx' : x.state ≠ .zombie) : Same x x.rouse :=
  .of_state hx hx' (by simp [Slot.rouse]) (by simp [Slot.rouse]) rfl rfl

theorem Same.kill (x : Slot) : Same x x.kill := by
  by_cases hs : x.state = .sleeping <;> refine ⟨rfl, ?_, ?_⟩ <;> simp [Slot.kill, hs]

namespace Reports

theorem frame (h : Reports s) (hs : ∀ r, Same (s.slot r) (s'.slot r))
    (hn : s'.nextpid = s.nextpid) (he : s'.exits = s.exits) (hr : s'.reaps = s.reaps) :
    Reports s' where
  nextpid := by
    rw [hn]
    exact h.nextpid
  pid q hq := by
    rw [(hs q).pid, hn]
    exact h.pid q (mt (hs q).unused.mpr hq)
  unique q r hq hr hqr := by
    rw [(hs q).pid, (hs r).pid] at hqr
    exact h.unique q r (mt (hs q).unused.mpr hq) (mt (hs r).unused.mpr hr) hqr
  old := by
    rw [he, hn]
    exact h.old
  exits := by
    rw [he]
    exact h.exits
  reaps := by
    rw [hr]
    exact h.reaps
  sub := by
    rw [he, hr]
    exact h.sub
  live q hq hz := by
    rw [(hs q).pid, he]
    exact h.live q (mt (hs q).unused.mpr hq) (mt (hs q).zombie.mpr hz)
  zombie q hq := by
    rw [(hs q).report, (hs q).pid, he, hr]
    exact h.zombie q ((hs q).zombie.mp hq)

theorem modify {f : Slot → Slot} (h : Reports s) (hq : Same (s.slot q) (f (s.slot q))) :
    Reports (s.modify q f) := by
  refine h.frame (fun r => ?_) rfl rfl rfl
  rw [Machine.slot_modify]
  split
  next hr => exact hr ▸ hq
  next => exact .refl _

theorem goto (h : Reports s) : Reports (s.goto p pc) := h.modify ⟨rfl, .rfl, .rfl⟩

theorem finish {z : ℤ} (h : Reports s) : Reports (s.finish p z) := h.modify ⟨rfl, .rfl, .rfl⟩

theorem congr (h : Reports s) (hs : s'.slot = s.slot) (hn : s'.nextpid = s.nextpid)
    (he : s'.exits = s.exits) (hr : s'.reaps = s.reaps) : Reports s' :=
  h.frame (fun r => by rw [hs]; exact .refl _) hn he hr

/-- A new process has a pid that nobody had before. -/
theorem alloc (h : Reports s) : Reports (s.allocproc q true) := by
  have hslot : ∀ r, (s.allocproc q true).slot r =
      if r = q then (s.slot q).allocproc s.nextpid s.born else s.slot r := fun r => by
    rw [Machine.slot_allocproc]
    rfl
  have hnew : ∀ r, (s.slot r).state ≠ .unused → (s.slot r).pid ≠ s.nextpid :=
    fun r hr => (h.pid r hr).2.ne
  constructor
  · exact Int.lt_add_one_of_le (Int.le_of_lt h.nextpid)
  · intro r hr
    change 0 < _ ∧ _ < s.nextpid + 1
    have h₁ := h.pid r
    have h₂ := h.nextpid
    rw [hslot] at hr ⊢
    grind [Slot.allocproc]
  · intro r t hr ht hrt
    have h₁ := h.unique r t
    have h₂ := hnew r
    have h₃ := hnew t
    rw [hslot] at hr ht hrt
    rw [hslot] at hrt
    grind [Slot.allocproc]
  · exact fun e he => Int.lt_add_one_of_le (Int.le_of_lt (h.old e he))
  · exact h.exits
  · exact h.reaps
  · exact h.sub
  · intro r hr hz
    change _ ∉ s.exits.map Exit.pid
    have h₁ := h.live r
    have h₂ : s.nextpid ∉ s.exits.map Exit.pid := by
      intro hm
      obtain ⟨e, he, hp⟩ := List.mem_map.mp hm
      exact absurd hp (h.old e he).ne
    rw [hslot] at hr hz ⊢
    grind [Slot.allocproc]
  · intro r hr
    have h₁ := h.zombie r
    rw [hslot] at hr ⊢
    change _ ∈ s.exits ∧ _ ∉ s.reaps.map Exit.pid
    grind [Slot.allocproc]

/-- A slot becomes free. -/
theorem freeproc (h : Reports s) : Reports (s.modify q Slot.freeproc) := by
  have hslot : ∀ r, (s.modify q Slot.freeproc).slot r =
      if r = q then (s.slot q).freeproc else s.slot r := fun r => Machine.slot_modify
  have huse : ∀ r, ((s.modify q Slot.freeproc).slot r).state ≠ .unused → r ≠ q := by
    rintro r hr rfl
    exact hr (by rw [hslot, if_pos rfl, Slot.freeproc])
  constructor
  · exact h.nextpid
  · intro r hr
    have := huse r hr
    rw [hslot, if_neg this] at hr ⊢
    exact h.pid r hr
  · intro r t hr ht hrt
    have h₁ := huse r hr
    have h₂ := huse t ht
    rw [hslot, if_neg h₁] at hr hrt
    rw [hslot, if_neg h₂] at ht hrt
    exact h.unique r t hr ht hrt
  · exact h.old
  · exact h.exits
  · exact h.reaps
  · exact h.sub
  · intro r hr hz
    have := huse r hr
    rw [hslot, if_neg this] at hr hz ⊢
    exact h.live r hr hz
  · intro r hr
    have := huse r (by simp [hr])
    rw [hslot, if_neg this] at hr ⊢
    exact h.zombie r hr

/-- An `allocproc` that fails uses up a pid. -/
theorem skip (h : Reports s) : Reports { s with nextpid := s.nextpid + 1 } :=
  { h with
    nextpid := Int.lt_add_one_of_le (Int.le_of_lt h.nextpid)
    pid := fun q hq => ⟨(h.pid q hq).1, Int.lt_add_one_of_le (Int.le_of_lt (h.pid q hq).2)⟩
    old := fun e he => Int.lt_add_one_of_le (Int.le_of_lt (h.old e he)) }

theorem exit (h : Reports s) (hr : (s.slot p).state = .running) (status : ℤ) :
    Reports { s.modify p (·.exit status) with
      exits := ((s.slot p).exit status).report :: s.exits } := by
  have hslot : ∀ r, (s.modify p (·.exit status)).slot r =
      if r = p then (s.slot p).exit status else s.slot r := fun r => Machine.slot_modify
  have hp := h.pid p (by simp [hr])
  have hlive := h.live p (by simp [hr]) (by simp [hr])
  have huse : ∀ r, ((s.modify p (·.exit status)).slot r).state ≠ .unused →
      (s.slot r).state ≠ .unused ∧ ((s.modify p (·.exit status)).slot r).pid = (s.slot r).pid := by
    intro r h
    rw [hslot] at h ⊢
    grind [Slot.exit]
  constructor
  · exact h.nextpid
  · intro r hr'
    obtain ⟨h₁, h₂⟩ := huse r hr'
    change 0 < ((s.modify p (·.exit status)).slot r).pid ∧ _ < s.nextpid
    rw [h₂]
    exact h.pid r h₁
  · intro r t hr' ht hrt
    obtain ⟨h₁, h₂⟩ := huse r hr'
    obtain ⟨h₃, h₄⟩ := huse t ht
    exact h.unique r t h₁ h₃ (h₂.symm.trans (hrt.trans h₄))
  · intro e he
    rcases List.mem_cons.mp he with rfl | he
    · exact hp.2
    · exact h.old e he
  · exact List.nodup_cons.mpr ⟨hlive, h.exits⟩
  · exact h.reaps
  · exact fun e he => List.mem_cons_of_mem _ (h.sub e he)
  · intro r hr' hz
    have hrp : r ≠ p := by
      rintro rfl
      exact hz (by change ((s.modify r (·.exit status)).slot r).state = _
                   rw [hslot, if_pos rfl, Slot.exit])
    obtain ⟨h₁, h₂⟩ := huse r hr'
    change ((s.modify p (·.exit status)).slot r).pid ∉
      (s.slot p).pid :: s.exits.map Exit.pid
    rw [h₂, List.mem_cons, not_or]
    refine ⟨fun he => hrp (h.unique r p h₁ (by simp [hr]) he), h.live r h₁ ?_⟩
    change ((s.modify p (·.exit status)).slot r).state ≠ _ at hz
    rwa [hslot, if_neg hrp] at hz
  · intro r hz
    change ((s.modify p (·.exit status)).slot r).state = _ at hz
    change ((s.modify p (·.exit status)).slot r).report ∈ _ :: s.exits ∧
      ((s.modify p (·.exit status)).slot r).pid ∉ _
    rw [hslot] at hz ⊢
    split
    · refine ⟨List.mem_cons_self, fun hm => hlive ?_⟩
      obtain ⟨e, he, hpid⟩ := List.mem_map.mp hm
      exact List.mem_map.mpr ⟨e, h.sub e he, hpid⟩
    next hrp =>
      rw [if_neg hrp] at hz
      exact ⟨List.mem_cons_of_mem _ (h.zombie r hz).1, (h.zombie r hz).2⟩

theorem reap (h : Reports s) (hz : (s.slot q).state = .zombie) :
    Reports { s.modify q Slot.freeproc with reaps := (s.slot q).report :: s.reaps } := by
  obtain ⟨hmem, hnot⟩ := h.zombie q hz
  have hf := h.freeproc (q := q)
  refine { hf with
    reaps := List.nodup_cons.mpr ⟨hnot, h.reaps⟩
    sub := fun e he => ?_
    zombie := fun r hr => ⟨(hf.zombie r hr).1, ?_⟩ }
  · rcases List.mem_cons.mp he with rfl | he
    · exact hmem
    · exact h.sub e he
  · have hrq : r ≠ q := by
      rintro rfl
      change ((s.modify r Slot.freeproc).slot r).state = _ at hr
      rw [Machine.slot_modify, if_pos rfl] at hr
      cases hr
    have hs : (s.modify q Slot.freeproc).slot r = s.slot r := slot_modify_of_ne (Ne.symm hrq)
    change ((s.modify q Slot.freeproc).slot r).state = _ at hr
    change ((s.modify q Slot.freeproc).slot r).pid ∉ (s.slot q).pid :: s.reaps.map Exit.pid
    rw [hs] at hr ⊢
    rw [List.mem_cons, not_or]
    exact ⟨fun he => hrq (h.unique r q (by simp [hr]) (by simp [hz]) he), (h.zombie r hr).2⟩

theorem moves (h : Reports s) (ho : Ok s) (hr : (s.slot p).state = .running)
    (hm : Moves s p ok (s.slot p).pc s') : Reports s' := by
  obtain ⟨pc, hpc⟩ : ∃ pc, (s.slot p).pc = pc := ⟨_, rfl⟩
  rw [hpc] at hm
  cases hm with
  | jump _ => exact h.goto
  | alloc q _ => exact h.alloc.goto
  | noMemory q _ => exact (h.skip.freeproc (q := q)).finish
  | noSlot => exact h.finish
  | @adopt np _ => exact (h.modify (q := np) ⟨rfl, .rfl, .rfl⟩).goto
  | @start np =>
    have hu := ho.used p np (by rw [hpc, Pc.child])
    exact (h.modify (q := np) (.rouse (by simp [hu]) (by simp [hu]))).finish
  | exit _ _ => exact (h.goto).congr rfl rfl rfl rfl
  | reparent q _ => exact (h.modify (q := q) ⟨rfl, .rfl, .rfl⟩).goto
  | @zombie status => exact (h.exit hr status).congr rfl rfl rfl rfl
  | wakeup q _ hs _ =>
    exact (h.modify (q := q) (.rouse (by simp [hs]) (by simp [hs]))).goto
  | kill q _ => exact (h.modify (.kill _)).finish
  | noPid => exact h.finish
  | enter _ => exact h.goto.congr rfl rfl rfl rfl
  | @sleep l =>
    have hm : Reports (s.modify p fun x =>
        { x with chan := some (l.chan p), state := .sleeping, pc := .asleep l }) :=
      h.modify (.of_state (by simp [hr]) (by simp [hr]) (by simp) (by simp) rfl rfl)
    exact hm.congr rfl rfl rfl rfl
  | noCopy q _ _ _ _ => exact h.finish.congr rfl rfl rfl rfl
  | @reap addr hk q _ hz =>
    have hm : Reports (Machine.finish { s.modify q Slot.freeproc with
        reaps := (s.slot q).report :: s.reaps } p (s.slot q).pid) := (h.reap hz).finish
    exact hm.congr rfl rfl rfl rfl
  | put _ => exact h.goto.congr rfl rfl rfl rfl
  | get _ _ _ => exact h.goto.congr rfl rfl rfl rfl
  | readEnd => exact h.finish.congr rfl rfl rfl rfl
  | close _ => exact h.goto.congr rfl rfl rfl rfl
  | take _ => exact h.goto.congr rfl rfl rfl rfl
  | ret => exact h.finish.congr rfl rfl rfl rfl

theorem does (h : Reports s) (ho : Ok s) (hd : Does s a s') : Reports s' := by
  cases hd with
  | go p ok hr hm => exact h.moves ho hr hm
  | sched p hr =>
    refine h.modify ?_
    unfold Slot.sched
    split <;>
      exact .of_state (by simp [hr]) (by simp [hr]) (by simp) (by simp) rfl rfl
  | yield p hr _ => exact h.modify (.rouse (by simp [hr]) (by simp [hr]))
  | trap p _ _ => exact h.modify ⟨rfl, .rfl, .rfl⟩
  | call p c _ _ => exact h.goto
  | rouse p hr _ => exact h.modify (.rouse (by simp [hr]) (by simp [hr]))
  | consoleintr c _ => exact h.congr rfl rfl rfl rfl
  | clockintr _ => exact h.congr rfl rfl rfl rfl

end Reports

/-! ## Sleepers in wait -/

/-- What a process with `wait_lock` knows of its children, of its own flag, or of its parent
that may sleep in `wait`. -/
def Heeds (s : Machine) (p : Pptr) : Pc → Prop
  | .scan _ i hk => ∀ q : Pptr, q.val < i → (s.slot q).parent = some p →
      (s.slot q).state ≠ .zombie ∧ hk = true
  | .test (.wait _) | .doze (.wait _) => ∀ q, (s.slot q).parent = some p →
      (s.slot q).state ≠ .zombie
  | .ret .wait _ => (∀ q, (s.slot q).parent ≠ some p) ∨ (s.slot p).killed = true
  | .zombie _ => ∀ r, (s.slot p).parent = some r → ¬ Waits s r (.proc r)
  | .wakeup c i (.zombie _) => ∀ r, (s.slot p).parent = some r →
      c = .proc r ∧ (r.val < i → ¬ Waits s r (.proc r))
  | .wakeup _ _ k => Heeds s p k
  | _ => True

theorem heeds_of_holds (h : pc.holds ≠ some .wait) : Heeds s p pc := by
  induction pc with
  | wakeup c i k ih =>
    cases k with
    | zombie st => exact absurd rfl h
    | _ => exact ih h
  | scan addr i hk => exact absurd rfl h
  | zombie st => exact absurd rfl h
  | test l => cases l <;> first | exact absurd rfl h | trivial
  | doze l => cases l <;> first | exact absurd rfl h | trivial
  | ret lk z => cases lk <;> first | exact absurd rfl h | trivial
  | _ => trivial

/-- What is known stays true while parents, zombies and flags stay and nobody falls asleep. -/
theorem Heeds.mono (h : Heeds s p pc)
    (hpar : ∀ q, (s'.slot q).parent = (s.slot q).parent)
    (hz : ∀ q, (s'.slot q).state = .zombie → (s.slot q).state = .zombie)
    (hk : (s.slot p).killed = true → (s'.slot p).killed = true)
    (hw : ∀ r, Waits s' r (.proc r) → Waits s r (.proc r)) : Heeds s' p pc := by
  induction pc with
  | wakeup c i k ih =>
    cases k with
    | zombie st =>
      intro r hr
      obtain ⟨hc, hn⟩ := h r (hpar p ▸ hr)
      exact ⟨hc, fun hi hw' => hn hi (hw r hw')⟩
    | _ => exact ih h
  | scan addr i hk' =>
    intro q hq hp
    obtain ⟨h₁, h₂⟩ := h q hq (hpar q ▸ hp)
    exact ⟨fun hz' => h₁ (hz q hz'), h₂⟩
  | zombie st => exact fun r hr hw' => h r (hpar p ▸ hr) (hw r hw')
  | test l =>
    cases l with
    | wait addr => exact fun q hp hz' => h q (hpar q ▸ hp) (hz q hz')
    | _ => trivial
  | doze l =>
    cases l with
    | wait addr => exact fun q hp hz' => h q (hpar q ▸ hp) (hz q hz')
    | _ => trivial
  | ret lk z =>
    cases lk with
    | wait => exact h.imp (fun h q => hpar q ▸ h q) hk
    | _ => trivial
  | _ => trivial

theorem Jump.heeds (hj : Jump s p pc pc') (hr : (s.slot p).state = .running)
    (h : Heeds s p pc) : Heeds s p pc' := by
  cases hj with
  | toParent _ hq =>
    intro r hr'
    obtain rfl : _ = r := Option.some.inj (hq.symm.trans hr')
    exact ⟨rfl, fun hi => absurd hi (Nat.not_lt_zero _)⟩
  | orphan _ hq =>
    intro r hr'
    simp [hq] at hr'
  | @skip c k q hq =>
    cases k with
    | zombie st =>
      intro r hr'
      obtain ⟨hc, hn⟩ := h r hr'
      refine ⟨hc, fun hi hw => ?_⟩
      rcases Nat.lt_succ_iff_lt_or_eq.mp hi with hi | hi
      · exact hn hi hw
      · obtain rfl : r = q := Fin.ext hi
        refine hq ⟨?_, hw.1, hc ▸ hw.2⟩
        rintro rfl
        have := hw.1
        simp [hr] at this
    | _ => exact h
  | @woken c i _ hi =>
    cases pc' with
    | zombie st => exact fun r hr' => (h r hr').2 (Nat.lt_of_lt_of_le r.isLt hi)
    | _ => exact h
  | child q hq hz =>
    intro r hr' hp
    rcases Nat.lt_succ_iff_lt_or_eq.mp hr' with hi | hi
    · exact ⟨(h r hi hp).1, rfl⟩
    · exact ⟨Fin.ext hi ▸ hz, rfl⟩
  | other q hq =>
    intro r hr' hp
    rcases Nat.lt_succ_iff_lt_or_eq.mp hr' with hi | hi
    · exact h r hi hp
    · exact absurd hp (Fin.ext hi ▸ hq)
  | kids hi => exact fun q hp => (h q (Nat.lt_of_lt_of_le q.isLt hi) hp).1
  | noKids hi =>
    refine .inl fun q hp => ?_
    have := (h q (Nat.lt_of_lt_of_le q.isLt hi) hp).2
    cases this
  | @killed l hk =>
    cases l with
    | wait addr => exact .inr hk
    | _ => trivial
  | @alive l _ =>
    cases l with
    | wait addr => exact h
    | _ => trivial
  | wait => exact fun q hq => absurd hq (Nat.not_lt_zero _)
  | _ => trivial

/-- While another process has `wait_lock`, a step changes no parent and makes no zombie. -/
theorem Moves.kin (ho : Ok s) (hf : Family s) (hr : (s.slot p).state = .running)
    (hpc : (s.slot p).pc = pc) (hm : Moves s p ok pc s') {h : Pptr}
    (hl : s.lock .wait = some h) (hp : h ≠ p) (r : Pptr) :
    (s'.slot r).parent = (s.slot r).parent ∧
      ((s'.slot r).state = .zombie → (s.slot r).state = .zombie) := by
  have hheld : pc.holds ≠ some .wait := fun hw => by
    rw [← hpc, ho.lock, hl] at hw
    exact hp (Option.some.inj hw)
  by_cases hrp : r = p
  · subst hrp
    cases hm with
    | alloc q hq =>
      have hqp := ne_of_state hr hq (by simp)
      simp [Machine.slot_goto, Machine.slot_allocproc, hqp.symm]
    | noMemory q hq =>
      have hqp := ne_of_state hr hq (by simp)
      simp [Machine.slot_finish, Machine.slot_allocproc, hqp.symm]
    | adopt hn => simp [hl] at hn
    | @start np =>
      have hnp := ne_of_state hr (ho.used r np (by rw [hpc, Pc.child])) (by simp)
      simp [Machine.slot_finish, Machine.slot_modify, hnp.symm]
    | reparent q _ => exact absurd rfl hheld
    | zombie => exact absurd rfl hheld
    | wakeup q hq _ _ => simp [Machine.slot_goto, Machine.slot_modify, hq.symm]
    | kill q _ =>
      simp only [Machine.slot_finish, Machine.slot_modify, if_true]
      split <;> simp_all [Slot.kill]
    | sleep => simp [Machine.slot_modify]
    | reap q _ _ => exact absurd rfl hheld
    | _ => simp [Machine.slot_goto, Machine.slot_finish]
  · cases hm with
    | alloc q hq =>
      rw [slot_goto_of_ne hrp, Machine.slot_allocproc]
      split
      next hrq =>
        subst hrq
        exact ⟨rfl, fun h => by cases h⟩
      next => exact ⟨rfl, id⟩
    | noMemory q hq =>
      rw [slot_finish_of_ne hrp, Machine.slot_allocproc]
      split
      next hrq =>
        subst hrq
        exact ⟨(hf.free r hq).symm, fun h => by cases h⟩
      next => exact ⟨rfl, id⟩
    | adopt hn => simp [hl] at hn
    | start =>
      rw [slot_finish_of_ne hrp, Machine.slot_modify]
      split
      next hrq =>
        subst hrq
        exact ⟨rfl, fun h => by cases h⟩
      next => exact ⟨rfl, id⟩
    | reparent q _ => exact absurd rfl hheld
    | zombie => exact absurd rfl hheld
    | wakeup q _ _ _ =>
      rw [slot_goto_of_ne hrp, Machine.slot_modify]
      split
      next hrq =>
        subst hrq
        exact ⟨rfl, fun h => by cases h⟩
      next => exact ⟨rfl, id⟩
    | kill q _ =>
      rw [slot_finish_of_ne hrp, Machine.slot_modify]
      split
      next hrq =>
        subst hrq
        exact ⟨rfl, (Same.kill _).zombie.mp⟩
      next => exact ⟨rfl, id⟩
    | @sleep l =>
      rw [slot_modify_of_ne (Ne.symm hrp)]
      exact ⟨rfl, id⟩
    | reap q _ _ => exact absurd rfl hheld
    | noSlot | noPid | noCopy _ _ _ _ _ | readEnd | ret =>
      rw [slot_finish_of_ne hrp]
      exact ⟨rfl, id⟩
    | _ =>
      rw [slot_goto_of_ne hrp]
      exact ⟨rfl, id⟩

theorem goto_slot (s : Machine) (p : Pptr) (pc : Pc) (q : Pptr) :
    ∃ pc', (s.goto p pc).slot q = { s.slot q with pc := pc' } := by
  rw [Machine.slot_goto]
  split
  next h => exact ⟨pc, by rw [h]⟩
  next => exact ⟨_, rfl⟩

theorem finish_slot (s : Machine) (p : Pptr) (z : ℤ) (q : Pptr) :
    ∃ pc' z', (s.finish p z).slot q = { s.slot q with pc := pc', a0 := z' } := by
  rw [Machine.slot_finish]
  split
  next h => exact ⟨.user, z, by rw [h]⟩
  next => exact ⟨_, _, rfl⟩

/-- Where a new child or a new zombie of another process can come from. -/
theorem Moves.kin_or (ho : Ok s) (hpc : (s.slot p).pc = pc) (hm : Moves s p ok pc s')
    {q r : Pptr} (hq : (s'.slot q).parent = some r) (hz : (s'.slot q).state = .zombie)
    (hrp : r ≠ p) :
    (s.slot q).parent = some r ∧ (s.slot q).state = .zombie ∨
    (s.slot p).parent = some r ∧ (∃ st, pc = .zombie st) ∨
    s'.lock .wait = some p ∧ ∃ k, (s'.slot p).pc = .wakeup (.proc r) 0 k := by
  -- Most steps change one other slot and then the place of the process.
  have hgoto : ∀ {t : Machine} {pc' : Pc}, ((t.goto p pc').slot q).parent = some r →
      ((t.goto p pc').slot q).state = .zombie →
      (t.slot q).parent = some r ∧ (t.slot q).state = .zombie := by
    intro t pc' h₁ h₂
    obtain ⟨pc'', he⟩ := goto_slot t p pc' q
    rw [he] at h₁ h₂
    exact ⟨h₁, h₂⟩
  have hfinish : ∀ {t : Machine} {z : ℤ}, ((t.finish p z).slot q).parent = some r →
      ((t.finish p z).slot q).state = .zombie →
      (t.slot q).parent = some r ∧ (t.slot q).state = .zombie := by
    intro t z h₁ h₂
    obtain ⟨pc'', z', he⟩ := finish_slot t p z q
    rw [he] at h₁ h₂
    exact ⟨h₁, h₂⟩
  cases hm with
  | alloc q' _ =>
    obtain ⟨h₁, h₂⟩ := hgoto hq hz
    rw [Machine.slot_allocproc] at h₁ h₂
    split at h₂
    · cases h₂
    next hn =>
      rw [if_neg hn] at h₁
      exact .inl ⟨h₁, h₂⟩
  | noMemory q' _ =>
    obtain ⟨h₁, h₂⟩ := hfinish hq hz
    rw [Machine.slot_allocproc] at h₁ h₂
    split at h₂
    · cases h₂
    next hn =>
      rw [if_neg hn] at h₁
      exact .inl ⟨h₁, h₂⟩
  | adopt _ =>
    obtain ⟨h₁, h₂⟩ := hgoto hq hz
    rw [Machine.slot_modify] at h₁ h₂
    split at h₁
    · exact absurd (Option.some.inj h₁).symm hrp
    next hn =>
      rw [if_neg hn] at h₂
      exact .inl ⟨h₁, h₂⟩
  | start =>
    obtain ⟨h₁, h₂⟩ := hfinish hq hz
    rw [Machine.slot_modify] at h₁ h₂
    split at h₂
    · cases h₂
    next hn =>
      rw [if_neg hn] at h₁
      exact .inl ⟨h₁, h₂⟩
  | @reparent status q' _ =>
    obtain ⟨h₁, h₂⟩ := hgoto hq hz
    rw [Machine.slot_modify] at h₁ h₂
    split at h₁
    · refine .inr (.inr ⟨(ho.lock p .wait).mp (by rw [hpc, Pc.holds]),
        .reparent status (q' + 1), ?_⟩)
      rw [Machine.slot_goto, if_pos rfl, ← Option.some.inj h₁]
    next hn =>
      rw [if_neg hn] at h₂
      exact .inl ⟨h₁, h₂⟩
  | @zombie status =>
    change ((s.modify p (·.exit status)).slot q).parent = _ at hq
    change ((s.modify p (·.exit status)).slot q).state = _ at hz
    rw [Machine.slot_modify] at hq hz
    split at hq
    · exact .inr (.inl ⟨hq, status, rfl⟩)
    next hn =>
      rw [if_neg hn] at hz
      exact .inl ⟨hq, hz⟩
  | wakeup q' _ _ _ =>
    obtain ⟨h₁, h₂⟩ := hgoto hq hz
    rw [Machine.slot_modify] at h₁ h₂
    split at h₂
    · cases h₂
    next hn =>
      rw [if_neg hn] at h₁
      exact .inl ⟨h₁, h₂⟩
  | kill q' _ =>
    obtain ⟨h₁, h₂⟩ := hfinish hq hz
    rw [Machine.slot_modify] at h₁ h₂
    split at h₂
    next hn =>
      subst hn
      rw [if_pos rfl] at h₁
      exact .inl ⟨h₁, (Same.kill _).zombie.mp h₂⟩
    next hn =>
      rw [if_neg hn] at h₁
      exact .inl ⟨h₁, h₂⟩
  | @sleep l =>
    rw [Machine.slot_modify] at hq hz
    split at hz
    · cases hz
    next hn =>
      rw [if_neg hn] at hq
      exact .inl ⟨hq, hz⟩
  | @reap addr hk q' _ _ =>
    have h := hfinish (t := (s.modify q' Slot.freeproc).setLock .wait none)
      (z := (s.slot q').pid) hq hz
    rw [Machine.slot_setLock, Machine.slot_modify] at h
    split at h
    · cases h.2
    · exact .inl h
  | noSlot | noPid | noCopy _ _ _ _ _ | readEnd | ret => exact .inl (hfinish hq hz)
  | _ => exact .inl (hgoto hq hz)

structure Heeded (s : Machine) : Prop where
  heeds : ∀ p, Heeds s p (s.slot p).pc
  missed : ∀ r q, Waits s r (.proc r) → (s.slot q).parent = some r →
    (s.slot q).state = .zombie →
    ∃ h, s.lock .wait = some h ∧ ∃ i k, (s.slot h).pc = .wakeup (.proc r) i k ∧ i ≤ r.val

theorem Heeds.goto (h : Heeds s p pc) {pc' : Pc} : Heeds (s.goto p pc') p pc := by
  refine h.mono (fun q => ?_) (fun q => ?_) ?_ fun r hw => ?_
  · obtain ⟨_, he⟩ := goto_slot s p pc' q
    rw [he]
  · obtain ⟨_, he⟩ := goto_slot s p pc' q
    rw [he]
    exact id
  · obtain ⟨_, he⟩ := goto_slot s p pc' p
    rw [he]
    exact id
  · obtain ⟨_, he⟩ := goto_slot s p pc' r
    unfold Waits at hw ⊢
    rwa [he] at hw

theorem Heeds.rouse (h : Heeds s p pc) : Heeds (s.modify q Slot.rouse) p pc := by
  have hslot : ∀ r, (s.modify q Slot.rouse).slot r =
      if r = q then (s.slot q).rouse else s.slot r := fun r => Machine.slot_modify
  refine h.mono (fun r => ?_) (fun r => ?_) ?_ fun r hw => ?_
  · rw [hslot]
    grind [Slot.rouse]
  · rw [hslot]
    grind [Slot.rouse]
  · rw [hslot]
    grind [Slot.rouse]
  · unfold Waits at hw ⊢
    rw [hslot] at hw
    grind [Slot.rouse]

theorem Moves.heeds (hr : (s.slot p).state = .running) (hm : Moves s p ok pc s')
    (h : Heeds s p pc) : Heeds s' p (s'.slot p).pc := by
  cases hm with
  | jump hj =>
    rw [Machine.slot_goto, if_pos rfl]
    exact (hj.heeds hr h).goto
  | @wakeup c k q hq hs _ =>
    rw [Machine.slot_goto, if_pos rfl]
    refine Heeds.goto ?_
    have hrouse := h.rouse (q := q)
    cases k with
    | zombie st =>
      intro r hr'
      obtain ⟨hc, hn⟩ := hrouse r hr'
      refine ⟨hc, fun hi hw => ?_⟩
      rcases Nat.lt_succ_iff_lt_or_eq.mp hi with hi | hi
      · exact hn hi hw
      · obtain rfl : r = q := Fin.ext hi
        have := hw.1
        rw [Machine.slot_modify, if_pos rfl] at this
        cases this
    | _ => exact hrouse
  | @enter l _ =>
    rw [Machine.slot_goto, if_pos rfl]
    trivial
  | exit _ _ =>
    rw [Machine.slot_goto, if_pos rfl]
    trivial
  | reparent q _ =>
    rw [Machine.slot_goto, if_pos rfl]
    trivial
  | @get n i pc' _ _ hpc' =>
    rw [Machine.slot_goto, if_pos rfl]
    rcases hpc' with rfl | ⟨-, rfl⟩ <;> trivial
  | @take n target c pc' hpc' =>
    rw [Machine.slot_goto, if_pos rfl]
    rcases hpc' with rfl | ⟨r, rfl⟩ <;> trivial
  | zombie => exact heeds_of_holds (by simp [Machine.slot_modify, Slot.exit, Pc.holds])
  | sleep => exact heeds_of_holds (by simp [Machine.slot_modify, Pc.holds])
  | reap q _ _ => exact heeds_of_holds (by simp [Machine.slot_finish, Pc.holds])
  | put _ =>
    rw [Machine.slot_goto, if_pos rfl]
    trivial
  | close _ =>
    rw [Machine.slot_goto, if_pos rfl]
    trivial
  | _ => exact heeds_of_holds (by simp [Machine.slot_goto, Machine.slot_finish, Pc.holds])

/-- A step of another process leaves what a process knows. -/
theorem Moves.heeds_other (ho : Ok s) (hf : Family s) (hr : (s.slot p).state = .running)
    (hpc : (s.slot p).pc = pc) (hm : Moves s p ok pc s')
    (hch : Change s (.go p ok) r (s'.slot r)) (hrp : r ≠ p) (h : Heeds s r (s.slot r).pc) :
    Heeds s' r (s'.slot r).pc := by
  by_cases hheld : (s.slot r).pc.holds = some .wait
  · have hl := (ho.lock r .wait).mp hheld
    have hkin := hm.kin ho hf hr hpc hl hrp
    rw [hm.pc_eq ho hr hpc hl hrp]
    refine h.mono (fun q => (hkin q).1) (fun q => (hkin q).2) (fun hk => ?_) fun t hw => ?_
    · cases hch with
      | keep hk' _ _ => rw [hk', hk]
      | mark _ hk' _ _ => exact hk'
      | free _ _ hu =>
        have hd := (ho.moves hr (hpc ▸ hm)).pc_of_dead (.inl hu)
        rw [hm.pc_eq ho hr hpc hl hrp] at hd
        simp [hd, Pc.holds] at hheld
      | create hu _ _ =>
        rw [ho.pc_of_dead (.inl hu)] at hheld
        cases hheld
    · rcases hm.waits ho hr hpc hw with hw | ⟨rfl, l, rfl, hc, -⟩
      · exact hw
      · -- Who falls asleep in wait had the lock.
        have hll : l.lock = .wait := by cases l <;> first | rfl | cases hc
        have := (ho.lock t .wait).mp (by rw [hpc, Pc.holds, hll])
        exact absurd (Option.some.inj (hl.symm.trans this)) hrp
  · rcases (hm.stays ho hpc hrp).pc with he | he | he <;> rw [he]
    · exact heeds_of_holds hheld
    · trivial
    · trivial

/-- The holder of `wait_lock` that is on its way to a sleeping slot gets to it. -/
theorem Moves.approach (hr : (s.slot p).state = .running) {c : Chan} {i : ℕ} {k : Pc}
    (hm : Moves s p ok (.wakeup c i k) s') (hw : Waits s r c) (hw' : Waits s' r c)
    (hi : i ≤ r.val) : s'.lock = s.lock ∧ ∃ j, (s'.slot p).pc = .wakeup c j k ∧ j ≤ r.val := by
  cases hm with
  | jump hj =>
    cases hj with
    | skip q hq =>
      refine ⟨rfl, q + 1, by rw [Machine.slot_goto, if_pos rfl], Nat.lt_of_le_of_ne hi ?_⟩
      intro he
      obtain rfl : q = r := Fin.ext he
      refine hq ⟨?_, hw.1, hw.2⟩
      rintro rfl
      have := hw.1
      simp [hr] at this
    | woken hn => exact absurd (Nat.lt_of_le_of_lt hi r.isLt) (Nat.not_lt.mpr hn)
  | wakeup q hq _ _ =>
    refine ⟨rfl, q + 1, by rw [Machine.slot_goto, if_pos rfl], Nat.lt_of_le_of_ne hi ?_⟩
    intro he
    obtain rfl : q = r := Fin.ext he
    have := hw'.1
    rw [slot_goto_of_ne hq, Machine.slot_modify, if_pos rfl] at this
    cases this

theorem Heeded.moves (h : Heeded s) (ho : Ok s) (hf : Family s)
    (hr : (s.slot p).state = .running) (hm : Moves s p ok (s.slot p).pc s') : Heeded s' := by
  have hch := hm.change ho hr
  obtain ⟨pc, hpc⟩ : ∃ pc, (s.slot p).pc = pc := ⟨_, rfl⟩
  rw [hpc] at hm
  have hp : Heeds s p pc := hpc ▸ h.heeds p
  constructor
  · intro r
    by_cases hrp : r = p
    · subst hrp
      exact hm.heeds hr hp
    · exact hm.heeds_other ho hf hr hpc (hch r) hrp (h.heeds r)
  · intro r q hw' hq hz
    rcases hm.waits ho hr hpc hw' with hw | ⟨rfl, l, rfl, hc, -⟩
    · have hrp : r ≠ p := by
        rintro rfl
        have := hw.1
        simp [hr] at this
      rcases hm.kin_or ho hpc hq hz hrp with ⟨hq, hz⟩ | ⟨hpar, st, rfl⟩ | ⟨hl, k, hk⟩
      · obtain ⟨t, hl, i, k, ht, hi⟩ := h.missed r q hw hq hz
        by_cases htp : t = p
        · subst htp
          rw [hpc] at ht
          subst ht
          obtain ⟨hlock, j, hj, hjr⟩ := hm.approach hr hw hw' hi
          exact ⟨t, hlock ▸ hl, j, k, hj, hjr⟩
        · exact ⟨t, hm.lock_eq ho hpc hl htp, i, k, by rw [hm.pc_eq ho hr hpc hl htp, ht], hi⟩
      · exact absurd hw (hp r hpar)
      · exact ⟨p, hl, 0, k, hk, Nat.zero_le _⟩
    · -- The process that falls asleep has looked at all its children.
      cases l with
      | wait addr =>
        cases hm with
        | jump hj => cases hj
        | sleep =>
          rw [Machine.slot_modify] at hq hz
          split at hz
          · cases hz
          next hn =>
            rw [if_neg hn] at hq
            exact absurd hz (hp q hq)
      | _ => cases hc

/-- A step outside of the calls. -/
theorem Heeded.modify {f : Slot → Slot} (h : Heeded s) (ho : Ok s)
    (hpc : (f (s.slot p)).pc = (s.slot p).pc ∨
      (s.slot p).pc.holds = none ∧ (f (s.slot p)).pc.holds = none)
    (hpar : (f (s.slot p)).parent = (s.slot p).parent)
    (hz : (f (s.slot p)).state = .zombie → (s.slot p).state = .zombie)
    (hk : (s.slot p).killed = true → (f (s.slot p)).killed = true)
    (hsl : (f (s.slot p)).state = .sleeping →
      (s.slot p).state = .sleeping ∧ (f (s.slot p)).chan = (s.slot p).chan) :
    Heeded (s.modify p f) := by
  have hslot : ∀ r, (s.modify p f).slot r = if r = p then f (s.slot p) else s.slot r :=
    fun r => Machine.slot_modify
  have hpar' : ∀ r, ((s.modify p f).slot r).parent = (s.slot r).parent := by
    intro r
    rw [hslot]
    grind
  have hz' : ∀ r, ((s.modify p f).slot r).state = .zombie → (s.slot r).state = .zombie := by
    intro r
    rw [hslot]
    grind
  have hw : ∀ r c, Waits (s.modify p f) r c → Waits s r c := by
    intro r c hw
    unfold Waits at hw ⊢
    rw [hslot] at hw
    grind
  constructor
  · intro r
    have hmono : Heeds (s.modify p f) r (s.slot r).pc := by
      refine (h.heeds r).mono hpar' hz' ?_ fun t => hw t _
      rw [hslot]
      grind
    rw [hslot]
    split
    next hrp =>
      subst hrp
      rcases hpc with he | ⟨-, he⟩
      · rw [he]
        exact hmono
      · exact heeds_of_holds (by simp [he])
    next => exact hmono
  · intro r q hw' hq hzq
    obtain ⟨t, hl, i, k, ht, hi⟩ := h.missed r q (hw r _ hw') (hpar' q ▸ hq) (hz' q hzq)
    refine ⟨t, hl, i, k, ?_, hi⟩
    rw [hslot]
    split
    next htp =>
      subst htp
      rcases hpc with he | ⟨hn, -⟩
      · rw [he, ht]
      · simp [(ho.lock t .wait).mpr hl] at hn
    next => exact ht

theorem Heeded.does (h : Heeded s) (ho : Ok s) (hf : Family s) (hd : Does s a s') :
    Heeded s' := by
  cases hd with
  | go p ok hr hm => exact h.moves ho hf hr hm
  | sched p hr =>
    have hn : (s.slot p).pc.holds = none := by
      by_contra hn
      have := (ho.fit p).held hn
      simp [hr] at this
    refine h.modify ho ?_ ?_ ?_ ?_ ?_ <;> unfold Slot.sched <;> split <;>
      simp_all [Pc.holds]
  | yield p hr _ =>
    exact h.modify ho (.inl rfl) rfl (fun h => by cases h) id fun h => by cases h
  | trap p hr _ => exact h.modify ho (.inl rfl) rfl id (fun _ => rfl) fun h => ⟨h, rfl⟩
  | call p c hr hp =>
    refine h.modify ho (.inr ⟨by simp [hp, Pc.holds], ?_⟩) rfl id id fun h => ⟨h, rfl⟩
    cases c <;> rfl
  | rouse p hr _ =>
    exact h.modify ho (.inl rfl) rfl (fun h => by cases h) id fun h => by cases h
  | consoleintr c _ => exact ⟨fun p => (h.heeds p).mono (fun _ => rfl) (fun _ => id) id
      fun _ => id, h.missed⟩
  | clockintr _ => exact ⟨fun p => (h.heeds p).mono (fun _ => rfl) (fun _ => id) id
      fun _ => id, h.missed⟩

/-- What one step reports. -/
theorem Moves.reaps (hm : Moves s p ok pc s') : s'.reaps = s.reaps ∨
    ∃ q, (s.slot q).state = .zombie ∧ (s.slot q).parent = some p ∧
      s'.reaps = (s.slot q).report :: s.reaps ∧ (s'.slot p).a0 = (s.slot q).pid := by
  cases hm with
  | reap q hq hz =>
    exact .inr ⟨q, hz, hq, rfl, by simp [Machine.slot_finish]⟩
  | _ => exact .inl rfl

end Xv6.Proc

import Xv6.Logic.Fifo
import Xv6.Proc.Kill

/-! # The pipe

The ring buffer holds the bytes that were inserted and not yet removed, in their
order. A process that sleeps on the pipe has a reason to, unless the holder of the
pipe's lock is going to wake it.
-/

namespace Xv6.Proc

open Sys

variable {s s' : Machine} {p q : Pptr} {ok : Bool} {pc pc' : Pc} {a : Act}

/-! ## Contents -/

/-- The pipe holds the bytes `l`. -/
abbrev Contents (pi : Pipe) (l : List UInt8) : Prop :=
  Fifo PIPESIZE UINT pi.data pi.nread pi.nwrite l

/-- What went in is what came out, followed by what the pipe holds. -/
def Balanced (s : Machine) : Prop :=
  ∃ l, Contents s.pipe l ∧ s.inserted = s.removed ++ l

variable {l : List UInt8} {pi : Pipe}

theorem Contents.isEmpty_iff (h : Contents pi l) : isEmpty pi = true ↔ l = [] := by
  rw [isEmpty, decide_eq_true_iff]
  exact h.empty_iff

theorem Contents.isFull_iff (h : Contents pi l) : isFull pi = true ↔ l.length = PIPESIZE := by
  rw [isFull, decide_eq_true_iff]
  exact h.full_iff

theorem Contents.putByte (h : Contents pi l) (hf : isFull pi = false) (b : UInt8) :
    Contents (putByte pi b) (l ++ [b]) := by
  have hne : l.length ≠ PIPESIZE := fun he => by simp [h.isFull_iff.mpr he] at hf
  exact h.put (lt_of_le_of_ne h.le hne) b

theorem Contents.getByte (h : Contents pi l) (he : isEmpty pi = false) :
    ∃ l', l = (getByte pi).1 :: l' ∧ Contents (getByte pi).2 l' := by
  cases l with
  | nil => simp [h.isEmpty_iff.mpr rfl] at he
  | cons b l' =>
    obtain ⟨hb, hl⟩ := h.get
    exact ⟨l', by rw [← hb]; rfl, hl⟩

theorem Contents.closeEnd (h : Contents pi l) (w : Bool) :
    Contents (closeEnd pi w) l := by cases w <;> exact h

/-- A step changes the pipe and its history only by one byte in or out, or by closing an end. -/
theorem Moves.balanced (hm : Moves s p ok pc s') (h : Balanced s) : Balanced s' := by
  obtain ⟨l, hl, hi⟩ := h
  cases hm with
  | @put i start b src hf =>
    refine ⟨l ++ [b], hl.putByte hf b, ?_⟩
    change s.inserted ++ [b] = s.removed ++ (l ++ [b])
    rw [hi, List.append_assoc]
  | get _ he _ =>
    obtain ⟨l', rfl, hl'⟩ := hl.getByte he
    refine ⟨l', hl', ?_⟩
    change s.inserted = s.removed ++ [(getByte s.pipe).1] ++ l'
    rw [hi, List.append_assoc, List.singleton_append]
  | close _ => exact ⟨l, hl.closeEnd _, hi⟩
  | _ => exact ⟨l, hl, hi⟩

theorem Does.balanced (hd : Does s a s') (h : Balanced s) : Balanced s' := by
  cases hd with
  | go p ok _ hm => exact hm.balanced h
  | _ => exact h

theorem balanced_init (data : ℕ → UInt8) : Balanced (init data) :=
  ⟨[], .nil (by decide) (by decide) data, rfl⟩

/-! ## End of file -/

/-- In `piperead`: nothing was read only if the pipe was empty and its write end closed. -/
def Eof (pi : Pipe) : Pc → Prop
  | .get _ i => i = 0 → isEmpty pi = true → pi.writeopen = false
  | .readEnd n i => 0 < n → i = 0 → isEmpty pi = true ∧ pi.writeopen = false
  | .wakeup _ _ k => Eof pi k
  | _ => True

theorem Jump.eof (h : Jump s p pc pc') (he : Eof s.pipe pc) : Eof s.pipe pc' := by
  cases h with
  | copy hc => exact fun _ h => Bool.eq_false_iff.mpr fun hw => hc ⟨h, hw⟩
  | @copied n i hc =>
    rintro hn rfl
    have hemp : isEmpty s.pipe = true := by
      by_contra h
      exact hc ⟨hn, Bool.eq_false_iff.mpr h⟩
    exact ⟨hemp, he rfl hemp⟩
  | skip _ _ => exact he
  | woken _ => exact he
  | @alive l _ => cases l <;> trivial
  | _ => trivial

theorem eof_congr {pi' : Pipe} (h : pc.holds ≠ some .pipe) (he : Eof pi pc) : Eof pi' pc := by
  induction pc with
  | wakeup c i k ih => exact ih h he
  | get n i => exact absurd rfl h
  | readEnd n i => exact absurd rfl h
  | _ => trivial

/-- A copy to or from user space fails in a pipe call. -/
def Faults (s : Machine) : Act → Bool
  | .go p false =>
    match (s.slot p).pc with
    | .put .. | .get .. => true
    | _ => false
  | _ => false

theorem Moves.eof (hpc : (s.slot p).pc = pc) (hm : Moves s p ok pc s')
    (hf : Faults s (.go p ok) = false) (he : Eof s.pipe pc) : Eof s'.pipe (s'.slot p).pc := by
  cases hm with
  | jump hj =>
    rw [Machine.slot_goto, if_pos rfl]
    exact hj.eof he
  | wakeup q _ _ _ =>
    rw [Machine.slot_goto, if_pos rfl]
    exact he
  | @get n i pc' _ _ ho =>
    rw [Machine.slot_goto, if_pos rfl]
    rcases ho with rfl | ⟨rfl, -⟩
    · exact fun h => absurd h (Nat.succ_ne_zero i)
    · simp [Faults, hpc] at hf
  | @take n target c pc' ho =>
    rw [Machine.slot_goto, if_pos rfl]
    rcases ho with rfl | ⟨r, rfl⟩ <;> trivial
  | zombie => simp [Machine.slot_modify, Slot.exit, Eof]
  | sleep => simp [Machine.slot_modify, Eof]
  | reap q _ _ => simp [Machine.slot_finish, Eof]
  | _ => simp [Machine.slot_goto, Machine.slot_finish, Eof]

theorem Does.eof (ho : Ok s) (hd : Does s a s') (hf : Faults s a = false)
    (h : ∀ r, Eof s.pipe (s.slot r).pc) (r : Pptr) : Eof s'.pipe (s'.slot r).pc := by
  have hr := h r
  cases hd with
  | go p ok _ hm =>
    obtain ⟨pc, hpc⟩ : ∃ pc, (s.slot p).pc = pc := ⟨_, rfl⟩
    rw [hpc] at hm
    by_cases hrp : r = p
    · subst hrp
      exact hm.eof hpc hf (hpc ▸ hr)
    · rcases (hm.stays ho hpc hrp).pc with he | he | he <;> rw [he]
      · rcases hm.pipe_or ho hpc hrp with hpi | hpi
        · rw [hpi]
          exact hr
        · exact eof_congr hpi hr
      · trivial
      · trivial
  | sched p _ =>
    rw [Machine.slot_modify]
    split
    next hrp =>
      subst hrp
      unfold Slot.sched
      split
      · trivial
      · exact hr
    next => exact hr
  | call p c _ _ =>
    rw [Machine.slot_goto]
    split
    · cases c <;> trivial
    · exact hr
  | yield p _ _ | trap p _ _ | rouse p _ _ =>
    rw [Machine.slot_modify]
    split
    next hrp =>
      subst hrp
      exact hr
    next => exact hr
  | consoleintr c _ => exact hr
  | clockintr _ => exact hr

/-- The machine in which the user buffers of pipe calls are mapped. -/
def mapped : Machine → Act → Option (Except Panic Machine) :=
  restrict step fun s a => Faults s a = false

/-- The bytes removed from the pipe are a prefix of those inserted, the rest is in the pipe,
at most `PIPESIZE` bytes are in it, and a read of a positive count that returns 0 has found
the pipe empty and its write end closed. -/
theorem pipe_fifo {data : ℕ → UInt8} {l : List Act} (h : Run (Next mapped) (init data) l s) :
    (∃ held, s.inserted = s.removed ++ held ∧
      held.length = (s.pipe.nwrite + UINT - s.pipe.nread) % UINT) ∧
    (s.pipe.nwrite + UINT - s.pipe.nread) % UINT ≤ PIPESIZE ∧
    ∀ p n, (s.slot p).pc = .readEnd n 0 → 0 < n →
      isEmpty s.pipe = true ∧ s.pipe.writeopen = false := by
  have hinv : Ok s ∧ Balanced s ∧ ∀ r, Eof s.pipe (s.slot r).pc := by
    refine h.invariant (I := fun s => Ok s ∧ Balanced s ∧ ∀ r, Eof s.pipe (s.slot r).pc)
      (fun s a s' _ hn hi => ?_) ⟨ok_init data, balanced_init data, fun r => ?_⟩
    · obtain ⟨hf, hn⟩ := (next_restrict step).mp hn
      have hd := does_of_next hn
      exact ⟨hi.1.does hd, hd.balanced hi.2.1, hd.eof hi.1 hf hi.2.2⟩
    · by_cases hr : r = initproc <;> simp [init, hr, Eof]
  obtain ⟨-, ⟨held, hc, hi⟩, he⟩ := hinv
  refine ⟨⟨held, hi, hc.length_eq.symm⟩, hc.length_eq ▸ hc.le, fun p n hp hn => ?_⟩
  have := he p
  rw [hp] at this
  exact this hn rfl

/-- Init writes two bytes and reads one. -/
def fifoTrace : List Act :=
  .sched 0 :: .call 0 (.pipewrite [7, 8]) :: List.replicate 74 (.go 0 true) ++
    .call 0 (.piperead 1) :: List.replicate 5 (.go 0 true)

theorem pipe_fifo_fifoTrace : ∃ s, exec mapped (init fun _ => 0) fifoTrace = some s ∧
    s.removed = [7] ∧ ∃ held, s.inserted = s.removed ++ held ∧
      held.length = (s.pipe.nwrite + UINT - s.pipe.nread) % UINT := by
  obtain ⟨s, hs, hr⟩ : ∃ s, exec mapped (init fun _ => 0) fifoTrace = some s ∧ s.removed = [7] :=
    exists_of_exec mapped (by decide +kernel)
  exact ⟨s, hs, hr, (pipe_fifo (run_of_exec mapped hs)).1⟩

end Xv6.Proc

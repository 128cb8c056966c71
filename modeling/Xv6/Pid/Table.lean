import Xv6.Logic.Steps
import Xv6.Sys.Kernel

/-! # The process table

The writes of `allocproc`, `freeproc`, `fork`, `exit`, `wait` and `kill` to the
fields that identify a process. A step is what one of these functions does while
it holds a lock; any process may take any of them, and the slot a search stops
at is a label of the step. The process identifiers are 32-bit signed integers.
-/

namespace Xv6.Pid

open Function

open Sys (ProcState Pptr)

structure Slot where
  state : ProcState
  pid : ℤ
  parent : Option Pptr
  killed : Bool
  deriving DecidableEq

structure Table where
  proc : Pptr → Slot
  nextpid : ℤ
  initproc : Pptr

inductive Panic
  | initExiting
  deriving DecidableEq

/-- The value of an assignment to an `int`. -/
def int (z : ℤ) : ℤ := z.bmod (2 ^ 32)

/-- A slot of the zeroed table, and one that `freeproc` leaves. -/
def Slot.free : Slot := ⟨.unused, 0, none, false⟩

namespace Table

variable (t : Table)

def set (i : Pptr) (x : Slot) : Table := { t with proc := update t.proc i x }

def allocpid : ℤ × Table := (t.nextpid, { t with nextpid := int (t.nextpid + 1) })

/-- `allocproc` from the label `found` on. -/
def found (i : Pptr) : Table :=
  let (pid, t) := t.allocpid
  t.set i { t.proc i with pid := pid, state := .used }

def freeproc (i : Pptr) : Table := t.set i .free

def reparent (p : Pptr) : Table :=
  { t with
    proc := fun i =>
      if (t.proc i).parent = some p then { t.proc i with parent := some t.initproc } else t.proc i }

/-- `kill` at the slot where it stops. -/
def kill (i : Pptr) : Table :=
  t.set i { t.proc i with
    killed := true
    state := if (t.proc i).state = .sleeping then .runnable else (t.proc i).state }

/-- The process table after `userinit`. -/
def boot : Table :=
  let t : Table := ⟨fun _ => .free, 1, 0⟩
  let t := t.found 0
  t.set 0 { t.proc 0 with state := .runnable }

end Table

inductive Act
  /-- `allocproc` gives slot `i` a pid. -/
  | alloc (i : Pptr)
  /-- `allocproc` or `fork` runs out of memory and frees the slot. -/
  | abandon (i : Pptr)
  /-- `fork` of `p` sets `np->parent`. -/
  | adopt (p i : Pptr)
  /-- `fork` makes the child runnable and returns `r`. -/
  | start (i : Pptr) (r : ℤ)
  /-- `exit` of `p`, with `reparent`. -/
  | exit (p : Pptr)
  /-- `wait` of `p` frees the zombie `i` and returns `r`. -/
  | reap (p i : Pptr) (r : ℤ)
  /-- `kill(pid)` stops at slot `i`. -/
  | kill (pid : ℤ) (i : Pptr)
  /-- The scheduler, `sleep` and `wakeup`. -/
  | move (i : Pptr) (state : ProcState)
  deriving DecidableEq

/-- The states between which `move` goes. -/
def Active (x : ProcState) : Prop := x = .runnable ∨ x = .running ∨ x = .sleeping

instance (x : ProcState) : Decidable (Active x) := inferInstanceAs (Decidable (_ ∨ _))

def step (t : Table) : Act → Option (Except Panic Table)
  | .alloc i => if (t.proc i).state = .unused then some (.ok (t.found i)) else none
  | .abandon i =>
    if (t.proc i).state = .used ∧ (t.proc i).parent = none then some (.ok (t.freeproc i)) else none
  | .adopt p i =>
    if (t.proc i).state = .used ∧ (t.proc i).parent = none then
      some (.ok (t.set i { t.proc i with parent := some p }))
    else none
  | .start i r =>
    if (t.proc i).state = .used ∧ (t.proc i).parent ≠ none ∧ r = (t.proc i).pid then
      some (.ok (t.set i { t.proc i with state := .runnable }))
    else none
  | .exit p =>
    if (t.proc p).state = .running then
      if p = t.initproc then some (.error .initExiting)
      else
        let t := t.reparent p
        some (.ok (t.set p { t.proc p with state := .zombie }))
    else none
  | .reap p i r =>
    if (t.proc i).parent = some p ∧ (t.proc i).state = .zombie ∧ r = (t.proc i).pid then
      some (.ok (t.freeproc i))
    else none
  | .kill pid i => if (t.proc i).pid = pid then some (.ok (t.kill i)) else none
  | .move i state =>
    if Active (t.proc i).state ∧ Active state then
      some (.ok (t.set i { t.proc i with state := state }))
    else none

/-- A slot that holds a process. -/
def Table.Live (t : Table) (i : Pptr) : Prop := (t.proc i).state ≠ .unused

instance (t : Table) (i : Pptr) : Decidable (t.Live i) := inferInstanceAs (Decidable (_ ≠ _))

variable {t t' : Table} {a : Act} {i : Pptr}

namespace Table

@[simp] theorem set_proc {x : Slot} : (t.set i x).proc = update t.proc i x := rfl

@[simp] theorem set_nextpid {x : Slot} : (t.set i x).nextpid = t.nextpid := rfl

@[simp] theorem found_proc : (t.found i).proc =
    update t.proc i { t.proc i with pid := t.nextpid, state := .used } := rfl

@[simp] theorem found_nextpid : (t.found i).nextpid = int (t.nextpid + 1) := rfl

@[simp] theorem freeproc_proc : (t.freeproc i).proc = update t.proc i .free := rfl

@[simp] theorem freeproc_nextpid : (t.freeproc i).nextpid = t.nextpid := rfl

end Table

/-- What a step does to the identity of processes: it gives a free slot the next pid, frees a slot,
or keeps all the pids. -/
inductive Change (t : Table) (a : Act) (t' : Table) : Prop
  | alloc (i : Pptr) (label : a = .alloc i) (dead : ¬ t.Live i) (eq : t' = t.found i)
  | free (i : Pptr) (label : a = .abandon i ∨ ∃ p r, a = .reap p i r) (live : t.Live i)
      (eq : t' = t.freeproc i)
  | keep (pid : ∀ i, (t'.proc i).pid = (t.proc i).pid) (live : ∀ i, t'.Live i ↔ t.Live i)
      (next : t'.nextpid = t.nextpid)

/-- A new state for a slot in use that keeps its pid. -/
theorem Change.of_set {x : Slot} (hx : x.pid = (t.proc i).pid)
    (hl : x.state ≠ .unused ↔ t.Live i) : Change t a (t.set i x) := by
  refine .keep (fun j => ?_) (fun j => ?_) rfl
  · rcases eq_or_ne j i with rfl | hj
    · simpa using hx
    · simp [hj]
  · rcases eq_or_ne j i with rfl | hj
    · simpa [Table.Live] using hl
    · simp [Table.Live, hj]

theorem Change.of_next (h : Next step t a t') : Change t a t' := by
  unfold Next at h
  cases a with
  | alloc i =>
    simp only [step] at h
    split_ifs at h with h₀
    cases h
    exact .alloc i rfl (not_not.mpr h₀) rfl
  | abandon i =>
    simp only [step] at h
    split_ifs at h with h₀
    cases h
    exact .free i (.inl rfl) (by simp [Table.Live, h₀.1]) rfl
  | adopt p i =>
    simp only [step] at h
    split_ifs at h
    cases h
    exact .of_set rfl Iff.rfl
  | start i r =>
    simp only [step] at h
    split_ifs at h with h₀
    cases h
    exact .of_set rfl (by simp [Table.Live, h₀.1])
  | exit p =>
    simp only [step] at h
    split_ifs at h with h₀ h₁
    · cases h
    · cases h
      -- `reparent` changes no pid and no state
      have hpid : ∀ i, ((t.reparent p).proc i).pid = (t.proc i).pid := fun i => by
        simp only [Table.reparent]
        split_ifs <;> rfl
      have hstate : ∀ i, ((t.reparent p).proc i).state = (t.proc i).state := fun i => by
        simp only [Table.reparent]
        split_ifs <;> rfl
      refine .keep (fun i => ?_) (fun i => ?_) rfl
      · rcases eq_or_ne i p with rfl | hi
        · simp [hpid]
        · simp [hi, hpid]
      · rcases eq_or_ne i p with rfl | hi
        · simp [Table.Live, h₀]
        · simp [Table.Live, hi, hstate]
  | reap p i r =>
    simp only [step] at h
    split_ifs at h with h₀
    cases h
    exact .free i (.inr ⟨p, r, rfl⟩) (by simp [Table.Live, h₀.2.1]) rfl
  | kill pid i =>
    simp only [step] at h
    split_ifs at h
    cases h
    refine .of_set rfl ?_
    unfold Table.Live
    split_ifs with hs <;> simp [hs]
  | move i st =>
    simp only [step] at h
    split_ifs at h with h₀
    cases h
    refine .of_set rfl (iff_of_true ?_ ?_)
    · rcases h₀.2 with h | h | h <;> simp [h]
    · rcases h₀.1 with h | h | h <;> simp [Table.Live, h]

end Xv6.Pid

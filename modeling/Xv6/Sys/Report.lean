import Xv6.Sys.Kernel

/-! # Structures copied to user memory

`sys_ps`, `filestat` and `sys_getschedhistory` fill a structure on the kernel
stack field by field and copy it out as a whole. The structures have the layout
of a RISC-V LP64 machine, and a call is run from arbitrary contents of the stack.
-/

namespace Xv6.Sys

open Fs

/-- The result of a call that copies the first `len` bytes of a variable out and then returns `r`,
and the bytes it copies. The destination has `room` bytes before the first page that is not
mapped. -/
def copyOut {n : ℕ} (room len : ℕ) (r : ℤ) (a : Bytes n) : ℤ × List UInt8 :=
  (if len ≤ room then r else -1, ((List.range len).map a.get).take room)

/-- `strncpy` of all bytes but the last one of an array, which is set to NUL. -/
def putString {n : ℕ} (off size : ℕ) (t : List UInt8) (a : Bytes n) : Bytes n :=
  (a.blit off (fun i => (strncpy (size - 1) t).getD i 0) (size - 1)).set (off + (size - 1)) 0

/-! ## `sys_ps` -/

/-- What `sys_ps` reads of a slot of the process table. -/
structure Slot where
  state : ProcState
  pid : ℤ
  parent : Option Pptr
  name : List UInt8

/-- The size of a `struct ps_struct`: `pid` is at 0, `ppid` at 4, `state` at 8 and `name` at 18. -/
abbrev PS : ℕ := 36

/-- The table `states`. -/
def stateName : ProcState → List UInt8
  | .unused => [117, 110, 117, 115, 101, 100] -- "unused"
  | .used => [117, 115, 101, 100] -- "used"
  | .sleeping => [115, 108, 101, 101, 112, 32] -- "sleep "
  | .runnable => [114, 117, 110, 98, 108, 101] -- "runble"
  | .running => [114, 117, 110, 32, 32, 32] -- "run   "
  | .zombie => [122, 111, 109, 98, 105, 101] -- "zombie"

variable (proc : Pptr → Slot)

/-- Fill `ps[k]` from slot `i`. -/
def putPs (i : Pptr) (k : ℕ) (ps : Bytes (NPROC * PS)) : Bytes (NPROC * PS) :=
  let ps := ps.set32 (k * PS) (uint (proc i).pid)
  let ps := ps.set32 (k * PS + 4) (uint ((proc i).parent.elim (-1) fun q => (proc q).pid))
  let ps := putString (k * PS + 8) 10 (stateName (proc i).state) ps
  putString (k * PS + 18) 16 (proc i).name ps

/-- The rounds of the loop of `sys_ps` for the given slots, from `numProc` on. -/
def psFrom : List Pptr → ℕ → Bytes (NPROC * PS) → ℕ × Bytes (NPROC * PS)
  | [], numProc, ps => (numProc, ps)
  | i :: is, numProc, ps =>
    if (proc i).state ≠ .unused then psFrom is (numProc + 1) (putPs proc i numProc ps)
    else psFrom is numProc ps

/-- The result of `sys_ps` and the bytes it copies out; `stack` is what the array `ps` contained
before. -/
def sysPs (room : ℕ) (stack : Bytes (NPROC * PS)) : ℤ × List UInt8 :=
  let (numProc, ps) := psFrom proc (List.finRange NPROC) 0 stack
  copyOut room (numProc * PS) numProc ps

/-! ## `filestat` -/

/-- The size of a `struct stat`: `dev` is at 0, `ino` at 4, `type` at 8, `nlink` at 10 and `size`
at 16. -/
abbrev STAT : ℕ := 24

/-- A `short` in memory. -/
def ushort (z : ℤ) : ℕ := (z % 65536).toNat

def stati (n : Inode) (st : Bytes STAT) : Bytes STAT :=
  let st := st.set32 0 n.dev
  let st := st.set32 4 n.inum
  let st := st.set16 8 (ushort n.type)
  let st := st.set16 10 (ushort n.nlink)
  st.set64 16 n.size

/-- The result of `filestat` on an inode and the bytes it copies out. -/
def statOut (n : Inode) (room : ℕ) (stack : Bytes STAT) : ℤ × List UInt8 :=
  copyOut room STAT 0 (stati n stack)

/-! ## `sys_getschedhistory` -/

/-- What `sys_getschedhistory` reads of the process. -/
structure History where
  pid : ℤ
  runCount : ℤ
  systemcallCount : ℤ
  interruptCount : ℤ
  preemptCount : ℤ
  trapCount : ℤ
  sleepCount : ℤ

/-- The size of a `struct sched_history`, six integers. -/
abbrev HISTORY : ℕ := 24

def putHistory (p : History) (my : Bytes HISTORY) : Bytes HISTORY :=
  let my := my.set32 0 (uint p.runCount)
  let my := my.set32 4 (uint p.systemcallCount)
  let my := my.set32 8 (uint p.interruptCount)
  let my := my.set32 12 (uint p.preemptCount)
  let my := my.set32 16 (uint p.trapCount)
  my.set32 20 (uint p.sleepCount)

/-- The result of `sys_getschedhistory` and the bytes it copies out. -/
def sysGetschedhistory (p : History) (room : ℕ) (stack : Bytes HISTORY) : ℤ × List UInt8 :=
  copyOut room HISTORY p.pid (putHistory p stack)

/-! ## What the old contents of the stack decide -/

variable {proc} {n len room off size k : ℕ} {a b : Bytes n} {i : Pptr} {is : List Pptr}

theorem copyOut_eq_iff {r : ℤ} : copyOut room len r a = copyOut room len r b ↔
    ∀ j ∈ Set.Iio (min len room), a.get j = b.get j := by
  simp only [copyOut, Prod.mk.injEq, true_and, ← List.map_take, List.map_inj_left, List.take_range,
    List.mem_range, Set.mem_Iio, min_comm]

theorem fills_putString (h : off + size ≤ n) (hs : 0 < size) (t : List UInt8) :
    Bytes.Fills (n := n) (putString off size t) (Set.Ico off (off + size)) := by
  refine ((Bytes.Fills.blit (by omega) _).comp (.set (by omega) 0)).congr fun j => ?_
  simp only [Set.mem_Ico, Set.mem_union, Set.mem_singleton_iff]
  omega

/-- A record is filled but for two bytes at its end. -/
theorem fills_putPs (hk : k < NPROC) :
    Bytes.Fills (putPs proc i k) (Set.Ico (k * PS) (k * PS + 34)) := by
  have hn : k * PS + 36 ≤ NPROC * PS := by
    unfold NPROC PS at *
    omega
  refine ((((Bytes.Fills.set32 (by omega) _).comp (.set32 (by omega) _)).comp
    (fills_putString (by omega) (by decide) _)).comp
    (fills_putString (by omega) (by decide) _)).congr fun j => ?_
  simp only [Set.mem_Ico, Set.mem_union]
  omega

/-- How many of the slots are in use. -/
def used (proc : Pptr → Slot) (is : List Pptr) : ℕ := is.countP fun i => (proc i).state ≠ .unused

theorem used_cons : used proc (i :: is) =
    if (proc i).state ≠ .unused then used proc is + 1 else used proc is := by
  unfold used
  rw [List.countP_cons]
  split_ifs <;> simp_all

theorem fst_psFrom (ps : Bytes (NPROC * PS)) : (psFrom proc is k ps).1 = k + used proc is := by
  induction is generalizing k ps with
  | nil => rfl
  | cons i is ih =>
    rw [psFrom, used_cons]
    split_ifs
    · rw [ih]
      omega
    · exact ih ps

/-- The bytes of the fields of the records from number `k` up to `m`. -/
def fields (k m : ℕ) : Set ℕ := {j | k ≤ j / PS ∧ j / PS < m ∧ j % PS < 34}

theorem mem_fields {m j : ℕ} : j ∈ fields k m ↔ k ≤ j / PS ∧ j / PS < m ∧ j % PS < 34 := Iff.rfl

theorem fills_psFrom (hk : k + is.length ≤ NPROC) :
    Bytes.Fills (fun ps => (psFrom proc is k ps).2) (fields k (k + used proc is)) := by
  induction is generalizing k with
  | nil =>
    refine Bytes.Fills.id.congr fun j => ?_
    simp only [mem_fields, used, List.countP_nil, Set.mem_empty_iff_false, iff_false]
    omega
  | cons i is ih =>
    rw [List.length_cons] at hk
    by_cases hi : (proc i).state ≠ .unused
    · simp only [psFrom, used_cons, if_pos hi]
      refine ((fills_putPs (i := i) (show k < NPROC by omega)).comp
        (ih (k := k + 1) (by omega))).congr fun j => ?_
      simp only [mem_fields, Set.mem_union, Set.mem_Ico]
      unfold PS
      omega
    · simp only [psFrom, used_cons, if_neg hi]
      exact ih (by omega)

theorem fills_stati (x : Inode) : Bytes.Fills (stati x) (Set.Ico 0 12 ∪ Set.Ico 16 24) := by
  refine (((((Bytes.Fills.set32 (by decide) _).comp (.set32 (by decide) _)).comp
    (.set16 (by decide) _)).comp (.set16 (by decide) _)).comp (.set64 (by decide) _)).congr
    fun j => ?_
  simp only [Set.mem_Ico, Set.mem_union]
  omega

theorem fills_putHistory (p : History) : Bytes.Fills (putHistory p) (Set.Ico 0 24) := by
  refine ((((((Bytes.Fills.set32 (by decide) _).comp (.set32 (by decide) _)).comp
    (.set32 (by decide) _)).comp (.set32 (by decide) _)).comp (.set32 (by decide) _)).comp
    (.set32 (by decide) _)).congr fun j => ?_
  simp only [Set.mem_Ico, Set.mem_union]
  omega

/-- The bytes of the stack that `sys_ps` copies out: the last two of each record. -/
def psPadding (proc : Pptr → Slot) (room : ℕ) : Set ℕ :=
  {j | j < used proc (List.finRange NPROC) * PS ∧ j < room ∧ 34 ≤ j % PS}

theorem sysPs_eq_iff {σ σ' : Bytes (NPROC * PS)} : sysPs proc room σ = sysPs proc room σ' ↔
    ∀ j ∈ psPadding proc room, σ.get j = σ'.get j := by
  have hf : Bytes.Fills (fun ps => (psFrom proc (List.finRange NPROC) 0 ps).2) _ :=
    fills_psFrom (by simp)
  rw [zero_add] at hf
  simp only [sysPs, fst_psFrom, zero_add]
  rw [copyOut_eq_iff, hf.eq_iff]
  simp only [Set.mem_Iio, lt_min_iff, mem_fields]
  constructor
  · rintro h j ⟨h₁, h₂, h₃⟩
    exact h j ⟨h₁, h₂⟩ (by omega)
  · rintro h j ⟨h₁, h₂⟩ hS
    refine h j ⟨h₁, h₂, ?_⟩
    unfold PS at *
    omega

/-- The bytes of the stack that `filestat` copies out, those between `nlink` and `size`. -/
def statPadding (room : ℕ) : Set ℕ := {j | 12 ≤ j ∧ j < 16 ∧ j < room}

theorem statOut_eq_iff {x : Inode} {σ σ' : Bytes STAT} :
    statOut x room σ = statOut x room σ' ↔ ∀ j ∈ statPadding room, σ.get j = σ'.get j := by
  rw [statOut, statOut, copyOut_eq_iff, (fills_stati x).eq_iff]
  simp only [Set.mem_Iio, lt_min_iff, Set.mem_union, Set.mem_Ico]
  constructor
  · rintro h j ⟨h₁, h₂, h₃⟩
    exact h j ⟨h₂.trans (by decide), h₃⟩ (by omega)
  · rintro h j ⟨h₁, h₂⟩ hS
    unfold STAT at h₁
    exact h j ⟨by omega, by omega, h₂⟩

theorem sysGetschedhistory_eq (p : History) (σ σ' : Bytes HISTORY) :
    sysGetschedhistory p room σ = sysGetschedhistory p room σ' := by
  rw [sysGetschedhistory, sysGetschedhistory, copyOut_eq_iff, (fills_putHistory p).eq_iff]
  simp only [Set.mem_Iio, lt_min_iff, Set.mem_Ico]
  exact fun j hj hS => absurd ⟨Nat.zero_le j, hj.1⟩ hS

/-- Two runs of the three calls that differ only in the old contents of the stack copy out the same
bytes if and only if the stacks agree on the padding that is copied. -/
theorem no_stack_leak_iff {x : Inode} {p : History} {r₁ r₂ r₃ : ℕ} {σ σ' : Bytes (NPROC * PS)}
    {τ τ' : Bytes STAT} {υ υ' : Bytes HISTORY} :
    (sysPs proc r₁ σ = sysPs proc r₁ σ' ∧ statOut x r₂ τ = statOut x r₂ τ' ∧
      sysGetschedhistory p r₃ υ = sysGetschedhistory p r₃ υ') ↔
    (∀ j ∈ psPadding proc r₁, σ.get j = σ'.get j) ∧
      ∀ j ∈ statPadding r₂, τ.get j = τ'.get j := by
  rw [sysPs_eq_iff, statOut_eq_iff]
  simp [sysGetschedhistory_eq p υ υ']

/-- A process table with the first process only. -/
def initOnly : Pptr → Slot := fun i =>
  if i = 0 then ⟨.running, 1, none, [105, 110, 105, 116]⟩ else ⟨.unused, 0, none, []⟩

/-- The inode of a file with ten bytes. -/
def tenBytes : Inode where
  type := T_FILE
  major := 0
  minor := 0
  nlink := 1
  size := 10
  addrs := fun _ => 0
  dev := ROOTDEV
  inum := 2
  ref := 1
  locked := true
  valid := true

/-- A stack that held zeroes and one that held ones, and what `ps` and `fstat` show of them. -/
theorem stack_leak : sysPs initOnly PS Bytes.zero ≠ sysPs initOnly PS (fun _ => 1) ∧
    statOut tenBytes STAT Bytes.zero ≠ statOut tenBytes STAT (fun _ => 1) := by
  constructor
  · rw [Ne, sysPs_eq_iff]
    intro h
    have := h 34 ⟨by decide, by decide, by decide⟩
    revert this
    decide
  · rw [Ne, statOut_eq_iff]
    intro h
    have := h 12 ⟨by decide, by decide, by decide⟩
    revert this
    decide

/-- A difference in a field that is overwritten does not show. -/
theorem no_stack_leak_field : sysPs initOnly PS Bytes.zero = sysPs initOnly PS (Bytes.zero.set 7 1) ∧
    statOut tenBytes STAT Bytes.zero = statOut tenBytes STAT (Bytes.zero.set 8 1) ∧
    sysGetschedhistory ⟨1, 0, 0, 0, 0, 0, 0⟩ HISTORY Bytes.zero =
      sysGetschedhistory ⟨1, 0, 0, 0, 0, 0, 0⟩ HISTORY fun _ => 1 := by
  refine no_stack_leak_iff.mpr ⟨fun j hj => ?_, fun j hj => ?_⟩
  · rw [Bytes.get_set_of_ne]
    rintro rfl
    exact absurd hj.2.2 (by decide)
  · rw [Bytes.get_set_of_ne]
    rintro rfl
    exact absurd hj.1 (by decide)

end Xv6.Sys

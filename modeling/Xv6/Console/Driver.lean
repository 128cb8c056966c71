import Xv6.Logic.Fifo
import Xv6.Logic.Steps

/-! # The console

The input side of `console.c`: `consoleintr` puts characters into a ring of 128
bytes and edits the last line, `consoleread` takes bytes out of it. A reader
holds the lock from one wait for input to the next one, so that each part of a
call between two waits is one step; any number of calls can be in progress. The
destinations are valid and no reader is killed.
-/

namespace Xv6.Console

open Function

abbrev INPUT_BUF_SIZE : ℕ := 128

/-- The number of values of a `uint`. -/
abbrev UINT : ℕ := 2 ^ 32

structure Cons where
  buf : ℕ → UInt8
  r : ℕ
  w : ℕ
  e : ℕ

/-- The characters that are treated specially. -/
abbrev ctrlD : UInt8 := 4
abbrev ctrlH : UInt8 := 8
abbrev ctrlP : UInt8 := 16
abbrev ctrlU : UInt8 := 21
abbrev delete : UInt8 := 127
abbrev newline : UInt8 := 10
abbrev carriageReturn : UInt8 := 13

/-- A `uint` before it is decremented. -/
def pred (x : ℕ) : ℕ := (x + UINT - 1) % UINT

/-- The difference of two values of type `uint`. -/
def diff (x y : ℕ) : ℕ := (x + UINT - y) % UINT

namespace Cons

/-- The loop for `C('U')`, which makes at most `e - w` rounds. -/
def killLine : ℕ → Cons → Cons
  | 0, s => s
  | fuel + 1, s =>
    if s.e ≠ s.w ∧ s.buf (pred s.e % INPUT_BUF_SIZE) ≠ newline then
      killLine fuel { s with e := pred s.e }
    else s

def consoleintr (c : UInt8) (s : Cons) : Cons :=
  if c = ctrlP then s
  else if c = ctrlU then killLine (diff s.e s.w) s
  else if c = ctrlH ∨ c = delete then if s.e ≠ s.w then { s with e := pred s.e } else s
  else if c ≠ 0 ∧ diff s.e s.r < INPUT_BUF_SIZE then
    let c := if c = carriageReturn then newline else c
    let s : Cons :=
      { s with
        buf := update s.buf (s.e % INPUT_BUF_SIZE) c
        e := (s.e + 1) % UINT }
    if c = newline ∨ c = ctrlD ∨ diff s.e s.r = INPUT_BUF_SIZE then { s with w := s.e } else s
  else s

end Cons

/-- A call has returned the bytes, or waits for input with `n` bytes to go. -/
inductive Outcome
  | returned (got : List UInt8)
  | waits (n : ℕ) (got : List UInt8)

/-- The loop of `consoleread` up to its end or the next `sleep`; `got` are the bytes copied. -/
def Cons.consoleread (target : ℕ) : ℕ → List UInt8 → Cons → Cons × Outcome
  | 0, got, s => (s, .returned got)
  | n + 1, got, s =>
    if s.r = s.w then (s, .waits (n + 1) got)
    else
      let c := s.buf (s.r % INPUT_BUF_SIZE)
      let s := { s with r := (s.r + 1) % UINT }
      if c = ctrlD then
        -- a `^D` after some bytes is saved for the next call
        if n + 1 < target then ({ s with r := pred s.r }, .returned got) else (s, .returned got)
      else if c = newline then (s, .returned (got ++ [c]))
      else Cons.consoleread target n (got ++ [c]) s

/-! ## Calls in progress -/

/-- Something that takes characters and serves reads. -/
structure Device (σ : Type) where
  intr : UInt8 → σ → σ
  read : ℕ → ℕ → List UInt8 → σ → σ × Outcome

def driver : Device Cons := ⟨Cons.consoleintr, Cons.consoleread⟩

/-- A call that waits for input. -/
structure Waiting where
  target : ℕ
  n : ℕ
  got : List UInt8

structure System (σ : Type) where
  cons : σ
  reader : ℕ → Option Waiting
  /-- The calls that have returned, by process, with the bytes they were given. -/
  results : List (ℕ × List UInt8)
  /-- The bytes as they were given, and to whom. -/
  log : List (ℕ × UInt8)

inductive Label
  | intr (c : UInt8)
  | read (i n : ℕ)
  | wake (i : ℕ)

variable {σ : Type}

/-- Process `i` runs on with a read until it ends or waits. -/
def System.resume (d : Device σ) (s : System σ) (i : ℕ) (x : Waiting) : System σ :=
  match d.read x.target x.n x.got s.cons with
  | (cons, .returned got) =>
    { cons := cons
      reader := update s.reader i none
      results := s.results ++ [(i, got)]
      log := s.log ++ (got.drop x.got.length).map (i, ·) }
  | (cons, .waits n got) =>
    { s with
      cons := cons
      reader := update s.reader i (some ⟨x.target, n, got⟩)
      log := s.log ++ (got.drop x.got.length).map (i, ·) }

theorem System.resume_returned {d : Device σ} {s : System σ} {i : ℕ} {x : Waiting} {y : σ}
    {got : List UInt8} (h : d.read x.target x.n x.got s.cons = (y, .returned got)) :
    s.resume d i x =
      ⟨y, update s.reader i none, s.results ++ [(i, got)],
        s.log ++ (got.drop x.got.length).map (i, ·)⟩ := by
  rw [System.resume, h]

theorem System.resume_waits {d : Device σ} {s : System σ} {i n : ℕ} {x : Waiting} {y : σ}
    {got : List UInt8} (h : d.read x.target x.n x.got s.cons = (y, .waits n got)) :
    s.resume d i x =
      ⟨y, update s.reader i (some ⟨x.target, n, got⟩), s.results,
        s.log ++ (got.drop x.got.length).map (i, ·)⟩ := by
  rw [System.resume, h]

def System.step (d : Device σ) (s : System σ) : Label → Option (Except Empty (System σ))
  | .intr c => some (.ok { s with cons := d.intr c s.cons })
  | .read i n =>
    match s.reader i with
    | none => if 0 < n then some (.ok (s.resume d i ⟨n, n, []⟩)) else none
    | some _ => none
  | .wake i => (s.reader i).map fun x => .ok (s.resume d i x)

def System.start (cons : σ) : System σ := ⟨cons, fun _ => none, [], []⟩

/-- The console after booting. -/
def Cons.init : Cons := ⟨fun _ => 0, 0, 0, 0⟩

end Xv6.Console

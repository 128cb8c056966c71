import Xv6.Logic.Steps
import Xv6.Logic.Tiling

/-! # The allocator of user programs

`malloc` and `free` of `umalloc.c`. A pointer is a byte address and memory holds a
header at each address; `p + n` on headers is `p + 16 * n` on addresses. The functions
take the system call `sbrk` as an argument. With `sbrk grant`, the `k`th call fails if
`grant k` is `none`, and otherwise returns an address `grant k` bytes above the end of
what it returned before. The search loops are cut off after `fuel` rounds.
-/

namespace Xv6.Umalloc

open Tiling Function

structure Header where
  ptr : ℕ
  size : ℕ
  deriving DecidableEq, Repr

abbrev Mem := ℕ → Header

def Mem.setPtr (m : Mem) (p ptr : ℕ) : Mem := update m p { m p with ptr }

def Mem.setSize (m : Mem) (p size : ℕ) : Mem := update m p { m p with size }

structure State where
  mem : Mem
  freep : ℕ
  /-- The end of the memory obtained so far. -/
  brk : ℕ
  /-- The number of calls of `sbrk`. -/
  calls : ℕ
  /-- What `sbrk` has returned. -/
  got : List Extent
  /-- The headers of the live blocks, with the sizes that were requested. -/
  live : List (ℕ × ℕ)

/-- The loop of `free`. -/
def findSlot (m : Mem) (bp : ℕ) : ℕ → ℕ → Option ℕ
  | 0, _ => none
  | fuel + 1, p =>
    if p < bp ∧ bp < (m p).ptr then some p
    else if (m p).ptr ≤ p ∧ (p < bp ∨ bp < (m p).ptr) then some p
    else findSlot m bp fuel (m p).ptr

/-- Join the block to the upper neighbour. -/
def joinUpper (p bp : ℕ) (m : Mem) : Mem :=
  let q := (m p).ptr
  if bp + 16 * (m bp).size = q then
    let m := m.setSize bp (((m bp).size + (m q).size) % 2 ^ 32)
    m.setPtr bp (m q).ptr
  else m.setPtr bp q

/-- Join the block to the lower neighbour. -/
def joinLower (p bp : ℕ) (m : Mem) : Mem :=
  if p + 16 * (m p).size = bp then
    let m := m.setSize p (((m p).size + (m bp).size) % 2 ^ 32)
    m.setPtr p (m bp).ptr
  else m.setPtr p bp

def free (fuel ap : ℕ) (s : State) : Option State :=
  let bp := ap - 16
  (findSlot s.mem bp fuel s.freep).map fun p =>
    { s with mem := joinLower p bp (joinUpper p bp s.mem), freep := p }

/-- A system call that returns an address or fails. -/
abbrev Sbrk := ℤ → State → Option ℕ × State

/-- A call of `sbrk` for `n` bytes; a negative `n` yields no memory. -/
def sbrk (grant : ℕ → Option ℕ) : Sbrk := fun n s =>
  match grant s.calls with
  | none => (none, { s with calls := s.calls + 1 })
  | some gap =>
    let p := s.brk + gap
    (some p, { s with
      calls := s.calls + 1
      brk := p + n.toNat
      got := (p, n.toNat) :: s.got })

/-- The value as an `int`. -/
def toInt (n : ℕ) : ℤ :=
  if n % 2 ^ 32 < 2 ^ 31 then (n % 2 ^ 32 : ℕ) else (n % 2 ^ 32 : ℕ) - 2 ^ 32

/-- The units that `morecore` asks for. -/
def coreUnits (nu : ℕ) : ℕ := if nu < 4096 then 4096 else nu

def morecore (sb : Sbrk) (fuel nu : ℕ) (s : State) : Option (ℕ × State) :=
  let nu := coreUnits nu
  match sb (toInt (nu * 16)) s with
  | (none, s) => some (0, s)
  | (some hp, s) =>
    (free fuel (hp + 16) { s with mem := s.mem.setSize hp nu }).map fun s => (s.freep, s)

/-- Take `nunits` units of the block `p` and return the address behind their header. -/
def take (nunits prevp p : ℕ) (s : State) : ℕ × State :=
  if (s.mem p).size = nunits then
    (p + 16, { s with mem := s.mem.setPtr prevp (s.mem p).ptr, freep := prevp })
  else
    let m := s.mem.setSize p ((s.mem p).size - nunits)
    let p := p + 16 * (m p).size
    (p + 16, { s with mem := m.setSize p nunits, freep := prevp })

/-- The loop of `malloc`. -/
def mallocFrom (sb : Sbrk) (nunits : ℕ) : ℕ → ℕ → ℕ → State → Option (ℕ × State)
  | 0, _, _, _ => none
  | fuel + 1, prevp, p, s =>
    if (s.mem p).size ≥ nunits then some (take nunits prevp p s)
    else if p = s.freep then do
      let (p, s) ← morecore sb fuel nunits s
      if p = 0 then some (0, s) else mallocFrom sb nunits fuel p (s.mem p).ptr s
    else mallocFrom sb nunits fuel p (s.mem p).ptr s

def units (nbytes : ℕ) : ℕ := (nbytes + 16 - 1) / 16 + 1

def malloc (base : ℕ) (sb : Sbrk) (fuel nbytes : ℕ) (s : State) : Option (ℕ × State) :=
  let s := if s.freep = 0 then
    { s with mem := update s.mem base ⟨base, 0⟩, freep := base } else s
  mallocFrom sb (units nbytes) fuel s.freep (s.mem s.freep).ptr s

inductive Act
  | malloc (nbytes : ℕ)
  /-- `free` of the live block with this header. -/
  | free (bp : ℕ)
  /-- The program writes inside of a live block, behind its header. -/
  | write (x : ℕ) (h : Header)

/-- The block whose header is at `bp`. -/
def blk (m : Mem) (bp : ℕ) : Extent := (bp, 16 * (m bp).size)

/-- What a program may do. -/
def Allowed (s : State) : Act → Prop
  | .malloc nbytes => nbytes < 2 ^ 32
  | .free bp => ∃ b ∈ s.live, b.1 = bp
  | .write x _ => ∃ b ∈ s.live, b.1 ≠ x ∧ (blk s.mem b.1).Has x

def perform (base : ℕ) (sb : Sbrk) (fuel : ℕ) (s : State) : Act → Option State
  | .malloc nbytes => (malloc base sb fuel nbytes s).map fun r =>
      if r.1 = 0 then r.2 else { r.2 with live := (r.1 - 16, nbytes) :: r.2.live }
  | .free bp => (free fuel (bp + 16) s).map fun s' =>
      { s' with live := s.live.eraseP fun b => b.1 = bp }
  | .write x h => some { s with mem := update s.mem x h }

/-- A call that a program may make returns. -/
def Step (base : ℕ) (grant : ℕ → Option ℕ) (s : State) (a : Act) (s' : State) : Prop :=
  Allowed s a ∧ ∃ fuel, perform base (sbrk grant) fuel s a = some s'

/-- Before the first call of `malloc`. -/
def State.init (m : Mem) (brk : ℕ) : State where
  mem := m
  freep := 0
  brk := brk
  calls := 0
  got := []
  live := []

end Xv6.Umalloc

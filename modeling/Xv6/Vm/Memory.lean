import Xv6.Logic.Hoare
import Xv6.Param

/-! # Physical memory and page tables

The functions of `kalloc.c` and `vm.c`. Physical memory is a page of bytes for each
page address; the free list is a list of page addresses. Page tables lie in the
pages themselves, as 64-bit entries.
-/

namespace Xv6.Vm

abbrev KERNBASE : ℕ := 0x80000000
abbrev PHYSTOP : ℕ := KERNBASE + 128 * 1024 * 1024

theorem KERNBASE_mod : KERNBASE % PGSIZE = 0 := by decide
abbrev MAXVA : ℕ := 2 ^ 38
abbrev TRAMPOLINE : ℕ := MAXVA - PGSIZE
abbrev TRAPFRAME : ℕ := TRAMPOLINE - PGSIZE

abbrev PTE_V : ℕ := 1
abbrev PTE_R : ℕ := 2
abbrev PTE_W : ℕ := 4
abbrev PTE_X : ℕ := 8
abbrev PTE_U : ℕ := 16

/-- Entries of a page-table page. -/
abbrev NPTE : ℕ := 512

def PGROUNDUP (sz : ℕ) : ℕ := (sz + PGSIZE - 1) % 2 ^ 64 / PGSIZE * PGSIZE
def PGROUNDDOWN (a : ℕ) : ℕ := a / PGSIZE * PGSIZE

def PA2PTE (pa : ℕ) : ℕ := pa / PGSIZE * 1024
def PTE2PA (pte : ℕ) : ℕ := pte / 1024 * PGSIZE
def PTE_FLAGS (pte : ℕ) : ℕ := pte % 1024

/-- The page-table index of `va` at a level. -/
def PX (level va : ℕ) : ℕ := va / 2 ^ (12 + 9 * level) % NPTE

inductive Panic
  | kfree
  | walk
  | mappagesSize
  | remap
  | unmapAlign
  | unmapWalk
  | notMapped
  | notLeaf
  | freewalkLeaf
  /-- `freewalk` below the last level. -/
  | freewalkDepth
  | copyPte
  | copyPresent
  | uvmclear
  | loadseg
  | filedup
  | fileclose
  | initExiting
  deriving DecidableEq

/-- Where the kernel's image ends and where in it the trampoline page is. -/
structure Layout where
  kend : ℕ
  trampoline : ℕ
  kend_le : kend ≤ PHYSTOP
  trampoline_align : trampoline % PGSIZE = 0
  trampoline_ge : KERNBASE ≤ trampoline
  trampoline_le : trampoline + PGSIZE ≤ kend

abbrev Page := Bytes PGSIZE

structure Mem where
  image : Layout
  page : ℕ → Page
  free : List ℕ

abbrev M := EStateM Panic Mem

/-! ## `kalloc.c` -/

def setPage (pa : ℕ) (b : Page) : M Unit :=
  modify fun s => { s with page := Function.update s.page pa b }

def memset (pa : ℕ) (c : UInt8) : M Unit := setPage pa fun _ => c

def kfree (pa : ℕ) : M Unit := do
  let s ← get
  stopIf (pa % PGSIZE ≠ 0 ∨ pa < s.image.kend ∨ PHYSTOP ≤ pa) .kfree
  memset pa 1
  modify fun s => { s with free := pa :: s.free }

def kalloc : M (Option ℕ) := do
  let s ← get
  match s.free with
  | [] => pure none
  | r :: rest =>
    set { s with free := rest }
    memset r 5
    pure (some r)

/-! ## `vm.c` -/

/-- The entry at an index of a page-table page. -/
def Mem.pte (s : Mem) (pa i : ℕ) : ℕ := (s.page pa).get64 (8 * i)

def readPte (l : ℕ × ℕ) : M ℕ := do
  let s ← get
  pure (s.pte l.1 l.2)

def writePte (l : ℕ × ℕ) (v : ℕ) : M Unit := do
  let s ← get
  setPage l.1 ((s.page l.1).set64 (8 * l.2) v)

/-- The loop of `walk` from a level on; a pointer to an entry is its page and index. -/
def walkFrom (alloc : Bool) (va : ℕ) : ℕ → ℕ → M (Option (ℕ × ℕ))
  | 0, pagetable => pure (some (pagetable, PX 0 va))
  | level + 1, pagetable => do
    let pte ← readPte (pagetable, PX (level + 1) va)
    if pte &&& PTE_V ≠ 0 then walkFrom alloc va level (PTE2PA pte)
    else if alloc = false then pure none
    else
      match ← kalloc with
      | none => pure none
      | some pg =>
        memset pg 0
        writePte (pagetable, PX (level + 1) va) (PA2PTE pg ||| PTE_V)
        walkFrom alloc va level pg

def walk (pagetable va : ℕ) (alloc : Bool) : M (Option (ℕ × ℕ)) := do
  stopIf (MAXVA ≤ va) .walk
  walkFrom alloc va 2 pagetable

/-- The result is `none` where the source returns 0, also for a page at the physical address 0. -/
def walkaddr (pagetable va : ℕ) : M (Option ℕ) := do
  if MAXVA ≤ va then pure none
  else
    match ← walk pagetable va false with
    | none => pure none
    | some l =>
      let pte ← readPte l
      if pte &&& PTE_V = 0 then pure none
      else if pte &&& PTE_U = 0 then pure none
      else if PTE2PA pte = 0 then pure none
      else pure (some (PTE2PA pte))

/-- The loop of `mappages`, with `k` pages to come after the page at `a`. -/
def mappagesFrom (pagetable perm : ℕ) : ℕ → ℕ → ℕ → M Bool
  | 0, a, pa => do
    match ← walk pagetable a true with
    | none => pure false
    | some l =>
      let pte ← readPte l
      stopIf (pte &&& PTE_V ≠ 0) .remap
      writePte l (PA2PTE pa ||| perm ||| PTE_V)
      pure true
  | k + 1, a, pa => do
    match ← walk pagetable a true with
    | none => pure false
    | some l =>
      let pte ← readPte l
      stopIf (pte &&& PTE_V ≠ 0) .remap
      writePte l (PA2PTE pa ||| perm ||| PTE_V)
      mappagesFrom pagetable perm k (a + PGSIZE) (pa + PGSIZE)

/-- Returns whether all pages were mapped. -/
def mappages (pagetable va size pa perm : ℕ) : M Bool := do
  stopIf (size = 0) .mappagesSize
  mappagesFrom pagetable perm ((PGROUNDDOWN (va + size - 1) - PGROUNDDOWN va) / PGSIZE)
    (PGROUNDDOWN va) pa

def uvmunmapFrom (pagetable : ℕ) (doFree : Bool) : ℕ → ℕ → M Unit
  | 0, _ => pure ()
  | k + 1, a => do
    match ← walk pagetable a false with
    | none => throw .unmapWalk
    | some l =>
      let pte ← readPte l
      stopIf (pte &&& PTE_V = 0) .notMapped
      stopIf (PTE_FLAGS pte = PTE_V) .notLeaf
      runIf (doFree = true) (kfree (PTE2PA pte))
      writePte l 0
      uvmunmapFrom pagetable doFree k (a + PGSIZE)

def uvmunmap (pagetable va npages : ℕ) (doFree : Bool) : M Unit := do
  stopIf (va % PGSIZE ≠ 0) .unmapAlign
  uvmunmapFrom pagetable doFree npages va

def uvmcreate : M (Option ℕ) := do
  match ← kalloc with
  | none => pure none
  | some pagetable =>
    memset pagetable 0
    pure (some pagetable)

def uvmdealloc (pagetable oldsz newsz : ℕ) : M ℕ := do
  if oldsz ≤ newsz then pure oldsz
  else
    runIf (PGROUNDUP newsz < PGROUNDUP oldsz)
      (uvmunmap pagetable (PGROUNDUP newsz) ((PGROUNDUP oldsz - PGROUNDUP newsz) / PGSIZE) true)
    pure newsz

/-- The loop of `uvmalloc`, with `k` pages to come from `a` on; `oldsz` is rounded up. -/
def uvmallocFrom (pagetable oldsz xperm : ℕ) : ℕ → ℕ → M Bool
  | 0, _ => pure true
  | k + 1, a => do
    match ← kalloc with
    | none =>
      let _ ← uvmdealloc pagetable a oldsz
      pure false
    | some mem =>
      memset mem 0
      if ← mappages pagetable a PGSIZE mem (PTE_R ||| PTE_U ||| xperm) then
        uvmallocFrom pagetable oldsz xperm k (a + PGSIZE)
      else
        kfree mem
        let _ ← uvmdealloc pagetable a oldsz
        pure false

/-- The pages `a`, `a + PGSIZE`, … below `b`. -/
def pagesTo (a b : ℕ) : ℕ := (b - a + PGSIZE - 1) / PGSIZE

def uvmalloc (pagetable oldsz newsz xperm : ℕ) : M ℕ := do
  if newsz < oldsz then pure oldsz
  else if ← uvmallocFrom pagetable (PGROUNDUP oldsz) xperm (pagesTo (PGROUNDUP oldsz) newsz)
      (PGROUNDUP oldsz) then
    pure newsz
  else pure 0

/-- The loop of `freewalk` over the entries from `i` on. -/
def freewalkFrom (sub : ℕ → M Unit) (pagetable : ℕ) : ℕ → ℕ → M Unit
  | 0, _ => pure ()
  | k + 1, i => do
    let pte ← readPte (pagetable, i)
    if pte &&& PTE_V ≠ 0 ∧ pte &&& (PTE_R ||| PTE_W ||| PTE_X) = 0 then
      sub (PTE2PA pte)
      writePte (pagetable, i) 0
    else
      stopIf (pte &&& PTE_V ≠ 0) .freewalkLeaf
    freewalkFrom sub pagetable k (i + 1)

/-- The recursion is as deep as a page table has levels. -/
def freewalk : ℕ → ℕ → M Unit
  | 0, _ => throw .freewalkDepth
  | depth + 1, pagetable => do
    freewalkFrom (freewalk depth) pagetable NPTE 0
    kfree pagetable

def uvmfree (pagetable sz : ℕ) : M Unit := do
  runIf (0 < sz) (uvmunmap pagetable 0 (PGROUNDUP sz / PGSIZE) true)
  freewalk 3 pagetable

def uvmcopyFrom (old new : ℕ) : ℕ → ℕ → M Bool
  | 0, _ => pure true
  | k + 1, i => do
    match ← walk old i false with
    | none => throw .copyPte
    | some l =>
      let pte ← readPte l
      stopIf (pte &&& PTE_V = 0) .copyPresent
      match ← kalloc with
      | none =>
        uvmunmap new 0 (i / PGSIZE) true
        pure false
      | some mem =>
        let s ← get
        setPage mem (s.page (PTE2PA pte))
        if ← mappages new i PGSIZE mem (PTE_FLAGS pte) then uvmcopyFrom old new k (i + PGSIZE)
        else
          kfree mem
          uvmunmap new 0 (i / PGSIZE) true
          pure false

def uvmcopy (old new sz : ℕ) : M Bool := uvmcopyFrom old new (pagesTo 0 sz) 0

def uvmclear (pagetable va : ℕ) : M Unit := do
  match ← walk pagetable va false with
  | none => throw .uvmclear
  | some l =>
    let pte ← readPte l
    writePte l (pte - (pte &&& PTE_U))

/-- The loop of `copyout`; each round copies at least one byte. -/
def copyoutFrom (pagetable : ℕ) : ℕ → ℕ → List UInt8 → M Bool
  | 0, _, src => pure src.isEmpty
  | fuel + 1, dstva, src =>
    if src.isEmpty then pure true
    else do
      let va0 := PGROUNDDOWN dstva
      match ← walkaddr pagetable va0 with
      | none => pure false
      | some pa0 =>
        let n := min (PGSIZE - (dstva - va0)) src.length
        let s ← get
        setPage pa0 ((s.page pa0).blit (dstva - va0) (fun j => src.getD j 0) n)
        copyoutFrom pagetable fuel (va0 + PGSIZE) (src.drop n)

def copyout (pagetable dstva : ℕ) (src : List UInt8) : M Bool :=
  copyoutFrom pagetable src.length dstva src

/-- The bytes of a page from an offset on. -/
def Mem.bytes (s : Mem) (pa off n : ℕ) : List UInt8 :=
  (List.range n).map fun j => (s.page pa).get (off + j)

/-- The loop of `copyin`; returns whether it succeeds, and the bytes that come to `dst`. -/
def copyinFrom (pagetable : ℕ) : ℕ → ℕ → ℕ → M (Bool × List UInt8)
  | 0, _, len => pure (len = 0, [])
  | fuel + 1, srcva, len =>
    if len = 0 then pure (true, [])
    else do
      let va0 := PGROUNDDOWN srcva
      match ← walkaddr pagetable va0 with
      | none => pure (false, [])
      | some pa0 =>
        let n := min (PGSIZE - (srcva - va0)) len
        let s ← get
        let bs := s.bytes pa0 (srcva - va0) n
        let rest ← copyinFrom pagetable fuel (va0 + PGSIZE) (len - n)
        pure (rest.1, bs ++ rest.2)

def copyin (pagetable srcva len : ℕ) : M (Bool × List UInt8) :=
  copyinFrom pagetable len srcva len

/-- The inner loop of `copyinstr`: whether a NUL was found, and the bytes that come to `dst`. -/
def copyChars : List UInt8 → Bool × List UInt8
  | [] => (false, [])
  | b :: bs => if b = 0 then (true, [0]) else ((copyChars bs).1, b :: (copyChars bs).2)

/-- The loop of `copyinstr` over the pages. -/
def copyinstrFrom (pagetable : ℕ) : ℕ → ℕ → ℕ → M (Bool × List UInt8)
  | 0, _, _ => pure (false, [])
  | fuel + 1, srcva, max =>
    if max = 0 then pure (false, [])
    else do
      let va0 := PGROUNDDOWN srcva
      match ← walkaddr pagetable va0 with
      | none => pure (false, [])
      | some pa0 =>
        let n := min (PGSIZE - (srcva - va0)) max
        let s ← get
        let c := copyChars (s.bytes pa0 (srcva - va0) n)
        if c.1 then pure c
        else
          let rest ← copyinstrFrom pagetable fuel (va0 + PGSIZE) (max - n)
          pure (rest.1, c.2 ++ rest.2)

def copyinstr (pagetable srcva max : ℕ) : M (Bool × List UInt8) :=
  copyinstrFrom pagetable max srcva max

end Xv6.Vm

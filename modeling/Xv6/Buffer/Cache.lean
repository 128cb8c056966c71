import Xv6.Param
import Xv6.Logic.Hoare
import Xv6.Logic.Ring

/-! # The buffer cache

A model of `bio.c`. Buffers are the elements of `Fin NBUF`; the list through
`prev` and `next` has `bcache.head` as `none`. The disk performs each request
of `virtio_disk_rw` at once and keeps the writes in the order of their issue.
A function that would have to wait for a sleep-lock stops with `Halt.sleep`.
-/

namespace Xv6.Buffer

open Function

inductive Halt
  | sleep
  | noBuffers -- "bget: no buffers"
  | bwrite -- "bwrite"
  | brelse -- "brelse"
  | tooBig -- "too big a transaction"
  | outsideTrans -- "log_write outside of trans"
  | committing -- "log.committing"
  deriving DecidableEq, Repr

structure Buf where
  valid : Bool
  dev : ℕ
  blockno : ℕ
  /-- The pid of the holder of the sleep-lock. -/
  lock : Option ℕ
  refcnt : ℕ
  data : Block

/-- The in-memory log of `log.c`; the list holds `lh.block[0]` to `lh.block[lh.n - 1]`. -/
structure Log where
  start : ℕ
  size : ℕ
  outstanding : ℤ
  committing : Bool
  dev : ℕ
  lh : List ℕ

structure Machine where
  disk : ℕ → Block
  /-- The block writes the disk has performed, the first one first. -/
  writes : List (ℕ × Block)
  buf : Fin NBUF → Buf
  next : Option (Fin NBUF) → Option (Fin NBUF)
  prev : Option (Fin NBUF) → Option (Fin NBUF)
  log : Log

abbrev M := EStateM Halt Machine

variable (pid : ℕ)

def setBuf (b : Fin NBUF) (v : Buf) : M Unit :=
  modify fun s => { s with buf := update s.buf b v }

def acquiresleep (b : Fin NBUF) : M Unit := do
  let s ← get
  match (s.buf b).lock with
  | some _ => throw .sleep
  | none => setBuf b { s.buf b with lock := some pid }

def releasesleep (b : Fin NBUF) : M Unit := do
  let s ← get
  setBuf b { s.buf b with lock := none }

def virtioDiskRead (b : Fin NBUF) : M Unit := do
  let s ← get
  setBuf b { s.buf b with data := s.disk (s.buf b).blockno }

def virtioDiskWrite (b : Fin NBUF) : M Unit :=
  modify fun s => { s with
    disk := update s.disk (s.buf b).blockno (s.buf b).data
    writes := s.writes ++ [((s.buf b).blockno, (s.buf b).data)] }

/-- Find the block in the cache, or recycle the least recently used free buffer. -/
def bget (dev blockno : ℕ) : M (Fin NBUF) := do
  let s ← get
  match (chain s.next NBUF (s.next none)).find? fun b =>
      (s.buf b).dev = dev ∧ (s.buf b).blockno = blockno with
  | some b =>
    setBuf b { s.buf b with refcnt := (s.buf b).refcnt + 1 }
    acquiresleep pid b
    pure b
  | none =>
    match (chain s.prev NBUF (s.prev none)).find? fun b => (s.buf b).refcnt = 0 with
    | some b =>
      setBuf b { s.buf b with dev := dev, blockno := blockno, valid := false, refcnt := 1 }
      acquiresleep pid b
      pure b
    | none => throw .noBuffers

def bread (dev blockno : ℕ) : M (Fin NBUF) := do
  let b ← bget pid dev blockno
  let s ← get
  if (s.buf b).valid = false then
    virtioDiskRead b
    let s ← get
    setBuf b { s.buf b with valid := true }
  pure b

def bwrite (b : Fin NBUF) : M Unit := do
  let s ← get
  if (s.buf b).lock ≠ some pid then throw .bwrite
  virtioDiskWrite b

/-- The list update of `brelse`: unlink the buffer and link it in again right after the head. -/
def moveToFront (b : Fin NBUF) : M Unit :=
  modify fun s =>
    let prev := update s.prev (s.next (some b)) (s.prev (some b))
    let next := update s.next (prev (some b)) (s.next (some b))
    { s with
      next := update (update next (some b) (next none)) none (some b)
      prev := update (update prev (some b) none) (next none) (some b) }

def brelse (b : Fin NBUF) : M Unit := do
  let s ← get
  if (s.buf b).lock ≠ some pid then throw .brelse
  releasesleep b
  let s ← get
  setBuf b { s.buf b with refcnt := (s.buf b).refcnt - 1 }
  if (s.buf b).refcnt - 1 = 0 then moveToFront b

def bpin (b : Fin NBUF) : M Unit := do
  let s ← get
  setBuf b { s.buf b with refcnt := (s.buf b).refcnt + 1 }

def bunpin (b : Fin NBUF) : M Unit := do
  let s ← get
  setBuf b { s.buf b with refcnt := (s.buf b).refcnt - 1 }

/-- The list `binit` builds from a prefix of the buffer array. -/
def linkAll : List (Fin NBUF) → (Option (Fin NBUF) → Option (Fin NBUF)) ×
    (Option (Fin NBUF) → Option (Fin NBUF))
  | [] => (fun _ => none, fun _ => none)
  | b :: bs =>
    let (next, prev) := linkAll bs
    (update (update next (some b) (next none)) none (some b),
      update (update prev (some b) none) (next none) (some b))

/-- Memory right after a reboot with the given disk: all buffers empty and linked by `binit`. -/
def boot (disk : ℕ → Block) (start size : ℕ) : Machine where
  disk := disk
  writes := []
  buf _ := ⟨false, 0, 0, none, 0, Bytes.zero⟩
  next := (linkAll (List.finRange NBUF).reverse).1
  prev := (linkAll (List.finRange NBUF).reverse).2
  log := ⟨start, size, 0, false, ROOTDEV, []⟩

end Xv6.Buffer

import Xv6.Logic.Steps
import Xv6.Param

/-! # The virtio disk driver

Calls of `virtio_disk_rw` on buffers of a type `β`, the interrupt handler and the device.
The driver works under `vdisk_lock`; the device reads the descriptors and writes the
`used` ring at any time. The code between two lock operations is cut into the steps at
which the device can see a difference.
-/

namespace Xv6.Virtio

open Function

abbrev NUM : ℕ := 8

/-- The indices of the rings are `uint16`. -/
abbrev IDX : ℕ := 2 ^ 16

abbrev VRING_DESC_F_NEXT : BitVec 16 := 1
abbrev VRING_DESC_F_WRITE : BitVec 16 := 2
abbrev VIRTIO_BLK_T_IN : ℕ := 0
abbrev VIRTIO_BLK_T_OUT : ℕ := 1

/-- What a descriptor points to: `disk.ops[i]`, `b->data` or `disk.info[i].status`. -/
inductive Addr (β : Type)
  | null
  | op (i : ℕ)
  | data (b : β)
  | status (i : ℕ)
  deriving DecidableEq, Repr

/-- `struct virtq_desc` -/
structure Desc (β : Type) where
  addr : Addr β
  len : ℕ
  flags : BitVec 16
  next : ℕ
  deriving DecidableEq, Repr

/-- `struct virtio_blk_req` -/
structure BlkReq where
  type : ℕ
  reserved : ℕ
  sector : ℕ
  deriving DecidableEq, Repr

/-- The header of a request; the `sector` is computed in a `uint`. -/
def blkReq (write : Bool) (blockno : ℕ) : BlkReq :=
  ⟨if write then VIRTIO_BLK_T_OUT else VIRTIO_BLK_T_IN, 0, blockno * (BSIZE / 512) % 2 ^ 32⟩

structure Info (β : Type) where
  b : Option β
  status : ℕ

/-- An index and a ring of descriptor numbers. -/
structure Ring where
  idx : ℕ
  ring : ℕ → ℕ

/-- `struct disk` -/
structure Disk (β : Type) where
  desc : ℕ → Desc β
  avail : Ring
  used : Ring
  free : ℕ → Bool
  usedIdx : ℕ
  info : ℕ → Info β
  ops : ℕ → BlkReq

/-- The three descriptors of a request. -/
structure Chain where
  i₀ : ℕ
  i₁ : ℕ
  i₂ : ℕ
  deriving DecidableEq, Repr

def Chain.toList (x : Chain) : List ℕ := [x.i₀, x.i₁, x.i₂]

inductive Panic
  | freeDesc1
  | freeDesc2
  | intrStatus
  /-- An index beyond the arrays of `struct disk`. -/
  | bounds
  /-- A null `struct buf`. -/
  | nullBuf
  /-- The device finds a chain that is not a request. -/
  | badChain
  deriving DecidableEq, Repr

namespace Disk

variable {β : Type} (d : Disk β)

/-! ## Descriptors -/

def setFree (i : ℕ) (x : Bool) : Disk β := { d with free := update d.free i x }

def allocDesc : Option (ℕ × Disk β) :=
  ((List.range NUM).find? d.free).map fun i => (i, d.setFree i false)

def freeDesc (i : ℕ) : Except Panic (Disk β) :=
  if NUM ≤ i then .error .freeDesc1
  else if d.free i then .error .freeDesc2
  else .ok { d.setFree i true with desc := update d.desc i ⟨.null, 0, 0, 0⟩ }

/-- The loop of `free_chain`. After `NUM` descriptors the next `free_desc` finds a free one. -/
def freeChainFrom : ℕ → ℕ → Disk β → Except Panic (Disk β)
  | 0, i, d => d.freeDesc i
  | fuel + 1, i, d => do
    let flag := (d.desc i).flags
    let nxt := (d.desc i).next
    let d ← d.freeDesc i
    if flag &&& VRING_DESC_F_NEXT ≠ 0 then freeChainFrom fuel nxt d else pure d

def freeChain (i : ℕ) : Except Panic (Disk β) := freeChainFrom NUM i d

/-- `none` when there are less than three free descriptors; those found are freed again. -/
def alloc3Desc : Except Panic (Option Chain × Disk β) :=
  match d.allocDesc with
  | none => pure (none, d)
  | some (i₀, d) =>
    match d.allocDesc with
    | none => do
      let d ← d.freeDesc i₀
      pure (none, d)
    | some (i₁, d) =>
      match d.allocDesc with
      | none => do
        let d ← d.freeDesc i₀
        let d ← d.freeDesc i₁
        pure (none, d)
      | some (i₂, d) => pure (some ⟨i₀, i₁, i₂⟩, d)

/-- `virtio_disk_rw` formats the descriptors. -/
def format (b : β) (write : Bool) (blockno : ℕ) (x : Chain) : Disk β :=
  { d with
    ops := update d.ops x.i₀ (blkReq write blockno)
    desc := update (update (update d.desc
      x.i₀ ⟨.op x.i₀, 16, VRING_DESC_F_NEXT, x.i₁⟩)
      x.i₁ ⟨.data b, BSIZE, (if write then 0 else VRING_DESC_F_WRITE) ||| VRING_DESC_F_NEXT, x.i₂⟩)
      x.i₂ ⟨.status x.i₀, 1, VRING_DESC_F_WRITE, 0⟩
    info := update d.info x.i₀ ⟨some b, 0xff⟩ }

end Disk

/-! ## The machine -/

/-- Where a call `virtio_disk_rw(b, write)` is. -/
inductive Stage
  | idle
  /-- Before `acquire`, or in the `sleep` of the first loop. -/
  | enter (write : Bool) (blockno : ℕ)
  /-- At `alloc3_desc`. -/
  | alloc (write : Bool) (blockno : ℕ)
  | format (write : Bool) (blockno : ℕ) (x : Chain)
  /-- At the write to `disk.avail->ring`. -/
  | post (write : Bool) (blockno : ℕ) (x : Chain)
  /-- At `disk.avail->idx += 1`. -/
  | publish (write : Bool) (blockno : ℕ) (x : Chain)
  /-- At the test of `b->disk`. -/
  | wait (x : Chain)
  /-- In `sleep(b, &disk.vdisk_lock)`. -/
  | asleep (x : Chain)
  | reclaim (x : Chain)
  /-- At `release`. -/
  | leave
  deriving DecidableEq, Repr

/-- Where `virtio_disk_intr` is. -/
inductive Intr
  | out
  /-- At the test of its loop. -/
  | loop
  /-- At an entry of the `used` ring. -/
  | entry
  | leave
  deriving DecidableEq, Repr

inductive Holder (β : Type)
  | rw (b : β)
  | intr
  deriving DecidableEq, Repr

/-- A request for the device. -/
structure Request (β : Type) where
  b : β
  req : BlkReq
  deriving DecidableEq, Repr

structure Device where
  /-- How far it has read the `avail` ring. -/
  lastAvail : ℕ
  /-- The chains that it works on. -/
  inflight : List ℕ

/-- What the calls, the handler and the device work on. -/
structure Shared (β : Type) where
  disk : Disk β
  /-- `b->disk` -/
  busy : β → Bool
  dev : Device
  -- what the calls have asked for and what the device has done, oldest first
  posted : List (Request β)
  served : List (Request β)
  /-- How many completions `virtio_disk_intr` has seen. -/
  cleared : ℕ

structure State (β : Type) extends Shared β where
  /-- Who holds `vdisk_lock`. -/
  lock : Option (Holder β)
  rw : β → Stage
  intr : Intr

inductive Act (β : Type)
  /-- A call of `virtio_disk_rw`. -/
  | start (b : β) (write : Bool) (blockno : ℕ)
  /-- It gets the lock, first or on return from `sleep`; `kill` can end a `sleep` at any time. -/
  | acquire (b : β)
  /-- Its next step. -/
  | run (b : β)
  | interrupt
  | handle
  /-- The device reads an entry of the `avail` ring. -/
  | fetch
  /-- It finishes the chain at `h`. -/
  | complete (h : ℕ)
  deriving DecidableEq

variable {β : Type} [DecidableEq β]

namespace State

variable (s : State β)

/-- The call on `b` goes on at `x`. -/
def goto (b : β) (x : Stage) : State β := { s with rw := update s.rw b x }

/-- The next step of the call on `b`, which holds the lock. -/
def rwStep (b : β) : Option (Except Panic (State β)) :=
  match s.rw b with
  | .alloc write blockno => some do
    match ← s.disk.alloc3Desc with
    | (none, d) => pure { s.goto b (.enter write blockno) with disk := d, lock := none }
    | (some x, d) => pure { s.goto b (.format write blockno x) with disk := d }
  | .format write blockno x => some (.ok
    { s.goto b (.post write blockno x) with
      disk := s.disk.format b write blockno x, busy := update s.busy b true })
  | .post write blockno x =>
    let ring := update s.disk.avail.ring (s.disk.avail.idx % NUM) x.i₀
    some (.ok { s.goto b (.publish write blockno x) with
      disk := { s.disk with avail := ⟨s.disk.avail.idx, ring⟩ } })
  | .publish write blockno x => some (.ok
    { s.goto b (.wait x) with
      disk := { s.disk with avail := ⟨(s.disk.avail.idx + 1) % IDX, s.disk.avail.ring⟩ }
      posted := s.posted ++ [⟨b, blkReq write blockno⟩] })
  | .wait x => some (.ok
    (if s.busy b then { s.goto b (.asleep x) with lock := none } else s.goto b (.reclaim x)))
  | .reclaim x => some do
    let info := update s.disk.info x.i₀ { s.disk.info x.i₀ with b := none }
    let d ← { s.disk with info := info }.freeChain x.i₀
    pure { s.goto b .leave with disk := d }
  | .leave => some (.ok { s.goto b .idle with lock := none })
  | .idle | .enter .. | .asleep _ => none

/-- The next step of `virtio_disk_intr`, which holds the lock. -/
def intrStep : Option (Except Panic (State β)) :=
  match s.intr with
  | .out => none
  | .loop => some (.ok
    { s with intr := if s.disk.usedIdx ≠ s.disk.used.idx then .entry else .leave })
  | .entry =>
    let id := s.disk.used.ring (s.disk.usedIdx % NUM)
    if NUM ≤ id then some (.error .bounds)
    else if (s.disk.info id).status ≠ 0 then some (.error .intrStatus)
    else match (s.disk.info id).b with
      | none => some (.error .nullBuf)
      | some b => some (.ok
        { s with
          busy := update s.busy b false
          disk := { s.disk with usedIdx := (s.disk.usedIdx + 1) % IDX }
          intr := .loop
          cleared := s.cleared + 1 })
  | .leave => some (.ok { s with intr := .out, lock := none })

/-- The device executes the request at `h`, writes its status and adds `h` to the `used` ring. -/
def complete (h : ℕ) : Option (Except Panic (State β)) :=
  if h ∈ s.dev.inflight then
    let d₀ := s.disk.desc h
    let d₁ := s.disk.desc d₀.next
    let d₂ := s.disk.desc d₁.next
    match d₀.addr, d₁.addr, d₂.addr with
    | .op i, .data b, .status j =>
      if d₀.flags &&& VRING_DESC_F_NEXT = 0 ∨ d₁.flags &&& VRING_DESC_F_NEXT = 0 then
        some (.error .badChain)
      else
        let ring := update s.disk.used.ring (s.disk.used.idx % NUM) h
        some (.ok
          { s with
            disk := { s.disk with
              info := update s.disk.info j { s.disk.info j with status := 0 }
              used := ⟨(s.disk.used.idx + 1) % IDX, ring⟩ }
            dev := { s.dev with inflight := s.dev.inflight.erase h }
            served := s.served ++ [⟨b, s.disk.ops i⟩] })
    | _, _, _ => some (.error .badChain)
  else none

def step : Act β → Option (Except Panic (State β))
  | .start b write blockno =>
    if s.rw b = .idle then some (.ok (s.goto b (.enter write blockno))) else none
  | .acquire b =>
    if s.lock = none then
      match s.rw b with
      | .enter write blockno =>
        some (.ok { s.goto b (.alloc write blockno) with lock := some (.rw b) })
      | .asleep x => some (.ok { s.goto b (.wait x) with lock := some (.rw b) })
      | _ => none
    else none
  | .run b => s.rwStep b
  | .interrupt =>
    if s.lock = none then some (.ok { s with lock := some .intr, intr := .loop }) else none
  | .handle => s.intrStep
  | .fetch =>
    if s.dev.lastAvail = s.disk.avail.idx then none
    else some (.ok
      { s with
        dev := ⟨(s.dev.lastAvail + 1) % IDX,
          s.dev.inflight ++ [s.disk.avail.ring (s.dev.lastAvail % NUM)]⟩ })
  | .complete h => s.complete h

/-- After `virtio_disk_init`. -/
def init : State β where
  disk :=
    { desc := fun _ => ⟨.null, 0, 0, 0⟩
      avail := ⟨0, fun _ => 0⟩
      used := ⟨0, fun _ => 0⟩
      free := fun i => i < NUM
      usedIdx := 0
      info := fun _ => ⟨none, 0⟩
      ops := fun _ => ⟨0, 0, 0⟩ }
  busy _ := false
  lock := none
  rw _ := .idle
  intr := .out
  dev := ⟨0, []⟩
  posted := []
  served := []
  cleared := 0

end State

end Xv6.Virtio

import Xv6.Fs.Fault
import Xv6.Logic.Steps
import Xv6.Sys.Kernel

/-! # Writers that share a file

Processes that share one `struct file` call `filewrite` at the same time. The
section between `ilock` and `iunlock` is one step; `begin_op` and `end_op` are
steps of their own, so that several transactions overlap.
-/

namespace Xv6.Offset

open Fs Sys Function

/-- A call of `filewrite` for `n` bytes; `mem` is what can be read at the user address. -/
structure Call where
  mem : List UInt8
  n : ℕ
  deriving DecidableEq

/-- The bytes a call is to write. -/
def Call.bytes (c : Call) : List UInt8 := c.mem.take c.n

/-- The length of the next transaction, the variable `n1`. -/
def Call.chunk (c : Call) (i : ℕ) : ℕ := min (c.n - i) maxWrite

/-- The result of the call when the loop ends with the given `i`. -/
def Call.result (c : Call) (i : ℕ) : ℤ := if i = c.n then c.n else -1

/-- Where a process is in `filewrite`, with the variables `i` and `r`. -/
inductive Stage
  | idle
  /-- At the head of the loop. -/
  | loop (c : Call) (i : ℕ)
  /-- Between `begin_op` and `ilock`. -/
  | begun (c : Call) (i : ℕ)
  /-- Between `iunlock` and `end_op`. -/
  | written (c : Call) (i : ℕ) (r : ℤ)
  /-- After the `break`. -/
  | broke (c : Call) (i : ℕ)
  deriving DecidableEq

/-- The file system, the field `off` of the file, and the processes. -/
structure World (P : Type) where
  fs : State
  off : ℕ
  stage : P → Stage

inductive Act (P : Type)
  | call (p : P) (c : Call)
  | beginOp (p : P)
  | lock (p : P) (c : Call)
  | endOp (p : P)
  | ret (p : P) (c : Call) (v : ℤ)

variable {P : Type} [DecidableEq P] (sb : Superblock) (ip : Iptr)

/-- The section of `filewrite` that holds the lock of the inode. -/
def writeLocked (src : ℕ → Option UInt8) (off n : ℕ) : K ℤ := do
  ilock sb ip
  let r ← writei sb ip src off n
  iunlock ip
  pure r

theorem writeOp_eq (src : ℕ → Option UInt8) (off n : ℕ) : writeOp sb ip src off n =
    (do beginOp; let r ← writeLocked sb ip src off n; endOp; pure r) := by
  simp [writeOp, writeLocked]

/-- A step that runs a command of the file system; a process that must wait takes no step. -/
def World.run {α : Type} (w : World P) (m : K α) (k : α → State → World P) :
    Option (Except Halt (World P)) :=
  match m w.fs with
  | .ok a s => some (.ok (k a s))
  | .error .sleep _ => none
  | .error e _ => some (.error e)

def World.move (w : World P) (p : P) (x : Stage) : World P :=
  { w with stage := update w.stage p x }

/-- The value of `f->off` after `writei` has returned `r`. -/
def advance (off : ℕ) (r : ℤ) : ℕ := if 0 < r then (off + r.toNat) % 2 ^ 32 else off

def step (w : World P) : Act P → Option (Except Halt (World P))
  | .call p c =>
    match w.stage p with
    | .idle => some (.ok (w.move p (.loop c 0)))
    | _ => none
  | .beginOp p =>
    match w.stage p with
    | .loop c i =>
      if i < c.n then w.run beginOp fun _ s => { w.move p (.begun c i) with fs := s } else none
    | _ => none
  | .lock p c' =>
    match w.stage p with
    | .begun c i =>
      if c = c' then
        w.run (writeLocked sb ip (fun j => c.mem[i + j]?) w.off (c.chunk i)) fun r s =>
          { w.move p (.written c i r) with fs := s, off := advance w.off r }
      else none
    | _ => none
  | .endOp p =>
    match w.stage p with
    | .written c i r => w.run endOp fun _ s =>
      { w.move p (if r ≠ c.chunk i then .broke c i else .loop c (i + r.toNat)) with fs := s }
    | _ => none
  | .ret p c' v =>
    match w.stage p with
    | .broke c i =>
      if c = c' ∧ v = c.result i then some (.ok (w.move p .idle)) else none
    | .loop c i =>
      if ¬ i < c.n ∧ c = c' ∧ v = c.result i then
        some (.ok (w.move p .idle))
      else none
    | _ => none

/-- The steps of `step`, by the place of the process. -/
inductive Step (w : World P) : Act P → World P → Prop
  | call {p c} : w.stage p = .idle → Step w (.call p c) (w.move p (.loop c 0))
  | beginOp {p c i s} : w.stage p = .loop c i → i < c.n → beginOp w.fs = .ok () s →
      Step w (.beginOp p) { w.move p (.begun c i) with fs := s }
  | lock {p c i r s} : w.stage p = .begun c i →
      writeLocked sb ip (fun j => c.mem[i + j]?) w.off (c.chunk i) w.fs = .ok r s →
      Step w (.lock p c) { w.move p (.written c i r) with fs := s, off := advance w.off r }
  | endOp {p c i r s} : w.stage p = .written c i r → endOp w.fs = .ok () s →
      Step w (.endOp p)
        { w.move p (if r ≠ c.chunk i then .broke c i else .loop c (i + r.toNat)) with fs := s }
  | broke {p c i} : w.stage p = .broke c i →
      Step w (.ret p c (c.result i)) (w.move p .idle)
  | done {p c i} : w.stage p = .loop c i → ¬ i < c.n →
      Step w (.ret p c (c.result i)) (w.move p .idle)

variable {sb ip} {w w' : World P} {a : Act P}

omit [DecidableEq P] in
theorem run_eq_ok {α : Type} {m : K α} {k : α → State → World P}
    (h : w.run m k = some (.ok w')) : ∃ a s, m w.fs = .ok a s ∧ w' = k a s := by
  unfold World.run at h
  split at h
  · next a s hm => exact ⟨a, s, hm, by simpa using h.symm⟩
  · cases h
  · cases h

theorem step_of_next (h : Next (step sb ip) w a w') : Step sb ip w a w' := by
  unfold Next at h
  cases a with
  | call p c =>
    simp only [step] at h
    split at h
    · next hp =>
      cases h
      exact .call hp
    · cases h
  | beginOp p =>
    simp only [step] at h
    split at h
    · next c i hp =>
      split_ifs at h with hlt
      obtain ⟨_, s, hs, rfl⟩ := run_eq_ok h
      exact .beginOp hp hlt hs
    · cases h
  | lock p c' =>
    simp only [step] at h
    split at h
    · next c i hp =>
      split_ifs at h with hc
      subst hc
      obtain ⟨r, s, hs, rfl⟩ := run_eq_ok h
      exact .lock hp hs
    · cases h
  | endOp p =>
    simp only [step] at h
    split at h
    · next c i r hp =>
      obtain ⟨_, s, hs, rfl⟩ := run_eq_ok h
      exact .endOp hp hs
    · cases h
  | ret p c' v =>
    simp only [step] at h
    split at h
    · next c i hp =>
      split_ifs at h with hc
      obtain ⟨rfl, rfl⟩ := hc
      cases h
      exact .broke hp
    · next c i hp =>
      split_ifs at h with hc
      obtain ⟨hlt, rfl, rfl⟩ := hc
      cases h
      exact .done hp hlt
    · cases h

/-! ## One section -/

/-- The inode of an open file while nobody holds its lock. -/
structure Shared (sb : Superblock) (ip : Iptr) (s : State) : Prop where
  own : Own sb s.disk
  held : s.held = []
  committing : s.log.committing = false
  ref : 1 ≤ (s.itable ip).ref
  free : (s.itable ip).locked = false
  sync : (s.itable ip).valid = true → (s.itable ip).toDinode = s.disk.dinode (s.itable ip).inum
  type : (s.disk.dinode (s.itable ip).inum).type ≠ 0

/-- The node of the file. -/
def World.node (w : World P) (ip : Iptr) : Node := w.fs.disk.nodes (w.fs.itable ip).inum

variable {s : State} {src : ℕ → Option UInt8} {off n : ℕ}

theorem wp_ilock {E : Halt → State → Prop} {Q : Unit → State → Prop} (h : Shared sb ip s)
    (hQ : Q () (s.setInode ip { s.itable ip with
      toDinode := s.disk.dinode (s.itable ip).inum, locked := true, valid := true })) :
    wp (ilock sb ip) E Q s := by
  have href : ¬ (s.itable ip).ref < 1 := Nat.not_lt.mpr h.ref
  unfold ilock
  rw [wp_bind, wp_getInode, wp_bind, wp_stopIf]
  refine ⟨fun hc => absurd hc href, fun _ => ?_⟩
  rw [wp_bind, wp_stopIf]
  refine ⟨fun hc => absurd hc (by simp [h.free]), fun _ => ?_⟩
  rw [wp_bind, wp_modifyInode, wp_runIf]
  refine ⟨fun hv => ?_, fun hv => ?_⟩
  · rw [wp_bind, wp_bread (by simp [h.held]), wp_bind, wp_get, wp_bind, wp_brelse, wp_bind,
      wp_modifyInode, wp_stopIf]
    refine ⟨fun hc => absurd hc h.type, fun _ => ?_⟩
    simpa [State.setInode] using hQ
  · have hv : (s.itable ip).valid = true := by simpa using hv
    rw [h.sync hv, hv]
    exact hQ

theorem wp_iunlock {E : Halt → State → Prop} {Q : Unit → State → Prop}
    (hl : (s.itable ip).locked = true) (hr : 1 ≤ (s.itable ip).ref)
    (hQ : Q () (s.setInode ip { s.itable ip with locked := false })) :
    wp (iunlock ip) E Q s := by
  unfold iunlock
  rw [wp_bind, wp_getInode, wp_bind, wp_stopIf]
  refine ⟨fun hc => absurd hc ?_, fun _ => hQ⟩
  rw [hl, not_or]
  exact ⟨nofun, Nat.not_lt.mpr hr⟩

theorem Shared.unlock (hown : Own sb s.disk) (hheld : s.held = [])
    (hc : s.log.committing = false) (hr : 1 ≤ (s.itable ip).ref)
    (hd : (s.itable ip).toDinode = s.disk.dinode (s.itable ip).inum)
    (ht : (s.itable ip).type ≠ 0) :
    Shared sb ip (s.setInode ip { s.itable ip with locked := false }) := by
  refine ⟨hown, hheld, hc, ?_, ?_, fun _ => ?_, ?_⟩ <;>
    simp only [State.setInode_itable, update_self, State.setInode_disk]
  · exact hr
  · exact hd
  · rwa [← hd]

/-- What a section does: nothing, or a write at the offset. -/
theorem wp_writeLocked (hsb : sb.Valid) (h : Shared sb ip s) (hop : 1 ≤ s.log.outstanding)
    (hoff : off < 2 ^ 32) (hn : n < 2 ^ 32) :
    wp (writeLocked sb ip src off n) (fun _ _ => True) (fun r s' => Shared sb ip s' ∧
      s'.log.outstanding = s.log.outstanding ∧ (s'.itable ip).inum = (s.itable ip).inum ∧
      (r = -1 ∧ s'.disk = s.disk ∨ ∃ k : ℕ, r = k ∧
        off ≤ (s.disk.nodes (s.itable ip).inum).size ∧ off + n ≤ MAXFILE * BSIZE ∧ ∃ nd,
        Wrote (s.disk.nodes (s.itable ip).inum) nd src off n k ∧
        s'.disk.nodes (s.itable ip).inum =
          { nd with size := max (s.disk.nodes (s.itable ip).inum).size (off + k) })) s := by
  unfold writeLocked
  rw [wp_bind]
  refine wp_ilock h ?_
  obtain ⟨d, hd⟩ : ∃ d : Inode, d = { s.itable ip with
    toDinode := s.disk.dinode (s.itable ip).inum, locked := true, valid := true } := ⟨_, rfl⟩
  rw [← hd]
  have hinum : d.inum = (s.itable ip).inum := by rw [hd]
  have hdin : d.toDinode = s.disk.dinode (s.itable ip).inum := by rw [hd]
  have hflush : (s.setInode ip d).flush ip = s.disk := by
    rw [State.flush, State.setInode_itable, update_self, hinum, hdin]
    exact Disk.setDinode_self
  have hready : Ready sb (s.setInode ip d) ip := by
    refine ⟨hflush ▸ h.own, ?_, h.held, hop⟩
    rw [State.setInode_itable, update_self, hdin]
    exact h.type
  have hsize : d.size = (s.disk.nodes (s.itable ip).inum).size := by
    rw [congrArg Attr.size (Disk.nodes_toAttr h.type), ← hdin]
  rw [wp_bind]
  refine wp_writei hsb hready hoff hn (fun _ => trivial) (fun _ => ?_) fun k s' h₁ h₂ hw => ?_
  · rw [wp_bind]
    refine wp_iunlock ?_ ?_ ⟨.unlock h.own h.held h.committing ?_ ?_ ?_, rfl, ?_, .inl ⟨rfl, rfl⟩⟩ <;>
      simp only [State.setInode_itable, State.setInode_disk, update_self, hinum]
    · rw [hd]
    · exact hd ▸ h.ref
    · exact hd ▸ h.ref
    · exact hdin
    · rw [hdin]
      exact h.type
  · have hit := congrFun hw.itable ip
    simp only [State.setInode_itable, update_self] at hit
    rw [wp_bind]
    refine wp_iunlock ?_ ?_ ⟨.unlock hw.own (hw.held.trans h.held) ?_ ?_ ?_ ?_, ?_, ?_,
      .inr ⟨k, rfl, ?_, h₂, ?_⟩⟩
    · rw [hit, hd]
    · rw [hit, hd]
      exact h.ref
    · rw [hw.log.committing]
      exact h.committing
    · rw [hit, hd]
      exact h.ref
    · rw [hw.dinode, hit]
      simp only [State.setInode_itable, update_self]
    · rw [hit, hd]
      exact h.type
    · rw [State.setInode_log, hw.log.outstanding]
      rfl
    · rw [State.setInode_itable, update_self, hit, hinum]
    · rwa [State.setInode_itable, update_self, hsize] at h₁
    · obtain ⟨nd, hwr, hnodes⟩ := hw.nodes
      rw [hflush, State.setInode_itable, update_self, hinum] at hwr hnodes
      refine ⟨nd, hwr, ?_⟩
      rw [State.setInode_disk, hnodes, update_self, hsize]

/-- The log has changed and nothing else. -/
theorem Shared.setLog {l : Buffer.Log} (h : Shared sb ip s) (hc : l.committing = false) :
    Shared sb ip (s.setLog l) :=
  { h with committing := hc }

theorem beginOp_eq_ok {s' : State} (h : beginOp s = .ok () s') :
    ∃ l, s' = s.setLog l ∧ l.outstanding = s.log.outstanding + 1 ∧ l.committing = false := by
  unfold beginOp Journal.beginOp at h
  split_ifs at h with hc hfull
  cases h
  exact ⟨_, rfl, rfl, by simpa using hc⟩

theorem endOp_eq_ok {s' : State} (h : endOp s = .ok () s') :
    ∃ l, s' = s.setLog l ∧ l.outstanding = s.log.outstanding - 1 ∧ l.committing = false := by
  unfold endOp Journal.endOp at h
  dsimp only at h
  split_ifs at h with hc hz
  · cases h
    exact ⟨_, rfl, rfl, rfl⟩
  · cases h
    exact ⟨_, rfl, rfl, by simpa using hc⟩

/-! ## Runs -/

/-- The process is inside a transaction. -/
def Stage.ops : Stage → ℤ
  | .begun _ _ | .written _ _ _ => 1
  | _ => 0

/-- A call that fits into one transaction. -/
def Stage.Small : Stage → Prop
  | .idle => True
  | .loop c i => c.n ≤ maxWrite ∧ (i = 0 ∨ i = c.n)
  | .begun c i | .written c i _ | .broke c i => c.n ≤ maxWrite ∧ i = 0 ∧ 0 < c.n

variable [Fintype P]

structure Good (sb : Superblock) (ip : Iptr) (w : World P) : Prop where
  fs : Shared sb ip w.fs
  off_lt : w.off < 2 ^ 32
  ops : ∑ p, (w.stage p).ops ≤ w.fs.log.outstanding
  small : ∀ p, (w.stage p).Small

theorem sum_ops_update (f : P → Stage) (p : P) (x : Stage) :
    ∑ q, (update f p x q).ops = ∑ q, (f q).ops - (f p).ops + x.ops := by
  have hcomp : (fun q => (update f p x q).ops) =
      update (fun q => (f q).ops) p x.ops := by
    funext q
    rcases eq_or_ne q p with rfl | hq
    · simp
    · simp [hq]
  have hsplit := Finset.sum_sdiff (f := fun q => (f q).ops) (Finset.subset_univ {p})
  rw [Finset.sum_singleton] at hsplit
  rw [hcomp, Finset.sum_update_of_mem (Finset.mem_univ p)]
  linarith

omit [DecidableEq P] in
theorem one_le_sum_ops {f : P → Stage} {p : P} (h : (f p).ops = 1) : 1 ≤ ∑ q, (f q).ops := by
  have hnonneg : ∀ q ∈ Finset.univ, 0 ≤ (f q).ops := fun q _ => by
    cases f q <;> simp [Stage.ops]
  have := Finset.single_le_sum hnonneg (Finset.mem_univ p)
  rwa [h] at this

/-- The bytes that the sections of a run are to write, in the order of the locks. -/
def taken (l : List (Act P)) : List UInt8 :=
  l.flatMap fun
    | .lock _ c => c.bytes
    | _ => []

/-- The bytes `bs` have been written at `off`, and nothing else. -/
structure Appended (nd nd' : Node) (off : ℕ) (bs : List UInt8) : Prop where
  read : nd'.read off bs.length = bs
  outside : ∀ pos, pos < off ∨ off + bs.length ≤ pos → nd'.byte pos = nd.byte pos
  size : nd.size ≤ nd'.size ∧ (bs ≠ [] → off + bs.length ≤ nd'.size)

namespace Appended

variable {nd nd₁ nd' : Node} {bs bs' : List UInt8}

theorem refl (nd : Node) (off : ℕ) : Appended nd nd off [] :=
  ⟨rfl, fun _ _ => rfl, le_rfl, fun h => absurd rfl h⟩

theorem trans (h : Appended nd nd₁ off bs) (h' : Appended nd₁ nd' (off + bs.length) bs') :
    Appended nd nd' off (bs ++ bs') := by
  refine ⟨?_, fun pos hpos => ?_, h.size.1.trans h'.size.1, fun hne => ?_⟩
  · have hkeep : nd'.read off bs.length = nd₁.read off bs.length := by
      refine List.map_congr_left fun i hi => h'.outside _ (.inl ?_)
      have := List.mem_range.mp hi
      omega
    rw [List.length_append, Node.read_add, h'.read, hkeep, h.read]
  · rw [List.length_append] at hpos
    rw [h'.outside pos (by omega), h.outside pos (by omega)]
  · rw [List.length_append]
    by_cases hbs : bs' = []
    · have := h.size.2 (by simpa [hbs] using hne)
      have := h'.size.1
      simp only [hbs, List.length_nil]
      omega
    · have := h'.size.2 hbs
      omega

end Appended

/-- `writei` has not written all the bytes of the call. -/
def Stage.Failed : Stage → Prop
  | .written c i r => r ≠ c.chunk i
  | .broke _ _ => True
  | _ => False

/-- One process moves on. -/
theorem Good.move {p : P} {x : Stage} (h : Good sb ip w) (hfs : Shared sb ip s)
    (hoff : off < 2 ^ 32)
    (hops : s.log.outstanding = w.fs.log.outstanding - (w.stage p).ops + x.ops) (hx : x.Small) :
    Good sb ip ⟨s, off, update w.stage p x⟩ := by
  refine ⟨hfs, hoff, ?_, fun q => ?_⟩
  · have := h.ops
    rw [sum_ops_update, hops]
    omega
  · rcases eq_or_ne q p with rfl | hq
    · simpa using hx
    · simpa [hq] using h.small q

theorem advance_lt {r : ℤ} (h : off < 2 ^ 32) : advance off r < 2 ^ 32 := by
  unfold advance
  split_ifs
  · exact Nat.mod_lt _ (by decide)
  · exact h

theorem Good.step (h : Good sb ip w) (hsb : sb.Valid) (hs : Step sb ip w a w')
    (ha : ∀ p c, a = .call p c → c.n ≤ maxWrite) : Good sb ip w' := by
  cases hs with
  | @call p c hp =>
    exact h.move h.fs h.off_lt (by simp [hp, Stage.ops]) ⟨ha p c rfl, .inl rfl⟩
  | @beginOp p c i s hp hi hs =>
    obtain ⟨l, rfl, hl, hc⟩ := beginOp_eq_ok hs
    obtain ⟨hn, hi'⟩ : (Stage.loop c i).Small := hp ▸ h.small p
    exact h.move (h.fs.setLog hc) h.off_lt (by simp [hp, Stage.ops, hl])
      ⟨hn, by omega, by omega⟩
  | @lock p c i r s hp hs =>
    have hcap : maxWrite < 2 ^ 32 := by decide
    have hsmall : (Stage.begun c i).Small := hp ▸ h.small p
    have hop := one_le_sum_ops (f := w.stage) (p := p) (by rw [hp]; rfl)
    obtain ⟨hfs, hout, -⟩ := (wp_writeLocked hsb h.fs (hop.trans h.ops) h.off_lt
      (by unfold Call.chunk; omega)).ok hs
    exact h.move hfs (advance_lt h.off_lt) (by simp [hp, Stage.ops, hout]) hsmall
  | @endOp p c i r s hp hs =>
    obtain ⟨l, rfl, hl, hc⟩ := endOp_eq_ok hs
    obtain ⟨hn, rfl, hpos⟩ : (Stage.written c i r).Small := hp ▸ h.small p
    refine h.move (h.fs.setLog hc) h.off_lt ?_ ?_
    · split_ifs <;> simp [hp, Stage.ops, hl]
    · split_ifs with hr
      · exact ⟨hn, rfl, hpos⟩
      · refine ⟨hn, .inr ?_⟩
        unfold Call.chunk at hr
        omega
  | @broke p c i hp => exact h.move h.fs h.off_lt (by simp [hp, Stage.ops]) trivial
  | @done p c i hp hi => exact h.move h.fs h.off_lt (by simp [hp, Stage.ops]) trivial

/-- All the bytes of a call have been written. -/
theorem appended_of_wrote {c : Call} {nd nd' : Node} {m : ℕ}
    (h : Wrote nd nd' (fun j => c.mem[j]?) off c.n c.n) (hm : m = max nd.size (off + c.n)) :
    c.bytes.length = c.n ∧ Appended nd { nd' with size := m } off c.bytes := by
  have hlen : c.n ≤ c.mem.length := by
    by_contra hlt
    have := h.data c.mem.length (by omega)
    simp at this
  have hbytes : c.bytes.length = c.n := by simp [Call.bytes, hlen]
  refine ⟨hbytes, ?_, ?_, ?_⟩
  · refine List.ext_getElem (by simp) fun j h₁ h₂ => ?_
    have := h.data j (by omega)
    rw [List.getElem?_eq_getElem (by omega), Option.some.injEq] at this
    simp [Node.read, Call.bytes, this]
  · intro pos hpos
    exact h.outside pos (hbytes ▸ hpos)
  · dsimp only
    omega

omit [DecidableEq P] in
/-- A section that writes all its bytes appends them and advances the offset. -/
theorem Good.lock {p : P} {c : Call} {i : ℕ} (h : Good sb ip w) (hsb : sb.Valid)
    (hp : w.stage p = .begun c i)
    (hs : writeLocked sb ip (fun j => c.mem[i + j]?) w.off (c.chunk i) w.fs = .ok (c.chunk i : ℤ) s) :
    advance w.off (c.chunk i) = w.off + c.bytes.length ∧
      Appended (w.node ip) (s.disk.nodes (s.itable ip).inum) w.off c.bytes := by
  have hcap : maxWrite < 2 ^ 32 ∧ MAXFILE * BSIZE < 2 ^ 32 := by decide
  obtain ⟨hn, rfl, hpos⟩ : (Stage.begun c i).Small := hp ▸ h.small p
  have hchunk : c.chunk 0 = c.n := by unfold Call.chunk; omega
  simp only [hchunk, Nat.zero_add] at hs ⊢
  have hop := one_le_sum_ops (f := w.stage) (p := p) (by rw [hp]; rfl)
  obtain ⟨-, -, hinum, ⟨hr, -⟩ | ⟨k, hk, -, hmax, nd, hw, hnode⟩⟩ :=
    (wp_writeLocked hsb h.fs (hop.trans h.ops) h.off_lt (by omega)).ok hs
  · omega
  · obtain rfl : c.n = k := by omega
    obtain ⟨hlen, happ⟩ := appended_of_wrote hw rfl
    rw [hinum, hnode]
    refine ⟨?_, happ⟩
    unfold advance
    rw [if_pos (by omega), hlen]
    omega

/-- The process that takes a step. -/
def Act.actor : Act P → P
  | .call p _ | .beginOp p | .lock p _ | .endOp p | .ret p _ _ => p

omit [Fintype P] in
theorem Step.other {p : P} (hs : Step sb ip w a w') (hp : p ≠ a.actor) :
    w'.stage p = w.stage p := by
  cases hs <;> exact update_of_ne hp ..

/-- A process whose call has failed returns -1 next. -/
theorem Good.failed {p : P} (h : Good sb ip w) (hs : Step sb ip w a w')
    (hf : (w.stage p).Failed) : (w'.stage p).Failed ∨ ∃ c, a = .ret p c (-1) := by
  by_cases hne : p = a.actor
  swap
  · exact .inl ((hs.other hne).symm ▸ hf)
  cases hs with
  | call hp => exact absurd hf (by simp [hne, Act.actor, hp, Stage.Failed])
  | beginOp hp => exact absurd hf (by simp [hne, Act.actor, hp, Stage.Failed])
  | lock hp => exact absurd hf (by simp [hne, Act.actor, hp, Stage.Failed])
  | done hp => exact absurd hf (by simp [hne, Act.actor, hp, Stage.Failed])
  | @endOp q c i r s hp _ =>
    obtain rfl : p = q := hne
    have hr : r ≠ c.chunk i := by simpa [hp, Stage.Failed] using hf
    refine .inl ?_
    simp [World.move, hr, Stage.Failed]
  | @broke q c i hp =>
    obtain rfl : p = q := hne
    obtain ⟨-, hi, hn⟩ : (Stage.broke c i).Small := hp ▸ h.small p
    refine .inr ⟨c, ?_⟩
    rw [Call.result, if_neg (by omega)]

theorem Good.run_failed {p : P} {l : List (Act P)} (hsb : sb.Valid)
    (hrun : Run (Next (Offset.step sb ip)) w l w') (h : Good sb ip w)
    (hl : ∀ p c, .call p c ∈ l → c.n ≤ maxWrite) (hf : (w.stage p).Failed)
    (hidle : w'.stage p = .idle) : ∃ c, .ret p c (-1) ∈ l := by
  induction hrun with
  | nil w => simp [hidle, Stage.Failed] at hf
  | @cons w w₁ w' a l hnext _ ih =>
    have hstep := step_of_next hnext
    have h₁ := h.step hsb hstep fun p c ha => hl p c (ha ▸ List.mem_cons_self)
    rcases h.failed hstep hf with hf₁ | ⟨c, rfl⟩
    · obtain ⟨c, hc⟩ := ih h₁ (fun p c hmem => hl p c (List.mem_cons_of_mem _ hmem)) hf₁ hidle
      exact ⟨c, List.mem_cons_of_mem _ hc⟩
    · exact ⟨c, List.mem_cons_self⟩

/-- A run at whose end all calls have returned all their bytes. -/
theorem Good.run {l : List (Act P)} (hsb : sb.Valid)
    (hrun : Run (Next (Offset.step sb ip)) w l w') (h : Good sb ip w)
    (hl : ∀ p c, .call p c ∈ l → c.n ≤ maxWrite)
    (hret : ∀ p c v, .ret p c v ∈ l → v = c.n) (hidle : ∀ p, w'.stage p = .idle) :
    w'.off = w.off + (taken l).length ∧ Appended (w.node ip) (w'.node ip) w.off (taken l) := by
  induction hrun with
  | nil w => exact ⟨rfl, .refl ..⟩
  | @cons w w₁ w' a l hnext hrest ih =>
    have hstep := step_of_next hnext
    have hl₁ := fun p c hmem => hl p c (List.mem_cons_of_mem _ hmem)
    have hret₁ := fun p c v hmem => hret p c v (List.mem_cons_of_mem _ hmem)
    have h₁ := h.step hsb hstep fun p c ha => hl p c (ha ▸ List.mem_cons_self)
    obtain ⟨hoff, happ⟩ := ih h₁ hl₁ hret₁ hidle
    cases hstep with
    | call => exact ⟨hoff, happ⟩
    | broke => exact ⟨hoff, happ⟩
    | done => exact ⟨hoff, happ⟩
    | beginOp _ _ hs =>
      obtain ⟨l, rfl, -, -⟩ := beginOp_eq_ok hs
      exact ⟨hoff, happ⟩
    | endOp _ hs =>
      obtain ⟨l, rfl, -, -⟩ := endOp_eq_ok hs
      exact ⟨hoff, happ⟩
    | @lock p c i r s hp hs =>
      -- a section that falls short makes its call return -1
      have hr : r = c.chunk i := by
        by_contra hne
        have hf : (update w.stage p (.written c i r) p).Failed := by
          rwa [update_self]
        obtain ⟨c', hc'⟩ := h₁.run_failed hsb hrest hl₁ hf (hidle p)
        have := hret₁ p c' (-1) hc'
        omega
      subst hr
      obtain ⟨hadv, hnew⟩ := h.lock hsb hp hs
      have htaken : taken (.lock p c :: l) = c.bytes ++ taken l := rfl
      simp only [hadv] at hoff happ
      rw [htaken, List.length_append]
      exact ⟨by omega, hnew.trans happ⟩

/-- Processes that share a file call `filewrite` at the same time, each call for no more than one
transaction. If every call returns its number of bytes, the file holds the buffers one after the
other from the offset at the start, in the order in which the calls locked the inode, and the
offset is behind the last one. -/
theorem shared_offset {l : List (Act P)} (hsb : sb.Valid) (hfs : Shared sb ip w.fs)
    (hout : 0 ≤ w.fs.log.outstanding) (hoff : w.off < 2 ^ 32) (hstart : ∀ p, w.stage p = .idle)
    (hrun : Run (Next (Offset.step sb ip)) w l w') (hl : ∀ p c, .call p c ∈ l → c.n ≤ maxWrite)
    (hret : ∀ p c v, .ret p c v ∈ l → v = c.n) (hidle : ∀ p, w'.stage p = .idle) :
    w'.off = w.off + (taken l).length ∧ Appended (w.node ip) (w'.node ip) w.off (taken l) := by
  refine Good.run hsb hrun ⟨hfs, hoff, ?_, fun p => ?_⟩ hl hret hidle
  · simpa [hstart, Stage.ops] using hout
  · rw [hstart p]
    trivial

/-- Two processes with the file of `oneFile`. -/
def twoWriters : World Bool where
  fs :=
    { oneFile with
      log := { oneFile.log with outstanding := 0 }
      itable := fun k => { oneFile.itable k with locked := false } }
  off := 0
  stage := fun _ => .idle

/-- The second process locks the inode first. -/
def twoWriters.run : List (Act Bool) :=
  let a : Call := ⟨[1, 2], 2⟩
  let b : Call := ⟨[3, 4, 5], 3⟩
  [.call false a, .call true b, .beginOp false, .beginOp true, .lock true b, .lock false a,
    .endOp false, .endOp true, .ret false a 2, .ret true b 3]

theorem shared_offset_two : ∃ w, Run (Next (Offset.step oneFile.superblock 0)) twoWriters
    twoWriters.run w ∧ w.off = 5 ∧ (w.node 0).read 0 5 = [3, 4, 5, 1, 2] := by
  have hexec : ((exec (Offset.step oneFile.superblock 0) twoWriters twoWriters.run).any fun w =>
      decide (∀ p, w.stage p = .idle)) = true := by decide +kernel
  obtain ⟨w, hw, hidle⟩ := exists_of_exec _ hexec
  have hfs : Shared oneFile.superblock 0 twoWriters.fs :=
    ⟨flush_oneFile ▸ ready_oneFile.own, rfl, rfl, by decide, rfl, fun _ => rfl, by decide⟩
  have hsmall : ∀ p c, .call p c ∈ twoWriters.run → c.n ≤ maxWrite := by
    simp [twoWriters.run]
    decide
  obtain ⟨hoff, happ⟩ := shared_offset ⟨by decide, by decide⟩ hfs (by decide) (by decide)
    (fun _ => rfl) (run_of_exec _ hw) hsmall (by simp [twoWriters.run]) hidle
  exact ⟨w, run_of_exec _ hw, hoff, happ.read⟩

end Xv6.Offset

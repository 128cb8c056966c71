import Xv6.Logic.Bytes
import Xv6.Proc.Pipe

/-! # Relaying a record among children

`broadcast` and `unicast` share one pattern. The parent forks its children one
after the other, writes one record to a pipe and waits for an acknowledgement on a
second pipe. Each child reads the record once, changes its copy, and either
acknowledges or writes the copy back for the children yet to read it. A write into
a pipe with enough room is one step.
-/

namespace Xv6.User

open Sys Function
open Proc (Contents isEmpty putByte getByte UINT)

/-! ## Whole reads and writes of a pipe -/

def writeBytes (pi : Pipe) (bs : List UInt8) : Pipe := bs.foldl putByte pi

/-- `piperead` of at most `n` bytes, up to the first time the pipe is empty. -/
def readBytes : ℕ → Pipe → List UInt8 × Pipe
  | 0, pi => ([], pi)
  | n + 1, pi =>
    if isEmpty pi then ([], pi)
    else
      let rest := readBytes n (getByte pi).2
      ((getByte pi).1 :: rest.1, rest.2)

/-- The pipe has room for `n` more bytes. -/
def hasRoom (pi : Pipe) (n : ℕ) : Bool :=
  decide ((pi.nwrite + UINT - pi.nread) % UINT + n ≤ PIPESIZE)

variable {pi : Pipe} {l bs : List UInt8}

theorem hasRoom_iff (h : Contents pi l) (n : ℕ) :
    hasRoom pi n = true ↔ l.length + n ≤ PIPESIZE := by
  rw [hasRoom, decide_eq_true_iff, h.length_eq]

theorem contents_writeBytes (h : Contents pi l) (hr : l.length + bs.length ≤ PIPESIZE) :
    Contents (writeBytes pi bs) (l ++ bs) := by
  induction bs generalizing pi l with
  | nil => simpa [writeBytes] using h
  | cons b bs ih =>
    rw [List.length_cons] at hr
    have hput : Contents (putByte pi b) (l ++ [b]) := h.put (by omega) b
    have := ih hput (by rw [List.length_append, List.length_singleton]; omega)
    rwa [List.append_assoc, List.singleton_append] at this

theorem contents_readBytes (h : Contents pi l) (n : ℕ) :
    (readBytes n pi).1 = l.take n ∧ Contents (readBytes n pi).2 (l.drop n) := by
  induction n generalizing pi l with
  | zero => exact ⟨rfl, h⟩
  | succ n ih =>
    rw [readBytes]
    split
    next he =>
      obtain rfl := h.isEmpty_iff.mp he
      exact ⟨rfl, h⟩
    next he =>
      obtain ⟨l', hl, hc⟩ := h.getByte (Bool.eq_false_iff.mpr he)
      obtain ⟨h₁, h₂⟩ := ih hc
      rw [hl]
      exact ⟨congrArg _ h₁, h₂⟩

/-! ## Messages -/

abbrev MAX_NUM_RECEIVERS : ℕ := 10
abbrev MAX_MSG_SIZE : ℕ := 256

/-- A message as it stands in `argv`, without its NUL. -/
structure Text where
  bytes : List UInt8
  short : bytes.length < MAX_MSG_SIZE
  nonzero : 0 ∉ bytes

/-- `strcpy` to the field at offset `off`. -/
def strcpy {size : ℕ} (m : Bytes size) (off : ℕ) (t : Text) : Bytes size :=
  m.blit off (fun j => t.bytes.getD j 0) (t.bytes.length + 1)

/-- The field at offset `off` is the string `t`. -/
def Carries {size : ℕ} (m : Bytes size) (off : ℕ) (t : Text) : Prop :=
  ∀ j ≤ t.bytes.length, m.get (off + j) = t.bytes.getD j 0

theorem carries_strcpy {size off : ℕ} (m : Bytes size) (t : Text) (h : off + MAX_MSG_SIZE ≤ size) :
    Carries (strcpy m off t) off t := by
  have ht := t.short
  intro j hj
  rw [strcpy, Bytes.get_blit _ (by omega), if_pos (by omega), Nat.add_sub_cancel_left]

/-! ## The parties -/

/-- What distinguishes the programs. `msg` is the record as the parent writes it, `stack i` the
local record of child `i` before its read, `mark i` what child `i` does to its copy and `last i`
its test whether to acknowledge. -/
structure Relay (size : ℕ) where
  n : ℕ
  msg : Bytes size
  stack : ℕ → Bytes size
  mark : ℕ → Bytes size → Bytes size
  last : ℕ → Bytes size → Bool
  ack : List UInt8
  buf : ℕ
  size_pos : 0 < size
  size_le : size ≤ PIPESIZE
  ack_pos : 0 < ack.length
  ack_le : ack.length ≤ PIPESIZE

inductive ParentPc
  /-- The loop over the children; after it the record is written. -/
  | fork (i : ℕ)
  /-- Waits for the acknowledgement. -/
  | await
  | exited
  deriving DecidableEq

inductive ChildPc
  | unborn
  | read
  /-- Holds the record it has read. -/
  | write
  | exit
  | exited
  deriving DecidableEq

structure Child (size : ℕ) where
  pc : ChildPc
  msg : Bytes size

/-- `order` lists the children in the order of their reads, `acks` those that have written an
acknowledgement, `recv` what the parent has received. -/
structure Party (size : ℕ) where
  parent : ParentPc
  child : ℕ → Child size
  down : Pipe
  up : Pipe
  order : List ℕ
  acks : List ℕ
  recv : List UInt8

inductive Act
  | parent
  /-- `fork` returns -1 and the parent exits. -/
  | forkFails
  | child (i : ℕ)
  deriving DecidableEq

variable {data : ℕ → UInt8}

namespace Relay

variable {size : ℕ} (R : Relay size)

def setChild (s : Party size) (i : ℕ) (c : Child size) : ℕ → Child size :=
  update s.child i c

def parent (s : Party size) : Option (Party size) :=
  match s.parent with
  | .fork i =>
    if i < R.n then
      some { s with parent := .fork (i + 1), child := setChild s i ⟨.read, R.stack i⟩ }
    else if hasRoom s.down size then
      some { s with parent := .await, down := writeBytes s.down (List.ofFn R.msg) }
    else none
  | .await =>
    if isEmpty s.up then none
    else
      let r := readBytes R.buf s.up
      some { s with parent := .exited, up := r.2, recv := r.1 }
  | .exited => none

def forkFails (s : Party size) : Option (Party size) :=
  match s.parent with
  | .fork i => if i < R.n then some { s with parent := .exited } else none
  | _ => none

def child (s : Party size) (i : ℕ) : Option (Party size) :=
  match (s.child i).pc with
  | .read =>
    if isEmpty s.down then none
    else
      let r := readBytes size s.down
      some { s with down := r.2, order := s.order ++ [i],
                    child := setChild s i ⟨.write, (s.child i).msg.fill r.1⟩ }
  | .write =>
    let m := R.mark i (s.child i).msg
    if R.last i m then
      if hasRoom s.up R.ack.length then
        some { s with up := writeBytes s.up R.ack, acks := s.acks ++ [i],
                      child := setChild s i ⟨.exit, m⟩ }
      else none
    else if hasRoom s.down size then
      some { s with down := writeBytes s.down (List.ofFn m), child := setChild s i ⟨.exit, m⟩ }
    else none
  | .exit => some { s with child := setChild s i ⟨.exited, (s.child i).msg⟩ }
  | .unborn | .exited => none

def step (s : Party size) (a : Act) : Option (Except Empty (Party size)) :=
  match a with
  | .parent => (R.parent s).map .ok
  | .forkFails => (R.forkFails s).map .ok
  | .child i => (R.child s i).map .ok

def init (data : ℕ → UInt8) : Party size where
  parent := .fork 0
  child i := ⟨.unborn, R.stack i⟩
  down := ⟨data, 0, 0, true, true⟩
  up := ⟨data, 0, 0, true, true⟩
  order := []
  acks := []
  recv := []

/-- The states reached when every `fork` succeeds. -/
def Reach (data : ℕ → UInt8) (s : Party size) : Prop :=
  ∃ l, Act.forkFails ∉ l ∧ Run (Next R.step) (R.init data) l s

/-- Neither the parent nor a child can take a step. -/
def Stuck (s : Party size) : Prop := R.parent s = none ∧ ∀ i < R.n, R.child s i = none

instance (s : Party size) : Decidable (R.Stuck s) := inferInstanceAs (Decidable (_ ∧ _))

/-- The record after the children of the list have changed it, one after the other. -/
def after (l : List ℕ) : Bytes size := l.foldl (fun m i => R.mark i m) R.msg

@[simp] theorem after_concat (l : List ℕ) (i : ℕ) : R.after (l ++ [i]) = R.mark i (R.after l) := by
  rw [after, List.foldl_append]
  rfl

/-! ## What a step does -/

inductive Moves (R : Relay size) (s : Party size) : Act → Party size → Prop
  | fork {i} : s.parent = .fork i → i < R.n → Moves R s .parent
      { s with parent := .fork (i + 1), child := setChild s i ⟨.read, R.stack i⟩ }
  | send {i} : s.parent = .fork i → R.n ≤ i → hasRoom s.down size = true → Moves R s .parent
      { s with parent := .await, down := writeBytes s.down (List.ofFn R.msg) }
  | recv : s.parent = .await → isEmpty s.up = false → Moves R s .parent
      { s with parent := .exited, up := (readBytes R.buf s.up).2, recv := (readBytes R.buf s.up).1 }
  | fail {i} : s.parent = .fork i → i < R.n → Moves R s .forkFails { s with parent := .exited }
  | read {i} : (s.child i).pc = .read → isEmpty s.down = false → Moves R s (.child i)
      { s with down := (readBytes size s.down).2, order := s.order ++ [i],
               child := setChild s i ⟨.write, (s.child i).msg.fill (readBytes size s.down).1⟩ }
  | ack {i} : (s.child i).pc = .write → R.last i (R.mark i (s.child i).msg) = true →
      hasRoom s.up R.ack.length = true → Moves R s (.child i)
      { s with up := writeBytes s.up R.ack, acks := s.acks ++ [i],
               child := setChild s i ⟨.exit, R.mark i (s.child i).msg⟩ }
  | forward {i} : (s.child i).pc = .write → R.last i (R.mark i (s.child i).msg) = false →
      hasRoom s.down size = true → Moves R s (.child i)
      { s with down := writeBytes s.down (List.ofFn (R.mark i (s.child i).msg)),
               child := setChild s i ⟨.exit, R.mark i (s.child i).msg⟩ }
  | exit {i} : (s.child i).pc = .exit → Moves R s (.child i)
      { s with child := setChild s i ⟨.exited, (s.child i).msg⟩ }

variable {R} {s s' : Party size} {a : Act} {i : ℕ}

theorem moves_of_parent (h : R.parent s = some s') : Moves R s .parent s' := by
  unfold parent at h
  split at h
  next i hp =>
    split_ifs at h with hi hr <;> cases h
    · exact .fork hp hi
    · exact .send hp (Nat.le_of_not_lt hi) hr
  next hp =>
    split_ifs at h with he
    cases h
    exact .recv hp (Bool.eq_false_iff.mpr he)
  next => cases h

theorem moves_of_child (h : R.child s i = some s') : Moves R s (.child i) s' := by
  unfold child at h
  split at h
  next hpc =>
    split_ifs at h with he
    cases h
    exact .read hpc (Bool.eq_false_iff.mpr he)
  next hpc =>
    dsimp only at h
    split_ifs at h with hl hr hr <;> cases h
    · exact .ack hpc hl hr
    · exact .forward hpc (Bool.eq_false_iff.mpr hl) hr
  next hpc =>
    cases h
    exact .exit hpc
  all_goals cases h

theorem moves_of_next (h : Next R.step s a s') : Moves R s a s' := by
  cases a with
  | parent =>
    obtain ⟨t, ht, he⟩ := Option.map_eq_some_iff.mp h
    cases he
    exact moves_of_parent ht
  | forkFails =>
    obtain ⟨t, ht, he⟩ := Option.map_eq_some_iff.mp h
    cases he
    unfold forkFails at ht
    split at ht
    next i hp =>
      split_ifs at ht with hi
      cases ht
      exact .fail hp hi
    next => cases ht
  | child i =>
    obtain ⟨t, ht, he⟩ := Option.map_eq_some_iff.mp h
    cases he
    exact moves_of_child ht

/-! ## Where the record is -/

/-- No child of the list has acknowledged. -/
def Passed (R : Relay size) (l : List ℕ) : Prop :=
  ∀ p i, p ++ [i] <+: l → R.last i (R.after (p ++ [i])) = false

/-- Children `i < b` have been forked. Those in `order` have read the record once; only the
child `h` still holds it. -/
structure Kids (R : Relay size) (s : Party size) (b : ℕ) (h : Option ℕ) : Prop where
  waits : ∀ i, i ∉ s.order → (s.child i).pc = if i < b then .read else .unborn
  holds : ∀ i, h = some i → (s.child i).pc = .write
  gone : ∀ i, i ∈ s.order → h ≠ some i → (s.child i).pc = .exit ∨ (s.child i).pc = .exited
  nodup : s.order.Nodup
  lt : ∀ i, i ∈ s.order → i < b
  seen : ∀ i, i ∈ s.order → ∃ p, p <+: s.order ∧ (s.child i).msg = R.after p

inductive Phase (R : Relay size) (s : Party size) : Prop
  | forking {k : ℕ} : s.parent = .fork k → k ≤ R.n → Kids R s k none → s.order = [] →
      s.acks = [] → Contents s.down [] → Contents s.up [] → Phase R s
  | inPipe : s.parent = .await → Kids R s R.n none → s.acks = [] → Passed R s.order →
      Contents s.down (List.ofFn (R.after s.order)) → Contents s.up [] → Phase R s
  | held {l : List ℕ} {i : ℕ} : s.parent = .await → s.order = l ++ [i] → Kids R s R.n (some i) →
      (s.child i).msg = R.after l → s.acks = [] → Passed R l → Contents s.down [] →
      Contents s.up [] → Phase R s
  | acked {l : List ℕ} {i : ℕ} {q : List UInt8} : s.order = l ++ [i] → Kids R s R.n none →
      s.acks = [i] → Passed R l → R.last i (R.after (l ++ [i])) = true → Contents s.down [] →
      Contents s.up q → (∀ k, s.parent ≠ .fork k) → Phase R s

namespace Kids

variable {b : ℕ} {h : Option ℕ} {m : Bytes size}

theorem congr (hk : Kids R s b h) (hc : s'.child = s.child) (ho : s'.order = s.order) :
    Kids R s' b h where
  waits i := by rw [hc, ho]; exact hk.waits i
  holds i := by rw [hc]; exact hk.holds i
  gone i := by rw [hc, ho]; exact hk.gone i
  nodup := ho ▸ hk.nodup
  lt := ho ▸ hk.lt
  seen i := by rw [hc, ho]; exact hk.seen i

/-- Before the first read the next child is forked. -/
theorem born (hk : Kids R s b none) (ho : s.order = []) (hc : s'.child = setChild s b ⟨.read, m⟩)
    (ho' : s'.order = s.order) : Kids R s' (b + 1) none where
  waits i _ := by
    rw [hc, setChild]
    rcases eq_or_ne i b with rfl | hi
    · rw [update_self, if_pos (Nat.lt_succ_self i)]
    · rw [update_of_ne hi, hk.waits i (by simp [ho])]
      grind
  holds i h := nomatch h
  gone i h := by simp [ho', ho] at h
  nodup := by simp [ho', ho]
  lt i h := by simp [ho', ho] at h
  seen i h := by simp [ho', ho] at h

/-- A child that is going to read has not read and was forked. -/
theorem of_read (hk : Kids R s b none) (hpc : (s.child i).pc = .read) : i ∉ s.order ∧ i < b := by
  have hi : i ∉ s.order := by
    intro hi
    rcases hk.gone i hi nofun with he | he <;> simp [he] at hpc
  refine ⟨hi, ?_⟩
  have hw := hk.waits i hi
  rw [hpc] at hw
  by_contra hb
  simp [hb] at hw

theorem read (hk : Kids R s b none) (hpc : (s.child i).pc = .read) (hm : m = R.after s.order)
    (hc : s'.child = setChild s i ⟨.write, m⟩) (ho : s'.order = s.order ++ [i]) :
    Kids R s' b (some i) := by
  obtain ⟨hi, hb⟩ := hk.of_read hpc
  have hother : ∀ j, j ≠ i → s'.child j = s.child j := fun j hj => by
    rw [hc, setChild, update_of_ne hj]
  have hself : s'.child i = ⟨.write, m⟩ := by rw [hc, setChild, update_self]
  have hmem : ∀ j, j ∈ s'.order ↔ j ∈ s.order ∨ j = i := fun j => by simp [ho]
  refine ⟨fun j hj => ?_, fun j hj => ?_, fun j hj hne => ?_, ?_, fun j hj => ?_, fun j hj => ?_⟩
  · rw [hmem, not_or] at hj
    rw [hother j hj.2]
    exact hk.waits j hj.1
  · cases hj
    rw [hself]
  · have hji : j ≠ i := fun he => hne (he ▸ rfl)
    rw [hother j hji]
    exact hk.gone j (((hmem j).mp hj).resolve_right hji) nofun
  · rw [ho]
    exact hk.nodup.append (List.nodup_singleton i) (by simpa using hi)
  · rcases (hmem j).mp hj with hj | rfl
    · exact hk.lt j hj
    · exact hb
  · rcases eq_or_ne j i with rfl | hji
    · rw [hself, ho]
      exact ⟨s.order, List.prefix_append _ _, hm⟩
    · obtain ⟨p, hp, he⟩ := hk.seen j (((hmem j).mp hj).resolve_right hji)
      rw [hother j hji, ho]
      exact ⟨p, hp.trans (List.prefix_append _ _), he⟩

/-- A child that has read moves on to its exit. -/
theorem leaves {h' : Option ℕ} (hk : Kids R s b h) (hi : i ∈ s.order)
    (hh : ∀ j, h' = some j ↔ h = some j ∧ j ≠ i) {pc : ChildPc} (hpc : pc = .exit ∨ pc = .exited)
    (hm : ∃ p, p <+: s.order ∧ m = R.after p)
    (hc : s'.child = setChild s i ⟨pc, m⟩) (ho : s'.order = s.order) : Kids R s' b h' := by
  have hother : ∀ j, j ≠ i → s'.child j = s.child j := fun j hj => by
    rw [hc, setChild, update_of_ne hj]
  have hself : s'.child i = ⟨pc, m⟩ := by rw [hc, setChild, update_self]
  refine ⟨fun j hj => ?_, fun j hj => ?_, fun j hj hne => ?_, ho ▸ hk.nodup, ho ▸ hk.lt,
    fun j hj => ?_⟩
  · rw [ho] at hj
    rw [hother j (fun he => hj (he ▸ hi))]
    exact hk.waits j hj
  · obtain ⟨hj, hji⟩ := (hh j).mp hj
    rw [hother j hji]
    exact hk.holds j hj
  · rcases eq_or_ne j i with rfl | hji
    · rw [hself]
      exact hpc
    · rw [hother j hji]
      exact hk.gone j (ho ▸ hj) (fun he => hne ((hh j).mpr ⟨he, hji⟩))
  · rcases eq_or_ne j i with rfl | hji
    · rw [hself, ho]
      exact hm
    · rw [hother j hji, ho]
      exact hk.seen j (ho ▸ hj)

theorem pc_write (hk : Kids R s b h) (hpc : (s.child i).pc = .write) : h = some i := by
  by_contra hne
  by_cases hi : i ∈ s.order
  · rcases hk.gone i hi hne with he | he <;> simp [he] at hpc
  · have hw := hk.waits i hi
    rw [hpc] at hw
    split_ifs at hw

theorem pc_exit (hk : Kids R s b h) (hpc : (s.child i).pc = .exit) : i ∈ s.order ∧ h ≠ some i := by
  constructor
  · by_contra hi
    have hw := hk.waits i hi
    rw [hpc] at hw
    split_ifs at hw
  · intro hh
    rw [hk.holds i hh] at hpc
    cases hpc

end Kids

/-! ## The record along a run -/

namespace Passed

theorem nil (R : Relay size) : Passed R [] := by
  intro p i h
  simpa using h.length_le

theorem concat {l : List ℕ} (h : Passed R l) (hi : R.last i (R.after (l ++ [i])) = false) :
    Passed R (l ++ [i]) := by
  intro p j hp
  rcases List.prefix_concat_iff.mp hp with he | hp
  · obtain ⟨rfl, hj⟩ := List.append_inj' he rfl
    cases hj
    exact hi
  · exact h p j hp

end Passed

theorem Phase.read (h : Phase R s) (hpc : (s.child i).pc = .read) (he : isEmpty s.down = false)
    (hs : s' = { s with down := (readBytes size s.down).2, order := s.order ++ [i],
                        child := setChild s i
                          ⟨.write, (s.child i).msg.fill (readBytes size s.down).1⟩ }) :
    Phase R s' := by
  have hnil : ¬ Contents s.down [] := fun hc => by simp [hc.isEmpty_iff.mpr rfl] at he
  cases h with
  | forking _ _ _ _ _ hd _ => exact absurd hd hnil
  | held _ _ _ _ _ _ hd _ => exact absurd hd hnil
  | acked _ _ _ _ _ hd _ _ => exact absurd hd hnil
  | inPipe hp hk ha hpass hd hu =>
    obtain ⟨h₁, h₂⟩ := contents_readBytes hd size
    have hlen : (List.ofFn (R.after s.order)).length = size := List.length_ofFn
    rw [List.take_of_length_le hlen.le] at h₁
    rw [List.drop_of_length_le hlen.le] at h₂
    have hm : (s.child i).msg.fill (readBytes size s.down).1 = R.after s.order := by
      rw [h₁, Bytes.fill_ofFn]
    rw [hm] at hs
    subst hs
    refine .held hp rfl (hk.read hpc rfl rfl rfl) ?_ ha hpass h₂ hu
    simp [setChild]

theorem Phase.ack (h : Phase R s) (hpc : (s.child i).pc = .write)
    (hl : R.last i (R.mark i (s.child i).msg) = true)
    (hs : s' = { s with up := writeBytes s.up R.ack, acks := s.acks ++ [i],
                        child := setChild s i ⟨.exit, R.mark i (s.child i).msg⟩ }) :
    Phase R s' := by
  cases h with
  | forking _ _ hk _ _ _ _ => cases hk.pc_write hpc
  | inPipe _ hk _ _ _ _ => cases hk.pc_write hpc
  | acked _ hk _ _ _ _ _ _ => cases hk.pc_write hpc
  | @held l k hp ho hk hm ha hpass hd hu =>
    cases hk.pc_write hpc
    have hmem : i ∈ s.order := by simp [ho]
    rw [hm, ← R.after_concat] at hl hs
    have hk' : Kids R s' R.n none :=
      hk.leaves hmem (by simp) (.inl rfl) ⟨l ++ [i], by rw [ho], rfl⟩ (hs ▸ rfl) (hs ▸ rfl)
    subst hs
    have hup : Contents (writeBytes s.up R.ack) ([] ++ R.ack) :=
      contents_writeBytes hu (by simpa using R.ack_le)
    refine .acked ho hk' ?_ hpass hl hd hup (fun k h => ?_)
    · simp [ha]
    · cases hp.symm.trans h

theorem Phase.forward (h : Phase R s) (hpc : (s.child i).pc = .write)
    (hl : R.last i (R.mark i (s.child i).msg) = false)
    (hs : s' = { s with down := writeBytes s.down (List.ofFn (R.mark i (s.child i).msg)),
                        child := setChild s i ⟨.exit, R.mark i (s.child i).msg⟩ }) :
    Phase R s' := by
  cases h with
  | forking _ _ hk _ _ _ _ => cases hk.pc_write hpc
  | inPipe _ hk _ _ _ _ => cases hk.pc_write hpc
  | acked _ hk _ _ _ _ _ _ => cases hk.pc_write hpc
  | @held l k hp ho hk hm ha hpass hd hu =>
    cases hk.pc_write hpc
    have hmem : i ∈ s.order := by simp [ho]
    rw [hm, ← R.after_concat] at hl hs
    have hk' : Kids R s' R.n none :=
      hk.leaves hmem (by simp) (.inl rfl) ⟨l ++ [i], by rw [ho], rfl⟩ (hs ▸ rfl) (hs ▸ rfl)
    subst hs
    refine .inPipe hp hk' ha ?_ ?_ hu
    · change Passed R s.order
      rw [ho]
      exact hpass.concat hl
    · change Contents _ (List.ofFn (R.after s.order))
      rw [ho]
      exact contents_writeBytes hd (by simpa using R.size_le)

theorem Phase.exit (h : Phase R s) (hpc : (s.child i).pc = .exit)
    (hs : s' = { s with child := setChild s i ⟨.exited, (s.child i).msg⟩ }) : Phase R s' := by
  have key : ∀ b h, Kids R s b h → Kids R s' b h := by
    intro b h hk
    obtain ⟨hi, hne⟩ := hk.pc_exit hpc
    refine hk.leaves hi (fun j => ?_) (.inr rfl) (hk.seen i hi) (hs ▸ rfl) (hs ▸ rfl)
    exact ⟨fun hj => ⟨hj, fun he => hne (he ▸ hj)⟩, fun hj => hj.1⟩
  subst hs
  cases h with
  | forking hp hk hkids ho ha hd hu => exact .forking hp hk (key _ _ hkids) ho ha hd hu
  | inPipe hp hk ha hpass hd hu => exact .inPipe hp (key _ _ hk) ha hpass hd hu
  | acked ho hk ha hpass hl hd hu hp => exact .acked ho (key _ _ hk) ha hpass hl hd hu hp
  | @held l k hp ho hk hm ha hpass hd hu =>
    refine .held hp ho (key _ _ hk) ?_ ha hpass hd hu
    have hki : k ≠ i := by
      rintro rfl
      exact (hk.pc_exit hpc).2 rfl
    change (setChild s i _ k).msg = _
    rw [setChild, update_of_ne hki, hm]

theorem Phase.moves (h : Phase R s) (hm : Moves R s a s') (ha : a ≠ .forkFails) : Phase R s' := by
  cases hm with
  | fail => exact absurd rfl ha
  | read hpc he => exact h.read hpc he rfl
  | ack hpc hl _ => exact h.ack hpc hl rfl
  | forward hpc hl _ => exact h.forward hpc hl rfl
  | exit hpc => exact h.exit hpc rfl
  | @fork i hp hi =>
    cases h with
    | @forking k hk hle hkids ho hacks hd hu =>
      cases hp.symm.trans hk
      exact .forking rfl hi (hkids.born ho rfl rfl) ho hacks hd hu
    | inPipe hk _ _ _ _ _ => cases hp.symm.trans hk
    | held hk _ _ _ _ _ _ _ => cases hp.symm.trans hk
    | acked _ _ _ _ _ _ _ hk => exact absurd hp (hk i)
  | @send i hp hi _ =>
    cases h with
    | @forking k hk hle hkids ho hacks hd hu =>
      cases hp.symm.trans hk
      obtain rfl : i = R.n := Nat.le_antisymm hle hi
      refine .inPipe rfl (hkids.congr rfl rfl) hacks ?_ ?_ hu
      · change Passed R s.order
        rw [ho]
        exact .nil R
      · change Contents _ (List.ofFn (R.after s.order))
        rw [ho]
        exact contents_writeBytes hd (by simpa using R.size_le)
    | inPipe hk _ _ _ _ _ => cases hp.symm.trans hk
    | held hk _ _ _ _ _ _ _ => cases hp.symm.trans hk
    | acked _ _ _ _ _ _ _ hk => exact absurd hp (hk i)
  | recv hp he =>
    cases h with
    | forking hk _ _ _ _ _ _ => cases hp.symm.trans hk
    | inPipe _ _ _ _ _ hu => simp [hu.isEmpty_iff.mpr rfl] at he
    | held _ _ _ _ _ _ _ hu => simp [hu.isEmpty_iff.mpr rfl] at he
    | acked ho hk hacks hpass hl hd hu _ =>
      exact .acked ho (hk.congr rfl rfl) hacks hpass hl hd (contents_readBytes hu _).2 nofun

theorem phase_init (R : Relay size) (data : ℕ → UInt8) : Phase R (R.init data) := by
  have hempty : Contents ⟨data, 0, 0, true, true⟩ [] := .nil (by decide) (by decide) data
  refine .forking rfl (Nat.zero_le _) ?_ rfl rfl hempty hempty
  refine ⟨fun i _ => rfl, nofun, nofun, List.nodup_nil, nofun, nofun⟩

theorem phase_of_reach (h : R.Reach data s) : Phase R s := by
  obtain ⟨l, hl, hr⟩ := h
  refine hr.invariant (fun s a s' ha hn hi => ?_) (phase_init R data)
  exact hi.moves (moves_of_next hn) (fun he => hl (he ▸ ha))

theorem Phase.kids (h : Phase R s) : ∃ b o, b ≤ R.n ∧ Kids R s b o := by
  cases h with
  | forking _ hle hk _ _ _ _ => exact ⟨_, _, hle, hk⟩
  | inPipe _ hk _ _ _ _ => exact ⟨_, _, le_rfl, hk⟩
  | held _ _ hk _ _ _ _ _ => exact ⟨_, _, le_rfl, hk⟩
  | acked _ hk _ _ _ _ _ _ => exact ⟨_, _, le_rfl, hk⟩

/-- At most one copy of the record is in the pipe or held by a child. -/
theorem Phase.single (h : Phase R s) :
    (Contents s.down [] ∧ {i | (s.child i).pc = .write}.Subsingleton) ∨
      (∃ m : Bytes size, Contents s.down (List.ofFn m)) ∧ ∀ i, (s.child i).pc ≠ .write := by
  have hone : ∀ b o, Kids R s b o → {i | (s.child i).pc = .write}.Subsingleton := by
    intro b o hk i hi j hj
    exact Option.some.inj ((hk.pc_write hi).symm.trans (hk.pc_write hj))
  cases h with
  | forking _ _ hk _ _ hd _ => exact .inl ⟨hd, hone _ _ hk⟩
  | held _ _ hk _ _ _ hd _ => exact .inl ⟨hd, hone _ _ hk⟩
  | acked _ hk _ _ _ hd _ _ => exact .inl ⟨hd, hone _ _ hk⟩
  | inPipe _ hk _ _ hd _ => exact .inr ⟨⟨_, hd⟩, fun i hi => nomatch hk.pc_write hi⟩

/-- The acknowledgement is the last reader's. -/
theorem Phase.ack_last (h : Phase R s) : s.acks = [] ∨ ∃ l i, s.order = l ++ [i] ∧
    s.acks = [i] ∧ Passed R l ∧ R.last i (R.after s.order) = true := by
  cases h with
  | forking _ _ _ _ ha _ _ => exact .inl ha
  | inPipe _ _ ha _ _ _ => exact .inl ha
  | held _ _ _ _ ha _ _ _ => exact .inl ha
  | acked ho _ ha hp hl _ _ _ => exact .inr ⟨_, _, ho, ha, hp, by rw [ho]; exact hl⟩

/-! ## Deadlock -/

/-- Without an acknowledgement, no party can move only if the record is in the pipe and every
child has read it. -/
theorem Phase.of_stuck (h : Phase R s) (hs : R.Stuck s) (ha : s.acks = []) :
    Passed R s.order ∧ ∀ i < R.n, i ∈ s.order := by
  obtain ⟨hpar, hchild⟩ := hs
  cases h with
  | @forking k hk hle hkids ho hacks hd hu =>
    exfalso
    have hroom : hasRoom s.down size = true := (hasRoom_iff hd size).mpr (by simpa using R.size_le)
    unfold Relay.parent at hpar
    rw [hk] at hpar
    dsimp only at hpar
    split_ifs at hpar
  | inPipe hp hk hacks hpass hd hu =>
    refine ⟨hpass, fun i hi => ?_⟩
    by_contra hni
    have hne : List.ofFn (R.after s.order) ≠ [] := by
      simpa [List.ofFn_eq_nil_iff] using R.size_pos.ne'
    have he : isEmpty s.down = false := Bool.eq_false_iff.mpr fun h => hne (hd.isEmpty_iff.mp h)
    have hc := hchild i hi
    have hpc := hk.waits i hni
    rw [if_pos hi] at hpc
    simp [Relay.child, hpc, he] at hc
  | @held l i hp ho hk hm hacks hpass hd hu =>
    exfalso
    have hi : i < R.n := hk.lt i (by simp [ho])
    have hc := hchild i hi
    have hroom : hasRoom s.down size = true := (hasRoom_iff hd size).mpr (by simpa using R.size_le)
    have hroom' : hasRoom s.up R.ack.length = true :=
      (hasRoom_iff hu _).mpr (by simpa using R.ack_le)
    simp only [Relay.child, hk.holds i rfl, hroom, hroom', if_true] at hc
    split_ifs at hc
  | acked _ _ hacks _ _ _ _ _ => simp [hacks] at ha

/-! ## Every run ends -/

/-- The steps that are left to a child. -/
def left : ChildPc → ℕ
  | .unborn => 4
  | .read => 3
  | .write => 2
  | .exit => 1
  | .exited => 0

def rest (R : Relay size) (s : Party size) : ℕ :=
  (match s.parent with
    | .fork i => R.n - i + 2
    | .await => 1
    | .exited => 0) + ∑ i ∈ Finset.range R.n, left (s.child i).pc

theorem sum_left_lt {c : Child size} (hi : i < R.n) (hlt : left c.pc < left (s.child i).pc) :
    ∑ j ∈ Finset.range R.n, left (setChild s i c j).pc <
      ∑ j ∈ Finset.range R.n, left (s.child j).pc := by
  refine Finset.sum_lt_sum (fun j _ => ?_) ⟨i, Finset.mem_range.mpr hi, ?_⟩
  · rcases eq_or_ne j i with rfl | hj
    · rw [setChild, update_self]
      exact hlt.le
    · rw [setChild, update_of_ne hj]
  · rwa [setChild, update_self]

theorem Phase.lt (h : Phase R s) (hpc : (s.child i).pc ≠ .unborn) : i < R.n := by
  obtain ⟨b, o, hb, hk⟩ := h.kids
  by_cases hi : i ∈ s.order
  · exact (hk.lt i hi).trans_le hb
  · have hw := hk.waits i hi
    split_ifs at hw with hib
    · exact hib.trans_le hb
    · exact absurd hw hpc

theorem Phase.rest_lt (h : Phase R s) (hm : Moves R s a s') : rest R s' < rest R s := by
  cases hm with
  | @fork i hp hi =>
    have hpc : (s.child i).pc = .unborn := by
      cases h with
      | @forking k hk _ hkids ho _ _ _ =>
        cases hp.symm.trans hk
        simpa using hkids.waits i (by simp [ho])
      | inPipe hk _ _ _ _ _ => cases hp.symm.trans hk
      | held hk _ _ _ _ _ _ _ => cases hp.symm.trans hk
      | acked _ _ _ _ _ _ _ hk => exact absurd hp (hk i)
    have := sum_left_lt (s := s) (c := ⟨.read, R.stack i⟩) hi (by simp [hpc, left])
    simp only [rest, hp]
    omega
  | send hp _ _ =>
    simp only [rest, hp]
    omega
  | recv hp _ =>
    simp only [rest, hp]
    omega
  | fail hp _ =>
    simp only [rest, hp]
    omega
  | read hpc _ =>
    exact Nat.add_lt_add_left (sum_left_lt (h.lt (by simp [hpc])) (by simp [hpc, left])) _
  | ack hpc _ _ =>
    exact Nat.add_lt_add_left (sum_left_lt (h.lt (by simp [hpc])) (by simp [hpc, left])) _
  | forward hpc _ _ =>
    exact Nat.add_lt_add_left (sum_left_lt (h.lt (by simp [hpc])) (by simp [hpc, left])) _
  | exit hpc =>
    exact Nat.add_lt_add_left (sum_left_lt (h.lt (by simp [hpc])) (by simp [hpc, left])) _

theorem Reach.step (h : R.Reach data s) (ha : a ≠ .forkFails) (hn : Next R.step s a s') :
    R.Reach data s' := by
  obtain ⟨l, hl, hr⟩ := h
  exact ⟨l ++ [a], by simp [hl, ha.symm], hr.snoc hn⟩

/-- Every run can be continued to a state in which no party can move. -/
theorem exists_stuck (h : R.Reach data s) : ∃ t, R.Reach data t ∧ R.Stuck t := by
  -- each step uses up one of the steps that are left
  induction hr : R.rest s using Nat.strong_induction_on generalizing s with
  | _ r ih =>
    subst hr
    by_cases hs : R.Stuck s
    · exact ⟨s, h, hs⟩
    · obtain ⟨a, s', ha, hn⟩ : ∃ a s', a ≠ Act.forkFails ∧ Next R.step s a s' := by
        simp only [Stuck, not_and_or, not_forall] at hs
        rcases hs with hs | ⟨i, -, hs⟩
        · obtain ⟨s', hs'⟩ := Option.ne_none_iff_exists'.mp hs
          exact ⟨.parent, s', nofun, by simp [Next, Relay.step, hs']⟩
        · obtain ⟨s', hs'⟩ := Option.ne_none_iff_exists'.mp hs
          exact ⟨.child i, s', nofun, by simp [Next, Relay.step, hs']⟩
      exact ih _ ((phase_of_reach h).rest_lt (moves_of_next hn)) (h.step ha hn) rfl

end Relay

end Xv6.User

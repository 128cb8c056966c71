import Xv6.User.Relay

/-! # Broadcast

The record carries ten flags. The parent sets those of its receivers, each child
clears its own, and the child that finds the sum of all ten flags zero
acknowledges. The flags beyond the receivers hold what was on the parent's stack.
-/

namespace Xv6.User.Broadcast

open Sys Finset
open Proc (Contents)

/-- `sizeof(struct msg_t)`: the flags, then the content. -/
abbrev MSG : ℕ := 4 * MAX_NUM_RECEIVERS + MAX_MSG_SIZE

def flag (m : Bytes MSG) (j : ℕ) : ℕ := m.get32 (4 * j)

def setFlag (m : Bytes MSG) (j v : ℕ) : Bytes MSG := m.set32 (4 * j) v

/-- The sum over all flags, an `int`. -/
def sum (m : Bytes MSG) : ℕ :=
  (List.range MAX_NUM_RECEIVERS).foldl (fun sum j => (sum + flag m j) % 2 ^ 32) 0

/-- The parent sets the flags of its receivers. -/
def setFlags (n : ℕ) (m : Bytes MSG) : Bytes MSG :=
  (List.range n).foldl (fun m i => setFlag m i 1) m

/-- `numReceiver` children and a parent whose local record holds `stale`. -/
def broadcast (n : ℕ) (text : Text) (stale : Bytes MSG) (stack : ℕ → Bytes MSG) : Relay MSG where
  n := n
  msg := strcpy (setFlags n stale) (4 * MAX_NUM_RECEIVERS) text
  stack := stack
  mark i m := setFlag m i 0
  last _ m := sum m == 0
  -- "completed!"
  ack := [99, 111, 109, 112, 108, 101, 116, 101, 100, 33]
  buf := MSG
  size_pos := by decide
  size_le := by decide
  ack_pos := by decide
  ack_le := by decide

/-! ## The flags -/

variable {n : ℕ} {text : Text} {stale m : Bytes MSG} {stack : ℕ → Bytes MSG} {i j : ℕ} {l : List ℕ}

theorem flag_setFlag {v : ℕ} (hi : i < MAX_NUM_RECEIVERS) (hv : v < 2 ^ 32) :
    flag (setFlag m i v) j = if j = i then v else flag m j := by
  split
  next h =>
    subst h
    have hm : MSG = 4 * MAX_NUM_RECEIVERS + 256 := rfl
    exact Bytes.get32_set32 (by omega) hv
  next h => exact Bytes.get32_set32_of_disjoint (by omega)

theorem flag_setFlags (hn : n ≤ MAX_NUM_RECEIVERS) :
    flag (setFlags n m) j = if j < n then 1 else flag m j := by
  induction n with
  | zero => rfl
  | succ n ih =>
    rw [setFlags, List.range_succ, List.foldl_append]
    change flag (setFlag (setFlags n m) n 1) j = _
    rw [flag_setFlag (by omega) (by decide), ih (by omega)]
    grind

theorem flag_strcpy (hj : j < MAX_NUM_RECEIVERS) :
    flag (strcpy m (4 * MAX_NUM_RECEIVERS) text) j = flag m j := by
  have ht : 4 * MAX_NUM_RECEIVERS + (text.bytes.length + 1) ≤ MSG :=
    Nat.add_le_add_left text.short _
  unfold flag strcpy
  rw [Bytes.get32_blit_of_le _ ht (by omega)]

theorem flag_msg (hn : n ≤ MAX_NUM_RECEIVERS) (hj : j < MAX_NUM_RECEIVERS) :
    flag (broadcast n text stale stack).msg j = if j < n then 1 else flag stale j := by
  rw [← flag_setFlags hn]
  exact flag_strcpy hj

/-- The children of the list have cleared their flags. -/
theorem flag_after (hn : n ≤ MAX_NUM_RECEIVERS) (hl : ∀ i ∈ l, i < n) (hj : j < MAX_NUM_RECEIVERS) :
    flag ((broadcast n text stale stack).after l) j =
      if j ∈ l then 0 else if j < n then 1 else flag stale j := by
  induction l using List.reverseRecOn with
  | nil => exact flag_msg hn hj
  | append_singleton l i ih =>
    have hi : i < n := hl i (by simp)
    rw [Relay.after_concat]
    change flag (setFlag _ i 0) j = _
    rw [flag_setFlag (by omega) (by decide), ih fun k hk => hl k (by simp [hk])]
    grind

theorem sum_eq : sum m = (∑ j ∈ range MAX_NUM_RECEIVERS, flag m j) % 2 ^ 32 := by
  unfold sum
  generalize MAX_NUM_RECEIVERS = k
  induction k with
  | zero => rfl
  | succ k ih =>
    rw [List.range_succ, List.foldl_append, sum_range_succ]
    change (List.foldl _ 0 (List.range k) + flag m k) % 2 ^ 32 = _
    rw [ih, Nat.mod_add_mod]

/-- What the flags that the parent does not set add up to. -/
def spare (n : ℕ) (stale : Bytes MSG) : ℕ :=
  (∑ j ∈ Finset.Ico n MAX_NUM_RECEIVERS, flag stale j) % 2 ^ 32

/-- The sum counts the children that have not read, and the flags that were not set. -/
theorem sum_after (hn : n ≤ MAX_NUM_RECEIVERS) (hl : ∀ i ∈ l, i < n) (hd : l.Nodup) :
    sum ((broadcast n text stale stack).after l) = (n - l.length + spare n stale) % 2 ^ 32 := by
  have hsplit := sum_range_add_sum_Ico
    (fun j => flag ((broadcast n text stale stack).after l) j) hn
  have hunset : ∑ j ∈ Finset.Ico n MAX_NUM_RECEIVERS,
      flag ((broadcast n text stale stack).after l) j =
        ∑ j ∈ Finset.Ico n MAX_NUM_RECEIVERS, flag stale j := by
    refine sum_congr rfl fun j hj => ?_
    obtain ⟨h₁, h₂⟩ := mem_Ico.mp hj
    rw [flag_after hn hl h₂, if_neg fun h => by have := hl j h; omega, if_neg (by omega)]
  have hset : ∑ j ∈ range n, flag ((broadcast n text stale stack).after l) j =
      n - l.length := by
    have hsub : l.toFinset ⊆ range n := fun i hi => by
      simpa using hl i (List.mem_toFinset.mp hi)
    calc ∑ j ∈ range n, flag ((broadcast n text stale stack).after l) j
        = ∑ j ∈ range n, if j ∉ l.toFinset then 1 else 0 := by
          refine sum_congr rfl fun j hj => ?_
          have hj := mem_range.mp hj
          rw [flag_after hn hl (by omega), if_pos hj]
          simp
      _ = (range n \ l.toFinset).card := by
          rw [← card_filter, sdiff_eq_filter]
      _ = n - l.length := by
          rw [card_sdiff_of_subset hsub, card_range, List.toFinset_card_of_nodup hd]
  rw [sum_eq, ← hsplit, hunset, hset, spare, Nat.add_mod_mod]

theorem carries_after (l : List ℕ) (hl : ∀ i ∈ l, i < MAX_NUM_RECEIVERS) :
    Carries ((broadcast n text stale stack).after l) (4 * MAX_NUM_RECEIVERS) text := by
  induction l using List.reverseRecOn with
  | nil => exact carries_strcpy _ text le_rfl
  | append_singleton l i ih =>
    have hi : i < MAX_NUM_RECEIVERS := hl i (by simp)
    intro j hj
    rw [Relay.after_concat, ← ih (fun k hk => hl k (by simp [hk])) j hj]
    exact Bytes.get_set32_of_disjoint (by omega)

/-! ## The protocol -/

/-- Each child has read the message at most once. At most one copy of the record is in the pipe
or held by a child. The acknowledgement is written at most once, by the last of all children to
read. Until then some party can move. -/
structure Correct (R : Relay MSG) (text : Text) (s : Party MSG) : Prop where
  once : s.order.Nodup ∧ ∀ i ∈ s.order, Carries (s.child i).msg (4 * MAX_NUM_RECEIVERS) text
  single : (Contents s.down [] ∧ {i | (s.child i).pc = .write}.Subsingleton) ∨
    (∃ m : Bytes MSG, Contents s.down (List.ofFn m)) ∧ ∀ i, (s.child i).pc ≠ .write
  ack : s.acks = [] ∨ ∃ l i, s.order = l ++ [i] ∧ s.acks = [i] ∧ ∀ j < R.n, j ∈ s.order
  live : s.acks = [] → ¬ R.Stuck s

variable {data : ℕ → UInt8} {s : Party MSG}

theorem all_read_of_length (hlt : ∀ i ∈ l, i < n) (hd : l.Nodup) (h : n ≤ l.length) :
    ∀ i < n, i ∈ l := by
  intro i hi
  have hsub : l.toFinset ⊆ range n := fun j hj => by
    simpa using hlt j (List.mem_toFinset.mp hj)
  have heq := eq_of_subset_of_card_le hsub (by
    rw [card_range, List.toFinset_card_of_nodup hd]
    exact h)
  exact List.mem_toFinset.mp (heq ▸ mem_range.mpr hi)

theorem length_of_all_read (hlt : ∀ i ∈ l, i < n) (hd : l.Nodup) (h : ∀ i < n, i ∈ l) :
    l.length = n := by
  have heq : l.toFinset = range n := by
    ext i
    rw [List.mem_toFinset, mem_range]
    exact ⟨hlt i, h i⟩
  rw [← List.toFinset_card_of_nodup hd, heq, card_range]

/-- With nothing in the spare flags a child acknowledges when all children have read. -/
theorem correct_of_phase (hpos : 1 ≤ n) (hn : n ≤ MAX_NUM_RECEIVERS) (hz : spare n stale = 0)
    (h : Relay.Phase (broadcast n text stale stack) s) :
    Correct (broadcast n text stale stack) text s := by
  obtain ⟨b, o, hb, hk⟩ := h.kids
  have hlt : ∀ i ∈ s.order, i < n := fun i hi => (hk.lt i hi).trans_le hb
  have hsum : sum ((broadcast n text stale stack).after s.order) = n - s.order.length := by
    rw [sum_after hn hlt hk.nodup, hz, Nat.add_zero, Nat.mod_eq_of_lt]
    have : MAX_NUM_RECEIVERS = 10 := rfl
    omega
  refine ⟨⟨hk.nodup, fun i hi => ?_⟩, h.single, ?_, fun ha hs => ?_⟩
  · obtain ⟨p, hp, he⟩ := hk.seen i hi
    rw [he]
    exact carries_after p fun j hj => (hlt j (hp.subset hj)).trans_le hn
  · rcases h.ack_last with ha | ⟨l, i, ho, ha, -, hlast⟩
    · exact .inl ha
    · refine .inr ⟨l, i, ho, ha, all_read_of_length hlt hk.nodup ?_⟩
      have hzero : sum ((broadcast n text stale stack).after s.order) = 0 := beq_iff_eq.mp hlast
      exact Nat.le_of_sub_eq_zero (hsum.symm.trans hzero)
  · -- the last child to read would have passed the record on with a zero sum
    obtain ⟨hpass, hall⟩ := h.of_stuck hs ha
    have hlen := length_of_all_read hlt hk.nodup hall
    obtain ⟨l, i, ho⟩ : ∃ l i, s.order = l ++ [i] :=
      (List.eq_nil_or_concat' s.order).resolve_left fun he => by
        rw [he, List.length_nil] at hlen
        omega
    have hlast := hpass l i (by rw [ho])
    rw [← ho] at hlast
    have hne : sum ((broadcast n text stale stack).after s.order) ≠ 0 := beq_eq_false_iff_ne.mp hlast
    omega

/-- In all runs the protocol is kept exactly if the flags beyond the receivers that happen to be
on the parent's stack add up to zero. -/
theorem broadcast_protocol_iff (hpos : 1 ≤ n) (hn : n ≤ MAX_NUM_RECEIVERS) :
    (∀ s, (broadcast n text stale stack).Reach data s →
      Correct (broadcast n text stale stack) text s) ↔ spare n stale = 0 := by
  constructor
  · intro hall
    -- a run that cannot be continued has acknowledged, after all children have read
    obtain ⟨s, hs, hstuck⟩ := Relay.exists_stuck (R := broadcast n text stale stack)
      ⟨[], nofun, .nil ((broadcast n text stale stack).init data)⟩
    have hphase := Relay.phase_of_reach hs
    obtain ⟨b, o, hb, hk⟩ := hphase.kids
    have hlt : ∀ i ∈ s.order, i < n := fun i hi => (hk.lt i hi).trans_le hb
    have hne : s.acks ≠ [] := fun ha => (hall s hs).live ha hstuck
    obtain ⟨-, -, -, -, hread⟩ := (hall s hs).ack.resolve_left hne
    obtain ⟨-, i, -, -, -, hlast⟩ := hphase.ack_last.resolve_left hne
    have hzero : sum ((broadcast n text stale stack).after s.order) = 0 := beq_iff_eq.mp hlast
    rw [sum_after hn hlt hk.nodup, length_of_all_read hlt hk.nodup hread, Nat.sub_self,
      Nat.zero_add] at hzero
    rwa [spare, Nat.mod_mod] at hzero
  · exact fun hz s hs => correct_of_phase hpos hn hz (Relay.phase_of_reach hs)

def hello : Text := ⟨[104, 101, 108, 108, 111], by decide, by decide⟩

/-- Two receivers and a stack of zeros. -/
def zeros : Relay MSG := broadcast 2 hello Bytes.zero fun _ => Bytes.zero

/-- Child 1 reads first and child 0 acknowledges. -/
def roundTrip : List Act := [.parent, .parent, .parent, .child 1, .child 1, .child 0, .child 0]

theorem broadcast_protocol_zeros : ∃ s, exec zeros.step (zeros.init fun _ => 0) roundTrip = some s ∧
    s.acks = [0] ∧ Correct zeros hello s := by
  obtain ⟨s, hs, ha⟩ : ∃ s, exec zeros.step (zeros.init fun _ => 0) roundTrip = some s ∧
      s.acks = [0] := exists_of_exec _ (by decide +kernel)
  have hr : zeros.Reach (fun _ => 0) s := ⟨roundTrip, by decide, run_of_exec _ hs⟩
  exact ⟨s, hs, ha, (broadcast_protocol_iff (by decide) (by decide)).mpr (by decide +kernel) s hr⟩

/-- One receiver, and the second flag on the parent's stack is 1. -/
def stray : Relay MSG := broadcast 1 hello (setFlag Bytes.zero 1 1) fun _ => Bytes.zero

/-- The only receiver has read the message and written it back, nobody is left to read it, and
the parent waits for an acknowledgement for ever. -/
theorem broadcast_deadlock : ∃ s, exec stray.step (stray.init fun _ => 0)
    [.parent, .parent, .child 0, .child 0, .child 0] = some s ∧ s.acks = [] ∧ stray.Stuck s :=
  exists_of_exec stray.step (by decide +kernel)

end Xv6.User.Broadcast

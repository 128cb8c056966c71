import Xv6.User.Relay

/-! # Unicast

The record names its target. A child that is not the target writes the record
back unchanged; the target acknowledges.
-/

namespace Xv6.User.Unicast

open Sys
open Proc (Contents)

/-- `sizeof(struct msg_t)`: the target, then the content. -/
abbrev MSG : ℕ := 4 + MAX_MSG_SIZE

/-- The record the parent fills in before it forks. -/
def record (t : ℕ) (text : Text) (stale : Bytes MSG) : Bytes MSG :=
  strcpy (stale.set32 0 t) 4 text

/-- `numChildren` and the message for child `targetChild`; every child starts with a copy of the
parent's record. -/
def unicast (n : Fin (2 ^ 31)) (t : ℕ) (text : Text) (stale : Bytes MSG) : Relay MSG where
  n := n
  msg := record t text stale
  stack _ := record t text stale
  mark _ m := m
  last i m := i == m.get32 0
  -- "received!" and its NUL
  ack := [114, 101, 99, 101, 105, 118, 101, 100, 33, 0]
  buf := 20
  size_pos := by decide
  size_le := by decide
  ack_pos := by decide
  ack_le := by decide

variable {n : Fin (2 ^ 31)} {t : ℕ} {text : Text} {stale : Bytes MSG} {data : ℕ → UInt8}
  {s : Party MSG} {l : List ℕ}

theorem get32_record (ht : t < 2 ^ 32) : (record t text stale).get32 0 = t := by
  have hlen : 4 + (text.bytes.length + 1) ≤ MSG := Nat.add_le_add_left text.short _
  unfold record strcpy
  rw [Bytes.get32_blit_of_le _ hlen (by omega), Bytes.get32_set32 (by decide) ht]

theorem after_eq (l : List ℕ) : (unicast n t text stale).after l = record t text stale := by
  induction l using List.reverseRecOn with
  | nil => rfl
  | append_singleton l i ih =>
    rw [Relay.after_concat]
    exact ih

theorem last_iff (ht : t < n) (i : ℕ) :
    (unicast n t text stale).last i ((unicast n t text stale).after l) = true ↔ i = t := by
  have hn := n.isLt
  rw [after_eq]
  change (i == (record t text stale).get32 0) = true ↔ i = t
  rw [get32_record (by omega), beq_iff_eq]

/-- The children that have passed the record on are not the target. -/
theorem not_mem_of_passed (ht : t < n) (h : Relay.Passed (unicast n t text stale) l) : t ∉ l := by
  intro hm
  obtain ⟨p, q, rfl⟩ := List.append_of_mem hm
  have hlast := h p t ⟨q, by simp⟩
  rw [(last_iff ht t).mpr rfl] at hlast
  cases hlast

/-- Exactly one copy of the record exists: in the channel, or with one child that has read it. -/
def OneCopy (m : Bytes MSG) (s : Party MSG) : Prop :=
  (Contents s.down (List.ofFn m) ∧ ∀ i, (s.child i).pc ≠ .write) ∨
    Contents s.down [] ∧ ∃ i, (s.child i).msg = m ∧ ∀ j, (s.child j).pc = .write ↔ j = i

theorem oneCopy_of_phase (h : Relay.Phase (unicast n t text stale) s) (hp : ∀ k, s.parent ≠ .fork k)
    (ha : s.acks = []) : OneCopy (record t text stale) s := by
  cases h with
  | forking hk _ _ _ _ _ _ => exact absurd hk (hp _)
  | inPipe _ hk _ _ hd _ =>
    rw [after_eq] at hd
    exact .inl ⟨hd, fun i hi => nomatch hk.pc_write hi⟩
  | @held l i _ _ hk hm _ _ hd _ =>
    rw [after_eq] at hm
    refine .inr ⟨hd, i, hm, fun j => ⟨fun hj => ?_, ?_⟩⟩
    · exact (Option.some.inj (hk.pc_write hj)).symm
    · rintro rfl
      exact hk.holds j rfl
  | acked _ _ hacks _ _ _ _ _ => simp [hacks] at ha

theorem target_not_gone (ht : t < n) (h : Relay.Phase (unicast n t text stale) s)
    (ha : s.acks = []) : (s.child t).pc ≠ .exit ∧ (s.child t).pc ≠ .exited := by
  have key : ∀ b o, Relay.Kids (unicast n t text stale) s b o → t ∉ s.order ∨ o = some t →
      (s.child t).pc ≠ .exit ∧ (s.child t).pc ≠ .exited := by
    rintro b o hk (hm | ho)
    · rw [hk.waits t hm]
      split <;> exact ⟨nofun, nofun⟩
    · rw [hk.holds t ho]
      exact ⟨nofun, nofun⟩
  cases h with
  | forking _ _ hk ho _ _ _ => exact key _ _ hk (.inl (by simp [ho]))
  | inPipe _ hk _ hpass _ _ => exact key _ _ hk (.inl (not_mem_of_passed ht hpass))
  | @held l i _ ho hk _ _ hpass _ _ =>
    have hl := not_mem_of_passed ht hpass
    rcases eq_or_ne i t with rfl | hi
    · exact key _ _ hk (.inr rfl)
    · exact key _ _ hk (.inl (by simp [ho, hl, hi.symm]))
  | acked _ _ hacks _ _ _ _ _ => simp [hacks] at ha

/-- From the parent's write on and until delivery exactly one copy of the record exists and the
target has not exited. Only the target acknowledges, once, and until then some party can move. -/
theorem unicast_protocol (ht : t < n) (h : (unicast n t text stale).Reach data s) :
    ((∀ k, s.parent ≠ .fork k) → s.acks = [] → OneCopy (record t text stale) s) ∧
    (s.acks = [] → (s.child t).pc ≠ .exit ∧ (s.child t).pc ≠ .exited) ∧
    (s.acks = [] ∨ s.acks = [t]) ∧ (s.acks = [] → ¬ (unicast n t text stale).Stuck s) := by
  have hph := Relay.phase_of_reach h
  refine ⟨oneCopy_of_phase hph, target_not_gone ht hph, ?_, fun ha hs => ?_⟩
  · rcases hph.ack_last with ha | ⟨l, i, -, ha, -, hlast⟩
    · exact .inl ha
    · rw [(last_iff ht i).mp hlast] at ha
      exact .inr ha
  · obtain ⟨hpass, hall⟩ := hph.of_stuck hs ha
    exact not_mem_of_passed ht hpass (hall t ht)

/-- Two children; child 0 reads first and the message is for child 1. -/
def detour : List Act := [.parent, .parent, .parent, .child 0, .child 0, .child 1, .child 1]

def hi : Text := ⟨[104, 105], by decide, by decide⟩

theorem unicast_protocol_detour : ∃ s,
    exec (unicast 2 1 hi Bytes.zero).step ((unicast 2 1 hi Bytes.zero).init fun _ => 0) detour =
      some s ∧ s.order = [0, 1] ∧ s.acks ≠ [] ∧ (s.acks = [] ∨ s.acks = [1]) := by
  obtain ⟨s, hs, ho, ha⟩ : ∃ s,
      exec (unicast 2 1 hi Bytes.zero).step ((unicast 2 1 hi Bytes.zero).init fun _ => 0) detour =
        some s ∧ s.order = [0, 1] ∧ s.acks ≠ [] := exists_of_exec _ (by decide +kernel)
  have hr : (unicast 2 1 hi Bytes.zero).Reach (fun _ => 0) s :=
    ⟨detour, by decide, run_of_exec _ hs⟩
  exact ⟨s, hs, ho, ha, (unicast_protocol (by decide) hr).2.2.1⟩

end Xv6.User.Unicast

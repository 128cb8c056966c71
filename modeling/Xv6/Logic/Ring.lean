import Mathlib.Tactic

/-! # Doubly linked rings

A ring through a distinguished head node is given by two successor functions
on `Option α`, where `none` is the head. The ring lists the other nodes in the
order in which `next` visits them; `prev` visits them backwards.
-/

namespace Xv6

open Function

variable {α : Type}

/-- Following `f` from `a` visits the nodes of `l` in order and then arrives at `b`. -/
def Seg (f : Option α → Option α) : Option α → List α → Option α → Prop
  | a, [], b => f a = b
  | a, x :: l, b => f a = some x ∧ Seg f (some x) l b

/-- The nodes visited by `f` from a node on, up to the head and at most `n` of them. -/
def chain (f : Option α → Option α) : ℕ → Option α → List α
  | 0, _ => []
  | _ + 1, none => []
  | n + 1, some x => x :: chain f n (f (some x))

variable {f : Option α → Option α} {a b : Option α} {x : α} {l m : List α}

theorem Seg.chain_eq {n : ℕ} (h : Seg f a l none) (hn : l.length ≤ n) :
    chain f n (f a) = l := by
  induction l generalizing a n with
  | nil =>
    have ha : f a = none := h
    cases n <;> simp [chain, ha]
  | cons y l ih =>
    obtain ⟨n, rfl⟩ : ∃ k, n = k + 1 := ⟨n - 1, by simp at hn; omega⟩
    rw [h.1, chain, ih h.2 (by simpa using hn)]

theorem seg_append_cons : Seg f a (l ++ x :: m) b ↔ Seg f a l (some x) ∧ Seg f (some x) m b := by
  induction l generalizing a with
  | nil => rfl
  | cons y l ih => simp [Seg, ih, and_assoc]

theorem Seg.head_eq (h : Seg f a l none) : f a = l.head? := by
  cases l with
  | nil => exact h
  | cons y l => exact h.1

/-- `next` and `prev` run through the nodes of `l`, without repetition, in opposite directions. -/
structure Ring (next prev : Option α → Option α) (l : List α) : Prop where
  nodup : l.Nodup
  forward : Seg next none l none
  backward : Seg prev none l.reverse none

namespace Ring

variable {next prev : Option α → Option α} {b : α}

theorem chain_next {n : ℕ} (h : Ring next prev l) (hn : l.length ≤ n) :
    chain next n (next none) = l := h.forward.chain_eq hn

theorem chain_prev {n : ℕ} (h : Ring next prev l) (hn : l.length ≤ n) :
    chain prev n (prev none) = l.reverse := h.backward.chain_eq (by simpa using hn)

theorem next_eq (h : Ring next prev (l ++ b :: m)) : next (some b) = m.head? :=
  (seg_append_cons.mp h.forward).2.head_eq

theorem prev_eq (h : Ring next prev (l ++ b :: m)) : prev (some b) = l.getLast? := by
  have hb := h.backward
  rw [List.reverse_append, List.reverse_cons, List.append_assoc, List.singleton_append] at hb
  rw [(seg_append_cons.mp hb).2.head_eq, List.head?_reverse]

end Ring

variable [DecidableEq α]

theorem seg_update {c v : Option α} (ha : c ≠ a) (hc : ∀ y ∈ l, c ≠ some y) :
    Seg (update f c v) a l b ↔ Seg f a l b := by
  induction l generalizing a with
  | nil => simp [Seg, update_of_ne ha.symm]
  | cons y l ih =>
    simp only [Seg, update_of_ne ha.symm]
    rw [ih (hc y (by simp)) (fun z hz => hc z (by simp [hz]))]

/-- Redirecting the last node of a segment changes where the segment arrives. -/
theorem Seg.redirect {v : Option α} (h : Seg f none l b) (hl : l.Nodup) :
    Seg (update f l.getLast? v) none l v := by
  rcases List.eq_nil_or_concat l with rfl | ⟨k, y, rfl⟩
  · simp [Seg]
  · rw [List.concat_eq_append] at h hl ⊢
    obtain ⟨hk, -⟩ := seg_append_cons.mp h
    have hy : y ∉ k := fun hm => (List.nodup_append.mp hl).2.2 y hm y (by simp) rfl
    rw [List.getLast?_append, seg_append_cons]
    refine ⟨?_, by simp [Seg]⟩
    rw [seg_update (by simp)]
    · exact hk
    · rintro z hz hyz
      obtain rfl : y = z := by simpa using hyz
      exact hy hz

theorem Seg.unlink (h : Seg f none (l ++ x :: m) none) (hl : (l ++ x :: m).Nodup) :
    Seg (update f l.getLast? (f (some x))) none (l ++ m) none := by
  obtain ⟨h₁, h₂⟩ := seg_append_cons.mp h
  have hn := List.nodup_append.mp hl
  have hr := h₁.redirect hn.1 (v := f (some x))
  have hlast : ∀ y ∈ x :: m, l.getLast? ≠ some y := fun y hy he =>
    hn.2.2 y (List.mem_of_getLast? he) y hy rfl
  cases m with
  | nil =>
    have hx : f (some x) = none := h₂
    simpa [hx] using hr
  | cons y m =>
    rw [h₂.1] at hr ⊢
    rw [seg_append_cons]
    refine ⟨hr, (seg_update (hlast y (by simp)) ?_).mpr h₂.2⟩
    exact fun z hz => hlast z (by simp [hz])

theorem Seg.push_front (h : Seg f none m none) (hx : x ∉ m) :
    Seg (update (update f (some x) (f none)) none (some x)) none (x :: m) none := by
  have hm : ∀ y ∈ m, some x ≠ some y := by
    rintro y hy he
    exact hx (Option.some.inj he ▸ hy)
  refine ⟨by simp, ?_⟩
  rw [seg_update (by simp) (by simp)]
  cases m with
  | nil =>
    have h0 : f none = none := h
    simp [Seg, h0]
  | cons y m =>
    have hxy : some x ≠ some y := hm y (by simp)
    refine ⟨by simp [h.1], ?_⟩
    rw [seg_update hxy (fun z hz => hm z (by simp [hz]))]
    exact h.2

theorem Seg.push_back (h : Seg f none m none) (hm : m.Nodup) (hx : x ∉ m) :
    Seg (update (update f (some x) none) m.getLast? (some x)) none (m ++ [x])
      none := by
  have hxm : ∀ y ∈ m, some x ≠ some y := by
    rintro y hy he
    exact hx (Option.some.inj he ▸ hy)
  have hne : m.getLast? ≠ some x := fun he => hx (List.mem_of_getLast? he)
  rw [seg_append_cons]
  refine ⟨Seg.redirect ((seg_update (by simp) hxm).mpr h) hm, ?_⟩
  simp [Seg, update_of_ne hne.symm]

namespace Ring

variable {next prev : Option α → Option α} {b : α}

/-- Unlinking a node from both directions. -/
theorem unlink (h : Ring next prev (l ++ b :: m)) :
    Ring (update next (prev (some b)) (next (some b)))
      (update prev (next (some b)) (prev (some b))) (l ++ m) where
  nodup := h.nodup.sublist (List.Sublist.append_left (List.sublist_cons_self b m) l)
  forward := by
    rw [h.prev_eq]
    exact h.forward.unlink h.nodup
  backward := by
    have hb := h.backward
    have hn := List.nodup_reverse.mpr h.nodup
    rw [List.reverse_append, List.reverse_cons, List.append_assoc, List.singleton_append] at hb hn
    rw [h.next_eq, ← List.getLast?_reverse, List.reverse_append]
    exact hb.unlink hn

/-- Linking a new node in right after the head. -/
theorem push (h : Ring next prev m) (hb : b ∉ m) :
    Ring (update (update next (some b) (next none)) none (some b))
      (update (update prev (some b) none) (next none) (some b)) (b :: m) where
  nodup := List.nodup_cons.mpr ⟨hb, h.nodup⟩
  forward := h.forward.push_front hb
  backward := by
    rw [h.forward.head_eq, ← List.getLast?_reverse, List.reverse_cons]
    exact h.backward.push_back (List.nodup_reverse.mpr h.nodup) (by simpa using hb)

end Ring

end Xv6

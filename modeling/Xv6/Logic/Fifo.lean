import Mathlib.Tactic

/-! # Ring buffers with free-running counters

A buffer of `S` cells whose read and write counters run modulo `M`, a multiple
of `S`. `Fifo S M data r w q` says that the buffer holds the queue `q`, with its
first element at the read counter.
-/

namespace Xv6

open Function

variable {α : Type} {S M r w : ℕ} {data : ℕ → α} {q : List α} {x : α}

structure Fifo (S M : ℕ) (data : ℕ → α) (r w : ℕ) (q : List α) : Prop where
  dvd : S ∣ M
  lt : S < M
  bound : r < M
  next : w = (r + q.length) % M
  le : q.length ≤ S
  cell : ∀ j (h : j < q.length), data ((r + j) % S) = q[j]

namespace Fifo

theorem length_eq (h : Fifo S M data r w q) : (w + M - r) % M = q.length := by
  have h₁ := h.lt
  have h₂ := h.bound
  have h₃ := h.le
  have hmod := Nat.mod_lt (r + q.length) (show 0 < M by omega)
  rw [h.next]
  rcases Nat.lt_or_ge (r + q.length) M with hlt | hge
  · rw [Nat.mod_eq_of_lt hlt, show r + q.length + M - r = q.length + M by omega,
      Nat.add_mod_right, Nat.mod_eq_of_lt (by omega)]
  · rw [Nat.mod_eq_sub_mod hge, Nat.mod_eq_of_lt (show r + q.length - M < M by omega),
      show r + q.length - M + M - r = q.length by omega, Nat.mod_eq_of_lt (by omega)]

/-- The counters agree exactly when nothing is queued. -/
theorem empty_iff (h : Fifo S M data r w q) : r = w ↔ q = [] := by
  have hlen := h.length_eq
  have := h.bound
  constructor
  · rintro rfl
    rw [Nat.add_sub_cancel_left, Nat.mod_self] at hlen
    exact List.length_eq_zero_iff.mp hlen.symm
  · rintro rfl
    rw [h.next, List.length_nil, Nat.add_zero, Nat.mod_eq_of_lt h.bound]

/-- The write counter is `S` ahead exactly when all cells are in use. -/
theorem full_iff (h : Fifo S M data r w q) : w = (r + S) % M ↔ q.length = S := by
  have h₁ := h.lt
  have h₂ := h.bound
  have h₃ := h.le
  rw [h.next]
  constructor
  · intro he
    rcases Nat.lt_or_ge (r + q.length) M with hlt | hge <;>
      rcases Nat.lt_or_ge (r + S) M with hlt' | hge'
    · rw [Nat.mod_eq_of_lt hlt, Nat.mod_eq_of_lt hlt'] at he
      omega
    · rw [Nat.mod_eq_of_lt hlt, Nat.mod_eq_sub_mod hge', Nat.mod_eq_of_lt (by omega)] at he
      omega
    · omega
    · rw [Nat.mod_eq_sub_mod hge, Nat.mod_eq_sub_mod hge',
        Nat.mod_eq_of_lt (show r + q.length - M < M by omega),
        Nat.mod_eq_of_lt (show r + S - M < M by omega)] at he
      omega
  · intro he
    rw [he]

theorem index (h : Fifo S M data r w q) : w % S = (r + q.length) % S := by
  rw [h.next, Nat.mod_mod_of_dvd _ h.dvd]

/-- Cells less than `S` apart are different. -/
theorem mod_ne {a j k : ℕ} (hjk : j < k) (hk : k < j + S) : (a + j) % S ≠ (a + k) % S := by
  intro he
  have h₁ : (a + k - (a + j)) % S = 0 := Nat.sub_mod_eq_zero_of_mod_eq he.symm
  rw [show a + k - (a + j) = k - j by omega, Nat.mod_eq_of_lt (by omega)] at h₁
  omega

theorem put (h : Fifo S M data r w q) (hlt : q.length < S) (x : α) :
    Fifo S M (update data (w % S) x) r ((w + 1) % M) (q ++ [x]) where
  dvd := h.dvd
  lt := h.lt
  bound := h.bound
  next := by
    rw [h.next, Nat.mod_add_mod, List.length_append, List.length_singleton, Nat.add_assoc]
  le := by
    rw [List.length_append, List.length_singleton]
    exact hlt
  cell j hj := by
    rw [List.length_append, List.length_singleton] at hj
    rw [h.index]
    rcases Nat.lt_succ_iff_lt_or_eq.mp hj with hj | rfl
    · rw [update_of_ne (mod_ne hj (by omega)), h.cell j hj, List.getElem_append_left hj]
    · rw [update_self, List.getElem_concat_length rfl]

/-- The cell at the write counter can be filled before the counter moves. -/
theorem fill (h : Fifo S M data r w q) (hlt : q.length < S) (x : α) :
    Fifo S M (update data (w % S) x) r w q where
  dvd := h.dvd
  lt := h.lt
  bound := h.bound
  next := h.next
  le := h.le
  cell j hj := by
    rw [h.index, update_of_ne (mod_ne hj (by omega)), h.cell j hj]

theorem advance (h : Fifo S M data r w q) (hlt : q.length < S) (hx : data (w % S) = x) :
    Fifo S M data r ((w + 1) % M) (q ++ [x]) := by
  subst hx
  have := h.put hlt (data (w % S))
  rwa [update_eq_self] at this

theorem get (h : Fifo S M data r w (x :: q)) :
    data (r % S) = x ∧ Fifo S M data ((r + 1) % M) w q := by
  refine ⟨?_, h.dvd, h.lt, Nat.mod_lt _ (Nat.zero_lt_of_lt h.lt), ?_, ?_, fun j hj => ?_⟩
  · exact h.cell 0 (Nat.zero_lt_succ _)
  · rw [h.next, Nat.mod_add_mod, List.length_cons, Nat.add_assoc, Nat.add_comm 1]
  · exact Nat.le_of_succ_le h.le
  · have := h.cell (j + 1) (Nat.succ_lt_succ hj)
    rw [List.getElem_cons_succ] at this
    rw [← this, ← Nat.mod_add_mod, Nat.mod_mod_of_dvd _ h.dvd, Nat.mod_add_mod, Nat.add_assoc,
      Nat.add_comm 1]

/-- The oldest elements alone, with the counter after them. -/
theorem left {q' : List α} (h : Fifo S M data r w (q ++ q')) :
    Fifo S M data r ((r + q.length) % M) q where
  dvd := h.dvd
  lt := h.lt
  bound := h.bound
  next := rfl
  le := by
    have := h.le
    rw [List.length_append] at this
    omega
  cell j hj := by
    have := h.cell j (by rw [List.length_append]; omega)
    rwa [List.getElem_append_left hj] at this

/-- The newest element is taken back. -/
theorem unput (h : Fifo S M data r w (q ++ [x])) :
    data ((w + M - 1) % M % S) = x ∧ Fifo S M data r ((w + M - 1) % M) q := by
  have hlt := h.lt
  have hb := h.bound
  have hw : (w + M - 1) % M = (r + q.length) % M := by
    rw [h.next, List.length_append, List.length_singleton, ← Nat.add_assoc]
    rcases Nat.lt_or_ge (r + q.length + 1) M with h₁ | h₁
    · rw [Nat.mod_eq_of_lt h₁, show r + q.length + 1 + M - 1 = r + q.length + M by omega,
        Nat.add_mod_right]
    · have hle := h.le
      rw [List.length_append, List.length_singleton] at hle
      rw [Nat.mod_eq_sub_mod h₁, Nat.mod_eq_of_lt (show r + q.length + 1 - M < M by omega),
        show r + q.length + 1 - M + M - 1 = r + q.length by omega]
  refine ⟨?_, hw ▸ h.left⟩
  have := h.cell q.length (by simp)
  rwa [List.getElem_concat_length rfl, ← Nat.mod_mod_of_dvd _ h.dvd, ← hw] at this

theorem nil (hd : S ∣ M) (hlt : S < M) (data : ℕ → α) : Fifo S M data 0 0 [] where
  dvd := hd
  lt := hlt
  bound := Nat.zero_lt_of_lt hlt
  next := rfl
  le := Nat.zero_le _
  cell _ hj := absurd hj (Nat.not_lt_zero _)

end Fifo

end Xv6

import Mathlib.Tactic

/-! # Weakest preconditions for state with abrupt termination

A command of `EStateM ε σ` either returns a value in a new state or stops with
an error. `wp m E Q s` says that `m`, run from `s`, returns inside `Q` or stops
inside `E`.
-/

namespace Xv6

variable {ε σ α β : Type}

/-- Run from `s`, `m` returns in `Q` or stops in `E`. -/
def wp (m : EStateM ε σ α) (E : ε → σ → Prop) (Q : α → σ → Prop) (s : σ) : Prop :=
  match m s with
  | .ok a s' => Q a s'
  | .error e s' => E e s'

/-- Run `m` only if `c` holds. -/
def runIf (c : Prop) [Decidable c] (m : EStateM ε σ Unit) : EStateM ε σ Unit :=
  if c then m else pure ()

/-- Stop with `e` if `c` holds. -/
def stopIf (c : Prop) [Decidable c] (e : ε) : EStateM ε σ Unit := runIf c (throw e)

/-- If `m` returns, then in `Q`. -/
abbrev Ensures (m : EStateM ε σ α) (Q : α → σ → Prop) (s : σ) : Prop := wp m (fun _ _ => True) Q s

variable {E E' : ε → σ → Prop} {Q Q' : α → σ → Prop} {s s' : σ} {m : EStateM ε σ α}

theorem wp_iff :
    wp m E Q s ↔ (∀ a s', m s = .ok a s' → Q a s') ∧ (∀ e s', m s = .error e s' → E e s') := by
  unfold wp
  cases h : m s <;> simp

instance wp.decidable {m : EStateM ε σ α} [∀ e s, Decidable (E e s)] [∀ a s, Decidable (Q a s)] :
    Decidable (wp m E Q s) :=
  match h : m s with
  | .ok a s' => decidable_of_iff (Q a s') (by rw [wp, h])
  | .error e s' => decidable_of_iff (E e s') (by rw [wp, h])

theorem wp.ok {a : α} (h : wp m E Q s) (hm : m s = .ok a s') : Q a s' :=
  (wp_iff.mp h).1 a s' hm

theorem wp_of_eq {a : α} (hm : m s = .ok a s') : wp m E Q s ↔ Q a s' := by
  rw [wp, hm]

theorem wp_congr_at {m' : EStateM ε σ α} (hm : m s = m' s) : wp m E Q s ↔ wp m' E Q s := by
  rw [wp, wp, hm]

theorem wp.error {e : ε} (h : wp m E Q s) (hm : m s = .error e s') : E e s' :=
  (wp_iff.mp h).2 e s' hm

theorem wp.mono (h : wp m E Q s) (hE : ∀ e s', E e s' → E' e s') (hQ : ∀ a s', Q a s' → Q' a s') :
    wp m E' Q' s := by
  rw [wp_iff] at h ⊢
  exact ⟨fun a s' hm => hQ a s' (h.1 a s' hm), fun e s' hm => hE e s' (h.2 e s' hm)⟩

theorem wp.post (h : wp m E Q s) (hQ : ∀ a s', Q a s' → Q' a s') : wp m E Q' s :=
  h.mono (fun _ _ he => he) hQ

theorem wp.and (h : wp m E Q s) (h' : wp m E' Q' s) :
    wp m (fun e s' => E e s' ∧ E' e s') (fun a s' => Q a s' ∧ Q' a s') s := by
  rw [wp_iff] at h h' ⊢
  exact ⟨fun a s' hm => ⟨h.1 a s' hm, h'.1 a s' hm⟩, fun e s' hm => ⟨h.2 e s' hm, h'.2 e s' hm⟩⟩

/-- What is known of the result is also known to be the result. -/
theorem wp.run (h : wp m E Q s) : wp m E (fun a s' => m s = .ok a s' ∧ Q a s') s :=
  wp_iff.mpr ⟨fun _ _ hm => ⟨hm, h.ok hm⟩, fun _ _ hm => h.error hm⟩

/-- A command that does not stop returns. -/
theorem wp.returns (h : wp m (fun _ _ => False) Q s) : ∃ a s', m s = .ok a s' ∧ Q a s' := by
  cases hm : m s with
  | ok a s' => exact ⟨a, s', rfl, h.ok hm⟩
  | error e s' => exact (h.error hm).elim

@[simp] theorem wp_pure {a : α} : wp (pure a : EStateM ε σ α) E Q s ↔ Q a s := Iff.rfl

@[simp] theorem wp_throw {e : ε} : wp (throw e : EStateM ε σ α) E Q s ↔ E e s := Iff.rfl

@[simp] theorem wp_bind {m : EStateM ε σ β} {f : β → EStateM ε σ α} :
    wp (m >>= f) E Q s ↔ wp m E (fun b s' => wp (f b) E Q s') s := by
  simp only [wp, bind, EStateM.bind]
  cases m s <;> rfl

@[simp] theorem wp_map {m : EStateM ε σ β} {f : β → α} :
    wp (f <$> m) E Q s ↔ wp m E (fun b s' => Q (f b) s') s := by
  simp only [wp, Functor.map, EStateM.map]
  cases m s <;> rfl

@[simp] theorem wp_get {Q : σ → σ → Prop} :
    wp (get : EStateM ε σ σ) E Q s ↔ Q s s := Iff.rfl

@[simp] theorem wp_set {t : σ} {Q : PUnit → σ → Prop} :
    wp (set t : EStateM ε σ PUnit) E Q s ↔ Q ⟨⟩ t := Iff.rfl

@[simp] theorem wp_modify {f : σ → σ} {Q : PUnit → σ → Prop} :
    wp (modify f : EStateM ε σ PUnit) E Q s ↔ Q ⟨⟩ (f s) := Iff.rfl

@[simp] theorem wp_runIf {c : Prop} [Decidable c] {m : EStateM ε σ Unit} {Q : Unit → σ → Prop} :
    wp (runIf c m) E Q s ↔ (c → wp m E Q s) ∧ (¬ c → Q () s) := by
  unfold runIf
  split <;> simp_all

@[simp] theorem wp_stopIf {c : Prop} [Decidable c] {e : ε} {Q : Unit → σ → Prop} :
    wp (stopIf c e) E Q s ↔ (c → E e s) ∧ (¬ c → Q () s) := by
  simp [stopIf]

theorem wp_ite {c : Prop} [Decidable c] {m' : EStateM ε σ α} :
    wp (if c then m else m') E Q s ↔ (c → wp m E Q s) ∧ (¬ c → wp m' E Q s) := by
  split <;> simp_all

end Xv6

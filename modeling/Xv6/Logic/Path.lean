import Mathlib.Tactic

/-! # Paths through pointers

A successor function links nodes into paths. A path from a node back to itself
is a ring, and a ring can be walked from each of its nodes.
-/

namespace Xv6

variable {α : Type}

/-- Following `f` from `a` visits the nodes of `l` in order and then arrives at `b`. -/
def Path (f : α → α) : α → List α → α → Prop
  | a, [], b => f a = b
  | a, x :: l, b => f a = x ∧ Path f x l b

variable {f g : α → α} {a b c x y : α} {l m : List α}

/-- The last node of a path that starts at `a`. -/
def lastOf (a : α) (l : List α) : α := (a :: l).getLast (List.cons_ne_nil a l)

@[simp] theorem lastOf_nil : lastOf a [] = a := rfl

@[simp] theorem lastOf_cons : lastOf a (x :: l) = lastOf x l := List.getLast_cons (by simp)

@[simp] theorem lastOf_append_cons : lastOf a (l ++ x :: m) = lastOf x m := by
  induction l generalizing a with
  | nil => exact lastOf_cons
  | cons y l ih => rw [List.cons_append, lastOf_cons, ih]

theorem lastOf_mem : lastOf a l ∈ a :: l := List.getLast_mem _

theorem path_append_cons : Path f a (l ++ x :: m) b ↔ Path f a l x ∧ Path f x m b := by
  induction l generalizing a with
  | nil => rfl
  | cons y l ih => simp [Path, ih, and_assoc]

namespace Path

theorem map_eq (h : Path f a l b) : (a :: l).map f = l ++ [b] := by
  induction l generalizing a with
  | nil => exact congrArg (· :: []) h
  | cons x l ih => rw [List.map_cons, ih h.2, h.1, List.cons_append]

/-- A path can start at another node with the same link. -/
theorem start (h : Path f a l b) (hc : g c = f a) (hg : ∀ x ∈ l, g x = f x) : Path g c l b := by
  induction l generalizing a c with
  | nil => exact hc.trans h
  | cons x l ih =>
    exact ⟨hc.trans h.1, ih h.2 (hg x List.mem_cons_self) fun y hy => hg y (List.mem_cons_of_mem _ hy)⟩

theorem congr (h : Path f a l b) (hg : ∀ x ∈ a :: l, g x = f x) : Path g a l b :=
  h.start (hg a List.mem_cons_self) fun x hx => hg x (List.mem_cons_of_mem _ hx)

theorem last_eq (h : Path f a l b) : f (lastOf a l) = b := by
  induction l generalizing a with
  | nil => exact h
  | cons x l ih => exact lastOf_cons (a := a) ▸ ih h.2

/-- The first part of a path. -/
theorem left (h : Path f a (l ++ m) b) : ∃ c, Path f a l c := by
  cases m with
  | nil => exact ⟨b, List.append_nil l ▸ h⟩
  | cons x m => exact ⟨x, (path_append_cons.mp h).1⟩

/-- The second part of a path. -/
theorem right (h : Path f a (l ++ m) b) : Path f (lastOf a l) m b := by
  induction l generalizing a with
  | nil => exact h
  | cons x l ih => exact lastOf_cons (a := a) ▸ ih h.2

/-- Changing the last link of a path changes where the path arrives. -/
theorem redirect (h : Path f a l b) (hn : (a :: l).Nodup)
    (hg : ∀ x ∈ a :: l, x ≠ lastOf a l → g x = f x) (hc : g (lastOf a l) = c) : Path g a l c := by
  induction l generalizing a with
  | nil => exact hc
  | cons x l ih =>
    rw [lastOf_cons] at hg hc
    obtain ⟨ha, hn⟩ := List.nodup_cons.mp hn
    refine ⟨?_, ih h.2 hn (fun y hy => hg y (List.mem_cons_of_mem _ hy)) hc⟩
    rw [hg a List.mem_cons_self fun he => ha (he ▸ lastOf_mem), h.1]

/-- A path that arrives behind `x` goes on as the path from `x`. -/
theorem skip (h : Path f a l (f x)) (hx : Path f x m b) : Path f a (l ++ m) b := by
  cases m with
  | nil => rwa [List.append_nil, ← show f x = b from hx]
  | cons y m => exact path_append_cons.mpr ⟨hx.1 ▸ h, hx.2⟩

/-- A ring as a walk from one of its nodes. -/
theorem rotate (h : Path f a l a) (hx : x ∈ a :: l) :
    ∃ m, Path f x m x ∧ (x :: m).Perm (a :: l) := by
  rcases List.mem_cons.mp hx with rfl | hx
  · exact ⟨l, h, .refl _⟩
  · obtain ⟨l₁, l₂, rfl⟩ := List.append_of_mem hx
    obtain ⟨h₁, h₂⟩ := path_append_cons.mp h
    have hperm : (x :: l₂ ++ a :: l₁).Perm (a :: l₁ ++ x :: l₂) := List.perm_append_comm
    exact ⟨l₂ ++ a :: l₁, path_append_cons.mpr ⟨h₂, h₁⟩, hperm⟩

/-- The node in front of a node of a ring. -/
theorem pred (h : Path f a (l ++ x :: m) a) (hn : (a :: (l ++ x :: m)).Nodup)
    (hy : y ∈ a :: (l ++ x :: m)) (hyx : f y = x) : y = lastOf a l := by
  have hinj : ((a :: (l ++ x :: m)).map f).Nodup := by
    rw [h.map_eq]
    exact (List.perm_append_singleton a _).nodup_iff.mpr hn
  refine List.inj_on_of_nodup_map hinj hy ?_ ?_
  · rcases List.mem_cons.mp (lastOf_mem (a := a) (l := l)) with he | he
    · exact List.mem_cons.mpr (.inl he)
    · exact List.mem_cons_of_mem _ (List.mem_append_left _ he)
  · rw [hyx, (path_append_cons.mp h).1.last_eq]

end Path

end Xv6

import Mathlib.Tactic

/-! # Radix trees in memory

A memory gives each node, by its address, `W` entries. An entry may name a child
node, so that a node of height `n` is the root of a tree of nodes; a key selects
one entry at each height. The tree depends on its own nodes only, an entry of
height 0 can be changed without changing the tree, and a change of one branch
leaves the others alone.
-/

namespace Xv6

/-- Nodes of `W` entries, which of them name a child, and the entry of a fresh node. -/
structure Radix (α : Type) where
  W : ℕ
  child : α → Option ℕ
  blank : α
  pos : 0 < W
  child_blank : child blank = none

variable {l : ℕ × ℕ}

namespace Radix

variable {α : Type} (R : Radix α) (g g' : ℕ → ℕ → α) {n p q i k v v' : ℕ}

/-- The index that the key `v` selects at height `n`. -/
def idx (n v : ℕ) : ℕ := v / R.W ^ n % R.W

/-- The addresses of the nodes of the tree of height `n` at `p`. -/
@[grind =] def nodes : ℕ → ℕ → Multiset ℕ
  | 0, p => {p}
  | n + 1, p => p ::ₘ ∑ i ∈ Finset.range R.W, (R.child (g p i)).elim 0 (nodes n)

/-- Where the entry of the key `v` is stored. -/
def find : ℕ → ℕ → ℕ → Option (ℕ × ℕ)
  | 0, p, v => some (p, R.idx 0 v)
  | n + 1, p, v => (R.child (g p (R.idx (n + 1) v))).bind fun c => find n c v

def look (n p v : ℕ) : α := (R.find g n p v).elim R.blank fun l => g l.1 l.2

/-- Every entry satisfies `P` at its height. -/
def Each (P : ℕ → α → Prop) : ℕ → ℕ → Prop
  | 0, p => ∀ i < R.W, P 0 (g p i)
  | n + 1, p => ∀ i < R.W, P (n + 1) (g p i) ∧ ∀ c, R.child (g p i) = some c → Each P n c

/-- The nodes below one entry, and below all other entries of the node. -/
@[grind =] def branch (n : ℕ) (e : α) : Multiset ℕ := (R.child e).elim 0 (R.nodes g n)

def siblings (n p i : ℕ) : Multiset ℕ :=
  ∑ j ∈ (Finset.range R.W).erase i, R.branch g n (g p j)

variable {R g g'} {P : ℕ → α → Prop} {w : α}

theorem idx_lt : R.idx n v < R.W := Nat.mod_lt _ R.pos

theorem mem_self : p ∈ R.nodes g n p := by
  cases n with
  | zero => exact Multiset.mem_singleton_self p
  | succ n => exact Multiset.mem_cons_self p _

theorem nodes_succ (hi : i < R.W) :
    R.nodes g (n + 1) p = p ::ₘ (R.branch g n (g p i) + R.siblings g n p i) := by
  rw [nodes, siblings]
  exact congrArg _ (Finset.add_sum_erase _ (fun j => R.branch g n (g p j))
    (Finset.mem_range.mpr hi)).symm

theorem branch_of_child {e : α} {c : ℕ} (h : R.child e = some c) :
    R.branch g n e = R.nodes g n c := by
  rw [branch, h]
  rfl

theorem mem_child {c : ℕ} (hi : i < R.W) (hc : R.child (g p i) = some c) (hq : q ∈ R.nodes g n c) :
    q ∈ R.nodes g (n + 1) p := by
  rw [nodes_succ hi, branch_of_child hc]
  exact Multiset.mem_cons_of_mem (Multiset.mem_add.mpr (.inl hq))

theorem mem_siblings {j c : ℕ} (hj : j < R.W) (hji : j ≠ i) (hc : R.child (g p j) = some c)
    (hq : q ∈ R.nodes g n c) : q ∈ R.siblings g n p i := by
  refine Multiset.mem_sum.mpr ⟨j, Finset.mem_erase.mpr ⟨hji, Finset.mem_range.mpr hj⟩, ?_⟩
  rwa [branch_of_child hc]

theorem find_mem (h : R.find g n p v = some l) : l.1 ∈ R.nodes g n p ∧ l.2 < R.W := by
  induction n generalizing p with
  | zero =>
    cases h
    exact ⟨Multiset.mem_singleton_self p, idx_lt⟩
  | succ n ih =>
    obtain ⟨c, hc, hl⟩ := Option.bind_eq_some_iff.mp h
    exact ⟨mem_child idx_lt hc (ih hl).1, (ih hl).2⟩

theorem each_find (he : R.Each g P n p) (h : R.find g n p v = some l) : P 0 (g l.1 l.2) := by
  induction n generalizing p with
  | zero =>
    cases h
    exact he _ idx_lt
  | succ n ih =>
    obtain ⟨c, hc, hl⟩ := Option.bind_eq_some_iff.mp h
    exact ih ((he _ idx_lt).2 c hc) hl

theorem each_mono {P' : ℕ → α → Prop} (h : ∀ n e, P n e → P' n e) (he : R.Each g P n p) :
    R.Each g P' n p := by
  induction n generalizing p with
  | zero => exact fun i hi => h 0 _ (he i hi)
  | succ n ih => exact fun i hi => ⟨h _ _ (he i hi).1, fun c hc => ih ((he i hi).2 c hc)⟩

/-! ## Unchanged nodes -/

theorem nodes_congr (h : ∀ q ∈ R.nodes g n p, ∀ i < R.W, g' q i = g q i) :
    R.nodes g' n p = R.nodes g n p := by
  induction n generalizing p with
  | zero => rfl
  | succ n ih =>
    rw [nodes, nodes]
    congr 1
    refine Finset.sum_congr rfl fun i hi => ?_
    have hi := Finset.mem_range.mp hi
    rw [h p mem_self i hi]
    cases hc : R.child (g p i) with
    | none => rfl
    | some c => exact ih fun q hq => h q (mem_child hi hc hq)

theorem find_congr (h : ∀ q ∈ R.nodes g n p, ∀ i < R.W, g' q i = g q i) :
    R.find g' n p v = R.find g n p v := by
  induction n generalizing p with
  | zero => rfl
  | succ n ih =>
    rw [find, find, h p mem_self _ idx_lt]
    cases hc : R.child (g p (R.idx (n + 1) v)) with
    | none => rfl
    | some c => exact ih fun q hq => h q (mem_child idx_lt hc hq)

theorem look_congr (h : ∀ q ∈ R.nodes g n p, ∀ i < R.W, g' q i = g q i) :
    R.look g' n p v = R.look g n p v := by
  rw [look, look, find_congr h]
  cases hl : R.find g n p v with
  | none => rfl
  | some l => exact h l.1 (find_mem hl).1 l.2 (find_mem hl).2

theorem each_congr (h : ∀ q ∈ R.nodes g n p, ∀ i < R.W, g' q i = g q i) (he : R.Each g P n p) :
    R.Each g' P n p := by
  induction n generalizing p with
  | zero =>
    intro i hi
    rw [h p mem_self i hi]
    exact he i hi
  | succ n ih =>
    intro i hi
    rw [h p mem_self i hi]
    refine ⟨(he i hi).1, fun c hc => ?_⟩
    exact ih (fun q hq => h q (mem_child hi hc hq)) ((he i hi).2 c hc)

/-! ## Fresh nodes -/

theorem nodes_blank (h : ∀ i < R.W, g p i = R.blank) : R.nodes g n p = {p} := by
  cases n with
  | zero => rfl
  | succ n =>
    rw [nodes, Finset.sum_eq_zero]
    · rfl
    · intro i hi
      rw [h i (Finset.mem_range.mp hi), R.child_blank]
      rfl

theorem look_blank (h : ∀ i < R.W, g p i = R.blank) : R.look g n p v = R.blank := by
  cases n with
  | zero => exact h _ idx_lt
  | succ n =>
    rw [look, find, h _ idx_lt, R.child_blank]
    rfl

theorem each_blank (h : ∀ i < R.W, g p i = R.blank) (hP : ∀ n, P n R.blank) : R.Each g P n p := by
  cases n with
  | zero =>
    intro i hi
    rw [h i hi]
    exact hP 0
  | succ n =>
    intro i hi
    rw [h i hi, R.child_blank]
    exact ⟨hP _, nofun⟩

/-! ## Changes of one branch -/

/-- Between `g` and `g'` the node `p` and the trees below it change at most below entry `i`. -/
structure Below (R : Radix α) (g g' : ℕ → ℕ → α) (n p i : ℕ) : Prop where
  lt : i < R.W
  entry : ∀ j < R.W, j ≠ i → g' p j = g p j
  others : ∀ q ∈ R.siblings g n p i, ∀ j < R.W, g' q j = g q j

namespace Below

variable {c : ℕ}

theorem tree (h : Below R g g' n p i) {j : ℕ} (hj : j < R.W) (hji : j ≠ i)
    (hc : R.child (g p j) = some c) : ∀ q ∈ R.nodes g n c, ∀ k < R.W, g' q k = g q k :=
  fun q hq => h.others q (mem_siblings hj hji hc hq)

theorem nodes_eq (h : Below R g g' n p i) :
    R.nodes g' (n + 1) p = p ::ₘ (R.branch g' n (g' p i) + R.siblings g n p i) := by
  rw [nodes_succ h.lt]
  congr 2
  refine Finset.sum_congr rfl fun j hj => ?_
  obtain ⟨hji, hj⟩ := Finset.mem_erase.mp hj
  have hj := Finset.mem_range.mp hj
  rw [h.entry j hj hji]
  cases hc : R.child (g p j) with
  | none => rw [branch, branch, hc]; rfl
  | some c => rw [branch_of_child hc, branch_of_child hc, nodes_congr (h.tree hj hji hc)]

theorem look_of_ne (h : Below R g g' n p i) (hv : R.idx (n + 1) v ≠ i) :
    R.look g' (n + 1) p v = R.look g (n + 1) p v := by
  rw [look, look, find, find, h.entry _ idx_lt hv]
  cases hc : R.child (g p (R.idx (n + 1) v)) with
  | none => rfl
  | some c => exact look_congr (h.tree idx_lt hv hc)

theorem each (h : Below R g g' n p i) (he : R.Each g P (n + 1) p) (hP : P (n + 1) (g' p i))
    (hc : ∀ c, R.child (g' p i) = some c → R.Each g' P n c) : R.Each g' P (n + 1) p := by
  intro j hj
  rcases eq_or_ne j i with rfl | hji
  · exact ⟨hP, hc⟩
  · rw [h.entry j hj hji]
    exact ⟨(he j hj).1, fun c hc => each_congr (h.tree hj hji hc) ((he j hj).2 c hc)⟩

end Below

theorem find_succ {c : ℕ} (hc : R.child (g p (R.idx (n + 1) v)) = some c) :
    R.find g (n + 1) p v = R.find g n c v := by
  rw [find, hc]
  rfl

theorem look_succ {c : ℕ} (hc : R.child (g p (R.idx (n + 1) v)) = some c) :
    R.look g (n + 1) p v = R.look g n c v := by
  rw [look, look, find_succ hc]

theorem look_succ_of_none (hc : R.child (g p (R.idx (n + 1) v)) = none) :
    R.look g (n + 1) p v = R.blank := by
  rw [look, find, hc]
  rfl

/-! ## Changes of an entry of height 0 -/

/-- The keys select the same entry. -/
def Same (R : Radix α) (n v v' : ℕ) : Prop := ∀ j ≤ n, R.idx j v' = R.idx j v

/-- What a change of the entry found for `v` does. -/
structure Assigned (R : Radix α) (g g' : ℕ → ℕ → α) (P : ℕ → α → Prop) (n p v : ℕ) (w : α) :
    Prop where
  nodes : R.nodes g' n p = R.nodes g n p
  same : ∀ v', R.Same n v v' → R.look g' n p v' = w
  other : ∀ v', ¬ R.Same n v v' → R.look g' n p v' = R.look g n p v'
  each : R.Each g' P n p

theorem assign (hl : R.find g n p v = some l) (hd : (R.nodes g n p).Nodup)
    (hg : ∀ q j, j < R.W → (q, j) ≠ l → g' q j = g q j) (hw : g' l.1 l.2 = w) (he : R.Each g P n p)
    (hP : P 0 w) : Assigned R g g' P n p v w := by
  induction n generalizing p with
  | zero =>
    cases hl
    have hlook : ∀ v', R.look g' 0 p v' = g' p (R.idx 0 v') := fun _ => rfl
    refine ⟨rfl, fun v' hs => ?_, fun v' hs => ?_, fun i hi => ?_⟩
    · rw [hlook, hs 0 le_rfl]
      exact hw
    · rw [hlook, hg p _ idx_lt]
      · rfl
      · intro h
        refine hs fun j hj => ?_
        obtain rfl := Nat.le_zero.mp hj
        exact (Prod.ext_iff.mp h).2
    · rcases eq_or_ne i (R.idx 0 v) with rfl | hne
      · rw [hw]
        exact hP
      · rw [hg p i hi fun h => hne (Prod.ext_iff.mp h).2]
        exact he i hi
  | succ n ih =>
    obtain ⟨c, hc, hlc⟩ := Option.bind_eq_some_iff.mp hl
    have hmem := (find_mem hlc).1
    rw [nodes_succ (i := R.idx (n + 1) v) idx_lt, branch_of_child hc] at hd
    obtain ⟨hp, hd⟩ := Multiset.nodup_cons.mp hd
    obtain ⟨hdc, -, hdisj⟩ := Multiset.nodup_add.mp hd
    have hpl : p ≠ l.1 := fun h => hp (Multiset.mem_add.mpr (.inl (h ▸ hmem)))
    have hgp : ∀ j < R.W, g' p j = g p j := fun j hj =>
      hg p j hj fun h => hpl (congrArg Prod.fst h)
    have hb : Below R g g' n p (R.idx (n + 1) v) := by
      refine ⟨idx_lt, fun j hj _ => hgp j hj, fun q hq j hj => hg q j hj fun h => ?_⟩
      have hql : q = l.1 := congrArg Prod.fst h
      exact Multiset.disjoint_left.mp hdisj hmem (hql ▸ hq)
    have hc' : R.child (g' p (R.idx (n + 1) v)) = some c := by rw [hgp _ idx_lt, hc]
    have hrec := ih hlc hdc ((he _ idx_lt).2 c hc)
    have hstep : ∀ v', R.Same (n + 1) v v' ↔ R.idx (n + 1) v' = R.idx (n + 1) v ∧ R.Same n v v' := by
      intro v'
      refine ⟨fun h => ⟨h _ le_rfl, fun j hj => h j (by omega)⟩, fun h j hj => ?_⟩
      rcases Nat.lt_or_eq_of_le hj with hj | rfl
      · exact h.2 j (by omega)
      · exact h.1
    refine ⟨?_, fun v' hs => ?_, fun v' hs => ?_, ?_⟩
    · rw [hb.nodes_eq, branch_of_child hc', hrec.nodes, nodes_succ (i := R.idx (n + 1) v) idx_lt,
        branch_of_child hc]
    · obtain ⟨hi, hs⟩ := (hstep v').mp hs
      rw [look_succ (hi ▸ hc')]
      exact hrec.same v' hs
    · by_cases hi : R.idx (n + 1) v' = R.idx (n + 1) v
      · rw [look_succ (hi ▸ hc'), look_succ (hi ▸ hc)]
        exact hrec.other v' fun h => hs ((hstep v').mpr ⟨hi, h⟩)
      · exact hb.look_of_ne hi
    · refine hb.each he ?_ fun c' hcc => ?_
      · rw [hgp _ idx_lt]
        exact (he _ idx_lt).1
      · cases hc'.symm.trans hcc
        exact hrec.each

/-- Different keys that fit the height select different entries. -/
theorem eq_of_same (h : R.Same n v v') (hv : v < R.W ^ (n + 1)) (hv' : v' < R.W ^ (n + 1)) :
    v' = v := by
  have key : ∀ m, m ≤ n + 1 → v' % R.W ^ m = v % R.W ^ m := by
    intro m
    induction m with
    | zero => simp [Nat.mod_one]
    | succ m ih =>
      intro hm
      rw [pow_succ, Nat.mod_mul, Nat.mod_mul, ih (by omega)]
      exact congrArg (fun x => v % R.W ^ m + R.W ^ m * x) (h m (by omega))
  have := key (n + 1) le_rfl
  rwa [Nat.mod_eq_of_lt hv, Nat.mod_eq_of_lt hv'] at this

/-! ## All keys -/

theorem idx_add {j : ℕ} (hj : j ≤ n) : R.idx j (v + i * R.W ^ (n + 1)) = R.idx j v := by
  have hpow : R.W ^ (n + 1) = R.W ^ j * R.W ^ (n - j) * R.W := by
    rw [← pow_add, ← pow_succ]
    congr 1
    omega
  rw [idx, idx, hpow, show v + i * (R.W ^ j * R.W ^ (n - j) * R.W) =
      v + R.W ^ j * (i * R.W ^ (n - j) * R.W) by ring,
    Nat.add_mul_div_left _ _ (Nat.pow_pos R.pos), Nat.add_mul_mod_self_right]

theorem find_add : R.find g n p (v + i * R.W ^ (n + 1)) = R.find g n p v := by
  have key : ∀ m ≤ n, ∀ p, R.find g m p (v + i * R.W ^ (n + 1)) = R.find g m p v := by
    intro m
    induction m with
    | zero => exact fun h p => by rw [find, find, idx_add h]
    | succ m ih =>
      intro h p
      rw [find, find, idx_add h]
      exact congrArg _ (funext fun c => ih (by omega) c)
  exact key n le_rfl p

/-- What holds of the entry of every key holds of every entry of height 0. -/
theorem each_of_look {Q : α → Prop} (he : R.Each g P n p)
    (hQ : ∀ v < R.W ^ (n + 1), Q (R.look g n p v)) :
    R.Each g (fun h e => P h e ∧ (h = 0 → Q e)) n p := by
  induction n generalizing p with
  | zero =>
    intro i hi
    refine ⟨he i hi, fun _ => ?_⟩
    have := hQ i (by simpa using hi)
    rwa [look, find, idx, pow_zero, Nat.div_one, Nat.mod_eq_of_lt hi] at this
  | succ n ih =>
    intro i hi
    refine ⟨⟨(he i hi).1, nofun⟩, fun c hc => ih ((he i hi).2 c hc) fun v hv => ?_⟩
    have hidx : R.idx (n + 1) (v + i * R.W ^ (n + 1)) = i := by
      rw [idx, Nat.add_mul_div_right _ _ (Nat.pow_pos R.pos), Nat.div_eq_of_lt hv, Nat.zero_add,
        Nat.mod_eq_of_lt hi]
    have hlt : v + i * R.W ^ (n + 1) < R.W ^ (n + 1 + 1) := by
      have hle : (i + 1) * R.W ^ (n + 1) ≤ R.W * R.W ^ (n + 1) := Nat.mul_le_mul_right _ hi
      rw [pow_succ R.W (n + 1), mul_comm (R.W ^ (n + 1))]
      rw [Nat.add_mul, Nat.one_mul] at hle
      omega
    have := hQ _ hlt
    rwa [look, find_succ (hidx.symm ▸ hc), find_add] at this

end Radix

end Xv6

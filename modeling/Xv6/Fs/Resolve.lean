import Xv6.Fs.Calls

/-! # Names on a path

The elements that `skipelem` cuts off a path are its parts between slashes, and
`namex` follows them one by one.
-/

namespace Xv6.Fs

variable {sb : Superblock} {B : Iptr → ℕ} {T : Iptr → ℕ × ℤ} {o : ℤ} {s s' : State}
  {R : List Ref} {ip cwd : Iptr} {i : ℕ} {N : ℕ → Node} {path name rest : List UInt8} {fuel : ℕ}

/-- The parts of a path between slashes that are not empty, as far as a name can hold them. -/
def components (path : List UInt8) : List (List UInt8) :=
  ((path.splitOn slash).filter (· ≠ [])).map (·.take DIRSIZ)

/-- Calls of `skipelem`, each on the path that the last one has left, give these names, and the
next one fails. -/
inductive Elements : List UInt8 → List (List UInt8) → Prop
  | nil {path : List UInt8} : skipelem path = none → Elements path []
  | cons {path name rest : List UInt8} {names : List (List UInt8)} :
      skipelem path = some (name, rest) → Elements rest names → Elements path (name :: names)

theorem components_slash (path : List UInt8) : components (slash :: path) = components path := by
  simp [components, List.splitOn, List.splitOnP_cons_eq_if_modifyHead]

theorem components_dropWhile (path : List UInt8) :
    components (path.dropWhile (· = slash)) = components path := by
  induction path with
  | nil => rfl
  | cons c path ih =>
    by_cases hc : c = slash
    · rw [List.dropWhile_cons_of_pos (by simpa using hc), ih, hc, components_slash]
    · rw [List.dropWhile_cons_of_neg (by simpa using hc)]

/-- The first part of a path that does not start with a slash. -/
theorem components_cons (hne : path ≠ []) (hs : path.head? ≠ some slash) :
    components path = (path.takeWhile (· ≠ slash)).take DIRSIZ ::
      components (path.dropWhile (· ≠ slash)) := by
  obtain ⟨c, p, rfl⟩ := List.exists_cons_of_ne_nil hne
  have hc : c ≠ slash := fun hc => hs (by rw [hc, List.head?_cons])
  have hw : (c :: p).takeWhile (· ≠ slash) ≠ [] := by simp [hc]
  have hsep : ∀ x ∈ (c :: p).takeWhile (· ≠ slash), (x == slash) = false := by
    intro x hx
    simpa using List.all_eq_true.mp List.all_takeWhile x hx
  have hrest := List.head?_dropWhile_not (fun x => decide (x ≠ slash)) (c :: p)
  conv_lhs => rw [← List.takeWhile_append_dropWhile (p := fun x => decide (x ≠ slash)) (l := c :: p)]
  generalize (c :: p).takeWhile (· ≠ slash) = w at hw hsep
  generalize (c :: p).dropWhile (· ≠ slash) = q at hrest
  cases q with
  | nil =>
    rw [List.append_nil, components, List.splitOn, List.splitOnP_eq_singleton hsep]
    simp [hw, components]
  | cons d q =>
    obtain rfl : d = slash := by simpa using hrest
    rw [components_slash, components, List.splitOn,
      List.splitOnP_append_cons_of_forall_mem hsep slash (by simp) q]
    simp [hw, components, List.splitOn]

theorem head?_dropWhile_slash (path : List UInt8) :
    (path.dropWhile (· = slash)).head? ≠ some slash := by
  intro h
  have := List.head?_dropWhile_not (fun x => decide (x = slash)) path
  rw [h] at this
  simp at this

theorem components_of_none (h : skipelem path = none) : components path = [] := by
  have hnil : path.dropWhile (· = slash) = [] := by
    by_contra hne
    simp [skipelem, hne] at h
  rw [← components_dropWhile, hnil]
  decide

theorem components_of_some (h : skipelem path = some (name, rest)) :
    components path = name :: components rest ∧ (rest = [] ↔ components rest = []) := by
  unfold skipelem at h
  simp only [Option.ite_none_left_eq_some, Option.some.injEq, Prod.mk.injEq] at h
  obtain ⟨hne, rfl, rfl⟩ := h
  constructor
  · rw [← components_dropWhile path, components_cons hne (head?_dropWhile_slash path),
      components_dropWhile (List.dropWhile ..)]
  · constructor
    · intro hr
      rw [hr]
      decide
    · intro hr
      by_contra hne
      rw [components_cons hne (head?_dropWhile_slash _)] at hr
      cases hr

theorem elements_components (path : List UInt8) : Elements path (components path) := by
  induction hn : path.length using Nat.strong_induction_on generalizing path with
  | _ n ih =>
    cases hskip : skipelem path with
    | none => exact components_of_none hskip ▸ .nil hskip
    | some x =>
      rw [(components_of_some hskip).1]
      exact .cons hskip (ih _ (hn ▸ skipelem_lt hskip) _ rfl)

/-! ## Following the names -/

/-- The inode that a name leads to from inode `i`. -/
def follow (N : ℕ → Node) (i : ℕ) (name : List UInt8) : Option ℕ :=
  if (N i).type = T_DIR then (N i).lookup name else none

/-- The directory `i` with the name that is looked for there. -/
def inDir (N : ℕ → Node) (name : List UInt8) (i : ℕ) : Option (ℕ × List UInt8) :=
  if (N i).type = T_DIR then some (i, name) else none

theorem resolveFrom_false (hfuel : path.length < fuel) :
    (resolveFrom N false fuel path name i).map Prod.fst =
      (components path).foldlM (follow N) i := by
  induction fuel generalizing path name i with
  | zero => cases hfuel
  | succ fuel ih =>
    unfold resolveFrom
    rcases hskip : skipelem path with _ | ⟨nm, rest⟩
    · rw [components_of_none hskip]
      rfl
    · have hlt := skipelem_lt hskip
      rw [(components_of_some hskip).1, List.foldlM_cons, follow]
      by_cases ht : (N i).type = T_DIR
      · simp only [ht, ne_eq, not_true_eq_false, if_false, if_true, Bool.false_eq_true, false_and]
        cases (N i).lookup nm with
        | none => rfl
        | some j => exact ih (by omega)
      · simp [ht]

theorem resolveFrom_true (hfuel : path.length < fuel) :
    resolveFrom N true fuel path name i = (components path).getLast?.bind fun last =>
      ((components path).dropLast.foldlM (follow N) i).bind (inDir N last) := by
  induction fuel generalizing path name i with
  | zero => cases hfuel
  | succ fuel ih =>
    unfold resolveFrom
    rcases hskip : skipelem path with _ | ⟨nm, rest⟩
    · rw [components_of_none hskip]
      rfl
    · have hlt := skipelem_lt hskip
      obtain ⟨hc, hnil⟩ := components_of_some hskip
      rw [hc]
      dsimp only
      by_cases hr : rest = []
      · rw [hnil.mp hr, hr]
        by_cases ht : (N i).type = T_DIR <;> simp [ht, inDir]
      · obtain ⟨nm', names, hnames⟩ := List.exists_cons_of_ne_nil fun h => hr (hnil.mpr h)
        have hstep : ∀ j, resolveFrom N true fuel rest nm j = _ := fun j => ih (by omega)
        rw [hnames] at hstep ⊢
        rw [List.getLast?_cons_cons, List.dropLast_cons_cons, List.foldlM_cons, follow]
        by_cases ht : (N i).type = T_DIR
        · simp only [ht, hr, hstep, ne_eq, not_true_eq_false, if_false, if_true, and_false]
          cases (N i).lookup nm with
          | none => simp
          | some j => rfl
        · simp [ht]

theorem allocated_of_names (h : ∀ names name' rest j, components path = names ++ name' :: rest →
    names.foldlM (follow N) i = some j → (N j).type ≠ 0) : Allocated N fuel path i := by
  induction fuel generalizing path i with
  | zero => trivial
  | succ fuel ih =>
    intro nm rest hskip
    have hc := (components_of_some hskip).1
    refine ⟨h [] nm _ i hc rfl, fun ht j hj => ih fun names name' rest' k hk hf => ?_⟩
    refine h (nm :: names) name' rest' k (by rw [hc, hk, List.cons_append]) ?_
    rw [List.foldlM_cons, follow, if_pos ht, hj]
    exact hf

/-! ## Path resolution -/

/-- Where `namex` starts. -/
def startOf (T : Iptr → ℕ × ℤ) (cwd : Iptr) (path : List UInt8) : ℕ :=
  if path.head? = some slash then ROOTINO else (T cwd).1

/-- Nothing is locked, nothing has changed on the disk, and there is one more reference to `found`
and to no other entry of the table. -/
structure Found (s s' : State) (found : Option Iptr) : Prop where
  disk : s'.disk = s.disk
  ref : ∀ k, (s'.itable k).ref = (s.itable k).ref + if found = some k then 1 else 0
  unlocked : ∀ k, (s'.itable k).locked = false

theorem Inv.found_none (h : Inv sb B T o s R ∅) (h' : Inv sb B T o s' R ∅)
    (hR : ∀ r ∈ R, r.locked = false) (hd : s'.disk = s.disk) : Found s s' none where
  disk := hd
  ref k := by simp [h.ref, h'.ref]
  unlocked k := by
    rw [← Bool.not_eq_true, h'.locked]
    rintro ⟨r, hr, -, hl⟩
    simp [hR r hr] at hl

theorem Inv.found_some (h : Inv sb B T o s R ∅) (h' : Inv sb B T o s' (⟨ip, i, false⟩ :: R) ∅)
    (hR : ∀ r ∈ R, r.locked = false) (hd : s'.disk = s.disk) :
    Found s s' (some ip) ∧ (s'.itable ip).inum = i := by
  refine ⟨⟨hd, fun k => ?_, fun k => ?_⟩, h'.inum _ List.mem_cons_self⟩
  · simp [h.ref, h'.ref, add_assoc]
  · rw [← Bool.not_eq_true, h'.locked]
    rintro ⟨r, hr, -, hl⟩
    rcases List.mem_cons.mp hr with rfl | hr
    · cases hl
    · simp [hR r hr] at hl

theorem wp_namex_found {parent : Bool} (h : Inv sb B T o s R ∅) (ho : 1 ≤ o)
    (hR : ∀ r ∈ R, r.locked = false) (hcwd : 0 < B cwd)
    (hN : Allocated s.disk.nodes (path.length + 1) path (startOf T cwd path)) :
    wp (namex sb cwd path parent) (fun e _ => e = .iget) (fun r s' => Found s s' (r.map Prod.fst) ∧
      resolve s.disk.nodes (T cwd).1 path parent = r.map fun x => ((s'.itable x.1).inum, x.2))
      s := by
  refine wp_namex_allocated h ho hcwd rfl (.inr hR) (.inr hN) ?_ ?_
  · intro s' hr hd hI
    exact ⟨h.found_none hI hR hd, hr⟩
  · intro jp j nm s' hr hd hI _ _
    obtain ⟨hf, hj⟩ := h.found_some hI hR hd
    exact ⟨hf, hr.trans (by rw [Option.map_some, hj])⟩

/-- `namei` follows the names on the path, and `nameiparent` all but the last, to a directory. The
kernel stops only if the table of inodes is full. -/
theorem path_resolution (h : Inv sb B T o s R ∅) (ho : 1 ≤ o) (hR : ∀ r ∈ R, r.locked = false)
    (hcwd : 0 < B cwd) (path : List UInt8)
    (hvisit : ∀ names name rest i, components path = names ++ name :: rest →
      names.foldlM (follow s.disk.nodes) (startOf T cwd path) = some i →
        (s.disk.nodes i).type ≠ 0) :
    Elements path (components path) ∧
    wp (namei sb cwd path) (fun e _ => e = .iget) (fun r s' => Found s s' r ∧
      (components path).foldlM (follow s.disk.nodes) (startOf T cwd path) =
        r.map fun ip => (s'.itable ip).inum) s ∧
    wp (nameiparent sb cwd path) (fun e _ => e = .iget) (fun r s' => Found s s' (r.map Prod.fst) ∧
      ((components path).getLast?.bind fun last =>
        ((components path).dropLast.foldlM (follow s.disk.nodes) (startOf T cwd path)).bind
          (inDir s.disk.nodes last)) = r.map fun x => ((s'.itable x.1).inum, x.2)) s := by
  have hN : Allocated s.disk.nodes (path.length + 1) path (startOf T cwd path) :=
    allocated_of_names hvisit
  refine ⟨elements_components path, ?_, ?_⟩
  · unfold namei
    rw [wp_bind]
    refine (wp_namex_found h ho hR hcwd hN).post fun r s' hr => ⟨hr.1, ?_⟩
    rw [← resolveFrom_false (Nat.lt_succ_self path.length)]
    exact (congrArg (Option.map Prod.fst) hr.2).trans (by simp [Function.comp_def])
  · refine (wp_namex_found h ho hR hcwd hN).post fun r s' hr => ⟨hr.1, ?_⟩
    rw [← resolveFrom_true (Nat.lt_succ_self path.length)]
    exact hr.2

/-- The small file system inside of an operation. -/
def smallOp : State := { smallFs with log := { smallFs.log with outstanding := 1 } }

theorem inv_smallOp : Inv smallFs.superblock smallFs.refs (fun _ => (1, T_DIR)) 1 smallOp [] ∅ :=
  { inv_smallFs with log := ⟨rfl, rfl, rfl, fun h => absurd h (by decide)⟩ }

/-- `a` is inode 2. -/
theorem path_resolution_small : wp (namei smallFs.superblock 0 [97]) (fun e _ => e = .iget)
    (fun r s' => Found smallOp s' r ∧ some 2 = r.map fun ip => (s'.itable ip).inum) smallOp := by
  have hroot : (smallOp.disk.nodes 1).type ≠ 0 := by decide
  have hone : components [97] = [[97]] := by decide
  refine (path_resolution inv_smallOp le_rfl nofun (by decide) [97] ?_).2.1
  intro names name rest i hc hf
  cases names with
  | nil =>
    cases hf
    exact hroot
  | cons a names => simp [hone] at hc

/-- `a/x` has a parent, the file `a`, but `nameiparent` does not return it. -/
theorem parent_small : wp (nameiparent smallFs.superblock 0 [97, 47, 120]) (fun _ _ => False)
    (fun r _ => r = none) smallOp := by
  decide +kernel

theorem parent_not_directory : ∃ s', nameiparent smallFs.superblock 0 [97, 47, 120] smallOp =
      .ok none s' ∧ (components [97, 47, 120]).getLast? = some [120] ∧
    (components [97, 47, 120]).dropLast.foldlM (follow smallOp.disk.nodes)
      (startOf (fun _ => (1, T_DIR)) 0 [97, 47, 120]) = some 2 := by
  obtain ⟨r, s', hr, rfl⟩ := parent_small.returns
  exact ⟨s', hr, by decide, by decide⟩

end Xv6.Fs

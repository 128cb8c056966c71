import Xv6.Fs.Directory

/-! # Path lookup

`resolve` follows a path on the nodes alone. `namex` returns a reference to the
inode that `resolve` finds and changes nothing else; it stops at an inode that
is not allocated only if some directory entry names one.
-/

namespace Xv6.Fs

variable {sb : Superblock} {B : Iptr → ℕ} {T : Iptr → ℕ × ℤ} {o : ℤ} {s s' : State}
  {R : List Ref} {ip cwd : Iptr} {i : ℕ} {F : Halt → Prop} {N N' : ℕ → Node}
  {path name : List UInt8} {parent : Bool} {fuel : ℕ}

/-- The rest of a path from inode `i`; `name` is the last element before it. -/
def resolveFrom (N : ℕ → Node) (parent : Bool) :
    ℕ → List UInt8 → List UInt8 → ℕ → Option (ℕ × List UInt8)
  | 0, _, _, _ => none
  | fuel + 1, path, name, i =>
    match skipelem path with
    | none => if parent then none else some (i, name)
    | some (name, path) =>
      if (N i).type ≠ T_DIR then none
      else if parent ∧ path = [] then some (i, name)
      else ((N i).lookup name).bind (resolveFrom N parent fuel path name)

/-- The inode at the end of a path or, with `parent`, its directory and its name there. -/
def resolve (N : ℕ → Node) (cwd : ℕ) (path : List UInt8) (parent : Bool) :
    Option (ℕ × List UInt8) :=
  resolveFrom N parent (path.length + 1) path []
    (if path.head? = some slash then ROOTINO else cwd)

/-- No directory entry names an inode that is not allocated. -/
structure Closed (N : ℕ → Node) : Prop where
  root : (N ROOTINO).type ≠ 0
  entry : ∀ i, (N i).type = T_DIR → ∀ k < (N i).entries, (N i).inum k ≠ 0 →
    (N ((N i).inum k)).type ≠ 0

/-- The ways in which a call may stop that no invariant of the file system excludes. -/
structure Benign (F : Halt → Prop) : Prop where
  tooBig : F (.log .tooBig)
  sleep : F .sleep
  iget : F .iget
  nlink : F .nlink

theorem skipelem_lt {rest : List UInt8} (h : skipelem path = some (name, rest)) :
    rest.length < path.length := by
  unfold skipelem at h
  simp only [Option.ite_none_left_eq_some, Option.some.injEq, Prod.mk.injEq] at h
  obtain ⟨hne, -, rfl⟩ := h
  obtain ⟨a, p, hp⟩ := List.exists_cons_of_ne_nil hne
  have ha : a ≠ slash := by
    have := List.head_dropWhile_not (fun c => decide (c = slash)) hne
    simpa [hp] using this
  rw [hp, List.dropWhile_cons_of_pos (by simpa using ha)]
  calc _ ≤ (p.dropWhile fun c => decide (c ≠ slash)).length :=
        (List.dropWhile_suffix _).length_le
    _ ≤ p.length := (List.dropWhile_suffix _).length_le
    _ < (path.dropWhile fun c => decide (c = slash)).length := by simp [hp]
    _ ≤ path.length := (List.dropWhile_suffix _).length_le

/-- The lookup of a path depends only on the types and the entries. -/
theorem resolveFrom_congr (ht : ∀ i, (N' i).type = (N i).type)
    (hl : ∀ i name, (N i).type = T_DIR → (N' i).lookup name = (N i).lookup name) :
    resolveFrom N' parent fuel path name i = resolveFrom N parent fuel path name i := by
  induction fuel generalizing path name i with
  | zero => rfl
  | succ fuel ih =>
    unfold resolveFrom
    rcases skipelem path with _ | ⟨nm, rest⟩
    · rfl
    · simp only [ht]
      split_ifs with h₁ h₂
      · rfl
      · rfl
      · rw [hl i nm (by simpa using h₁)]
        exact congrArg _ (funext fun j => ih)

theorem resolve_congr {c : ℕ} (ht : ∀ i, (N' i).type = (N i).type)
    (hl : ∀ i name, (N i).type = T_DIR → (N' i).lookup name = (N i).lookup name) :
    resolve N' c path parent = resolve N c path parent :=
  resolveFrom_congr ht hl

theorem Closed.lookup {j : ℕ} (h : Closed N) (ht : (N i).type = T_DIR)
    (hl : (N i).lookup name = some j) : (N j).type ≠ 0 := by
  obtain ⟨k, hk, rfl⟩ := Option.map_eq_some_iff.mp hl
  have hn := Node.find_eq_some hk
  exact h.entry i ht k hn.1 hn.2.1

/-- The inodes that are read on the way along a path are allocated. -/
def Allocated (N : ℕ → Node) : ℕ → List UInt8 → ℕ → Prop
  | 0, _, _ => True
  | fuel + 1, path, i => ∀ name rest, skipelem path = some (name, rest) → (N i).type ≠ 0 ∧
      ((N i).type = T_DIR → ∀ j, (N i).lookup name = some j → Allocated N fuel rest j)

theorem Closed.allocated (h : Closed N) (hi : (N i).type ≠ 0) : Allocated N fuel path i := by
  induction fuel generalizing path i with
  | zero => trivial
  | succ fuel ih => exact fun name rest _ => ⟨hi, fun ht j hj => ih (h.lookup ht hj)⟩

theorem Closed.resolveFrom {j : ℕ} {nm : List UInt8} (h : Closed N) (hi : (N i).type ≠ 0)
    (hr : resolveFrom N parent fuel path name i = some (j, nm)) : (N j).type ≠ 0 := by
  induction fuel generalizing path name i with
  | zero => cases hr
  | succ fuel ih =>
    unfold Fs.resolveFrom at hr
    rcases hskip : skipelem path with _ | ⟨name, rest⟩ <;> rw [hskip] at hr
    · cases parent <;> cases hr
      exact hi
    · dsimp only at hr
      split_ifs at hr with ht hp
      · cases hr
        exact hi
      · obtain ⟨k, hk, hr⟩ := Option.bind_eq_some_iff.mp hr
        exact ih (h.lookup (by simpa using ht) hk) hr

theorem Last.disk {ip : Iptr} (hd : s'.disk = s.disk) : Last s' B R ip i ↔ Last s B R ip i := by
  unfold Last
  rw [hd]

/-- The inode that a lookup in a directory finds is not up for freeing, if neither was before. -/
theorem Inv.not_last {ip jp : Iptr} {j : ℕ} {b b' : Bool}
    (h : Inv sb B T o s (⟨jp, j, b⟩ :: ⟨ip, i, b'⟩ :: R) X) (hi : ¬ Last s B R ip i)
    (hj : ¬ Last s B (⟨ip, i, b'⟩ :: R) jp j) : ¬ Last s B R jp j := by
  rintro ⟨h₁, h₂, h₃, h₄⟩
  rcases eq_or_ne jp ip with rfl | hne
  · have e₁ := h.inum ⟨jp, j, b⟩ List.mem_cons_self
    have e₂ := h.inum ⟨jp, i, b'⟩ (by simp)
    obtain rfl : j = i := e₁.symm.trans e₂
    exact hi ⟨h₁, h₂, h₃, h₄⟩
  · refine hj ⟨h₁, h₂, h₃, ?_⟩
    rw [refs_cons, if_neg hne.symm, h₄]

variable {Q : Option (Iptr × List UInt8) → State → Prop}

theorem wp_namexFrom (h : Inv sb B T o s (⟨ip, i, false⟩ :: R) ∅) (ho : 1 ≤ o)
    (hlast : ¬ Last s B R ip i) (hfuel : path.length < fuel) (hget : F .iget)
    (hsleep : F .sleep ∨ ∀ r ∈ R, r.locked = false)
    (hN : F .noType ∨ Allocated s.disk.nodes fuel path i)
    (hnone : ∀ s', resolveFrom s.disk.nodes parent fuel path name i = none → s'.disk = s.disk →
      Inv sb B T o s' R ∅ → Q none s')
    (hsome : ∀ jp j nm s', resolveFrom s.disk.nodes parent fuel path name i = some (j, nm) →
      s'.disk = s.disk → Inv sb B T o s' (⟨jp, j, false⟩ :: R) ∅ →
      ¬ Last s B R jp j → (parent = true → (s.disk.nodes j).type = T_DIR) → Q (some (jp, nm)) s') :
    wp (namexFrom sb parent fuel path name ip) (fun e _ => F e) Q s := by
  induction fuel generalizing s path name ip i with
  | zero => omega
  | succ fuel ih =>
    have hput : ∀ s₁ : State, s₁.disk = s.disk →
        Inv sb B T o s₁ (⟨ip, i, true⟩ :: R) ∅ →
        resolveFrom s.disk.nodes parent (fuel + 1) path name i = none →
        wp (do iunlockput sb ip; pure none) (fun e _ => F e) Q s₁ := fun s₁ hd₁ h₁ hr => by
      rw [wp_bind]
      have hlast₁ : ¬ Last s₁ B R ip i := fun hl => hlast ((Last.disk hd₁).mp hl)
      exact wp_iunlockput h₁ ho (absurd · hlast₁)
        (fun s' _ hd => hnone s' hr (hd.trans hd₁))
        fun s' hl => absurd hl hlast₁
    unfold namexFrom
    unfold resolveFrom at hnone hsome hput
    rcases hskip : skipelem path with _ | ⟨nm, rest⟩
    · rw [hskip] at hnone hsome
      simp only
      rw [wp_ite]
      refine ⟨fun hp => ?_, fun hp => ?_⟩
      · rw [wp_bind]
        refine wp_iput h ho (fun hX => absurd hX (Set.notMem_empty _)) (absurd · hlast)
          (fun s' _ => hnone s' (if_pos hp)) fun s' hl => absurd hl hlast
      · exact hsome ip i name s (if_neg hp) rfl h hlast fun hp' => absurd hp' hp
    · rw [hskip] at hnone hsome hput
      simp only at hnone hsome hput ⊢
      rw [wp_bind]
      have hvisit := hN.imp_right fun ha => ha nm rest hskip
      have hfree : (s.itable ip).locked = true → F .sleep := by
        intro hl
        obtain ⟨r, hr, -, hrl⟩ := (h.locked ip).mp hl
        refine hsleep.resolve_right fun hR => ?_
        rcases List.mem_cons.mp hr with rfl | hr
        · cases hrl
        · simp [hR r hr] at hrl
      refine wp_ilock h hfree (fun h₀ => hvisit.resolve_right fun hc => hc.1 h₀)
        fun s₁ hd₁ _ h₁ => ?_
      rw [wp_bind, wp_getInode, ← congrArg Attr.type h₁.attr, hd₁, wp_ite]
      refine ⟨fun ht => hput s₁ hd₁ h₁ (if_pos ht), fun ht => ?_⟩
      rw [if_neg ht] at hnone hsome hput
      have ht : (s.disk.nodes i).type = T_DIR := by simpa using ht
      rw [wp_ite]
      refine ⟨fun hp => ?_, fun hp => ?_⟩
      · rw [wp_bind]
        refine wp_iunlock h₁ fun s₂ hd₂ _ h₂ => ?_
        exact hsome ip i nm s₂ (if_pos hp) (hd₂.trans hd₁) h₂ hlast fun _ => ht
      rw [if_neg hp] at hnone hsome hput
      rw [wp_bind]
      refine wp_dirlookup h₁ (congrArg (Disk.nodes · i) hd₁) ht
        (h.dir i (Set.notMem_empty _) ht).aligned hget (fun hf => ?_)
        fun jp k s₂ hf hd₂ h₂ hl => ?_
      · refine hput s₁ hd₁ h₁ ?_
        rw [Node.lookup, hf]
        rfl
      · have hlook : (s.disk.nodes i).lookup nm = some ((s.disk.nodes i).inum k) := by
          rw [Node.lookup, hf]
          rfl
        obtain ⟨j, hj⟩ : ∃ j, j = (s.disk.nodes i).inum k := ⟨_, rfl⟩
        rw [← hj] at h₂ hl hlook
        simp only [hlook, Option.bind_some] at hnone hsome
        have hdisk := hd₂.trans hd₁
        have hlast₁ : ¬ Last s₂ B (⟨jp, j, false⟩ :: R) ip i := fun ⟨h₁, h₂, h₃, h₄⟩ => by
          rw [hdisk] at h₁ h₂
          rw [refs_cons] at h₄
          exact hlast ⟨h₁, h₂, h₃, by omega⟩
        have hlast₂ : ¬ Last s₂ B R jp j :=
          h₂.not_last (fun hl' => hlast ((Last.disk hdisk).mp hl'))
            fun hl' => hl (Set.notMem_empty _) ((Last.disk hd₂).mp hl')
        simp only
        rw [wp_bind]
        refine wp_iunlockput (h₂.perm (List.Perm.swap ..)) ho (absurd · hlast₁)
          (fun s₃ _ hd₃ h₃ => ?_) fun s₃ hl₃ => absurd hl₃ hlast₁
        have hdisk₃ := hd₃.trans hdisk
        have hlt := skipelem_lt hskip
        refine ih h₃ (fun hl₃ => hlast₂ ((Last.disk hd₃).mp hl₃)) (by omega) ?_ ?_ ?_
        · rw [hdisk₃]
          exact hvisit.imp_right fun hc => hc.2 ht j hlook
        · intro s' hr hd hI
          rw [hdisk₃] at hr
          exact hnone s' hr (hd.trans hdisk₃) hI
        · intro jp' j' nm' s' hr hd hI hl' hp'
          rw [hdisk₃] at hr hp'
          exact hsome jp' j' nm' s' hr (hd.trans hdisk₃) hI
            (fun hl₃ => hl' ((Last.disk hdisk₃).mpr hl₃)) hp'

/-- `namex` for a process whose current directory is `cwd`, if the inodes on the way are allocated
and none of them is locked. -/
theorem wp_namex_allocated (h : Inv sb B T o s R ∅) (ho : 1 ≤ o) (hcwd : 0 < B cwd) (hget : F .iget)
    (hsleep : F .sleep ∨ ∀ r ∈ R, r.locked = false)
    (hN : F .noType ∨ Allocated s.disk.nodes (path.length + 1) path (if path.head? = some slash
      then ROOTINO else (T cwd).1))
    (hnone : ∀ s', resolve s.disk.nodes (T cwd).1 path parent = none → s'.disk = s.disk →
      Inv sb B T o s' R ∅ → Q none s')
    (hsome : ∀ jp j nm s', resolve s.disk.nodes (T cwd).1 path parent = some (j, nm) →
      s'.disk = s.disk → Inv sb B T o s' (⟨jp, j, false⟩ :: R) ∅ →
      ¬ Last s B R jp j → (parent = true → (s.disk.nodes j).type = T_DIR) → Q (some (jp, nm)) s') :
    wp (namex sb cwd path parent) (fun e _ => F e) Q s := by
  have hfrom : ∀ ip i s₁, i = (if path.head? = some slash then ROOTINO else (T cwd).1) →
      s₁.disk = s.disk → Inv sb B T o s₁ (⟨ip, i, false⟩ :: R) ∅ →
      ¬ Last s B R ip i →
      wp (namexFrom sb parent (path.length + 1) path [] ip) (fun e _ => F e) Q s₁ := by
    intro ip i s₁ hi hd h₁ hl
    unfold resolve at hnone hsome
    rw [← hi, ← hd] at hnone hsome hN
    exact wp_namexFrom h₁ ho (fun hl' => hl ((Last.disk hd).mp hl')) (Nat.lt_succ_self _) hget hsleep
      hN hnone fun jp j nm s' hr hd' hI hl' => hsome jp j nm s' hr hd' hI
        fun hl₁ => hl' ((Last.disk hd).mpr hl₁)
  unfold namex
  rw [wp_bind, wp_ite]
  refine ⟨fun hroot => ?_, fun hroot => ?_⟩
  · refine wp_iget h hget fun ip s₁ hd h₁ hl => ?_
    exact hfrom ip ROOTINO s₁ (if_pos hroot).symm hd h₁ (hl (Set.notMem_empty _))
  · have href : 0 < (s.itable cwd).ref := by
      rw [h.ref]
      omega
    refine wp_idup h href fun s₁ hd h₁ => ?_
    refine hfrom cwd _ s₁ ?_ hd h₁ fun hl => ?_
    · rw [if_neg hroot, (h.tag cwd hcwd).1]
    · have := hl.2.2.1
      omega

theorem wp_namex (h : Inv sb B T o s R ∅) (ho : 1 ≤ o) (hcwd : 0 < B cwd) (hF : Benign F)
    (hN : F .noType ∨ Closed s.disk.nodes)
    (hnone : ∀ s', resolve s.disk.nodes (T cwd).1 path parent = none → s'.disk = s.disk →
      Inv sb B T o s' R ∅ → Q none s')
    (hsome : ∀ jp j nm s', resolve s.disk.nodes (T cwd).1 path parent = some (j, nm) →
      s'.disk = s.disk → Inv sb B T o s' (⟨jp, j, false⟩ :: R) ∅ →
      ¬ Last s B R jp j → (F .noType ∨ (s.disk.nodes j).type ≠ 0) → (parent = true →
      (s.disk.nodes j).type = T_DIR) → Q (some (jp, nm)) s') :
    wp (namex sb cwd path parent) (fun e _ => F e) Q s := by
  have hstart : Closed s.disk.nodes →
      (s.disk.nodes (if path.head? = some slash then ROOTINO else (T cwd).1)).type ≠ 0 := by
    intro hc
    split
    next => exact hc.root
    next =>
      obtain ⟨htag, htype⟩ := h.tag cwd hcwd
      rwa [htag]
  refine wp_namex_allocated h ho hcwd hF.iget (.inl hF.sleep)
    (hN.imp_right fun hc => hc.allocated (hstart hc)) hnone fun jp j nm s' hr hd hI hl hp => ?_
  exact hsome jp j nm s' hr hd hI hl (hN.imp_right fun hc => hc.resolveFrom (hstart hc) hr) hp

theorem wp_namei {Q : Option Iptr → State → Prop} (h : Inv sb B T o s R ∅)
    (ho : 1 ≤ o) (hcwd : 0 < B cwd) (hF : Benign F) (hN : F .noType ∨ Closed s.disk.nodes)
    (hnone : ∀ s', resolve s.disk.nodes (T cwd).1 path false = none → s'.disk = s.disk →
      Inv sb B T o s' R ∅ → Q none s')
    (hsome : ∀ jp j nm s', resolve s.disk.nodes (T cwd).1 path false = some (j, nm) →
      s'.disk = s.disk → Inv sb B T o s' (⟨jp, j, false⟩ :: R) ∅ → ¬ Last s B R jp j →
      (F .noType ∨ (s.disk.nodes j).type ≠ 0) → Q (some jp) s') :
    wp (namei sb cwd path) (fun e _ => F e) Q s := by
  unfold namei
  rw [wp_bind]
  exact wp_namex h ho hcwd hF hN hnone
    fun jp j nm s' hr hd hI hl hn _ => hsome jp j nm s' hr hd hI hl hn

theorem wp_nameiparent (h : Inv sb B T o s R ∅) (ho : 1 ≤ o) (hcwd : 0 < B cwd) (hF : Benign F)
    (hN : F .noType ∨ Closed s.disk.nodes)
    (hnone : ∀ s', resolve s.disk.nodes (T cwd).1 path true = none → s'.disk = s.disk →
      Inv sb B T o s' R ∅ → Q none s')
    (hsome : ∀ dp d nm s', resolve s.disk.nodes (T cwd).1 path true = some (d, nm) →
      s'.disk = s.disk → Inv sb B T o s' (⟨dp, d, false⟩ :: R) ∅ →
      ¬ Last s B R dp d → (s.disk.nodes d).type = T_DIR → Q (some (dp, nm)) s') :
    wp (nameiparent sb cwd path) (fun e _ => F e) Q s :=
  wp_namex h ho hcwd hF hN hnone
    fun jp j nm s' hr hd hI hl _ ht => hsome jp j nm s' hr hd hI hl (ht rfl)

end Xv6.Fs

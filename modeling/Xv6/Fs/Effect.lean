import Xv6.Fs.Lookup

/-! # What a call does to the nodes

A call changes at most one directory entry, together with the link counts that
belong to it. Apart from that it changes only the contents of files, and frees
inodes that have no link left.
-/

namespace Xv6.Fs

open Function

variable {N N' M : ℕ → Node} {nd nd' nd₁ : Node} {i j : ℕ} {a : Attr} {s s' : State}
  {B : Iptr → ℕ} {R : List Ref} {ip : Iptr}

/-- The same type, the same number of links and, in a directory, the same entries. -/
structure Node.Same (nd nd' : Node) : Prop where
  type : nd'.type = nd.type
  nlink : nd'.nlink = nd.nlink
  dir : nd.type = T_DIR → nd'.size = nd.size ∧ nd'.byte = nd.byte

namespace Node.Same

theorem refl (nd : Node) : Same nd nd := ⟨rfl, rfl, fun _ => ⟨rfl, rfl⟩⟩

theorem trans (h : Same nd nd₁) (h' : Same nd₁ nd') : Same nd nd' where
  type := h'.type.trans h.type
  nlink := h'.nlink.trans h.nlink
  dir ht :=
    have h₁ := h.dir ht
    have h₂ := h'.dir (h.type.trans ht)
    ⟨h₂.1.trans h₁.1, h₂.2.trans h₁.2⟩

end Node.Same

/-- The same attributes and bytes. Blocks may be mapped beyond the size. -/
structure Node.Alike (nd nd' : Node) : Prop where
  attr : nd'.toAttr = nd.toAttr
  byte : nd'.byte = nd.byte

namespace Node.Alike

theorem refl (nd : Node) : Alike nd nd := ⟨rfl, rfl⟩

theorem same (h : Alike nd nd') : Same nd nd' where
  type := congrArg Attr.type h.attr
  nlink := congrArg Attr.nlink h.attr
  dir _ := ⟨congrArg Attr.size h.attr, h.byte⟩

end Node.Alike

/-- Nothing that a call could observe is different. -/
def Kept (N N' : ℕ → Node) : Prop := ∀ j, (N j).Alike (N' j)

/-- Every inode has the attributes and the content that it had before, and every directory the same
names. -/
def Untouched (N N' : ℕ → Node) : Prop :=
  ∀ i, (N' i).toAttr = (N i).toAttr ∧ (N' i).byte = (N i).byte ∧
    ∀ name, (N' i).lookup name = (N i).lookup name

namespace Kept

theorem refl (N : ℕ → Node) : Kept N N := fun j => .refl (N j)

theorem set (h : (N i).Alike nd) : Kept N (update N i nd) := by
  intro j
  rcases eq_or_ne j i with rfl | hj
  · rwa [update_self]
  · rw [update_of_ne hj]
    exact .refl _

/-- Changes to different inodes commute. -/
theorem congr_update (nd : Node) (h : Kept N N') :
    Kept (update N i nd) (update N' i nd) := by
  intro j
  rcases eq_or_ne j i with rfl | hj
  · rw [update_self, update_self]
    exact .refl _
  · rw [update_of_ne hj, update_of_ne hj]
    exact h j

theorem lookup (h : Kept N N') (name : List UInt8) : (N' j).lookup name = (N j).lookup name :=
  Node.lookup_congr (congrArg Attr.size (h j).attr) (h j).byte

theorem untouched (h : Kept N N') : Untouched N N' := fun i =>
  ⟨(h i).attr, (h i).byte, h.lookup⟩

theorem last (h : Kept s.disk.nodes s'.disk.nodes) : Last s' B R ip i ↔ Last s B R ip i := by
  unfold Last
  rw [(h i).same.type, (h i).same.nlink]

end Kept

/-- Contents of files may change and inodes without links may be freed. -/
def Settle (N N' : ℕ → Node) : Prop :=
  ∀ j, (N j).Same (N' j) ∨ (N j).type ≠ 0 ∧ (N j).nlink = 0 ∧ (N' j).type = 0

namespace Settle

theorem refl (N : ℕ → Node) : Settle N N := fun j => .inl (.refl (N j))

theorem trans (h : Settle N M) (h' : Settle M N') : Settle N N' := by
  intro j
  rcases h j with h₁ | ⟨h₁, h₂, h₃⟩ <;> rcases h' j with h₄ | ⟨h₄, h₅, h₆⟩
  · exact .inl (h₁.trans h₄)
  · exact .inr ⟨h₁.type ▸ h₄, h₁.nlink ▸ h₅, h₆⟩
  · exact .inr ⟨h₁, h₂, h₄.type.trans h₃⟩
  · exact absurd h₃ h₄

theorem set (h : (N i).Same nd) : Settle N (update N i nd) := by
  intro j
  rcases eq_or_ne j i with rfl | hj
  · rw [update_self]
    exact .inl h
  · rw [update_of_ne hj]
    exact .inl (.refl _)

theorem free (ht : (N i).type ≠ 0) (hn : (N i).nlink = 0) :
    Settle N (update N i .free) := by
  intro j
  rcases eq_or_ne j i with rfl | hj
  · rw [update_self]
    exact .inr ⟨ht, hn, rfl⟩
  · rw [update_of_ne hj]
    exact .inl (.refl _)

theorem congr_update (nd : Node) (h : Settle N N') (hi : N' i = N i) :
    Settle (update N i nd) (update N' i nd) := by
  intro j
  rcases eq_or_ne j i with rfl | hj
  · rw [update_self, update_self]
    exact .inl (.refl _)
  · rw [update_of_ne hj, update_of_ne hj]
    exact h j

end Settle

/-- Entry `k` of directory `d` is set to the inode `x` and the name `nm`, the link count of `d` to
`l`. -/
structure Entered (N M : ℕ → Node) (d k x : ℕ) (nm : List UInt8) (l : ℤ) : Prop where
  dir : (N d).type = T_DIR
  type : (M d).type = T_DIR
  two : 2 ≤ k
  le : k ≤ (N d).entries
  set : (N d).SetEntry (M d) k x nm
  nlink : (M d).nlink = l

/-- A name for the file `i` is added to directory `d`. -/
structure Linked (N M : ℕ → Node) (d k i : ℕ) (name : List UInt8) : Prop where
  enter : Entered N M d k i (strncpy DIRSIZ name) (N d).nlink
  fresh : k < (N d).entries → (N d).inum k = 0
  new : (N d).lookup name = none
  file : (N i).type ≠ T_DIR
  type : (N i).type ≠ 0
  same : (M i).type = (N i).type
  nlink : (M i).nlink = short ((N i).nlink + 1)
  other : ∀ j, j ≠ d → j ≠ i → M j = N j

/-- A name for `i` is removed from directory `d`. -/
structure Unlinked (N M : ℕ → Node) (d k i : ℕ) (name : List UInt8) : Prop where
  ne : i ≠ d
  enter : Entered N M d k 0 (List.replicate DIRSIZ 0)
    (if (N i).type = T_DIR then short ((N d).nlink - 1) else (N d).nlink)
  find : (N d).find name = some k
  inum : (N d).inum k = i
  type : (N i).type ≠ 0
  pos : 1 ≤ (N i).nlink
  /-- A directory that is removed has no entries but the first two. -/
  empty : (N i).type = T_DIR → ∀ j, 2 ≤ j → j < (N i).entries → (N i).inum j = 0
  node : M i = { N i with nlink := short ((N i).nlink - 1) }
  other : ∀ j, j ≠ d → j ≠ i → M j = N j

/-- A new inode `i` is added to directory `d`. -/
structure Made (N M : ℕ → Node) (d k i : ℕ) (name : List UInt8) (t : ℤ) : Prop where
  enter : Entered N M d k i (strncpy DIRSIZ name)
    (if t = T_DIR then short ((N d).nlink + 1) else (N d).nlink)
  fresh : k < (N d).entries → (N d).inum k = 0
  new : (N d).lookup name = none
  free : (N i).type = 0
  type : (M i).type = t
  nlink : (M i).nlink = 1
  /-- A new directory has the entries `.` and `..`. -/
  dots : t = T_DIR → (M i).entries = 2 ∧ (M i).inum 1 = d
  other : ∀ j, j ≠ d → j ≠ i → M j = N j

/-- The new inode has a link, so it is not freed. -/
theorem Made.settle {d k : ℕ} {name : List UInt8} {t : ℤ} (h : Made N M d k i name t)
    (hs : Settle M N') : (N' i).type = t ∧ (N' i).nlink = 1 := by
  rcases hs i with hsame | ⟨-, hz, -⟩
  · exact ⟨hsame.type.trans h.type, hsame.nlink.trans h.nlink⟩
  · rw [h.nlink] at hz
    cases hz

/-- Only attributes other than the type and the size change. -/
theorem resolve_setAttr {c : ℕ} {path : List UInt8} {parent : Bool} (ht : a.type = (N i).type)
    (hs : a.size = (N i).size) :
    resolve (update N i { N i with toAttr := a }) c path parent =
      resolve N c path parent := by
  refine resolve_congr (fun j => ?_) fun j name _ => ?_
  · rcases eq_or_ne j i with rfl | hj
    · rw [update_self, ht]
    · rw [update_of_ne hj]
  · rcases eq_or_ne j i with rfl | hj
    · rw [update_self]
      exact Node.lookup_congr hs rfl
    · rw [update_of_ne hj]

theorem Closed.setAttr (h : Closed N) (ht : a.type = (N i).type) (hs : a.size = (N i).size) :
    Closed (update N i { N i with toAttr := a }) := by
  have htype : ∀ j, (update N i { N i with toAttr := a } j).type = (N j).type := by
    intro j
    rcases eq_or_ne j i with rfl | hj
    · rw [update_self, ht]
    · rw [update_of_ne hj]
  refine ⟨by rw [htype]; exact h.root, fun j hj k hk hne => ?_⟩
  rw [htype] at hj ⊢
  rcases eq_or_ne j i with rfl | hji
  · rw [update_self] at hk hne ⊢
    have he : Node.entries { N j with toAttr := a } = (N j).entries :=
      congrArg (· / DIRENT) hs
    exact h.entry j hj k (he ▸ hk) hne
  · rw [update_of_ne hji] at hk hne ⊢
    exact h.entry j hj k hk hne

end Xv6.Fs

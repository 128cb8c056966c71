import Xv6.Fs.Content
import Xv6.Fs.Path

/-! # Directories as maps

A directory is a node whose bytes are entries of an inode number and a name.
Names are compared up to the first NUL and to 14 bytes; `canon` is that part.
-/

namespace Xv6.Fs

section Names

variable {n : ℕ} {p q : List UInt8}

/-- The part of a string that `strncmp` looks at. -/
def cut (n : ℕ) (p : List UInt8) : List UInt8 := (p.take n).takeWhile (· ≠ 0)

/-- The part of a name that `namecmp` looks at. -/
abbrev canon (name : List UInt8) : List UInt8 := cut DIRSIZ name

theorem cut_succ : cut (n + 1) p = if p.headD 0 = 0 then [] else p.headD 0 :: cut n p.tail := by
  cases p with
  | nil => rfl
  | cons a p => by_cases ha : a = 0 <;> simp [cut, ha]

theorem strncmp_eq_zero : strncmp n p q = 0 ↔ cut n p = cut n q := by
  induction n generalizing p q with
  | zero => simp [strncmp, cut]
  | succ n ih =>
    rw [cut_succ, cut_succ, strncmp]
    generalize p.headD 0 = a
    generalize q.headD 0 = b
    by_cases h : a ≠ 0 ∧ a = b
    · rw [if_pos h, ih, if_neg h.1, if_neg (h.2 ▸ h.1), h.2, List.cons_inj_right]
    · rw [if_neg h, sub_eq_zero, Nat.cast_inj, UInt8.toNat_inj]
      split_ifs with h₁ h₂ h₂
      · simp [h₁, h₂]
      · simp [h₁, Ne.symm h₂]
      · simp [h₁, h₂]
      · simp [show a ≠ b from fun e => h ⟨h₁, e⟩]

theorem namecmp_eq_zero : namecmp p q = 0 ↔ canon p = canon q := strncmp_eq_zero

theorem length_strncpy : (strncpy n p).length = n := by
  induction n generalizing p with
  | zero => rfl
  | succ n ih =>
    rw [strncpy]
    split_ifs
    · simp
    · simp [ih]

theorem cut_strncpy : cut n (strncpy n p) = cut n p := by
  induction n generalizing p with
  | zero => rfl
  | succ n ih =>
    rw [strncpy, cut_succ (p := p)]
    split_ifs with h
    · simp [cut, List.replicate_succ]
    · rw [cut_succ, List.headD_cons, if_neg h, List.tail_cons, ih]

theorem canon_dot : canon dot = dot := rfl

theorem canon_dotdot : canon dotdot = dotdot := rfl

end Names

namespace Node

/-- The number of entries. -/
@[grind =] def entries (nd : Node) : ℕ := nd.size / DIRENT

def inum (nd : Node) (j : ℕ) : ℕ :=
  (nd.byte (j * DIRENT)).toNat + 256 * (nd.byte (j * DIRENT + 1)).toNat

def name (nd : Node) (j : ℕ) : List UInt8 := nd.read (j * DIRENT + 2) DIRSIZ

variable {nd nd' : Node} {i j : ℕ} {name name' : List UInt8}

/-- Entry `j` is in use, with a name equal to `name`. -/
def Named (nd : Node) (name : List UInt8) (j : ℕ) : Prop :=
  j < nd.entries ∧ nd.inum j ≠ 0 ∧ canon (nd.name j) = canon name

instance : Decidable (nd.Named name j) := inferInstanceAs (Decidable (_ ∧ _ ∧ _))

/-- The first entry with a name. -/
def find (nd : Node) (name : List UInt8) : Option ℕ :=
  (List.range nd.entries).find? fun j => nd.Named name j

/-- The inode number for a name. -/
@[grind =] def lookup (nd : Node) (name : List UInt8) : Option ℕ := (nd.find name).map nd.inum

/-- The entries fill the file and no two of them have the same name. -/
structure IsMap (nd : Node) : Prop where
  aligned : nd.size % DIRENT = 0
  unique : ∀ j j' name, nd.Named name j → nd.Named name j' → j = j'

/-- A well-formed directory with inode number `i`. -/
structure IsDir (nd : Node) (i : ℕ) : Prop extends IsMap nd where
  two : 2 ≤ nd.entries
  self : nd.inum 0 = i ∧ canon (nd.name 0) = dot
  parent : nd.inum 1 ≠ 0 ∧ canon (nd.name 1) = dotdot

/-- The entries are a function of the size and the bytes. -/
theorem entries_congr (hs : nd'.size = nd.size) (hb : nd'.byte = nd.byte) :
    nd'.entries = nd.entries ∧ nd'.inum = nd.inum ∧ nd'.name = nd.name := by
  refine ⟨by rw [entries, entries, hs], ?_, ?_⟩
  · funext j
    rw [inum, inum, hb]
  · funext j
    rw [Node.name, Node.name, read, read, hb]

theorem lookup_congr (hs : nd'.size = nd.size) (hb : nd'.byte = nd.byte) :
    nd'.lookup name = nd.lookup name := by
  obtain ⟨he, hi, hn⟩ := entries_congr hs hb
  have hp : (fun j => decide (nd'.Named name j)) = fun j => decide (nd.Named name j) :=
    funext fun j => decide_eq_decide.mpr (by rw [Named, Named, he, hi, hn])
  rw [lookup, lookup, find, find, hp, he, hi]

theorem IsDir.congr (h : nd.IsDir i) (hs : nd'.size = nd.size) (hb : nd'.byte = nd.byte) :
    nd'.IsDir i := by
  obtain ⟨he, hi, hn⟩ := entries_congr hs hb
  refine ⟨⟨hs ▸ h.aligned, fun a b name ha hb => h.unique a b name ?_ ?_⟩, he ▸ h.two, ?_, ?_⟩
  · rwa [Named, he, hi, hn] at ha
  · rwa [Named, he, hi, hn] at hb
  · rw [hi, hn]
    exact h.self
  · rw [hi, hn]
    exact h.parent

/-- The first two entries are in use. -/
theorem IsDir.two_le_of_free (h : nd.IsDir i) (hi : i ≠ 0) (hj : j ≤ nd.entries)
    (hfree : j < nd.entries → nd.inum j = 0) : 2 ≤ j := by
  have h₂ := h.two
  have h₀ : j ≠ 0 := by
    rintro rfl
    exact hi (h.self.1.symm.trans (hfree (by omega)))
  have h₁ : j ≠ 1 := by
    rintro rfl
    exact h.parent.1 (hfree (by omega))
  omega

theorem IsDir.two_le_of_named (h : nd.IsDir i) (hj : nd.Named name j) (hdot : canon name ≠ dot)
    (hdotdot : canon name ≠ dotdot) : 2 ≤ j := by
  have h₀ : j ≠ 0 := by
    rintro rfl
    exact hdot (hj.2.2.symm.trans h.self.2)
  have h₁ : j ≠ 1 := by
    rintro rfl
    exact hdotdot (hj.2.2.symm.trans h.parent.2)
  omega

theorem find_eq_some (h : nd.find name = some j) : nd.Named name j := by
  simpa using List.find?_some h

theorem find_eq_some_of (h : nd.Named name j) (hno : ∀ j' < j, ¬ nd.Named name j') :
    nd.find name = some j := by
  unfold find
  rw [List.find?_range_eq_some]
  exact ⟨by simpa using h, List.mem_range.mpr h.1, fun j' hj' => by simpa using hno j' hj'⟩

theorem find_eq_none : nd.find name = none ↔ ∀ j, ¬ nd.Named name j := by
  unfold find
  rw [List.find?_eq_none]
  simp only [List.mem_range, decide_eq_true_eq]
  exact ⟨fun h j hj => h j hj.1 hj, fun h j _ => h j⟩

theorem IsMap.find_iff (h : nd.IsMap) : nd.find name = some j ↔ nd.Named name j := by
  refine ⟨find_eq_some, fun hj => ?_⟩
  rcases hf : nd.find name with _ | j'
  · exact absurd hj (find_eq_none.mp hf j)
  · rw [h.unique j' j name (find_eq_some hf) hj]

theorem find_congr (h : canon name = canon name') : nd.find name = nd.find name' := by
  unfold find
  congr 1
  funext j
  exact decide_eq_decide.mpr (by rw [Named, Named, h])

/-- The lookup of a name finds the inode number of the entry with that name. -/
theorem IsMap.lookup_iff (h : nd.IsMap) :
    nd.lookup name = some i ↔ ∃ j, nd.Named name j ∧ nd.inum j = i := by
  simp only [lookup, Option.map_eq_some_iff, h.find_iff]

theorem lookup_eq_none : nd.lookup name = none ↔ ∀ j, ¬ nd.Named name j := by
  rw [lookup, Option.map_eq_none_iff, find_eq_none]

/-- Entry `j` is set to the inode number `x` and the name `nm`. -/
structure SetEntry (nd nd' : Node) (j x : ℕ) (nm : List UInt8) : Prop where
  size : nd'.size = max nd.size (j * DIRENT + DIRENT)
  inum : nd'.inum j = x
  name : nd'.name j = nm
  other : ∀ j', j' ≠ j → nd'.inum j' = nd.inum j' ∧ nd'.name j' = nd.name j'

theorem inum_congr (h : ∀ pos, j * DIRENT ≤ pos → pos < j * DIRENT + 2 → nd'.byte pos = nd.byte pos) :
    nd'.inum j = nd.inum j := by
  rw [inum, inum, h _ le_rfl (by omega), h _ (by omega) (by omega)]

theorem name_congr (h : ∀ pos, j * DIRENT + 2 ≤ pos → pos < j * DIRENT + DIRENT →
    nd'.byte pos = nd.byte pos) : nd'.name j = nd.name j := by
  refine List.map_congr_left fun i hi => h _ (by omega) ?_
  have := List.mem_range.mp hi
  unfold DIRENT
  omega

/-- The bytes of an entry tell its inode number and its name. -/
theorem entry_of_bytes (de : Dirent) (hde : de.name.length = DIRSIZ) (hx : de.inum < 65536)
    (hdata : ∀ i < DIRENT, nd.byte (j * DIRENT + i) = de.toBytes.getD i 0) :
    nd.inum j = de.inum ∧ nd.name j = de.name := by
  constructor
  · have h₀ := hdata 0 (by decide)
    have h₁ := hdata 1 (by decide)
    simp only [Nat.add_zero, Dirent.toBytes, List.getD_cons_zero, List.getD_cons_succ] at h₀ h₁
    rw [inum, h₀, h₁, UInt8.toNat_ofNat', UInt8.toNat_ofNat']
    omega
  · refine List.ext_getElem (by simp [name, hde]) fun i h₁ h₂ => ?_
    have := hdata (i + 2) (by unfold DIRENT; omega)
    rw [Dirent.toBytes, List.getD_cons_succ, List.getD_cons_succ, List.getD_eq_getElem?_getD,
      List.getElem?_eq_getElem h₂, Option.getD_some] at this
    rw [← this]
    simp only [name, read, List.getElem_map, List.getElem_range]
    congr 1
    omega

/-- A write of the bytes of an entry at its place. -/
theorem setEntry_of_wrote {nd₁ : Node} (de : Dirent) (hde : de.name.length = DIRSIZ)
    (hx : de.inum < 65536)
    (h : Wrote nd nd₁ (kernelSrc de.toBytes) (j * DIRENT) DIRENT DIRENT)
    (hsize : nd'.size = max nd.size (j * DIRENT + DIRENT)) (hbyte : nd'.byte = nd₁.byte) :
    SetEntry nd nd' j de.inum de.name := by
  obtain ⟨hinum, hname⟩ := entry_of_bytes (j := j) de hde hx fun i hi => by
    rw [hbyte]
    exact Option.some_injective _ (h.data i hi)
  refine ⟨hsize, hinum, hname, fun j' hj =>
    ⟨inum_congr fun pos h₁ h₂ => ?_, name_congr fun pos h₁ h₂ => ?_⟩⟩
  · rw [hbyte]
    exact h.outside pos (by unfold DIRENT DIRSIZ at *; omega)
  · rw [hbyte]
    exact h.outside pos (by unfold DIRENT DIRSIZ at *; omega)

namespace SetEntry

variable {x : ℕ} {nm : List UInt8}

theorem entries (h : SetEntry nd nd' j x nm) (ha : nd.size % DIRENT = 0) :
    nd'.entries = max nd.entries (j + 1) := by
  unfold Node.entries
  rw [h.size]
  unfold DIRENT DIRSIZ at *
  omega

theorem aligned (h : SetEntry nd nd' j x nm) (ha : nd.size % DIRENT = 0) :
    nd'.size % DIRENT = 0 := by
  rw [h.size]
  unfold DIRENT DIRSIZ at *
  omega

theorem named_iff (h : SetEntry nd nd' j x nm) (ha : nd.size % DIRENT = 0) (hj : j ≤ nd.entries)
    {j' : ℕ} : nd'.Named name j' ↔
      (j' = j ∧ x ≠ 0 ∧ canon nm = canon name) ∨ (j' ≠ j ∧ nd.Named name j') := by
  unfold Named
  rw [h.entries ha]
  rcases eq_or_ne j' j with rfl | hne
  · simp [h.inum, h.name]
  · simp only [hne, ne_eq, not_false_eq_true, true_and, false_and, false_or,
      (h.other j' hne).1, (h.other j' hne).2]
    refine and_congr_left fun _ => ?_
    omega

/-- A new entry for a name that is not there yet. -/
theorem add (h : SetEntry nd nd' j x nm) (hm : nd.IsMap) (hj : j ≤ nd.entries) (hx : x ≠ 0)
    (hfree : j < nd.entries → nd.inum j = 0) (hnew : nd.lookup nm = none) :
    nd'.IsMap ∧ nd'.lookup nm = some x ∧
      ∀ name, canon name ≠ canon nm → nd'.lookup name = nd.lookup name := by
  have hiff : ∀ name j', nd'.Named name j' ↔
      (j' = j ∧ x ≠ 0 ∧ canon nm = canon name) ∨ (j' ≠ j ∧ nd.Named name j') :=
    fun _ _ => h.named_iff hm.aligned hj
  rw [lookup_eq_none] at hnew
  have hmap : nd'.IsMap := by
    refine ⟨h.aligned hm.aligned, fun a b name ha hb => ?_⟩
    rcases (hiff name a).mp ha with ⟨rfl, -, hca⟩ | ⟨hane, ha⟩ <;>
      rcases (hiff name b).mp hb with ⟨rfl, -, hcb⟩ | ⟨hbne, hb⟩
    · rfl
    · exact absurd ⟨hb.1, hb.2.1, hb.2.2.trans hca.symm⟩ (hnew b)
    · exact absurd ⟨ha.1, ha.2.1, ha.2.2.trans hcb.symm⟩ (hnew a)
    · exact hm.unique a b name ha hb
  refine ⟨hmap, hmap.lookup_iff.mpr ⟨j, (hiff nm j).mpr (.inl ⟨rfl, hx, rfl⟩), h.inum⟩,
    fun name hne => ?_⟩
  have hsame : ∀ j', nd'.Named name j' ↔ nd.Named name j' := fun j' => by
    rw [hiff]
    refine ⟨?_, fun hn => .inr ⟨?_, hn⟩⟩
    · rintro (⟨-, -, hc⟩ | ⟨-, hn⟩)
      · exact absurd hc.symm hne
      · exact hn
    · rintro rfl
      exact hn.2.1 (hfree hn.1)
  refine Option.ext fun i => ?_
  rw [hmap.lookup_iff, hm.lookup_iff]
  refine exists_congr fun j' => ?_
  rw [hsame j']
  refine and_congr_right fun hn => ?_
  have hj' : j' ≠ j := by
    rintro rfl
    exact hn.2.1 (hfree hn.1)
  rw [(h.other j' hj').1]

/-- An entry is cleared. -/
theorem clear (h : SetEntry nd nd' j 0 nm) (hm : nd.IsMap) (hj : nd.Named name j) :
    nd'.IsMap ∧ nd'.lookup name = none ∧
      ∀ name', canon name' ≠ canon name → nd'.lookup name' = nd.lookup name' := by
  have hiff : ∀ name j', nd'.Named name j' ↔ j' ≠ j ∧ nd.Named name j' := fun name j' => by
    rw [h.named_iff hm.aligned hj.1.le]
    simp
  have hmap : nd'.IsMap := by
    refine ⟨h.aligned hm.aligned, fun a b name ha hb => ?_⟩
    exact hm.unique a b name ((hiff name a).mp ha).2 ((hiff name b).mp hb).2
  refine ⟨hmap, lookup_eq_none.mpr fun j' hn => ?_, fun name' hne => ?_⟩
  · obtain ⟨hne, hn⟩ := (hiff name j').mp hn
    exact hne (hm.unique j' j name hn hj)
  · refine Option.ext fun i => ?_
    rw [hmap.lookup_iff, hm.lookup_iff]
    refine exists_congr fun j' => ?_
    rw [hiff]
    constructor
    · rintro ⟨⟨hne', hn⟩, hi⟩
      exact ⟨hn, (h.other j' hne').1 ▸ hi⟩
    · rintro ⟨hn, hi⟩
      have hj' : j' ≠ j := by
        rintro rfl
        exact hne (hn.2.2.symm.trans hj.2.2)
      exact ⟨⟨hj', hn⟩, (h.other j' hj').1.symm ▸ hi⟩

/-- A directory stays well-formed when an entry after the first two is set. -/
theorem isDir (h : SetEntry nd nd' j x nm) (hd : nd.IsDir i) (hj : 2 ≤ j) (hm : nd'.IsMap) :
    nd'.IsDir i := by
  refine ⟨hm, ?_, ?_, ?_⟩
  · rw [h.entries hd.aligned]
    exact hd.two.trans (le_max_left ..)
  · rw [(h.other 0 (by omega)).1, (h.other 0 (by omega)).2]
    exact hd.self
  · rw [(h.other 1 (by omega)).1, (h.other 1 (by omega)).2]
    exact hd.parent

end SetEntry

end Node

end Xv6.Fs

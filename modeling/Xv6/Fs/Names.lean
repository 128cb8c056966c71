import Xv6.Fs.Calls

/-! # Names

A file system as a map from a directory and a name to an inode. A call that
succeeds changes the map at one name of one directory; only a directory without
links may go as well. A call that fails changes nothing.
-/

namespace Xv6.Fs

open Function

variable {sb : Superblock} {B : Iptr → ℕ} {T : Iptr → ℕ × ℤ} {s s' : State} {cwd : Iptr}
  {N M N' : ℕ → Node} {nd : Node} {c i d j k : ℕ} {name p x : List UInt8} {o l t : ℤ}
  {v : Option ℕ} {path : Option (List UInt8)}

/-- In the directories that stay, only `name` of `d` changes, to `v`. -/
def Renames (N N' : ℕ → Node) (d : ℕ) (name : List UInt8) (v : Option ℕ) : Prop :=
  ∀ j, (N j).type = T_DIR → (N' j).type = T_DIR → ∀ x,
    (N' j).lookup x = if j = d ∧ canon x = canon name then v else (N j).lookup x

theorem lookup_canon (h : canon x = canon name) : nd.lookup x = nd.lookup name := by
  rw [Node.lookup, Node.lookup, Node.find_congr h]

theorem Settle.renames (hs : Settle M N') (hself : (M d).lookup name = v)
    (hname : ∀ x, canon x ≠ canon name → (M d).lookup x = (N d).lookup x)
    (hother : ∀ j ≠ d, (N j).type = T_DIR → (M j).lookup = (N j).lookup) :
    Renames N N' d name v := by
  intro j hj hj' x
  have hkeep : (N' j).lookup x = (M j).lookup x := by
    rcases hs j with hsame | ⟨-, -, hz⟩
    · obtain ⟨hsize, hbyte⟩ := hsame.dir (hsame.type ▸ hj')
      exact Node.lookup_congr hsize hbyte
    · rw [hz] at hj'
      cases hj'
  rw [hkeep]
  split_ifs with hc
  · obtain ⟨rfl, hx⟩ := hc
    rw [lookup_canon hx, hself]
  · rcases eq_or_ne j d with rfl | hne
    · exact hname x fun hx => hc ⟨rfl, hx⟩
    · rw [hother j hne hj]

/-- A name is added. -/
theorem Entered.renames (h : Entered N M d k i (strncpy DIRSIZ name) l)
    (hfree : k < (N d).entries → (N d).inum k = 0) (hnew : (N d).lookup name = none)
    (hd : (N d).IsDir d) (hi : i ≠ 0) (hother : ∀ j ≠ d, (N j).type = T_DIR → M j = N j)
    (hs : Settle M N') : Renames N N' d name (some i) := by
  have hcut : ∀ nd : Node, nd.lookup (strncpy DIRSIZ name) = nd.lookup name := fun _ =>
    lookup_canon cut_strncpy
  obtain ⟨-, hself, hname⟩ := h.set.add hd.toIsMap h.le hi hfree ((hcut _).trans hnew)
  refine hs.renames ((hcut _).symm.trans hself) (fun x hx => hname x ?_) fun j hj ht => ?_
  · exact hx.trans_eq cut_strncpy.symm
  · rw [hother j hj ht]

theorem Unlinked.renames (h : Unlinked N M d k i name) (hd : (N d).IsDir d) (hs : Settle M N') :
    Renames N N' d name none := by
  obtain ⟨-, hself, hname⟩ := h.enter.set.clear hd.toIsMap (Node.find_eq_some h.find)
  refine hs.renames hself hname fun j hj _ => ?_
  rcases eq_or_ne j i with rfl | hji
  · rw [h.node]
    rfl
  · rw [h.other j hj hji]

/-- An inode that stays has the links that the call has given it. -/
theorem Settle.nlink (hs : Settle M N') (hi : (N' i).type ≠ 0) : (N' i).nlink = (M i).nlink :=
  ((hs i).resolve_right fun hz => hi hz.2.2).nlink

/-- Only the first two entries of a directory are in use. -/
theorem Node.IsDir.lookup_eq_none (h : nd.IsDir i)
    (hfree : ∀ j, 2 ≤ j → j < nd.entries → nd.inum j = 0) (hdot : canon x ≠ dot)
    (hdotdot : canon x ≠ dotdot) : nd.lookup x = none := by
  rw [Node.lookup_eq_none]
  intro j hj
  exact hj.2.1 (hfree j (h.two_le_of_named hj hdot hdotdot) hj.1)

/-! ## What the calls are for -/

/-- `sys_link`: the file at the path `old` gets the name at the end of `new`, and a link. -/
def Links (c : ℕ) (old new : Option (List UInt8)) (N N' : ℕ → Node) : Prop :=
  ∃ p ∈ old, ∃ q ∈ new, ∃ i nm d name, resolve N c p false = some (i, nm) ∧ (N i).type ≠ T_DIR ∧
    resolve N c q true = some (d, name) ∧ (N d).lookup name = none ∧
    Renames N N' d name (some i) ∧ ((N' i).type ≠ 0 → (N' i).nlink = short ((N i).nlink + 1))

/-- `sys_unlink`: the name at the end of the path goes, and a link of the inode that it stood for. A
directory is empty then. -/
def Unlinks (c : ℕ) (path : Option (List UInt8)) (N N' : ℕ → Node) : Prop :=
  ∃ p ∈ path, ∃ d name i, resolve N c p true = some (d, name) ∧ canon name ≠ dot ∧
    canon name ≠ dotdot ∧ (N d).lookup name = some i ∧
    ((N i).type = T_DIR → ∀ x, canon x ≠ dot → canon x ≠ dotdot → (N i).lookup x = none) ∧
    Renames N N' d name none ∧ ((N' i).type ≠ 0 → (N' i).nlink = short ((N i).nlink - 1))

/-- `sys_mkdir` and `sys_mknod`: the name at the end of the path, which was free, stands for a new
inode of type `t`. A new directory has the names `.` and `..` only. -/
def Makes (c : ℕ) (path : Option (List UInt8)) (t : ℤ) (N N' : ℕ → Node) : Prop :=
  ∃ p ∈ path, ∃ d name i, resolve N c p true = some (d, name) ∧ (N d).lookup name = none ∧
    (N i).type = 0 ∧ (N' i).type = t ∧ (N' i).nlink = 1 ∧ Renames N N' d name (some i) ∧
    (t = T_DIR → (N' i).lookup dot = some i ∧ (N' i).lookup dotdot = some d ∧
      ∀ x, canon x ≠ dot → canon x ≠ dotdot → (N' i).lookup x = none)

/-- The panics of a call: a full log or inode table, and directories that do not fit the inodes.
A process that waits for another one stops as well. -/
def Stops (e : Halt) : Prop := e ∈ [.log .tooBig, .sleep, .iget, .nlink, .noType]

theorem benign_stops : Benign Stops := by
  constructor <;> simp [Stops]

theorem stops_noType : Stops .noType := by
  simp [Stops]

/-- The call `m` does `P` and returns 0, or does nothing and returns -1, unless it stops. -/
def Does (m : K ℤ) (P : (ℕ → Node) → (ℕ → Node) → Prop) (s : State) : Prop :=
  wp m (fun e _ => Stops e) (fun r s' => r = 0 ∧ P s.disk.nodes s'.disk.nodes ∨
    r = -1 ∧ Kept s.disk.nodes s'.disk.nodes) s

theorem Does.done {m : K ℤ} {P : (ℕ → Node) → (ℕ → Node) → Prop} (h : Does m P s)
    (hm : m s = .ok 0 s') : P s.disk.nodes s'.disk.nodes :=
  ((h.ok hm).resolve_right fun hf => absurd hf.1 (by decide)).2

theorem Made.makes (h : Inv sb B T o s [] ∅) (hm : Made s.disk.nodes M d k i name t) (ht : t ≠ 0)
    (hp : path = some p) (hr : resolve s.disk.nodes c p true = some (d, name))
    (hs : Settle M s'.disk.nodes) (hI : Inv sb B T o s' [] ∅) :
    Makes c path t s.disk.nodes s'.disk.nodes := by
  obtain ⟨htype, hlink⟩ := hm.settle hs
  have hdir := h.dir d (Set.notMem_empty _) hm.enter.dir
  have hi := (hI.range i (htype.trans_ne ht)).1.ne'
  have hother : ∀ j ≠ d, (s.disk.nodes j).type = T_DIR → M j = s.disk.nodes j := by
    intro j hj hjt
    refine hm.other j hj ?_
    rintro rfl
    rw [hm.free] at hjt
    cases hjt
  refine ⟨p, hp, d, name, i, hr, hm.new, hm.free, htype, hlink,
    hm.enter.renames hm.fresh hm.new hdir hi hother hs, fun htd => ?_⟩
  -- nothing has happened to the new directory since its two entries were made
  have hsame := (hs i).resolve_right fun hz => absurd hz.2.2 (htype.trans_ne ht)
  obtain ⟨hsize, hbyte⟩ := hsame.dir (hm.type.trans htd)
  obtain ⟨hentries, hinum, -⟩ := Node.entries_congr hsize hbyte
  obtain ⟨htwo, hparent⟩ := hm.dots htd
  have hnew := hI.dir i (Set.notMem_empty _) (htype.trans htd)
  refine ⟨?_, ?_, fun x => hnew.lookup_eq_none fun j hj hlt => by omega⟩
  · exact hnew.lookup_iff.mpr ⟨0, ⟨by omega, hnew.self.1.trans_ne hi, hnew.self.2⟩, hnew.self.1⟩
  · exact hnew.lookup_iff.mpr ⟨1, ⟨by omega, hnew.parent⟩, by rw [hinum, hparent]⟩

section Calls

variable (hsb : sb.Valid) (h : Inv sb B T o s [] ∅) (ho : 0 ≤ o) (hcwd : 0 < B cwd)

include hsb h ho hcwd

theorem sysLink_links (old new : Option (List UInt8)) :
    Does (sysLink sb cwd old new) (Links (T cwd).1 old new) s := by
  refine wp_sysLink hsb h ho hcwd benign_stops (.inl stops_noType) (fun _ hk _ => .inr ⟨rfl, hk⟩)
    fun s' M d k i p q nm name hp hq hrp hrq hl hs _ => .inl ⟨rfl, ?_⟩
  have hdir := h.dir d (Set.notMem_empty _) hl.enter.dir
  have hi := (h.range i hl.type).1.ne'
  refine ⟨p, hp, q, hq, i, nm, d, name, hrp, hl.file, hrq, hl.new,
    hl.enter.renames hl.fresh hl.new hdir hi (fun j hj ht => hl.other j hj ?_) hs, fun ht => ?_⟩
  · rintro rfl
    exact hl.file ht
  · rw [hs.nlink ht, hl.nlink]

theorem sysUnlink_unlinks (path : Option (List UInt8)) :
    Does (sysUnlink sb cwd path) (Unlinks (T cwd).1 path) s := by
  refine wp_sysUnlink hsb h ho hcwd benign_stops (.inl stops_noType) (fun _ hk _ => .inr ⟨rfl, hk⟩)
    fun s' M d k i p name hp hrp hdot hdotdot hu hs _ => .inl ⟨rfl, ?_⟩
  have hdir := h.dir d (Set.notMem_empty _) hu.enter.dir
  refine ⟨p, hp, d, name, i, hrp, hdot, hdotdot, ?_, fun ht x => ?_, hu.renames hdir hs,
    fun ht => ?_⟩
  · rw [Node.lookup, hu.find, Option.map_some, hu.inum]
  · exact (h.dir i (Set.notMem_empty _) ht).lookup_eq_none (hu.empty ht)
  · rw [hs.nlink ht, hu.node]

theorem sysMkdir_makes (path : Option (List UInt8)) (major minor : ℤ) :
    Does (sysMkdir sb cwd path) (Makes (T cwd).1 path T_DIR) s ∧
      Does (sysMknod sb cwd path major minor) (Makes (T cwd).1 path T_DEVICE) s := by
  have hmake : ∀ t major minor, t ≠ 0 → t ≠ T_FILE →
      Does (do beginOp; makeNode sb cwd path t major minor) (Makes (T cwd).1 path t) s :=
    fun t major minor ht hfile => wp_makeOp hsb h ho hcwd benign_stops (.inl stops_noType) ht
      hfile (fun _ hk _ => .inr ⟨rfl, hk⟩)
      fun s' M d k i p name hp hr hm hs hI => .inl ⟨rfl, hm.makes h ht hp hr hs hI⟩
  exact ⟨hmake T_DIR 0 0 (by decide) (by decide), hmake T_DEVICE _ _ (by decide) (by decide)⟩

end Calls

/-! ## On the small file system -/

theorem valid_smallFs : smallFs.superblock.Valid := ⟨by decide, by decide⟩

theorem link_smallFs : wp (sysLink smallFs.superblock 0 (some [97]) (some [98]))
    (fun _ _ => False) (fun r _ => r = 0) smallFs := by
  decide +kernel

theorem unlink_smallFs : wp (sysUnlink smallFs.superblock 0 (some [97]))
    (fun _ _ => False) (fun r _ => r = 0) smallFs := by
  decide +kernel

theorem mkdir_smallFs : wp (sysMkdir smallFs.superblock 0 (some [98]))
    (fun _ _ => False) (fun r _ => r = 0) smallFs := by
  decide +kernel

theorem sysLink_links_small : ∃ s', sysLink smallFs.superblock 0 (some [97]) (some [98]) smallFs =
    .ok 0 s' ∧ Links 1 (some [97]) (some [98]) smallFs.disk.nodes s'.disk.nodes := by
  obtain ⟨r, s', hr, rfl⟩ := link_smallFs.returns
  exact ⟨s', hr, (sysLink_links valid_smallFs inv_smallFs le_rfl (by decide) _ _).done hr⟩

theorem sysUnlink_unlinks_small : ∃ s', sysUnlink smallFs.superblock 0 (some [97]) smallFs =
    .ok 0 s' ∧ Unlinks 1 (some [97]) smallFs.disk.nodes s'.disk.nodes := by
  obtain ⟨r, s', hr, rfl⟩ := unlink_smallFs.returns
  exact ⟨s', hr, (sysUnlink_unlinks valid_smallFs inv_smallFs le_rfl (by decide) _).done hr⟩

theorem sysMkdir_makes_small : ∃ s', sysMkdir smallFs.superblock 0 (some [98]) smallFs =
    .ok 0 s' ∧ Makes 1 (some [98]) T_DIR smallFs.disk.nodes s'.disk.nodes := by
  obtain ⟨r, s', hr, rfl⟩ := mkdir_smallFs.returns
  exact ⟨s', hr, (sysMkdir_makes valid_smallFs inv_smallFs le_rfl (by decide) _ 0 0).1.done hr⟩

end Xv6.Fs

import Xv6.Fs.Entries
import Xv6.Fs.Content

/-! # The inode table

The invariant of the file system while a system call runs. `B` counts the
references to each table entry that last longer than the call, those of open
files and current directories, and `T` gives the inode number and the type of
the inodes they hold; `R` lists the references of the call itself, with the
locks it has taken. The directories in `X` are under construction.
-/

namespace Xv6.Fs

open Function

/-- A reference to an entry of the inode table that a call holds. -/
structure Ref where
  ptr : Iptr
  inum : ℕ
  locked : Bool

/-- How many references there are to an entry. -/
def refs (R : List Ref) (k : Iptr) : ℕ := R.countP fun r => r.ptr = k

structure LogOk (sb : Superblock) (o : ℤ) (l : Buffer.Log) : Prop where
  outstanding : l.outstanding = o
  committing : l.committing = false
  size : l.size = sb.nlog
  idle : o = 0 → l.lh = []

structure Inv (sb : Superblock) (B : Iptr → ℕ) (T : Iptr → ℕ × ℤ) (o : ℤ) (s : State)
    (R : List Ref) (X : Set ℕ) : Prop where
  held : s.held = []
  log : LogOk sb o s.log
  own : Own sb s.disk
  node : ∀ i, (s.disk.nodes i).Ok
  nlink : ∀ i, short (s.disk.nodes i).nlink = (s.disk.nodes i).nlink
  dir : ∀ i, i ∉ X → (s.disk.nodes i).type = T_DIR → (s.disk.nodes i).IsDir i
  range : ∀ i, (s.disk.nodes i).type ≠ 0 → 0 < i ∧ i < sb.ninodes
  ref : ∀ k, (s.itable k).ref = B k + refs R k
  inum : ∀ r ∈ R, (s.itable r.ptr).inum = r.inum
  dev : ∀ k, 0 < (s.itable k).ref → (s.itable k).dev = ROOTDEV
  unique : ∀ k k', 0 < (s.itable k).ref → 0 < (s.itable k').ref →
    (s.itable k).inum = (s.itable k').inum → k = k'
  locked : ∀ k, (s.itable k).locked = true ↔ ∃ r ∈ R, r.ptr = k ∧ r.locked = true
  /-- No entry is locked twice. -/
  once : R.Pairwise fun r r' => r.ptr = r'.ptr → ¬ (r.locked = true ∧ r'.locked = true)
  valid : ∀ k, (s.itable k).locked = true → (s.itable k).valid = true
  /-- A valid entry shows the inode on the disk. -/
  sync : ∀ k, 0 < (s.itable k).ref → (s.itable k).valid = true →
    (s.itable k).toDinode = s.disk.dinode (s.itable k).inum ∧ (s.itable k).type ≠ 0
  tag : ∀ k, 0 < B k → T k = ((s.itable k).inum, (s.disk.nodes (s.itable k).inum).type) ∧
    (s.disk.nodes (s.itable k).inum).type ≠ 0
  /-- An allocated inode without links is in use. -/
  unlinked : ∀ i, i ∉ X → (s.disk.nodes i).type ≠ 0 → (s.disk.nodes i).nlink = 0 →
    ∃ k, 0 < (s.itable k).ref ∧ (s.itable k).valid = true ∧ (s.itable k).inum = i

variable {sb : Superblock} {B : Iptr → ℕ} {T : Iptr → ℕ × ℤ} {o : ℤ} {s s' : State}
  {R R' l l' : List Ref} {X X' : Set ℕ} {ip k : Iptr} {i : ℕ} {n : Inode} {F : Halt → Prop}

@[simp] theorem refs_nil : refs [] k = 0 := rfl

@[simp] theorem refs_cons {r : Ref} :
    refs (r :: R) k = refs R k + if r.ptr = k then 1 else 0 := by
  unfold refs
  rw [List.countP_cons]
  congr 1
  simp

theorem refs_append : refs (l ++ R) k = refs l k + refs R k := List.countP_append

theorem refs_eq_zero : refs R k = 0 ↔ ∀ r ∈ R, r.ptr ≠ k := by simp [refs]

theorem LogOk.logged {l l' : Buffer.Log} {c : ℕ} (h : LogOk sb o l) (hl : Logged l l' c)
    (ho : 1 ≤ o) : LogOk sb o l' :=
  ⟨hl.outstanding.trans h.outstanding, hl.committing.trans h.committing, hl.size.trans h.size,
    by omega⟩

namespace Inv

theorem perm (h : Inv sb B T o s R X) (hp : R.Perm R') : Inv sb B T o s R' X :=
  { h with
    ref := fun k => by
      rw [h.ref]
      exact congrArg (B k + ·) (hp.countP_eq _)
    inum := fun r hr => h.inum r (hp.mem_iff.mpr hr)
    locked := fun k => by simp only [h.locked, hp.mem_iff]
    once := by
      refine (hp.pairwise_iff fun {a b} hab heq => ?_).mp h.once
      exact fun hb => hab heq.symm hb.symm }

theorem mono (h : Inv sb B T o s R X) (hX : X ⊆ X') : Inv sb B T o s R X' :=
  { h with
    dir := fun i hi => h.dir i fun hmem => hi (hX hmem)
    unlinked := fun i hi => h.unlinked i fun hmem => hi (hX hmem) }

/-- Change one entry of the table and the references to it, from `l` to `l'`. -/
theorem setInode (l l' : List Ref) (h : Inv sb B T o s (l ++ R) X) (hl : ∀ r ∈ l, r.ptr = ip)
    (hl' : ∀ r ∈ l', r.ptr = ip ∧ r.inum = n.inum) (hlen : l'.length ≤ 1)
    (href : n.ref + refs l ip = (s.itable ip).ref + refs l' ip)
    (hdev : 0 < n.ref → n.dev = ROOTDEV)
    (hkeep : 0 < B ip + refs R ip → n.inum = (s.itable ip).inum)
    (hfresh : 0 < n.ref → ∀ k ≠ ip, 0 < (s.itable k).ref → (s.itable k).inum ≠ n.inum)
    (hlocked : n.locked = true ↔
      (∃ r ∈ l', r.locked = true) ∨ ∃ r ∈ R, r.ptr = ip ∧ r.locked = true)
    (honce : (∃ r ∈ l', r.locked = true) → ∀ r ∈ R, r.ptr = ip → r.locked = false)
    (hvalid : n.locked = true → n.valid = true)
    (hsync : 0 < n.ref → n.valid = true →
      n.toDinode = s.disk.dinode n.inum ∧ n.type ≠ 0)
    (hunlinked : (s.itable ip).valid = true → 0 < (s.itable ip).ref →
      (s.disk.nodes (s.itable ip).inum).type ≠ 0 → (s.disk.nodes (s.itable ip).inum).nlink = 0 →
      0 < n.ref ∧ n.valid = true ∧ n.inum = (s.itable ip).inum) :
    Inv sb B T o (s.setInode ip n) (l' ++ R) X where
  held := h.held
  log := h.log
  own := h.own
  node := h.node
  nlink := h.nlink
  dir := h.dir
  range := h.range
  ref k := by
    have := h.ref k
    rw [refs_append] at this ⊢
    rcases eq_or_ne k ip with rfl | hk
    · rw [State.setInode_itable, update_self]
      omega
    · rw [State.setInode_itable, update_of_ne hk, this,
        refs_eq_zero.mpr fun r hr => (hl r hr).trans_ne hk.symm,
        refs_eq_zero.mpr fun r hr => (hl' r hr).1.trans_ne hk.symm]
  inum r hr := by
    rw [State.setInode_itable]
    rcases List.mem_append.mp hr with hr | hr
    · rw [(hl' r hr).1, update_self, (hl' r hr).2]
    · have := h.inum r (List.mem_append_right _ hr)
      rcases eq_or_ne r.ptr ip with he | hne
      · have hpos : 0 < refs R ip := Nat.pos_of_ne_zero fun h₀ => refs_eq_zero.mp h₀ r hr he
        rw [he, update_self, hkeep (by omega), ← this, he]
      · rw [update_of_ne hne, this]
  dev k := by
    rcases eq_or_ne k ip with rfl | hk
    · simpa using hdev
    · simpa [update_of_ne hk] using h.dev k
  unique k k' := by
    rw [State.setInode_itable]
    rcases eq_or_ne k ip with hk | hk <;> rcases eq_or_ne k' ip with hk' | hk'
    · exact fun _ _ _ => hk.trans hk'.symm
    · rw [hk, update_self, update_of_ne hk']
      exact fun hr hr' he => absurd he.symm (hfresh hr k' hk' hr')
    · rw [hk', update_self, update_of_ne hk]
      exact fun hr hr' he => absurd he (hfresh hr' k hk hr)
    · rw [update_of_ne hk, update_of_ne hk']
      exact h.unique k k'
  locked k := by
    rw [State.setInode_itable]
    rcases eq_or_ne k ip with rfl | hk
    · rw [update_self, hlocked]
      simp only [List.mem_append, or_and_right, exists_or]
      refine or_congr_left ⟨fun ⟨r, hr, h₁⟩ => ⟨r, hr, (hl' r hr).1, h₁⟩,
        fun ⟨r, hr, _, h₁⟩ => ⟨r, hr, h₁⟩⟩
    · rw [update_of_ne hk, h.locked k]
      simp only [List.mem_append, or_and_right, exists_or]
      refine or_congr_left (iff_of_false ?_ ?_)
      · rintro ⟨r, hr, hrk, -⟩
        exact hk (hrk.symm.trans (hl r hr))
      · rintro ⟨r, hr, hrk, -⟩
        exact hk (hrk.symm.trans (hl' r hr).1)
  once := by
    rw [List.pairwise_append]
    refine ⟨?_, (List.pairwise_append.mp h.once).2.1, fun a ha b hb he hab => ?_⟩
    · rcases l' with _ | ⟨a, _ | ⟨b, l'⟩⟩
      · exact .nil
      · exact List.pairwise_singleton ..
      · simp at hlen
    · have := honce ⟨a, ha, hab.1⟩ b hb (he.symm.trans (hl' a ha).1)
      simp [hab.2] at this
  valid k := by
    rcases eq_or_ne k ip with rfl | hk
    · simpa using hvalid
    · simpa [update_of_ne hk] using h.valid k
  sync k := by
    rcases eq_or_ne k ip with rfl | hk
    · simpa using hsync
    · simpa [update_of_ne hk] using h.sync k
  tag k hk := by
    have := h.tag k hk
    rcases eq_or_ne k ip with rfl | hne
    · simpa [hkeep (by omega)] using this
    · simpa [update_of_ne hne] using this
  unlinked i hX hi h₀ := by
    obtain ⟨k, hr, hv, rfl⟩ := h.unlinked i hX hi h₀
    rcases eq_or_ne k ip with rfl | hk
    · have := hunlinked hv hr hi h₀
      exact ⟨k, by simpa using this⟩
    · exact ⟨k, by simp [update_of_ne hk, hr, hv]⟩

/-- A locked entry shows its inode. -/
theorem inode (h : Inv sb B T o s (⟨ip, i, true⟩ :: R) X) :
    (s.itable ip).inum = i ∧ (s.itable ip).toDinode = s.disk.dinode i ∧
      (s.itable ip).type ≠ 0 ∧ 0 < (s.itable ip).ref := by
  have hi : (s.itable ip).inum = i := h.inum ⟨ip, i, true⟩ List.mem_cons_self
  have hr : 0 < (s.itable ip).ref := by simp [h.ref ip]
  have hl : (s.itable ip).locked = true :=
    (h.locked ip).mpr ⟨⟨ip, i, true⟩, List.mem_cons_self, rfl, rfl⟩
  obtain ⟨h₁, h₂⟩ := h.sync ip hr (h.valid ip hl)
  exact ⟨hi, hi ▸ h₁, h₂, hr⟩

theorem attr (h : Inv sb B T o s (⟨ip, i, true⟩ :: R) X) :
    (s.disk.nodes i).toAttr = (s.itable ip).toAttr := by
  obtain ⟨-, hd, ht, -⟩ := h.inode
  rw [hd] at ht ⊢
  exact Disk.nodes_toAttr ht

theorem flush (h : Inv sb B T o s (⟨ip, i, true⟩ :: R) X) : s.flush ip = s.disk := by
  obtain ⟨hi, hd, -, -⟩ := h.inode
  rw [State.flush, hi, hd, Disk.setDinode_self]

theorem ready (h : Inv sb B T o s (⟨ip, i, true⟩ :: R) X) (ho : 1 ≤ o) : Ready sb s ip where
  own := h.flush.symm ▸ h.own
  type := h.inode.2.2.1
  held := h.held
  op := h.log.outstanding.symm ▸ ho

/-- Change a locked inode, in the table and on the disk alike. -/
theorem change {nd : Node} {d : Dinode} (h : Inv sb B T o s (⟨ip, i, true⟩ :: R) X)
    (hheld : s'.held = []) (hlog : LogOk sb o s'.log)
    (hit : s'.itable = update s.itable ip { s.itable ip with toDinode := d })
    (hdin : s'.disk.dinode = update s.disk.dinode i d)
    (htype : d.type = (s.itable ip).type) (hown : Own sb s'.disk)
    (hnodes : s'.disk.nodes = update s.disk.nodes i nd) (hok : nd.Ok)
    (hnl : short nd.nlink = nd.nlink)
    (hdir : nd.type = T_DIR → i ∉ X' → nd.IsDir i) (hX : ∀ j ∈ X, j ≠ i → j ∈ X') :
    Inv sb B T o s' (⟨ip, i, true⟩ :: R) X' := by
  obtain ⟨hi, hd, ht, hr⟩ := h.inode
  have hne : ∀ k ≠ ip, 0 < (s.itable k).ref → (s.itable k).inum ≠ i := fun k hk hkr he =>
    hk (h.unique k ip hkr hr (he.trans hi.symm))
  have hself : s'.itable ip = { s.itable ip with toDinode := d } := by
    rw [hit, update_self]
  have hother : ∀ k ≠ ip, s'.itable k = s.itable k := fun k hk => by
    rw [hit, update_of_ne hk]
  have href : ∀ k, (s'.itable k).ref = (s.itable k).ref := fun k => by
    rcases eq_or_ne k ip with rfl | hk
    · rw [hself]
    · rw [hother k hk]
  have hinum : ∀ k, (s'.itable k).inum = (s.itable k).inum := fun k => by
    rcases eq_or_ne k ip with rfl | hk
    · rw [hself]
    · rw [hother k hk]
  have hvalid : ∀ k, (s'.itable k).valid = (s.itable k).valid := fun k => by
    rcases eq_or_ne k ip with rfl | hk
    · rw [hself]
    · rw [hother k hk]
  have hlocked : ∀ k, (s'.itable k).locked = (s.itable k).locked := fun k => by
    rcases eq_or_ne k ip with rfl | hk
    · rw [hself]
    · rw [hother k hk]
  have htypes : ∀ j, (s'.disk.nodes j).type = (s.disk.nodes j).type := fun j => by
    rw [Disk.nodes_type, Disk.nodes_type, hdin]
    rcases eq_or_ne j i with rfl | hj
    · rw [update_self, htype, hd]
    · rw [update_of_ne hj]
  refine ⟨hheld, hlog, hown, fun j => ?_, fun j => ?_, fun j hj => ?_, fun j => ?_, fun k => ?_,
    fun r hmem => ?_, fun k => ?_, fun k k' => ?_, fun k => ?_, h.once, fun k => ?_, fun k => ?_,
    fun k hk => ?_, fun j hjX hj h₀ => ?_⟩
  · rw [hnodes]
    rcases eq_or_ne j i with rfl | hj
    · rwa [update_self]
    · rw [update_of_ne hj]
      exact h.node j
  · rw [hnodes]
    rcases eq_or_ne j i with rfl | hj
    · rwa [update_self]
    · rw [update_of_ne hj]
      exact h.nlink j
  · rw [hnodes]
    rcases eq_or_ne j i with rfl | hji
    · rw [update_self]
      exact fun ht => hdir ht hj
    · rw [update_of_ne hji]
      exact h.dir j fun hmem => hj (hX j hmem hji)
  · rw [htypes]
    exact h.range j
  · rw [href, h.ref]
  · rw [hinum]
    exact h.inum r hmem
  · rw [href]
    rcases eq_or_ne k ip with rfl | hk
    · rw [hself]
      exact h.dev k
    · rw [hother k hk]
      exact h.dev k
  · rw [href, href, hinum, hinum]
    exact h.unique k k'
  · rw [hlocked, h.locked]
  · rw [hlocked, hvalid]
    exact h.valid k
  · rw [href, hvalid]
    intro hk hv
    rcases eq_or_ne k ip with rfl | hne'
    · rw [hself, hdin]
      simp only [hi, update_self, true_and]
      rw [htype]
      exact ht
    · rw [hother k hne', hdin, update_of_ne (hne k hne' hk)]
      exact h.sync k hk hv
  · rw [hinum, htypes]
    exact h.tag k hk
  · rcases eq_or_ne j i with rfl | hji
    · refine ⟨ip, by rw [href]; exact hr, ?_, by rw [hinum]; exact hi⟩
      rw [hvalid]
      exact h.valid ip ((h.locked ip).mpr ⟨⟨ip, j, true⟩, List.mem_cons_self, rfl, rfl⟩)
    · rw [htypes] at hj
      rw [hnodes, update_of_ne hji] at h₀
      obtain ⟨k, hk⟩ := h.unlinked j (fun hmem => hjX (hX j hmem hji)) hj h₀
      exact ⟨k, by rw [href, hvalid, hinum]; exact hk⟩

/-- Free the inode of an entry with no other reference. -/
theorem freed (h : Inv sb B T o s (⟨ip, i, false⟩ :: R) X) (hB : B ip = 0) (hR : refs R ip = 0)
    (hheld : s'.held = []) (hlog : LogOk sb o s'.log) (hown : Own sb s'.disk)
    (hit : s'.itable = update s.itable ip n) (hn : n.ref = 0) (hnl : n.locked = false)
    (hdin : ∀ j ≠ i, s'.disk.dinode j = s.disk.dinode j)
    (hnodes : s'.disk.nodes = update s.disk.nodes i .free) :
    Inv sb B T o s' R (X \ {i}) := by
  have hi : (s.itable ip).inum = i := h.inum ⟨ip, i, false⟩ List.mem_cons_self
  have hr : 0 < (s.itable ip).ref := by simp [h.ref ip]
  have hne : ∀ k ≠ ip, 0 < (s.itable k).ref → (s.itable k).inum ≠ i := fun k hk hkr he =>
    hk (h.unique k ip hkr hr (he.trans hi.symm))
  have hself : s'.itable ip = n := by rw [hit, update_self]
  have hother : ∀ k ≠ ip, s'.itable k = s.itable k := fun k hk => by
    rw [hit, update_of_ne hk]
  have hptr : ∀ r ∈ R, r.ptr ≠ ip := refs_eq_zero.mp hR
  have hin : ∀ k, 0 < (s'.itable k).ref → k ≠ ip := by
    rintro k hk rfl
    rw [hself, hn] at hk
    omega
  have hnode : ∀ j ≠ i, s'.disk.nodes j = s.disk.nodes j := fun j hj => by
    rw [hnodes, update_of_ne hj]
  have hfree : s'.disk.nodes i = .free := by rw [hnodes, update_self]
  refine ⟨hheld, hlog, hown, fun j => ?_, fun j => ?_, fun j hj ht => ?_, fun j ht => ?_,
    fun k => ?_, fun r hmem => ?_, fun k hk => ?_, fun k k' hk hk' => ?_, fun k => ?_,
    (List.pairwise_cons.mp h.once).2, fun k hk => ?_, fun k hk hv => ?_, fun k hk => ?_,
    fun j hjX hj h₀ => ?_⟩
  · rcases eq_or_ne j i with rfl | hj
    · rw [hfree]
      exact .free
    · rw [hnode j hj]
      exact h.node j
  · rcases eq_or_ne j i with rfl | hj
    · rw [hfree]
      rfl
    · rw [hnode j hj]
      exact h.nlink j
  · rcases eq_or_ne j i with rfl | hji
    · rw [hfree] at ht
      cases ht
    · rw [hnode j hji] at ht ⊢
      exact h.dir j (fun hmem => hj ⟨hmem, hji⟩) ht
  · rcases eq_or_ne j i with rfl | hji
    · exact absurd (by rw [hfree]; rfl) ht
    · rw [hnode j hji] at ht
      exact h.range j ht
  · rcases eq_or_ne k ip with rfl | hk
    · rw [hself, hn, hB, hR]
    · rw [hother k hk, h.ref k]
      simp [Ne.symm hk]
  · rw [hother _ (hptr r hmem)]
    exact h.inum r (List.mem_cons_of_mem _ hmem)
  · have hki := hin k hk
    rw [hother k hki] at hk ⊢
    exact h.dev k hk
  · have hki := hin k hk
    have hki' := hin k' hk'
    rw [hother k hki] at hk ⊢
    rw [hother k' hki'] at hk' ⊢
    exact h.unique k k' hk hk'
  · rcases eq_or_ne k ip with rfl | hk
    · rw [hself, hnl]
      simp only [Bool.false_eq_true, false_iff]
      rintro ⟨r, hmem, he, -⟩
      exact hptr r hmem he
    · rw [hother k hk, h.locked]
      simp
  · rcases eq_or_ne k ip with rfl | hne'
    · rw [hself, hnl] at hk
      cases hk
    · rw [hother k hne'] at hk ⊢
      exact h.valid k hk
  · have hki := hin k hk
    rw [hother k hki] at hk hv ⊢
    rw [hdin _ (hne k hki hk)]
    exact h.sync k hk hv
  · have hki : k ≠ ip := by
      rintro rfl
      omega
    have hk' : 0 < (s.itable k).ref := by rw [h.ref]; omega
    rw [hother k hki, hnode _ (hne k hki hk')]
    exact h.tag k hk
  · have hji : j ≠ i := by
      rintro rfl
      exact hj (by rw [hfree]; rfl)
    rw [hnode j hji] at hj h₀
    obtain ⟨k, hk, hv, rfl⟩ := h.unlinked j (fun hmem => hjX ⟨hmem, hji⟩) hj h₀
    have hki : k ≠ ip := fun e => hji (e ▸ hi)
    exact ⟨k, by rw [hother k hki]; exact ⟨hk, hv, rfl⟩⟩

end Inv

variable {Q : Unit → State → Prop}

section Table

theorem wp_beginOp (h : Inv sb B T o s R X) (ho : 0 ≤ o) (hF : F .sleep)
    (hQ : ∀ s', s'.disk = s.disk → s'.itable = s.itable →
      Inv sb B T (o + 1) s' R X → Q () s') :
    wp beginOp (fun e _ => F e) Q s := by
  have hl := h.log
  unfold wp beginOp Journal.beginOp
  rw [hl.committing, if_neg Bool.false_ne_true]
  by_cases hfull : (s.log.lh.length : ℤ) + (s.log.outstanding + 1) * MAXOPBLOCKS > LOGSIZE
  · rw [if_pos hfull]
    exact hF
  · rw [if_neg hfull]
    refine hQ _ rfl rfl { h with log := ⟨?_, rfl, hl.size, by omega⟩ }
    simp [hl.outstanding]

theorem wp_endOp (h : Inv sb B T (o + 1) s R X)
    (hQ : ∀ s', s'.disk = s.disk → s'.itable = s.itable →
      Inv sb B T o s' R X → Q () s') :
    wp endOp (fun e _ => F e) Q s := by
  have hl := h.log
  unfold wp endOp Journal.endOp
  simp only [hl.committing, hl.outstanding, add_sub_cancel_right, Bool.false_eq_true, if_false]
  by_cases ho : o = 0
  · rw [if_pos ho]
    exact hQ _ rfl rfl { h with log := ⟨ho.symm ▸ rfl, rfl, hl.size, fun _ => rfl⟩ }
  · rw [if_neg ho]
    exact hQ _ rfl rfl { h with log := ⟨rfl, rfl, hl.size, fun h₀ => absurd h₀ ho⟩ }

/-- `ip` has no other reference and its inode no link. -/
def Last (s : State) (B : Iptr → ℕ) (R : List Ref) (ip : Iptr) (i : ℕ) : Prop :=
  (s.disk.nodes i).type ≠ 0 ∧ (s.disk.nodes i).nlink = 0 ∧ B ip = 0 ∧ refs R ip = 0

theorem wp_iget {Q : Iptr → State → Prop} (h : Inv sb B T o s R X) (hF : F .iget)
    (hQ : ∀ ip s', s'.disk = s.disk → Inv sb B T o s' (⟨ip, i, false⟩ :: R) X →
      (i ∉ X → ¬ Last s B R ip i) → Q ip s') :
    wp (iget ROOTDEV i) (fun e _ => F e) Q s := by
  unfold wp iget
  rcases hfind : (List.finRange NINODE).find? (fun k => 0 < (s.itable k).ref ∧
    (s.itable k).dev = ROOTDEV ∧ (s.itable k).inum = i) with _ | ip
  · rcases hempty : (List.finRange NINODE).find? (fun k => (s.itable k).ref = 0) with _ | ip
    · exact hF
    · have h₀ : (s.itable ip).ref = 0 := by simpa using List.find?_some hempty
      have hno : ∀ k, 0 < (s.itable k).ref → (s.itable k).inum ≠ i := fun k hk he => by
        have := List.find?_eq_none.mp hfind k (List.mem_finRange k)
        simp [hk, h.dev k hk, he] at this
      have hB : B ip + refs R ip = 0 := by rw [← h.ref, h₀]
      have hR : ∀ r ∈ R, r.ptr ≠ ip := refs_eq_zero.mp (by omega)
      refine hQ ip _ rfl ?_ fun hX ⟨ht, hnl, _⟩ => ?_
      rotate_left
      · obtain ⟨k, hk, -, hki⟩ := h.unlinked i hX ht hnl
        exact hno k hk hki
      refine Inv.setInode [] [⟨ip, i, false⟩] h (by simp) (by simp)
        le_rfl (by simp [h₀]) (fun _ => rfl) (fun hk => by omega) (fun _ k _ hk => hno k hk) ?_
        (by simp) (fun hl => ?_) (fun _ hv => by simp at hv) (fun _ hr => by omega)
      · simp only [h.locked ip]
        refine iff_of_false (fun ⟨r, hr, he, _⟩ => hR r hr he) ?_
        rintro (⟨r, hr, hl⟩ | ⟨r, hr, he, -⟩)
        · simp at hr
          simp [hr] at hl
        · exact hR r hr he
      · obtain ⟨r, hr, he, -⟩ := (h.locked ip).mp hl
        exact absurd he (hR r hr)
  · have hip : 0 < (s.itable ip).ref ∧ (s.itable ip).dev = ROOTDEV ∧ (s.itable ip).inum = i := by
      simpa using List.find?_some hfind
    refine hQ ip _ rfl ?_ fun _ ⟨_, _, hB, hR⟩ => ?_
    · exact Inv.setInode [] [⟨ip, i, false⟩] h (by simp)
        (by simp [hip.2.2]) le_rfl (by simp) (fun _ => hip.2.1) (fun _ => rfl)
        (fun _ k hk hr he => hk (h.unique k ip hr hip.1 he)) (by simp [h.locked ip])
        (by simp) (h.valid ip) (fun _ hv => h.sync ip hip.1 hv) fun hv hr _ _ => ⟨by simp, hv, rfl⟩
    · have := h.ref ip
      omega

theorem wp_idup {Q : Iptr → State → Prop} (h : Inv sb B T o s R X) (hk : 0 < (s.itable ip).ref)
    (hQ : ∀ s', s'.disk = s.disk →
      Inv sb B T o s' (⟨ip, (s.itable ip).inum, false⟩ :: R) X → Q ip s') :
    wp (idup ip) (fun e _ => F e) Q s := by
  unfold idup
  rw [wp_bind, wp_modifyInode, wp_pure]
  exact hQ _ rfl (Inv.setInode [] [⟨ip, (s.itable ip).inum, false⟩] h (by simp)
    (by simp) le_rfl (by simp) (fun _ => h.dev ip hk) (fun _ => rfl)
    (fun _ k hne hr he => hne (h.unique k ip hr hk he)) (by simp [h.locked ip])
    (by simp) (h.valid ip) (fun _ hv => h.sync ip hk hv) fun hv hr _ _ => ⟨by simp, hv, rfl⟩)

theorem wp_ilock (h : Inv sb B T o s (⟨ip, i, false⟩ :: R) X)
    (hs : (s.itable ip).locked = true → F .sleep) (hF : (s.disk.nodes i).type = 0 → F .noType)
    (hQ : ∀ s', s'.disk = s.disk → (s.disk.nodes i).type ≠ 0 →
      Inv sb B T o s' (⟨ip, i, true⟩ :: R) X → Q () s') :
    wp (ilock sb ip) (fun e _ => F e) Q s := by
  have hi : (s.itable ip).inum = i := h.inum ⟨ip, i, false⟩ List.mem_cons_self
  have hr : 0 < (s.itable ip).ref := by simp [h.ref ip]
  unfold ilock
  rw [wp_bind, wp_getInode, wp_bind, wp_stopIf]
  refine ⟨fun hlt => by omega, fun _ => ?_⟩
  rw [wp_bind, wp_stopIf]
  refine ⟨hs, fun hnl => ?_⟩
  have hfree : ∀ r ∈ R, r.ptr = ip → r.locked = false := fun r hmem he => by
    by_contra hl
    exact hnl ((h.locked ip).mpr ⟨r, List.mem_cons_of_mem _ hmem, he, by simpa using hl⟩)
  have hlock : ∀ n : Inode, n.inum = i → n.ref = (s.itable ip).ref → n.dev = (s.itable ip).dev →
      n.locked = true → n.valid = true → n.toDinode = s.disk.dinode i → n.type ≠ 0 →
      Inv sb B T o (s.setInode ip n) (⟨ip, i, true⟩ :: R) X := by
    intro n h₁ h₂ h₃ h₄ h₅ h₆ h₇
    exact Inv.setInode [⟨ip, i, false⟩] [⟨ip, i, true⟩] h (by simp) (by simp [h₁])
      le_rfl (by simp [h₂]) (fun _ => h₃.trans (h.dev ip hr)) (fun _ => h₁.trans hi.symm)
      (fun _ k hne hk he => hne (h.unique k ip hk hr (he.trans (h₁.trans hi.symm))))
      (by simp [h₄]) (fun _ => hfree) (fun _ => h₅) (fun _ _ => ⟨h₁.symm ▸ h₆, h₇⟩)
      fun _ _ _ _ => ⟨h₂.symm ▸ hr, h₅, h₁.trans hi.symm⟩
  rw [wp_bind, wp_modifyInode, wp_runIf]
  refine ⟨fun hv => ?_, fun hv => ?_⟩
  · rw [wp_bind, wp_bread (by simp [h.held]), wp_bind, wp_get, wp_bind, wp_brelse, wp_bind,
      wp_modifyInode, wp_stopIf]
    simp only [State.hold_disk, State.setInode_disk, hi, State.setInode_itable, update_self]
    rw [← Disk.nodes_type]
    refine ⟨hF, fun ht => hQ _ rfl ht ?_⟩
    have := hlock { s.itable ip with
      toDinode := s.disk.dinode i, valid := true, locked := true } hi rfl rfl rfl rfl rfl
      (by rwa [Disk.nodes_type] at ht)
    simpa [State.setInode, hi] using this
  · have hv : (s.itable ip).valid = true := by simpa using hv
    obtain ⟨h₁, h₂⟩ := h.sync ip hr hv
    rw [hi] at h₁
    refine hQ _ rfl ?_ (hlock _ hi rfl rfl rfl hv h₁ h₂)
    rw [Disk.nodes_type, ← h₁]
    exact h₂

theorem wp_iunlock (h : Inv sb B T o s (⟨ip, i, true⟩ :: R) X)
    (hQ : ∀ s', s'.disk = s.disk → (s'.itable ip).valid = true →
      Inv sb B T o s' (⟨ip, i, false⟩ :: R) X → Q () s') :
    wp (iunlock ip) (fun e _ => F e) Q s := by
  obtain ⟨hi, hd, ht, hr⟩ := h.inode
  have hl : (s.itable ip).locked = true :=
    (h.locked ip).mpr ⟨⟨ip, i, true⟩, List.mem_cons_self, rfl, rfl⟩
  have hfree : ∀ r ∈ R, r.ptr = ip → r.locked = false := fun r hmem he => by
    have := List.rel_of_pairwise_cons h.once hmem he.symm
    simpa using this
  unfold iunlock
  rw [wp_bind, wp_getInode, wp_bind, wp_stopIf]
  refine ⟨fun hbad => ?_, fun _ => ?_⟩
  · simp [hl] at hbad
    omega
  rw [wp_modifyInode]
  refine hQ _ rfl (by simpa using h.valid ip hl) (Inv.setInode [⟨ip, i, true⟩] [⟨ip, i, false⟩] h
    (by simp) (by simp [hi]) le_rfl (by simp) (fun _ => h.dev ip hr) (fun _ => rfl)
    (fun _ k hne hk he => hne (h.unique k ip hk hr he)) ?_ (by simp) (by simp)
    (fun _ hv => h.sync ip hr hv) fun hv _ _ _ => ⟨hr, hv, rfl⟩)
  refine iff_of_false (by simp) ?_
  rintro (⟨r, hmem, hrl⟩ | ⟨r, hmem, he, hrl⟩)
  · simp at hmem
    simp [hmem] at hrl
  · simp [hfree r hmem he] at hrl

/-- `iput` drops a reference; the last one to an inode without links frees it. -/
theorem wp_iput (h : Inv sb B T o s (⟨ip, i, false⟩ :: R) X) (ho : 1 ≤ o)
    (hX : i ∈ X → (s.itable ip).valid = true) (hF : Last s B R ip i → F (.log .tooBig))
    (hkeep : ∀ s', ¬ Last s B R ip i → s'.disk = s.disk → Inv sb B T o s' R X →
      Q () s')
    (hfree : ∀ s', Last s B R ip i → s'.disk.nodes = update s.disk.nodes i .free →
      Inv sb B T o s' R (X \ {i}) → Q () s') :
    wp (iput sb ip) (fun e _ => F e) Q s := by
  have hi : (s.itable ip).inum = i := h.inum ⟨ip, i, false⟩ List.mem_cons_self
  have href : (s.itable ip).ref = B ip + (refs R ip + 1) := by simpa using h.ref ip
  unfold iput
  rw [wp_bind, wp_getInode, wp_bind, wp_runIf]
  refine ⟨fun hc => ?_, fun hc => ?_⟩
  · obtain ⟨h₁, hv, hnl⟩ := hc
    have hB : B ip = 0 := by omega
    have hR : refs R ip = 0 := by omega
    obtain ⟨hd, ht⟩ := h.sync ip (by omega) hv
    rw [hi] at hd
    have hdt : (s.disk.dinode i).type ≠ 0 := hd ▸ ht
    have hlast : Last s B R ip i := by
      refine ⟨by rwa [Disk.nodes_type], ?_, hB, hR⟩
      rw [congrArg Attr.nlink (Disk.nodes_toAttr hdt), ← hd]
      exact hnl
    have hunlocked : ¬ (s.itable ip).locked = true := fun hl => by
      obtain ⟨r, hmem, he, hrl⟩ := (h.locked ip).mp hl
      rcases List.mem_cons.mp hmem with rfl | hmem
      · simp at hrl
      · exact refs_eq_zero.mp hR r hmem he
    have hflush : (s.setInode ip { s.itable ip with locked := true }).flush ip = s.disk := by
      simp only [State.flush, State.setInode_disk, State.setInode_itable, update_self]
      rw [hi, hd, Disk.setDinode_self]
    have hready : Ready sb (s.setInode ip { s.itable ip with locked := true }) ip :=
      ⟨hflush.symm ▸ h.own, by simpa using ht, h.held, h.log.outstanding.symm ▸ ho⟩
    rw [wp_bind, wp_stopIf]
    refine ⟨fun hl => absurd hl hunlocked, fun _ => ?_⟩
    rw [wp_bind, wp_modifyInode, wp_bind]
    refine wp_itrunc hready (hF hlast) fun t hT => ?_
    obtain ⟨c, hlog⟩ := hT.log
    have hit := hT.itable
    have hheld := hT.held
    have hdin := hT.dinode
    have hnodes := hT.nodes
    rw [hflush] at hnodes
    simp only [State.setInode_itable, State.setInode_held, State.setInode_disk, State.setInode_log,
      update_self, update_idem, hi] at hit hheld hdin hnodes hlog
    have hti : (t.itable ip).inum = i := by rw [hit, update_self]
    have htr : (t.itable ip).ref = 1 := by rw [hit, update_self, h₁]
    have htable : ∀ n, update t.itable ip n = update s.itable ip n := fun n => by
      rw [hit, update_idem]
    clear hit
    have hslot : ∀ x, t.disk.slot (i, x) = 0 := fun x => by
      unfold Disk.slot
      split_ifs
      · rfl
      · simp only [hdin, update_self]
        exact Disk.addr_zero hT.addrs x
    rw [wp_bind, wp_modifyInode, wp_bind]
    refine wp_iupdate (by simpa [h.held] using hheld)
      (by simpa [hlog.outstanding, h.log.outstanding] using ho) (fun _ => hF hlast) fun l hl => ?_
    simp only [wp_modifyInode, State.setInode_itable, State.setLog_itable, State.setDisk_itable,
      update_self, hti]
    obtain ⟨d, hd₀⟩ : ∃ d : Dinode, d = { Inode.toDinode (t.itable ip) with type := 0 } := ⟨_, rfl⟩
    have hdt₀ : d.type = 0 := by rw [hd₀]
    have hown' : Own sb (t.disk.setDinode i d) := by
      unfold Own
      rw [Disk.slot_setEmpty hslot (.inl hdt₀)]
      exact hT.own
    have hnodes' : (t.disk.setDinode i d).nodes = update s.disk.nodes i .free := by
      rw [Disk.nodes_setDinode, Disk.nodes_of_type (by simpa using hdt₀), hnodes,
        update_idem]
    rw [← hd₀]
    refine hfree _ hlast hnodes' (h.freed hB hR (hheld.trans h.held)
      ((h.log.logged hlog ho).logged hl ho) hown' (n := { t.itable ip with
        toDinode := d, inum := i, valid := false, locked := false, ref := (t.itable ip).ref - 1 })
      ?_ ?_ rfl (fun j hj => ?_) hnodes')
    · simp [htable]
    · simp only [htr]
    · simp [hdin, update_of_ne hj]
  · have hnot : ¬ Last s B R ip i := by
      rintro ⟨ht, hnl, hB, hR⟩
      have hv : (s.itable ip).valid = true := by
        by_cases hmem : i ∈ X
        · exact hX hmem
        · obtain ⟨k, hk, hv, hki⟩ := h.unlinked i hmem ht hnl
          obtain rfl : k = ip := h.unique k ip hk (by omega) (hki.trans hi.symm)
          exact hv
      obtain ⟨hd, hdt⟩ := h.sync ip (by omega) hv
      rw [hi] at hd
      refine hc ⟨by omega, hv, ?_⟩
      rw [congrArg Attr.nlink (Disk.nodes_toAttr (hd ▸ hdt)), ← hd] at hnl
      exact hnl
    rw [wp_modifyInode]
    refine hkeep _ hnot rfl (Inv.setInode [⟨ip, i, false⟩] [] h (by simp) (by simp)
      (by simp) ?_ (fun _ => h.dev ip (by omega)) (fun _ => rfl)
      (fun _ k hk hkr he => hk (h.unique k ip hkr (by omega) he)) ?_ (by simp) (h.valid ip)
      (fun _ hv => h.sync ip (by omega) hv) fun hv hr ht hnl => ?_)
    · simp only [refs_cons, refs_nil, if_true]
      omega
    · rw [h.locked ip]
      simp
    · rw [hi] at ht hnl
      refine ⟨?_, hv, rfl⟩
      have : ¬ (B ip = 0 ∧ refs R ip = 0) := by
        rintro ⟨hB, hR⟩
        exact hnot ⟨ht, hnl, hB, hR⟩
      simp only
      omega

theorem wp_iunlockput (h : Inv sb B T o s (⟨ip, i, true⟩ :: R) X) (ho : 1 ≤ o)
    (hF : Last s B R ip i → F (.log .tooBig))
    (hkeep : ∀ s', ¬ Last s B R ip i → s'.disk = s.disk → Inv sb B T o s' R X →
      Q () s')
    (hfree : ∀ s', Last s B R ip i → s'.disk.nodes = update s.disk.nodes i .free →
      Inv sb B T o s' R (X \ {i}) → Q () s') :
    wp (iunlockput sb ip) (fun e _ => F e) Q s := by
  unfold iunlockput
  rw [wp_bind]
  refine wp_iunlock h fun s₁ hd₁ hv₁ h₁ => ?_
  refine wp_iput h₁ ho (fun _ => hv₁) (fun hl => hF (by unfold Last at hl ⊢; rwa [hd₁] at hl))
    (fun s' hl hd hI => ?_) fun s' hl hd hI => ?_
  · refine hkeep s' ?_ (hd.trans hd₁) hI
    unfold Last at hl ⊢
    rwa [hd₁] at hl
  · refine hfree s' ?_ (hd₁ ▸ hd) hI
    unfold Last at hl ⊢
    rwa [hd₁] at hl

end Table

end Xv6.Fs

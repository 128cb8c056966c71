import Xv6.Fs.Alloc

/-! # The blocks of an inode

What `bmap` and `itrunc` do to the node of an inode whose copy in the inode
table may be ahead of the disk. `flush` is the disk with that copy written back.
-/

namespace Xv6.Fs

open Function

variable {sb : Superblock} {F : Halt → Prop} {s s' s'' : State} {ip : Iptr} {bn k c c' : ℕ}

/-- The disk as `iupdate` leaves it. -/
@[grind =] def State.flush (s : State) (ip : Iptr) : Disk :=
  s.disk.setDinode (s.itable ip).inum (s.itable ip).toDinode

/-- `ip` has got new addresses in the inode table, with at most `c` calls of `log_write`. -/
structure Grow (s : State) (ip : Iptr) (s' : State) (c : ℕ) : Prop where
  held : s'.held = s.held
  dinode : s'.disk.dinode = s.disk.dinode
  itable : s'.itable = update s.itable ip
    { s.itable ip with addrs := (s'.itable ip).addrs }
  log : Logged s.log s'.log c

namespace Grow

theorem refl (s : State) (ip : Iptr) (c : ℕ) : Grow s ip s c :=
  ⟨rfl, rfl, by simp, .refl _ _⟩

theorem self (h : Grow s ip s' c) :
    s'.itable ip = { s.itable ip with addrs := (s'.itable ip).addrs } := by
  have := congrFun h.itable ip
  rwa [update_self] at this

theorem trans (h : Grow s ip s' c) (h' : Grow s' ip s'' c') : Grow s ip s'' (c + c') := by
  refine ⟨h'.held.trans h.held, h'.dinode.trans h.dinode, ?_, h.log.trans h'.log⟩
  rw [h'.itable, h.self, h.itable]
  simp

theorem mono (h : Grow s ip s' c) (hc : c ≤ c') : Grow s ip s' c' :=
  ⟨h.held, h.dinode, h.itable, h.log.mono hc⟩

theorem inum (h : Grow s ip s' c) : (s'.itable ip).inum = (s.itable ip).inum := by rw [h.self]

theorem attr (h : Grow s ip s' c) : (s'.itable ip).toAttr = (s.itable ip).toAttr := by rw [h.self]

theorem outstanding (h : Grow s ip s' c) (hop : 1 ≤ s.log.outstanding) :
    1 ≤ s'.log.outstanding :=
  h.log.outstanding ▸ hop

end Grow

/-- What `bmap` and `writei` need: `ip` is allocated, no buffer is held and a transaction is open. -/
structure Ready (sb : Superblock) (s : State) (ip : Iptr) : Prop where
  own : Own sb (s.flush ip)
  type : (s.itable ip).type ≠ 0
  held : s.held = []
  op : 1 ≤ s.log.outstanding

theorem flush_dinode : (s.flush ip).dinode (s.itable ip).inum = (s.itable ip).toDinode := by
  simp [State.flush]

theorem Ready.of_grow (h : Ready sb s ip) (hg : Grow s ip s' c) (hown : Own sb (s'.flush ip)) :
    Ready sb s' ip where
  own := hown
  type := by rw [hg.self]; exact h.type
  held := hg.held.trans h.held
  op := hg.outstanding h.op

theorem wp_bmapAddr {Q : ℕ → State → Prop} (h : Ready sb s ip)
    (hF : s.log.room < 2 → F (.log .tooBig))
    (hold : (s.itable ip).addrs k ≠ 0 → Q ((s.itable ip).addrs k) s)
    (hfull : (s.itable ip).addrs k = 0 → (∀ b < sb.size, s.disk.bitmap b = true) → Q 0 s)
    (hnew : ∀ b l, (s.itable ip).addrs k = 0 → b < sb.size → s.disk.bitmap b = false →
      Logged s.log l 2 → Q b (((s.setDisk ((s.disk.setBit b true).setData b Bytes.zero)).setLog
        l).setInode ip { s.itable ip with addrs := update (s.itable ip).addrs k b })) :
    wp (bmapAddr sb ip k) (fun e _ => F e) Q s := by
  unfold bmapAddr
  rw [wp_bind, wp_getInode, wp_ite]
  refine ⟨fun hk => hold hk, fun hk => ?_⟩
  rw [not_not] at hk
  rw [wp_bind]
  refine wp_balloc (.of_nil h.held) h.op hF (fun hall => ?_) fun b l hb hbit hl => ?_
  · simpa using hfull hk hall
  · have : b ≠ 0 := Own.ne_zero h.own hb hbit
    simpa [this] using hnew b l hk hb hbit hl

theorem flush_newAddr {b : ℕ} {l : Buffer.Log} :
    (((s.setDisk ((s.disk.setBit b true).setData b Bytes.zero)).setLog l).setInode ip
      { s.itable ip with addrs := update (s.itable ip).addrs k b }).flush ip =
    (((s.flush ip).setBit b true).setData b Bytes.zero).setDinode (s.itable ip).inum
      { Disk.dinode (s.flush ip) (s.itable ip).inum with
        addrs := update ((s.flush ip).dinode (s.itable ip).inum).addrs k b } := by
  simp [State.flush, Disk.setDinode, Disk.setBit, Disk.setData]

/-- The outcome of `bmap`: the address of a block that is mapped now, or zero if it was not mapped
and no block is free. -/
structure Bmapped (sb : Superblock) (s : State) (ip : Iptr) (bn r : ℕ) (s' : State) : Prop where
  grow : Grow s ip s' 5
  own : Own sb (s'.flush ip)
  result : (r ≠ 0 ∧ (s'.flush ip).slot ((s.itable ip).inum, some bn) = r ∧
      (s'.flush ip).nodes = update (s.flush ip).nodes (s.itable ip).inum
        (((s.flush ip).nodes (s.itable ip).inum).touch bn)) ∨
    (r = 0 ∧ (∀ b < sb.size, s'.disk.bitmap b = true) ∧ (s'.flush ip).nodes = (s.flush ip).nodes ∧
      ((s.flush ip).nodes (s.itable ip).inum).mapped bn = false)

theorem touch_of_slot (h : (s.flush ip).slot ((s.itable ip).inum, some bn) ≠ 0) :
    update (s.flush ip).nodes (s.itable ip).inum
      (((s.flush ip).nodes (s.itable ip).inum).touch bn) = (s.flush ip).nodes := by
  rw [Node.touch_eq (by simpa [Disk.nodes_mapped] using h), update_eq_self]

theorem unmapped_of_slot (h : (s.flush ip).slot ((s.itable ip).inum, some bn) = 0) :
    ((s.flush ip).nodes (s.itable ip).inum).mapped bn = false := by
  simpa [Disk.nodes_mapped] using h

theorem wp_bmapEntry {Q : ℕ → State → Prop} (hsb : sb.Valid) (h : Ready sb s ip)
    (hind : (s.flush ip).slot ((s.itable ip).inum, none) = k) (hk : k ≠ 0) (hbn : NDIRECT ≤ bn)
    (hbn' : bn < MAXFILE) (hF : s.log.room < 3 → F (.log .tooBig))
    (hQ : ∀ r s', Grow s ip s' 3 → Bmapped sb s ip bn r s' → Q r s') :
    wp (bmapEntry sb k (bn - NDIRECT)) (fun e _ => F e) Q s := by
  have ht : ((s.flush ip).dinode (s.itable ip).inum).type ≠ 0 := by
    rw [flush_dinode]
    exact h.type
  have haddr : (s.itable ip).addrs NDIRECT = k := by
    rw [← hind, Disk.slot_of_ne ht, Disk.addr, flush_dinode]
  have hslot : (s.flush ip).slot ((s.itable ip).inum, some bn) =
      (s.disk.data k).get32 (4 * (bn - NDIRECT)) := by
    rw [Disk.slot_of_ne ht, Disk.addr, flush_dinode, haddr, if_neg (by omega), if_pos ⟨hbn', hk⟩]
    rfl
  unfold bmapEntry
  rw [wp_bind, wp_bread (by simp [h.held]), wp_ite]
  refine ⟨fun hne => ?_, fun hne => ?_⟩
  · rw [← hslot] at hne ⊢
    simp only [wp_bind, wp_brelse, wp_pure]
    exact hQ _ s (.refl ..) ⟨.refl .., h.own, .inl ⟨hne, rfl, (touch_of_slot hne).symm⟩⟩
  · rw [not_not, ← hslot] at hne
    have hheld : HeldData sb (s.hold k) := by
      intro b hb
      simp only [State.hold_held, h.held, List.mem_singleton] at hb
      rw [hb, ← hind]
      exact ⟨(h.own.area _ (hind ▸ hk)).1, h.own.used_of_ne (hind ▸ hk)⟩
    rw [wp_bind]
    refine wp_balloc hheld h.op (fun hr => hF (by simp at hr; omega)) (fun hall => ?_)
      fun b l hb hbit hl => ?_
    · simp only [wp_bind, wp_runIf, ne_eq, not_true_eq_false, false_implies, not_false_eq_true,
        true_implies, true_and, wp_brelse, wp_pure]
      exact hQ 0 s (.refl ..) ⟨.refl .., h.own, .inr ⟨rfl, hall, rfl, unmapped_of_slot hne⟩⟩
    · have hb₀ : b ≠ 0 := Own.ne_zero h.own hb hbit
      have hkb : k ≠ b := hind ▸ h.own.not_held hb hbit _
      simp only [wp_bind, wp_runIf, ne_eq, hb₀, not_false_eq_true, true_implies, not_true_eq_false,
        false_implies, and_true, wp_modify]
      have := hl.room
      refine wp_logWrite (by simpa [hl.outstanding] using h.op)
        (fun hr => hF (by simp at hr this; omega)) fun l' hl' => ?_
      simp only [State.hold_setDisk, State.hold_setLog, wp_brelse, wp_pure]
      obtain ⟨hown, hs, hnodes⟩ := Own.attachEntry h.own hb hbit hsb hind hk hbn hbn' hne rfl
      refine hQ _ _ ⟨rfl, rfl, by simp, by simpa using hl.trans hl'⟩
        ⟨⟨rfl, rfl, by simp, by simpa using (hl.trans hl').mono (by omega)⟩, hown, ?_⟩
      exact .inl ⟨hb₀, hs, hnodes⟩

theorem wp_bmap {Q : ℕ → State → Prop} (hsb : sb.Valid) (h : Ready sb s ip) (hbn : bn < MAXFILE)
    (hF : s.log.room < 5 → F (.log .tooBig))
    (hQ : ∀ r s', Bmapped sb s ip bn r s' → Q r s') :
    wp (bmap sb ip bn) (fun e _ => F e) Q s := by
  have ht : ((s.flush ip).dinode (s.itable ip).inum).type ≠ 0 := by
    rw [flush_dinode]
    exact h.type
  unfold bmap
  by_cases hdir : bn < NDIRECT
  · rw [if_pos hdir]
    have hslot : (s.flush ip).slot ((s.itable ip).inum, some bn) = (s.itable ip).addrs bn := by
      rw [Disk.slot_of_ne ht, Disk.addr, flush_dinode, if_pos hdir]
    refine wp_bmapAddr h (fun hr => hF (by omega)) (fun hk => ?_) (fun hk hall => ?_)
      fun b l hk hb hbit hl => ?_
    · rw [← hslot] at hk ⊢
      exact hQ _ s ⟨.refl .., h.own, .inl ⟨hk, rfl, (touch_of_slot hk).symm⟩⟩
    · exact hQ 0 s ⟨.refl .., h.own, .inr ⟨rfl, hall, rfl, unmapped_of_slot (hslot.trans hk)⟩⟩
    · have hgrow : Grow s ip (((s.setDisk ((s.disk.setBit b true).setData b Bytes.zero)).setLog
          l).setInode ip { s.itable ip with addrs := update (s.itable ip).addrs bn b }) 5 :=
        ⟨rfl, rfl, by simp, hl.mono (by omega)⟩
      obtain ⟨hown, hs, hnodes⟩ := Own.attachDirect h.own ht hb hbit hdir
        (by rw [flush_dinode]; exact hk) flush_newAddr
      exact hQ _ _ ⟨hgrow, hown, .inl ⟨Own.ne_zero h.own hb hbit, hs, hnodes⟩⟩
  · rw [if_neg hdir, if_pos (by unfold MAXFILE at hbn; omega), wp_bind]
    have hslot : (s.flush ip).slot ((s.itable ip).inum, none) = (s.itable ip).addrs NDIRECT := by
      rw [Disk.slot_of_ne ht, Disk.addr, flush_dinode]
    refine wp_bmapAddr h (fun hr => hF (by omega)) (fun hk => ?_) (fun hk hall => ?_)
      fun b l hk hb hbit hl => ?_
    · rw [if_neg hk]
      exact wp_bmapEntry hsb h hslot hk (by omega) hbn (fun hr => hF (by omega))
        fun r s' _ => hQ r s'
    · rw [if_pos rfl]
      refine hQ 0 s ⟨.refl .., h.own, .inr ⟨rfl, hall, rfl, unmapped_of_slot ?_⟩⟩
      rw [Disk.slot_of_ne ht, Disk.addr, flush_dinode, if_neg hdir, if_neg (fun hc => hc.2 hk)]
    · have hb₀ : b ≠ 0 := Own.ne_zero h.own hb hbit
      obtain ⟨hown, hs, hnodes⟩ := Own.attachIndirect h.own ht hb hbit
        (by rw [flush_dinode]; exact hk) flush_newAddr
      rw [if_neg hb₀]
      set s₁ := ((s.setDisk ((s.disk.setBit b true).setData b Bytes.zero)).setLog l).setInode ip
        { s.itable ip with addrs := update (s.itable ip).addrs NDIRECT b } with hs₁
      have hgrow : Grow s ip s₁ 2 := ⟨rfl, rfl, by simp [hs₁], hl⟩
      have hroom := hl.room
      refine wp_bmapEntry hsb (h.of_grow hgrow hown) (by rw [hgrow.inum]; exact hs) hb₀ (by omega)
        hbn (fun hr => hF (by simp [hs₁] at hr; omega)) fun r s' hg' hr => ?_
      refine hQ r s' ⟨hgrow.trans hg', hr.own, ?_⟩
      have := hr.result
      rwa [hnodes, hgrow.inum] at this

variable {Q : Unit → State → Prop}

section Truncate

variable {f f' : ℕ × Option ℕ → ℕ} {i : ℕ}

/-- The slots of the blocks `bns` of inode `i` are emptied. -/
structure Drop (f : ℕ × Option ℕ → ℕ) (i : ℕ) (bns : List ℕ) (f' : ℕ × Option ℕ → ℕ) : Prop where
  zero : ∀ bn ∈ bns, f' (i, some bn) = 0
  keep : ∀ x, (∀ bn ∈ bns, x ≠ (i, some bn)) → f' x = f x

theorem Drop.cons {bns : List ℕ} (h : Drop (update f (i, some bn) 0) i bns f') :
    Drop f i (bn :: bns) f' := by
  constructor
  · intro bn' hbn'
    by_cases hmem : bn' ∈ bns
    · exact h.zero bn' hmem
    · obtain rfl : bn' = bn := (List.mem_cons.mp hbn').resolve_right hmem
      rw [h.keep _ fun b hb e => hmem (by simp at e; exact e ▸ hb), update_self]
  · intro x hx
    rw [h.keep x fun b hb => hx b (List.mem_cons_of_mem _ hb),
      update_of_ne (hx bn List.mem_cons_self)]

theorem wp_itruncDirect {ks : List ℕ} (hex : Exclusive f s.disk.bitmap sb.datastart sb.size)
    (hf : ∀ k ∈ ks, f (i, some k) = (s.itable ip).addrs k) (hheld : s.held = [])
    (hop : 1 ≤ s.log.outstanding) (hF : F (.log .tooBig))
    (hQ : ∀ s' f' c, Grow s ip s' c → s'.disk.data = s.disk.data →
      Exclusive f' s'.disk.bitmap sb.datastart sb.size → Drop f i ks f' →
      (∀ k, (s'.itable ip).addrs k = if k ∈ ks then 0 else (s.itable ip).addrs k) → Q () s') :
    wp (itruncDirect sb ip ks) (fun e _ => F e) Q s := by
  induction ks generalizing s f with
  | nil =>
    exact hQ s f 0 (.refl ..) rfl hex ⟨by simp, fun _ _ => rfl⟩ (by simp)
  | cons k ks ih =>
    unfold itruncDirect
    have hfk := hf k List.mem_cons_self
    rw [wp_bind, wp_getInode, wp_bind, wp_runIf]
    refine ⟨fun hk => ?_, fun hk => ?_⟩
    · have hne : f (i, some k) ≠ 0 := hfk ▸ hk
      rw [wp_bind]
      refine wp_bfree (.of_nil hheld) (hfk ▸ (hex.area _ hne).2) (hfk ▸ hex.used_of_ne hne) hop hF
        fun l hl => ?_
      rw [wp_modifyInode]
      set s₁ := ((s.setBit ((s.itable ip).addrs k) false).setLog l).setInode ip
        { s.itable ip with addrs := update (s.itable ip).addrs k 0 } with hs₁
      have hg : Grow s ip s₁ 1 := ⟨rfl, rfl, by simp [hs₁], hl⟩
      refine ih (s := s₁) (f := update f (i, some k) 0) ?_ (fun k' hk' => ?_) hheld
        (hg.outstanding hop) fun s' f' c hg' hd hex' hdrop ha => ?_
      · have := hex.release hne
        rwa [hfk] at this
      · simp only [hs₁, State.setInode_itable, update_self, update_apply,
          Prod.mk.injEq, Option.some.injEq, true_and]
        split_ifs with he
        · rfl
        · exact hf k' (List.mem_cons_of_mem _ hk')
      · refine hQ s' f' _ (hg.trans hg') hd hex' hdrop.cons fun k' => ?_
        rw [ha k']
        simp only [hs₁, State.setInode_itable, update_self, update_apply,
          List.mem_cons]
        by_cases h₁ : k' ∈ ks <;> by_cases h₂ : k' = k <;> simp [h₁, h₂]
    · rw [not_not] at hk
      refine ih hex (fun k' hk' => hf k' (List.mem_cons_of_mem _ hk')) hheld hop
        fun s' f' c hg' hd hex' hdrop ha => ?_
      refine hQ s' f' c hg' hd hex' (Drop.cons ?_) fun k' => ?_
      · rw [← hfk] at hk
        rwa [← hk, update_eq_self]
      · rw [ha k']
        by_cases h₁ : k' ∈ ks <;> by_cases h₂ : k' = k <;> simp [h₁, h₂, hk]

theorem wp_itruncIndirect {a : Block} {js : List ℕ} (ip : Iptr) (hjs : js.Nodup)
    (hex : Exclusive f s.disk.bitmap sb.datastart sb.size)
    (hf : ∀ j ∈ js, f (i, some (NDIRECT + j)) = a.get32 (4 * j)) (hheld : s.held = [f (i, none)])
    (hind : f (i, none) ≠ 0) (hop : 1 ≤ s.log.outstanding) (hF : F (.log .tooBig))
    (hQ : ∀ s' f' c, Grow s ip s' c → s'.disk.data = s.disk.data → s'.itable = s.itable →
      Exclusive f' s'.disk.bitmap sb.datastart sb.size → Drop f i (js.map (NDIRECT + ·)) f' →
      Q () s') :
    wp (itruncIndirect sb a js) (fun e _ => F e) Q s := by
  induction js generalizing s f with
  | nil => exact hQ s f 0 (.refl ..) rfl rfl hex ⟨by simp, fun _ _ => rfl⟩
  | cons j js ih =>
    unfold itruncIndirect
    have hfj := hf j List.mem_cons_self
    obtain ⟨hj, hjs⟩ := List.nodup_cons.mp hjs
    rw [wp_bind, wp_runIf]
    refine ⟨fun hk => ?_, fun hk => ?_⟩
    · have hne : f (i, some (NDIRECT + j)) ≠ 0 := hfj ▸ hk
      have hdata : HeldData sb s := by
        intro b hb
        rw [hheld, List.mem_singleton] at hb
        exact hb ▸ ⟨(hex.area _ hind).1, hex.used_of_ne hind⟩
      refine wp_bfree hdata (hfj ▸ (hex.area _ hne).2) (hfj ▸ hex.used_of_ne hne) hop hF
        fun l hl => ?_
      set s₁ := (s.setBit (a.get32 (4 * j)) false).setLog l with hs₁
      have hg : Grow s ip s₁ 1 := ⟨rfl, rfl, by simp [hs₁], hl⟩
      refine ih (s := s₁) (f := update f (i, some (NDIRECT + j)) 0) hjs ?_
        (fun j' hj' => ?_) ?_ ?_ (hg.outstanding hop) fun s' f' c hg' hd ht hex' hdrop => ?_
      · have := hex.release hne
        rwa [hfj] at this
      · have : j' ≠ j := fun e => hj (e ▸ hj')
        rw [update_of_ne (by simp [this])]
        exact hf j' (List.mem_cons_of_mem _ hj')
      · rwa [update_of_ne (by simp)]
      · rwa [update_of_ne (by simp)]
      · exact hQ s' f' _ (hg.trans hg') hd ht hex' hdrop.cons
    · rw [not_not, ← hfj] at hk
      refine ih hjs hex (fun j' hj' => hf j' (List.mem_cons_of_mem _ hj')) hheld hind hop
        fun s' f' c hg' hd ht hex' hdrop => ?_
      refine hQ s' f' c hg' hd ht hex' (Drop.cons ?_)
      rwa [← hk, update_eq_self]

/-- `ip` has lost its contents, in the inode table and on the disk. -/
structure Truncated (sb : Superblock) (s : State) (ip : Iptr) (s' : State) : Prop where
  held : s'.held = s.held
  log : ∃ c, Logged s.log s'.log c
  itable : s'.itable = update s.itable ip
    { s.itable ip with addrs := (s'.itable ip).addrs, size := 0 }
  addrs : ∀ k ≤ NDIRECT, (s'.itable ip).addrs k = 0
  dinode : s'.disk.dinode =
    update s.disk.dinode (s.itable ip).inum (s'.itable ip).toDinode
  own : Own sb s'.disk
  nodes : s'.disk.nodes = update (s.flush ip).nodes (s.itable ip).inum
    { Node.free with toAttr := { (s.itable ip).toAttr with size := 0 } }

/-- The end of `itrunc`, when the slots `f` are those of the other inodes. -/
theorem wp_itruncEnd (h : Ready sb s ip) (hg : Grow s ip s' c) (hdata : s'.disk.data = s.disk.data)
    (hex : Exclusive f s'.disk.bitmap sb.datastart sb.size)
    (hzero : ∀ x, f ((s.itable ip).inum, x) = 0)
    (hkeep : ∀ j x, j ≠ (s.itable ip).inum → f (j, x) = (s.flush ip).slot (j, x))
    (ha : ∀ k ≤ NDIRECT, (s'.itable ip).addrs k = 0) (hF : F (.log .tooBig))
    (hQ : ∀ t, Truncated sb s ip t → Q () t) :
    wp (do
      modifyInode ip fun n => { n with size := 0 }
      iupdate sb ip) (fun e _ => F e) Q s' := by
  obtain ⟨n, hn⟩ : ∃ n : Inode, n = { s'.itable ip with size := 0 } := ⟨_, rfl⟩
  have hinum : n.inum = (s.itable ip).inum := by rw [hn, ← hg.inum]
  have hattr : n.toAttr = { (s.itable ip).toAttr with size := 0 } := by rw [hn, ← hg.attr]
  have haddr : ∀ k ≤ NDIRECT, n.addrs k = 0 := fun k hk => by rw [hn]; exact ha k hk
  have htype : n.type ≠ 0 := by
    rw [congrArg Attr.type hattr]
    exact h.type
  have hslot : ∀ j x, j ≠ (s.itable ip).inum → s'.disk.slot (j, x) = (s.flush ip).slot (j, x) := by
    intro j x hj
    rw [State.flush, Disk.slot_setDinode_of_ne hj]
    unfold Disk.slot
    rw [hg.dinode]
    cases x <;> simp [Disk.addr, hdata]
  have hs : (s'.disk.setDinode (s.itable ip).inum n.toDinode).slot = f := by
    funext ⟨j, x⟩
    rcases eq_or_ne j (s.itable ip).inum with rfl | hj
    · rw [Disk.slot_setDinode_self htype, Disk.addr_zero haddr, hzero]
    · rw [Disk.slot_setDinode_of_ne hj, hslot j x hj, hkeep j x hj]
  rw [wp_bind, wp_modifyInode, ← hn]
  refine wp_iupdate (hg.held.trans h.held) (hg.outstanding h.op) (fun _ => hF) fun l hl => ?_
  simp only [State.setInode_itable, update_self, hinum]
  refine hQ _ ⟨hg.held, ⟨_, hg.log.trans hl⟩, ?_, fun k hk => ?_, ?_, ?_, ?_⟩
  · simp only [State.setLog_itable, State.setDisk_itable, State.setInode_itable,
      update_self]
    rw [hn, hg.self, hg.itable]
    simp
  · simpa using haddr k hk
  · simp [hg.dinode]
  · unfold Own
    exact hs.symm ▸ hex
  · funext j
    rcases eq_or_ne j (s.itable ip).inum with rfl | hj
    · rw [update_self, ← hattr]
      exact Disk.nodes_of_addrs haddr htype
    · rw [update_of_ne hj]
      refine (Disk.nodes_setDinode_of_ne hj).trans
        (Disk.nodes_congr ?_ (fun bn => hslot j _ hj) fun bn _ => ?_)
      · rw [State.setInode_disk, hg.dinode, State.flush, Disk.setDinode_dinode,
          update_of_ne hj]
      · rw [State.setInode_disk, hdata]
        rfl

theorem wp_itrunc (h : Ready sb s ip) (hF : F (.log .tooBig))
    (hQ : ∀ t, Truncated sb s ip t → Q () t) : wp (itrunc sb ip) (fun e _ => F e) Q s := by
  have ht : ((s.flush ip).dinode (s.itable ip).inum).type ≠ 0 := by
    rw [flush_dinode]
    exact h.type
  have hslot : ∀ x, (s.flush ip).slot ((s.itable ip).inum, x) =
      (s.flush ip).addr (s.itable ip).toDinode x := fun x => by
    rw [Disk.slot_of_ne ht, flush_dinode]
  unfold itrunc
  rw [wp_bind]
  refine wp_itruncDirect h.own (i := (s.itable ip).inum) (fun k hk => ?_) h.held h.op hF
    fun s₁ f₁ c₁ hg₁ hd₁ hex₁ hdrop₁ ha₁ => ?_
  · rw [hslot, Disk.addr, if_pos (List.mem_range.mp hk)]
  have h12 : (s₁.itable ip).addrs NDIRECT = (s.itable ip).addrs NDIRECT := by
    rw [ha₁, if_neg (by simp)]
  have hnone : f₁ ((s.itable ip).inum, none) = (s.itable ip).addrs NDIRECT := by
    rw [hdrop₁.keep _ (by simp), hslot, Disk.addr]
  have hge : ∀ bn, NDIRECT ≤ bn → f₁ ((s.itable ip).inum, some bn) =
      (s.flush ip).addr (s.itable ip).toDinode (some bn) := fun bn hbn => by
    rw [hdrop₁.keep _ fun k hk => ?_, hslot]
    have := List.mem_range.mp hk
    simp only [ne_eq, Prod.mk.injEq, Option.some.injEq, true_and]
    omega
  have hlt : ∀ bn < NDIRECT, f₁ ((s.itable ip).inum, some bn) = 0 := fun bn hbn =>
    hdrop₁.zero bn (List.mem_range.mpr hbn)
  rw [wp_bind, wp_getInode, wp_bind, wp_runIf, h12]
  refine ⟨fun hk => ?_, fun hk => ?_⟩
  · have hne : f₁ ((s.itable ip).inum, none) ≠ 0 := hnone ▸ hk
    rw [wp_bind, wp_bread (by simp [hg₁.held, h.held]), wp_bind]
    refine wp_itruncIndirect ip List.nodup_range hex₁ (fun j hj => ?_)
      (by simp [hg₁.held, h.held, hnone]) hne (hg₁.outstanding h.op) hF
      fun s₂ f₂ c₂ hg₂ hd₂ ht₂ hex₂ hdrop₂ => ?_
    · have := List.mem_range.mp hj
      rw [hge _ (by omega), Disk.addr, if_neg (by omega), if_pos ⟨by unfold MAXFILE; omega, hk⟩,
        hd₁]
      simp [State.flush]
    obtain ⟨t, rfl, hheld, hdisk, hlog, htable⟩ := State.exists_hold (s := s₂)
      (by rw [hg₂.held]; rfl)
    rw [wp_bind, wp_brelse, wp_bind]
    have hnone₂ : f₂ ((s.itable ip).inum, none) = (s.itable ip).addrs NDIRECT := by
      rw [hdrop₂.keep _ (by simp), hnone]
    have hne₂ : f₂ ((s.itable ip).inum, none) ≠ 0 := hnone₂ ▸ hk
    refine wp_bfree (.of_nil (by rw [hheld, hg₁.held, h.held])) (hnone₂ ▸ (hex₂.area _ hne₂).2)
      (hnone₂ ▸ hex₂.used_of_ne hne₂) (hg₂.outstanding (hg₁.outstanding h.op)) hF fun l hl => ?_
    rw [wp_modifyInode]
    have hit : t.itable = s₁.itable := ht₂
    have hg₃ : Grow s ip (((t.setBit ((s.itable ip).addrs NDIRECT) false).setLog l).setInode ip
        { t.itable ip with addrs := update (t.itable ip).addrs NDIRECT 0 })
        (c₁ + (c₂ + 1)) := by
      refine ⟨hheld.trans hg₁.held, hg₂.dinode.trans hg₁.dinode, ?_, hg₁.log.trans
        (hg₂.log.trans hl)⟩
      simp only [State.setInode_itable, State.setLog_itable, State.setDisk_itable,
        update_self, hit]
      rw [hg₁.self, hg₁.itable]
      simp
    refine wp_itruncEnd h hg₃ (hd₂.trans hd₁) (f := update f₂ ((s.itable ip).inum, none) 0)
      ?_ (fun x => ?_) (fun j x hj => ?_) (fun k hk' => ?_) hF hQ
    · have := hex₂.release hne₂
      rwa [hnone₂] at this
    · cases x with
      | none => exact update_self ..
      | some bn =>
        rw [update_of_ne (by simp)]
        by_cases hmem : bn ∈ (List.range NINDIRECT).map (NDIRECT + ·)
        · exact hdrop₂.zero bn hmem
        · rw [hdrop₂.keep _ fun b hb e => hmem (by simp at e; exact e ▸ hb)]
          rcases Nat.lt_or_ge bn NDIRECT with hbn | hbn
          · exact hlt bn hbn
          · rw [hge bn hbn, Disk.addr, if_neg (by omega), if_neg]
            rintro ⟨hmax, -⟩
            refine hmem (List.mem_map.mpr ⟨bn - NDIRECT, List.mem_range.mpr ?_, by omega⟩)
            unfold MAXFILE at hmax
            omega
    · rw [update_of_ne (by simp [hj]), hdrop₂.keep _ (by simp [hj]),
        hdrop₁.keep _ (by simp [hj])]
    · simp only [State.setInode_itable, State.setLog_itable, State.setDisk_itable,
        update_self, hit, update_apply]
      split_ifs with he
      · rfl
      · rw [ha₁, if_pos (List.mem_range.mpr (by omega))]
  · rw [not_not] at hk
    refine wp_itruncEnd h hg₁ hd₁ hex₁ (fun x => ?_) (fun j x hj => ?_) (fun k hk' => ?_) hF hQ
    · cases x with
      | none => rw [hnone, hk]
      | some bn =>
        rcases Nat.lt_or_ge bn NDIRECT with hbn | hbn
        · exact hlt bn hbn
        · rw [hge bn hbn, Disk.addr, if_neg (by omega), if_neg (by simp [hk])]
    · exact hdrop₁.keep _ (by simp [hj])
    · rw [ha₁]
      split_ifs with hmem
      · rfl
      · obtain rfl : k = NDIRECT := by
          rw [List.mem_range] at hmem
          omega
        exact hk

end Truncate

end Xv6.Fs

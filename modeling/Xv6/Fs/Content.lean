import Xv6.Fs.Bmap
import Xv6.Fs.Journaled

/-! # Reading and writing the contents of a file

`readi` returns bytes of the node and changes nothing; `writei` splices bytes
into the node, as far as blocks can be allocated and the source can be read.
-/

namespace Xv6.Fs

open Function

variable {sb : Superblock} {F : Halt → Prop} {s s' : State} {ip : Iptr} {nd nd' nd₁ : Node}
  {src : ℕ → Option UInt8} {off n m k c : ℕ}

namespace Node

/-- The size is in range and all the blocks below it are mapped. -/
structure Ok (nd : Node) : Prop where
  size_le : nd.size ≤ MAXFILE * BSIZE
  mapped : ∀ bn, bn * BSIZE < nd.size → nd.mapped bn = true

theorem Ok.mapped_div (h : nd.Ok) {pos : ℕ} (hpos : pos < nd.size) :
    nd.mapped (pos / BSIZE) = true :=
  h.mapped _ (lt_of_le_of_lt (Nat.div_mul_le_self ..) hpos)

theorem Ok.free : Node.free.Ok := ⟨by simp [Node.free], fun bn h => by simp [Node.free] at h⟩

/-- The bytes of the file from `off` on. -/
def read (nd : Node) (off n : ℕ) : List UInt8 := (List.range n).map fun i => nd.byte (off + i)

@[simp] theorem length_read : (nd.read off n).length = n := by simp [read]

theorem read_add : nd.read off (m + k) = nd.read off m ++ nd.read (off + m) k := by
  simp [read, List.range_add, comp_def, Nat.add_assoc]

end Node

variable {Q : Option (List UInt8) → State → Prop} {dst : ℕ → Bool}

section Read

variable {b bn left fuel : ℕ} {E : Halt → State → Prop}

/-- `bmap` of a mapped block changes nothing. -/
theorem wp_bmap_mapped {Q : ℕ → State → Prop} (ht : (s.itable ip).type ≠ 0) (hheld : s.held = [])
    (hbn : bn < MAXFILE) (hs : (s.flush ip).slot ((s.itable ip).inum, some bn) = b) (hb : b ≠ 0)
    (hQ : Q b s) : wp (bmap sb ip bn) E Q s := by
  rw [Disk.slot_of_ne (by rw [flush_dinode]; exact ht), Disk.addr, flush_dinode] at hs
  unfold bmap bmapAddr bmapEntry
  by_cases hdir : bn < NDIRECT
  · rw [if_pos hdir] at hs ⊢
    rw [wp_bind, wp_getInode, if_pos (hs ▸ hb), wp_pure, hs]
    exact hQ
  · rw [if_neg hdir] at hs ⊢
    by_cases hind : bn < MAXFILE ∧ (s.itable ip).addrs NDIRECT ≠ 0
    · rw [if_pos hind] at hs
      have hdata : (s.flush ip).data = s.disk.data := rfl
      rw [hdata] at hs
      rw [if_pos (by unfold MAXFILE at hbn; omega), wp_bind, wp_bind, wp_getInode, if_pos hind.2,
        wp_pure, if_neg hind.2, wp_bind, wp_bread (by simp [hheld]), if_pos (hs ▸ hb), wp_bind,
        wp_brelse, wp_pure, hs]
      exact hQ
    · rw [if_neg hind] at hs
      exact absurd hs.symm hb

theorem wp_readiFrom (ht : (s.itable ip).type ≠ 0) (hheld : s.held = [])
    (hnd : (s.flush ip).nodes (s.itable ip).inum = nd) (hmax : off + left ≤ MAXFILE * BSIZE)
    (hmap : ∀ pos, off ≤ pos → pos < off + left → nd.mapped (pos / BSIZE) = true)
    (hfuel : left ≤ fuel) (hok : (∀ i < left, dst i = true) → Q (some (nd.read off left)) s)
    (hbad : (∃ i < left, dst i = false) → Q none s) :
    wp (readiFrom sb ip dst fuel off left) E Q s := by
  induction fuel generalizing off left dst Q with
  | zero =>
    obtain rfl : left = 0 := by omega
    exact hok (by simp)
  | succ fuel ih =>
    unfold readiFrom
    rw [wp_ite]
    refine ⟨fun h₀ => ?_, fun h₀ => ?_⟩
    · subst h₀
      exact hok (by simp)
    have hmapped := hmap off le_rfl (by omega)
    rw [← hnd, Disk.nodes_mapped, decide_eq_true_eq] at hmapped
    have hmod := Nat.mod_lt off (show 0 < BSIZE by decide)
    obtain ⟨m, hm⟩ : ∃ m, m = min left (BSIZE - off % BSIZE) := ⟨_, rfl⟩
    have hm₀ : 0 < m := by omega
    obtain ⟨left', rfl⟩ : ∃ left', left = m + left' := ⟨left - m, by omega⟩
    have hbyte : (List.range m).map (fun i => (s.disk.data ((s.flush ip).slot
        ((s.itable ip).inum, some (off / BSIZE)))).get (off % BSIZE + i)) = nd.read off m := by
      refine List.map_congr_left fun i hi => ?_
      have hi := List.mem_range.mp hi
      have h₁ : (off + i) / BSIZE = off / BSIZE := by unfold BSIZE at *; omega
      have h₂ : (off + i) % BSIZE = off % BSIZE + i := by unfold BSIZE at *; omega
      rw [← hnd, Disk.nodes_byte, h₁, h₂, Disk.byteAt, if_neg hmapped]
      rfl
    rw [wp_bind]
    refine wp_bmap_mapped ht hheld (by unfold BSIZE at *; omega) rfl hmapped ?_
    rw [if_neg hmapped, wp_bind, wp_bread (by simp [hheld]), wp_bind, wp_brelse, ← hm, wp_ite,
      add_tsub_cancel_left]
    refine ⟨fun hall => ?_, fun hall => ?_⟩
    · simp only [List.all_eq_true, List.mem_range] at hall
      rw [wp_bind]
      refine ih (by omega) (fun pos h₁ h₂ => hmap pos (by omega) (by omega)) (by omega)
        (fun hrest => ?_) fun ⟨i, hi, hd⟩ => ?_
      · rw [wp_pure, Option.map_some, hbyte, ← Node.read_add]
        refine hok fun i hi => ?_
        rcases Nat.lt_or_ge i m with him | him
        · exact hall i him
        · have := hrest (i - m) (by omega)
          rwa [Nat.add_sub_cancel' him] at this
      · exact hbad ⟨m + i, by omega, hd⟩
    · simp only [List.all_eq_true, List.mem_range, not_forall, Bool.not_eq_true] at hall
      obtain ⟨i, hi, hd⟩ := hall
      exact hbad ⟨i, by omega, hd⟩

/-- `readi` of mapped blocks reads up to the end of the file and changes nothing. -/
theorem wp_readi_mapped (ht : (s.itable ip).type ≠ 0) (hheld : s.held = [])
    (hnd : (s.flush ip).nodes (s.itable ip).inum = nd) (hmax : nd.size ≤ MAXFILE * BSIZE)
    (hmap : ∀ pos, off ≤ pos → pos < off + n → pos < nd.size → nd.mapped (pos / BSIZE) = true)
    (hoff : off < 2 ^ 32) (hn : n < 2 ^ 32)
    (hQ : ∀ r, (r = if nd.size < off ∨ 2 ^ 32 ≤ off + n then some [] else if ∀ i < min n (nd.size -
      off), dst i = true then some (nd.read off (min n (nd.size - off))) else none) → Q r s) :
    wp (readi sb ip dst off n) E Q s := by
  have hsize : nd.size = (s.itable ip).size := by
    have := Disk.nodes_toAttr (D := s.flush ip) (i := (s.itable ip).inum)
      (by rw [flush_dinode]; exact ht)
    rw [← hnd, congrArg Attr.size this, flush_dinode]
  unfold readi
  rw [wp_bind, wp_getInode, wp_ite, ← hsize]
  refine ⟨fun h => hQ _ (if_pos ?_).symm, fun h => ?_⟩
  · omega
  · have hin : ¬ (nd.size < off ∨ 2 ^ 32 ≤ off + n) := by omega
    have hmod : (off + n) % 2 ^ 32 = off + n := by omega
    have hlen : (if (off + n) % 2 ^ 32 > nd.size then nd.size - off else n) =
        min n (nd.size - off) := by
      rw [hmod]
      split_ifs <;> omega
    rw [hlen]
    refine wp_readiFrom ht hheld hnd (by omega) (fun pos h₁ h₂ => ?_) le_rfl (fun hall => ?_)
      fun ⟨i, hi, hd⟩ => ?_
    · exact hmap pos h₁ (by omega) (by omega)
    · exact hQ _ (by rw [if_neg hin, if_pos hall])
    · have hnot : ¬ ∀ i < min n (nd.size - off), dst i = true := fun hall => by
        simp [hall i hi] at hd
      exact hQ _ (by rw [if_neg hin, if_neg hnot])

/-- `readi` reads up to the end of the file and changes nothing. -/
theorem wp_readi (ht : (s.itable ip).type ≠ 0) (hheld : s.held = [])
    (hnd : (s.flush ip).nodes (s.itable ip).inum = nd) (hok : nd.Ok) (hoff : off < 2 ^ 32)
    (hn : n < 2 ^ 32)
    (hQ : ∀ r, (r = if nd.size < off ∨ 2 ^ 32 ≤ off + n then some [] else if ∀ i < min n (nd.size -
      off), dst i = true then some (nd.read off (min n (nd.size - off))) else none) → Q r s) :
    wp (readi sb ip dst off n) E Q s :=
  wp_readi_mapped ht hheld hnd hok.size_le (fun _ _ _ hpos => hok.mapped_div hpos) hoff hn hQ

end Read

/-- The node after `k` bytes of `src` have been written from `off` on, out of `n`. A source byte
that cannot be read may leave bytes after them. -/
structure Wrote (nd nd' : Node) (src : ℕ → Option UInt8) (off n k : ℕ) : Prop where
  attr : nd'.toAttr = nd.toAttr
  le : k ≤ n
  mapped : ∀ bn, nd.mapped bn = true → nd'.mapped bn = true
  cover : ∀ pos, off ≤ pos → pos < off + k → nd'.mapped (pos / BSIZE) = true
  data : ∀ j < k, some (nd'.byte (off + j)) = src j
  outside : ∀ pos, pos < off ∨ off + n ≤ pos → nd'.byte pos = nd.byte pos
  rest : (∀ j < n, (src j).isSome) → ∀ pos, off + k ≤ pos → nd'.byte pos = nd.byte pos

namespace Wrote

theorem zero (nd : Node) : Wrote nd nd src off n 0 where
  attr := rfl
  le := Nat.zero_le _
  mapped _ h := h
  cover pos h₁ h₂ := by omega
  data j hj := by omega
  outside _ _ := rfl
  rest _ _ _ := rfl

theorem touch (nd : Node) (bn : ℕ) : Wrote nd (nd.touch bn) src off n 0 where
  attr := rfl
  le := Nat.zero_le _
  mapped bn' h := by
    rw [Node.touch_mapped, update_apply]
    split_ifs
    · rfl
    · exact h
  cover pos h₁ h₂ := by omega
  data j hj := by omega
  outside _ _ := rfl
  rest _ _ _ := rfl

theorem append (h : Wrote nd nd₁ src off m m) (hm : m ≤ n)
    (h' : Wrote nd₁ nd' (fun j => src (m + j)) (off + m) (n - m) k) :
    Wrote nd nd' src off n (m + k) where
  attr := h'.attr.trans h.attr
  le := by
    have := h'.le
    omega
  mapped bn hbn := h'.mapped bn (h.mapped bn hbn)
  cover pos h₁ h₂ := by
    rcases Nat.lt_or_ge pos (off + m) with hp | hp
    · exact h'.mapped _ (h.cover pos h₁ hp)
    · exact h'.cover pos hp (by omega)
  data j hj := by
    rcases Nat.lt_or_ge j m with hjm | hjm
    · rw [h'.outside _ (.inl (by omega))]
      exact h.data j hjm
    · have := h'.data (j - m) (by omega)
      rwa [Nat.add_sub_cancel' hjm, Nat.add_assoc, Nat.add_sub_cancel' hjm] at this
  outside pos hpos := by
    rw [h'.outside pos (by omega), h.outside pos (by omega)]
  rest hsrc pos hpos := by
    rw [h'.rest (fun j hj => hsrc _ (by omega)) pos (by omega), h.outside pos (by omega)]

theorem mono (h : Wrote nd nd' src off m k) (hm : m ≤ n) : Wrote nd nd' src off n k where
  attr := h.attr
  le := h.le.trans hm
  mapped := h.mapped
  cover := h.cover
  data := h.data
  outside pos hpos := h.outside pos (by omega)
  rest hsrc pos hpos := h.rest (fun j hj => hsrc j (by omega)) pos hpos

/-- The size at the end of `writei` is covered. -/
theorem ok (h : Wrote nd nd' src off n k) (hnd : nd.Ok) (hoff : off ≤ nd.size)
    (hmax : off + n ≤ MAXFILE * BSIZE) :
    Node.Ok { nd' with size := max nd.size (off + k) } where
  size_le := by
    have := hnd.size_le
    have := h.le
    simp only
    omega
  mapped bn hbn := by
    simp only at hbn
    rcases Nat.lt_or_ge (bn * BSIZE) nd.size with hlt | hge
    · exact h.mapped bn (hnd.mapped bn hlt)
    · have := h.cover (bn * BSIZE) (by omega) (by omega)
      rwa [Nat.mul_div_cancel _ (by decide)] at this

end Wrote

theorem readable_le (tot : ℕ) : readable src tot m ≤ m := by
  induction m generalizing tot with
  | zero => exact le_rfl
  | succ m ih =>
    unfold readable
    split_ifs
    · have := ih (tot + 1)
      omega
    · omega

theorem isSome_of_readable {tot j : ℕ} (h : j < readable src tot m) : (src (tot + j)).isSome := by
  induction m generalizing tot j with
  | zero => cases h
  | succ m ih =>
    unfold readable at h
    split_ifs at h with h₀
    · cases j with
      | zero => exact h₀
      | succ j =>
        have : (src (tot + 1 + j)).isSome := ih (by omega)
        rwa [Nat.add_right_comm, Nat.add_assoc] at this
    · cases h

theorem readable_eq {tot : ℕ} (h : ∀ j < m, (src (tot + j)).isSome) : readable src tot m = m := by
  induction m generalizing tot with
  | zero => rfl
  | succ m ih =>
    have h₀ : (src tot).isSome := h 0 (by omega)
    rw [readable, if_pos h₀, ih fun j hj => ?_]
    have := h (j + 1) (by omega)
    rwa [Nat.add_right_comm]

/-- How many blocks a range of `n` bytes meets. -/
def blocks (off n : ℕ) : ℕ := if n = 0 then 0 else (off % BSIZE + n + BSIZE - 1) / BSIZE

theorem blocks_succ (hn : 0 < n) (hm : m = min n (BSIZE - off % BSIZE)) :
    blocks (off + m) (n - m) + 1 = blocks off n := by
  unfold blocks BSIZE at *
  split_ifs <;> omega

/-- Replace the bytes of a file from `off` on by `k` bytes. -/
theorem store_blit (nd : Node) {blk : Block} (v : ℕ → UInt8)
    (hblk : ∀ pos, pos / BSIZE = off / BSIZE → nd.byte pos = blk.get (pos % BSIZE))
    (hk : off % BSIZE + k ≤ BSIZE) (pos : ℕ) :
    (nd.store (off / BSIZE) (blk.blit (off % BSIZE) v k)).byte pos =
      if off ≤ pos ∧ pos < off + k then v (pos - off) else nd.byte pos := by
  rw [Node.store_byte, Bytes.get_blit v hk]
  by_cases hp : pos / BSIZE = off / BSIZE
  · have h₁ : off % BSIZE ≤ pos % BSIZE ∧ pos % BSIZE < off % BSIZE + k ↔
        off ≤ pos ∧ pos < off + k := by
      unfold BSIZE at *
      omega
    have h₂ : pos % BSIZE - off % BSIZE = pos - off := by
      unfold BSIZE at *
      omega
    rw [if_pos hp, h₂, ← hblk pos hp]
    simp only [h₁]
  · rw [if_neg hp, if_neg]
    unfold BSIZE at *
    omega

/-- One round of the loop of `writei`, with the first `k` of `m` bytes. -/
theorem wrote_chunk (src : ℕ → Option UInt8) {blk : Block}
    (hblk : ∀ pos, pos / BSIZE = off / BSIZE → nd.byte pos = blk.get (pos % BSIZE))
    (hm : off % BSIZE + m ≤ BSIZE) (hk : readable src 0 m = k) :
    Wrote nd ((nd.touch (off / BSIZE)).store (off / BSIZE)
      (blk.blit (off % BSIZE) (fun i => (src i).getD 0) k)) src off m (if k < m then 0 else m) := by
  have hkm : k ≤ m := hk ▸ readable_le 0
  have hbyte := store_blit (nd.touch (off / BSIZE)) (fun i => (src i).getD 0) hblk
    (show off % BSIZE + k ≤ BSIZE by omega)
  refine ⟨rfl, by split_ifs <;> omega, fun bn h => ?_, fun pos h₁ h₂ => ?_, fun j hj => ?_,
    fun pos hpos => ?_, fun hsrc pos hpos => ?_⟩
  · rw [Node.store_mapped, Node.touch_mapped, update_apply]
    split_ifs
    · rfl
    · exact h
  · have hp : pos / BSIZE = off / BSIZE := by
      split_ifs at h₂
      · omega
      · unfold BSIZE at *
        omega
    rw [Node.store_mapped, Node.touch_mapped, hp, update_self]
  · split_ifs at hj with hlt
    · cases hj
    · have hsome : (src (0 + j)).isSome := isSome_of_readable (m := m) (by omega)
      rw [Nat.zero_add] at hsome
      rw [hbyte, if_pos (by omega), Nat.add_sub_cancel_left]
      obtain ⟨v, hv⟩ := Option.isSome_iff_exists.mp hsome
      rw [hv, Option.getD_some]
  · rw [hbyte, if_neg (by omega), Node.touch_byte]
  · obtain rfl : k = m := by
      rw [← hk]
      exact readable_eq fun j hj => by simpa using hsrc j hj
    rw [if_neg (lt_irrefl _)] at hpos
    rw [hbyte, if_neg (by omega), Node.touch_byte]

theorem readable_add (a tot : ℕ) :
    readable (fun j => src (a + j)) tot m = readable src (a + tot) m := by
  induction m generalizing tot with
  | zero => rfl
  | succ m ih => rw [readable, readable, ih, Nat.add_assoc]

section Write

variable {tot fuel : ℕ}

/-- The first `j` bytes of `src` in the buffer of block `r`, which is not logged for them. -/
def State.spill (s : State) (r off : ℕ) (src : ℕ → Option UInt8) (j : ℕ) : State :=
  s.setData r ((s.disk.data r).blit (off % BSIZE) (fun i => (src i).getD 0) j)

/-- A mapped block of a file holds the bytes of the node. -/
theorem byte_of_slot {b pos : ℕ} (hs : (s.flush ip).slot ((s.itable ip).inum, some (off / BSIZE)) = b)
    (hb : b ≠ 0) (hpos : pos / BSIZE = off / BSIZE) :
    ((s.flush ip).nodes (s.itable ip).inum).byte pos = (s.disk.data b).get (pos % BSIZE) := by
  rw [Disk.nodes_byte, hpos, hs, Disk.byteAt, if_neg hb]
  rfl

/-- The state after `k` bytes of `src` have been written and logged, in whole blocks. -/
structure Stored (sb : Superblock) (s : State) (ip : Iptr) (src : ℕ → Option UInt8)
    (off k c : ℕ) (s' : State) : Prop where
  grow : Grow s ip s' c
  own : Own sb (s'.flush ip)
  journaled : Journaled sb s s'
  nodes : ∃ nd, Wrote ((s.flush ip).nodes (s.itable ip).inum) nd src off k k ∧
    (s'.flush ip).nodes = update (s.flush ip).nodes (s.itable ip).inum nd

namespace Stored

variable {s'' : State} {c' : ℕ}

theorem of_nodes (hg : Grow s ip s' c) (hown : Own sb (s'.flush ip)) (hj : Journaled sb s s')
    (hnodes : (s'.flush ip).nodes = (s.flush ip).nodes) : Stored sb s ip src off 0 c s' :=
  ⟨hg, hown, hj, _, .zero _, by rw [hnodes, update_eq_self]⟩

theorem mono (h : Stored sb s ip src off k c s') (hc : c ≤ c') : Stored sb s ip src off k c' s' :=
  { h with grow := h.grow.mono hc }

/-- One round of the loop of `writei`. -/
theorem chunk {r : ℕ} {l : Buffer.Log} (hr : Bmapped sb s ip (off / BSIZE) r s') (h₀ : r ≠ 0)
    (hj : Journaled sb s s') (hm : off % BSIZE + m ≤ BSIZE) (hsrc : readable src 0 m = m)
    (hl : Logged s'.log l 1) (hmem : r ∈ l.lh) (hsub : ∀ b ∈ s'.log.lh, b ∈ l.lh) :
    Stored sb s ip src off m 6 ((s'.spill r off src m).setLog l) := by
  have hg := hr.grow
  obtain ⟨-, hslot, hnodes⟩ := hr.result.resolve_right fun h => h₀ h.1
  have hblk : ∀ pos, pos / BSIZE = off / BSIZE →
      ((s.flush ip).nodes (s.itable ip).inum).byte pos = (s'.disk.data r).get (pos % BSIZE) := by
    intro pos hpos
    rw [← byte_of_slot (hg.inum ▸ hslot) h₀ hpos, hnodes, hg.inum, update_self,
      Node.touch_byte]
  have hchunk := wrote_chunk src hblk hm hsrc
  rw [if_neg (lt_irrefl m)] at hchunk
  refine ⟨⟨hg.held, hg.dinode, hg.itable, hg.log.trans hl⟩, hr.own.setData_file hslot,
    hj.trans (.of_touched (touched_setData r _) hmem hsub), _, hchunk, ?_⟩
  have := hr.own.nodes_setData_file hslot h₀ ((s'.disk.data r).blit (off % BSIZE)
    (fun i => (src i).getD 0) m)
  rw [hnodes, update_self, update_idem] at this
  exact this

theorem append (h : Stored sb s ip src off m c s')
    (h' : Stored sb s' ip (fun j => src (m + j)) (off + m) k c' s'') :
    Stored sb s ip src off (m + k) (c + c') s'' := by
  obtain ⟨nd, hw, hnodes⟩ := h.nodes
  obtain ⟨nd', hw', hnodes'⟩ := h'.nodes
  rw [hnodes, h.grow.inum, update_self] at hw'
  refine ⟨h.grow.trans h'.grow, h'.own, h.journaled.trans h'.journaled, nd',
    hw.append (by omega) ?_, ?_⟩
  · rwa [Nat.add_sub_cancel_left]
  · rw [hnodes', h.grow.inum, hnodes, update_idem]

end Stored

/-- Where the loop of `writei` stops: with all `n` bytes written, at a block that cannot be
allocated, or at a block that gets some bytes before the source faults. -/
inductive Stop (sb : Superblock) (ip : Iptr) (src : ℕ → Option UInt8) (off n k : ℕ) (s : State) :
    State → Prop
  | done : k = n → Stop sb ip src off n k s s
  | full : k < n → (k = 0 ∨ (off + k) % BSIZE = 0) → (∀ b < sb.size, s.disk.bitmap b = true) →
      (s.flush ip).slot ((s.itable ip).inum, some ((off + k) / BSIZE)) = 0 →
      Stop sb ip src off n k s s
  | fault (r m : ℕ) : k < n → m = min (n - k) (BSIZE - (off + k) % BSIZE) →
      (s.flush ip).slot ((s.itable ip).inum, some ((off + k) / BSIZE)) = r → r ≠ 0 →
      readable src k m < m →
      Stop sb ip src off n k s (s.spill r (off + k) (fun i => src (k + i)) (readable src k m))

theorem Stop.append (h : Stop sb ip (fun j => src (m + j)) (off + m) n k s s')
    (hm : 0 < n → (off + m) % BSIZE = 0) : Stop sb ip src off (m + n) (m + k) s s' := by
  cases h with
  | done h => exact .done (by omega)
  | full h₁ h₂ h₃ h₄ =>
    refine .full (by omega) (.inr ?_) h₃ ?_
    · rcases h₂ with rfl | h₂
      · exact hm (by omega)
      · rwa [Nat.add_assoc] at h₂
    · rwa [Nat.add_assoc] at h₄
  | fault r l h₁ h₂ h₃ h₄ h₅ =>
    rw [Nat.add_assoc] at h₂ h₃
    rw [readable_add] at h₅ ⊢
    have : Stop sb ip src off (m + n) (m + k) s _ := .fault r l (by omega) (by omega) h₃ h₄ h₅
    simpa only [Nat.add_assoc] using this

/-- The loop of `writei` stores whole blocks until it stops. -/
theorem wp_writeiFrom {Q : ℕ × ℕ → State → Prop} (hsb : sb.Valid) (h : Ready sb s ip)
    (htot : tot ≤ n) (hmax : off + (n - tot) ≤ MAXFILE * BSIZE) (hfuel : n - tot ≤ fuel)
    (hF : s.log.room < 6 * blocks off (n - tot) → F (.log .tooBig))
    (hQ : ∀ k s₁ s₂, Stored sb s ip (fun j => src (tot + j)) off k (6 * blocks off (n - tot)) s₁ →
      Stop sb ip (fun j => src (tot + j)) off (n - tot) k s₁ s₂ → Q (off + k, tot + k) s₂) :
    wp (writeiFrom sb ip src fuel off tot n) (fun e _ => F e) Q s := by
  induction fuel generalizing s off tot with
  | zero => exact hQ 0 s s (.of_nodes (.refl ..) h.own (.refl s) rfl) (.done (by omega))
  | succ fuel ih =>
    unfold writeiFrom
    rw [wp_ite]
    refine ⟨fun hlt => ?_, fun hlt =>
      hQ 0 s s (.of_nodes (.refl ..) h.own (.refl s) rfl) (.done (by omega))⟩
    obtain ⟨m, hm⟩ : ∃ m, m = min (n - tot) (BSIZE - off % BSIZE) := ⟨_, rfl⟩
    have hmod := Nat.mod_lt off (show 0 < BSIZE by decide)
    have hblocks := blocks_succ (n := n - tot) (by omega) hm
    rw [wp_bind]
    refine (((wp_bmap hsb h (by unfold BSIZE at *; omega) (fun hr => hF (by omega))
      fun r s₁ hr => hr).and (journals_bmap ip _ s))).mono (fun e _ he => he.1) fun r s₁ hrj => ?_
    obtain ⟨hr, hj₁⟩ := hrj
    have hg₁ := hr.grow
    rw [wp_ite]
    refine ⟨fun h₀ => ?_, fun h₀ => ?_⟩
    · obtain ⟨hne, -⟩ | ⟨-, hfull, hnodes, hmap⟩ := hr.result
      · exact absurd h₀ hne
      · refine hQ 0 s₁ s₁ (.of_nodes (hg₁.mono (by omega)) hr.own hj₁ hnodes)
          (.full (by omega) (.inl rfl) hfull ?_)
        rw [← congrFun hnodes, Disk.nodes_mapped] at hmap
        rw [hg₁.inum]
        simpa using hmap
    obtain ⟨-, hslot, hnodes⟩ := hr.result.resolve_right fun h => h₀ h.1
    rw [wp_bind, wp_bread (by simp [hg₁.held, h.held]), wp_bind, wp_modify, ← hm,
      State.hold_setData, wp_ite]
    refine ⟨fun hkm => ?_, fun hkm => ?_⟩
    · rw [wp_bind, wp_brelse, wp_pure]
      have hstop : Stop sb ip (fun j => src (tot + j)) off (n - tot) 0 s₁ _ :=
        .fault r m (by omega) (by omega) (hg₁.inum ▸ hslot) h₀ (by rwa [readable_add])
      have := hQ 0 s₁ _ ⟨hg₁.mono (by omega), hr.own, hj₁, _, .touch _ _, hnodes⟩ hstop
      simpa only [State.spill, readable_add, Nat.add_zero, Nat.zero_add] using this
    · have hreadable : readable src tot m = m := le_antisymm (readable_le tot) (by omega)
      have hroom := hg₁.log.room
      rw [hreadable, wp_bind]
      refine wp_logWrite_mem (hg₁.outstanding h.op) (fun hl => hF (by simp at hl; omega))
        fun l hl hmem => ?_
      rw [State.hold_setLog, wp_bind, wp_brelse]
      have hstored := Stored.chunk hr h₀ hj₁ (show off % BSIZE + m ≤ BSIZE by omega)
        ((readable_add tot 0).trans hreadable) hl ((hmem r).mpr (.inr rfl))
        fun c hc => (hmem c).mpr (.inl hc)
      refine ih (h.of_grow hstored.grow hstored.own) (by omega) (by omega) (by omega)
        (fun hr => hF ?_) fun k s₂ s₃ h₂ h₃ => ?_
      · have := hstored.grow.log.room
        rw [Nat.sub_add_eq] at hr
        simp only [State.setLog_log] at this hr
        omega
      · rw [Nat.sub_add_eq] at h₂ h₃
        simp only [Nat.add_assoc] at h₂ h₃ ⊢
        refine hQ (m + k) s₂ s₃ ((hstored.append h₂).mono (by omega)) ?_
        have hsplit : n - tot = m + (n - tot - m) := by omega
        rw [hsplit]
        exact h₃.append fun hpos => by unfold BSIZE at *; omega

namespace Stored

variable {s₁ s₂ : State}

/-- All the bytes were written unless no block was free or the source could not be read; the loop
stops only between two blocks. -/
theorem full (h : Stored sb s ip src off k c s₁) (hs : Stop sb ip src off n k s₁ s₂)
    (hk : k < n) (hsrc : ∀ j < n, (src j).isSome) :
    (∀ b < sb.size, s₂.disk.bitmap b = true) ∧ (k = 0 ∨ (off + k) % BSIZE = 0) ∧
      ((s.flush ip).nodes (s.itable ip).inum).mapped ((off + k) / BSIZE) = false := by
  obtain ⟨nd, hw, hnodes⟩ := h.nodes
  cases hs with
  | done hn => omega
  | full _ h₂ h₃ h₄ =>
    refine ⟨h₃, h₂, ?_⟩
    by_contra hne
    have hmap := hw.mapped _ (by simpa using hne)
    have hnd : nd = (s₁.flush ip).nodes (s.itable ip).inum := by
      rw [hnodes, update_self]
    rw [hnd, Disk.nodes_mapped, ← h.grow.inum, h₄] at hmap
    simp at hmap
  | fault r m _ hm _ _ hlt =>
    rw [readable_eq fun j hj => hsrc _ (by omega)] at hlt
    omega

theorem stop (h : Stored sb s ip src off k c s₁) (hs : Stop sb ip src off n k s₁ s₂) :
    Grow s ip s₂ c ∧ Own sb (s₂.flush ip) ∧
      ∃ nd, Wrote ((s.flush ip).nodes (s.itable ip).inum) nd src off n k ∧
        (s₂.flush ip).nodes = update (s.flush ip).nodes (s.itable ip).inum nd := by
  obtain ⟨nd, hw, hnodes⟩ := h.nodes
  cases hs with
  | done hn => exact ⟨h.grow, h.own, nd, hn ▸ hw, hnodes⟩
  | full hk => exact ⟨h.grow, h.own, nd, hw.mono hk.le, hnodes⟩
  | fault r m hk hm hslot hr hlt =>
    have hg := h.grow
    have hmod := Nat.mod_lt (off + k) (show 0 < BSIZE by decide)
    have hnd : (s₁.flush ip).nodes (s₁.itable ip).inum = nd := by
      rw [hnodes, hg.inum, update_self]
    have hmap : nd.mapped ((off + k) / BSIZE) = true := by
      rw [← hnd, Disk.nodes_mapped, hslot]
      simpa using hr
    have hchunk := wrote_chunk (fun j => src (k + j)) (fun pos => byte_of_slot hslot hr)
      (show (off + k) % BSIZE + m ≤ BSIZE by omega) (readable_add k 0)
    rw [Nat.add_zero, if_pos hlt, hnd, Node.touch_eq hmap] at hchunk
    refine ⟨⟨hg.held, hg.dinode, hg.itable, hg.log⟩, h.own.setData_file hslot, _,
      hw.append hk.le (hchunk.mono (by omega)), ?_⟩
    refine (h.own.nodes_setData_file hslot hr _).trans ?_
    rw [hnd, hnodes, hg.inum, update_idem]

end Stored

/-- The end of `writei`: the size of `ip` is at least `off` and the inode is on the disk. -/
structure Resized (sb : Superblock) (s : State) (ip : Iptr) (off : ℕ) (s' : State) : Prop where
  held : s'.held = s.held
  log : Logged s.log s'.log 1
  journaled : Journaled sb s s'
  itable : s'.itable = update s.itable ip
    { s.itable ip with size := max (s.itable ip).size off }
  dinode : s'.disk.dinode =
    update s.disk.dinode (s.itable ip).inum (s'.itable ip).toDinode
  bitmap : s'.disk.bitmap = s.disk.bitmap
  data : s'.disk.data = s.disk.data
  slot : s'.disk.slot = (s.flush ip).slot
  nodes : s'.disk.nodes = update (s.flush ip).nodes (s.itable ip).inum
    { (s.flush ip).nodes (s.itable ip).inum with size := max (s.itable ip).size off }

theorem wp_resize {Q : Unit → State → Prop} (h : Ready sb s ip)
    (hF : s.log.room < 1 → F (.log .tooBig)) (hQ : ∀ s', Resized sb s ip off s' → Q () s') :
    wp (iupdate sb ip) (fun e _ => F e) Q
      (s.setInode ip { s.itable ip with size := max (s.itable ip).size off }) := by
  obtain ⟨n', hn'⟩ : ∃ n' : Inode,
    n' = { s.itable ip with size := max (s.itable ip).size off } := ⟨_, rfl⟩
  have hinum : n'.inum = (s.itable ip).inum := by rw [hn']
  have ht : ((s.flush ip).dinode (s.itable ip).inum).type ≠ 0 := by
    rw [flush_dinode]
    exact h.type
  have haddrs : n'.addrs = ((s.flush ip).dinode (s.itable ip).inum).addrs := by
    rw [flush_dinode, hn']
  have ht' : n'.type ≠ 0 := by
    rw [hn']
    exact h.type
  have hdisk : s.disk.setDinode (s.itable ip).inum n'.toDinode =
      (s.flush ip).setDinode (s.itable ip).inum n'.toDinode := by
    rw [State.flush, Disk.setDinode_setDinode]
  rw [← hn']
  have hwp : wp (iupdate sb ip) (fun e _ => F e) (fun _ s' => ∃ l, Logged s.log l 1 ∧
      s' = ((s.setInode ip n').setDinode (s.itable ip).inum n'.toDinode).setLog l)
      (s.setInode ip n') := by
    refine wp_iupdate h.held h.op hF fun l hl => ⟨l, hl, ?_⟩
    simp only [State.setInode_itable, update_self, hinum]
  refine (hwp.and (journals_iupdate ip _)).mono (fun _ _ he => he.1) ?_
  rintro _ s' ⟨⟨l, hl, rfl⟩, hj⟩
  have hj₀ : Journaled sb s (s.setInode ip n') := .of_eq rfl rfl
  refine hQ _ ⟨rfl, hl, hj₀.trans hj, ?_, ?_, rfl, rfl, ?_, ?_⟩
  · simp [hn']
  · simp
  · exact (congrArg Disk.slot hdisk).trans (Disk.slot_setAttr haddrs ht ht')
  · refine (congrArg Disk.nodes hdisk).trans ((Disk.nodes_setAttr haddrs ht ht').trans ?_)
    have hattr : ((s.flush ip).nodes (s.itable ip).inum).toAttr = (s.itable ip).toAttr := by
      rw [Disk.nodes_toAttr ht, flush_dinode]
    refine congrArg _ (Node.eq_of ?_ (fun _ => rfl) fun _ => rfl)
    rw [hn']
    dsimp only
    rw [hattr]

/-- `writei` in three parts: whole blocks, the block where it stops and the size. -/
theorem wp_writei_stop {Q : ℤ → State → Prop} (hsb : sb.Valid) (h : Ready sb s ip)
    (hoff : off < 2 ^ 32) (hn : n < 2 ^ 32)
    (hF : s.log.room < 6 * blocks off n + 1 → F (.log .tooBig))
    (hbad : (s.itable ip).size < off ∨ MAXFILE * BSIZE < off + n → Q (-1) s)
    (hok : ∀ (k : ℕ) s₁ s₂ s', off ≤ (s.itable ip).size → off + n ≤ MAXFILE * BSIZE →
      Stored sb s ip src off k (6 * blocks off n) s₁ → Stop sb ip src off n k s₁ s₂ →
      Resized sb s₂ ip (off + k) s' → Q k s') :
    wp (writei sb ip src off n) (fun e _ => F e) Q s := by
  have hcap : MAXFILE * BSIZE < 2 ^ 32 := by decide
  unfold writei
  rw [wp_bind, wp_getInode, wp_ite]
  refine ⟨fun h₁ => hbad (by omega), fun h₁ => ?_⟩
  rw [wp_ite]
  refine ⟨fun h₂ => hbad (.inr h₂), fun h₂ => ?_⟩
  rw [wp_bind]
  refine wp_writeiFrom hsb h (Nat.zero_le _) (by omega) (by omega)
    (fun hr => hF (by rw [Nat.sub_zero] at hr; omega)) fun k s₁ s₂ hst hstop => ?_
  simp only [Nat.zero_add, Nat.sub_zero] at hst hstop ⊢
  obtain ⟨hg, hown, -⟩ := hst.stop hstop
  have hroom := hg.log.room
  rw [wp_bind, wp_modifyInode, wp_bind]
  exact wp_resize (h.of_grow hg hown) (fun hr => hF (by omega))
    fun s' hs' => hok k s₁ s₂ s' (by omega) (by omega) hst hstop hs'

/-- The outcome of a call of `writei` that returns `k`. -/
structure Written (sb : Superblock) (s : State) (ip : Iptr) (src : ℕ → Option UInt8)
    (off n k : ℕ) (s' : State) : Prop where
  held : s'.held = s.held
  log : Logged s.log s'.log (6 * blocks off n + 1)
  itable : s'.itable = update s.itable ip
    { s.itable ip with
      addrs := (s'.itable ip).addrs, size := max (s.itable ip).size (off + k) }
  dinode : s'.disk.dinode =
    update s.disk.dinode (s.itable ip).inum (s'.itable ip).toDinode
  own : Own sb s'.disk
  nodes : ∃ nd, Wrote ((s.flush ip).nodes (s.itable ip).inum) nd src off n k ∧
    s'.disk.nodes = update (s.flush ip).nodes (s.itable ip).inum
      { nd with size := max (s.itable ip).size (off + k) }
  full : k < n → (∀ j < n, (src j).isSome) →
    (∀ b < sb.size, s'.disk.bitmap b = true) ∧ (k = 0 ∨ (off + k) % BSIZE = 0) ∧
      ((s.flush ip).nodes (s.itable ip).inum).mapped ((off + k) / BSIZE) = false

theorem Stored.written {s₁ s₂ : State} (hst : Stored sb s ip src off k (6 * blocks off n) s₁)
    (hstop : Stop sb ip src off n k s₁ s₂) (hs' : Resized sb s₂ ip (off + k) s') :
    Written sb s ip src off n k s' := by
  obtain ⟨hg, hown, nd, hw, hnodes⟩ := hst.stop hstop
  have hsize : (s₂.itable ip).size = (s.itable ip).size := congrArg Attr.size hg.attr
  refine ⟨hs'.held.trans hg.held, hg.log.trans hs'.log, ?_, ?_, ?_, ⟨nd, hw, ?_⟩, fun hk hsrc => ?_⟩
  · rw [hs'.itable, update_self, hg.self, hg.itable]
    simp
  · rw [hs'.dinode, hg.dinode, hg.inum]
  · unfold Own
    rw [hs'.slot, hs'.bitmap]
    exact hown
  · rw [hs'.nodes, hnodes, hg.inum, hsize, update_self, update_idem]
  · rw [hs'.bitmap]
    exact hst.full hstop hk hsrc

theorem wp_writei {Q : ℤ → State → Prop} (hsb : sb.Valid) (h : Ready sb s ip)
    (hoff : off < 2 ^ 32) (hn : n < 2 ^ 32)
    (hF : s.log.room < 6 * blocks off n + 1 → F (.log .tooBig))
    (hbad : (s.itable ip).size < off ∨ MAXFILE * BSIZE < off + n → Q (-1) s)
    (hok : ∀ k s', off ≤ (s.itable ip).size → off + n ≤ MAXFILE * BSIZE →
      Written sb s ip src off n k s' → Q k s') :
    wp (writei sb ip src off n) (fun e _ => F e) Q s :=
  wp_writei_stop hsb h hoff hn hF hbad fun k _ _ s' h₁ h₂ hst hstop hs' =>
    hok k s' h₁ h₂ (hst.written hstop hs')

end Write

end Xv6.Fs

import Xv6.Logic.Fifo
import Xv6.Virtio.Driver

/-! # Requests and their descriptors

Every call that has allocated its descriptors owns a chain of three. Once the call has
posted it, the head of the chain is in exactly one place until `virtio_disk_intr` has
cleared `b->disk`: among the entries of the `avail` ring that the device has not read,
with the device, or among the entries of the `used` ring that the driver has not read.
-/

namespace Xv6.Virtio

open Function

/-! ## Descriptors -/

namespace Disk

variable {β : Type} {d d' : Disk β} {i j : ℕ} {x : Chain} {b : Bool}

theorem free_setFree : (d.setFree i b).free j = if j = i then b else d.free j :=
  update_apply ..

theorem setFree_setFree {b' : Bool} : (d.setFree i b).setFree i b' = d.setFree i b' := by
  simp [setFree]

theorem setFree_comm {b' : Bool} (h : i ≠ j) :
    (d.setFree i b).setFree j b' = (d.setFree j b').setFree i b := by
  simp [setFree, update_comm h]

theorem setFree_self (h : d.free i = b) : d.setFree i b = d := by
  simp [setFree, ← h]

theorem allocDesc_eq (h : d.allocDesc = some (i, d')) :
    i < NUM ∧ d.free i = true ∧ d' = d.setFree i false := by
  unfold allocDesc at h
  obtain ⟨j, hj, he⟩ := Option.map_eq_some_iff.mp h
  obtain ⟨rfl, rfl⟩ := Prod.mk.inj he
  exact ⟨List.mem_range.mp (List.mem_of_find?_eq_some hj), List.find?_some hj, rfl⟩

theorem freeDesc_eq (hi : i < NUM) (hf : d.free i = false) : d.freeDesc i =
    .ok { d.setFree i true with desc := update d.desc i ⟨.null, 0, 0, 0⟩ } := by
  rw [freeDesc, if_neg (Nat.not_le.mpr hi), hf]
  rfl

/-- What `alloc3_desc` leaves: a failed call changes only descriptors that are free before and
after. -/
def Allocated (d : Disk β) : Option Chain × Disk β → Prop
  | (none, d') => (∀ i, d.free i = false → d'.desc i = d.desc i) ∧ d' = { d with desc := d'.desc }
  | (some x, d') => x.toList.Nodup ∧ (∀ i ∈ x.toList, i < NUM ∧ d.free i = true) ∧
      d' = { d with free := fun i => if i ∈ x.toList then false else d.free i }

theorem alloc3Desc_spec (d : Disk β) : ∃ r, d.alloc3Desc = .ok r ∧ Allocated d r := by
  unfold alloc3Desc
  split
  · exact ⟨_, rfl, fun _ _ => rfl, rfl⟩
  next i₀ d₀ h₀ =>
  obtain ⟨hlt₀, hf₀, rfl⟩ := allocDesc_eq h₀
  split
  · -- the one descriptor is free again
    rw [freeDesc_eq hlt₀ (by simp [free_setFree]), setFree_setFree, setFree_self hf₀]
    refine ⟨_, rfl, fun i hi => update_of_ne ?_ _ _, rfl⟩
    rintro rfl
    simp [hf₀] at hi
  next i₁ d₁ h₁ =>
  obtain ⟨hlt₁, hf₁, rfl⟩ := allocDesc_eq h₁
  obtain ⟨h₁₀, hf₁⟩ : i₁ ≠ i₀ ∧ d.free i₁ = true := by
    rw [free_setFree] at hf₁
    split at hf₁ <;> simp_all
  split
  · rw [freeDesc_eq hlt₀ (by simp [free_setFree]), setFree_comm h₁₀, setFree_setFree,
      setFree_self hf₀]
    change ∃ r, (freeDesc _ i₁ >>= _) = _ ∧ _
    rw [freeDesc_eq hlt₁ (by simp [setFree])]
    refine ⟨_, rfl, fun i hi => ?_, ?_⟩
    · have hne : i ≠ i₀ ∧ i ≠ i₁ := ⟨by rintro rfl; simp [hf₀] at hi, by rintro rfl; simp [hf₁] at hi⟩
      simp [hne.1, hne.2, setFree]
    · simp [setFree, ← hf₁]
  next i₂ d₂ h₂ =>
  obtain ⟨hlt₂, hf₂, rfl⟩ := allocDesc_eq h₂
  obtain ⟨h₂₁, h₂₀, hf₂⟩ : i₂ ≠ i₁ ∧ i₂ ≠ i₀ ∧ d.free i₂ = true := by
    rw [free_setFree, free_setFree] at hf₂
    split at hf₂
    · simp_all
    · split at hf₂ <;> simp_all
  refine ⟨_, rfl, ?_, ?_, ?_⟩
  · simp [Chain.toList, h₁₀.symm, h₂₀.symm, h₂₁.symm]
  · simp [Chain.toList, hlt₀, hlt₁, hlt₂, hf₀, hf₁, hf₂]
  · simp only [setFree, Chain.toList]
    congr 1
    funext i
    simp only [update_apply, List.mem_cons, List.not_mem_nil, or_false]
    by_cases h₀ : i = i₀ <;> by_cases h₁ : i = i₁ <;> by_cases h₂ : i = i₂ <;> simp [h₀, h₁, h₂]

/-- The descriptors of a request for buffer `b`. -/
structure Formatted {γ : Type} (d : Disk γ) (b : γ) (x : Chain) : Prop where
  head : d.desc x.i₀ = ⟨.op x.i₀, 16, VRING_DESC_F_NEXT, x.i₁⟩
  data : ∃ f, d.desc x.i₁ = ⟨.data b, BSIZE, f ||| VRING_DESC_F_NEXT, x.i₂⟩
  status : d.desc x.i₂ = ⟨.status x.i₀, 1, VRING_DESC_F_WRITE, 0⟩

theorem Formatted.congr {γ : Type} {d d' : Disk γ} {b : γ} (hf : d.Formatted b x)
    (h : ∀ i ∈ x.toList, d'.desc i = d.desc i) : d'.Formatted b x := by
  simp only [Chain.toList, List.mem_cons, List.not_mem_nil, or_false, forall_eq_or_imp,
    forall_eq] at h
  obtain ⟨h₀, h₁, h₂⟩ := h
  exact ⟨h₀.trans hf.head, h₁ ▸ hf.data, h₂.trans hf.status⟩

theorem or_next_and_next (f : BitVec 16) :
    (f ||| VRING_DESC_F_NEXT) &&& VRING_DESC_F_NEXT ≠ 0 := by
  intro h
  have := congrArg (BitVec.getLsbD · 0) h
  simp at this

/-- `free_desc` when it does not panic. -/
def freed (d : Disk β) (i : ℕ) : Disk β :=
  { d.setFree i true with desc := update d.desc i ⟨.null, 0, 0, 0⟩ }

theorem freeChainFrom_next {fuel : ℕ} (hi : i < NUM) (hf : d.free i = false)
    (hn : (d.desc i).flags &&& VRING_DESC_F_NEXT ≠ 0) :
    freeChainFrom (fuel + 1) i d = freeChainFrom fuel (d.desc i).next (d.freed i) := by
  rw [freeChainFrom, freeDesc_eq hi hf]
  exact if_pos hn

theorem freeChainFrom_last {fuel : ℕ} (hi : i < NUM) (hf : d.free i = false)
    (hn : (d.desc i).flags &&& VRING_DESC_F_NEXT = 0) :
    freeChainFrom (fuel + 1) i d = .ok (d.freed i) := by
  rw [freeChainFrom, freeDesc_eq hi hf]
  exact if_neg (not_not.mpr hn)

theorem freeChain_eq {γ : Type} {d : Disk γ} {b : γ} (hf : d.Formatted b x) (hn : x.toList.Nodup)
    (hx : ∀ i ∈ x.toList, i < NUM ∧ d.free i = false) :
    d.freeChain x.i₀ = .ok { d with
      desc := fun i => if i ∈ x.toList then ⟨.null, 0, 0, 0⟩ else d.desc i
      free := fun i => if i ∈ x.toList then true else d.free i } := by
  obtain ⟨i₀, i₁, i₂⟩ := x
  obtain ⟨f, hdata⟩ := hf.data
  have hhead := hf.head
  have hstatus := hf.status
  simp only [Chain.toList, List.nodup_cons, List.mem_cons, List.not_mem_nil, or_false, not_or,
    forall_eq_or_imp, forall_eq] at hn hx hhead hdata hstatus
  obtain ⟨⟨h₀₁, h₀₂⟩, h₁₂, -⟩ := hn
  obtain ⟨⟨hlt₀, hf₀⟩, ⟨hlt₁, hf₁⟩, hlt₂, hf₂⟩ := hx
  have hdesc₁ : (d.freed i₀).desc i₁ = d.desc i₁ := update_of_ne (Ne.symm h₀₁) _ _
  have hdesc₂ : ((d.freed i₀).freed i₁).desc i₂ = d.desc i₂ :=
    (update_of_ne (Ne.symm h₁₂) _ _).trans (update_of_ne (Ne.symm h₀₂) _ _)
  have hflags : VRING_DESC_F_WRITE &&& VRING_DESC_F_NEXT = 0 := by decide
  rw [freeChain, freeChainFrom_next hlt₀ hf₀ (by rw [hhead]; simp), hhead,
    freeChainFrom_next hlt₁ (by simpa [freed, free_setFree, Ne.symm h₀₁] using hf₁)
      (by rw [hdesc₁, hdata]; exact or_next_and_next f), hdesc₁, hdata,
    freeChainFrom_last hlt₂
      (by simpa [freed, setFree, Ne.symm h₀₂, Ne.symm h₁₂] using hf₂)
      (by rw [hdesc₂, hstatus]; exact hflags)]
  simp only [freed, setFree, Chain.toList]
  congr 2 <;> funext i <;>
    simp only [update_apply, List.mem_cons, List.not_mem_nil, or_false] <;>
    by_cases h₀ : i = i₀ <;> by_cases h₁ : i = i₁ <;> by_cases h₂ : i = i₂ <;> simp [h₀, h₁, h₂]

end Disk

/-! ## The invariant -/

/-- How far a call is that owns a chain. -/
inductive Phase
  | raw
  | formatted (req : BlkReq)
  /-- The chain is in the ring, and the index has not been incremented. -/
  | staged (req : BlkReq)
  | posted
  /-- The call has seen that `b->disk` is 0. -/
  | done
  deriving DecidableEq

namespace Stage

def phase : Stage → Option (Phase × Chain)
  | format _ _ x => some (.raw, x)
  | post write blockno x => some (.formatted (blkReq write blockno), x)
  | publish write blockno x => some (.staged (blkReq write blockno), x)
  | wait x | asleep x => some (.posted, x)
  | reclaim x => some (.done, x)
  | _ => none

/-- The call holds `vdisk_lock`. -/
def locked : Stage → Bool
  | idle | enter .. | asleep _ => false
  | _ => true

end Stage

/-- The requests for buffer `b`. -/
def requestsOf {β : Type} [DecidableEq β] (b : β) (l : List (Request β)) : List (Request β) :=
  l.filter fun r => r.b = b

variable {β : Type}

/-- The descriptors that are not free belong to one call each. -/
structure Own (O : β → Option Chain) (free : ℕ → Bool) : Prop where
  nodup : ∀ b x, O b = some x → x.toList.Nodup
  taken : ∀ i, i < NUM ∧ free i = false ↔ ∃ b x, O b = some x ∧ i ∈ x.toList
  disjoint : ∀ b b' x x' i, O b = some x → O b' = some x' → i ∈ x.toList → i ∈ x'.toList → b = b'

/-- What a call on `b` has written so far. -/
structure Shape (s : Shared β) (b : β) (ph : Phase) (x : Chain) : Prop where
  formatted : ph ≠ .raw → s.disk.Formatted b x ∧ (s.disk.info x.i₀).b = some b
  waiting : ∀ r, ph = .formatted r ∨ ph = .staged r → s.busy b = true ∧ s.disk.ops x.i₀ = r
  finished : ph = .done → s.busy b = false
  staged : ∀ r, ph = .staged r → s.disk.avail.ring (s.disk.avail.idx % NUM) = x.i₀

/-- The chain of a posted request. -/
def sent : Option (Phase × Chain) → Option Chain
  | some (.posted, x) => some x
  | _ => none

variable [DecidableEq β]

/-- The heads of the posted requests: those that the device has not read, those that it works on
and those that the driver has not seen. -/
structure Queues (Q : β → Option Chain) (s : Shared β) (unread ready : List ℕ) : Prop where
  avail : Fifo NUM IDX s.disk.avail.ring s.dev.lastAvail s.disk.avail.idx unread
  used : Fifo NUM IDX s.disk.used.ring s.disk.usedIdx s.disk.used.idx ready
  nodup : (unread ++ s.dev.inflight ++ ready).Nodup
  heads : ∀ h, h ∈ unread ++ s.dev.inflight ++ ready ↔
    ∃ b x, Q b = some x ∧ x.i₀ = h ∧ s.busy b = true
  status : ∀ h ∈ ready, (s.disk.info h).status = 0
  completed : ready.map (fun h => (s.disk.info h).b) =
    (s.served.drop s.cleared).map fun r => some r.b
  cleared : s.cleared ≤ s.served.length
  sent : ∀ b x, Q b = some x → x.i₀ ∈ unread ++ s.dev.inflight →
    requestsOf b s.posted = requestsOf b s.served ++ [⟨b, s.disk.ops x.i₀⟩]
  settled : ∀ b, (∀ x, Q b = some x → x.i₀ ∉ unread ++ s.dev.inflight) →
    requestsOf b s.posted = requestsOf b s.served

structure Core (P : β → Option (Phase × Chain)) (s : Shared β) (unread ready : List ℕ) : Prop where
  own : Own (fun b => (P b).map Prod.snd) s.disk.free
  shape : ∀ b ph x, P b = some (ph, x) → Shape s b ph x
  queues : Queues (fun b => sent (P b)) s unread ready

theorem head_mem (x : Chain) : x.i₀ ∈ x.toList := List.mem_cons_self ..

section

variable {O : β → Option Chain} {free : ℕ → Bool} {b b' : β} {x x' : Chain} {i : ℕ}

namespace Own

omit [DecidableEq β] in
theorem lt (ho : Own O free) (hb : O b = some x) (hi : i ∈ x.toList) : i < NUM ∧ free i = false :=
  (ho.taken i).mpr ⟨b, x, hb, hi⟩

omit [DecidableEq β] in
theorem not_mem (ho : Own O free) (hb : O b = some x) (hb' : O b' = some x') (hne : b' ≠ b)
    (hi : i ∈ x'.toList) : i ∉ x.toList := fun h => hne (ho.disjoint b' b x' x i hb' hb hi h)

theorem insert (ho : Own O free) (hb : O b = none) (hn : x.toList.Nodup)
    (hx : ∀ i ∈ x.toList, i < NUM ∧ free i = true) :
    Own (update O b (some x)) fun i => if i ∈ x.toList then false else free i := by
  have hold : ∀ b' x', update O b (some x) b' = some x' → b' = b ∧ x' = x ∨
      b' ≠ b ∧ O b' = some x' := fun b' x' he => by
    rcases eq_or_ne b' b with rfl | hne
    · rw [update_self, Option.some.injEq] at he
      exact .inl ⟨rfl, he.symm⟩
    · rw [update_of_ne hne] at he
      exact .inr ⟨hne, he⟩
  -- the new chain was free
  have hfresh : ∀ b' x' i, O b' = some x' → i ∈ x'.toList → i ∉ x.toList := fun b' x' i hb' hi h => by
    have := (ho.lt hb' hi).2
    rw [(hx i h).2] at this
    cases this
  refine ⟨fun b' x' he => ?_, fun i => ⟨fun ⟨hi, hf⟩ => ?_, ?_⟩, fun b₁ b₂ x₁ x₂ i h₁ h₂ hi₁ hi₂ => ?_⟩
  · rcases hold b' x' he with ⟨-, rfl⟩ | ⟨-, he⟩
    · exact hn
    · exact ho.nodup b' x' he
  · split at hf
    next hm => exact ⟨b, x, update_self .., hm⟩
    next hm =>
      obtain ⟨b', x', hb', hi'⟩ := (ho.taken i).mp ⟨hi, hf⟩
      have hne : b' ≠ b := by
        rintro rfl
        rw [hb] at hb'
        cases hb'
      exact ⟨b', x', (update_of_ne hne ..).trans hb', hi'⟩
  · rintro ⟨b', x', he, hi⟩
    rcases hold b' x' he with ⟨-, rfl⟩ | ⟨-, he⟩
    · exact ⟨(hx i hi).1, if_pos hi⟩
    · exact ⟨(ho.lt he hi).1, by rw [if_neg (hfresh b' x' i he hi)]; exact (ho.lt he hi).2⟩
  · rcases hold b₁ x₁ h₁ with ⟨rfl, rfl⟩ | ⟨-, h₁'⟩ <;>
      rcases hold b₂ x₂ h₂ with ⟨rfl, rfl⟩ | ⟨-, h₂'⟩
    · rfl
    · exact absurd hi₁ (hfresh b₂ x₂ i h₂' hi₂)
    · exact absurd hi₂ (hfresh b₁ x₁ i h₁' hi₁)
    · exact ho.disjoint b₁ b₂ x₁ x₂ i h₁' h₂' hi₁ hi₂

theorem erase (ho : Own O free) (hb : O b = some x) :
    Own (update O b none) fun i => if i ∈ x.toList then true else free i := by
  have hold : ∀ {b' x'}, update O b none b' = some x' → b' ≠ b ∧ O b' = some x' :=
    fun {b' x'} he => by
      rcases eq_or_ne b' b with rfl | hne
      · rw [update_self] at he
        cases he
      · exact ⟨hne, by rwa [update_of_ne hne] at he⟩
  refine ⟨fun b' x' he => ho.nodup b' x' (hold he).2, fun i => ⟨fun ⟨hi, hf⟩ => ?_, ?_⟩,
    fun b₁ b₂ x₁ x₂ i h₁ h₂ => ho.disjoint b₁ b₂ x₁ x₂ i (hold h₁).2 (hold h₂).2⟩
  · split at hf
    · cases hf
    next hm =>
      obtain ⟨b', x', hb', hi'⟩ := (ho.taken i).mp ⟨hi, hf⟩
      have hne : b' ≠ b := by
        rintro rfl
        rw [hb, Option.some.injEq] at hb'
        exact hm (hb' ▸ hi')
      exact ⟨b', x', (update_of_ne hne ..).trans hb', hi'⟩
  · rintro ⟨b', x', he, hi⟩
    obtain ⟨hne, he⟩ := hold he
    exact ⟨(ho.lt he hi).1, by rw [if_neg (ho.not_mem hb he hne hi)]; exact (ho.lt he hi).2⟩

end Own

end

/-! ## Steps of a call -/

variable {s' : Shared β}

omit [DecidableEq β] in
theorem Shape.congr {s : Shared β} {b : β} {ph : Phase} {x : Chain} (hs : Shape s b ph x)
    (hdesc : ∀ i ∈ x.toList, s'.disk.desc i = s.disk.desc i)
    (hinfo : (s'.disk.info x.i₀).b = (s.disk.info x.i₀).b) (hbusy : s'.busy b = s.busy b)
    (hops : s'.disk.ops x.i₀ = s.disk.ops x.i₀)
    (hring : ∀ r, ph = .staged r → s'.disk.avail = s.disk.avail) : Shape s' b ph x where
  formatted hp := ⟨(hs.formatted hp).1.congr hdesc, hinfo.trans (hs.formatted hp).2⟩
  waiting r hp := ⟨hbusy.trans (hs.waiting r hp).1, hops.trans (hs.waiting r hp).2⟩
  finished hp := hbusy.trans (hs.finished hp)
  staged r hp := by rw [hring r hp, hs.staged r hp]

/-- The queues do not depend on the rest of the disk. -/
theorem Queues.congr {Q : β → Option Chain} {s : Shared β} {unread ready : List ℕ}
    (hq : Queues Q s unread ready)
    (ha : Fifo NUM IDX s'.disk.avail.ring s'.dev.lastAvail s'.disk.avail.idx unread)
    (hu : s'.disk.used = s.disk.used ∧ s'.disk.usedIdx = s.disk.usedIdx) (hdev : s'.dev = s.dev)
    (hh : s'.posted = s.posted ∧ s'.served = s.served ∧ s'.cleared = s.cleared)
    (hbusy : ∀ b x, Q b = some x → s'.busy b = s.busy b)
    (hinfo : ∀ h ∈ ready, s'.disk.info h = s.disk.info h)
    (hops : ∀ b x, Q b = some x → s'.disk.ops x.i₀ = s.disk.ops x.i₀) :
    Queues Q s' unread ready where
  avail := ha
  used := by
    rw [hu.1, hu.2]
    exact hq.used
  nodup := hdev ▸ hq.nodup
  heads h := by
    rw [hdev, hq.heads]
    exact exists_congr fun b => exists_congr fun x => and_congr_right fun hb => by rw [hbusy b x hb]
  status h hm := by
    rw [hinfo h hm]
    exact hq.status h hm
  completed := by
    rw [hh.2.1, hh.2.2, ← hq.completed]
    exact List.map_congr_left fun h hm => by rw [hinfo h hm]
  cleared := by
    rw [hh.2.1, hh.2.2]
    exact hq.cleared
  sent b x hb hm := by
    rw [hh.1, hh.2.1, hops b x hb]
    exact hq.sent b x hb (hdev ▸ hm)
  settled b hb := by
    rw [hh.1, hh.2.1]
    exact hq.settled b fun x hx => hdev ▸ hb x hx

variable {v : Option (Phase × Chain)}

namespace Core

variable {P : β → Option (Phase × Chain)} {s : Shared β} {d : Disk β} {unread ready : List ℕ}
  {b b' : β} {ph ph' : Phase} {x x' : Chain} {i h : ℕ}

omit [DecidableEq β] in
theorem own_of (hb : P b = some (ph, x)) : (P b).map Prod.snd = some x := by rw [hb]; rfl

omit [DecidableEq β] in
theorem sent_of (hb : sent (P b) = some x) : P b = some (.posted, x) := by
  unfold sent at hb
  split at hb
  next y he => rw [he, Option.some.inj hb]
  next => cases hb

theorem lt (hc : Core P s unread ready) (hb : P b = some (ph, x)) (hi : i ∈ x.toList) :
    i < NUM ∧ s.disk.free i = false := hc.own.lt (own_of hb) hi

theorem not_mem (hc : Core P s unread ready) (hb : P b = some (ph, x)) (hb' : P b' = some (ph', x'))
    (hne : b' ≠ b) (hi : i ∈ x'.toList) : i ∉ x.toList :=
  hc.own.not_mem (own_of hb) (own_of hb') hne hi

/-- A head in the queues is the head of a posted request. -/
theorem posted_of_head (hc : Core P s unread ready) (hm : h ∈ unread ++ s.dev.inflight ++ ready) :
    ∃ b x, P b = some (.posted, x) ∧ x.i₀ = h ∧ s.busy b = true := by
  obtain ⟨b, x, hb, he, hs⟩ := (hc.queues.heads h).mp hm
  exact ⟨b, x, sent_of hb, he, hs⟩

theorem not_head (hc : Core P s unread ready) (hb : P b = some (ph, x))
    (hp : ph ≠ .posted ∨ s.busy b = false) (hi : i ∈ x.toList) :
    i ∉ unread ++ s.dev.inflight ++ ready := fun hm => by
  obtain ⟨b', x', hb', rfl, hs⟩ := hc.posted_of_head hm
  have he := hc.own.disjoint b' b x' x x'.i₀ (own_of hb') (own_of hb) (head_mem x') hi
  subst he
  rw [hb] at hb'
  obtain ⟨rfl, rfl⟩ : ph = .posted ∧ x = x' := by simpa using hb'
  rcases hp with hp | hp
  · exact hp rfl
  · rw [hs] at hp
    cases hp

theorem length_le (hc : Core P s unread ready) :
    (unread ++ s.dev.inflight ++ ready).length ≤ NUM := by
  have hsub : (unread ++ s.dev.inflight ++ ready).toFinset ⊆ Finset.range NUM := fun i hi => by
    obtain ⟨b, x, hb, rfl, -⟩ := hc.posted_of_head (List.mem_toFinset.mp hi)
    exact Finset.mem_range.mpr (hc.lt hb (head_mem x)).1
  have hle := Finset.card_le_card hsub
  rwa [List.toFinset_card_of_nodup hc.queues.nodup, Finset.card_range] at hle

/-- A call that has not posted its chain leaves room for its head. -/
theorem room (hc : Core P s unread ready) (hb : P b = some (ph, x)) (hp : ph ≠ .posted) :
    unread.length < NUM := by
  have hnot := hc.not_head hb (.inl hp) (head_mem x)
  have hsub : (x.i₀ :: (unread ++ s.dev.inflight ++ ready)).toFinset ⊆ Finset.range NUM := by
    intro i hi
    rw [List.mem_toFinset, List.mem_cons] at hi
    rw [Finset.mem_range]
    rcases hi with rfl | hi
    · exact (hc.lt hb (head_mem x)).1
    · obtain ⟨b', x', hb', rfl, -⟩ := hc.posted_of_head hi
      exact (hc.lt hb' (head_mem x')).1
  have hle := Finset.card_le_card hsub
  rw [List.toFinset_card_of_nodup (List.nodup_cons.mpr ⟨hnot, hc.queues.nodup⟩),
    Finset.card_range] at hle
  simp only [List.length_cons, List.length_append] at hle
  omega

omit [DecidableEq β] in
/-- The owners, and the posted requests, after a change of one call. -/
theorem own_update [DecidableEq β] (v : Option (Phase × Chain)) :
    (fun b' => (update P b v b').map Prod.snd) =
      update (fun b' => (P b').map Prod.snd) b (v.map Prod.snd) :=
  comp_update (Option.map Prod.snd) P b v

theorem sent_update (v : Option (Phase × Chain)) :
    (fun b' => sent (update P b v b')) =
      update (fun b' => sent (P b')) b (sent v) := comp_update sent P b v

theorem own_rephase (hb : P b = some (ph, x)) :
    (fun b' => (update P b (some (ph', x)) b').map Prod.snd) =
      fun b' => (P b').map Prod.snd := by
  rw [own_update, update_eq_self_iff, hb]
  rfl

theorem sent_same (hv : sent v = sent (P b)) :
    (fun b' => sent (update P b v b')) = fun b' => sent (P b') := by
  rw [sent_update, update_eq_self_iff, hv]

/-- The shapes of the other calls and that of call `b`. -/
theorem shape_update (hb : ∀ ph x, v = some (ph, x) → Shape s' b ph x)
    (ho : ∀ b' ph' x', b' ≠ b → P b' = some (ph', x') → Shape s' b' ph' x') :
    ∀ b' ph' x', update P b v b' = some (ph', x') → Shape s' b' ph' x' := by
  intro b' ph' x' hb'
  rcases eq_or_ne b' b with rfl | hne
  · rw [update_self] at hb'
    exact hb ph' x' hb'
  · rw [update_of_ne hne] at hb'
    exact ho b' ph' x' hne hb'

/-- `alloc3_desc` finds too few descriptors. -/
theorem rollback (hc : Core P s unread ready) (hd : Disk.Allocated s.disk (none, d)) :
    Core P { s with disk := d } unread ready := by
  obtain ⟨hdesc, he⟩ := hd
  rw [he]
  refine ⟨hc.own, fun b ph x hb => (hc.shape b ph x hb).congr (fun i hi => ?_) rfl rfl rfl fun _ _ => rfl,
    hc.queues.congr hc.queues.avail ⟨rfl, rfl⟩ rfl ⟨rfl, rfl, rfl⟩ (fun _ _ _ => rfl)
      (fun _ _ => rfl) fun _ _ _ => rfl⟩
  exact hdesc i (hc.lt hb hi).2

theorem allocated (hc : Core P s unread ready) (hb : P b = none)
    (hd : Disk.Allocated s.disk (some x, d)) :
    Core (update P b (some (.raw, x))) { s with disk := d } unread ready := by
  obtain ⟨hn, hx, rfl⟩ := hd
  refine ⟨?_, shape_update (fun ph x he => ?_) fun b' ph' x' hne hb' => ?_, ?_⟩
  · rw [own_update]
    exact hc.own.insert (by rw [hb]; rfl) hn hx
  · cases he
    exact ⟨fun hp => absurd rfl hp, by simp, nofun, fun _ => nofun⟩
  · exact (hc.shape b' ph' x' hb').congr (fun _ _ => rfl) rfl rfl rfl fun _ _ => rfl
  · rw [sent_same (by rw [hb]; rfl)]
    exact hc.queues.congr hc.queues.avail ⟨rfl, rfl⟩ rfl ⟨rfl, rfl, rfl⟩ (fun _ _ _ => rfl)
      (fun _ _ => rfl) fun _ _ _ => rfl

theorem formatted {write : Bool} {blockno : ℕ} (hc : Core P s unread ready)
    (hb : P b = some (.raw, x)) :
    Core (update P b (some (.formatted (blkReq write blockno), x)))
      { s with disk := s.disk.format b write blockno x, busy := update s.busy b true }
      unread ready := by
  have hn : x.i₀ ≠ x.i₁ ∧ x.i₀ ≠ x.i₂ ∧ x.i₁ ≠ x.i₂ := by
    have := hc.own.nodup b x (own_of hb)
    simp only [Chain.toList, List.nodup_cons, List.mem_cons, List.not_mem_nil, or_false,
      not_or] at this
    exact ⟨this.1.1, this.1.2, this.2.1⟩
  refine ⟨?_, shape_update (fun ph x' he => ?_) fun b' ph' x' hne hb' => ?_, ?_⟩
  · rw [own_rephase hb]
    exact hc.own
  · cases he
    refine ⟨fun _ => ⟨⟨?_, ⟨if write then 0 else VRING_DESC_F_WRITE, ?_⟩, ?_⟩, ?_⟩,
      fun r hr => ⟨update_self .., ?_⟩, nofun, fun r => nofun⟩
    · simp [Disk.format, hn.1, hn.2.1]
    · simp [Disk.format, hn.2.2]
    · simp [Disk.format]
    · simp [Disk.format]
    · simpa [Disk.format] using hr
  · have hnot : ∀ i ∈ x'.toList, i ∉ x.toList := fun i hi => hc.not_mem hb hb' hne hi
    have hhead : x'.i₀ ≠ x.i₀ := fun he => hnot _ (head_mem x') (he ▸ head_mem x)
    refine (hc.shape b' ph' x' hb').congr (fun i hi => ?_) ?_ (update_of_ne hne ..)
      (update_of_ne hhead ..) fun _ _ => rfl
    · have := hnot i hi
      simp only [Chain.toList, List.mem_cons, List.not_mem_nil, or_false, not_or] at this
      simp [Disk.format, this.1, this.2.1, this.2.2]
    · simp [Disk.format, hhead]
  · rw [sent_same (by rw [hb]; rfl)]
    refine hc.queues.congr hc.queues.avail ⟨rfl, rfl⟩ rfl ⟨rfl, rfl, rfl⟩ (fun b' x' hb' => ?_)
      (fun h hm => ?_) fun b' x' hb' => ?_
    · have hne : b' ≠ b := by
        rintro rfl
        rw [hb] at hb'
        cases hb'
      exact update_of_ne hne ..
    · refine update_of_ne ?_ ..
      rintro rfl
      exact hc.not_head hb (.inl nofun) (head_mem x) (List.mem_append_right _ hm)
    · refine update_of_ne (fun he => ?_) ..
      have hb' := sent_of hb'
      have := hc.own.disjoint b' b x' x x'.i₀ (own_of hb') (own_of hb) (head_mem x') (he ▸ head_mem x)
      rw [this, hb] at hb'
      cases hb'

/-- The head of the chain is written to the `avail` ring. -/
theorem staged {r : BlkReq} (hc : Core P s unread ready) (hb : P b = some (.formatted r, x))
    (hlock : ∀ b' ph' x', b' ≠ b → P b' = some (ph', x') → ph' = .posted) :
    Core (update P b (some (.staged r, x)))
      { s with disk := { s.disk with avail := ⟨s.disk.avail.idx,
          update s.disk.avail.ring (s.disk.avail.idx % NUM) x.i₀⟩ } } unread ready := by
  refine ⟨?_, shape_update (fun ph x' he => ?_) fun b' ph' x' hne hb' => ?_, ?_⟩
  · rw [own_rephase hb]
    exact hc.own
  · cases he
    obtain ⟨h₀, h₁, -, -⟩ := hc.shape b _ x hb
    refine ⟨fun _ => ⟨(h₀ nofun).1.congr fun _ _ => rfl, (h₀ nofun).2⟩, fun r' hr => ?_, nofun,
      fun _ _ => update_self ..⟩
    obtain rfl : r = r' := by simpa using hr
    exact h₁ r (.inl rfl)
  · refine (hc.shape b' ph' x' hb').congr (fun _ _ => rfl) rfl rfl rfl fun r hp => ?_
    rw [hlock b' ph' x' hne hb'] at hp
    cases hp
  · rw [sent_same (by rw [hb]; rfl)]
    exact hc.queues.congr (hc.queues.avail.fill (hc.room hb nofun) _) ⟨rfl, rfl⟩ rfl ⟨rfl, rfl, rfl⟩
      (fun _ _ _ => rfl) (fun _ _ => rfl) fun _ _ _ => rfl

/-- The call has seen that its request is done. -/
theorem done (hc : Core P s unread ready) (hb : P b = some (.posted, x)) (hs : s.busy b = false) :
    Core (update P b (some (.done, x))) s unread ready := by
  have hnot := hc.not_head hb (.inr hs) (head_mem x)
  have hother : ∀ b' x', update (fun b' => sent (P b')) b none b' = some x' →
      b' ≠ b ∧ sent (P b') = some x' := fun b' x' hb' => by
    rcases eq_or_ne b' b with rfl | hne
    · rw [update_self] at hb'
      cases hb'
    · exact ⟨hne, by rwa [update_of_ne hne] at hb'⟩
  refine ⟨?_, shape_update (fun ph x' he => ?_) fun b' ph' x' _ hb' => hc.shape b' ph' x' hb', ?_⟩
  · rw [own_rephase hb]
    exact hc.own
  · cases he
    exact ⟨fun _ => (hc.shape b _ x hb).formatted nofun, by simp, fun _ => hs, fun _ => nofun⟩
  · rw [sent_update]
    have hq := hc.queues
    refine ⟨hq.avail, hq.used, hq.nodup, fun h => ?_, hq.status, hq.completed, hq.cleared,
      fun b' x' hb' => hq.sent b' x' (hother b' x' hb').2, fun b' hb' => ?_⟩
    · rw [hq.heads]
      constructor
      · rintro ⟨b', x', hb', he, hs'⟩
        have hne : b' ≠ b := by
          rintro rfl
          rw [hs] at hs'
          cases hs'
        exact ⟨b', x', (update_of_ne hne ..).trans hb', he, hs'⟩
      · rintro ⟨b', x', hb', he, hs'⟩
        exact ⟨b', x', (hother b' x' hb').2, he, hs'⟩
    · refine hq.settled b' fun x' hx' => ?_
      rcases eq_or_ne b' b with rfl | hne
      · rw [hb] at hx'
        cases hx'
        exact fun hm => hnot (List.mem_append_left _ hm)
      · exact hb' x' ((update_of_ne hne ..).trans hx')

omit [DecidableEq β] in
theorem requestsOf_append [DecidableEq β] {l : List (Request β)} {r : Request β} :
    requestsOf b (l ++ [r]) = requestsOf b l ++ if r.b = b then [r] else [] := by
  simp [requestsOf, List.filter_append, List.filter_singleton]

/-- The index of the `avail` ring is incremented. -/
theorem published {r : BlkReq} (hc : Core P s unread ready) (hb : P b = some (.staged r, x))
    (hlock : ∀ b' ph' x', b' ≠ b → P b' = some (ph', x') → ph' = .posted) :
    Core (update P b (some (.posted, x)))
      { s with
        disk := { s.disk with avail := ⟨(s.disk.avail.idx + 1) % IDX, s.disk.avail.ring⟩ }
        posted := s.posted ++ [⟨b, r⟩] } (unread ++ [x.i₀]) ready := by
  have hnot := hc.not_head hb (.inl nofun) (head_mem x)
  have hq := hc.queues
  have hnone : sent (P b) = none := by rw [hb]; rfl
  obtain ⟨hfor, hwait, -, hring⟩ := hc.shape b _ x hb
  refine ⟨?_, shape_update (fun ph x' he => ?_) fun b' ph' x' hne hb' => ?_, ?_⟩
  · rw [own_rephase hb]
    exact hc.own
  · cases he
    exact ⟨fun _ => ⟨(hfor nofun).1.congr fun _ _ => rfl, (hfor nofun).2⟩, by simp, nofun,
      fun _ => nofun⟩
  · refine (hc.shape b' ph' x' hb').congr (fun _ _ => rfl) rfl rfl rfl fun r hp => ?_
    rw [hlock b' ph' x' hne hb'] at hp
    cases hp
  rw [sent_update]
  have hmem : ∀ h, h ∈ unread ++ [x.i₀] ++ s.dev.inflight ++ ready ↔
      h = x.i₀ ∨ h ∈ unread ++ s.dev.inflight ++ ready := fun h => by
    simp only [List.mem_append, List.mem_singleton]
    tauto
  refine ⟨hq.avail.advance (hc.room hb nofun) (hring r rfl), hq.used, ?_, fun h => ?_, hq.status,
    hq.completed, hq.cleared, fun b' x' hb' hm => ?_, fun b' hb' => ?_⟩
  · have hperm : (unread ++ [x.i₀] ++ s.dev.inflight ++ ready).Perm
        (x.i₀ :: (unread ++ s.dev.inflight ++ ready)) := by
      simp only [List.append_assoc, List.singleton_append]
      exact List.perm_middle
    exact hperm.nodup_iff.mpr (List.nodup_cons.mpr ⟨hnot, hq.nodup⟩)
  · change h ∈ unread ++ [x.i₀] ++ s.dev.inflight ++ ready ↔ _
    rw [hmem, hq.heads]
    constructor
    · rintro (rfl | ⟨b', x', hb', he, hs⟩)
      · exact ⟨b, x, update_self .., rfl, (hwait r (.inr rfl)).1⟩
      · have hne : b' ≠ b := by
          rintro rfl
          rw [hnone] at hb'
          cases hb'
        exact ⟨b', x', (update_of_ne hne ..).trans hb', he, hs⟩
    · rintro ⟨b', x', hb', he, hs⟩
      rcases eq_or_ne b' b with rfl | hne
      · rw [update_self] at hb'
        cases hb'
        exact .inl he.symm
      · rw [update_of_ne hne] at hb'
        exact .inr ⟨b', x', hb', he, hs⟩
  · rw [requestsOf_append]
    rcases eq_or_ne b' b with rfl | hne
    · rw [update_self] at hb'
      cases hb'
      rw [if_pos rfl, hq.settled b' fun y hy => by rw [hnone] at hy; cases hy]
      change _ = requestsOf b' s.served ++ [⟨b', s.disk.ops x.i₀⟩]
      rw [(hwait r (.inr rfl)).2]
    · rw [update_of_ne hne] at hb'
      rw [if_neg (Ne.symm hne), List.append_nil]
      refine hq.sent b' x' hb' ?_
      have hne' : x'.i₀ ≠ x.i₀ := fun he => hc.not_mem hb (sent_of hb') hne (head_mem x') (he ▸ head_mem x)
      change x'.i₀ ∈ unread ++ [x.i₀] ++ s.dev.inflight at hm
      simp only [List.mem_append, List.mem_singleton] at hm ⊢
      tauto
  · have hne : b' ≠ b := by
      rintro rfl
      exact hb' x (update_self ..) (by simp)
    rw [requestsOf_append, if_neg (Ne.symm hne), List.append_nil]
    refine hq.settled b' fun x' hx' hm => hb' x' ((update_of_ne hne ..).trans hx') ?_
    simp only [List.mem_append, List.mem_singleton] at hm ⊢
    tauto

/-- `free_chain` on a request that is done. -/
theorem reclaimed (hc : Core P s unread ready) (hb : P b = some (.done, x)) :
    ∃ d, Disk.freeChain { s.disk with
        info := update s.disk.info x.i₀ { s.disk.info x.i₀ with b := none } } x.i₀ = .ok d ∧
      Core (update P b none) { s with disk := d } unread ready := by
  obtain ⟨hfor, -, hfin, -⟩ := hc.shape b _ x hb
  refine ⟨_, Disk.freeChain_eq ((hfor nofun).1.congr fun _ _ => rfl)
    (hc.own.nodup b x (own_of hb)) fun i hi => hc.lt hb hi, ?_⟩
  refine ⟨?_, shape_update nofun fun b' ph' x' hne hb' => ?_, ?_⟩
  · rw [own_update]
    exact hc.own.erase (own_of hb)
  · have hnot : ∀ i ∈ x'.toList, i ∉ x.toList := fun i hi => hc.not_mem hb hb' hne hi
    refine (hc.shape b' ph' x' hb').congr (fun i hi => if_neg (hnot i hi)) ?_ rfl rfl fun _ _ => rfl
    have : x'.i₀ ≠ x.i₀ := fun he => hnot _ (head_mem x') (he ▸ head_mem x)
    simp [this]
  · rw [sent_same (by rw [hb]; rfl)]
    refine hc.queues.congr hc.queues.avail ⟨rfl, rfl⟩ rfl ⟨rfl, rfl, rfl⟩ (fun _ _ _ => rfl)
      (fun h hm => update_of_ne ?_ ..) fun _ _ _ => rfl
    rintro rfl
    exact hc.not_head hb (.inl nofun) (head_mem x) (List.mem_append_right _ hm)

end Core

/-! ## The handler and the device -/

namespace Core

variable {P : β → Option (Phase × Chain)} {s : Shared β} {unread ready : List ℕ} {b : β}
  {x : Chain} {h : ℕ}

/-- The entry that `virtio_disk_intr` reads. -/
theorem entry (hc : Core P s unread ready) (hne : s.disk.usedIdx ≠ s.disk.used.idx) :
    ∃ b x ready', ready = x.i₀ :: ready' ∧ P b = some (.posted, x) ∧ s.busy b = true ∧
      s.disk.used.ring (s.disk.usedIdx % NUM) = x.i₀ ∧ x.i₀ < NUM ∧
      (s.disk.info x.i₀).status = 0 ∧ (s.disk.info x.i₀).b = some b := by
  cases ready with
  | nil => exact absurd (hc.queues.used.empty_iff.mpr rfl) hne
  | cons h ready =>
    obtain ⟨b, x, hb, rfl, hs⟩ := hc.posted_of_head (List.mem_append_right _ (List.mem_cons_self ..))
    exact ⟨b, x, ready, rfl, hb, hs, hc.queues.used.get.1, (hc.lt hb (head_mem x)).1,
      hc.queues.status _ (List.mem_cons_self ..), ((hc.shape b _ x hb).formatted nofun).2⟩

theorem handled (hc : Core P s unread (x.i₀ :: ready)) (hb : P b = some (.posted, x)) :
    Core P
      { s with
        busy := update s.busy b false
        disk := { s.disk with usedIdx := (s.disk.usedIdx + 1) % IDX }
        cleared := s.cleared + 1 } unread ready ∧ (s.served[s.cleared]?).map (·.b) = some b := by
  have hq := hc.queues
  obtain ⟨r, rest, hdrop⟩ : ∃ r rest, s.served.drop s.cleared = r :: rest := by
    have := hq.completed
    cases hd : s.served.drop s.cleared with
    | nil => simp [hd] at this
    | cons r rest => exact ⟨r, rest, rfl⟩
  have hcomp := hq.completed
  rw [hdrop, List.map_cons, List.map_cons, List.cons.injEq,
    ((hc.shape b _ x hb).formatted nofun).2] at hcomp
  have hget : s.served[s.cleared]? = some r := by
    rw [← List.head?_drop, hdrop]
    rfl
  have hrest : s.served.drop (s.cleared + 1) = rest := by
    rw [← List.drop_drop, hdrop]
    rfl
  have hnd := hq.nodup
  rw [List.nodup_append] at hnd
  have hx : x.i₀ ∉ unread ++ s.dev.inflight ++ ready := fun hm => by
    rcases List.mem_append.mp hm with hm | hm
    · exact hnd.2.2 _ hm _ (List.mem_cons_self ..) rfl
    · exact (List.nodup_cons.mp hnd.2.1).1 hm
  refine ⟨⟨hc.own, fun b' ph' x' hb' => ?_, hq.avail, hq.used.get.2, ?_, fun h => ?_,
    fun h hm => hq.status h (List.mem_cons_of_mem _ hm), ?_, ?_, hq.sent, hq.settled⟩, ?_⟩
  · rcases eq_or_ne b' b with rfl | hne
    · rw [hb] at hb'
      cases hb'
      exact ⟨fun _ => ⟨((hc.shape b' _ x hb).formatted nofun).1.congr fun _ _ => rfl,
        ((hc.shape b' _ x hb).formatted nofun).2⟩, by simp, nofun, fun _ => nofun⟩
    · exact (hc.shape b' ph' x' hb').congr (fun _ _ => rfl) rfl (update_of_ne hne ..) rfl
        fun _ _ => rfl
  · refine List.Nodup.sublist ?_ hq.nodup
    exact List.Sublist.append_left (List.sublist_cons_self ..) _
  · have hmem : h ∈ unread ++ s.dev.inflight ++ ready ↔
        h ∈ unread ++ s.dev.inflight ++ x.i₀ :: ready ∧ h ≠ x.i₀ := by
      constructor
      · intro hm
        refine ⟨?_, fun he => hx (he ▸ hm)⟩
        simp only [List.mem_append, List.mem_cons] at hm ⊢
        tauto
      · rintro ⟨hm, hne⟩
        simp only [List.mem_append, List.mem_cons] at hm ⊢
        tauto
    rw [hmem, hq.heads]
    constructor
    · rintro ⟨⟨b', x', hb', rfl, hs⟩, hne⟩
      have hbb : b' ≠ b := by
        rintro rfl
        have := sent_of hb'
        rw [hb] at this
        cases this
        exact hne rfl
      exact ⟨b', x', hb', rfl, (update_of_ne hbb ..).trans hs⟩
    · rintro ⟨b', x', hb', rfl, hs⟩
      have hbb : b' ≠ b := by
        rintro rfl
        simp at hs
      simp only [update_of_ne hbb] at hs
      exact ⟨⟨b', x', hb', rfl, hs⟩,
        fun he => hc.not_mem hb (sent_of hb') hbb (head_mem x') (he ▸ head_mem x)⟩
  · rw [hrest]
    exact hcomp.2
  · have := List.length_drop (i := s.cleared) (l := s.served)
    rw [hdrop, List.length_cons] at this
    have := hq.cleared
    change s.cleared + 1 ≤ s.served.length
    omega
  · rw [hget, Option.map_some, hcomp.1]

theorem fetched (hc : Core P s unread ready) (hne : s.dev.lastAvail ≠ s.disk.avail.idx) :
    ∃ unread', Core P
      { s with dev := ⟨(s.dev.lastAvail + 1) % IDX,
          s.dev.inflight ++ [s.disk.avail.ring (s.dev.lastAvail % NUM)]⟩ } unread' ready := by
  have hq := hc.queues
  cases unread with
  | nil => exact absurd (hq.avail.empty_iff.mpr rfl) hne
  | cons h unread =>
    obtain ⟨hcell, hav⟩ := hq.avail.get
    have hmem : ∀ i, i ∈ unread ++ (s.dev.inflight ++ [h]) ↔ i ∈ h :: unread ++ s.dev.inflight :=
      fun i => by
        simp only [List.mem_append, List.cons_append, List.mem_cons, List.not_mem_nil, or_false]
        tauto
    have hperm : (unread ++ (s.dev.inflight ++ [h]) ++ ready).Perm
        (h :: unread ++ s.dev.inflight ++ ready) := by
      refine List.Perm.append_right ready ?_
      rw [← List.append_assoc]
      exact List.perm_append_singleton h _
    rw [hcell]
    refine ⟨unread, hc.own, fun b ph x hb => ?_, hav, hq.used, hperm.nodup_iff.mpr hq.nodup,
      fun i => (hperm.mem_iff).trans (hq.heads i), hq.status, hq.completed, hq.cleared,
      fun b x hb hm => hq.sent b x hb ((hmem _).mp hm),
      fun b hb => hq.settled b fun x hx hm => hb x hx ((hmem _).mpr hm)⟩
    exact (hc.shape b ph x hb).congr (fun _ _ => rfl) rfl rfl rfl fun _ _ => rfl

/-- The device completes the request of a call. -/
theorem completed (hc : Core P s unread ready) (hm : h ∈ s.dev.inflight) :
    ∃ b x, P b = some (.posted, x) ∧ x.i₀ = h ∧ s.disk.Formatted b x ∧
      Core P
        { s with
          disk := { s.disk with
            info := update s.disk.info h { s.disk.info h with status := 0 }
            used := ⟨(s.disk.used.idx + 1) % IDX,
              update s.disk.used.ring (s.disk.used.idx % NUM) h⟩ }
          dev := { s.dev with inflight := s.dev.inflight.erase h }
          served := s.served ++ [⟨b, s.disk.ops h⟩] } unread (ready ++ [h]) := by
  have hq := hc.queues
  obtain ⟨b, x, hb, rfl, hs⟩ := hc.posted_of_head (h := h) (by simp [hm])
  have hsb : sent (P b) = some x := by rw [hb]; rfl
  refine ⟨b, x, hb, rfl, ((hc.shape b _ x hb).formatted nofun).1, hc.own, fun b' ph' x' hb' => ?_, ?_⟩
  · refine (hc.shape b' ph' x' hb').congr (fun _ _ => rfl) ?_ rfl rfl fun _ _ => rfl
    change (update s.disk.info x.i₀ _ x'.i₀).b = _
    rw [update_apply]
    split
    next he => rw [he]
    next => rfl
  have herase := List.perm_cons_erase hm
  have hperm : (unread ++ s.dev.inflight.erase x.i₀ ++ (ready ++ [x.i₀])).Perm
      (unread ++ s.dev.inflight ++ ready) := by
    rw [← List.append_assoc]
    refine (List.perm_append_singleton ..).trans (List.Perm.trans ?_
      ((herase.append_left unread).append_right ready).symm)
    simpa using (List.perm_middle (a := x.i₀)).symm
  have hnd := hperm.nodup_iff.mpr hq.nodup
  have hnot : x.i₀ ∉ unread ++ s.dev.inflight.erase x.i₀ := fun hm' => by
    rw [List.nodup_append] at hnd
    exact hnd.2.2 _ hm' _ (by simp) rfl
  have hmem : ∀ i, i ≠ x.i₀ → (i ∈ unread ++ s.dev.inflight.erase x.i₀ ↔
      i ∈ unread ++ s.dev.inflight) := fun i hi => by
    simp only [List.mem_append, List.mem_erase_of_ne hi]
  have hlen : ready.length < NUM := by
    have := hc.length_le
    have := List.length_pos_of_mem hm
    simp only [List.length_append] at *
    omega
  refine ⟨hq.avail, hq.used.put hlen x.i₀, hnd, fun i => hperm.mem_iff.trans (hq.heads i),
    fun i hi => ?_, ?_, ?_, fun b' x' hb' hm' => ?_, fun b' hb' => ?_⟩
  · change (update s.disk.info x.i₀ _ i).status = 0
    rw [update_apply]
    split
    next => rfl
    next hne =>
      rcases List.mem_append.mp hi with hi | hi
      · exact hq.status i hi
      · exact absurd (List.mem_singleton.mp hi) hne
  · rw [List.drop_append_of_le_length hq.cleared, List.map_append, List.map_append, ← hq.completed]
    congr 1
    · refine List.map_congr_left fun i hi => ?_
      change (update s.disk.info x.i₀ _ i).b = _
      rw [update_apply]
      split
      next he => rw [he]
      next => rfl
    · simp [((hc.shape b _ x hb).formatted nofun).2]
  · rw [List.length_append]
    exact Nat.le_add_right_of_le hq.cleared
  · have hne : b' ≠ b := by
      rintro rfl
      rw [hsb] at hb'
      cases hb'
      exact hnot hm'
    have hx : x'.i₀ ≠ x.i₀ := fun he => hnot (he ▸ hm')
    rw [requestsOf_append, if_neg (Ne.symm hne), List.append_nil]
    exact hq.sent b' x' hb' ((hmem _ hx).mp hm')
  · rw [requestsOf_append]
    rcases eq_or_ne b' b with rfl | hne
    · rw [if_pos rfl]
      exact hq.sent b' x hsb (List.mem_append_right _ hm)
    · rw [if_neg (Ne.symm hne), List.append_nil]
      refine hq.settled b' fun x' hx' hm' => hb' x' hx' ((hmem _ ?_).mpr hm')
      exact fun he => hc.not_mem hb (sent_of hx') hne (head_mem x') (he ▸ head_mem x)

end Core

end Xv6.Virtio

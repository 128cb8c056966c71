import Xv6.Buffer.Cache

/-! # The buffer cache invariant

`Inv s pins dirty L` says that the cache of `s` shows the block contents `L`:
the list is a ring of all buffers, no block of the root device has two
buffers, a buffer counts its holder and its pin, and every buffer that is not
being modified agrees with `L`. Blocks that are not pinned agree with the disk.
-/

namespace Xv6.Buffer

open Function

/-- The buffer is assigned to block `b` of the root device. -/
def Buf.For (v : Buf) (b : ℕ) : Prop := v.dev = ROOTDEV ∧ v.blockno = b

/-- The number of references a buffer has: its holder and its pin. -/
def Buf.refs (v : Buf) (pins : List ℕ) : ℕ :=
  (if v.lock = none then 0 else 1) + (if v.dev = ROOTDEV ∧ v.blockno ∈ pins then 1 else 0)

structure Inv (s : Machine) (pins : List ℕ) (dirty : Set (Fin NBUF)) (L : ℕ → Block) : Prop where
  ring : ∃ l, Ring s.next s.prev l ∧ ∀ b, b ∈ l
  unique : ∀ {i j b}, (s.buf i).For b → (s.buf j).For b → i = j
  refcnt : ∀ i, (s.buf i).refcnt = (s.buf i).refs pins
  pinned : ∀ b ∈ pins, ∃ i, (s.buf i).For b ∧ (s.buf i).valid = true
  data : ∀ {i b}, (s.buf i).For b → (s.buf i).valid = true → i ∉ dirty → (s.buf i).data = L b
  disk : ∀ b, b ∉ pins → s.disk b = L b
  held : ∀ i ∈ dirty, (s.buf i).lock ≠ none
  locked : ∀ i, (s.buf i).lock ≠ none → (s.buf i).dev = ROOTDEV ∧ (s.buf i).valid = true

/-- The state with one buffer replaced. -/
def Machine.withBuf (s : Machine) (i : Fin NBUF) (v : Buf) : Machine :=
  { s with buf := update s.buf i v }

section withBuf

variable (s : Machine) (i : Fin NBUF) (v : Buf)

@[simp] theorem withBuf_disk : (s.withBuf i v).disk = s.disk := rfl
@[simp] theorem withBuf_writes : (s.withBuf i v).writes = s.writes := rfl
@[simp] theorem withBuf_log : (s.withBuf i v).log = s.log := rfl
@[simp] theorem withBuf_next : (s.withBuf i v).next = s.next := rfl
@[simp] theorem withBuf_prev : (s.withBuf i v).prev = s.prev := rfl
@[simp] theorem withBuf_buf_self : (s.withBuf i v).buf i = v := by simp [Machine.withBuf]

variable {s i v}

theorem withBuf_buf_of_ne {j : Fin NBUF} (h : j ≠ i) : (s.withBuf i v).buf j = s.buf j := by
  simp [Machine.withBuf, h]

@[simp] theorem withBuf_withBuf (w : Buf) : (s.withBuf i v).withBuf i w = s.withBuf i w := by
  simp [Machine.withBuf]

end withBuf

/-- At most buffer `i` and the order of the list differ. -/
structure Frame (i : Fin NBUF) (s s' : Machine) : Prop where
  buf : ∀ j, j ≠ i → s'.buf j = s.buf j
  disk : s'.disk = s.disk
  writes : s'.writes = s.writes
  log : s'.log = s.log

theorem Frame.withBuf (s : Machine) (i : Fin NBUF) (v : Buf) : Frame i s (s.withBuf i v) :=
  ⟨fun _ h => withBuf_buf_of_ne h, rfl, rfl, rfl⟩

variable {Q : Unit → Machine → Prop}

section commands

variable {E : Halt → Machine → Prop} {s : Machine} {i : Fin NBUF} {v : Buf} {pid : ℕ}

@[simp] theorem wp_setBuf :
    wp (setBuf i v) E Q s ↔ Q () (s.withBuf i v) := Iff.rfl

theorem wp_acquiresleep (hE : (s.buf i).lock ≠ none → E .sleep s)
    (hQ : (s.buf i).lock = none → Q () (s.withBuf i { s.buf i with lock := some pid })) :
    wp (acquiresleep pid i) E Q s := by
  unfold acquiresleep
  simp only [wp_bind, wp_get]
  split
  next hl => exact hE (by simp [hl])
  next hl => exact hQ hl

end commands

/-- No buffer is locked. -/
def Calm (s : Machine) : Prop := ∀ i, (s.buf i).lock = none

/-- Why `bread` of block `b` cannot go on: its buffer is locked, or it has none and every buffer
is in use. -/
def Stuck (s : Machine) (b : ℕ) : Prop :=
  (∃ i, (s.buf i).For b ∧ (s.buf i).lock ≠ none) ∨
    (∀ i, ¬ (s.buf i).For b) ∧ ∀ i, (s.buf i).refcnt ≠ 0

/-- The buffer that `bread` returns for block `b`. -/
def fetched (pid b : ℕ) (pins : List ℕ) (L : ℕ → Block) : Buf :=
  ⟨true, ROOTDEV, b, some pid, 1 + (if b ∈ pins then 1 else 0), L b⟩

theorem fetched_for {pid b : ℕ} {pins : List ℕ} {L : ℕ → Block} :
    (fetched pid b pins L).For b := ⟨rfl, rfl⟩

namespace Inv

variable {s : Machine} {pins : List ℕ} {dirty dirty' : Set (Fin NBUF)} {L : ℕ → Block}
  {pid b : ℕ} {i : Fin NBUF} {v : Buf}

theorem exists_ring (h : Inv s pins dirty L) :
    ∃ l, Ring s.next s.prev l ∧ (∀ b, b ∈ l) ∧ l.length ≤ NBUF := by
  obtain ⟨l, hr, hl⟩ := h.ring
  refine ⟨l, hr, hl, ?_⟩
  simpa using hr.nodup.length_le_card

theorem not_pinned (h : Inv s pins dirty L) (hr : (s.buf i).refcnt = 0) :
    (s.buf i).lock = none ∧ ∀ b ∈ pins, ¬ (s.buf i).For b := by
  have hi := h.refcnt i
  unfold Buf.refs at hi
  constructor
  · by_contra hl
    rw [if_neg hl] at hi
    omega
  · rintro b hb ⟨hd, rfl⟩
    have hp : (s.buf i).dev = ROOTDEV ∧ (s.buf i).blockno ∈ pins := ⟨hd, hb⟩
    rw [if_pos hp] at hi
    omega

/-- Replacing one buffer keeps the invariant when the new buffer fits in its place. -/
theorem withBuf (h : Inv s pins dirty L)
    (hu : ∀ j b, j ≠ i → (s.buf j).For b → ¬ v.For b)
    (hr : v.refcnt = v.refs pins)
    (hp : ∀ b ∈ pins, (s.buf i).For b → v.For b ∧ v.valid = true)
    (hv : ∀ b, v.For b → v.valid = true → i ∉ dirty' → v.data = L b)
    (hd : ∀ j, j ≠ i → (j ∈ dirty' ↔ j ∈ dirty))
    (hl : i ∈ dirty' → v.lock ≠ none)
    (hk : v.lock ≠ none → v.dev = ROOTDEV ∧ v.valid = true) :
    Inv (s.withBuf i v) pins dirty' L where
  ring := h.ring
  unique := by
    intro j k b hj hk
    by_cases hji : j = i <;> by_cases hki : k = i
    · rw [hji, hki]
    · subst hji
      rw [withBuf_buf_self] at hj
      rw [withBuf_buf_of_ne hki] at hk
      exact absurd hj (hu k b hki hk)
    · subst hki
      rw [withBuf_buf_self] at hk
      rw [withBuf_buf_of_ne hji] at hj
      exact absurd hk (hu j b hji hj)
    · rw [withBuf_buf_of_ne hji] at hj
      rw [withBuf_buf_of_ne hki] at hk
      exact h.unique hj hk
  refcnt j := by
    by_cases hji : j = i
    · subst hji; simpa using hr
    · simpa [withBuf_buf_of_ne hji] using h.refcnt j
  pinned b hb := by
    obtain ⟨j, hj, hjv⟩ := h.pinned b hb
    by_cases hji : j = i
    · subst hji
      exact ⟨j, by simpa using hp b hb hj⟩
    · exact ⟨j, by rw [withBuf_buf_of_ne hji]; exact ⟨hj, hjv⟩⟩
  data := by
    intro j b hj hjv hjd
    by_cases hji : j = i
    · subst hji
      rw [withBuf_buf_self] at hj hjv ⊢
      exact hv b hj hjv hjd
    · rw [withBuf_buf_of_ne hji] at hj hjv ⊢
      exact h.data hj hjv (fun hm => hjd ((hd j hji).mpr hm))
  disk := h.disk
  held j hj := by
    by_cases hji : j = i
    · subst hji
      rw [withBuf_buf_self]
      exact hl hj
    · rw [withBuf_buf_of_ne hji]
      exact h.held j ((hd j hji).mp hj)
  locked j hj := by
    by_cases hji : j = i
    · subst hji
      rw [withBuf_buf_self] at hj ⊢
      exact hk hj
    · rw [withBuf_buf_of_ne hji] at hj ⊢
      exact h.locked j hj

/-- Putting the buffer of `bread` in the place `bget` found keeps the invariant. -/
theorem fetch (h : Inv s pins dirty L) (hl : (s.buf i).lock = none)
    (hi : (s.buf i).For b ∨ (s.buf i).refcnt = 0 ∧ ∀ j, ¬ (s.buf j).For b) :
    Inv (s.withBuf i (fetched pid b pins L)) pins dirty L := by
  have hid : i ∉ dirty := fun hm => h.held i hm hl
  refine h.withBuf ?_ ?_ ?_ ?_ (fun _ _ => Iff.rfl) (fun hm => absurd hm hid) fun _ => ⟨rfl, rfl⟩
  · rintro j c hji hj ⟨-, rfl⟩
    rcases hi with hi | ⟨-, hi⟩
    · exact hji (h.unique hj hi)
    · exact hi j hj
  · simp [fetched, Buf.refs]
  · intro c hc hic
    rcases hi with hi | ⟨hr, -⟩
    · obtain rfl : b = c := hi.2.symm.trans hic.2
      exact ⟨fetched_for, rfl⟩
    · exact absurd hic ((h.not_pinned hr).2 c hc)
  · rintro c ⟨-, rfl⟩ - -
    rfl

/-- A buffer in use that nobody holds is pinned. -/
theorem mem_pins (h : Inv s pins dirty L) (hl : (s.buf i).lock = none)
    (hr : (s.buf i).refcnt ≠ 0) : (s.buf i).For (s.buf i).blockno ∧ (s.buf i).blockno ∈ pins := by
  rw [h.refcnt, Buf.refs, if_pos hl, zero_add] at hr
  obtain ⟨hd, hp⟩ := (ite_ne_right_iff.mp hr).1
  exact ⟨⟨hd, rfl⟩, hp⟩

/-- Pins alone leave a buffer free, as long as they are fewer than the unlocked buffers. -/
theorem exists_free (h : Inv s pins dirty L) (u : Finset (Fin NBUF))
    (hl : ∀ i ∈ u, (s.buf i).lock = none) (hu : pins.length < u.card) :
    ∃ i, (s.buf i).refcnt = 0 := by
  by_contra! hfull
  have hmem := fun i hi => h.mem_pins (hl i hi) (hfull i)
  have hcard : u.card ≤ pins.toFinset.card := by
    refine Finset.card_le_card_of_injOn (fun i => (s.buf i).blockno) ?_ ?_
    · exact fun i hi => List.mem_toFinset.mpr (hmem i hi).2
    · intro i hi j hj he
      refine h.unique (hmem i hi).1 ?_
      rw [show (s.buf i).blockno = (s.buf j).blockno from he]
      exact (hmem j hj).1
  have := pins.toFinset_card_le
  omega

theorem not_stuck (h : Inv s pins dirty L) (hs : Calm s) (hp : pins.length < NBUF) :
    ¬ Stuck s b := by
  rintro (⟨i, -, hi⟩ | ⟨-, hfull⟩)
  · exact hi (hs i)
  · obtain ⟨i, hi⟩ := h.exists_free Finset.univ (fun i _ => hs i) (by simpa using hp)
    exact hfull i hi

/-- With one buffer locked for another block, `bread` finds the block or still a free buffer. -/
theorem not_stuck_of_frame {t : Machine} {c : ℕ} (h : Inv t pins dirty L) (hs : Calm s)
    (hf : Frame i s t) (hi : (t.buf i).For c) (hc : b ≠ c)
    (hp : b ∈ pins ∨ pins.length + 1 < NBUF) : ¬ Stuck t b := by
  have hlock : ∀ j, j ≠ i → (t.buf j).lock = none := fun j hj => by rw [hf.buf j hj, hs j]
  rintro (⟨j, hj, hl⟩ | ⟨hno, hfull⟩)
  · by_cases hji : j = i
    · subst hji
      exact hc (hj.2.symm.trans hi.2)
    · exact hl (hlock j hji)
  · rcases hp with hp | hp
    · obtain ⟨j, hj, -⟩ := h.pinned b hp
      exact hno j hj
    · have hcard : (Finset.univ.erase i).card = NBUF - 1 := by simp
      obtain ⟨j, hj⟩ := h.exists_free (Finset.univ.erase i)
        (fun j hj => hlock j (Finset.ne_of_mem_erase hj)) (by omega)
      exact hfull j hj

theorem wp_bget {E : Halt → Machine → Prop} {Q : Fin NBUF → Machine → Prop}
    (h : Inv s pins dirty L) (hE : ∀ e s', s'.writes = s.writes → Stuck s b → E e s')
    (hQ : ∀ i v, (s.buf i).lock = none →
      ((s.buf i).For b ∧ v = { s.buf i with refcnt := (s.buf i).refcnt + 1, lock := some pid } ∨
        ((s.buf i).refcnt = 0 ∧ ∀ j, ¬ (s.buf j).For b) ∧
          v = ⟨false, ROOTDEV, b, some pid, 1, (s.buf i).data⟩) →
      Q i (s.withBuf i v)) : wp (bget pid ROOTDEV b) E Q s := by
  obtain ⟨l, hr, hl, hlen⟩ := h.exists_ring
  unfold bget
  simp only [wp_bind, wp_get]
  rw [hr.chain_next hlen, hr.chain_prev hlen]
  split
  next i hi =>
    have hf : (s.buf i).For b := by simpa [Buf.For] using List.find?_some hi
    simp only [wp_bind, wp_setBuf]
    refine wp_acquiresleep (fun hlock => ?_) fun hlock => ?_
    · rw [withBuf_buf_self] at hlock
      exact hE _ _ rfl (.inl ⟨i, hf, hlock⟩)
    · rw [withBuf_buf_self] at hlock
      simp only [wp_pure, withBuf_buf_self, withBuf_withBuf]
      exact hQ i _ hlock (.inl ⟨hf, rfl⟩)
  next hno =>
    have hno' : ∀ j, ¬ (s.buf j).For b := fun j => by
      simpa [Buf.For] using List.find?_eq_none.mp hno j (hl j)
    split
    next i hi =>
      have h0 : (s.buf i).refcnt = 0 := by simpa using List.find?_some hi
      simp only [wp_bind, wp_setBuf]
      refine wp_acquiresleep (fun hlock => ?_) fun hlock => ?_
      · rw [withBuf_buf_self] at hlock
        exact absurd (h.not_pinned h0).1 hlock
      · rw [withBuf_buf_self] at hlock
        simp only [wp_pure, withBuf_buf_self, withBuf_withBuf]
        exact hQ i _ hlock (.inr ⟨⟨h0, hno'⟩, rfl⟩)
    next hfull =>
      refine hE _ _ rfl (.inr ⟨hno', fun i => ?_⟩)
      simpa using List.find?_eq_none.mp hfull i (List.mem_reverse.mpr (hl i))

/-- `bread` returns the locked buffer of the block, holding the block's contents. -/
theorem wp_bread {E : Halt → Machine → Prop} {Q : Fin NBUF → Machine → Prop}
    (h : Inv s pins dirty L) (hE : ∀ e s', s'.writes = s.writes → Stuck s b → E e s')
    (hQ : ∀ i s', (s.buf i).lock = none → Frame i s s' → s'.buf i = fetched pid b pins L →
      Inv s' pins dirty L → Q i s') : wp (bread pid ROOTDEV b) E Q s := by
  unfold bread
  rw [wp_bind]
  refine h.wp_bget hE fun i v hlock hv => ?_
  have hfetch := fun hi => hQ i (s.withBuf i (fetched pid b pins L)) hlock (Frame.withBuf s i _)
    (withBuf_buf_self ..) (h.fetch hlock hi)
  have hrefs := h.refcnt i
  rcases hv with ⟨hf, rfl⟩ | ⟨⟨h0, hno⟩, rfl⟩
  · have hrefs' : (s.buf i).refcnt + 1 = 1 + (if b ∈ pins then 1 else 0) := by
      rw [hrefs, Buf.refs, hlock, hf.1, hf.2]
      simp [add_comm]
    have hval : (if (s.buf i).valid then (s.buf i).data else s.disk b) = L b := by
      split
      next hval => exact h.data hf hval fun hm => h.held i hm hlock
      next hval =>
        refine h.disk b fun hb => hval ?_
        obtain ⟨j, hj, hjv⟩ := h.pinned b hb
        exact h.unique hf hj ▸ hjv
    have hres := hfetch (.inl hf)
    simp only [wp_bind, wp_get, wp_ite, wp_pure, virtioDiskRead, wp_setBuf, withBuf_buf_self,
      withBuf_withBuf, withBuf_disk]
    constructor
    · intro hv
      rw [hv] at hval
      simpa [fetched, hf.1, hf.2, hrefs', ← hval] using hres
    · intro hv
      rw [Bool.not_eq_false] at hv
      rw [hv] at hval
      have he : ({ s.buf i with refcnt := (s.buf i).refcnt + 1, lock := some pid } : Buf) =
          fetched pid b pins L := by
        simpa [fetched, hrefs', hv, hf.1, hf.2] using hval
      rw [he]
      exact hres
  · have hb : b ∉ pins := fun hb => by
      obtain ⟨j, hj, -⟩ := h.pinned b hb
      exact hno j hj
    have hres := hfetch (.inr ⟨h0, hno⟩)
    simp only [wp_bind, wp_get, wp_ite, wp_pure, virtioDiskRead, wp_setBuf, withBuf_buf_self,
      withBuf_withBuf, withBuf_disk]
    refine ⟨fun _ => ?_, fun hv => absurd trivial hv⟩
    simpa [fetched, hb, h.disk b hb] using hres

theorem wp_moveToFront {E : Halt → Machine → Prop} (h : Inv s pins dirty L)
    (hQ : ∀ s', s'.buf = s.buf → Frame i s s' → Inv s' pins dirty L → Q () s') :
    wp (moveToFront i) E Q s := by
  obtain ⟨l, hr, hl⟩ := h.ring
  obtain ⟨l₁, l₂, rfl⟩ := List.append_of_mem (hl i)
  have hi : i ∉ l₁ ++ l₂ := by
    have hn := hr.nodup
    rw [List.nodup_middle] at hn
    exact (List.nodup_cons.mp hn).1
  -- the buffer is not its own successor, so its `prev` survives the first assignment
  have hne : some i ≠ s.next (some i) := by
    rw [hr.next_eq]
    exact fun he => hi (List.mem_append_right _ (List.mem_of_head? he.symm))
  have hprev : update s.prev (s.next (some i)) (s.prev (some i)) (some i) =
      s.prev (some i) := update_of_ne hne ..
  rw [moveToFront, wp_modify]
  simp only [hprev]
  refine hQ _ rfl ⟨fun _ _ => rfl, rfl, rfl, rfl⟩ ?_
  have hmem : ∀ b, b ∈ i :: (l₁ ++ l₂) := fun b => by
    have hb := hl b
    simp only [List.mem_append, List.mem_cons] at hb ⊢
    tauto
  exact { h with ring := ⟨i :: (l₁ ++ l₂), hr.unlink.push hi, hmem⟩ }

/-- `brelse` gives up the lock and the reference of a held buffer. -/
theorem wp_brelse {E : Halt → Machine → Prop} (h : Inv s pins dirty L)
    (hl : (s.buf i).lock = some pid) (hi : i ∉ dirty)
    (hQ : ∀ s', Frame i s s' → (s'.buf i).lock = none → Inv s' pins dirty L → Q () s') :
    wp (brelse pid i) E Q s := by
  have hinv : Inv (s.withBuf i { s.buf i with lock := none, refcnt := (s.buf i).refcnt - 1 })
      pins dirty L := by
    have hr := h.refcnt i
    refine h.withBuf ?_ ?_ ?_ ?_ (fun _ _ => Iff.rfl) (fun hm => absurd hm hi)
      fun hn => absurd rfl hn
    · exact fun j b hji hj hi => hji (h.unique hj hi)
    · simp [Buf.refs, hr, hl]
    · intro b hb hib
      obtain ⟨j, hj, hjv⟩ := h.pinned b hb
      exact ⟨hib, h.unique hj hib ▸ hjv⟩
    · exact fun b hb hv _ => h.data hb hv hi
  have hframe := Frame.withBuf s i { s.buf i with lock := none, refcnt := (s.buf i).refcnt - 1 }
  unfold brelse releasesleep
  simp only [wp_bind, wp_get, wp_ite, wp_setBuf, hl, ne_eq, not_true_eq_false, IsEmpty.forall_iff,
    not_false_eq_true, forall_true_left, true_and, withBuf_buf_self, withBuf_withBuf, wp_pure]
  constructor
  · refine fun _ => hinv.wp_moveToFront fun s' hbuf hf hs' => ?_
    refine hQ s' ⟨fun j hj => ?_, hf.disk, hf.writes, hf.log⟩ (by simp [hbuf]) hs'
    rw [hbuf, withBuf_buf_of_ne hj]
  · exact fun _ => hQ _ hframe (by simp) hinv

/-- Storing into the data of a held buffer. -/
theorem wp_store {E : Halt → Machine → Prop} {d : Block} (h : Inv s pins dirty L)
    (hl : (s.buf i).lock ≠ none)
    (hQ : ∀ s', Frame i s s' → s'.buf i = { s.buf i with data := d } →
      Inv s' pins (insert i dirty) L → Q () s') :
    wp (setBuf i { s.buf i with data := d }) E Q s := by
  refine hQ _ (Frame.withBuf ..) (withBuf_buf_self ..) (h.withBuf ?_ ?_ ?_ ?_ ?_ ?_ (h.locked i))
  · exact fun j b hji hj hi => hji (h.unique hj hi)
  · simpa [Buf.refs] using h.refcnt i
  · intro b hb hib
    obtain ⟨j, hj, hjv⟩ := h.pinned b hb
    exact ⟨hib, h.unique hj hib ▸ hjv⟩
  · exact fun b _ _ hm => absurd (Set.mem_insert i dirty) hm
  · exact fun j hj => by simp [hj]
  · exact fun _ => hl

/-- The contents a held buffer shows once they count. -/
theorem data_update (h : Inv s pins dirty L) (hf : (s.buf i).For b) {j : Fin NBUF} {c : ℕ}
    (hj : (s.buf j).For c) (hv : (s.buf j).valid = true) (hd : j ∉ dirty \ {i}) :
    (s.buf j).data = update L b (s.buf i).data c := by
  by_cases hc : c = b
  · subst hc
    rw [h.unique hj hf, update_self]
  · rw [update_of_ne hc]
    refine h.data hj hv fun hm => hd ⟨hm, ?_⟩
    rintro rfl
    exact hc (hj.2.symm.trans hf.2)

/-- `bwrite` of a held buffer makes the disk and the contents agree with its data. -/
theorem wp_bwrite {E : Halt → Machine → Prop} (h : Inv s pins dirty L)
    (hl : (s.buf i).lock = some pid) (hf : (s.buf i).For b)
    (hQ : ∀ s', s'.buf = s.buf → s'.log = s.log → s'.disk = update s.disk b (s.buf i).data →
      s'.writes = s.writes ++ [(b, (s.buf i).data)] →
      Inv s' pins (dirty \ {i}) (update L b (s.buf i).data) → Q () s') :
    wp (bwrite pid i) E Q s := by
  unfold bwrite virtioDiskWrite
  simp only [wp_bind, wp_get, wp_ite, hl, ne_eq, not_true_eq_false, IsEmpty.forall_iff,
    not_false_eq_true, forall_true_left, true_and, wp_modify, hf.2]
  refine hQ _ rfl rfl rfl rfl ?_
  exact {
    ring := h.ring
    unique := h.unique
    refcnt := h.refcnt
    pinned := h.pinned
    data := h.data_update hf
    disk := by
      intro c hc
      by_cases hcb : c = b
      · subst hcb; simp
      · simp [update_of_ne hcb, h.disk c hc]
    held := fun j hj => h.held j hj.1
    locked := h.locked }

/-- Only the reference count of buffer `i` differs. -/
theorem refcnt_withBuf (s : Machine) (i : Fin NBUF) (r : ℕ) (j : Fin NBUF) :
    ∃ r', (s.withBuf i { s.buf i with refcnt := r }).buf j = { s.buf j with refcnt := r' } := by
  by_cases hji : j = i
  · subst hji
    exact ⟨r, withBuf_buf_self ..⟩
  · exact ⟨_, withBuf_buf_of_ne hji⟩

/-- Changing one reference count together with the pins. -/
theorem repin {r : ℕ} {pins' : List ℕ} {L' : ℕ → Block} (h : Inv s pins dirty L)
    (hr : r = Buf.refs (s.buf i) pins')
    (hother : ∀ j, j ≠ i → (s.buf j).dev = ROOTDEV →
      ((s.buf j).blockno ∈ pins' ↔ (s.buf j).blockno ∈ pins))
    (hpinned : ∀ b ∈ pins', b ∈ pins ∨ (s.buf i).For b ∧ (s.buf i).valid = true)
    (hdata : ∀ {j b}, (s.buf j).For b → (s.buf j).valid = true → j ∉ dirty' →
      (s.buf j).data = L' b)
    (hdisk : ∀ b, b ∉ pins' → s.disk b = L' b) (hd : dirty' ⊆ dirty) :
    Inv (s.withBuf i { s.buf i with refcnt := r }) pins' dirty' L' where
  ring := h.ring
  unique := by
    intro j k c hj hk
    obtain ⟨_, ej⟩ := refcnt_withBuf s i r j
    obtain ⟨_, ek⟩ := refcnt_withBuf s i r k
    rw [ej] at hj
    rw [ek] at hk
    exact h.unique (b := c) hj hk
  refcnt := by
    intro j
    by_cases hji : j = i
    · subst hji
      rw [withBuf_buf_self]
      exact hr
    · rw [withBuf_buf_of_ne hji, h.refcnt j, Buf.refs, Buf.refs]
      congr 1
      refine if_congr (and_congr_right fun hdev => ?_) rfl rfl
      exact (hother j hji hdev).symm
  pinned := by
    intro c hc
    have hp : ∃ j, (s.buf j).For c ∧ (s.buf j).valid = true :=
      (hpinned c hc).elim (h.pinned c) fun hi => ⟨i, hi⟩
    obtain ⟨j, hj, hjv⟩ := hp
    obtain ⟨_, ej⟩ := refcnt_withBuf s i r j
    exact ⟨j, by rw [ej]; exact ⟨hj, hjv⟩⟩
  data := by
    intro j c hj hjv hjd
    obtain ⟨_, ej⟩ := refcnt_withBuf s i r j
    rw [ej] at hj hjv ⊢
    exact hdata (b := c) hj hjv hjd
  disk := hdisk
  held := by
    intro j hj
    obtain ⟨_, ej⟩ := refcnt_withBuf s i r j
    rw [ej]
    exact h.held j (hd hj)
  locked := by
    intro j
    obtain ⟨_, ej⟩ := refcnt_withBuf s i r j
    rw [ej]
    exact h.locked j

theorem unpin (h : Inv s pins dirty L) (hf : (s.buf i).For b) (hn : pins.Nodup)
    (hb : b ∈ pins) (hdisk : s.disk b = L b) :
    Inv (s.withBuf i { s.buf i with refcnt := (s.buf i).refcnt - 1 }) (pins.erase b) dirty L := by
  have hrest : ∀ c, c ∈ pins.erase b ↔ c ≠ b ∧ c ∈ pins := fun c => hn.mem_erase_iff
  refine h.repin ?_ (fun j hji hdev => ?_) (fun c hc => .inl ((hrest c).mp hc).2) h.data
    (fun c hc => ?_) subset_rfl
  · have hr := h.refcnt i
    rw [Buf.refs, hf.1, hf.2, if_pos (show ROOTDEV = ROOTDEV ∧ b ∈ pins from ⟨rfl, hb⟩)] at hr
    simp [Buf.refs, hr, hf.2, hrest]
  · rw [hrest]
    refine ⟨And.right, fun hm => ⟨?_, hm⟩⟩
    intro he
    exact hji (h.unique (b := b) ⟨hdev, he⟩ hf)
  · by_cases hcb : c = b
    · subst hcb; exact hdisk
    · exact h.disk c fun hm => hc ((hrest c).mpr ⟨hcb, hm⟩)

/-- Pinning a held buffer makes its data the contents of its block. -/
theorem pin (h : Inv s pins dirty L) (hl : (s.buf i).lock ≠ none) (hb : (s.buf i).blockno ∉ pins) :
    Inv (s.withBuf i { s.buf i with refcnt := (s.buf i).refcnt + 1 })
      (pins ++ [(s.buf i).blockno]) (dirty \ {i})
      (update L (s.buf i).blockno (s.buf i).data) := by
  obtain ⟨hdev, hv⟩ := h.locked i hl
  have hf : (s.buf i).For (s.buf i).blockno := ⟨hdev, rfl⟩
  refine h.repin ?_ (fun j hji hd => ?_) (fun c hc => ?_) (h.data_update hf) (fun c hc => ?_)
    Set.sdiff_subset
  · simp [h.refcnt i, Buf.refs, hl, hdev, hb]
  · have hne : (s.buf j).blockno ≠ (s.buf i).blockno := fun he => hji (h.unique ⟨hd, he⟩ hf)
    simp [hne]
  · rcases List.mem_append.mp hc with hc | hc
    · exact .inl hc
    · rw [List.mem_singleton.mp hc]
      exact .inr ⟨hf, hv⟩
  · rw [List.mem_append, not_or, List.mem_singleton] at hc
    rw [update_of_ne hc.2, h.disk c hc.1]

/-- A held buffer of a pinned block only has to show its data. -/
theorem absorb (h : Inv s pins dirty L) (hl : (s.buf i).lock ≠ none)
    (hb : (s.buf i).blockno ∈ pins) :
    Inv s pins (dirty \ {i}) (update L (s.buf i).blockno (s.buf i).data) where
  ring := h.ring
  unique := h.unique
  refcnt := h.refcnt
  pinned := h.pinned
  data := h.data_update ⟨(h.locked i hl).1, rfl⟩
  disk c hc := by
    have hne : c ≠ (s.buf i).blockno := by
      rintro rfl
      exact hc hb
    rw [update_of_ne hne, h.disk c hc]
  held j hj := h.held j hj.1
  locked := h.locked

/-- Dropping the pin of a block that is on the disk. -/
theorem wp_bunpin {E : Halt → Machine → Prop} (h : Inv s pins dirty L) (hf : (s.buf i).For b)
    (hn : pins.Nodup) (hb : b ∈ pins) (hdisk : s.disk b = L b)
    (hQ : ∀ s', Frame i s s' → s'.buf i = { s.buf i with refcnt := (s.buf i).refcnt - 1 } →
      Inv s' (pins.erase b) dirty L → Q () s') :
    wp (bunpin i) E Q s := by
  unfold bunpin
  simp only [wp_bind, wp_get, wp_setBuf]
  exact hQ _ (Frame.withBuf ..) (withBuf_buf_self ..) (h.unpin hf hn hb hdisk)

end Inv

theorem ring_linkAll {l : List (Fin NBUF)} (hl : l.Nodup) :
    Ring (linkAll l).1 (linkAll l).2 l := by
  induction l with
  | nil => exact ⟨List.nodup_nil, rfl, rfl⟩
  | cons b bs ih => exact (ih hl.of_cons).push hl.notMem

theorem inv_boot (disk : ℕ → Block) (start size : ℕ) : Inv (boot disk start size) [] ∅ disk where
  ring := ⟨_, ring_linkAll (List.nodup_reverse.mpr (List.nodup_finRange NBUF)), by simp⟩
  unique hi := absurd hi.1 Nat.zero_ne_one
  refcnt _ := by simp [boot, Buf.refs]
  pinned _ hb := by simp at hb
  data hi := absurd hi.1 Nat.zero_ne_one
  disk _ _ := rfl
  held _ hi := by simp at hi
  locked _ hi := absurd rfl hi

theorem calm_boot (disk : ℕ → Block) (start size : ℕ) : Calm (boot disk start size) := fun _ => rfl

end Xv6.Buffer

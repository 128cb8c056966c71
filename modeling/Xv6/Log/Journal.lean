import Xv6.Buffer.Invariant

/-! # The log

A model of the functions of `log.c` that move blocks between the cache, the log
area and the home locations, each run without interruption. Every function is
specified by the block writes it performs, in order.
-/

namespace Xv6.Journal

open Buffer Function

variable (pid : ℕ)

/-- The block numbers listed in a header block. -/
def headerBlocks (hb : Block) : List ℕ :=
  if hb.get32 0 < 2 ^ 31 then (List.range (hb.get32 0)).map fun i => hb.get32 (4 + 4 * i) else []

/-- Store `block[i]`, `block[i + 1]`, … into a header block. -/
def putBlocks : ℕ → List ℕ → Block → Block
  | _, [], hb => hb
  | i, b :: bs, hb => putBlocks (i + 1) bs (hb.set32 (4 + 4 * i) b)

def putHeader (lh : List ℕ) (hb : Block) : Block := putBlocks 0 lh (hb.set32 0 lh.length)

def setLh (lh : List ℕ) : M Unit := modify fun s => { s with log := { s.log with lh := lh } }

def readHead : M Unit := do
  let s ← get
  let buf ← bread pid s.log.dev s.log.start
  let s ← get
  setLh (headerBlocks (s.buf buf).data)
  brelse pid buf

def writeHead : M Unit := do
  let s ← get
  let buf ← bread pid s.log.dev s.log.start
  let s ← get
  setBuf buf { s.buf buf with data := putHeader s.log.lh (s.buf buf).data }
  bwrite pid buf
  brelse pid buf

/-- One round of the loop of `write_log`. -/
def writeLogAt (tail b : ℕ) : M Unit := do
  let s ← get
  let lbuf ← bread pid s.log.dev (s.log.start + tail + 1)
  let cbuf ← bread pid s.log.dev b
  let s ← get
  setBuf lbuf { s.buf lbuf with data := (s.buf cbuf).data }
  bwrite pid lbuf
  brelse pid cbuf
  brelse pid lbuf

def writeLogFrom : ℕ → List ℕ → M Unit
  | _, [] => pure ()
  | tail, b :: bs => do
    writeLogAt pid tail b
    writeLogFrom (tail + 1) bs

def writeLog : M Unit := do
  let s ← get
  writeLogFrom pid 0 s.log.lh

/-- One round of the loop of `install_trans`. -/
def installAt (recovering : Bool) (tail b : ℕ) : M Unit := do
  let s ← get
  let lbuf ← bread pid s.log.dev (s.log.start + tail + 1)
  let dbuf ← bread pid s.log.dev b
  let s ← get
  setBuf dbuf { s.buf dbuf with data := (s.buf lbuf).data }
  bwrite pid dbuf
  if recovering = false then bunpin dbuf
  brelse pid lbuf
  brelse pid dbuf

def installFrom (recovering : Bool) : ℕ → List ℕ → M Unit
  | _, [] => pure ()
  | tail, b :: bs => do
    installAt pid recovering tail b
    installFrom recovering (tail + 1) bs

def installTrans (recovering : Bool) : M Unit := do
  let s ← get
  installFrom pid recovering 0 s.log.lh

def recoverFromLog : M Unit := do
  readHead pid
  installTrans pid true
  setLh []
  writeHead pid

def commit : M Unit := do
  let s ← get
  if 0 < s.log.lh.length then
    writeLog pid
    writeHead pid
    installTrans pid false
    setLh []
    writeHead pid

section header

variable {hb : Block} {lh : List ℕ} {i j : ℕ}

theorem get32_putBlocks_of_lt (h : j + 4 ≤ 4 + 4 * i) :
    (putBlocks i lh hb).get32 j = hb.get32 j := by
  induction lh generalizing i hb with
  | nil => rfl
  | cons b bs ih => rw [putBlocks, ih (by omega), Bytes.get32_set32_of_disjoint (by omega)]

theorem get32_putBlocks (hi : 4 * (i + lh.length + 1) ≤ BSIZE) (hlh : ∀ b ∈ lh, b < 2 ^ 32)
    (hj : j < lh.length) : (putBlocks i lh hb).get32 (4 + 4 * (i + j)) = lh[j] := by
  induction lh generalizing i j hb with
  | nil => simp at hj
  | cons b bs ih =>
    simp only [List.length_cons, List.mem_cons, forall_eq_or_imp] at hi hlh hj
    rw [putBlocks]
    cases j with
    | zero =>
      rw [get32_putBlocks_of_lt (by omega), Nat.add_zero,
        Bytes.get32_set32 (by unfold BSIZE at *; omega) hlh.1, List.getElem_cons_zero]
    | succ j =>
      rw [show i + (j + 1) = i + 1 + j by omega, ih (by omega) hlh.2 (by omega),
        List.getElem_cons_succ]

theorem get32_putHeader (hl : lh.length ≤ LOGSIZE) : (putHeader lh hb).get32 0 = lh.length := by
  have hl' : lh.length ≤ 30 := hl
  rw [putHeader, get32_putBlocks_of_lt (by omega), Bytes.get32_set32 (by decide) (by omega)]

/-- A header reads back the block numbers written into it. -/
theorem headerBlocks_putHeader (hl : lh.length ≤ LOGSIZE) (hlh : ∀ b ∈ lh, b < 2 ^ 32) :
    headerBlocks (putHeader lh hb) = lh := by
  have hl' : lh.length ≤ 30 := hl
  rw [headerBlocks, get32_putHeader hl, if_pos (by omega)]
  refine List.ext_getElem (by simp) fun j hj _ => ?_
  simp only [List.length_map, List.length_range] at hj
  have hget : (putBlocks 0 lh (hb.set32 0 lh.length)).get32 (4 + 4 * (0 + j)) = lh[j] :=
    get32_putBlocks (by unfold BSIZE; omega) hlh hj
  simpa [putHeader] using hget

end header

section traces

variable {α β : Type} {s : Machine} {w w₁ w₂ : List (ℕ × Block)} {ok ok' : Prop}

/-- `m` performs the writes `w`, or it stops after some first ones of them and `ok` fails. -/
def Traces (m : M α) (s : Machine) (w : List (ℕ × Block)) (ok : Prop) (Q : α → Machine → Prop) :
    Prop :=
  wp m (fun _ s' => ¬ ok ∧ ∃ w', w' <+: w ∧ s'.writes = s.writes ++ w')
    (fun a s' => s'.writes = s.writes ++ w ∧ Q a s') s

theorem Traces.bind {m : M α} {f : α → M β} {Q : β → Machine → Prop}
    (h : Traces m s w₁ ok fun a s' => Traces (f a) s' w₂ ok Q) :
    Traces (m >>= f) s (w₁ ++ w₂) ok Q := by
  unfold Traces
  rw [wp_bind]
  refine h.mono ?_ ?_
  · rintro e s' ⟨hok, w', hp, hw⟩
    exact ⟨hok, w', hp.trans (List.prefix_append ..), hw⟩
  · rintro a s' ⟨hw, hf⟩
    refine hf.mono ?_ ?_
    · rintro e t ⟨hok, w', hp, ht⟩
      refine ⟨hok, w₁ ++ w', (List.prefix_append_right_inj w₁).mpr hp, ?_⟩
      rw [ht, hw, List.append_assoc]
    · rintro b t ⟨ht, hQ⟩
      exact ⟨by rw [ht, hw, List.append_assoc], hQ⟩

theorem Traces.bind_of_nil {m : M α} {f : α → M β} {Q : β → Machine → Prop}
    (h : Traces m s [] ok fun a s' => Traces (f a) s' w ok Q) : Traces (m >>= f) s w ok Q := h.bind

theorem Traces.get_bind {f : Machine → M α} {Q : α → Machine → Prop} (h : Traces (f s) s w ok Q) :
    Traces (get >>= f) s w ok Q := h

theorem Traces.mono {m : M α} {Q Q' : α → Machine → Prop} (h : Traces m s w ok Q)
    (hok : ok' → ok) (hQ : ∀ a s', Q a s' → Q' a s') : Traces m s w ok' Q' :=
  wp.mono h (fun _ _ ⟨hn, hw⟩ => ⟨fun h' => hn (hok h'), hw⟩) fun a s' ⟨hw, hq⟩ => ⟨hw, hQ a s' hq⟩

end traces

section rounds

variable {s : Machine} {pins : List ℕ} {L : ℕ → Block} {tail b : ℕ}

/-- What a function that only writes blocks leaves behind. -/
structure Leaves (s s' : Machine) (pins : List ℕ) (L : ℕ → Block) (disk : ℕ → Block) : Prop where
  inv : Inv s' pins ∅ L
  log : s'.log = s.log
  disk : s'.disk = disk
  calm : Calm s → Calm s'

/-- One round of `write_log` copies the contents of a block into its log block. -/
theorem writeLogAt_spec (h : Inv s pins ∅ L) (hdev : s.log.dev = ROOTDEV) :
    Traces (writeLogAt pid tail b) s [(s.log.start + tail + 1, L b)]
      (Calm s ∧ pins.length < NBUF ∧ b ∈ pins ∧ b ≠ s.log.start + tail + 1) fun _ s' =>
      Leaves s s' pins (update L (s.log.start + tail + 1) (L b))
        (update s.disk (s.log.start + tail + 1) (L b)) := by
  unfold Traces writeLogAt
  simp only [wp_bind, wp_get, hdev]
  refine h.wp_bread (fun e s' hw hst => ⟨?_, [], by simp, by simp [hw]⟩)
    fun i s₁ _ f₁ hi₁ h₁ => ?_
  · rintro ⟨hc, hp, -⟩
    exact h.not_stuck hc hp hst
  refine h₁.wp_bread (fun e s' hw hst => ⟨?_, [], by simp, by simp [hw, f₁.writes]⟩)
    fun j s₂ hj f₂ hj₂ h₂ => ?_
  · rintro ⟨hc, -, hb, hne⟩
    exact h₁.not_stuck_of_frame hc f₁ (hi₁ ▸ fetched_for) hne (.inl hb) hst
  have hij : i ≠ j := by
    rintro rfl
    simp [hi₁, fetched] at hj
  have hi₂ : s₂.buf i = s₁.buf i := f₂.buf i hij
  refine h₂.wp_store (by simp [hi₂, hi₁, fetched]) fun s₃ f₃ hi₃ h₃ => ?_
  have hd : (s₃.buf i).data = L b := by rw [hi₃, hj₂]; rfl
  refine h₃.wp_bwrite (b := s.log.start + tail + 1) (by rw [hi₃, hi₂, hi₁]; rfl)
    (by rw [hi₃, hi₂, hi₁]; exact ⟨rfl, rfl⟩) fun s₄ e₄ l₄ d₄ w₄ h₄ => ?_
  have hclean : insert i (∅ : Set (Fin NBUF)) \ {i} = ∅ := by simp
  rw [hd] at d₄ w₄ h₄
  rw [hclean] at h₄
  refine h₄.wp_brelse (by rw [e₄, f₃.buf j hij.symm, hj₂]; rfl) (by simp)
    fun s₅ f₅ hj₅ h₅ => ?_
  refine h₅.wp_brelse (by rw [f₅.buf i hij, e₄, hi₃, hi₂, hi₁]; rfl) (by simp)
    fun s₆ f₆ hi₆ h₆ => ?_
  refine ⟨?_, h₆, ?_, ?_, fun hc k => ?_⟩
  · rw [f₆.writes, f₅.writes, w₄, f₃.writes, f₂.writes, f₁.writes]
  · rw [f₆.log, f₅.log, l₄, f₃.log, f₂.log, f₁.log]
  · rw [f₆.disk, f₅.disk, d₄, f₃.disk, f₂.disk, f₁.disk]
  · by_cases hki : k = i
    · rw [hki, hi₆]
    · rw [f₆.buf k hki]
      by_cases hkj : k = j
      · rw [hkj, hj₅]
      · rw [f₅.buf k hkj, e₄, f₃.buf k hki, f₂.buf k hkj, f₁.buf k hki, hc k]

/-- One round of `install_trans` copies a log block to its home location. -/
theorem installAt_spec (recovering : Bool) (h : Inv s pins ∅ L) (hdev : s.log.dev = ROOTDEV)
    (hp : if recovering then pins = [] else b ∈ pins ∧ pins.Nodup) :
    Traces (installAt pid recovering tail b) s [(b, L (s.log.start + tail + 1))]
      (Calm s ∧ pins.length < NBUF ∧ b ≠ s.log.start + tail + 1) fun _ s' =>
      Leaves s s' (if recovering then pins else pins.erase b)
        (update L b (L (s.log.start + tail + 1)))
        (update s.disk b (L (s.log.start + tail + 1))) := by
  unfold Traces installAt
  simp only [wp_bind, wp_get, hdev]
  refine h.wp_bread (fun e s' hw hst => ⟨?_, [], by simp, by simp [hw]⟩)
    fun i s₁ _ f₁ hi₁ h₁ => ?_
  · rintro ⟨hc, hlt, -⟩
    exact h.not_stuck hc hlt hst
  refine h₁.wp_bread (fun e s' hw hst => ⟨?_, [], by simp, by simp [hw, f₁.writes]⟩)
    fun j s₂ hj f₂ hj₂ h₂ => ?_
  · rintro ⟨hc, -, hne⟩
    refine h₁.not_stuck_of_frame hc f₁ (hi₁ ▸ fetched_for) hne ?_ hst
    cases recovering with
    | true => exact .inr (by rw [hp]; decide)
    | false => exact .inl hp.1
  have hij : i ≠ j := by
    rintro rfl
    simp [hi₁, fetched] at hj
  have hi₂ : s₂.buf i = s₁.buf i := f₂.buf i hij
  refine h₂.wp_store (by simp [hj₂, fetched]) fun s₃ f₃ hj₃ h₃ => ?_
  have hd : (s₃.buf j).data = L (s.log.start + tail + 1) := by rw [hj₃, hi₂, hi₁]; rfl
  refine h₃.wp_bwrite (b := b) (by rw [hj₃, hj₂]; rfl) (by rw [hj₃, hj₂]; exact ⟨rfl, rfl⟩)
    fun s₄ e₄ l₄ d₄ w₄ h₄ => ?_
  have hclean : insert j (∅ : Set (Fin NBUF)) \ {j} = ∅ := by simp
  rw [hd] at d₄ w₄ h₄
  rw [hclean] at h₄
  have hi₄ : s₄.buf i = s₁.buf i := by rw [e₄, f₃.buf i hij, hi₂]
  have hj₄ : s₄.buf j = s₃.buf j := by rw [e₄]
  -- with or without the pin, the round ends by releasing the two buffers
  have hrelease : ∀ {t : Machine} {ps : List ℕ} {E : Halt → Machine → Prop}, Frame j s₄ t →
      (t.buf j).lock = some pid → Inv t ps ∅ (update L b (L (s.log.start + tail + 1))) →
      wp (brelse pid i) E (fun _ s' => wp (brelse pid j) E (fun _ s' =>
        s'.writes = s.writes ++ [(b, L (s.log.start + tail + 1))] ∧
          Leaves s s' ps (update L b (L (s.log.start + tail + 1)))
            (update s.disk b (L (s.log.start + tail + 1)))) s') t := by
    intro t ps E ft hjt ht
    refine ht.wp_brelse (by rw [ft.buf i hij, hi₄, hi₁]; rfl) (by simp) fun s₅ f₅ hi₅ h₅ => ?_
    refine h₅.wp_brelse (by rw [f₅.buf j hij.symm, hjt]) (by simp) fun s₆ f₆ hj₆ h₆ => ?_
    refine ⟨?_, h₆, ?_, ?_, fun hc k => ?_⟩
    · rw [f₆.writes, f₅.writes, ft.writes, w₄, f₃.writes, f₂.writes, f₁.writes]
    · rw [f₆.log, f₅.log, ft.log, l₄, f₃.log, f₂.log, f₁.log]
    · rw [f₆.disk, f₅.disk, ft.disk, d₄, f₃.disk, f₂.disk, f₁.disk]
    · by_cases hkj : k = j
      · rw [hkj, hj₆]
      · rw [f₆.buf k hkj]
        by_cases hki : k = i
        · rw [hki, hi₅]
        · rw [f₅.buf k hki, ft.buf k hkj, e₄, f₃.buf k hkj, f₂.buf k hkj, f₁.buf k hki, hc k]
  cases recovering with
  | true =>
    simp only [Bool.true_eq_false, if_false, if_true, wp_bind]
    exact hrelease ⟨fun _ _ => rfl, rfl, rfl, rfl⟩ (by rw [hj₄, hj₃, hj₂]; rfl) h₄
  | false =>
    obtain ⟨hb, hn⟩ := hp
    simp only [if_true, Bool.false_eq_true, if_false, wp_bind]
    refine h₄.wp_bunpin (by rw [hj₄, hj₃, hj₂]; exact ⟨rfl, rfl⟩) hn hb (by rw [d₄]; simp)
      fun s₅ f₅ hj₅ h₅ => ?_
    exact hrelease f₅ (by rw [hj₅, hj₄, hj₃, hj₂]; rfl) h₅

/-- `write_head` writes the in-memory header into the header block. -/
theorem writeHead_spec (h : Inv s pins ∅ L) (hdev : s.log.dev = ROOTDEV) :
    Traces (writeHead pid) s [(s.log.start, putHeader s.log.lh (L s.log.start))]
      (Calm s ∧ pins.length < NBUF) fun _ s' =>
      Leaves s s' pins (update L s.log.start (putHeader s.log.lh (L s.log.start)))
        (update s.disk s.log.start (putHeader s.log.lh (L s.log.start))) := by
  unfold Traces writeHead
  simp only [wp_bind, wp_get, hdev]
  refine h.wp_bread (fun e s' hw hst => ⟨?_, [], by simp, by simp [hw]⟩)
    fun i s₁ _ f₁ hi₁ h₁ => ?_
  · rintro ⟨hc, hp⟩
    exact h.not_stuck hc hp hst
  refine h₁.wp_store (by simp [hi₁, fetched]) fun s₂ f₂ hi₂ h₂ => ?_
  have hd : (s₂.buf i).data = putHeader s.log.lh (L s.log.start) := by
    rw [hi₂, hi₁, f₁.log]; rfl
  refine h₂.wp_bwrite (b := s.log.start) (by rw [hi₂, hi₁]; rfl)
    (by rw [hi₂, hi₁]; exact ⟨rfl, rfl⟩) fun s₃ e₃ l₃ d₃ w₃ h₃ => ?_
  have hclean : insert i (∅ : Set (Fin NBUF)) \ {i} = ∅ := by simp
  rw [hd] at d₃ w₃ h₃
  rw [hclean] at h₃
  refine h₃.wp_brelse (by rw [e₃, hi₂, hi₁]; rfl) (by simp) fun s₄ f₄ hi₄ h₄ => ?_
  refine ⟨?_, h₄, ?_, ?_, fun hc k => ?_⟩
  · rw [f₄.writes, w₃, f₂.writes, f₁.writes]
  · rw [f₄.log, l₃, f₂.log, f₁.log]
  · rw [f₄.disk, d₃, f₂.disk, f₁.disk]
  · by_cases hki : k = i
    · rw [hki, hi₄]
    · rw [f₄.buf k hki, e₃, f₂.buf k hki, f₁.buf k hki, hc k]

/-- The in-memory header is no part of the cache. -/
theorem inv_withLog {l : Log} (h : Inv s pins ∅ L) : Inv { s with log := l } pins ∅ L :=
  { h with }

/-- `read_head` loads the block numbers of the header block. -/
theorem readHead_spec (h : Inv s pins ∅ L) (hdev : s.log.dev = ROOTDEV) :
    Traces (readHead pid) s [] (Calm s ∧ pins.length < NBUF) fun _ s' =>
      Leaves { s with log := { s.log with lh := headerBlocks (L s.log.start) } } s' pins L
        s.disk := by
  unfold Traces readHead setLh
  simp only [wp_bind, wp_get, hdev]
  refine h.wp_bread (fun e s' hw hst => ⟨?_, [], by simp, by simp [hw]⟩)
    fun i s₁ _ f₁ hi₁ h₁ => ?_
  · rintro ⟨hc, hp⟩
    exact h.not_stuck hc hp hst
  rw [wp_modify]
  refine (inv_withLog h₁).wp_brelse (by rw [hi₁]; rfl) (by simp) fun s₂ f₂ hi₂ h₂ => ?_
  refine ⟨?_, h₂, ?_, ?_, fun hc k => ?_⟩
  · rw [f₂.writes, f₁.writes, List.append_nil]
  · simp [f₂.log, f₁.log, hi₁, hdev, fetched]
  · rw [f₂.disk, f₁.disk]
  · by_cases hki : k = i
    · rw [hki, hi₂]
    · rw [f₂.buf k hki, f₁.buf k hki]
      exact hc k

end rounds

/-- The disk after a list of block writes. -/
def applyWrites (d : ℕ → Block) (w : List (ℕ × Block)) : ℕ → Block :=
  w.foldl (fun d x => update d x.1 x.2) d

@[simp] theorem applyWrites_nil (d : ℕ → Block) : applyWrites d [] = d := rfl

@[simp] theorem applyWrites_cons (d : ℕ → Block) (x : ℕ × Block) (w : List (ℕ × Block)) :
    applyWrites d (x :: w) = applyWrites (update d x.1 x.2) w := rfl

theorem applyWrites_append (d : ℕ → Block) (v w : List (ℕ × Block)) :
    applyWrites d (v ++ w) = applyWrites (applyWrites d v) w := List.foldl_append ..

variable {d : ℕ → Block}

/-- Writes keep what each of them keeps. -/
theorem applyWrites_induction {P : (ℕ → Block) → Prop} {w : List (ℕ × Block)} (hd : P d)
    (hw : ∀ x ∈ w, ∀ d, P d → P (update d x.1 x.2)) : P (applyWrites d w) := by
  induction w generalizing d with
  | nil => exact hd
  | cons x w ih =>
    exact ih (hw x (by simp) d hd) fun y hy => hw y (by simp [hy])

theorem applyWrites_of_notMem {w : List (ℕ × Block)} {b : ℕ} (hb : ∀ x ∈ w, x.1 ≠ b) :
    applyWrites d w b = d b := by
  refine applyWrites_induction (P := fun d' => d' b = d b) rfl fun x hx d' hd' => ?_
  rw [update_of_ne (hb x hx).symm, hd']

/-- The writes of `write_log` for contents `L`. -/
def logWrites (start : ℕ) (L : ℕ → Block) : ℕ → List ℕ → List (ℕ × Block)
  | _, [] => []
  | tail, b :: bs => (start + tail + 1, L b) :: logWrites start L (tail + 1) bs

/-- The writes of `install_trans` for contents `L`. -/
def installWrites (start : ℕ) (L : ℕ → Block) : ℕ → List ℕ → List (ℕ × Block)
  | _, [] => []
  | tail, b :: bs => (b, L (start + tail + 1)) :: installWrites start L (tail + 1) bs

section loops

variable {s : Machine} {pins bs : List ℕ} {L L' : ℕ → Block} {tail start size : ℕ}

/-- Block `b` is in the log area. -/
def InLog (start size b : ℕ) : Prop := start ≤ b ∧ b < start + size

theorem logWrites_congr (h : ∀ b ∈ bs, L b = L' b) :
    logWrites start L tail bs = logWrites start L' tail bs := by
  induction bs generalizing tail with
  | nil => rfl
  | cons b bs ih =>
    rw [logWrites, logWrites, h b (by simp), ih fun c hc => h c (by simp [hc])]

theorem installWrites_congr (h : ∀ t, tail < t → t ≤ tail + bs.length → L (start + t) = L' (start + t)) :
    installWrites start L tail bs = installWrites start L' tail bs := by
  induction bs generalizing tail with
  | nil => rfl
  | cons b bs ih =>
    simp only [List.length_cons] at h
    rw [installWrites, installWrites, Nat.add_assoc, h (tail + 1) (by omega) (by omega),
      ih fun t h₁ h₂ => h t (by omega) (by omega)]

theorem mem_logWrites {x : ℕ × Block} (h : x ∈ logWrites start L tail bs) :
    start + tail < x.1 ∧ x.1 ≤ start + tail + bs.length := by
  induction bs generalizing tail with
  | nil => simp [logWrites] at h
  | cons b bs ih =>
    rw [logWrites, List.mem_cons] at h
    rcases h with rfl | h
    · simp
    · have := ih h
      simp only [List.length_cons]
      omega

theorem mem_installWrites {x : ℕ × Block} (h : x ∈ installWrites start L tail bs) : x.1 ∈ bs := by
  induction bs generalizing tail with
  | nil => simp [installWrites] at h
  | cons b bs ih =>
    rw [installWrites, List.mem_cons] at h
    rcases h with rfl | h
    · simp
    · exact List.mem_cons_of_mem _ (ih h)

theorem writeLogFrom_spec (h : Inv s pins ∅ L) (hdev : s.log.dev = ROOTDEV) (hp : bs ⊆ pins)
    (hs : tail + bs.length < size) (hbs : ∀ b ∈ bs, ¬ InLog s.log.start size b) :
    Traces (writeLogFrom pid tail bs) s (logWrites s.log.start L tail bs)
      (Calm s ∧ pins.length < NBUF) fun _ s' =>
      Leaves s s' pins (applyWrites L (logWrites s.log.start L tail bs))
        (applyWrites s.disk (logWrites s.log.start L tail bs)) := by
  induction bs generalizing s L tail with
  | nil => exact ⟨by simp [logWrites], h, rfl, rfl, id⟩
  | cons b bs ih =>
    simp only [List.length_cons] at hs
    have hb : b ≠ s.log.start + tail + 1 := by
      rintro rfl
      exact hbs _ List.mem_cons_self ⟨by omega, by omega⟩
    refine ((writeLogAt_spec pid h hdev).mono
      (fun ⟨hc, hlt⟩ => ⟨hc, hlt, hp List.mem_cons_self, hb⟩) fun _ s₁ h₁ => ?_).bind
    -- later rounds read home blocks, which the log block just written is not
    have hL : logWrites s.log.start L (tail + 1) bs = logWrites s₁.log.start
        (update L (s.log.start + tail + 1) (L b)) (tail + 1) bs := by
      rw [h₁.log]
      refine logWrites_congr fun c hc => (update_of_ne ?_ ..).symm
      rintro rfl
      exact hbs (s.log.start + tail + 1) (by simp [hc]) ⟨by omega, by omega⟩
    rw [hL]
    refine (ih h₁.inv (by rw [h₁.log, hdev]) (fun c hc => hp (by simp [hc])) (by omega)
      fun c hc => ?_).mono (fun ⟨hc, hlt⟩ => ⟨h₁.calm hc, hlt⟩) fun _ s₂ h₂ => ?_
    · rw [h₁.log]
      exact hbs c (by simp [hc])
    · rw [logWrites, applyWrites_cons, applyWrites_cons, hL]
      exact ⟨h₂.inv, by rw [h₂.log, h₁.log], by rw [h₂.disk, h₁.disk],
        fun hc => h₂.calm (h₁.calm hc)⟩

theorem installFrom_spec (recovering : Bool) (h : Inv s (if recovering then [] else bs) ∅ L)
    (hdev : s.log.dev = ROOTDEV) (hn : bs.Nodup) (hs : tail + bs.length < size)
    (hbs : ∀ b ∈ bs, ¬ InLog s.log.start size b) :
    Traces (installFrom pid recovering tail bs) s (installWrites s.log.start L tail bs)
      (Calm s ∧ (recovering = false → bs.length < NBUF)) fun _ s' =>
      Leaves s s' [] (applyWrites L (installWrites s.log.start L tail bs))
        (applyWrites s.disk (installWrites s.log.start L tail bs)) := by
  induction bs generalizing s L tail with
  | nil =>
    rw [ite_self] at h
    exact ⟨by simp [installWrites], h, rfl, rfl, id⟩
  | cons b bs ih =>
    simp only [List.length_cons] at hs
    have hb : b ≠ s.log.start + tail + 1 := by
      rintro rfl
      exact hbs _ List.mem_cons_self ⟨by omega, by omega⟩
    have hmem : if recovering then (if recovering then [] else b :: bs) = []
        else b ∈ (if recovering then [] else b :: bs) ∧
          (if recovering then [] else b :: bs).Nodup := by
      cases recovering with
      | true => rfl
      | false => exact ⟨List.mem_cons_self, hn⟩
    have hok : Calm s ∧ (recovering = false → (b :: bs).length < NBUF) → Calm s ∧
        (if recovering then [] else b :: bs).length < NBUF ∧ b ≠ s.log.start + tail + 1 := by
      rintro ⟨hc, hlt⟩
      refine ⟨hc, ?_, hb⟩
      cases recovering with
      | true => exact Nat.succ_pos 29
      | false => exact hlt rfl
    refine ((installAt_spec pid recovering h hdev hmem).mono hok fun _ s₁ h₁ => ?_).bind
    have hpins : (if recovering then (if recovering then [] else b :: bs)
        else (if recovering then [] else b :: bs).erase b) = if recovering then [] else bs := by
      cases recovering <;> simp
    have hinv := h₁.inv
    rw [hpins] at hinv
    have hL : installWrites s.log.start L (tail + 1) bs = installWrites s₁.log.start
        (update L b (L (s.log.start + tail + 1))) (tail + 1) bs := by
      rw [h₁.log]
      refine installWrites_congr fun t ht ht' => (update_of_ne ?_ ..).symm
      rintro rfl
      exact hbs _ List.mem_cons_self ⟨by omega, by omega⟩
    rw [hL]
    refine (ih hinv (by rw [h₁.log, hdev]) hn.of_cons (by omega) fun c hc => ?_).mono
      (fun ⟨hc, hlt⟩ => ⟨h₁.calm hc, fun hr => Nat.lt_of_succ_lt (hlt hr)⟩) fun _ s₂ h₂ => ?_
    · rw [h₁.log]
      exact hbs c (by simp [hc])
    · rw [installWrites, applyWrites_cons, applyWrites_cons, hL]
      exact ⟨h₂.inv, by rw [h₂.log, h₁.log], by rw [h₂.disk, h₁.disk],
        fun hc => h₂.calm (h₁.calm hc)⟩

theorem applyWrites_logWrites {t : ℕ} (ht : t < bs.length) :
    applyWrites d (logWrites start L tail bs) (start + tail + 1 + t) = L bs[t] := by
  induction bs generalizing d tail t with
  | nil => simp at ht
  | cons b bs ih =>
    rw [logWrites, applyWrites_cons]
    cases t with
    | zero =>
      rw [applyWrites_of_notMem fun x hx => by have := (mem_logWrites hx).1; omega]
      simp
    | succ t =>
      rw [show start + tail + 1 + (t + 1) = start + (tail + 1) + 1 + t by omega, ih (by simpa using ht)]
      rfl

theorem installWrites_eq_map (h : ∀ t (ht : t < bs.length), L' (start + tail + 1 + t) = L bs[t]) :
    installWrites start L' tail bs = bs.map fun b => (b, L b) := by
  induction bs generalizing tail with
  | nil => rfl
  | cons b bs ih =>
    rw [installWrites, h 0 (by simp), ih fun t ht => ?_]
    · rfl
    · rw [show start + (tail + 1) + 1 + t = start + tail + 1 + (t + 1) by omega,
        h (t + 1) (by simpa using ht)]
      rfl

/-- The writes of `commit`: the log blocks, the header, the home locations, the empty header. -/
def commitWrites (start : ℕ) (lh : List ℕ) (L : ℕ → Block) : List (ℕ × Block) :=
  logWrites start L 0 lh ++ ([(start, putHeader lh (L start))] ++
    (lh.map (fun b => (b, L b)) ++ [(start, putHeader [] (putHeader lh (L start)))]))

theorem commit_spec (h : Inv s s.log.lh ∅ L) (hdev : s.log.dev = ROOTDEV) (hn : s.log.lh.Nodup)
    (hs : s.log.lh.length < size) (hbs : ∀ b ∈ s.log.lh, ¬ InLog s.log.start size b)
    (hne : s.log.lh ≠ []) :
    Traces (commit pid) s (commitWrites s.log.start s.log.lh L)
      (Calm s ∧ s.log.lh.length < NBUF) fun _ s' =>
      Leaves { s with log := { s.log with lh := [] } } s' []
        (applyWrites L (commitWrites s.log.start s.log.lh L))
        (applyWrites s.disk (commitWrites s.log.start s.log.lh L)) := by
  have hstart : ∀ b ∈ s.log.lh, b ≠ s.log.start := by
    rintro _ hb rfl
    exact hbs _ hb ⟨le_rfl, by omega⟩
  unfold commit
  refine Traces.get_bind ?_
  rw [if_pos (List.length_pos_iff.mpr hne)]
  set L₁ := applyWrites L (logWrites s.log.start L 0 s.log.lh) with hL₁
  have hL₁start : L₁ s.log.start = L s.log.start :=
    applyWrites_of_notMem fun x hx => by have := (mem_logWrites hx).1; omega
  refine Traces.bind ((writeLogFrom_spec pid h hdev (List.Subset.refl _) (by omega) hbs).mono id fun _ s₁ h₁ => ?_)
  have hhead := writeHead_spec pid h₁.inv (by rw [h₁.log, hdev])
  rw [h₁.log, ← hL₁, hL₁start] at hhead
  refine Traces.bind (hhead.mono (fun ⟨hc, hlt⟩ => ⟨h₁.calm hc, hlt⟩) fun _ s₂ h₂ => ?_)
  set L₂ := update L₁ s.log.start (putHeader s.log.lh (L s.log.start)) with hL₂
  have hlog₂ : s₂.log = s.log := by rw [h₂.log, h₁.log]
  have hL₂log : ∀ t (ht : t < s.log.lh.length), L₂ (s.log.start + 0 + 1 + t) = L s.log.lh[t] := by
    intro t ht
    rw [hL₂, update_of_ne (by omega), hL₁, applyWrites_logWrites ht]
  have hinst := installFrom_spec pid false h₂.inv (by rw [hlog₂, hdev]) hn (by rwa [zero_add])
    (by rw [hlog₂]; exact hbs)
  rw [hlog₂, installWrites_eq_map hL₂log] at hinst
  have hinst' : Traces (installTrans pid false) s₂ (s.log.lh.map fun b => (b, L b))
      (Calm s ∧ s.log.lh.length < NBUF) fun _ s' =>
      Leaves s₂ s' [] (applyWrites L₂ (s.log.lh.map fun b => (b, L b)))
        (applyWrites s₂.disk (s.log.lh.map fun b => (b, L b))) := by
    unfold installTrans
    refine Traces.get_bind ?_
    rw [hlog₂]
    exact hinst.mono (fun ⟨hc, hlt⟩ => ⟨h₂.calm (h₁.calm hc), fun _ => hlt⟩) fun _ _ h => h
  refine Traces.bind (hinst'.mono id fun _ s₃ h₃ => ?_)
  have hL₃ : applyWrites L₂ (s.log.lh.map fun b => (b, L b)) s.log.start =
      putHeader s.log.lh (L s.log.start) := by
    rw [applyWrites_of_notMem, hL₂, update_self]
    intro x hx
    obtain ⟨b, hb, rfl⟩ := List.mem_map.mp hx
    exact hstart b hb
  have hlog₃ : s₃.log = s.log := by rw [h₃.log, hlog₂]
  have hclear := writeHead_spec pid (s := { s₃ with log := { s₃.log with lh := [] } })
    (inv_withLog h₃.inv) (by rw [hlog₃, hdev])
  have hw : [(s₃.log.start, putHeader [] (applyWrites L₂ (s.log.lh.map fun b => (b, L b))
      s₃.log.start))] = [(s.log.start, putHeader [] (putHeader s.log.lh (L s.log.start)))] := by
    rw [hlog₃, hL₃]
  refine Traces.bind_of_nil ⟨by simp, ?_⟩
  rw [← hw]
  refine hclear.mono (fun ⟨hc, _⟩ => ⟨h₃.calm (h₂.calm (h₁.calm hc)), by decide⟩) fun _ s₄ h₄ => ?_
  have hfinal : ∀ d, applyWrites d (commitWrites s.log.start s.log.lh L) = update
      (applyWrites (update (applyWrites d (logWrites s.log.start L 0 s.log.lh))
        s.log.start (putHeader s.log.lh (L s.log.start))) (s.log.lh.map fun b => (b, L b)))
      s.log.start (putHeader [] (putHeader s.log.lh (L s.log.start))) := fun d => by
    simp [commitWrites, applyWrites_append]
  have hinv := h₄.inv
  have hdisk := h₄.disk
  dsimp only at hinv hdisk
  rw [hlog₃, hL₃] at hinv hdisk
  rw [hfinal, hfinal, ← hL₁, ← hL₂]
  exact ⟨hinv, by rw [h₄.log, hlog₃], by rw [hdisk, h₃.disk, h₂.disk, h₁.disk],
    fun hc => h₄.calm (h₃.calm (h₂.calm (h₁.calm hc)))⟩

/-- The writes of `recover_from_log`: the listed home locations, then the empty header. -/
def recoverWrites (start : ℕ) (d : ℕ → Block) : List (ℕ × Block) :=
  installWrites start d 0 (headerBlocks (d start)) ++ [(start, putHeader [] (d start))]

theorem recoverFromLog_spec (h : Inv s [] ∅ L) (hdev : s.log.dev = ROOTDEV)
    (hn : (headerBlocks (L s.log.start)).Nodup)
    (hs : (headerBlocks (L s.log.start)).length < size)
    (hbs : ∀ b ∈ headerBlocks (L s.log.start), ¬ InLog s.log.start size b) :
    Traces (recoverFromLog pid) s (recoverWrites s.log.start L) (Calm s) fun _ s' =>
      Leaves { s with log := { s.log with lh := [] } } s' []
        (applyWrites L (recoverWrites s.log.start L))
        (applyWrites s.disk (recoverWrites s.log.start L)) := by
  unfold recoverFromLog
  refine Traces.bind_of_nil
    ((readHead_spec pid h hdev).mono (fun hc => ⟨hc, by decide⟩) fun _ s₁ h₁ => ?_)
  have hlog₁ : s₁.log = { s.log with lh := headerBlocks (L s.log.start) } := h₁.log
  have hinst := installFrom_spec pid true h₁.inv (by rw [hlog₁, hdev]) hn (by rwa [zero_add])
    (by rw [hlog₁]; exact hbs)
  have hinst' : Traces (installTrans pid true) s₁
      (installWrites s.log.start L 0 (headerBlocks (L s.log.start))) (Calm s) fun _ s' =>
      Leaves s₁ s' [] (applyWrites L (installWrites s.log.start L 0 (headerBlocks (L s.log.start))))
        (applyWrites s₁.disk (installWrites s.log.start L 0 (headerBlocks (L s.log.start)))) := by
    unfold installTrans
    refine Traces.get_bind ?_
    rw [hlog₁] at hinst ⊢
    exact hinst.mono (fun hc => ⟨h₁.calm hc, by simp⟩) fun _ _ h => h
  refine Traces.bind (hinst'.mono id fun _ s₂ h₂ => ?_)
  have hlog₂ : s₂.log = { s.log with lh := headerBlocks (L s.log.start) } := by rw [h₂.log, hlog₁]
  have hL₂ : applyWrites L (installWrites s.log.start L 0 (headerBlocks (L s.log.start)))
      s.log.start = L s.log.start := by
    refine applyWrites_of_notMem fun x hx he => hbs _ (mem_installWrites hx) ?_
    exact ⟨he.ge, by omega⟩
  have hclear := writeHead_spec pid (s := { s₂ with log := { s₂.log with lh := [] } })
    (inv_withLog h₂.inv) (by rw [hlog₂, hdev])
  have hw : [(s₂.log.start, putHeader [] (applyWrites L (installWrites s.log.start L 0
      (headerBlocks (L s.log.start))) s₂.log.start))] =
      [(s.log.start, putHeader [] (L s.log.start))] := by
    rw [hlog₂, hL₂]
  refine Traces.bind_of_nil ⟨by simp, ?_⟩
  rw [← hw]
  refine hclear.mono (fun hc => ⟨h₂.calm (h₁.calm hc), by decide⟩) fun _ s₃ h₃ => ?_
  have hfinal : ∀ d, applyWrites d (recoverWrites s.log.start L) = update
      (applyWrites d (installWrites s.log.start L 0 (headerBlocks (L s.log.start)))) s.log.start
      (putHeader [] (L s.log.start)) := fun d => by
    simp [recoverWrites, applyWrites_append]
  have hinv := h₃.inv
  have hdisk := h₃.disk
  have hstart : s₂.log.start = s.log.start := by rw [hlog₂]
  dsimp only at hinv hdisk
  rw [hstart, hL₂] at hinv hdisk
  rw [hfinal, hfinal]
  exact ⟨hinv, by rw [h₃.log, hlog₂], by rw [hdisk, h₂.disk, h₁.disk],
    fun hc => h₃.calm (h₂.calm (h₁.calm hc))⟩

end loops

end Xv6.Journal

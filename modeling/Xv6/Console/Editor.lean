import Xv6.Console.Driver

/-! # The reference line editor

The bytes of all committed lines are one stream, which the readers take from its
beginning on; the line being edited is kept apart. The console refines this
editor: whatever is typed and read in any order, the calls return the same bytes.
-/

namespace Xv6.Console

open Function

structure Editor where
  /-- The bytes committed so far. -/
  stream : List UInt8
  /-- How many of them have been taken. -/
  pos : ℕ
  line : List UInt8

namespace Editor

def init : Editor := ⟨[], 0, []⟩

/-- The bytes that are committed and not yet taken. -/
def queue (x : Editor) : List UInt8 := x.stream.drop x.pos

def held (x : Editor) : ℕ := x.queue.length + x.line.length

def commit (x : Editor) : Editor := { x with stream := x.stream ++ x.line, line := [] }

def advance (x : Editor) : Editor := { x with pos := x.pos + 1 }

def type (c : UInt8) (x : Editor) : Editor :=
  if c = 0 ∨ c = ctrlP then x
  else if c = ctrlU then { x with line := [] }
  else if c = ctrlH ∨ c = delete then { x with line := x.line.dropLast }
  else if x.held = INPUT_BUF_SIZE then x
  else
    let c := if c = carriageReturn then newline else c
    let x := { x with line := x.line ++ [c] }
    if c = newline ∨ c = ctrlD ∨ x.held = INPUT_BUF_SIZE then x.commit else x

/-- A read ends after `n` bytes or a line. It ends before a `^D` if it has got bytes and takes it
otherwise. -/
def read : ℕ → List UInt8 → Editor → Editor × Outcome
  | 0, got, x => (x, .returned got)
  | n + 1, got, x =>
    match x.queue with
    | [] => (x, .waits (n + 1) got)
    | c :: _ =>
      if c = ctrlD then (if got = [] then x.advance else x, .returned got)
      else if c = newline then (x.advance, .returned (got ++ [c]))
      else read n (got ++ [c]) x.advance

end Editor

def editor : Device Editor := ⟨Editor.type, fun _ => Editor.read⟩

/-! ## The ring holds what the editor holds -/

structure Sim (s : Cons) (x : Editor) : Prop where
  ring : Fifo INPUT_BUF_SIZE UINT s.buf s.r s.e (x.queue ++ x.line)
  commit : s.w = (s.r + x.queue.length) % UINT
  line : newline ∉ x.line
  pos : x.pos ≤ x.stream.length

variable {s : Cons} {x y : Editor} {c : UInt8} {n : ℕ} {got : List UInt8}

theorem diff_add {a k : ℕ} (ha : a < UINT) (hk : k < UINT) : diff ((a + k) % UINT) a = k := by
  unfold diff UINT at *
  omega

theorem pred_succ {a : ℕ} (ha : a < UINT) : pred ((a + 1) % UINT) = a := by
  unfold pred UINT at *
  omega

variable {q : List UInt8}

theorem queue_advance (hq : x.queue = c :: q) : x.advance.queue = q := by
  have : (x.stream.drop x.pos).tail = q := by
    unfold Editor.queue at hq
    rw [hq, List.tail_cons]
  rwa [List.tail_drop] at this

namespace Sim

theorem held_le (h : Sim s x) : x.held ≤ INPUT_BUF_SIZE := by
  have := h.ring.le
  rwa [List.length_append] at this

theorem diff_er (h : Sim s x) : diff s.e s.r = x.held := by
  have := h.ring.length_eq
  rwa [List.length_append] at this

theorem committed (h : Sim s x) : Fifo INPUT_BUF_SIZE UINT s.buf s.r s.w x.queue :=
  h.commit ▸ h.ring.left

theorem diff_wr (h : Sim s x) : diff s.w s.r = x.queue.length := h.committed.length_eq

theorem diff_ew (h : Sim s x) : diff s.e s.w = x.line.length := by
  have hlt : x.line.length < UINT := by
    have := h.held_le
    unfold Editor.held INPUT_BUF_SIZE UINT at *
    omega
  have he : s.e = (s.w + x.line.length) % UINT := by
    rw [h.ring.next, h.commit, List.length_append, Nat.mod_add_mod, Nat.add_assoc]
  rw [he, diff_add (h.commit ▸ Nat.mod_lt _ (by decide)) hlt]

theorem e_eq_w (h : Sim s x) : s.e = s.w ↔ x.line = [] := by
  have hd := h.diff_ew
  constructor
  · intro he
    rw [he] at hd
    have : diff s.w s.w = 0 := by simp [diff]
    exact List.length_eq_zero_iff.mp (hd.symm.trans this)
  · intro he
    rw [h.ring.next, h.commit, he, List.append_nil]

theorem init : Sim Cons.init Editor.init where
  ring := Fifo.nil (by decide) (by decide) _
  commit := rfl
  line := by simp [Editor.init]
  pos := le_rfl

/-- The last character of the line is taken back. -/
theorem erase {l : List UInt8} (h : Sim s x) (hl : x.line = l ++ [c]) :
    s.buf (pred s.e % INPUT_BUF_SIZE) = c ∧
      Sim { s with e := pred s.e } { x with line := l } := by
  have hring := h.ring
  rw [hl, ← List.append_assoc] at hring
  obtain ⟨hc, hf⟩ := hring.unput
  refine ⟨hc, hf, h.commit, fun hmem => h.line ?_, h.pos⟩
  rw [hl]
  exact List.mem_append_left _ hmem

/-- `^U` erases the whole line, which has no newline. -/
theorem killLine (h : Sim s x) : Sim (s.killLine x.line.length) { x with line := [] } := by
  obtain ⟨k, hk⟩ : ∃ k, k = x.line.length := ⟨_, rfl⟩
  rw [← hk]
  induction k generalizing s x with
  | zero =>
    have : x.line = [] := List.length_eq_zero_iff.mp hk.symm
    rw [Cons.killLine, ← this]
    exact h
  | succ k ih =>
    obtain ⟨l, c, hl⟩ := (List.eq_nil_or_concat' x.line).resolve_left
      (fun he => by simp [he] at hk)
    obtain ⟨hc, h'⟩ := h.erase hl
    have hne : s.e ≠ s.w := fun he => by simp [h.e_eq_w.mp he] at hk
    have hnl : c ≠ newline := fun he => h.line (by simp [hl, he])
    rw [Cons.killLine, if_pos ⟨hne, hc ▸ hnl⟩]
    refine ih (x := { x with line := l }) h' ?_
    simpa only [hl, List.length_append, List.length_singleton, Nat.add_right_cancel_iff] using hk

/-- A character is appended to the line. -/
theorem append (h : Sim s x) (hlt : x.held < INPUT_BUF_SIZE) :
    Fifo INPUT_BUF_SIZE UINT (update s.buf (s.e % INPUT_BUF_SIZE) c) s.r
      ((s.e + 1) % UINT) (x.queue ++ (x.line ++ [c])) := by
  rw [← List.append_assoc]
  exact h.ring.put (by rwa [List.length_append]) c

theorem store (h : Sim s x) (hlt : x.held < INPUT_BUF_SIZE) (hc : c ≠ newline) :
    Sim { s with
      buf := update s.buf (s.e % INPUT_BUF_SIZE) c
      e := (s.e + 1) % UINT } { x with line := x.line ++ [c] } where
  ring := h.append hlt
  commit := h.commit
  line := by simpa [h.line] using Ne.symm hc
  pos := h.pos

theorem storeCommit (h : Sim s x) (hlt : x.held < INPUT_BUF_SIZE) (c : UInt8) :
    Sim { s with
      buf := update s.buf (s.e % INPUT_BUF_SIZE) c
      w := (s.e + 1) % UINT
      e := (s.e + 1) % UINT } (Editor.commit { x with line := x.line ++ [c] }) := by
  have hq : (Editor.commit { x with line := x.line ++ [c] }).queue = x.queue ++ (x.line ++ [c]) :=
    List.drop_append_of_le_length h.pos
  have hf := h.append hlt (c := c)
  refine ⟨?_, ?_, List.not_mem_nil, ?_⟩
  · rw [hq]
    simpa [Editor.commit] using hf
  · rw [hq]
    exact hf.next
  · have := h.pos
    simp only [Editor.commit, List.length_append]
    omega

theorem intr (h : Sim s x) (c : UInt8) : Sim (s.consoleintr c) (x.type c) := by
  unfold Cons.consoleintr Editor.type
  by_cases hP : c = ctrlP
  · rw [if_pos hP, if_pos (.inr hP)]
    exact h
  rw [if_neg hP]
  by_cases hU : c = ctrlU
  · rw [if_pos hU, if_neg (by subst hU; decide), if_pos hU, h.diff_ew]
    exact h.killLine
  rw [if_neg hU, if_neg hU]
  by_cases hH : c = ctrlH ∨ c = delete
  · have h₀ : ¬ (c = 0 ∨ c = ctrlP) := by rcases hH with rfl | rfl <;> decide
    rw [if_pos hH, if_neg h₀, if_pos hH]
    rcases List.eq_nil_or_concat' x.line with hl | ⟨l, c', hl⟩
    · rw [if_neg (not_not.mpr (h.e_eq_w.mpr hl)), hl, List.dropLast_nil, ← hl]
      exact h
    · have hne : s.e ≠ s.w := fun he => by simp [h.e_eq_w.mp he] at hl
      rw [if_pos hne, hl, List.dropLast_concat]
      exact (h.erase hl).2
  rw [if_neg hH, if_neg hH, h.diff_er]
  by_cases h₀ : c = 0
  · rw [if_neg (by simp [h₀]), if_pos (.inl h₀)]
    exact h
  rw [if_neg (show ¬ (c = 0 ∨ c = ctrlP) by simp [h₀, hP])]
  by_cases hfull : x.held = INPUT_BUF_SIZE
  · rw [if_neg (by simp [hfull]), if_pos hfull]
    exact h
  have hlt : x.held < INPUT_BUF_SIZE := lt_of_le_of_ne h.held_le hfull
  rw [if_pos ⟨h₀, hlt⟩, if_neg hfull]
  -- the character is stored; the ring and the editor agree whether this commits the line
  obtain ⟨c', hc'⟩ : ∃ c', c' = if c = carriageReturn then newline else c := ⟨_, rfl⟩
  rw [← hc']
  have hfull' : diff ((s.e + 1) % UINT) s.r = INPUT_BUF_SIZE ↔
      Editor.held { x with line := x.line ++ [c'] } = INPUT_BUF_SIZE := by
    have := (h.append hlt (c := c')).length_eq
    rw [List.length_append] at this
    unfold diff
    rw [this]
    rfl
  dsimp only
  simp only [hfull']
  split_ifs with hcom
  · exact h.storeCommit hlt c'
  · exact h.store hlt fun he => hcom (.inl he)

/-- The next committed byte is taken. -/
theorem take (h : Sim s x) (hq : x.queue = c :: q) :
    s.r ≠ s.w ∧ s.buf (s.r % INPUT_BUF_SIZE) = c ∧ x.advance.queue = q ∧
      Sim { s with r := (s.r + 1) % UINT } x.advance := by
  have hne : s.r ≠ s.w := fun he => by simp [h.committed.empty_iff.mp he] at hq
  have hadv := queue_advance hq
  have hpos : x.pos < x.stream.length := by
    by_contra hge
    unfold Editor.queue at hq
    rw [List.drop_eq_nil_of_le (by omega)] at hq
    cases hq
  have hring := h.ring
  rw [hq, List.cons_append] at hring
  obtain ⟨hc, hf⟩ := hring.get
  refine ⟨hne, hc, hadv, ?_, ?_, h.line, hpos⟩
  · rw [hadv]
    exact hf
  · rw [hadv, h.commit, hq, List.length_cons, Nat.mod_add_mod, Nat.add_assoc, Nat.add_comm 1]

theorem read {target : ℕ} (h : Sim s x) (ht : n + got.length = target) :
    (s.consoleread target n got).2 = (x.read n got).2 ∧
      Sim (s.consoleread target n got).1 (x.read n got).1 := by
  induction n generalizing s x got with
  | zero => exact ⟨rfl, h⟩
  | succ n ih =>
    unfold Cons.consoleread Editor.read
    cases hq : x.queue with
    | nil =>
      rw [if_pos (h.committed.empty_iff.mpr hq)]
      exact ⟨rfl, h⟩
    | cons c q =>
      obtain ⟨hne, hc, -, hs⟩ := h.take hq
      rw [if_neg hne]
      simp only [hc]
      split_ifs with hD hlt hgot hgot hnl
      · simp only [hgot, List.length_nil] at ht
        omega
      · rw [pred_succ h.ring.bound]
        exact ⟨rfl, h⟩
      · exact ⟨rfl, hs⟩
      · have : got.length ≠ 0 := fun h₀ => hgot (List.length_eq_zero_iff.mp h₀)
        omega
      · exact ⟨rfl, hs⟩
      · exact ih hs (by simp only [List.length_append, List.length_singleton]; omega)

end Sim

/-! ## What a read of the editor does -/

/-- The bytes `bs` are taken, and after them `eof` times a `^D`. -/
structure Taken (x y : Editor) (bs : List UInt8) (eof : ℕ) : Prop where
  stream : y.stream = x.stream
  queue : x.queue = bs ++ (List.replicate eof ctrlD ++ y.queue)
  pos : y.pos = x.pos + (bs.length + eof)
  bytes : ctrlD ∉ bs

/-- A read returns bytes with no newline but at their end, or nothing for a `^D`, or it waits. -/
inductive Served (n : ℕ) (got : List UInt8) (x y : Editor) : Outcome → Prop
  | bytes (bs : List UInt8) (h : Taken x y bs 0) (nl : newline ∉ bs.dropLast)
      (ne : 0 < n → got ++ bs ≠ []) : Served n got x y (.returned (got ++ bs))
  | eof (h : Taken x y [] 1) (none : got = []) : Served n got x y (.returned got)
  | waits (bs : List UInt8) (h : Taken x y bs 0) (nl : newline ∉ bs) (lt : bs.length < n) :
      Served n got x y (.waits (n - bs.length) (got ++ bs))

theorem Taken.refl (x : Editor) : Taken x x [] 0 := ⟨rfl, rfl, rfl, List.not_mem_nil⟩

variable {bs : List UInt8}

theorem Taken.cons {eof : ℕ} (hq : x.queue = c :: q) (hc : c ≠ ctrlD) (h : Taken x.advance y bs
      eof) :
    Taken x y (c :: bs) eof where
  stream := h.stream
  queue := by rw [hq, ← queue_advance hq, h.queue, List.cons_append]
  pos := by
    rw [h.pos, Editor.advance, List.length_cons]
    simp only
    omega
  bytes := by simp [h.bytes, Ne.symm hc]

theorem served (n : ℕ) (got : List UInt8) (x : Editor) :
    Served n got x (x.read n got).1 (x.read n got).2 := by
  induction n generalizing got x with
  | zero =>
    have : Served 0 got x _ _ := .bytes [] (.refl x) List.not_mem_nil (by simp)
    rwa [List.append_nil] at this
  | succ n ih =>
    unfold Editor.read
    cases hq : x.queue with
    | nil =>
      have : Served (n + 1) got x _ _ := .waits [] (.refl x) List.not_mem_nil (by simp)
      rwa [List.append_nil] at this
    | cons c q =>
      dsimp only
      split_ifs with hD hgot hnl
      · subst hD
        exact .eof ⟨rfl, by rw [hq, queue_advance hq]; rfl, rfl, List.not_mem_nil⟩ hgot
      · have : Served (n + 1) got x _ _ := .bytes [] (.refl x) List.not_mem_nil (by simp [hgot])
        rwa [List.append_nil] at this
      · exact .bytes [c] (.cons hq hD (.refl _)) (by simp) (by simp)
      · have := ih (got ++ [c]) x.advance
        -- one more byte in front of what the rest of the loop takes
        cases hr : (x.advance.read n (got ++ [c])).2 with
        | returned got' =>
          rw [hr] at this
          cases this with
          | bytes bs h nl _ =>
            rw [List.append_assoc]
            refine .bytes (c :: bs) (h.cons hq hD) ?_ (by simp)
            cases bs with
            | nil => simp
            | cons b bs => simpa [Ne.symm hnl] using nl
          | eof _ none => simp at none
        | waits n' got' =>
          rw [hr] at this
          cases this with
          | waits bs h nl lt =>
            rw [List.append_assoc, show n - bs.length = n + 1 - (c :: bs).length by simp]
            refine .waits (c :: bs) (h.cons hq hD) (by simp [nl, Ne.symm hnl]) ?_
            rw [List.length_cons]
            omega

/-! ## Runs -/

/-- What the calls have been given, in the terms of the editor: the bytes taken from the stream
without the `^D`s, in their order, and nothing for each `^D`. A call gets no `^D` and at most one
line. -/
structure Delivered (t : System Editor) : Prop where
  pos : t.cons.pos ≤ t.cons.stream.length
  bytes : (t.cons.stream.take t.cons.pos).filter (· ≠ ctrlD) = t.log.map Prod.snd
  eof : (t.cons.stream.take t.cons.pos).count ctrlD = t.results.countP fun r => r.2 = []
  line : ∀ r ∈ t.results, ctrlD ∉ r.2 ∧ newline ∉ r.2.dropLast
  /-- The bytes given to a process are those its calls return. -/
  own : ∀ i, (t.log.filter (·.1 = i)).map Prod.snd =
    ((t.results.filter (·.1 = i)).map Prod.snd).flatten ++ (t.reader i).elim [] Waiting.got

/-- The calls that wait have got part of a line. -/
structure Waiting.Ok (w : Waiting) : Prop where
  target : w.n + w.got.length = w.target
  pos : 0 < w.n
  bytes : ctrlD ∉ w.got
  line : newline ∉ w.got

variable {s : System Cons} {t t' : System Editor} {i : ℕ} {w : Waiting} {l : List Label}

theorem Taken.take {eof : ℕ} (h : Taken x y bs eof) (hx : x.pos ≤ x.stream.length) :
    y.pos ≤ y.stream.length ∧
      y.stream.take y.pos = x.stream.take x.pos ++ (bs ++ List.replicate eof ctrlD) := by
  have hq := h.queue
  rw [← List.append_assoc] at hq
  have hlen : (bs ++ List.replicate eof ctrlD).length = bs.length + eof := by simp
  have hq' : x.stream.drop x.pos = bs ++ List.replicate eof ctrlD ++ y.queue := hq
  have htot : x.stream.length - x.pos = bs.length + eof + y.queue.length := by
    rw [← List.length_drop, hq', List.length_append, hlen]
  rw [h.stream, h.pos]
  refine ⟨by omega, ?_⟩
  rw [List.take_add, hq', List.take_left' hlen]

/-- The bytes of process `j` after process `i` has been given `bs`. -/
theorem own_append (j : ℕ) (log : List (ℕ × UInt8)) (bs : List UInt8) :
    ((log ++ bs.map (i, ·)).filter (·.1 = j)).map Prod.snd =
      (log.filter (·.1 = j)).map Prod.snd ++ if j = i then bs else [] := by
  rw [List.filter_append, List.map_append]
  congr 1
  by_cases hj : j = i
  · subst hj
    simp [List.filter_map, comp_def]
  · simp [List.filter_map, comp_def, hj, Ne.symm hj]

theorem filter_bytes (h : ctrlD ∉ bs) : bs.filter (· ≠ ctrlD) = bs := by
  rw [List.filter_eq_self]
  intro b hb
  rw [decide_eq_true_eq]
  rintro rfl
  exact h hb

theorem dropLast_append {a b : List UInt8} (ha : newline ∉ a) (hb : newline ∉ b.dropLast) :
    newline ∉ (a ++ b).dropLast := by
  cases b with
  | nil =>
    rw [List.append_nil]
    exact fun h => ha (List.mem_of_mem_dropLast h)
  | cons x b =>
    rw [List.dropLast_append_of_ne_nil (by simp)]
    simp [ha, hb]

namespace Delivered

/-- A call goes on after it has got `w.got`. -/
theorem resume (h : Delivered t) (hw : w.Ok) (hi : (t.reader i).elim [] Waiting.got = w.got) :
    Delivered (t.resume editor i w) := by
  obtain ⟨y, o, hr⟩ : ∃ y o, editor.read w.target w.n w.got t.cons = (y, o) := ⟨_, _, rfl⟩
  have hserved := served w.n w.got t.cons
  have hr' : t.cons.read w.n w.got = (y, o) := hr
  rw [hr'] at hserved
  dsimp only at hserved
  cases hserved with
  | bytes bs htk nl ne =>
    obtain ⟨hpos, htake⟩ := htk.take h.pos
    rw [List.replicate_zero, List.append_nil] at htake
    rw [System.resume_returned hr, List.drop_left]
    refine ⟨hpos, ?_, ?_, ?_, fun j => ?_⟩
    · rw [htake, List.filter_append, h.bytes, filter_bytes htk.bytes]
      simp [comp_def]
    · rw [htake, List.count_append, h.eof, List.count_eq_zero_of_not_mem htk.bytes,
        List.countP_append, List.countP_singleton]
      simp only [decide_eq_true_eq, if_neg (ne hw.pos)]
    · intro r hr
      rcases List.mem_append.mp hr with hr | hr
      · exact h.line r hr
      · rw [List.mem_singleton.mp hr]
        exact ⟨by simp [hw.bytes, htk.bytes], dropLast_append hw.line nl⟩
    · rw [own_append, h.own j]
      rcases eq_or_ne j i with rfl | hj
      · simp [hi]
      · simp [hj, Ne.symm hj]
  | eof htk hnone =>
    obtain ⟨hpos, htake⟩ := htk.take h.pos
    rw [List.replicate_one, List.nil_append] at htake
    rw [System.resume_returned hr, List.drop_length, List.map_nil, List.append_nil, hnone]
    refine ⟨hpos, ?_, ?_, ?_, fun j => ?_⟩
    · rw [htake, List.filter_append, h.bytes]
      simp
    · rw [htake, List.count_append, h.eof, List.countP_append]
      simp
    · intro r hr
      rcases List.mem_append.mp hr with hr | hr
      · exact h.line r hr
      · rw [List.mem_singleton.mp hr]
        simp
    · rw [h.own j]
      rcases eq_or_ne j i with rfl | hj
      · simp [hi, hnone]
      · simp [hj, Ne.symm hj]
  | waits bs htk nl lt =>
    obtain ⟨hpos, htake⟩ := htk.take h.pos
    rw [List.replicate_zero, List.append_nil] at htake
    rw [System.resume_waits hr, List.drop_left]
    refine ⟨hpos, ?_, ?_, h.line, fun j => ?_⟩
    · rw [htake, List.filter_append, h.bytes, filter_bytes htk.bytes]
      simp [comp_def]
    · rw [htake, List.count_append, h.eof, List.count_eq_zero_of_not_mem htk.bytes]
      rfl
    · rw [own_append, h.own j]
      rcases eq_or_ne j i with rfl | hj
      · simp [hi]
      · simp [hj]

theorem type (h : Delivered t) (c : UInt8) : Delivered { t with cons := t.cons.type c } := by
  -- a commit only appends to the stream
  have htype : (t.cons.type c).pos = t.cons.pos ∧ ∃ l, (t.cons.type c).stream = t.cons.stream ++ l := by
    unfold Editor.type
    dsimp only
    split_ifs
    all_goals first
      | exact ⟨rfl, [], (List.append_nil _).symm⟩
      | exact ⟨rfl, _, rfl⟩
  obtain ⟨hpos, l, hl⟩ := htype
  have htake : (t.cons.type c).stream.take (t.cons.type c).pos = t.cons.stream.take t.cons.pos := by
    rw [hpos, hl, List.take_append_of_le_length h.pos]
  refine ⟨?_, ?_, ?_, h.line, h.own⟩
  · have := h.pos
    simp only [hpos, hl, List.length_append]
    omega
  · rw [htake]
    exact h.bytes
  · rw [htake]
    exact h.eof

theorem start : Delivered (.start Editor.init) :=
  ⟨le_rfl, rfl, rfl, nofun, fun _ => rfl⟩

end Delivered

/-- The console and the editor after the same inputs. -/
structure Refines (s : System Cons) (t : System Editor) : Prop where
  cons : Sim s.cons t.cons
  reader : s.reader = t.reader
  results : s.results = t.results
  log : s.log = t.log
  waiting : ∀ i w, t.reader i = some w → w.Ok
  delivered : Delivered t

theorem Refines.resume (h : Refines s t) (hw : w.Ok)
    (hi : (t.reader i).elim [] Waiting.got = w.got) :
    Refines (s.resume driver i w) (t.resume editor i w) := by
  have hd := h.delivered.resume hw hi
  obtain ⟨ho, hs⟩ := h.cons.read hw.target
  obtain ⟨y, o, hr⟩ : ∃ y o, editor.read w.target w.n w.got t.cons = (y, o) := ⟨_, _, rfl⟩
  have hr' : t.cons.read w.n w.got = (y, o) := hr
  have hserved := served w.n w.got t.cons
  rw [hr'] at ho hs hserved
  have hc : driver.read w.target w.n w.got s.cons = ((s.cons.consoleread w.target w.n w.got).1, o) :=
    Prod.ext rfl ho
  have hwait : ∀ (x : Option Waiting), (∀ w', x = some w' → w'.Ok) → ∀ j w',
      update t.reader i x j = some w' → w'.Ok := by
    intro x hx j w' hj
    rcases eq_or_ne j i with rfl | hji
    · rw [update_self] at hj
      exact hx w' hj
    · rw [update_of_ne hji] at hj
      exact h.waiting j w' hj
  cases o with
  | returned got =>
    rw [System.resume_returned hr] at hd ⊢
    rw [System.resume_returned hc]
    exact ⟨hs, by rw [h.reader], by rw [h.results], by rw [h.log], hwait none nofun, hd⟩
  | waits n got =>
    rw [System.resume_waits hr] at hd ⊢
    rw [System.resume_waits hc]
    refine ⟨hs, by rw [h.reader], h.results, by rw [h.log], hwait _ ?_, hd⟩
    rintro w' ⟨⟩
    cases hserved with
    | waits bs htk nl lt =>
      have := hw.target
      refine ⟨?_, Nat.sub_pos_of_lt lt, by simp [hw.bytes, htk.bytes], by simp [hw.line, nl]⟩
      simp only [List.length_append]
      omega

theorem Refines.step {s' : System Cons} {lab : Label} (h : Refines s t)
    (hs : Next (System.step driver) s lab s') :
    ∃ t', Next (System.step editor) t lab t' ∧ Refines s' t' := by
  unfold Next at hs ⊢
  cases lab with
  | intr c =>
    cases hs
    exact ⟨_, rfl, h.cons.intr c, h.reader, h.results, h.log, h.waiting, h.delivered.type c⟩
  | read i n =>
    simp only [System.step, h.reader] at hs ⊢
    cases hi : t.reader i with
    | some w => simp [hi] at hs
    | none =>
      simp only [hi] at hs
      split_ifs at hs with hn
      cases hs
      rw [if_pos hn]
      exact ⟨_, rfl, h.resume ⟨rfl, hn, List.not_mem_nil, List.not_mem_nil⟩ (by rw [hi]; rfl)⟩
  | wake i =>
    simp only [System.step, h.reader] at hs ⊢
    cases hi : t.reader i with
    | none => simp [hi] at hs
    | some w =>
      simp only [hi, Option.map_some, Option.some.injEq, Except.ok.injEq] at hs ⊢
      subst hs
      exact ⟨_, rfl, h.resume (h.waiting i w hi) (by rw [hi]; rfl)⟩

theorem Refines.run (h : Run (Next (System.step driver)) s l s') (hr : Refines s t) :
    ∃ t', Run (Next (System.step editor)) t l t' ∧ Refines s' t' := by
  induction h generalizing t with
  | nil s => exact ⟨t, .nil t, hr⟩
  | cons h₁ _ ih =>
    obtain ⟨u, hu, hr₁⟩ := hr.step h₁
    obtain ⟨t', ht', hr'⟩ := ih hr₁
    exact ⟨t', .cons hu ht', hr'⟩

/-- Whatever is typed and read, in any order, the calls on the console return what those on the line
editor return, and the indices stay in order, modulo 2³². -/
theorem console_line_discipline (h : Run (Next (System.step driver)) (.start .init) l s) :
    (∃ t, Run (Next (System.step editor)) (.start .init) l t ∧ s.reader = t.reader ∧
      s.results = t.results ∧ s.log = t.log ∧ Delivered t) ∧
    diff s.cons.w s.cons.r ≤ diff s.cons.e s.cons.r ∧
      diff s.cons.e s.cons.r ≤ INPUT_BUF_SIZE := by
  obtain ⟨t, ht, hr⟩ := Refines.run h (t := .start .init)
    ⟨.init, rfl, rfl, rfl, nofun, .start⟩
  refine ⟨⟨t, ht, hr.reader, hr.results, hr.log, hr.delivered⟩, ?_, ?_⟩
  · rw [hr.cons.diff_wr, hr.cons.diff_er, Editor.held]
    omega
  · rw [hr.cons.diff_er]
    exact hr.cons.held_le

/-- A line is typed with a character taken back, and read in two parts. -/
theorem console_line_discipline_typed : ∃ s, exec (System.step driver) (.start .init)
      [.read 0 3, .intr 97, .intr 98, .intr 8, .intr 99, .intr 13, .wake 0, .intr 100, .intr 4,
        .read 0 5, .read 1 5] = some s ∧
    s.results = [(0, [97, 99, 10]), (0, [100]), (1, [])] ∧
    ∃ t, s.results = t.results ∧ Delivered t := by
  obtain ⟨s, hs, hr⟩ := exists_of_exec (System.step driver) (s := .start .init)
    (l := [.read 0 3, .intr 97, .intr 98, .intr 8, .intr 99, .intr 13, .wake 0, .intr 100, .intr 4,
      .read 0 5, .read 1 5])
    (P := fun s => s.results = [(0, [97, 99, 10]), (0, [100]), (1, [])]) (by decide +kernel)
  obtain ⟨⟨t, -, -, ht, -, hd⟩, -⟩ := console_line_discipline (run_of_exec _ hs)
  exact ⟨s, hs, hr, t, ht, hd⟩

end Xv6.Console

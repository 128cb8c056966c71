import Xv6.Shell.Parser

/-! # Tokens

`peek` and `gettoken` in terms of the tokens of the rest of the line.
-/

namespace Xv6.Shell

variable {c : UInt8} {s q e r w : Str} {o : Op} {ts : List Tok}

/-- The first character of an operator. -/
def Op.first : Op → UInt8
  | pipe => chr '|'
  | lpar => chr '('
  | rpar => chr ')'
  | semi => chr ';'
  | amp => chr '&'
  | lt => chr '<'
  | gt | app => chr '>'

theorem tokens_cons (h : ¬ (c = chr '>' ∧ s.head? = some (chr '>'))) :
    tokens (c :: s) = front c s.head? (tokens s) := by
  cases s with
  | nil => rfl
  | cons d s =>
    rw [tokens, if_neg]
    · rfl
    · simpa using h

theorem tokens_app : tokens (chr '>' :: chr '>' :: s) = .op .app :: tokens s := by
  rw [tokens, if_pos ⟨rfl, rfl⟩]

/-- A character is white space, an operator or a character of a word. -/
theorem isWord_iff : isWord c = true ↔
    whitespace.contains c = false ∧ single c = none ∧ c ≠ chr '>' := by
  simp only [isWord, symbols, Bool.and_eq_true, Bool.not_eq_true', List.contains_eq_mem,
    decide_eq_false_iff_not, List.mem_cons, List.not_mem_nil, or_false, not_or]
  constructor
  · rintro ⟨h, h₁, h₂, h₃, h₄, h₅, h₆, h₇⟩
    exact ⟨h, by simp only [single, h₁, h₂, h₄, h₅, h₆, h₇, if_false], h₃⟩
  · rintro ⟨h, h', h₃⟩
    unfold single at h'
    split_ifs at h' with h₂ h₆ h₇ h₅ h₄ h₁
    exact ⟨h, h₁, h₂, h₃, h₄, h₅, h₆, h₇⟩

theorem tokens_space (h : whitespace.contains c = true) : tokens (c :: s) = tokens s := by
  rw [tokens_cons, front, if_pos h]
  rintro ⟨rfl, -⟩
  exact absurd h (by decide)

theorem tokens_skip (s : Str) : tokens (skip s) = tokens s := by
  induction s with
  | nil => rfl
  | cons c s ih =>
    by_cases h : whitespace.contains c = true
    · rw [skip, List.dropWhile_cons_of_pos h, tokens_space h]
      exact ih
    · rw [skip, List.dropWhile_cons_of_neg h]

theorem skip_suffix (s : Str) : skip s <:+ s := List.dropWhile_suffix _

theorem head_skip (h : c ∈ (skip s).head?) : whitespace.contains c = false := by
  have := List.head?_dropWhile_not whitespace.contains s
  rw [← skip, Option.mem_def.mp h] at this
  exact this

theorem tokens_word (hw : w ≠ []) (hc : ∀ c ∈ w, isWord c = true)
    (he : ∀ c ∈ e.head?, isWord c = false) : tokens (w ++ e) = .word w :: tokens e := by
  induction w with
  | nil => exact absurd rfl hw
  | cons c w ih =>
    obtain ⟨h₁, h₂, h₃⟩ := isWord_iff.mp (hc c List.mem_cons_self)
    rw [List.cons_append, tokens_cons (fun h => h₃ h.1), front, if_neg (by rw [h₁]; decide), h₂]
    simp only [if_neg h₃]
    cases w with
    | nil =>
      rw [if_neg]
      · rfl
      · cases he' : e.head? with
        | none => simp [he']
        | some d => simp [he', he d he']
    | cons d w =>
      have hd : isWord d = true := hc d (by simp)
      rw [ih (by simp) fun c hc' => hc c (List.mem_cons_of_mem _ hc')]
      simp [hd, glue]

/-- The pointers of a word of `s`. -/
structure SpanOf (s : Str) (p : Span) (w : Str) : Prop where
  suffix : p.1 <:+ s
  eq : p.1 = w ++ p.2
  ne : w ≠ []
  chars : ∀ c ∈ w, isWord c = true
  stop : ∀ c ∈ p.2.head?, isWord c = false

theorem SpanOf.mono {p : Span} (h : SpanOf r p w) (hr : r <:+ s) : SpanOf s p w :=
  { h with suffix := h.suffix.trans hr }

/-- The next token of `s`. -/
inductive Next (s : Str) : Kind × Span × Str → Prop
  | eof (p : Span) : tokens s = [] → Next s (.eof, p, [])
  | op (o : Op) (p : Span) {r : Str} : tokens s = .op o :: tokens r → r <:+ s →
      Next s (.op o, p, r)
  | word {p : Span} {w r : Str} : tokens s = .word w :: tokens r → r <:+ s → SpanOf s p w →
      Next s (.word, p, r)

theorem gettoken_next (s : Str) : Next s (gettoken s) := by
  have hskip := skip_suffix s
  have hfirst := fun c => head_skip (c := c) (s := s)
  unfold gettoken
  generalize hq : skip s = q at hskip hfirst
  have htok : tokens q = tokens s := hq ▸ tokens_skip s
  have hop : ∀ o p r, tokens q = .op o :: tokens r → r <:+ q → Next s (.op o, p, skip r) := by
    intro o p r h hr
    refine .op o p ?_ ((skip_suffix r).trans (hr.trans hskip))
    rw [← htok, h, tokens_skip]
  cases q with
  | nil => exact .eof _ htok.symm
  | cons c q =>
    have hc : whitespace.contains c = false := hfirst c rfl
    cases hs : single c with
    | some o =>
      have hne : c ≠ chr '>' := by
        rintro rfl
        exact absurd hs (by decide +revert)
      simp only [scan, hs]
      refine hop o _ q ?_ (List.suffix_cons c q)
      rw [tokens_cons fun h => hne h.1, front, if_neg (by rw [hc]; decide), hs]
    | none =>
      simp only [scan, hs]
      split_ifs with hgt hnext
      · subst hgt
        obtain ⟨q', rfl⟩ := List.head?_eq_some_iff.mp hnext
        exact hop .app _ q' tokens_app ((List.suffix_cons _ q').trans (List.suffix_cons _ _))
      · refine hop .gt _ q ?_ (List.suffix_cons c q)
        rw [tokens_cons fun h => hnext h.2, front, if_neg (by rw [hc]; decide), hs]
        simp only [if_pos hgt]
      · have hword : isWord c = true := isWord_iff.mpr ⟨hc, hs, hgt⟩
        have hspan : SpanOf s (c :: q, (c :: q).dropWhile isWord) ((c :: q).takeWhile isWord) := by
          refine ⟨hskip, List.takeWhile_append_dropWhile.symm, ?_, fun d hd => ?_, fun d hd => ?_⟩
          · simp [hword]
          · exact List.all_eq_true.mp List.all_takeWhile d hd
          · have := List.head?_dropWhile_not isWord (c :: q)
            rw [Option.mem_def.mp hd] at this
            exact this
        refine .word ?_ ((skip_suffix _).trans ((List.dropWhile_suffix _).trans hskip)) hspan
        rw [← htok, tokens_skip]
        exact (congrArg tokens hspan.eq).trans (tokens_word hspan.ne hspan.chars hspan.stop)

/-- The first token is an operator of which `toks` has the first character. -/
def Begins (toks : List Char) : List Tok → Bool
  | .op o :: _ => (toks.map chr).contains o.first
  | _ => false

variable {toks : List Char}

theorem begins_cons (h : Begins toks ts = true) :
    ∃ o ts', ts = .op o :: ts' ∧ (toks.map chr).contains o.first = true := by
  match ts, h with
  | .op o :: ts, h => exact ⟨o, ts, rfl, h⟩

/-- `peek` for an operator of one character. -/
theorem begins_op (ho : ∀ o', (toks.map chr).contains o'.first = true ↔ o' = o) :
    Begins toks ts = true ↔ ∃ ts', ts = .op o :: ts' := by
  constructor
  · intro h
    obtain ⟨o', ts', rfl, h'⟩ := begins_cons h
    exact ⟨ts', by rw [(ho o').mp h']⟩
  · rintro ⟨ts', rfl⟩
    exact (ho o).mpr rfl

theorem first_of_single (h : single c = some o) : o.first = c := by
  unfold single at h
  split_ifs at h with h₁ h₂ h₃ h₄ h₅ h₆
  all_goals
    cases h
    exact Eq.symm (by assumption)

theorem begins_front (h : ∀ d ∈ toks, isWord (chr d) = false) (hc : whitespace.contains c = false) :
    Begins toks (tokens (c :: s)) = (toks.map chr).contains c := by
  by_cases happ : c = chr '>' ∧ s.head? = some (chr '>')
  · obtain ⟨rfl, hs⟩ := happ
    obtain ⟨s', rfl⟩ := List.head?_eq_some_iff.mp hs
    rw [tokens_app]
    rfl
  rw [tokens_cons happ, front, if_neg (by rw [hc]; decide)]
  cases hs : single c with
  | some o => simp only [Begins, first_of_single hs]
  | none =>
    by_cases hgt : c = chr '>'
    · simp only [Begins, hgt]
      rfl
    · have hword : isWord c = true := isWord_iff.mpr ⟨hc, hs, hgt⟩
      have hnot : (toks.map chr).contains c = false := by
        rw [List.contains_eq_mem, decide_eq_false_iff_not]
        intro hmem
        obtain ⟨d, hd, rfl⟩ := List.mem_map.mp hmem
        rw [h d hd] at hword
        cases hword
      simp only [if_neg hgt, hnot]
      split_ifs
      · cases tokens s with
        | nil => rfl
        | cons t ts => cases t <;> rfl
      · rfl

theorem peek_eq (h : (toks.all fun c => !isWord (chr c)) = true) (s : Str) :
    peek s toks = (Begins toks (tokens s), skip s) := by
  have hword : ∀ c ∈ toks, isWord (chr c) = false := by simpa using h
  rw [peek, ← tokens_skip s]
  cases hq : skip s with
  | nil => rfl
  | cons c q => rw [begins_front hword (head_skip (s := s) (by rw [hq]; rfl))]; rfl

theorem length_front_le (next : Option UInt8) : (front c next ts).length ≤ ts.length + 1 := by
  have hglue : (glue c ts).length ≤ ts.length + 1 := by
    cases ts with
    | nil => simp [glue]
    | cons t ts => cases t <;> simp [glue]
  cases h : single c <;> simp only [front, h] <;> split_ifs <;> first | exact hglue | simp

theorem length_tokens_le (s : Str) : (tokens s).length ≤ s.length := by
  induction s using tokens.induct with
  | case1 => rfl
  | case2 c => exact length_front_le none
  | case3 c d s h ih =>
    rw [tokens, if_pos h]
    simp only [List.length_cons]
    omega
  | case4 c d s h ih =>
    rw [tokens, if_neg h]
    exact (length_front_le _).trans (Nat.succ_le_succ ih)

end Xv6.Shell

import Xv6.Shell.Grammar

/-! # The matcher of grep

A pattern is read as a sequence of items. The matcher tries every split of the
text that the sequence allows. A string is the list of the bytes before its
NUL, so that the end of a list stands for the byte `'\0'` that the code tests.
-/

namespace Xv6.Grep

open Shell (Str chr)

/-- `matchstar(c, re, text)`, where `here` is `matchhere(re, ·)`. -/
def matchstar (c : UInt8) (here : Str → Bool) : Str → Bool
  | [] => here []
  | t :: text => here (t :: text) || ((t == c || c == chr '.') && matchstar c here text)

def matchhere : Str → Str → Bool
  | [], _ => true
  | [c], text =>
    if c = chr '$' then text.isEmpty
    else
      match text with
      | [] => false
      | t :: _ => c == chr '.' || c == t
  | c :: d :: re, text =>
    if d = chr '*' then matchstar c (matchhere re) text
    else
      match text with
      | [] => false
      | t :: text => (c == chr '.' || c == t) && matchhere (d :: re) text

/-- The loop of `match`, which also looks at the empty string. -/
def search (re : Str) : Str → Bool
  | [] => matchhere re []
  | t :: text => matchhere re (t :: text) || search re text

/-- `match(re, text)` -/
def matchText : Str → Str → Bool
  | [], text => search [] text
  | c :: re, text => if c = chr '^' then matchhere re text else search (c :: re) text

/-! ## Patterns -/

inductive Item
  | star (c : UInt8)
  | eot
  | char (c : UInt8)
  deriving DecidableEq, Repr

/-- The items of a pattern, from left to right. -/
def items : Str → List Item
  | [] => []
  | [c] => if c = chr '$' then [.eot] else [.char c]
  | c :: d :: re => if d = chr '*' then .star c :: items re else .char c :: items (d :: re)

/-- The character `t` of a text is one that `c` stands for. -/
def Fits (c t : UInt8) : Prop := c = chr '.' ∨ c = t

/-- The items match `w` in a text that goes on with `r`. -/
inductive Matches : List Item → Str → Str → Prop
  | nil {r : Str} : Matches [] [] r
  | star {c : UInt8} {is : List Item} {v w r : Str} : (∀ t ∈ v, Fits c t) → Matches is w r →
      Matches (.star c :: is) (v ++ w) r
  | eot {is : List Item} : Matches is [] [] → Matches (.eot :: is) [] []
  | char {c t : UInt8} {is : List Item} {w r : Str} : Fits c t → Matches is w r →
      Matches (.char c :: is) (t :: w) r

variable {re text : Str} {c : UInt8} {is : List Item}

/-- The text starts with a match. -/
def Starts (is : List Item) (text : Str) : Prop := ∃ w r, text = w ++ r ∧ Matches is w r

@[simp] theorem starts_nil : Starts [] text := ⟨[], text, rfl, .nil⟩

@[simp] theorem starts_eot : Starts [.eot] text ↔ text = [] := by
  constructor
  · rintro ⟨w, r, rfl, h⟩
    cases h
    rfl
  · rintro rfl
    exact ⟨[], [], rfl, .eot .nil⟩

@[simp] theorem starts_char_nil : ¬Starts (.char c :: is) [] := by
  rintro ⟨w, r, he, h⟩
  cases h
  cases he

@[simp] theorem starts_char_cons {t : UInt8} :
    Starts (.char c :: is) (t :: text) ↔ Fits c t ∧ Starts is text := by
  constructor
  · rintro ⟨w, r, he, h⟩
    cases h with
    | char hf h =>
      cases he
      exact ⟨hf, _, r, rfl, h⟩
  · rintro ⟨hf, w, r, rfl, h⟩
    exact ⟨t :: w, r, rfl, .char hf h⟩

theorem starts_star :
    Starts (.star c :: is) text ↔ ∃ v r, text = v ++ r ∧ (∀ t ∈ v, Fits c t) ∧ Starts is r := by
  constructor
  · rintro ⟨w, r, rfl, h⟩
    cases h with
    | @star _ _ v w _ hv h => exact ⟨v, w ++ r, List.append_assoc v w r, hv, w, r, rfl, h⟩
  · rintro ⟨v, r, rfl, hv, w, r, rfl, h⟩
    exact ⟨v ++ w, r, (List.append_assoc v w r).symm, .star hv h⟩

/-- The loop tries every run of characters that fit, the empty one first. -/
theorem matchstar_iff {here : Str → Bool} : matchstar c here text = true ↔
    ∃ v r, text = v ++ r ∧ (∀ t ∈ v, Fits c t) ∧ here r = true := by
  induction text with
  | nil =>
    constructor
    · intro h
      exact ⟨[], [], rfl, by simp, h⟩
    · rintro ⟨v, r, he, -, h⟩
      obtain ⟨rfl, rfl⟩ := List.append_eq_nil_iff.mp he.symm
      exact h
  | cons t text ih =>
    have hfits : ((t == c || c == chr '.') = true) ↔ Fits c t := by
      rw [Bool.or_eq_true, beq_iff_eq, beq_iff_eq, or_comm, eq_comm (a := t), Fits]
    rw [matchstar, Bool.or_eq_true, Bool.and_eq_true, hfits, ih]
    constructor
    · rintro (h | ⟨hf, v, r, rfl, hv, h⟩)
      · exact ⟨[], t :: text, rfl, by simp, h⟩
      · exact ⟨t :: v, r, rfl, List.forall_mem_cons.mpr ⟨hf, hv⟩, h⟩
    · rintro ⟨v, r, he, hv, h⟩
      cases v with
      | nil => exact .inl (he ▸ h)
      | cons t' v =>
        cases he
        obtain ⟨hf, hv⟩ := List.forall_mem_cons.mp hv
        exact .inr ⟨hf, v, r, rfl, hv, h⟩

theorem matchhere_iff (re text : Str) : matchhere re text = true ↔ Starts (items re) text := by
  fun_induction items re generalizing text with
  | case1 => simp [matchhere]
  | case2 => simp [matchhere]
  | case3 c h => cases text <;> simp [matchhere, h, Fits]
  | case4 c re ih => simp [matchhere, matchstar_iff, starts_star, ih]
  | case5 c d re h ih => cases text <;> simp [matchhere, h, Fits, ih]

theorem search_iff : search re text = true ↔ ∃ r, r <:+ text ∧ Starts (items re) r := by
  induction text with
  | nil => simp [search, matchhere_iff]
  | cons t text ih =>
    simp [search, matchhere_iff, ih, List.suffix_cons_iff, or_and_right, exists_or]

/-- `match` finds a suffix of the text, or the whole text behind `'^'`, that starts with a match of
the items of the pattern. -/
theorem matchText_iff (re text : Str) : matchText re text = true ↔
    if re.head? = some (chr '^') then ∃ w r, text = w ++ r ∧ Matches (items re.tail) w r
    else ∃ v w r, text = v ++ (w ++ r) ∧ Matches (items re) w r := by
  have hsearch : search re text = true ↔
      ∃ v w r, text = v ++ (w ++ r) ∧ Matches (items re) w r := by
    rw [search_iff]
    constructor
    · rintro ⟨_, ⟨v, rfl⟩, w, r, rfl, h⟩
      exact ⟨v, w, r, rfl, h⟩
    · rintro ⟨v, w, r, rfl, h⟩
      exact ⟨w ++ r, ⟨v, rfl⟩, w, r, rfl, h⟩
  cases re with
  | nil => simpa [matchText] using hsearch
  | cons c re =>
    by_cases hc : c = chr '^'
    · simp only [matchText, hc, if_true, List.head?_cons, List.tail_cons]
      exact matchhere_iff re text
    · simpa [matchText, hc] using hsearch

end Xv6.Grep

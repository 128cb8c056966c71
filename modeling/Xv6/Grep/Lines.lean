import Xv6.Grep.Match
import Xv6.Lib.Memmove

/-! # The buffer of grep

`grep` reads into a buffer of 1024 bytes, ends the lines in it where they lie,
and moves what is left of a line to the front. The output depends on the lines
only, and it stops at the first line that does not fit.
-/

namespace Xv6.Grep

open Function

open Shell (Str chr)
open Memmove

/-- `sizeof(buf)` -/
def bufSize : ℕ := 1024

/-- The address `i` bytes behind `p`. -/
def off (p : Addr) (i : ℕ) : Addr := p + BitVec.ofNat 64 i

/-- The string at `p`, which ends inside of the buffer. -/
def cstring (mem : Mem) : ℕ → Addr → Str
  | 0, _ => []
  | n + 1, p => if mem p = 0 then [] else mem p :: cstring mem n (p + 1)

/-- How far behind the start of the string `strchr` finds `c`. -/
def strchr (c : UInt8) : Str → Option ℕ
  | [] => none
  | b :: s => if b = c then some 0 else (strchr c s).map (· + 1)

/-- The `n` bytes at `p`, which `write` sends. -/
def bytes (mem : Mem) : Addr → ℕ → Str
  | _, 0 => []
  | p, n + 1 => mem p :: bytes mem (p + 1) n

/-- The memory in which `read` has put `s` at `p`. -/
def store (mem : Mem) (p : Addr) (s : Str) : Mem := fun a => (s[(a - p).toNat]?).getD (mem a)

variable (re : Str) (buf : Addr)

/-- The inner loop of `grep`, from `p` on. -/
def scan : ℕ → Addr → Mem → Str → Option (Addr × Mem × Str)
  | 0, _, _, _ => none
  | fuel + 1, p, mem, out =>
    match strchr (chr '\n') (cstring mem bufSize p) with
    | none => some (p, mem, out)
    | some j =>
      let q := off p j
      let mem := update mem q 0
      if matchText re (cstring mem bufSize p) then
        let mem := update mem q (chr '\n')
        scan fuel (q + 1) mem (out ++ bytes mem p (j + 1))
      else scan fuel (q + 1) mem out

/-- The outer loop of `grep`. The next call of `read` gives `chunks 0` bytes, but at least one and at
most what is asked for and left, and the calls behind it give `chunks 1`, `chunks 2` and so on. -/
def grepFrom : ℕ → (ℕ → ℕ) → ℕ → Mem → Str → Str → Option Str
  | 0, _, _, _, _, _ => none
  | fuel + 1, chunks, m, mem, input, out =>
    let n := min (max 1 (chunks 0)) (min (bufSize - m - 1) input.length)
    if n = 0 then some out
    else do
      let mem := store mem (off buf m) (input.take n)
      let mem := update mem (off buf (m + n)) 0
      let (p, mem, out) ← scan re bufSize buf mem out
      let r := m + n - (p - buf).toNat
      grepFrom fuel (fun i => chunks (i + 1)) r (userMemmove buf p (BitVec.ofNat 32 r) mem)
        (input.drop n) out

/-- What `grep(re, fd)` writes if `fd` has the bytes `input`. -/
def grep (chunks : ℕ → ℕ) (mem : Mem) (input : Str) : Option Str :=
  grepFrom re buf (input.length + 1) chunks 0 mem input []

/-! ## Lines -/

/-- The lines with their newlines. -/
def text (ls : List Str) : Str := ls.flatMap (· ++ [chr '\n'])

/-- The lines that match. -/
def selected (ls : List Str) : Str := text (ls.filter (matchText re))

/-- The line fits into the buffer with its newline and the NUL. -/
def Short (l : Str) : Bool := l.length + 2 ≤ bufSize

variable {re buf} {p q : Addr} {mem mem' : Mem} {v w l rest out : Str} {ls : List Str} {b : UInt8}

@[simp] theorem text_nil : text [] = [] := rfl

@[simp] theorem text_cons : text (l :: ls) = l ++ chr '\n' :: text ls := by simp [text]

@[simp] theorem text_append (ls₁ ls₂ : List Str) : text (ls₁ ++ ls₂) = text ls₁ ++ text ls₂ := by
  simp [text]

theorem length_lt_text (h : l ∈ ls) : l.length < (text ls).length := by
  induction ls with
  | nil => cases h
  | cons l' ls ih =>
    rw [text_cons, List.length_append, List.length_cons]
    rcases List.mem_cons.mp h with rfl | h
    · omega
    · have := ih h
      omega

@[simp] theorem selected_append (ls₁ ls₂ : List Str) :
    selected re (ls₁ ++ ls₂) = selected re ls₁ ++ selected re ls₂ := by simp [selected]

/-- Without a newline the buffer has no more than a part of the first line. -/
theorem part_of_line (h : w ++ rest = text (l :: ls)) (hw : chr '\n' ∉ w) :
    w.length ≤ l.length ∧ rest ≠ [] := by
  rw [text_cons] at h
  rcases List.append_eq_append_iff.mp h with ⟨v, rfl, hv⟩ | ⟨v, rfl, hv⟩
  · exact ⟨by simp, by simp [hv]⟩
  · cases v with
    | nil => exact ⟨by simp, fun hrest => by simp [hrest] at hv⟩
    | cons b v =>
      obtain ⟨rfl, -⟩ := List.cons.inj hv
      simp at hw

/-- A buffer with a newline in it starts with the whole first line. -/
theorem first_line (h : w ++ rest = text ls) (hls : ∀ l ∈ ls, chr '\n' ∉ l) (hw : chr '\n' ∈ w) :
    ∃ l ls' w', ls = l :: ls' ∧ w = l ++ chr '\n' :: w' ∧ w' ++ rest = text ls' := by
  cases ls with
  | nil =>
    rw [text_nil, List.append_eq_nil_iff] at h
    simp [h.1] at hw
  | cons l ls =>
    rw [text_cons] at h
    have hl := hls l List.mem_cons_self
    rcases List.append_eq_append_iff.mp h with ⟨v, rfl, -⟩ | ⟨v, rfl, hv⟩
    · exact absurd (List.mem_append_left v hw) hl
    · cases v with
      | nil => exact absurd (by simpa using hw) hl
      | cons b w' =>
        obtain ⟨rfl, hrest⟩ := List.cons.inj hv
        exact ⟨l, ls, w', rfl, rfl, hrest.symm⟩

theorem strchr_eq_none (h : b ∉ w) : strchr b w = none := by
  induction w with
  | nil => rfl
  | cons c w ih =>
    rw [List.mem_cons, not_or] at h
    rw [strchr, if_neg (Ne.symm h.1), ih h.2, Option.map_none]

theorem strchr_append (h : b ∉ w) : strchr b (w ++ b :: v) = some w.length := by
  induction w with
  | nil => simp [strchr]
  | cons c w ih =>
    rw [List.mem_cons, not_or] at h
    rw [List.cons_append, strchr, if_neg (Ne.symm h.1), ih h.2, Option.map_some, List.length_cons]

/-! ## Memory -/

theorem off_zero (p : Addr) : off p 0 = p := by simp [off]

theorem off_off (p : Addr) (i j : ℕ) : off (off p i) j = off p (i + j) := by
  unfold off
  bv_omega

theorem off_one (p : Addr) : p + 1 = off p 1 := rfl

/-- The bytes `w` are at `p`. -/
def At (mem : Mem) (p : Addr) (w : Str) : Prop := ∀ i b, w[i]? = some b → mem (off p i) = b

theorem at_cons : At mem p (b :: w) ↔ mem p = b ∧ At mem (p + 1) w := by
  constructor
  · intro h
    refine ⟨off_zero p ▸ h 0 b rfl, fun i c hc => ?_⟩
    rw [off_one, off_off, add_comm]
    exact h (i + 1) c hc
  · rintro ⟨hb, h⟩ i c hc
    cases i with
    | zero => exact (off_zero p).symm ▸ hb.trans (Option.some.inj hc)
    | succ i =>
      rw [add_comm, ← off_off]
      exact h i c hc

theorem at_append : At mem p (v ++ w) ↔ At mem p v ∧ At mem (off p v.length) w := by
  induction v generalizing p with
  | nil => simp [At, off_zero]
  | cons b v ih =>
    rw [List.cons_append, at_cons, at_cons, ih, and_assoc, off_one, off_off, List.length_cons,
      add_comm 1]

theorem lt_of_getElem? {i : ℕ} (h : w[i]? = some b) : i < w.length :=
  (List.getElem?_eq_some_iff.mp h).1

/-- A write at another place. -/
theorem At.write (hw : At mem p w) {q : Addr} {c : UInt8} (h : ∀ i < w.length, off p i ≠ q) :
    At (update mem q c) p w := by
  intro i b hb
  rw [update_of_ne (h i (lt_of_getElem? hb)), hw i b hb]

theorem At.write_behind (hw : At mem p w) {j : ℕ} {c : UInt8} (hj : w.length ≤ j)
    (h64 : j < 2 ^ 64) : At (update mem (off p j) c) p w := by
  apply hw.write
  intro i hi
  unfold off
  bv_omega

theorem At.put (hw : At mem p w) (h : w.length < 2 ^ 64) (c : UInt8) :
    At (update mem (off p w.length) c) p (w ++ [c]) := by
  rw [at_append, at_cons]
  refine ⟨hw.write_behind le_rfl h, update_self .., ?_⟩
  intro i b hb
  cases hb

theorem At.store (hw : At mem p w) (h : w.length + v.length < 2 ^ 64) :
    At (store mem (off p w.length) v) p (w ++ v) := by
  rw [at_append]
  constructor
  · intro i b hb
    have hi := lt_of_getElem? hb
    rw [Grep.store, List.getElem?_eq_none, Option.getD_none, hw i b hb]
    unfold off
    bv_omega
  · intro i b hb
    have hi := lt_of_getElem? hb
    have hsub : (off (off p w.length) i - off p w.length).toNat = i := by
      unfold off
      bv_omega
    rw [Grep.store, hsub, hb, Option.getD_some]

theorem At.moved {n : ℕ} (hw : At mem p w) (hn : w.length = n) (h : Moved mem q p n mem') :
    At mem' q w := by
  intro i b hb
  exact (h.copied i (hn ▸ lt_of_getElem? hb)).trans (hw i b hb)

theorem cstring_eq {n : ℕ} (hw : At mem p (w ++ [0])) (h0 : 0 ∉ w) (hn : w.length < n) :
    cstring mem n p = w := by
  induction w generalizing p n with
  | nil =>
    cases n with
    | zero => rfl
    | succ n => rw [cstring, if_pos (at_cons.mp hw).1]
  | cons b w ih =>
    cases n with
    | zero => cases hn
    | succ n =>
      obtain ⟨hb, hw⟩ := at_cons.mp hw
      rw [List.mem_cons, not_or] at h0
      rw [cstring, hb, if_neg (Ne.symm h0.1), ih hw h0.2 (Nat.lt_of_succ_lt_succ hn)]

theorem bytes_eq (hw : At mem p w) : bytes mem p w.length = w := by
  induction w generalizing p with
  | nil => rfl
  | cons b w ih =>
    obtain ⟨hb, hw⟩ := at_cons.mp hw
    rw [List.length_cons, bytes, hb, ih hw]

/-! ## The loops -/

/-- The inner loop, started at `p` with `w` in the buffer, has written the lines in `w` that match
and stands behind the last of them. -/
def Scanned (re : Str) (p : Addr) (w : Str) (ls : List Str) (out : Str)
    (result : Option (Addr × Mem × Str)) : Prop :=
  ∃ ls₁ ls₂ w' mem, result = some (off p (text ls₁).length, mem, out ++ selected re ls₁) ∧
    ls = ls₁ ++ ls₂ ∧ w = text ls₁ ++ w' ∧ chr '\n' ∉ w' ∧ At mem (off p (text ls₁).length) w'

theorem Scanned.cons {result : Option (Addr × Mem × Str)}
    (h : Scanned re (off p (l.length + 1)) w ls (out ++ selected re [l]) result) :
    Scanned re p (l ++ chr '\n' :: w) (l :: ls) out result := by
  obtain ⟨ls₁, ls₂, w', mem, rfl, rfl, rfl, hw', hat⟩ := h
  have hlen : (text (l :: ls₁)).length = l.length + 1 + (text ls₁).length := by
    rw [text_cons, List.length_append, List.length_cons]
    omega
  refine ⟨l :: ls₁, ls₂, w', mem, ?_, rfl, by simp, hw', ?_⟩
  · rw [hlen, off_off, List.append_assoc, ← selected_append, List.singleton_append]
  · rw [hlen, ← off_off]
    exact hat

theorem scan_scanned {fuel : ℕ} (hfuel : w.length < fuel) (hlen : w.length < bufSize)
    (hw : At mem p (w ++ [0])) (h0 : 0 ∉ w) (hls : ∀ l ∈ ls, chr '\n' ∉ l)
    (htext : w ++ rest = text ls) : Scanned re p w ls out (scan re fuel p mem out) := by
  induction fuel generalizing p mem out w ls with
  | zero => cases hfuel
  | succ fuel ih =>
    have hstr : cstring mem bufSize p = w := cstring_eq hw h0 hlen
    by_cases hnl : chr '\n' ∈ w
    · obtain ⟨l, ls, w, rfl, rfl, hrest⟩ := first_line htext hls hnl
      have hl := hls l List.mem_cons_self
      rw [List.mem_append, List.mem_cons, not_or, not_or] at h0
      rw [List.length_append, List.length_cons] at hfuel hlen
      have h64 : l.length + (w.length + 1) < 2 ^ 64 := hlen.trans (by decide)
      rw [List.append_assoc, List.cons_append, at_append, at_cons, off_one, off_off] at hw
      obtain ⟨hat, -, hw⟩ := hw
      -- what the loop writes over the newline leaves the rest of the buffer as it is
      have hbehind : ∀ {m} c, At m (off p (l.length + 1)) (w ++ [0]) →
          At (update m (off p l.length) c) (off p (l.length + 1)) (w ++ [0]) := by
        intro m c hm
        apply hm.write
        intro i hi
        rw [List.length_append, List.length_singleton] at hi
        unfold off
        bv_omega
      have hline := hat.put (by omega) 0
      rw [scan, hstr, strchr_append hl]
      dsimp only
      rw [cstring_eq hline h0.1 (by omega), off_one, off_off]
      have hnext : ∀ {m}, At m (off p (l.length + 1)) (w ++ [0]) →
          Scanned re p (l ++ chr '\n' :: w) (l :: ls) out
            (scan re fuel (off p (l.length + 1)) m (out ++ selected re [l])) := fun hm =>
        (ih (by omega) (by omega) hm h0.2.2 (fun l' hl' => hls l' (List.mem_cons_of_mem l hl'))
          hrest).cons
      split_ifs with hmatch
      · have hput := (at_append.mp hline).1.put (by omega) (chr '\n')
        have hbytes := bytes_eq hput
        rw [List.length_append, List.length_singleton] at hbytes
        rw [hbytes, show l ++ [chr '\n'] = selected re [l] by simp [selected, hmatch]]
        exact hnext (hbehind _ (hbehind _ hw))
      · have hscan := hnext (hbehind 0 hw)
        rwa [show out ++ selected re [l] = out by simp [selected, hmatch]] at hscan
    · refine ⟨[], ls, w, mem, ?_, rfl, rfl, hnl, ?_⟩
      · rw [scan, hstr, strchr_eq_none hnl]
        simp [off_zero, selected]
      · rw [text_nil, List.length_nil, off_zero]
        exact (at_append.mp hw).1

/-- The loop writes the lines that match, up to the first one that does not fit. -/
theorem grepFrom_eq {fuel : ℕ} {chunks : ℕ → ℕ} {input : Str} (hbuf : buf.toNat + bufSize ≤ 2 ^ 64)
    (hfuel : input.length < fuel) (hlen : w.length < bufSize) (hw : At mem buf w)
    (hnl : chr '\n' ∉ w) (hls : ∀ l ∈ ls, chr '\n' ∉ l) (h0 : 0 ∉ text ls)
    (htext : w ++ input = text ls) :
    grepFrom re buf fuel chunks w.length mem input out =
      some (out ++ selected re (ls.takeWhile Short)) := by
  induction fuel generalizing chunks w mem input out ls with
  | zero => cases hfuel
  | succ fuel ih =>
    unfold bufSize at hbuf hlen
    rw [grepFrom]
    generalize hn : min (max 1 (chunks 0)) (min (bufSize - w.length - 1) input.length) = n
    unfold bufSize at hn
    by_cases hn0 : n = 0
    · rw [if_pos hn0]
      cases ls with
      | nil => simp [selected]
      | cons l ls =>
        obtain ⟨hle, hne⟩ := part_of_line htext hnl
        have := List.length_pos_iff.mpr hne
        have hlong : Short l = false := by
          rw [Short, decide_eq_false_iff_not]
          unfold bufSize
          omega
        simp [hlong, selected]
    · rw [if_neg hn0]
      have htake : (input.take n).length = n := by
        rw [List.length_take]
        omega
      have hall : w ++ input.take n ++ input.drop n = text ls := by
        rw [List.append_assoc, List.take_append_drop, htext]
      have hdata : (w ++ input.take n).length = w.length + n := by
        rw [List.length_append, htake]
      have hput := (hw.store (v := input.take n) (by omega)).put (by omega) 0
      rw [hdata] at hput
      have hscan : Scanned re buf (w ++ input.take n) ls out (scan re bufSize buf _ out) :=
        scan_scanned (by unfold bufSize; omega) (by unfold bufSize; omega) hput
          (fun h => h0 (hall ▸ List.mem_append_left _ h)) hls hall
      obtain ⟨ls₁, ls₂, w', mem', heq, rfl, hw', hnl', hat⟩ := hscan
      simp only [heq, bind, Option.bind]
      have hsum : w.length + n = (text ls₁).length + w'.length := by
        rw [← hdata, hw', List.length_append]
      have hp : (off buf (text ls₁).length - buf).toNat = (text ls₁).length := by
        unfold off
        bv_omega
      have hr : w.length + n - (off buf (text ls₁).length - buf).toNat = w'.length := by
        rw [hp, hsum, Nat.add_sub_cancel_left]
      have hk : (BitVec.ofNat 32 w'.length).toNat = w'.length := by
        rw [BitVec.toNat_ofNat, Nat.mod_eq_of_lt (by omega)]
      have hmove : At (userMemmove buf (off buf (text ls₁).length) (BitVec.ofNat 32 w'.length) mem')
          buf w' :=
        hat.moved hk.symm (userMemmove_moved (by omega) (by omega) (by unfold off; bv_omega))
      rw [text_append] at hall h0
      have hrest : w' ++ input.drop n = text ls₂ := by
        rw [hw', List.append_assoc] at hall
        exact List.append_cancel_left hall
      rw [hr, ih (by rw [List.length_drop]; omega) (by unfold bufSize; omega) hmove hnl'
        (fun l hl => hls l (List.mem_append_right _ hl)) (fun h => h0 (List.mem_append_right _ h))
        hrest, List.takeWhile_append_of_pos, selected_append, List.append_assoc]
      intro l hl
      have := length_lt_text hl
      rw [Short, decide_eq_true_eq]
      unfold bufSize
      omega

theorem grep_eq {chunks : ℕ → ℕ} (hbuf : buf.toNat + bufSize ≤ 2 ^ 64)
    (hls : ∀ l ∈ ls, chr '\n' ∉ l ∧ 0 ∉ l) :
    grep re buf chunks mem (text ls) = some (selected re (ls.takeWhile Short)) := by
  apply grepFrom_eq (w := []) hbuf (Nat.lt_succ_self _) (by decide)
    (fun i b hb => by cases hb) List.not_mem_nil (fun l hl => (hls l hl).1) _ rfl
  intro h
  obtain ⟨l, hl, h⟩ := List.mem_flatMap.mp h
  rcases List.mem_append.mp h with h | h
  · exact (hls l hl).2 h
  · exact absurd (List.mem_singleton.mp h) (by decide)

theorem selected_eq_nil : selected re ls = [] ↔ ∀ l ∈ ls, matchText re l = false := by
  simp [selected, text]

/-- `grep` writes all the lines that match just if none of them is a line of 1023 or more
characters or follows one. -/
theorem grep_correct_iff (re : Str) (buf : Addr) (hbuf : buf.toNat + bufSize ≤ 2 ^ 64)
    (ls : List Str) (hls : ∀ l ∈ ls, chr '\n' ∉ l ∧ 0 ∉ l) (chunks : ℕ → ℕ) (mem : Mem) :
    grep re buf chunks mem (text ls) = some (selected re ls) ↔
      ∀ l ∈ ls.dropWhile Short, matchText re l = false := by
  have hsplit : selected re ls =
      selected re (ls.takeWhile Short) ++ selected re (ls.dropWhile Short) := by
    rw [← selected_append, List.takeWhile_append_dropWhile]
  rw [grep_eq hbuf hls, Option.some_inj, hsplit, List.self_eq_append_right, selected_eq_nil]

/-- Two lines, read byte by byte. -/
theorem grep_correct_iff_lines : ∃ ls : List Str, ls.length = 2 ∧
    grep [chr 'b'] 4096 (fun _ => 1) (fun _ => 0) (text ls) = some (selected [chr 'b'] ls) :=
  ⟨[[chr 'a'], [chr 'b']], rfl, (grep_correct_iff [chr 'b'] 4096 (by decide) _ (by decide)
    (fun _ => 1) fun _ => 0).mpr (by decide)⟩

/-- A line of 1023 characters is lost, although every line matches the empty pattern. -/
theorem grep_long_line : ∃ (re : Str) (ls : List Str), (∀ l ∈ ls, chr '\n' ∉ l ∧ 0 ∉ l) ∧
    ∀ chunks mem, grep re 4096 chunks mem (text ls) ≠ some (selected re ls) := by
  have hclean : ∀ l ∈ [List.replicate 1023 (chr 'a')], chr '\n' ∉ l ∧ 0 ∉ l := by
    intro l hl
    rw [List.mem_singleton.mp hl]
    exact ⟨fun h => absurd (List.eq_of_mem_replicate h) (by decide),
      fun h => absurd (List.eq_of_mem_replicate h) (by decide)⟩
  have hshort : ¬Short (List.replicate 1023 (chr 'a')) = true := by
    rw [Short, List.length_replicate]
    decide
  have hmatch : ∀ l, matchText [] l = true := by
    intro l
    cases l <;> rfl
  refine ⟨[], _, hclean, fun chunks mem h => ?_⟩
  rw [grep_eq (by decide) hclean, Option.some_inj, List.takeWhile_cons_of_neg hshort] at h
  have hnone := selected_eq_nil.mp h.symm _ List.mem_cons_self
  rw [hmatch] at hnone
  cases hnone

end Xv6.Grep

import Xv6.Shell.Correct

/-! # The language that the shell accepts

`nulterminate` ends the words where they lie in the line, so the strings that
`runcmd` finds are the words of the derivation.
-/

namespace Xv6.Shell

variable {s q w : Str} {c : Cmd Span} {t : Cmd Str} {p : Span} {b : UInt8} {m : ℕ → UInt8}

theorem Cmd.Rel.names {α β : Type} {R : α → β → Prop} {x : Cmd α} {y : Cmd β} (h : Rel R x y) :
    ∀ a ∈ x.names, ∃ b, R a b := by
  induction h with
  | exec h =>
    intro a ha
    induction h with
    | nil => cases ha
    | cons hab _ ih =>
      rcases List.mem_cons.mp ha with rfl | ha
      · exact ⟨_, hab⟩
      · exact ih ha
  | redir _ hab ih =>
    intro a ha
    rcases List.mem_cons.mp ha with rfl | ha
    · exact ⟨_, hab⟩
    · exact ih a ha
  | pipe _ _ ih ih' => exact fun a ha => (List.mem_append.mp ha).elim (ih a) (ih' a)
  | list _ _ ih ih' => exact fun a ha => (List.mem_append.mp ha).elim (ih a) (ih' a)
  | back _ ih => exact ih

theorem foldl_update (ps : List Span) (m : ℕ → UInt8) (d : ℕ) :
    ps.foldl (fun m p => Function.update m p.2.length 0) m d =
      if ∃ p ∈ ps, p.2.length = d then 0 else m d := by
  induction ps generalizing m with
  | nil => simp
  | cons p ps ih =>
    rw [List.foldl_cons, ih]
    simp only [List.mem_cons, exists_eq_or_imp, Function.update_apply, eq_comm (a := d)]
    rw [← ite_or]
    exact if_congr or_comm rfl rfl

/-- `nulterminate` clears the bytes behind the names. -/
theorem nulterminate_apply (c : Cmd Span) (m : ℕ → UInt8) (d : ℕ) :
    nulterminate c m d = if ∃ p ∈ c.names, p.2.length = d then 0 else m d := by
  induction c generalizing m with
  | exec argv => exact foldl_update argv m d
  | redir c file mode fd ih =>
    rw [nulterminate, Function.update_apply, ih]
    simp only [Cmd.names, List.mem_cons, exists_eq_or_imp, eq_comm (a := d), ite_or]
  | pipe l r ihl ihr | list l r ihl ihr =>
    rw [nulterminate, ihr, ihl]
    simp only [Cmd.names, List.mem_append, or_and_right, exists_or]
    rw [← ite_or]
    exact if_congr or_comm rfl rfl
  | back c ih => exact ih m

theorem load_suffix (h : b :: q <:+ s) : load s (q.length + 1) = b := by
  obtain ⟨a, rfl⟩ := h
  simp [load]

theorem cstring_eq (h : ∀ w₁ b w₂, w = w₁ ++ b :: w₂ → b ≠ 0 ∧ m ((w₂ ++ q).length + 1) = b)
    (hq : m q.length = 0) : cstring m (w ++ q).length = w := by
  induction w with
  | nil =>
    rw [List.nil_append]
    cases hn : q.length with
    | zero => rfl
    | succ n => rw [cstring, if_pos (hn ▸ hq)]
  | cons b w ih =>
    obtain ⟨hb, hm⟩ := h [] b w rfl
    rw [List.cons_append, List.length_cons, cstring, hm, if_neg hb,
      ih fun w₁ b' w₂ he => h (b :: w₁) b' w₂ (by rw [he, List.cons_append])]

/-- The byte behind a name is in no word. -/
theorem SpanOf.not_inside {p' : Span} {w' : Str} (hw : SpanOf s p w) (hw' : SpanOf s p' w') :
    ¬(p.2.length < p'.2.length ∧ p'.2.length ≤ p.1.length) := by
  rintro ⟨hlt, hle⟩
  have hend : p'.2 <:+ s := List.IsSuffix.trans ⟨w', hw'.eq.symm⟩ hw'.suffix
  obtain ⟨w₁, h₁⟩ := List.suffix_of_suffix_length_le hend hw.suffix hle
  rw [hw.eq] at h₁
  rcases List.append_eq_append_iff.mp h₁ with ⟨w₂, rfl, h₂⟩ | ⟨w₂, -, h₂⟩
  · cases w₂ with
    | nil => simp [h₂] at hlt
    | cons b w₂ =>
      have hb : isWord b = true := hw.chars b (by simp)
      simp [hw'.stop b (by simp [h₂])] at hb
  · simp [h₂] at hlt

/-- The string at a name is its word. -/
theorem cstring_nulterminate (hs : 0 ∉ s) (hc : Spells s c t) (hp : p ∈ c.names)
    (hw : SpanOf s p w) : cstring (nulterminate c (load s)) p.1.length = w := by
  rw [hw.eq]
  apply cstring_eq
  · rintro w₁ b w₂ he
    have hsuf : b :: (w₂ ++ p.2) <:+ s := by
      refine List.IsSuffix.trans ⟨w₁, ?_⟩ hw.suffix
      rw [hw.eq, he, List.append_assoc, List.cons_append]
    refine ⟨fun h0 => hs (h0 ▸ hsuf.subset List.mem_cons_self), ?_⟩
    rw [nulterminate_apply, if_neg, load_suffix hsuf]
    rintro ⟨p', hp', hlen⟩
    obtain ⟨w', hw'⟩ := hc.names p' hp'
    apply hw.not_inside hw'
    simp [hlen, hw.eq, he]
  · rw [nulterminate_apply, if_pos ⟨p, hp, rfl⟩]

theorem skip_eq_nil (h : tokens s = []) : skip s = [] := by
  obtain ⟨p, hg⟩ := gettoken_eof h
  have heof : (scan (skip s)).1 = .eof := congrArg Prod.fst hg
  cases hq : skip s with
  | nil => rfl
  | cons b q =>
    rw [hq, scan] at heof
    cases ho : single b with
    | some o =>
      rw [ho] at heof
      cases heof
    | none =>
      rw [ho] at heof
      dsimp only at heof
      split_ifs at heof

/-- What `parsecmd` makes of the tree of `parseline`. -/
theorem map_cstring (hs : 0 ∉ s) (hc : Spells s c t) :
    (c.map fun p => cstring (nulterminate c (load s)) p.1.length) = t :=
  hc.map_eq fun _ hp _ hw => cstring_nulterminate hs hc hp hw

theorem need_le (s : Str) : Nonterm.line.need (tokens s).length ≤ 4 * s.length + 4 := by
  have hle := length_tokens_le s
  simp only [Nonterm.need]
  omega

/-- What `parsecmd` returns is the command of a derivation, and it is never cut off. -/
theorem parsecmd_outcome (hs : 0 ∉ s) :
    Outcome (fun t => Derives .line (tokens s) t ∧ t.Within (MAXARGS - 1)) (parsecmd s) := by
  apply ((parses (4 * s.length + 4)).1 s (need_le s)).bind
  rintro ⟨c, r⟩ ⟨u, t, hu, hd, hw, hc, -⟩
  simp only [peek, map_cstring hs hc]
  by_cases hr : skip r = []
  · rw [if_neg (not_not.mpr hr), hu, ← tokens_skip r, hr, tokens, List.append_nil]
    exact ⟨hd, hw⟩
  · rw [if_pos hr]
    exact Halt.noConfusion

theorem parsecmd_eq (hs : 0 ∉ s) (hd : Derives .line (tokens s) t)
    (hw : t.Within (MAXARGS - 1)) : parsecmd s = .ok t := by
  have hacc := parse_accepts hd (List.append_nil _).symm (.inl rfl) hw (need_le s)
  obtain ⟨c, r, hm, ht, hc, -⟩ := hacc
  rw [parsecmd, show parseline (4 * s.length + 4) s = _ from hm, pure_bind]
  simp only [peek, skip_eq_nil ht]
  exact congrArg Except.ok (map_cstring hs hc)

/-- `parsecmd` returns a command just if the grammar derives the line with at most nine words in
each simple command, it is the command of the derivation, and in every other case it panics. -/
theorem parsecmd_correct (s : Str) (hs : 0 ∉ s) :
    (∀ t, parsecmd s = .ok t ↔ Derives .line (tokens s) t ∧ t.Within (MAXARGS - 1)) ∧
    ((∃ t, parsecmd s = .ok t) ∨ ∃ e, e ≠ .fuel ∧ parsecmd s = .error e) := by
  have hout := parsecmd_outcome hs
  constructor
  · intro t
    constructor
    · intro h
      rwa [h] at hout
    · rintro ⟨hd, hw⟩
      exact parsecmd_eq hs hd hw
  · cases h : parsecmd s with
    | ok t => exact .inl ⟨t, rfl⟩
    | error e =>
      rw [h] at hout
      exact .inr ⟨e, hout, rfl⟩

/-- `(a;b)>f|c&` -/
theorem parsecmd_correct_block :
    ∃ s : Str, 0 ∉ s ∧ parsecmd s = .ok (.back (.pipe
      (.redir (.list (.exec [[chr 'a']]) (.exec [[chr 'b']])) [chr 'f']
        (O_WRONLY ||| O_CREATE ||| O_TRUNC) 1)
      (.exec [[chr 'c']]))) ∧ ∃ t, Derives .line (tokens s) t := by
  have h : parsecmd ("(a;b)>f|c&".toList.map chr) = .ok (.back (.pipe
      (.redir (.list (.exec [[chr 'a']]) (.exec [[chr 'b']])) [chr 'f']
        (O_WRONLY ||| O_CREATE ||| O_TRUNC) 1)
      (.exec [[chr 'c']]))) := by decide +kernel
  exact ⟨_, by decide, h, _, (((parsecmd_correct _ (by decide)).1 _).mp h).1⟩

/-- The tree that `parseline` leaves of an accepted line. -/
theorem parsecmd_ok (hs : 0 ∉ s) (h : parsecmd s = .ok t) :
    ∃ c r, parseline (4 * s.length + 4) s = .ok (c, r) ∧ skip r = [] ∧ Spells s c t := by
  have hout := (parses (4 * s.length + 4)).1 s (need_le s)
  rw [parsecmd] at h
  cases hl : parseline (4 * s.length + 4) s with
  | error e =>
    rw [hl] at h
    cases h
  | ok x =>
    obtain ⟨c, r⟩ := x
    rw [hl] at hout h
    obtain ⟨u, t', -, -, -, hc, -⟩ := hout
    simp only [bind, Except.bind, peek, map_cstring hs hc] at h
    by_cases hr : skip r = []
    · rw [if_neg (not_not.mpr hr)] at h
      cases h
      exact ⟨c, r, rfl, hr, hc⟩
    · rw [if_pos hr] at h
      cases h

/-- The strings of the tree are the words of the derivation. Each is the word that its name points
to in the line, and has a terminator behind it. No terminator lies in a word. -/
theorem nulterminate_correct (s : Str) (hs : 0 ∉ s) (t : Cmd Str) (h : parsecmd s = .ok t) :
    ∃ c r, parseline (4 * s.length + 4) s = .ok (c, r) ∧ skip r = [] ∧
      (c.map fun p => cstring (nulterminate c (load s)) p.1.length) = t ∧
      Derives .line (tokens s) t ∧
      ∀ p ∈ c.names, SpanOf s p (cstring (nulterminate c (load s)) p.1.length) ∧
        nulterminate c (load s) p.2.length = 0 ∧
        ∀ p' ∈ c.names, ¬(p.2.length < p'.2.length ∧ p'.2.length ≤ p.1.length) := by
  have hder := parsecmd_outcome hs
  rw [h] at hder
  obtain ⟨c, r, hl, hr, hc⟩ := parsecmd_ok hs h
  refine ⟨c, r, hl, hr, map_cstring hs hc, hder.1, ?_⟩
  rintro p hp
  obtain ⟨w, hw⟩ := hc.names p hp
  refine ⟨(cstring_nulterminate hs hc hp hw).symm ▸ hw, ?_, ?_⟩
  · rw [nulterminate_apply, if_pos ⟨p, hp, rfl⟩]
  · rintro p' hp'
    obtain ⟨w', hw'⟩ := hc.names p' hp'
    exact hw.not_inside hw'

/-- `ab<c` -/
theorem nulterminate_correct_redir : ∃ s : Str, 0 ∉ s ∧
    parsecmd s = .ok (.redir (.exec [[chr 'a', chr 'b']]) [chr 'c'] O_RDONLY 0) ∧
    ∃ c r, parseline (4 * s.length + 4) s = .ok (c, r) ∧
      ∀ p ∈ c.names, nulterminate c (load s) p.2.length = 0 := by
  have h : parsecmd ("ab<c".toList.map chr) =
      .ok (.redir (.exec [[chr 'a', chr 'b']]) [chr 'c'] O_RDONLY 0) := by decide +kernel
  obtain ⟨c, r, hl, -, -, -, hp⟩ := nulterminate_correct _ (by decide) _ h
  exact ⟨_, by decide, h, c, r, hl, fun p hmem => (hp p hmem).2.1⟩

end Xv6.Shell

import Xv6.Shell.Tokens

/-! # The parser accepts the grammar

What the functions of the parser return spells a command that the grammar
derives from the tokens they have consumed, and a function whose input starts
with a derivable sequence of tokens consumes just that sequence.
-/

namespace Xv6.Shell

variable {α β : Type} {s s₀ r : Str} {u v : List Tok} {ws : List Str} {rs rs' : List (Dir × Str)}
  {c c' : Cmd Span} {t t' : Cmd Str} {fuel n argc : ℕ}

/-! ## Commands -/

namespace Cmd

/-- Two commands of one form whose names are related. -/
inductive Rel (R : α → β → Prop) : Cmd α → Cmd β → Prop
  | exec {as : List α} {bs : List β} : List.Forall₂ R as bs → Rel R (.exec as) (.exec bs)
  | redir {c : Cmd α} {d : Cmd β} {a : α} {b : β} {mode fd : ℕ} : Rel R c d → R a b →
      Rel R (.redir c a mode fd) (.redir d b mode fd)
  | pipe {c c' : Cmd α} {d d' : Cmd β} : Rel R c d → Rel R c' d' → Rel R (.pipe c c') (.pipe d d')
  | list {c c' : Cmd α} {d d' : Cmd β} : Rel R c d → Rel R c' d' → Rel R (.list c c') (.list d d')
  | back {c : Cmd α} {d : Cmd β} : Rel R c d → Rel R (.back c) (.back d)

variable {R R' : α → β → Prop} {x : Cmd α} {y : Cmd β}

theorem Rel.mono (h : Rel R x y) (hR : ∀ a b, R a b → R' a b) : Rel R' x y := by
  induction h with
  | exec h => exact .exec (h.imp fun a b => hR a b)
  | redir _ hab ih => exact .redir ih (hR _ _ hab)
  | pipe _ _ ih ih' => exact .pipe ih ih'
  | list _ _ ih ih' => exact .list ih ih'
  | back _ ih => exact .back ih

theorem Rel.addArg {a : α} {b : β} (h : Rel R x y) (hab : R a b) :
    Rel R (x.addArg a) (y.addArg b) := by
  induction h with
  | exec h => exact .exec (List.rel_append h (.cons hab .nil))
  | redir _ hr ih => exact .redir ih hr
  | pipe h h' => exact .pipe h h'
  | list h h' => exact .list h h'
  | back h => exact .back h

theorem Rel.backs (h : Rel R x y) (n : ℕ) : Rel R (Cmd.back^[n] x) (Cmd.back^[n] y) := by
  induction n generalizing x y with
  | zero => exact h
  | succ n ih => exact ih (.back h)

/-- The names in a command. -/
def names : Cmd α → List α
  | exec argv => argv
  | redir c file _ _ => file :: c.names
  | pipe l r => l.names ++ r.names
  | list l r => l.names ++ r.names
  | back c => c.names

theorem Rel.map_eq {f : α → β} (h : Rel R x y) (hf : ∀ a ∈ x.names, ∀ b, R a b → f a = b) :
    x.map f = y := by
  induction h with
  | @exec as bs h =>
    refine congrArg Cmd.exec ?_
    simp only [names] at hf
    induction h with
    | nil => rfl
    | cons hab _ ih =>
      rw [List.map_cons, hf _ List.mem_cons_self _ hab,
        ih fun a ha => hf a (List.mem_cons_of_mem _ ha)]
  | redir _ hab ih =>
    rw [map, ih fun a ha => hf a (List.mem_cons_of_mem _ ha), hf _ List.mem_cons_self _ hab]
  | pipe _ _ ih ih' =>
    rw [map, ih fun a ha => hf a (List.mem_append_left _ ha),
      ih' fun a ha => hf a (List.mem_append_right _ ha)]
  | list _ _ ih ih' =>
    rw [map, ih fun a ha => hf a (List.mem_append_left _ ha),
      ih' fun a ha => hf a (List.mem_append_right _ ha)]
  | back _ ih => rw [map, ih hf]

end Cmd

theorem redirect_append {x : Cmd α} {as bs : List (Dir × α)} :
    redirect (as ++ bs) x = redirect bs (redirect as x) := List.foldl_append

theorem addArg_redirect {x : Cmd α} {a : α} (as : List (Dir × α)) :
    (redirect as x).addArg a = redirect as (x.addArg a) := by
  induction as generalizing x with
  | nil => rfl
  | cons d as ih => exact ih

theorem within_redirect {x : Cmd α} {k : ℕ} (as : List (Dir × α)) :
    (redirect as x).Within k ↔ x.Within k := by
  induction as generalizing x with
  | nil => rfl
  | cons d as ih => exact ih

theorem within_backs {x : Cmd α} {k : ℕ} (n : ℕ) : (Cmd.back^[n] x).Within k ↔ x.Within k := by
  induction n generalizing x with
  | zero => rfl
  | succ n ih => exact ih

/-! ## What the parser returns -/

/-- A result inside `P`, or a panic. -/
def Outcome {γ : Type} (P : γ → Prop) : Except Halt γ → Prop
  | .ok x => P x
  | .error e => e ≠ .fuel

theorem Outcome.bind {γ δ : Type} {P : γ → Prop} {Q : δ → Prop} {m : Except Halt γ}
    {f : γ → Except Halt δ} (hm : Outcome P m) (hf : ∀ x, P x → Outcome Q (f x)) :
    Outcome Q (m >>= f) := by
  cases m with
  | ok x => exact hf x hm
  | error e => exact hm

theorem Outcome.mono {γ : Type} {P Q : γ → Prop} {m : Except Halt γ} (hm : Outcome P m)
    (h : ∀ x, P x → Q x) : Outcome Q m := by
  cases m with
  | ok x => exact h x hm
  | error e => exact hm

/-- `c` spells `t` with words of `s`. -/
abbrev Spells (s : Str) : Cmd Span → Cmd Str → Prop := Cmd.Rel (SpanOf s)

theorem Spells.mono (h : Spells r c t) (hr : r <:+ s) : Spells s c t :=
  Cmd.Rel.mono h fun _ _ hp => hp.mono hr

variable {ts : List Tok}

theorem begins_dir (h : Begins ['<', '>'] ts = true) : ∃ d : Dir, ∃ ts', ts = .op d.op :: ts' := by
  have hdir : ∀ o : Op, (['<', '>'].map chr).contains o.first = true →
      o = .lt ∨ o = .gt ∨ o = .app := fun o => by cases o <;> decide
  obtain ⟨o, ts', rfl, ho⟩ := begins_cons h
  obtain rfl | rfl | rfl := hdir o ho
  · exact ⟨.input, ts', rfl⟩
  · exact ⟨.output, ts', rfl⟩
  · exact ⟨.append, ts', rfl⟩

/-- There is no token. -/
theorem gettoken_eof (h : tokens s = []) : ∃ p, gettoken s = (.eof, p, []) := by
  have hn := gettoken_next s
  generalize gettoken s = x at hn
  cases hn with
  | eof p => exact ⟨p, rfl⟩
  | op o p h' => simp [h] at h'
  | word h' => simp [h] at h'

/-- The first token is an operator. -/
theorem gettoken_op {o : Op} (h : tokens s = .op o :: ts) :
    ∃ p r, gettoken s = (.op o, p, r) ∧ tokens r = ts ∧ r <:+ s := by
  have hn := gettoken_next s
  generalize gettoken s = x at hn
  cases hn with
  | eof p h' => simp [h] at h'
  | op o' p h' hr =>
    rw [h] at h'
    cases h'
    exact ⟨p, _, rfl, rfl, hr⟩
  | word h' => simp [h] at h'

/-- The first token is a word. -/
theorem gettoken_word {w : Str} (h : tokens s = .word w :: ts) :
    ∃ p r, gettoken s = (.word, p, r) ∧ tokens r = ts ∧ r <:+ s ∧ SpanOf s p w := by
  have hn := gettoken_next s
  generalize gettoken s = x at hn
  cases hn with
  | eof p h' => simp [h] at h'
  | op o' p h' => simp [h] at h'
  | word h' hr hp =>
    rw [h] at h'
    cases h'
    exact ⟨_, _, rfl, rfl, hr, hp⟩

/-- One redirection. -/
theorem parseredirs_cons (fuel : ℕ) (c : Cmd Span) {d : Dir} {w : Str}
    (h : tokens s = .op d.op :: .word w :: ts) : ∃ p r, tokens r = ts ∧ r <:+ s ∧ SpanOf s p w ∧
      parseredirs (fuel + 1) c s = parseredirs fuel (.redir c p d.mode d.fd) r := by
  have hs : tokens (skip s) = .op d.op :: .word w :: ts := (tokens_skip s).trans h
  obtain ⟨p₁, r₁, h₁, ht₁, hr₁⟩ := gettoken_op hs
  obtain ⟨p, r, h₂, ht, hr, hp⟩ := gettoken_word ht₁
  have hsuf := hr₁.trans (skip_suffix s)
  refine ⟨p, r, ht, hr.trans hsuf, hp.mono hsuf, ?_⟩
  have hB : Begins ['<', '>'] (tokens s) = true := by
    rw [h]
    cases d <;> rfl
  rw [parseredirs, peek_eq (by decide), hB]
  simp only [h₁, h₂]
  cases d <;> rfl

theorem parseredirs_error {d : Dir} (h : tokens s = .op d.op :: ts)
    (hts : ∀ w ts', ts ≠ .word w :: ts') : parseredirs (fuel + 1) c s = .error .missingFile := by
  obtain ⟨p₁, r₁, h₁, ht₁, -⟩ := gettoken_op ((tokens_skip s).trans h)
  have hB : Begins ['<', '>'] (tokens s) = true := by
    rw [h]
    cases d <;> rfl
  rw [parseredirs, peek_eq (by decide), hB]
  simp only [h₁]
  have hn := gettoken_next r₁
  generalize gettoken r₁ = x at hn
  cases hn with
  | eof p => rfl
  | op o p => rfl
  | word h' => exact absurd (ht₁.symm.trans h') (hts _ _)

theorem parseredirs_spec (hfuel : (tokens s).length < fuel) (hs : s <:+ s₀) (hc : Spells s₀ c t) :
    Outcome (fun x => ∃ u rs, tokens s = u ++ tokens x.2 ∧ Redirs u rs ∧
      Spells s₀ x.1 (redirect rs t) ∧ x.2 <:+ s) (parseredirs fuel c s) := by
  induction fuel generalizing s c t with
  | zero => omega
  | succ fuel ih =>
    cases hB : Begins ['<', '>'] (tokens s) with
    | false =>
      rw [parseredirs, peek_eq (by decide), hB]
      exact ⟨[], [], (tokens_skip s).symm, .nil, hc, skip_suffix s⟩
    | true =>
      obtain ⟨d, ts, hts⟩ := begins_dir hB
      by_cases hw : ∃ w ts', ts = .word w :: ts'
      · obtain ⟨w, ts', rfl⟩ := hw
        obtain ⟨p, r, ht, hr, hp, hstep⟩ := parseredirs_cons fuel c hts
        rw [hstep]
        refine (ih (t := .redir t w d.mode d.fd) ?_ (hr.trans hs) (.redir hc (hp.mono hs))).mono ?_
        · rw [hts] at hfuel
          rw [ht]
          simp only [List.length_cons] at hfuel
          omega
        · rintro x ⟨u, rs, hu, hrs, hx, hsuf⟩
          refine ⟨_, _, ?_, .cons hrs, hx, hsuf.trans hr⟩
          rw [hts, ← ht, hu]
          rfl
      · rw [parseredirs_error hts fun w ts' he => hw ⟨w, ts', he⟩]
        exact Halt.noConfusion

/-- One round of the loop of `parseexec`. -/
theorem parseargs_cons (fuel argc : ℕ) (c : Cmd Span) {w : Str} (h : tokens s = .word w :: ts) :
    ∃ p r, tokens r = ts ∧ r <:+ s ∧ SpanOf s p w ∧
      parseargs (fuel + 1) c argc s =
        if argc + 1 ≥ MAXARGS then .error .tooManyArgs
        else parseredirs (r.length + 1) (c.addArg p) r >>= fun x =>
          parseargs fuel x.1 (argc + 1) x.2 := by
  obtain ⟨p, r, hg, ht, hr, hp⟩ := gettoken_word ((tokens_skip s).trans h)
  refine ⟨p, r, ht, hr.trans (skip_suffix s), hp.mono (skip_suffix s), ?_⟩
  have hB : Begins ['|', ')', '&', ';'] (tokens s) = false := by
    rw [h]
    rfl
  rw [parseargs, peek_eq (by decide), hB]
  simp only [hg]

theorem parseargs_spec (hfuel : (tokens s).length < fuel) (hs : s <:+ s₀)
    (hc : Spells s₀ c (redirect rs (.exec ws))) (hargc : ws.length = argc) (hlt : argc < MAXARGS) :
    Outcome (fun x => ∃ u ws' rs', tokens s = u ++ tokens x.2 ∧ Words u ws' rs' ∧
      Spells s₀ x.1 (redirect (rs ++ rs') (.exec (ws ++ ws'))) ∧
      (ws ++ ws').length < MAXARGS ∧ x.2 <:+ s) (parseargs fuel c argc s) := by
  induction fuel generalizing s c rs ws argc with
  | zero => omega
  | succ fuel ih =>
    have hstop : ∀ r, tokens r = tokens s → r <:+ s → Outcome (fun x : Cmd Span × Str =>
        ∃ u ws' rs', tokens s = u ++ tokens x.2 ∧ Words u ws' rs' ∧
          Spells s₀ x.1 (redirect (rs ++ rs') (.exec (ws ++ ws'))) ∧
          (ws ++ ws').length < MAXARGS ∧ x.2 <:+ s) (.ok (c, r)) := by
      intro r hr hsuf
      refine ⟨[], [], [], hr.symm, .nil, ?_, ?_, hsuf⟩
      · rwa [List.append_nil, List.append_nil]
      · rw [List.append_nil]
        omega
    cases hts : tokens s with
    | nil =>
      obtain ⟨p, hg⟩ := gettoken_eof ((tokens_skip s).trans hts)
      have hB : Begins ['|', ')', '&', ';'] (tokens s) = false := by
        rw [hts]
        rfl
      rw [parseargs, peek_eq (by decide), hB]
      simp only [hg]
      exact hts ▸ hstop [] (by rw [hts]; rfl) List.nil_suffix
    | cons tok ts =>
      cases tok with
      | op o =>
        obtain ⟨p, r, hg, -⟩ := gettoken_op ((tokens_skip s).trans hts)
        rw [parseargs, peek_eq (by decide)]
        cases Begins ['|', ')', '&', ';'] (tokens s) with
        | true => exact hts ▸ hstop _ (tokens_skip s) (skip_suffix s)
        | false =>
          simp only [hg]
          exact Halt.noConfusion
      | word w =>
        obtain ⟨p, r, ht, hr, hp, hstep⟩ := parseargs_cons fuel argc c hts
        rw [hstep]
        split_ifs with hmax
        · exact Halt.noConfusion
        have hadd := Cmd.Rel.addArg hc (hp.mono hs)
        rw [addArg_redirect] at hadd
        refine (parseredirs_spec (by have := length_tokens_le r; omega) (hr.trans hs) hadd).bind ?_
        rintro ⟨c₁, s₁⟩ ⟨u, rs₁, hu, hrs₁, hc₁, hs₁⟩
        rw [← redirect_append] at hc₁
        refine (ih ?_ (hs₁.trans (hr.trans hs)) hc₁ ?_ (by omega)).mono ?_
        · rw [hts, ← ht, hu] at hfuel
          simp only [List.length_cons, List.length_append] at hfuel ⊢
          omega
        · simp [hargc]
        · rintro x ⟨v, ws', rs', hv, hws, hx, hlen, hsuf⟩
          have hcons : Words (.word w :: (u ++ v)) (w :: ws') (rs₁ ++ rs') := .cons hrs₁ hws
          refine ⟨_, _, _, ?_, hcons, ?_, ?_, hsuf.trans (hs₁.trans hr)⟩
          · rw [← ht, hu, hv]
            simp
          · simpa using hx
          · simpa using hlen

theorem begins_amp : Begins ['&'] u = true ↔ ∃ v, u = .op .amp :: v :=
  begins_op fun o => by cases o <;> decide

theorem begins_semi : Begins [';'] u = true ↔ ∃ v, u = .op .semi :: v :=
  begins_op fun o => by cases o <;> decide

theorem begins_pipe : Begins ['|'] u = true ↔ ∃ v, u = .op .pipe :: v :=
  begins_op fun o => by cases o <;> decide

theorem begins_lpar : Begins ['('] u = true ↔ ∃ v, u = .op .lpar :: v :=
  begins_op fun o => by cases o <;> decide

theorem begins_rpar : Begins [')'] u = true ↔ ∃ v, u = .op .rpar :: v :=
  begins_op fun o => by cases o <;> decide

/-- The token after a successful `peek`. -/
theorem gettoken_skip {o : Op} (h : tokens s = .op o :: u) :
    ∃ p r, gettoken (skip s) = (.op o, p, r) ∧ tokens r = u ∧ r <:+ s := by
  obtain ⟨p, r, hg, ht, hr⟩ := gettoken_op ((tokens_skip s).trans h)
  exact ⟨p, r, hg, ht, hr.trans (skip_suffix s)⟩

/-- The loop of `parseline` consumes the `&`s. -/
theorem parseback_eq (h : tokens s = List.replicate n (.op .amp) ++ v)
    (hv : Begins ['&'] v = false) (hfuel : n < fuel) :
    ∃ r, parseback fuel c s = pure (Cmd.back^[n] c, r) ∧ tokens r = v ∧ r <:+ s := by
  induction fuel generalizing s c n with
  | zero => omega
  | succ fuel ih =>
    rw [parseback, peek_eq (by decide)]
    cases n with
    | zero =>
      rw [h, List.replicate_zero, List.nil_append, hv]
      exact ⟨skip s, rfl, (tokens_skip s).trans h, skip_suffix s⟩
    | succ n =>
      obtain ⟨p, r, hg, ht, hr⟩ := gettoken_skip h
      obtain ⟨r', hb, ht', hr'⟩ := ih (c := c.back) ht (by omega)
      rw [begins_amp.mpr ⟨_, h⟩]
      simp only [hg]
      exact ⟨r', hb, ht', hr'.trans hr⟩

theorem exists_amps (u : List Tok) :
    ∃ n v, u = List.replicate n (.op .amp) ++ v ∧ Begins ['&'] v = false := by
  induction u with
  | nil => exact ⟨0, [], rfl, rfl⟩
  | cons a u ih =>
    cases hB : Begins ['&'] (a :: u) with
    | false => exact ⟨0, a :: u, rfl, hB⟩
    | true =>
      obtain ⟨v, hv⟩ := begins_amp.mp hB
      obtain ⟨n, v', rfl, hv'⟩ := ih
      cases hv
      exact ⟨n + 1, v', rfl, hv'⟩

/-- A parser returns a command that `k` derives from the tokens it consumes. -/
def Parses (k : Nonterm) (s : Str) (x : Cmd Span × Str) : Prop :=
  ∃ u t, tokens s = u ++ tokens x.2 ∧ Derives k u t ∧ t.Within (MAXARGS - 1) ∧ Spells s x.1 t ∧
    x.2 <:+ s

theorem parsepipe_step
    (hexec : ∀ s, 4 * (tokens s).length + 2 ≤ fuel → Outcome (Parses .exec s) (parseexec fuel s))
    (hpipe : ∀ s, 4 * (tokens s).length + 3 ≤ fuel → Outcome (Parses .pipe s) (parsepipe fuel s))
    (hfuel : 4 * (tokens s).length + 3 ≤ fuel + 1) :
    Outcome (Parses .pipe s) (parsepipe (fuel + 1) s) := by
  rw [parsepipe]
  apply (hexec s (by omega)).bind
  rintro ⟨c, r⟩ ⟨u, t, hu, hd, hw, hc, hr⟩
  dsimp only
  rw [peek_eq (by decide)]
  cases hB : Begins ['|'] (tokens r) with
  | false => exact ⟨u, t, hu.trans (by rw [tokens_skip]), .one hd, hw, hc, (skip_suffix r).trans hr⟩
  | true =>
    obtain ⟨v, hv⟩ := begins_pipe.mp hB
    obtain ⟨p, r₁, hg, ht₁, hr₁⟩ := gettoken_skip hv
    simp only [hg]
    apply (hpipe r₁ _).bind
    · rintro ⟨c', r'⟩ ⟨u', t', hu', hd', hw', hc', hr'⟩
      refine ⟨_, _, ?_, .pipe hd hd', ⟨hw, hw'⟩, .pipe hc (hc'.mono (hr₁.trans hr)),
        hr'.trans (hr₁.trans hr)⟩
      rw [hu, hv, ← ht₁, hu', List.append_assoc, List.cons_append]
    · rw [hu, hv, ← ht₁] at hfuel
      simp only [List.length_append, List.length_cons] at hfuel
      omega

theorem parseline_step
    (hpipe : ∀ s, 4 * (tokens s).length + 3 ≤ fuel → Outcome (Parses .pipe s) (parsepipe fuel s))
    (hline : ∀ s, 4 * (tokens s).length + 4 ≤ fuel → Outcome (Parses .line s) (parseline fuel s))
    (hfuel : 4 * (tokens s).length + 4 ≤ fuel + 1) :
    Outcome (Parses .line s) (parseline (fuel + 1) s) := by
  rw [parseline]
  apply (hpipe s (by omega)).bind
  rintro ⟨c, r⟩ ⟨u, t, hu, hd, hw, hc, hr⟩
  obtain ⟨n, v, hamps, hnot⟩ := exists_amps (tokens r)
  have hn : n < r.length + 1 := by
    have hle := length_tokens_le r
    rw [hamps, List.length_append, List.length_replicate] at hle
    omega
  obtain ⟨r₁, hback, hv, hr₁⟩ := parseback_eq (c := c) hamps hnot hn
  simp only [hback, pure_bind]
  rw [peek_eq (by decide)]
  rw [← within_backs n] at hw
  cases hB : Begins [';'] (tokens r₁) with
  | false =>
    refine ⟨_, _, ?_, .line n hd, hw, hc.backs n, (skip_suffix r₁).trans (hr₁.trans hr)⟩
    rw [tokens_skip, hu, hamps, hv, List.append_assoc]
  | true =>
    obtain ⟨v', hv'⟩ := begins_semi.mp hB
    obtain ⟨p, r₂, hg, ht₂, hr₂⟩ := gettoken_skip hv'
    have hsuf := hr₂.trans (hr₁.trans hr)
    have htok : tokens s = u ++ List.replicate n (.op .amp) ++ .op .semi :: tokens r₂ := by
      rw [hu, hamps, ← hv, hv', ht₂, List.append_assoc]
    simp only [hg]
    apply (hline r₂ _).bind
    · rintro ⟨c', r'⟩ ⟨u', t', hu', hd', hw', hc', hr'⟩
      refine ⟨_, _, ?_, .list n hd hd', ⟨hw, hw'⟩, .list (hc.backs n) (hc'.mono hsuf),
        hr'.trans hsuf⟩
      rw [htok, hu', List.append_assoc _ _ (tokens r'), List.cons_append]
    · rw [htok] at hfuel
      simp only [List.length_append, List.length_cons] at hfuel
      omega

theorem parseblock_step
    (hline : ∀ s, 4 * (tokens s).length + 4 ≤ fuel → Outcome (Parses .line s) (parseline fuel s))
    (hfuel : 4 * (tokens s).length + 1 ≤ fuel + 1) (hlpar : Begins ['('] (tokens s) = true) :
    Outcome (Parses .exec s) (parseblock (fuel + 1) s) := by
  obtain ⟨v, hv⟩ := begins_lpar.mp hlpar
  obtain ⟨p, r, hg, ht, hr⟩ := gettoken_skip hv
  rw [parseblock, peek_eq (by decide), hlpar]
  simp only [hg]
  apply (hline r _).bind
  · rintro ⟨c, r₁⟩ ⟨u, t, hu, hd, hw, hc, hr₁⟩
    dsimp only
    rw [peek_eq (by decide)]
    cases hB : Begins [')'] (tokens r₁) with
    | false => exact Halt.noConfusion
    | true =>
      obtain ⟨v', hv'⟩ := begins_rpar.mp hB
      obtain ⟨p', r₂, hg', ht₂, hr₂⟩ := gettoken_skip hv'
      have hsuf := hr₂.trans (hr₁.trans hr)
      simp only [hg']
      have hle := length_tokens_le r₂
      refine (parseredirs_spec (by omega) hsuf (hc.mono hr)).mono ?_
      rintro ⟨c', r'⟩ ⟨u', rs, hu', hrs, hc', hr'⟩
      refine ⟨_, _, ?_, .block hd hrs, (within_redirect rs).mpr hw, hc', hr'.trans hsuf⟩
      rw [hv, ← ht, hu, hv', ← ht₂, hu', List.cons_append, List.append_assoc, List.cons_append]
  · rw [hv, ← ht] at hfuel
    simp only [List.length_cons] at hfuel
    omega

theorem parseexec_step
    (hblock : ∀ s, Begins ['('] (tokens s) = true → 4 * (tokens s).length + 1 ≤ fuel →
      Outcome (Parses .exec s) (parseblock fuel s))
    (hfuel : 4 * (tokens s).length + 2 ≤ fuel + 1) :
    Outcome (Parses .exec s) (parseexec (fuel + 1) s) := by
  rw [parseexec, peek_eq (by decide)]
  have hskip := skip_suffix s
  have htok := tokens_skip s
  generalize skip s = q at hskip htok
  rw [← htok] at hfuel ⊢
  have hle := length_tokens_le q
  cases hB : Begins ['('] (tokens q) with
  | true =>
    refine (hblock q hB (by omega)).mono ?_
    rintro ⟨c, r⟩ ⟨u, t, hu, hd, hw, hc, hr⟩
    exact ⟨u, t, htok.symm.trans hu, hd, hw, hc.mono hskip, hr.trans hskip⟩
  | false =>
    refine (parseredirs_spec (t := .exec []) (by omega) hskip (.exec .nil)).bind ?_
    rintro ⟨c, r⟩ ⟨u, rs, hu, hrs, hc, hr⟩
    have hle' := length_tokens_le r
    refine (parseargs_spec (Nat.lt_succ_of_le hle') (hr.trans hskip) hc rfl (by decide)).mono ?_
    rintro ⟨c', r'⟩ ⟨v, ws, rs', hv, hws, hc', hlen, hr'⟩
    refine ⟨_, _, ?_, .simple hrs hws, (within_redirect _).mpr ?_, hc',
      hr'.trans (hr.trans hskip)⟩
    · rw [← htok, hu, hv, List.append_assoc]
    · exact Nat.le_pred_of_lt hlen

/-- With enough fuel the parser is not cut off, and it returns what the grammar derives. -/
theorem parses (fuel : ℕ) :
    (∀ s, 4 * (tokens s).length + 4 ≤ fuel → Outcome (Parses .line s) (parseline fuel s)) ∧
    (∀ s, 4 * (tokens s).length + 3 ≤ fuel → Outcome (Parses .pipe s) (parsepipe fuel s)) ∧
    (∀ s, 4 * (tokens s).length + 2 ≤ fuel → Outcome (Parses .exec s) (parseexec fuel s)) ∧
    ∀ s, Begins ['('] (tokens s) = true → 4 * (tokens s).length + 1 ≤ fuel →
      Outcome (Parses .exec s) (parseblock fuel s) := by
  induction fuel with
  | zero => exact ⟨by omega, by omega, by omega, by omega⟩
  | succ fuel ih =>
    obtain ⟨hline, hpipe, hexec, hblock⟩ := ih
    exact ⟨fun s => parseline_step hpipe hline, fun s => parsepipe_step hexec hpipe,
      fun s => parseexec_step hblock, fun s h hfuel => parseblock_step hline hfuel h⟩

/-! ## What the parser accepts -/

/-- The parser reaches `v` and returns a command that spells `t`. -/
def Accepts (s : Str) (v : List Tok) (t : Cmd Str) (m : Except Halt (Cmd Span × Str)) : Prop :=
  ∃ c r, m = pure (c, r) ∧ tokens r = v ∧ Spells s c t ∧ r <:+ s

/-- The characters that end what a nonterminal derives. -/
def Nonterm.stops : Nonterm → List Char
  | line => [')']
  | pipe => [')', '&', ';']
  | exec => ['|', ')', '&', ';']

/-- `v` can follow what `k` derives. -/
def Follows (k : Nonterm) (v : List Tok) : Prop := v = [] ∨ Begins k.stops v = true

variable {toks : List Char}

theorem Follows.begins {k : Nonterm} (h : Follows k v)
    (hk : ∀ o : Op, (k.stops.map chr).contains o.first = true →
      (toks.map chr).contains o.first = false) :
    Begins toks v = false := by
  rcases h with rfl | h
  · rfl
  · obtain ⟨o, v', rfl, ho⟩ := begins_cons h
    exact hk o ho

theorem Words.begins (h : Words u ws rs) (hv : Begins toks v = false) :
    Begins toks (u ++ v) = false := by
  cases h with
  | nil => exact hv
  | cons => rfl

theorem Redirs.begins (h : Redirs u rs) (hv : Begins toks v = false)
    (hd : ∀ d : Dir, (toks.map chr).contains d.op.first = false) :
    Begins toks (u ++ v) = false := by
  cases h with
  | nil => exact hv
  | cons => exact hd _

theorem parseredirs_accepts (hrs : Redirs u rs) (h : tokens s = u ++ v)
    (hv : Begins ['<', '>'] v = false) (hfuel : u.length < fuel) (hs : s <:+ s₀)
    (hc : Spells s₀ c t) : Accepts s₀ v (redirect rs t) (parseredirs fuel c s) := by
  induction hrs generalizing s c t fuel with
  | nil =>
    obtain ⟨fuel, rfl⟩ := Nat.exists_eq_add_of_lt hfuel
    rw [parseredirs, peek_eq (by decide), h, List.nil_append, hv]
    exact ⟨c, skip s, rfl, (tokens_skip s).trans h, hc, (skip_suffix s).trans hs⟩
  | @cons d w u rs hrs ih =>
    cases fuel with
    | zero => omega
    | succ fuel =>
      obtain ⟨p, r, ht, hr, hp, hstep⟩ := parseredirs_cons fuel c h
      rw [hstep]
      simp only [List.length_cons] at hfuel
      exact ih ht (by omega) (hr.trans hs) (.redir hc (hp.mono hs))

theorem parseargs_accepts {ws' : List Str} (hws : Words u ws' rs') (h : tokens s = u ++ v)
    (hv : Follows .exec v) (hfuel : u.length < fuel) (hs : s <:+ s₀)
    (hc : Spells s₀ c (redirect rs (.exec ws))) (hargc : ws.length = argc)
    (hlen : (ws ++ ws').length < MAXARGS) :
    Accepts s₀ v (redirect (rs ++ rs') (.exec (ws ++ ws'))) (parseargs fuel c argc s) := by
  induction hws generalizing s c ws rs argc fuel with
  | nil =>
    obtain ⟨fuel, rfl⟩ := Nat.exists_eq_add_of_lt hfuel
    rw [List.append_nil, List.append_nil, parseargs, peek_eq (by decide), h, List.nil_append]
    rcases hv with rfl | hv
    · obtain ⟨p, hg⟩ := gettoken_eof ((tokens_skip s).trans h)
      simp only [Begins, hg]
      exact ⟨c, [], rfl, rfl, hc, List.nil_suffix⟩
    · rw [show Begins ['|', ')', '&', ';'] v = true from hv]
      exact ⟨c, skip s, rfl, (tokens_skip s).trans h, hc, (skip_suffix s).trans hs⟩
  | @cons w u' v' ws' rs₁ rs' hrs hws ih =>
    cases fuel with
    | zero => omega
    | succ fuel =>
      rw [List.cons_append, List.append_assoc] at h
      obtain ⟨p, r, ht, hr, hp, hstep⟩ := parseargs_cons fuel argc c h
      simp only [List.length_cons, List.length_append] at hfuel hlen
      have hadd := Cmd.Rel.addArg hc (hp.mono hs)
      rw [addArg_redirect] at hadd
      have hnot : Begins ['<', '>'] (v' ++ v) = false :=
        hws.begins (hv.begins fun o => by cases o <;> decide)
      have hu : u'.length < r.length + 1 := by
        have hle := length_tokens_le r
        rw [ht, List.length_append] at hle
        omega
      obtain ⟨c₁, r₁, hm, ht₁, hc₁, hr₁⟩ :=
        parseredirs_accepts hrs ht hnot hu (hr.trans hs) hadd
      rw [hstep, if_neg (by omega), hm, pure_bind]
      rw [← redirect_append] at hc₁
      have hlen' : (ws ++ [w] ++ ws').length < MAXARGS := by
        simp only [List.length_append, List.length_cons, List.length_nil]
        omega
      have hrest : Accepts s₀ v _ (parseargs fuel c₁ (argc + 1) r₁) :=
        ih ht₁ (by omega) hr₁ hc₁ (by simp [hargc]) hlen'
      simpa using hrest

/-- The parser of a nonterminal. -/
def parse : Nonterm → ℕ → Str → Except Halt (Cmd Span × Str)
  | .line => parseline
  | .pipe => parsepipe
  | .exec => parseexec

/-- The fuel for `n` tokens. -/
def Nonterm.need (n : ℕ) : Nonterm → ℕ
  | line => 4 * n + 4
  | pipe => 4 * n + 3
  | exec => 4 * n + 2

theorem parseexec_simple (hrs : Redirs u rs) (hws : Words v ws rs') {v' : List Tok}
    (h : tokens s = u ++ v ++ v') (hv : Follows .exec v') (hlen : ws.length < MAXARGS) :
    Accepts s v' (redirect (rs ++ rs') (.exec ws)) (parseexec (fuel + 1) s) := by
  rw [List.append_assoc] at h
  have hdirs : Begins ['<', '>'] (v ++ v') = false :=
    hws.begins (hv.begins fun o => by cases o <;> decide)
  have hlpar : Begins ['('] (u ++ (v ++ v')) = false :=
    hrs.begins (hws.begins (hv.begins fun o => by cases o <;> decide))
      fun d => by cases d <;> decide
  have hu : u.length < (skip s).length + 1 := by
    have hle := length_tokens_le (skip s)
    rw [tokens_skip, h, List.length_append] at hle
    omega
  obtain ⟨c₁, r₁, hm, ht₁, hc₁, hr₁⟩ := parseredirs_accepts hrs ((tokens_skip s).trans h) hdirs hu
    (skip_suffix s) (Cmd.Rel.exec .nil)
  have hv₁ : v.length < r₁.length + 1 := by
    have hle := length_tokens_le r₁
    rw [ht₁, List.length_append] at hle
    omega
  rw [parseexec, peek_eq (by decide), h, hlpar]
  dsimp only
  rw [hm, pure_bind]
  exact parseargs_accepts hws ht₁ hv hv₁ hr₁ hc₁ rfl hlen

/-- A line up to the `&`s. -/
theorem parseline_backs (h : Accepts s (List.replicate n (.op .amp) ++ v) t (parsepipe fuel s))
    (hv : Begins ['&'] v = false) :
    ∃ c r, tokens r = v ∧ Spells s c (Cmd.back^[n] t) ∧ r <:+ s ∧
      parseline (fuel + 1) s =
        match Begins [';'] v with
        | true => parseline fuel (gettoken (skip r)).2.2 >>= fun x => pure (.list c x.1, x.2)
        | false => pure (c, skip r) := by
  obtain ⟨c, r, hm, ht, hc, hr⟩ := h
  have hn : n < r.length + 1 := by
    have hle := length_tokens_le r
    rw [ht, List.length_append, List.length_replicate] at hle
    omega
  obtain ⟨r₁, hback, ht₁, hr₁⟩ := parseback_eq (c := c) ht hv hn
  refine ⟨_, r₁, ht₁, hc.backs n, hr₁.trans hr, ?_⟩
  simp only [parseline, hm, pure_bind, hback]
  rw [peek_eq (by decide), ht₁]
  cases Begins [';'] v <;> rfl

theorem Follows.amps (hv : Follows .line v) (n : ℕ) :
    Follows .pipe (List.replicate n (.op .amp) ++ v) := by
  cases n with
  | zero =>
    rcases hv with rfl | hv
    · exact .inl rfl
    · obtain ⟨v, rfl⟩ := begins_rpar.mp hv
      exact .inr rfl
  | succ n => exact .inr rfl

theorem follows_amps_semi (n : ℕ) :
    Follows .pipe (List.replicate n (.op .amp) ++ .op .semi :: v) := by
  cases n <;> exact .inr rfl

theorem Follows.exec (hv : Follows .pipe v) : Follows .exec v := by
  rcases hv with rfl | hv
  · exact .inl rfl
  · obtain ⟨o, v, rfl, ho⟩ := begins_cons hv
    exact .inr (List.contains_cons.trans (Bool.or_eq_true_iff.mpr (.inr ho)))

theorem parse_accepts {k : Nonterm} (hd : Derives k u t) (h : tokens s = u ++ v)
    (hv : Follows k v) (hw : t.Within (MAXARGS - 1)) (hfuel : k.need u.length ≤ fuel) :
    Accepts s v t (parse k fuel s) := by
  induction hd generalizing s v fuel with
  | @line u t n _ ih =>
    cases fuel with
    | zero => simp [Nonterm.need] at hfuel
    | succ fuel =>
      rw [List.append_assoc] at h
      simp only [Nonterm.need, List.length_append, List.length_replicate] at hfuel
      have hneed : Nonterm.pipe.need u.length ≤ fuel := by
        simp only [Nonterm.need]
        omega
      obtain ⟨c, r, ht, hc, hr, hm⟩ := parseline_backs
        (ih h (hv.amps n) ((within_backs n).mp hw) hneed)
        (hv.begins fun o => by cases o <;> decide)
      rw [parse, hm, hv.begins fun o => by cases o <;> decide]
      exact ⟨c, _, rfl, (tokens_skip r).trans ht, hc, (skip_suffix r).trans hr⟩
  | @list u w t t' n _ _ ih ih' =>
    cases fuel with
    | zero => simp [Nonterm.need] at hfuel
    | succ fuel =>
      rw [List.append_assoc, List.append_assoc, List.cons_append] at h
      simp only [Nonterm.need, List.length_append, List.length_replicate,
        List.length_cons] at hfuel
      have hneed : Nonterm.pipe.need u.length ≤ fuel ∧ Nonterm.line.need w.length ≤ fuel := by
        simp only [Nonterm.need]
        omega
      obtain ⟨c, r, ht, hc, hr, hm⟩ := parseline_backs
        (ih h (follows_amps_semi n) ((within_backs n).mp hw.1) hneed.1) rfl
      obtain ⟨p, r₁, hg, ht₁, hr₁⟩ := gettoken_skip ht
      obtain ⟨c', r', hm', ht', hc', hr'⟩ := ih' ht₁ hv hw.2 hneed.2
      have hsuf := hr₁.trans hr
      rw [parse, hm, begins_semi.mpr ⟨_, rfl⟩]
      simp only [hg]
      rw [show parseline fuel r₁ = _ from hm', pure_bind]
      exact ⟨_, r', rfl, ht', .list hc (hc'.mono hsuf), hr'.trans hsuf⟩
  | @one u t _ ih =>
    cases fuel with
    | zero => simp [Nonterm.need] at hfuel
    | succ fuel =>
      obtain ⟨c, r, hm, ht, hc, hr⟩ := ih h hv.exec hw (Nat.le_of_succ_le_succ hfuel)
      rw [parse, parsepipe, show parseexec fuel s = _ from hm, pure_bind]
      dsimp only
      rw [peek_eq (by decide), ht, hv.begins fun o => by cases o <;> decide]
      exact ⟨c, _, rfl, (tokens_skip r).trans ht, hc, (skip_suffix r).trans hr⟩
  | @pipe u w t t' _ _ ih ih' =>
    cases fuel with
    | zero => simp [Nonterm.need] at hfuel
    | succ fuel =>
      rw [List.append_assoc, List.cons_append] at h
      simp only [Nonterm.need, List.length_append, List.length_cons] at hfuel
      have hneed : Nonterm.exec.need u.length ≤ fuel ∧ Nonterm.pipe.need w.length ≤ fuel := by
        simp only [Nonterm.need]
        omega
      obtain ⟨c, r, hm, ht, hc, hr⟩ := ih h (.inr rfl) hw.1 hneed.1
      obtain ⟨p, r₁, hg, ht₁, hr₁⟩ := gettoken_skip ht
      obtain ⟨c', r', hm', ht', hc', hr'⟩ := ih' ht₁ hv hw.2 hneed.2
      have hsuf := hr₁.trans hr
      rw [parse, parsepipe, show parseexec fuel s = _ from hm, pure_bind]
      dsimp only
      rw [peek_eq (by decide), begins_pipe.mpr ⟨_, ht⟩]
      simp only [hg]
      rw [show parsepipe fuel r₁ = _ from hm', pure_bind]
      exact ⟨_, r', rfl, ht', .pipe hc (hc'.mono hsuf), hr'.trans hsuf⟩
  | @block u w t rs _ hrs ih =>
    obtain ⟨fuel, rfl⟩ : ∃ m, fuel = m + 1 + 1 := by
      simp only [Nonterm.need] at hfuel
      exact ⟨fuel - 2, by omega⟩
    rw [List.cons_append, List.append_assoc, List.cons_append] at h
    simp only [Nonterm.need, List.length_append, List.length_cons] at hfuel
    obtain ⟨p, r, hg, ht, hr⟩ := gettoken_skip ((tokens_skip s).trans h)
    have hneed : Nonterm.line.need u.length ≤ fuel := by
      simp only [Nonterm.need]
      omega
    obtain ⟨c, r₁, hm, ht₁, hc, hr₁⟩ := ih ht (.inr rfl) ((within_redirect rs).mp hw) hneed
    obtain ⟨p', r₂, hg', ht₂, hr₂⟩ := gettoken_skip ht₁
    have hr := hr.trans (skip_suffix s)
    have hle := length_tokens_le r₂
    rw [ht₂, List.length_append] at hle
    rw [parse, parseexec, peek_eq (by decide), begins_lpar.mpr ⟨_, h⟩]
    dsimp only
    rw [parseblock, peek_eq (by decide), begins_lpar.mpr ⟨_, (tokens_skip s).trans h⟩]
    simp only [hg]
    rw [show parseline fuel r = _ from hm, pure_bind]
    dsimp only
    rw [peek_eq (by decide), begins_rpar.mpr ⟨_, ht₁⟩]
    simp only [hg']
    exact parseredirs_accepts hrs ht₂ (hv.begins fun o => by cases o <;> decide) (by omega)
      (hr₂.trans (hr₁.trans hr)) (hc.mono hr)
  | @simple u w ws rs rs' hrs hws =>
    cases fuel with
    | zero => simp [Nonterm.need] at hfuel
    | succ fuel =>
      exact parseexec_simple hrs hws h hv (Nat.lt_of_le_pred (by decide) ((within_redirect _).mp hw))

end Xv6.Shell

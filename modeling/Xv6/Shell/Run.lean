import Xv6.Shell.Language

/-! # Running the commands of the shell

`runcmd` walks down the tree with a table of descriptors. It opens the file of a
redirection before it goes on to the command inside, so the redirection that the
parser met first, which is the innermost, has the last word.
-/

namespace Xv6.Shell

open Function

/-- What a descriptor stands for. A pipe is named by the place of its node in the tree. -/
inductive Desc
  | initial (fd : ℕ)
  | file (name : Str) (mode : ℕ)
  | pipe (node : List Bool) (write : Bool)
  deriving DecidableEq, Repr

/-- The open descriptors of a process. -/
abbrev Table := ℕ → Option Desc

namespace Table

/-- The lowest descriptor that is free. -/
def fdalloc (t : Table) : Option ℕ := (List.range NOFILE).find? fun fd => (t fd).isNone

/-- The lowest free descriptor is used for `d`. -/
def place (d : Option Desc) (t : Table) : Option (ℕ × Table) :=
  t.fdalloc.map fun fd => (fd, update t fd d)

def close (fd : ℕ) (t : Table) : Table := update t fd none

/-- `dup` has no effect if no descriptor is free. -/
def dup (fd : ℕ) (t : Table) : Table := ((t.place (t fd)).map Prod.snd).getD t

end Table

/-- The calls of `runcmd` that a call makes, itself first, each with its node of the tree and the
descriptors of the process that makes it. Every `fork` succeeds, and `open` and `pipe` succeed if
there are free descriptors. -/
def runcmd (node : List Bool) : Cmd Str → Table → List (Cmd Str × Table)
  | .exec argv, t => [(.exec argv, t)]
  | .redir c file mode fd, t =>
    (.redir c file mode fd, t) ::
      match (t.close fd).place (some (.file file mode)) with
      | none => []
      | some (_, t) => runcmd node c t
  | .list l r, t => (.list l r, t) :: (runcmd (false :: node) l t ++ runcmd (true :: node) r t)
  | .pipe l r, t =>
    (.pipe l r, t) ::
      match t.place (some (.pipe node false)) with
      | none => []
      | some (p₀, t) =>
        match t.place (some (.pipe node true)) with
        | none => []
        | some (p₁, t) =>
          runcmd (false :: node) l ((((t.close 1).dup p₁).close p₀).close p₁) ++
            runcmd (true :: node) r ((((t.close 0).dup p₀).close p₀).close p₁)
  | .back c, t => (.back c, t) :: runcmd (false :: node) c t

variable {node : List Bool} {c : Cmd Str} {t : Table} {rs : List (Dir × Str)} {fd : ℕ} {d : Desc}

theorem head_runcmd : (runcmd node c t)[0]? = some (c, t) := by
  cases c <;> rfl

/-- The descriptors 0, 1 and 2 are open. -/
def Table.Standard (t : Table) : Prop := ∀ fd ≤ 2, (t fd).isSome

theorem Table.Standard.set (h : t.Standard) :
    Table.Standard (update t fd (some d)) := by
  intro fd' hfd
  rcases eq_or_ne fd' fd with rfl | hne
  · rw [update_self, Option.isSome_some]
  · rw [update_of_ne hne]
    exact h fd' hfd

/-- A descriptor that has been closed is the next to be used. -/
theorem Table.Standard.reopen (h : t.Standard) (hfd : fd ≤ 2) :
    (t.close fd).place (some d) = some (fd, update t fd (some d)) := by
  have halloc : (t.close fd).fdalloc = some fd := by
    rw [fdalloc, List.find?_range_eq_some, List.mem_range]
    refine ⟨by simp [close], by unfold NOFILE; omega, fun j hj => ?_⟩
    have hsome := h j (by omega)
    rw [close, update_of_ne (by omega), Option.isNone_eq_false_iff.mpr hsome, Bool.not_false]
  rw [place, halloc, Option.map_some, close, update_idem]

/-! ## Redirections -/

theorem Dir.fd_le (d : Dir) : d.fd ≤ 2 := by
  cases d <;> decide

/-- The descriptors of a command that is run inside of redirections. -/
def reopened (rs : List (Dir × Str)) (t : Table) : Table :=
  rs.foldr (fun r t => update t r.1.fd (some (.file r.2 r.1.mode))) t

theorem runcmd_redirect (rs : List (Dir × Str)) (h : t.Standard) :
    (runcmd node (redirect rs c) t)[rs.length]? = some (c, reopened rs t) := by
  induction rs using List.reverseRecOn generalizing t with
  | nil => exact head_runcmd
  | append_singleton rs r ih =>
    rw [redirect_append, List.length_append, List.length_singleton, reopened, List.foldr_append]
    show (runcmd node (.redir (redirect rs c) r.2 r.1.mode r.1.fd) t)[rs.length + 1]? = _
    rw [runcmd, h.reopen r.1.fd_le, List.getElem?_cons_succ]
    exact ih h.set

/-- The redirections of a descriptor, in their order. -/
def Dir.on (fd : ℕ) (rs : List (Dir × Str)) : List (Dir × Str) := rs.filter fun r => r.1.fd = fd

theorem reopened_apply (rs : List (Dir × Str)) (t : Table) (fd : ℕ) : reopened rs t fd =
    (((Dir.on fd rs).head?).map fun r => Desc.file r.2 r.1.mode).or (t fd) := by
  induction rs with
  | nil => rfl
  | cons r rs ih =>
    by_cases h : r.1.fd = fd
    · simp [reopened, Dir.on, h]
    · have hon : Dir.on fd (r :: rs) = Dir.on fd rs := List.filter_cons_of_neg (by simpa using h)
      rw [hon, ← ih, reopened, List.foldr_cons, update_of_ne (Ne.symm h), reopened]

/-- A simple command or a block, with its redirections from left to right. -/
inductive Redirected : List Tok → List (Dir × Str) → Cmd Str → Prop
  | simple {u v : List Tok} {ws : List Str} {rs rs' : List (Dir × Str)} : Redirs u rs →
      Words v ws rs' → Redirected (u ++ v) (rs ++ rs') (.exec ws)
  | block {u v : List Tok} {c : Cmd Str} {rs : List (Dir × Str)} : Derives .line u c →
      Redirs v rs → Redirected (.op .lpar :: (u ++ .op .rpar :: v)) rs c

theorem Redirected.derives {ts : List Tok} (h : Redirected ts rs c) :
    Derives .line ts (redirect rs c) := by
  have hexec : Derives .exec ts (redirect rs c) := by
    cases h with
    | simple h h' => exact .simple h h'
    | block h h' => exact .block h h'
  simpa using Derives.line 0 (.one hexec)

/-- The command runs with each descriptor on the file of its last redirection just if that is also
the file of its first one. -/
theorem redirections_left_to_right_iff (s : Str) (hs : 0 ∉ s) (rs : List (Dir × Str)) (c : Cmd Str)
    (h : Redirected (tokens s) rs c) (hw : c.Within (MAXARGS - 1)) (t : Table) (ht : t.Standard) :
    ∃ tree t', parsecmd s = .ok tree ∧ (runcmd [] tree t)[rs.length]? = some (c, t') ∧
      ((∀ fd, ∀ r ∈ (Dir.on fd rs).getLast?, ∃ mode, t' fd = some (.file r.2 mode)) ↔
        ∀ fd, ((Dir.on fd rs).head?).map Prod.snd = ((Dir.on fd rs).getLast?).map Prod.snd) := by
  refine ⟨_, _, parsecmd_eq hs h.derives ((within_redirect rs).mpr hw), runcmd_redirect rs ht, ?_⟩
  refine forall_congr' fun fd => ?_
  rw [reopened_apply]
  cases Dir.on fd rs with
  | nil => simp
  | cons r rs' =>
    obtain ⟨l, hl⟩ : ∃ l, (r :: rs').getLast? = some l :=
      ⟨_, List.getLast?_eq_some_getLast (List.cons_ne_nil r rs')⟩
    simp [hl]

/-- What the shell is started with. -/
def initialTable : Table := fun fd => if fd ≤ 2 then some (.initial fd) else none

theorem standard_initialTable : initialTable.Standard := by
  intro fd hfd
  rw [initialTable, if_pos hfd, Option.isSome_some]

/-- `a <b >c` -/
theorem redirections_left_to_right_iff_two : ∃ s : Str, 0 ∉ s ∧ ∃ tree t',
    parsecmd s = .ok tree ∧ (runcmd [] tree initialTable)[2]? = some (.exec [[chr 'a']], t') ∧
    ∃ mode, t' 0 = some (.file [chr 'b'] mode) := by
  have htok : tokens ("a <b >c".toList.map chr) = [] ++ .word [chr 'a'] ::
      ([.op Dir.input.op, .word [chr 'b'], .op Dir.output.op, .word [chr 'c']] ++ []) := by
    decide +kernel
  have h : Redirected (tokens ("a <b >c".toList.map chr))
      ([] ++ ([(.input, [chr 'b']), (.output, [chr 'c'])] ++ [])) (.exec [[chr 'a']]) := by
    rw [htok]
    exact .simple .nil (.cons (.cons (.cons .nil)) .nil)
  have hw : Cmd.Within (MAXARGS - 1) (.exec [[chr 'a']]) := show 1 ≤ MAXARGS - 1 by decide
  obtain ⟨tree, t', hp, hr, hiff⟩ := redirections_left_to_right_iff _ (by decide) _ _ h hw _
    standard_initialTable
  refine ⟨_, by decide, tree, t', hp, hr, hiff.mpr (fun fd => ?_) 0 _ rfl⟩
  by_cases h0 : fd = 0
  · subst h0
    rfl
  · by_cases h1 : fd = 1
    · subst h1
      rfl
    · simp [Dir.on, Dir.fd, Ne.symm h0, Ne.symm h1]

/-- `a <b <c` runs with descriptor 0 on `b`. -/
theorem redirections_first_wins : ∃ tree t',
    parsecmd ("a <b <c".toList.map chr) = .ok tree ∧
    (runcmd [] tree initialTable)[2]? = some (.exec [[chr 'a']], t') ∧
    t' 0 = some (.file [chr 'b'] O_RDONLY) ∧ ∀ mode, t' 0 ≠ some (.file [chr 'c'] mode) := by
  have h : parsecmd ("a <b <c".toList.map chr) =
      .ok (redirect [(.input, [chr 'b']), (.input, [chr 'c'])] (.exec [[chr 'a']])) := by
    decide +kernel
  have h0 := reopened_apply [(.input, [chr 'b']), (.input, [chr 'c'])] initialTable 0
  refine ⟨_, _, h, runcmd_redirect _ standard_initialTable, h0, fun mode hm => ?_⟩
  have hfile : Desc.file [chr 'b'] O_RDONLY = .file [chr 'c'] mode :=
    Option.some.inj (h0.symm.trans hm)
  injection hfile with hname
  exact absurd hname (by decide)

end Xv6.Shell

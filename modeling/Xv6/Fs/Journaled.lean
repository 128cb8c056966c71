import Xv6.Fs.Alloc

/-! # Changed buffers are logged

A buffer that `balloc`, `bmap` or `iupdate` changes is passed to `log_write`
before the function returns, whatever the state it starts in.
-/

namespace Xv6.Fs

variable {α β : Type} {sb : Superblock} {s s' s'' : State} {b : ℕ} {ip : Iptr}

/-- Every buffer changed between `s` and `s'` is in the log header, and none has left it. -/
structure Journaled (sb : Superblock) (s s' : State) : Prop where
  kept : ∀ b ∈ s.log.lh, b ∈ s'.log.lh
  data : ∀ b, s'.disk.data b ≠ s.disk.data b → b ∈ s'.log.lh
  bitmap : ∀ b, s'.disk.bitmap b ≠ s.disk.bitmap b → bblock sb b ∈ s'.log.lh
  dinode : ∀ i, s'.disk.dinode i ≠ s.disk.dinode i → iblock sb i ∈ s'.log.lh

/-- `s'` differs from `s` in the buffer of block `b` and in nothing that the log keeps. -/
structure Touched (sb : Superblock) (b : ℕ) (s s' : State) : Prop where
  log : s'.log = s.log
  data : ∀ c, s'.disk.data c ≠ s.disk.data c → c = b
  bitmap : ∀ c, s'.disk.bitmap c ≠ s.disk.bitmap c → bblock sb c = b
  dinode : ∀ i, s'.disk.dinode i ≠ s.disk.dinode i → iblock sb i = b

theorem touched_setData (b : ℕ) (blk : Block) : Touched sb b s (s.setData b blk) := by
  refine ⟨rfl, fun c hc => ?_, fun c hc => absurd rfl hc, fun i hi => absurd rfl hi⟩
  by_contra hne
  exact hc (Function.update_of_ne hne ..)

theorem touched_setBit (b : ℕ) (v : Bool) : Touched sb (bblock sb b) s (s.setBit b v) := by
  refine ⟨rfl, fun c hc => absurd rfl hc, fun c hc => ?_, fun i hi => absurd rfl hi⟩
  rcases eq_or_ne c b with rfl | hne
  · rfl
  · exact absurd (Function.update_of_ne hne ..) hc

theorem touched_setDinode (i : ℕ) (d : Dinode) :
    Touched sb (iblock sb i) s (s.setDinode i d) := by
  refine ⟨rfl, fun c hc => absurd rfl hc, fun c hc => absurd rfl hc, fun j hj => ?_⟩
  rcases eq_or_ne j i with rfl | hne
  · rfl
  · exact absurd (Function.update_of_ne hne ..) hj

namespace Journaled

theorem refl (s : State) : Journaled sb s s :=
  ⟨fun _ h => h, fun _ h => absurd rfl h, fun _ h => absurd rfl h, fun _ h => absurd rfl h⟩

theorem trans (h : Journaled sb s s') (h' : Journaled sb s' s'') : Journaled sb s s'' where
  kept b hb := h'.kept b (h.kept b hb)
  data b hb := by
    by_cases he : s''.disk.data b = s'.disk.data b
    · exact h'.kept b (h.data b (he ▸ hb))
    · exact h'.data b he
  bitmap b hb := by
    by_cases he : s''.disk.bitmap b = s'.disk.bitmap b
    · exact h'.kept _ (h.bitmap b (he ▸ hb))
    · exact h'.bitmap b he
  dinode i hi := by
    by_cases he : s''.disk.dinode i = s'.disk.dinode i
    · exact h'.kept _ (h.dinode i (he ▸ hi))
    · exact h'.dinode i he

/-- The inode table and the locks of the buffers do not matter. -/
theorem of_eq (hd : s'.disk = s.disk) (hl : s'.log = s.log) : Journaled sb s s' := by
  refine ⟨fun b hb => hl ▸ hb, fun b h => ?_, fun b h => ?_, fun b h => ?_⟩ <;>
    exact absurd (by rw [hd]) h

/-- A change to one buffer, which is then logged. -/
theorem of_touched {l : Buffer.Log} (h : Touched sb b s s') (hb : b ∈ l.lh)
    (hl : ∀ c ∈ s.log.lh, c ∈ l.lh) : Journaled sb s (s'.setLog l) where
  kept := hl
  data c hc := h.data c hc ▸ hb
  bitmap c hc := h.bitmap c hc ▸ hb
  dinode i hi := h.dinode i hi ▸ hb

end Journaled

/-- If `m` returns, it has logged every buffer it changed. -/
def Journals (sb : Superblock) (m : K α) : Prop :=
  ∀ s, wp m (fun _ _ => True) (fun _ s' => Journaled sb s s') s

namespace Journals

variable {m : K α} {k : α → K β}

theorem pure (a : α) : Journals sb (Pure.pure a : K α) := fun s => .refl s

theorem bind (hm : Journals sb m) (hk : ∀ a, Journals sb (k a)) : Journals sb (m >>= k) := by
  intro s
  rw [wp_bind]
  exact (hm s).post fun a s₁ h₁ => (hk a s₁).post fun _ _ h₂ => h₁.trans h₂

theorem ite {c : Prop} [Decidable c] {m' : K α} (hm : Journals sb m) (hm' : Journals sb m') :
    Journals sb (if c then m else m') := by
  split_ifs
  · exact hm
  · exact hm'

theorem runIf {c : Prop} [Decidable c] {m : K Unit} (hm : Journals sb m) :
    Journals sb (runIf c m) :=
  ite hm (pure ())

theorem getInode (ip : Iptr) : Journals sb (getInode ip) := fun s => .refl s

theorem get : Journals sb (MonadState.get : K State) := fun s => .refl s

theorem modifyInode (ip : Iptr) (f : Inode → Inode) : Journals sb (modifyInode ip f) :=
  fun _ => .of_eq rfl rfl

theorem bread (b : ℕ) : Journals sb (bread b) := by
  intro s
  unfold wp Fs.bread
  split_ifs
  · trivial
  · exact .of_eq rfl rfl

theorem brelse (b : ℕ) : Journals sb (brelse b) := by
  intro s
  unfold wp Fs.brelse
  split_ifs
  · exact .of_eq rfl rfl
  · trivial

/-- A store into a buffer followed by `log_write`. -/
theorem log {f : State → State} (hf : ∀ s, Touched sb b s (f s)) :
    Journals sb (do modify f; logWrite b) := by
  intro s
  rw [wp_bind, wp_modify]
  unfold wp logWrite Journal.logWrite
  split_ifs with h₁ h₂ h₃
  · trivial
  · trivial
  · exact .of_touched (hf s) h₃ fun c hc => by rwa [(hf s).log]
  · exact .of_touched (hf s) (by simp) fun c hc => by simp [(hf s).log, hc]

theorem store {f : State → State} (hf : ∀ s, Touched sb b s (f s)) {k : Unit → K β}
    (hk : ∀ u, Journals sb (k u)) :
    Journals sb (do modify f; let u ← logWrite b; k u) := by
  have := (log hf).bind hk
  rwa [bind_assoc] at this

end Journals

theorem journals_bzero (b : ℕ) : Journals sb (bzero b) :=
  .bind (.bread b) fun _ => .store (fun _ => touched_setData ..) fun _ => .brelse b

theorem clearBit_lt {bitmap : ℕ → Bool} {bi : ℕ} (h : clearBit sb bitmap b = some bi) :
    bi < BPB := by
  have := List.mem_range.mp (List.mem_of_find?_eq_some h)
  omega

theorem journals_ballocFrom {bs : List ℕ} (hbs : ∀ b ∈ bs, b % BPB = 0) :
    Journals sb (ballocFrom sb bs) := by
  induction bs with
  | nil => exact .pure 0
  | cons b bs ih =>
    refine .bind (.bread _) fun _ => .bind .get fun s => ?_
    cases hc : clearBit sb s.disk.bitmap b with
    | none =>
      exact .bind (.brelse _) fun _ => ih fun c hc => hbs c (List.mem_cons_of_mem _ hc)
    | some bi =>
      have hblock : bblock sb (b + bi) = bblock sb b := by
        have h₁ := hbs b List.mem_cons_self
        have h₂ := clearBit_lt hc
        unfold bblock BPB BSIZE at *
        omega
      refine .store (fun _ => ?_) fun _ => .bind (.brelse _) fun _ =>
        .bind (journals_bzero _) fun _ => .pure _
      rw [← hblock]
      exact touched_setBit ..

theorem journals_balloc : Journals sb (balloc sb) := by
  refine journals_ballocFrom fun b hb => ?_
  obtain ⟨k, -, rfl⟩ := List.mem_map.mp hb
  exact Nat.mul_mod_left ..

theorem journals_bmapAddr (ip : Iptr) (k : ℕ) : Journals sb (bmapAddr sb ip k) :=
  .bind (.getInode ip) fun _ => .ite (.pure _) <| .bind journals_balloc fun _ =>
    .bind (.runIf (.modifyInode ip _)) fun _ => .pure _

theorem journals_bmapEntry (ind j : ℕ) : Journals sb (bmapEntry sb ind j) := by
  refine .bind (.bread _) fun a => .ite (.bind (.brelse _) fun _ => .pure _) <|
    .bind journals_balloc fun _ => .bind (.runIf ?_) fun _ => .bind (.brelse _) fun _ => .pure _
  exact .log fun _ => touched_setData ..

theorem journals_bmap (ip : Iptr) (bn : ℕ) : Journals sb (bmap sb ip bn) :=
  .ite (journals_bmapAddr ip bn) <| .ite
    (.bind (journals_bmapAddr ip _) fun ind => .ite (.pure 0) (journals_bmapEntry ind _))
    fun _ => trivial

theorem journals_iupdate (ip : Iptr) : Journals sb (iupdate sb ip) :=
  .bind (.getInode ip) fun _ => .bind (.bread _) fun _ =>
    .store (fun _ => touched_setDinode ..) fun _ => .brelse _

end Xv6.Fs

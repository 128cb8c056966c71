import Mathlib.Data.List.GetD
import Xv6.Vm.UserCopy

/-! # The stack of a new program

`exec` pushes the argument strings and then the array of their addresses onto a stack of
one page. The page below it is a guard that the user cannot access.
-/

namespace Xv6.Vm

open Sys (Pptr)

variable {s s₁ s' : Mem} {H O : Multiset ℕ} {r tf k sz va n v sp base top : ℕ} {m m' : ℕ → ℕ}
  {file : List UInt8} {argv : List (List UInt8)} {blocks : List (ℕ × List UInt8)} {ustack : List ℕ}

/-! ## The phases of `exec` -/

def elfhdr (file : List UInt8) : Bytes ELFHDR := Bytes.zero.fill (readi file 0 ELFHDR)

/-- The steps of a call that succeeds with the new page table, its size and `argc`. -/
structure Phases (r sz tf : ℕ) (file : List UInt8) (argv : List (List UInt8)) (b : ℕ × ℕ × ℕ)
    (s s₁ s₂ s₃ s' : Mem) (sz₂ sp : ℕ) : Prop where
  table : procPagetable tf s = .ok (some b.1) s₁
  load : loadFrom b.1 file ((elfhdr file).get16 56) ((elfhdr file).get64 32) 0 s₁ =
    .ok (true, sz₂) s₂
  stack : execStack b.1 sz₂ argv s₂ = .ok (some (sp, b.2.2), b.2.1) s₃
  free : procFreepagetable r sz (s₃.put tf (startPage (s₃.page tf) ((elfhdr file).get64 24) sp)) =
    .ok () s'

variable {b : ℕ × ℕ × ℕ}

theorem exec_phases (h : exec r sz tf (some file) argv s = .ok (some b) s') :
    ∃ s₁ s₂ s₃ sz₂ sp, Phases r sz tf file argv b s s₁ s₂ s₃ s' sz₂ sp := by
  have key : Ensures (exec r sz tf (some file) argv) (fun o t => ∀ b ∈ o, ∃ s₁ s₂ s₃ sz₂ sp,
      Phases r sz tf file argv b s s₁ s₂ s₃ t sz₂ sp) s := by
    rw [exec]
    split
    · exact nofun
    split
    · exact nofun
    rw [Ensures, wp_bind, wp_iff]
    refine ⟨fun o s₁ h₁ => ?_, fun _ _ _ => trivial⟩
    cases o with
    | none => exact nofun
    | some new =>
      rw [wp_bind, wp_iff]
      refine ⟨fun load s₂ h₂ => ?_, fun _ _ _ => trivial⟩
      split
      · rw [wp_bind, wp_iff]
        exact ⟨fun _ _ _ => nofun, fun _ _ _ => trivial⟩
      next hload =>
        rw [wp_bind, wp_iff]
        refine ⟨fun stack s₃ h₃ => ?_, fun _ _ _ => trivial⟩
        split
        · rw [wp_bind, wp_iff]
          exact ⟨fun _ _ _ => nofun, fun _ _ _ => trivial⟩
        next sp hsp =>
          refine wp_setRegs ?_
          rw [wp_bind, wp_iff]
          refine ⟨fun _ t h₄ => ?_, fun _ _ _ => trivial⟩
          rintro b ⟨⟩
          refine ⟨s₁, s₂, s₃, load.2, sp.1, h₁, ?_, ?_, h₄⟩
          · rw [show (true, load.2) = load from Prod.ext (Bool.eq_true_of_not_eq_false hload).symm rfl]
            exact h₂
          · rw [show ((some (sp.1, sp.2), stack.2) : Option (ℕ × ℕ) × ℕ) = stack from
              Prod.ext hsp.symm rfl]
            exact h₃
  exact key.ok h b rfl

variable {H₀ : Multiset ℕ}

/-- The new address space through the phases. -/
theorem Phases.image {s₂ s₃ : Mem} {sz₂ sp : ℕ} (hH : H = {tf} + H₀)
    (h : Image s r tf (pg sz) H O m) (hp : Phases r sz tf file argv b s s₁ s₂ s₃ s' sz₂ sp) :
    ∃ X O₁ m₁, Image s₁ b.1 tf (pg 0) X O₁ m₁ ∧ ∀ k O' m', Image s₃ b.1 tf k X O' m' →
      Image s' b.1 tf k H O' m' ∧ Frame s₃ s' (O' + (mapped m' 0 k + H₀)) ∧
        s'.page tf = startPage (s₃.page tf) ((elfhdr file).get64 24) sp := by
  have htf : tf < 2 ^ 56 := by
    refine h.own.lt ?_
    rw [hH]
    simp
  obtain ⟨hf₁, O₁, m₁, ho₁, ht₁, hm₁⟩ := (wp_procPagetable h.own htf).ok hp.table
  have hi₁ : Image s₁ b.1 tf (pg 0) (O + (mapped m 0 (pg sz) + H)) O₁ m₁ := by
    refine ⟨ht₁, hf₁.image ▸ hm₁, ?_⟩
    rw [show pg 0 = 0 from rfl, mapped_zero, zero_add]
    exact ho₁
  obtain ⟨hf₂, O₂, m₂, hi₂⟩ := (wp_loadFrom hi₁ nofun).ok hp.load
  obtain ⟨hf₃, -⟩ := (wp_execStack hi₂).ok hp.stack
  have hf := (hf₁.trans hf₂).trans hf₃
  have ht : Table s₃ r m O := h.table.congr hf fun x hx => Multiset.mem_add.mpr (.inl hx)
  exact ⟨_, O₁, m₁, hi₁, fun k O' m' hi =>
    (wp_commit hH _ hi ht (hf.image ▸ h.maps)).ok hp.free⟩

theorem Image.byte_eq (h : Image s r tf k H O m) (hva : va / PGSIZE < k) :
    s.byte r va = (s.page (PTE2PA (m (va / PGSIZE)))).get (va % PGSIZE) := by
  have hlt : va < MAXVA := by
    have := h.maps.le
    unfold MAXVA PGSIZE at *
    omega
  rw [Mem.byte, Mem.frame, h.entry_eq hlt]

/-- A copy changes the bytes of its range only. -/
theorem Copied.byte_of_notMem {dst : ℕ} {src : List UInt8} (hs : Separate s r)
    (h : Copied s s' r dst src n) (ha : ∀ i < n, s.Access r (dst + i)) (hva : s.Access r va)
    (hout : ∀ i < n, dst + i ≠ va) : s'.byte r va = s.byte r va := by
  rw [Mem.byte, Mem.frame_congr (h.table hs ha)]
  exact h.outside _ _ fun i hi => hs.place_ne (ha i hi) hva (hout i hi)

/-! ## Blocks on the stack -/

/-- Blocks of bytes at their addresses between `sp` and `top`, each below the one before it. -/
structure Stack (s : Mem) (r sp top : ℕ) (blocks : List (ℕ × List UInt8)) : Prop where
  inside : ∀ b ∈ blocks, sp ≤ b.1 ∧ b.1 + b.2.length ≤ top
  bytes : ∀ b ∈ blocks, ∀ i < b.2.length, s.byte r (b.1 + i) = b.2.getD i 0
  apart : blocks.Pairwise fun b b' => b'.1 + b'.2.length ≤ b.1

theorem Stack.nil : Stack s r sp top [] := ⟨nofun, nofun, .nil⟩

theorem Stack.push {a : ℕ} {bs : List UInt8} (h : Stack s r sp top blocks) (hs : Separate s r)
    (hacc : ∀ va, a ≤ va → va < top → s.Access r va) (hcopy : Copied s s' r a bs bs.length)
    (hle : a + bs.length ≤ sp) (htop : sp ≤ top) : Stack s' r a top (blocks ++ [(a, bs)]) := by
  have hnew : ∀ i < bs.length, s.Access r (a + i) := fun i hi => hacc _ (by omega) (by omega)
  constructor
  · intro b hb
    rcases List.mem_append.mp hb with hb | hb
    · have := h.inside b hb
      exact ⟨by omega, this.2⟩
    · obtain rfl := List.mem_singleton.mp hb
      exact ⟨le_rfl, hle.trans htop⟩
  · intro b hb i hi
    rcases List.mem_append.mp hb with hb | hb
    · have hin := h.inside b hb
      rw [hcopy.byte_of_notMem hs hnew (hacc _ (by omega) (by omega)) fun j hj => by omega]
      exact h.bytes b hb i hi
    · obtain rfl := List.mem_singleton.mp hb
      exact hcopy.byte_eq hs hnew hi
  · refine List.pairwise_append.mpr ⟨h.apart, List.pairwise_singleton .., fun b hb b' hb' => ?_⟩
    obtain rfl := List.mem_singleton.mp hb'
    exact hle.trans (h.inside b hb).1

/-- What a step of building the stack on page `v` keeps. -/
structure Pushed (s s' : Mem) (q : ℕ) : Prop where
  free : s'.free = s.free
  image : s'.image = s.image
  page : ∀ x ≠ q, s'.page x = s.page x

theorem Pushed.refl (s : Mem) (q : ℕ) : Pushed s s q := ⟨rfl, rfl, fun _ _ => rfl⟩

theorem Pushed.trans {s'' : Mem} {q : ℕ} (h : Pushed s s' q) (h' : Pushed s' s'' q) :
    Pushed s s'' q :=
  ⟨h'.free.trans h.free, h'.image.trans h.image, fun x hx => (h'.page x hx).trans (h.page x hx)⟩

theorem Image.pushed {q : ℕ} (h : Image s r tf k H O m) (hq : q ∈ mapped m 0 k)
    (hp : Pushed s s' q) : Image s' r tf k H O m := by
  have hf := h.frame_put hq (s'.page q)
  have hput : ∀ x, s'.page x = (s.put q (s'.page q)).page x := fun x => by
    rcases eq_or_ne x q with rfl | hne
    · rw [put_page_self]
    · rw [put_page_of_ne hne, hp.page x hne]
  refine h.congr (X := H) ⟨hp.image, fun x hx => ?_, fun x hx => ?_⟩ hp.free
  · rw [hput, hf.page x hx]
  · rw [hput, hf.outside x hx]

/-- The stack page is page `v` of the user. -/
structure OnPage (s : Mem) (r tf k : ℕ) (H O : Multiset ℕ) (m : ℕ → ℕ) (v : ℕ) : Prop where
  image : Image s r tf k H O m
  lt : v < k
  user : m v &&& PTE_U ≠ 0

theorem OnPage.access (h : OnPage s r tf k H O m v) (hlo : v * PGSIZE ≤ va)
    (hhi : va < (v + 1) * PGSIZE) : s.Access r va ∧ s.frame r va = PTE2PA (m v) := by
  have hv : va / PGSIZE = v := by
    unfold PGSIZE at *
    omega
  have ha : s.Access r va := h.image.access_iff.mpr ⟨hv ▸ h.lt, hv.symm ▸ h.user⟩
  exact ⟨ha, by rw [Mem.frame, h.image.entry_eq ha.1, hv]⟩

/-- A block is pushed. -/
theorem OnPage.copy {a : ℕ} {bs : List UInt8} (h : OnPage s r tf k H O m v)
    (hst : Stack s r sp ((v + 1) * PGSIZE) blocks) (hlo : v * PGSIZE ≤ a) (hle : a + bs.length ≤ sp)
    (htop : sp ≤ (v + 1) * PGSIZE) :
    Ensures (copyout r a bs) (fun b s' => b = true → OnPage s' r tf k H O m v ∧
      Pushed s s' (PTE2PA (m v)) ∧ Stack s' r a ((v + 1) * PGSIZE) (blocks ++ [(a, bs)])) s := by
  refine (wp_copyout h.image.separate a bs).mono (fun _ _ _ => trivial) fun b s' h' hb => ?_
  obtain ⟨n, hreach, hcopy⟩ := h'
  obtain rfl : n = bs.length := hreach.complete hb
  have hp : Pushed s s' (PTE2PA (m v)) := by
    refine ⟨hcopy.free, hcopy.image, fun x hx => hcopy.page_eq fun i hi hc => hx ?_⟩
    rw [← hc]
    exact (h.access (by omega) (by omega)).2
  refine ⟨⟨h.image.pushed (mem_mapped h.lt) hp, h.lt, h.user⟩, hp, ?_⟩
  exact hst.push h.image.separate (fun va h₁ h₂ => (h.access (hlo.trans h₁) h₂).1) hcopy hle htop

/-- The strings with their NULs at their addresses. -/
def strings (addrs : List ℕ) (argv : List (List UInt8)) : List (ℕ × List UInt8) :=
  List.zipWith (fun a arg => (a, arg ++ [0])) addrs argv

theorem ensures_pushArgs (h : OnPage s r tf k H O m v) (hv : 0 < v)
    (hst : Stack s r sp ((v + 1) * PGSIZE) blocks) (hsp : v * PGSIZE ≤ sp)
    (htop : sp ≤ (v + 1) * PGSIZE) :
    Ensures (pushArgs r (v * PGSIZE) argv sp ustack) (fun o s' => ∀ c ∈ o, ∃ addrs,
      c.2 = ustack ++ addrs ∧ addrs.length = argv.length ∧ v * PGSIZE ≤ c.1 ∧ c.1 ≤ sp ∧
      OnPage s' r tf k H O m v ∧ Pushed s s' (PTE2PA (m v)) ∧
      Stack s' r c.1 ((v + 1) * PGSIZE) (blocks ++ strings addrs argv)) s := by
  induction argv generalizing s sp blocks ustack with
  | nil =>
    rintro c ⟨⟩
    refine ⟨[], by simp, rfl, hsp, le_rfl, h, .refl _ _, ?_⟩
    rw [strings, List.zipWith_nil_left, List.append_nil]
    exact hst
  | cons arg argv ih =>
    rw [pushArgs]
    split
    · exact nofun
    obtain ⟨sp₂, hsp₂⟩ : ∃ x, x = sp - (arg.length + 1) - (sp - (arg.length + 1)) % 16 := ⟨_, rfl⟩
    dsimp only
    rw [← hsp₂]
    split
    · exact nofun
    next hlow =>
    have hlo : v * PGSIZE ≤ sp₂ := Nat.le_of_not_lt hlow
    have hpos : 0 < v * PGSIZE := Nat.mul_pos hv (by decide)
    have hle : sp₂ + (arg ++ [0]).length ≤ sp := by
      rw [List.length_append, List.length_singleton]
      omega
    rw [Ensures, wp_bind]
    refine (h.copy hst hlo hle htop).post fun b s₁ h₁ => ?_
    cases b with
    | false => exact nofun
    | true =>
      obtain ⟨hpage, hpush, hst₁⟩ := h₁ rfl
      refine (ih hpage hst₁ hlo (by omega)).post fun o s' h' c hc => ?_
      obtain ⟨addrs, hc₂, hlen, h₃, h₄, h₅, h₆, h₇⟩ := h' c hc
      refine ⟨sp₂ :: addrs, ?_, by rw [List.length_cons, hlen, List.length_cons], h₃, by omega, h₅,
        hpush.trans h₆, ?_⟩
      · rw [hc₂, List.append_assoc, List.singleton_append]
      · rw [List.append_assoc, List.singleton_append] at h₇
        exact h₇

theorem length_bytes64 (w : ℕ) : (bytes64 w).length = 8 := List.length_ofFn

theorem length_flatMap_bytes64 (ws : List ℕ) : (ws.flatMap bytes64).length = 8 * ws.length := by
  induction ws with
  | nil => rfl
  | cons w ws ih =>
    rw [List.flatMap_cons, List.length_append, ih, length_bytes64, List.length_cons]
    omega

theorem ensures_pushUstack (h : OnPage s r tf k H O m v) (hv : 0 < v)
    (hst : Stack s r sp ((v + 1) * PGSIZE) blocks) (htop : sp ≤ (v + 1) * PGSIZE) :
    Ensures (pushUstack r (v * PGSIZE) sp ustack) (fun o s' => ∀ c ∈ o,
      c.2 = ustack.length ∧ v * PGSIZE ≤ c.1 ∧ c.1 < (v + 1) * PGSIZE ∧ c.1 % 16 = 0 ∧
      OnPage s' r tf k H O m v ∧ Pushed s s' (PTE2PA (m v)) ∧
      Stack s' r c.1 ((v + 1) * PGSIZE) (blocks ++ [(c.1, (ustack ++ [0]).flatMap bytes64)])) s := by
  unfold pushUstack
  obtain ⟨sp₂, hsp₂⟩ : ∃ x, x = sp - (ustack.length + 1) * 8 - (sp - (ustack.length + 1) * 8) % 16 :=
    ⟨_, rfl⟩
  dsimp only
  rw [← hsp₂]
  split
  · exact nofun
  next hlow =>
  have hlo : v * PGSIZE ≤ sp₂ := Nat.le_of_not_lt hlow
  have hpos : 0 < v * PGSIZE := Nat.mul_pos hv (by decide)
  have hle : sp₂ + ((ustack ++ [0]).flatMap bytes64).length ≤ sp := by
    rw [length_flatMap_bytes64, List.length_append, List.length_singleton]
    omega
  rw [Ensures, wp_bind]
  refine (h.copy hst hlo hle htop).post fun b s₁ h₁ => ?_
  cases b with
  | false => exact nofun
  | true =>
    obtain ⟨hpage, hpush, hst₁⟩ := h₁ rfl
    rintro c ⟨⟩
    rw [length_flatMap_bytes64, List.length_append, List.length_singleton] at hle
    exact ⟨rfl, hlo, by omega, by omega, hpage, hpush, hst₁⟩

/-! ## The whole stack -/

/-- What is on the stack page `v` when a program starts with the stack pointer `sp`. -/
structure Start (s : Mem) (r v sp : ℕ) (argv : List (List UInt8)) (addrs : List ℕ) : Prop where
  length : addrs.length = argv.length
  aligned : sp % 16 = 0
  low : v * PGSIZE ≤ sp
  high : sp < (v + 1) * PGSIZE
  stack : Stack s r sp ((v + 1) * PGSIZE)
    (strings addrs argv ++ [(sp, (addrs ++ [0]).flatMap bytes64)])

theorem ensures_execArgs (h : Image s r tf (v + 2) H O m) (hu : m (v + 1) &&& PTE_U ≠ 0) :
    Ensures (execArgs r (v * PGSIZE) ((v + 1) * PGSIZE) ((v + 2) * PGSIZE) argv)
      (fun o s' => ∀ c ∈ o, OnPage s' r tf (v + 2) H O (guarded m v) (v + 1) ∧
        (∀ x < v + 1, s'.page (PTE2PA (m x)) = s.page (PTE2PA (m x))) ∧ c.2 = argv.length ∧
        ∃ addrs, Start s' r (v + 1) c.1 argv addrs) s := by
  have hd := (Multiset.nodup_add.mp (Multiset.nodup_add.mp h.own.nodup).2.1).1
  rw [execArgs, Ensures, wp_bind]
  refine (wp_uvmclear h (by omega)).mono (fun _ _ _ => trivial) fun _ s₁ h₁ => ?_
  obtain ⟨hf₁, hi₁⟩ := h₁
  have hpage : OnPage s₁ r tf (v + 2) H O (guarded m v) (v + 1) :=
    ⟨hi₁, by omega, by rwa [guarded_of_ne (by omega)]⟩
  have hbase : (v + 1) * PGSIZE ≤ (v + 2) * PGSIZE := Nat.mul_le_mul_right _ (by omega)
  rw [wp_bind]
  refine (ensures_pushArgs hpage (Nat.succ_pos v) .nil hbase le_rfl).post fun o s₂ h₂ => ?_
  cases o with
  | none => rintro c ⟨⟩
  | some b =>
    obtain ⟨addrs, hb, hlen, -, hle, hpage₂, hp₂, hst₂⟩ := h₂ b rfl
    rw [List.nil_append] at hb hst₂
    dsimp only
    rw [hb]
    refine (ensures_pushUstack hpage₂ (Nat.succ_pos v) hst₂ hle).post fun o s' h' c hc => ?_
    obtain ⟨hargc, hlow, hhigh, hal, hpage₃, hp₃, hst₃⟩ := h' c hc
    refine ⟨hpage₃, fun x hx => ?_, hargc.trans hlen, addrs, hlen, hal, hlow, hhigh, hst₃⟩
    have hne : PTE2PA (m x) ≠ PTE2PA (guarded m v (v + 1)) := fun he => by
      rw [PTE2PA_guarded] at he
      have := mapped_inj hd (by omega) (by omega) he
      omega
    have hmem : PTE2PA (m x) ∈ mapped m 0 (v + 2) := mem_mapped (by omega)
    rw [(hp₂.trans hp₃).page _ hne, hf₁.page _ (Multiset.mem_add.mpr (.inl hmem))]

/-- The guard page and the stack page above an address space of size `sz`. -/
structure Stacked (s s' : Mem) (r tf sz : ℕ) (H O' : Multiset ℕ) (m m' : ℕ → ℕ) : Prop where
  page : OnPage s' r tf (pg sz + 2) H O' m' (pg sz + 1)
  below : ∀ v < pg sz, m' v = m v
  bytes : ∀ va, va / PGSIZE < pg sz → s'.byte r va = s.byte r va
  guard : m' (pg sz) &&& PTE_U = 0
  zero : ∀ va, va / PGSIZE = pg sz → s'.byte r va = 0

theorem ensures_execStack (h : Image s r tf (pg sz) H O m) :
    Ensures (execStack r sz argv) (fun b s' => ∀ c ∈ b.1, b.2 = (pg sz + 2) * PGSIZE ∧
      c.2 = argv.length ∧ (∃ O' m', Stacked s s' r tf sz H O' m m') ∧
      ∃ addrs, Start s' r (pg sz + 1) c.1 argv addrs) s := by
  have hle := h.maps.le
  have hround : PGROUNDUP sz = pg sz * PGSIZE := PGROUNDUP_eq (by unfold pg PGSIZE at hle; omega)
  have htop : PGROUNDUP sz + 2 * PGSIZE = (pg sz + 2) * PGSIZE := by rw [hround, ← Nat.add_mul]
  have hi : Image s r tf (pg (PGROUNDUP sz)) H O m := by
    rw [hround, pg_mul]
    exact h
  unfold execStack
  dsimp only
  rw [Ensures, wp_bind]
  refine (wp_uvmalloc_image (by decide) hi).mono (fun _ _ _ => trivial) fun z s₁ h₁ => ?_
  obtain ⟨sz₁, O₁, m₁, hi₁, hsame, -, hz⟩ := h₁.image
  split
  · exact nofun
  next hzero =>
  obtain ⟨rfl, -, -, hsz, hg, hnew⟩ := hz.resolve_right fun hc => hzero hc.1
  have hsz := (hsz (Nat.le_add_right _ _)).trans htop
  have hf₁ := h₁.frame
  rw [hround, pg_mul] at hsame hg hnew hf₁
  rw [hsz, pg_mul] at hi₁ hg hnew
  have hguard : (pg sz + 2) * PGSIZE - 2 * PGSIZE = pg sz * PGSIZE := by
    rw [← Nat.sub_mul, Nat.add_sub_cancel]
  have hbase : (pg sz + 2) * PGSIZE - PGSIZE = (pg sz + 1) * PGSIZE := by
    rw [Nat.succ_mul, Nat.add_sub_cancel]
  have hu : m₁ (pg sz + 1) &&& PTE_U ≠ 0 :=
    user_of_flags (hg.flags (pg sz + 1) (by omega) (by omega)) (by decide)
  rw [hsz, wp_bind, hguard, hbase]
  refine (ensures_execArgs hi₁ hu).post fun o s' h' c hc => ?_
  obtain ⟨hpage, hkeep, hargc, hstart⟩ := h' c hc
  have hbelow : ∀ v < pg sz, guarded m₁ (pg sz) v = m v := fun v hv => by
    rw [guarded_of_ne (by omega), hsame v hv]
  refine ⟨rfl, hargc, ⟨O₁, _, hpage, hbelow, fun va hva => ?_, ?_, fun va hva => ?_⟩, hstart⟩
  · have hmem : PTE2PA (m (va / PGSIZE)) ∈ mapped m 0 (pg sz) := mem_mapped hva
    have hk := hkeep _ (hva.trans (Nat.lt_succ_self _))
    rw [hsame _ hva] at hk
    rw [hpage.image.byte_eq (by omega), h.byte_eq hva, hbelow _ hva, hk,
      hf₁.page _ (Multiset.mem_add.mpr (.inl hmem))]
  · rw [guarded_self]
    exact user_sub_user _
  · rw [hpage.image.byte_eq (by omega), hva, PTE2PA_guarded, hkeep _ (Nat.lt_succ_self _),
      hnew _ le_rfl (by omega)]
    exact Bytes.get_zero

/-! ## What the program finds -/

/-- The 64-bit word at a user address. -/
def Mem.word (s : Mem) (r va : ℕ) : ℕ := (s.page (s.frame r va)).get64 (va % PGSIZE)

theorem byte_add {j : ℕ} (hva : va % 8 = 0) (hj : j < 8) :
    s.byte r (va + j) = (s.page (s.frame r va)).get (va % PGSIZE + j) := by
  have hpage : (va + j) / PGSIZE = va / PGSIZE ∧ (va + j) % PGSIZE = va % PGSIZE + j := by
    unfold PGSIZE
    omega
  rw [Mem.byte, Mem.frame_of_page hpage.1, hpage.2]

theorem getD_bytes64 {w j : ℕ} (hj : j < 8) :
    (bytes64 w).getD j 0 = (Bytes.set64 (Bytes.zero : Bytes 8) 0 w).get j := by
  rw [bytes64, List.getD_eq_getElem _ _ (by rwa [List.length_ofFn]), List.getElem_ofFn, Bytes.get,
    dif_pos hj]

variable {i : ℕ}

theorem getD_flatMap_bytes64 {ws : List ℕ} {j : ℕ} (hi : i < ws.length) (hj : j < 8) :
    (ws.flatMap bytes64).getD (8 * i + j) 0 = (bytes64 (ws.getD i 0)).getD j 0 := by
  induction ws generalizing i with
  | nil => exact absurd hi (Nat.not_lt_zero _)
  | cons w ws ih =>
    cases i with
    | zero =>
      rw [List.flatMap_cons, List.getD_append _ _ _ _ (by rw [length_bytes64]; omega), Nat.mul_zero,
        Nat.zero_add]
      rfl
    | succ i =>
      rw [List.flatMap_cons, List.getD_append_right _ _ _ _ (by rw [length_bytes64]; omega),
        length_bytes64, show 8 * (i + 1) + j - 8 = 8 * i + j by omega, List.getD_cons_succ]
      exact ih (Nat.lt_of_succ_lt_succ hi)

theorem word_eq {w : ℕ} (hva : va % 8 = 0) (hw : w < 2 ^ 64)
    (h : ∀ j < 8, s.byte r (va + j) = (bytes64 w).getD j 0) : s.word r va = w := by
  have hget : ∀ j < 8, (s.page (s.frame r va)).get (va % PGSIZE + j) =
      (Bytes.set64 (Bytes.zero : Bytes 8) 0 w).get (0 + j) := fun j hj => by
    rw [← byte_add hva hj, h j hj, getD_bytes64 hj, Nat.zero_add]
  rw [Mem.word, Bytes.get64_congr hget, Bytes.get64_set64 (by decide) hw]

/-- `copyinstr` finds a string that is there. -/
theorem copyinstr_eq {a max : ℕ} {arg : List UInt8} (h : Separate s r) (hz : 0 ∉ arg)
    (hmax : arg.length < max) (ha : ∀ i ≤ arg.length, s.Access r (a + i))
    (hb : ∀ i ≤ arg.length, s.byte r (a + i) = (arg ++ [0]).getD i 0) :
    copyinstr r a max s = .ok (true, arg ++ [0]) s := by
  obtain ⟨⟨b, bs⟩, t, hrun, rfl, n, hscan, hbs⟩ := (wp_copyinstr h a max).returns
  have hlast : t.byte r (a + arg.length) = 0 := by
    rw [hb _ le_rfl]
    simp
  have hchar : ∀ i < arg.length, t.byte r (a + i) = arg.getD i 0 := fun i hi => by
    rw [hb i hi.le, List.getD_append _ _ _ _ hi]
  obtain rfl : b = true := hscan.iff.mpr ⟨_, hmax, hlast, ha⟩
  obtain rfl : n = arg.length := by
    refine le_antisymm (Nat.le_of_not_lt fun hc => hscan.chars _ hc hlast) ?_
    refine Nat.le_of_not_lt fun hc => hz ?_
    have h₀ := (hscan.found rfl).2.2
    rw [hchar n hc, List.getD_eq_getElem _ _ hc] at h₀
    exact h₀ ▸ List.getElem_mem hc
  have hrange : t.range r a arg.length = arg := by
    refine List.ext_getElem length_range fun i h₁ h₂ => ?_
    rw [← List.getD_eq_getElem _ 0 h₁, getD_range h₂, hchar i h₂, List.getD_eq_getElem _ _ h₂]
  obtain rfl : bs = arg ++ [0] := by rw [← hrange]; exact hbs
  exact hrun

/-- The bytes at the user addresses do not depend on other memory. -/
theorem Image.byte_congr {X O' : Multiset ℕ} (h : Image s r tf k X O m) (h' : Image s' r tf k H O' m)
    (hf : ∀ q ∈ mapped m 0 k, s'.page q = s.page q) (hva : va / PGSIZE < k) :
    s'.byte r va = s.byte r va := by
  rw [h'.byte_eq hva, h.byte_eq hva, hf _ (mem_mapped hva)]

variable {addrs : List ℕ}

theorem Start.congr (h : Start s r v sp argv addrs)
    (hb : ∀ va, va / PGSIZE = v → s'.byte r va = s.byte r va) : Start s' r v sp argv addrs where
  __ := h
  stack :=
    { h.stack with
      bytes := fun b hmem i hi => by
        have hin := h.stack.inside b hmem
        have hlow := h.low
        rw [hb _ (by unfold PGSIZE at *; omega)]
        exact h.stack.bytes b hmem i hi }

theorem Start.mem (h : Start s r v sp argv addrs) (hi : i < argv.length) :
    (addrs.getD i 0, argv[i] ++ [0]) ∈
      strings addrs argv ++ [(sp, (addrs ++ [0]).flatMap bytes64)] := by
  have hlen := h.length
  refine List.mem_append_left _ (List.mem_iff_getElem.mpr ⟨i, ?_, ?_⟩)
  · rw [strings, List.length_zipWith]
    omega
  · simp only [strings, List.getElem_zipWith]
    rw [List.getD_eq_getElem _ _ (by omega)]

theorem Start.word (h : Start s r v sp argv addrs) (htop : (v + 1) * PGSIZE < 2 ^ 64)
    (hi : i ≤ argv.length) : s.word r (sp + 8 * i) = (addrs ++ [0]).getD i 0 := by
  have hlen := h.length
  have hal := h.aligned
  have hws : (addrs ++ [0]).length = argv.length + 1 := by
    rw [List.length_append, List.length_singleton, hlen]
  have hw : (addrs ++ [0]).getD i 0 < 2 ^ 64 := by
    rcases Nat.lt_or_eq_of_le hi with hlt | rfl
    · have hin := (h.stack.inside _ (h.mem hlt)).2
      rw [List.getD_append _ _ _ _ (by omega)]
      dsimp only at hin
      omega
    · rw [List.getD_append_right _ _ _ _ hlen.le, hlen, Nat.sub_self]
      exact Nat.two_pow_pos 64
  refine word_eq (by omega) hw fun j hj => ?_
  have hb := h.stack.bytes (sp, (addrs ++ [0]).flatMap bytes64) (by simp) (8 * i + j)
    (by rw [length_flatMap_bytes64, hws]; omega)
  rw [Nat.add_assoc, hb, getD_flatMap_bytes64 (by omega) hj]

theorem Start.string {max : ℕ} (h : Start s r v sp argv addrs) (hpage : OnPage s r tf k H O m v)
    (hi : i < argv.length) (hz : 0 ∉ argv[i]) (hmax : argv[i].length < max) :
    copyinstr r (addrs.getD i 0) max s = .ok (true, argv[i] ++ [0]) s := by
  have hin := h.stack.inside _ (h.mem hi)
  have hb := h.stack.bytes _ (h.mem hi)
  have hlow := h.low
  simp only [List.length_append, List.length_singleton] at hin hb
  exact copyinstr_eq hpage.image.separate hz hmax
    (fun j hj => (hpage.access (by omega) (by omega)).1) fun j hj => hb j (by omega)

/-- The image that a call leaves, from the state after the last segment on. -/
theorem exec_built (hH : H = {tf} + H₀) (h : Image s r tf (pg sz) H O m)
    (hexec : exec r sz tf (some file) argv s = .ok (some b) s') :
    ∃ s₁ s₂ sz₂ sp c, procPagetable tf s = .ok (some b.1) s₁ ∧
      loadFrom b.1 file ((elfhdr file).get16 56) ((elfhdr file).get64 32) 0 s₁ =
        .ok (true, sz₂) s₂ ∧
      b.2.1 = (pg sz₂ + 2) * PGSIZE ∧ b.2.2 = argv.length ∧
      s'.page tf = startPage c ((elfhdr file).get64 24) sp ∧
      (∃ addrs, Start s' b.1 (pg sz₂ + 1) sp argv addrs) ∧
      ∃ X O₁ m₁, Image s₁ b.1 tf (pg 0) X O₁ m₁ ∧ ∀ O₂ m₂, Image s₂ b.1 tf (pg sz₂) X O₂ m₂ →
        ∃ O' m', Stacked s₂ s' b.1 tf sz₂ H O' m₂ m' := by
  obtain ⟨s₁, s₂, s₃, sz₂, sp, hp⟩ := exec_phases hexec
  obtain ⟨X, O₁, m₁, hi₁, hend⟩ := hp.image hH h
  have hbuilt : ∀ O₂ m₂, Image s₂ b.1 tf (pg sz₂) X O₂ m₂ →
      b.2.1 = (pg sz₂ + 2) * PGSIZE ∧ b.2.2 = argv.length ∧
      s'.page tf = startPage (s₃.page tf) ((elfhdr file).get64 24) sp ∧
      (∃ addrs, Start s' b.1 (pg sz₂ + 1) sp argv addrs) ∧
      ∃ O' m', Stacked s₂ s' b.1 tf sz₂ H O' m₂ m' := fun O₂ m₂ hi₂ => by
    obtain ⟨hsz, hargc, ⟨O', m', hs⟩, addrs, hst⟩ := (ensures_execStack hi₂).ok hp.stack _ rfl
    obtain ⟨hi', hf', htf⟩ := hend _ _ _ hs.page.image
    have hbyte : ∀ va, va / PGSIZE < pg sz₂ + 2 → s'.byte b.1 va = s₃.byte b.1 va := fun va hva =>
      hs.page.image.byte_congr hi' (fun q hq => hf'.page q (by simp [hq])) hva
    refine ⟨hsz, hargc, htf, ⟨addrs, hst.congr fun va hva => hbyte va (by omega)⟩, O', m',
      ⟨hi', hs.page.lt, hs.page.user⟩, hs.below, fun va hva => ?_, hs.guard, fun va hva => ?_⟩
    · rw [hbyte va (by omega), hs.bytes va hva]
    · rw [hbyte va (by omega), hs.zero va hva]
  obtain ⟨-, O₂, m₂, hi₂⟩ := (wp_loadFrom hi₁ nofun).ok hp.load
  obtain ⟨hsz, hargc, htf, hst, -⟩ := hbuilt O₂ m₂ hi₂
  exact ⟨s₁, s₂, sz₂, sp, _, hp.table, hp.load, hsz, hargc, htf, hst, X, O₁, m₁, hi₁,
    fun O₂ m₂ hi₂ => (hbuilt O₂ m₂ hi₂).2.2.2.2⟩

theorem get64_startPage (c : Page) (entry : ℕ) (hsp : sp < 2 ^ 64) :
    (startPage c entry sp).get64 48 = sp ∧ (startPage c entry sp).get64 120 = sp := by
  unfold startPage
  refine ⟨Bytes.get64_set64 (by decide) hsp, ?_⟩
  rw [Bytes.get64_set64_of_disjoint (by decide), Bytes.get64_set64_of_disjoint (by decide),
    Bytes.get64_set64 (by decide) hsp]

/-- A program that `exec` starts with the strings `argv` gets their number, and in `sp` and `a1` an
aligned address in its stack page, where the addresses of the strings are. The strings and the array
do not overlap. Pages below the stack are as the loaded program left them; the first of them is the
guard page. -/
theorem exec_arguments {H₀ : Multiset ℕ} (hH : H = {tf} + H₀) (h : Image s r tf (pg sz) H O m)
    (hargv : ∀ arg ∈ argv, 0 ∉ arg) {new sz' argc : ℕ}
    (hexec : exec r sz tf (some file) argv s = .ok (some (new, sz', argc)) s') :
    argc = argv.length ∧ ∃ sp addrs, (s'.page tf).get64 48 = sp ∧ (s'.page tf).get64 120 = sp ∧
      sp % 16 = 0 ∧ sz' - PGSIZE ≤ sp ∧ sp < sz' ∧ addrs.length = argc ∧
      (∀ i ≤ argc, s'.word new (sp + 8 * i) = (addrs ++ [0]).getD i 0) ∧
      (∀ va, sp ≤ va → va < sz' → s'.Access new va) ∧
      (∀ i (hi : i < argv.length) max, argv[i].length < max →
        copyinstr new (addrs.getD i 0) max s' = .ok (true, argv[i] ++ [0]) s') ∧
      (∀ b ∈ strings addrs argv, sp + 8 * (argc + 1) ≤ b.1 ∧ b.1 + b.2.length ≤ sz') ∧
      (strings addrs argv).Pairwise (fun b b' => b'.1 + b'.2.length ≤ b.1) ∧
      (∀ va, sz' - 2 * PGSIZE ≤ va → va < sz' - PGSIZE →
        s'.byte new va = 0 ∧ ¬ s'.Access new va) ∧
      ∃ s₁ s₂ sz₂, procPagetable tf s = .ok (some new) s₁ ∧
        loadFrom new file ((elfhdr file).get16 56) ((elfhdr file).get64 32) 0 s₁ =
          .ok (true, sz₂) s₂ ∧
        ∀ va < sz' - 2 * PGSIZE, s'.byte new va = s₂.byte new va := by
  obtain ⟨s₁, s₂, sz₂, sp, c, htab, hload, hsz, hargc, htf, ⟨addrs, hst⟩, X, O₁, m₁, hi₁, hbuilt⟩ :=
    exec_built hH h hexec
  obtain ⟨-, O₂, m₂, hi₂⟩ := (wp_loadFrom hi₁ nofun).ok hload
  obtain ⟨O', m', hs⟩ := hbuilt O₂ m₂ hi₂
  dsimp only at hsz hargc
  have hk := hs.page.image.maps.le
  have hbase : sz' - PGSIZE = (pg sz₂ + 1) * PGSIZE := by
    rw [hsz, Nat.succ_mul, Nat.add_sub_cancel]
  have hguard : sz' - 2 * PGSIZE = pg sz₂ * PGSIZE := by
    rw [hsz, ← Nat.sub_mul, Nat.add_sub_cancel]
  have hsp : sp < 2 ^ 64 := by
    have := hst.high
    unfold PGSIZE at *
    omega
  have hreg := get64_startPage c ((elfhdr file).get64 24) hsp
  have hapart := List.pairwise_append.mp hst.stack.apart
  rw [← htf] at hreg
  refine ⟨hargc, sp, addrs, hreg.1, hreg.2, hst.aligned, hbase ▸ hst.low, hsz ▸ hst.high,
    hst.length.trans hargc.symm, fun i hi => hst.word ?_ (hargc ▸ hi), fun va h₁ h₂ => ?_,
    fun i hi max hmax => hst.string hs.page hi (hargv _ (List.getElem_mem hi)) hmax,
    fun b hb => ⟨?_, ?_⟩, hapart.1, fun va h₁ h₂ => ?_, s₁, s₂, sz₂, htab, hload, fun va hva => ?_⟩
  · unfold PGSIZE at *
    omega
  · exact (hs.page.access (hst.low.trans h₁) (hsz ▸ h₂)).1
  · have := hapart.2.2 b hb _ (List.mem_singleton_self _)
    rw [length_flatMap_bytes64, List.length_append, List.length_singleton, hst.length] at this
    rwa [hargc]
  · rw [hsz]
    exact (hst.stack.inside b (List.mem_append_left _ hb)).2
  · have hv : va / PGSIZE = pg sz₂ := by
      rw [hguard] at h₁
      rw [hbase] at h₂
      unfold PGSIZE at *
      omega
    refine ⟨hs.zero va hv, fun ha => ?_⟩
    have hu := (hs.page.image.access_iff.mp ha).2
    rw [hv] at hu
    exact hu hs.guard
  · refine hs.bytes va ?_
    rw [hguard] at hva
    exact Nat.div_lt_of_lt_mul (by rwa [Nat.mul_comm])

/-- A call whose new image can be built succeeds: nothing fails afterwards. -/
theorem exec_eq_some {s₂ s₃ : Mem} {new sz₂ z : ℕ} {c : ℕ × ℕ} (hH : H = {tf} + H₀)
    (h : Image s r tf (pg sz) H O m) (hlen : (readi file 0 ELFHDR).length = ELFHDR)
    (hmagic : (elfhdr file).get32 0 = ELF_MAGIC) (h₁ : procPagetable tf s = .ok (some new) s₁)
    (h₂ : loadFrom new file ((elfhdr file).get16 56) ((elfhdr file).get64 32) 0 s₁ = .ok (true,
      sz₂) s₂)
    (h₃ : execStack new sz₂ argv s₂ = .ok (some c, z) s₃) :
    ∃ s', exec r sz tf (some file) argv s = .ok (some (new, z, c.2)) s' := by
  obtain ⟨o, s', hrun, -⟩ : ∃ o s', exec r sz tf (some file) argv s = .ok o s' ∧ _ :=
    (wp_exec hH h).returns
  have key : Ensures (exec r sz tf (some file) argv) (fun o _ => o = some (new, z, c.2)) s := by
    unfold elfhdr at hmagic h₂
    rw [exec, if_neg (not_not.mpr hlen), if_neg (not_not.mpr hmagic), Ensures, wp_bind, wp_of_eq h₁]
    dsimp only
    rw [wp_bind, wp_of_eq h₂, if_neg Bool.true_eq_false.mp, wp_bind, wp_of_eq h₃]
    refine wp_setRegs ?_
    rw [wp_bind, wp_iff]
    exact ⟨fun _ _ _ => rfl, fun _ _ _ => trivial⟩
  obtain rfl := key.ok hrun
  exact ⟨s', hrun⟩

/-- A program of one segment: four bytes at address 0 and four zeros. -/
def smallProgram : List UInt8 :=
  [0x7f, 0x45, 0x4c, 0x46] ++ List.replicate 28 0 ++ bytes64 64 ++ List.replicate 16 0 ++ [1, 0] ++
    List.replicate 6 0 ++ [1, 0, 0, 0, 5, 0, 0, 0] ++ bytes64 120 ++ bytes64 0 ++ bytes64 0 ++
    bytes64 4 ++ bytes64 8 ++ bytes64 4096 ++ [1, 2, 3, 4]

/-- The image of a call can be built. -/
def builds (tf : ℕ) (file : List UInt8) (argv : List (List UInt8)) (s : Mem) : Bool :=
  match procPagetable tf s with
  | .ok (some new) s₁ =>
    match loadFrom new file ((elfhdr file).get16 56) ((elfhdr file).get64 32) 0 s₁ with
    | .ok (true, sz₂) s₂ =>
      match execStack new sz₂ argv s₂ with
      | .ok (some _, _) _ => true
      | _ => false
    | _ => false
  | _ => false

/-- The first process can run the program. -/
theorem exec_small : ∃ s : Kern, Booted (tiny 20 (by decide)) s ∧ (s.proc 0).state ≠ .unused ∧
    ∃ b s', exec (s.proc 0).pagetable (s.proc 0).sz (s.proc 0).trapframe (some smallProgram)
      [[97, 98], []] s.mem = .ok (some b) s' := by
  have heval : ∃ s, Booted (tiny 20 (by decide)) s ∧ (decide ((s.proc 0).state ≠ .unused) &&
      builds (s.proc 0).trapframe smallProgram [[97, 98], []] s.mem) = true :=
    exists_booted 0 [] (by decide +kernel)
  obtain ⟨s, hb, hs⟩ := heval
  obtain ⟨hstate, hbuild⟩ := (Bool.and_eq_true_iff.mp hs).imp_left of_decide_eq_true
  obtain ⟨O, m, hi⟩ := (booted_valid hb).inv.image hstate
  unfold builds at hbuild
  split at hbuild
  next new s₁ h₁ =>
    split at hbuild
    next sz₂ s₂ h₂ =>
      split at hbuild
      next c z s₃ h₃ =>
        obtain ⟨s', hs'⟩ := exec_eq_some rfl hi (by decide) (by decide) h₁ h₂ h₃
        exact ⟨s, hb, hstate, _, s', hs'⟩
      next => cases hbuild
    next => cases hbuild
  next => cases hbuild

theorem exec_arguments_small : ∃ (s : Kern) (new sz' sp : ℕ) (addrs : List ℕ) (s' : Mem),
    Booted (tiny 20 (by decide)) s ∧
    exec (s.proc 0).pagetable (s.proc 0).sz (s.proc 0).trapframe (some smallProgram)
      [[97, 98], []] s.mem = .ok (some (new, sz', 2)) s' ∧
    (s'.page (s.proc 0).trapframe).get64 48 = sp ∧ s'.word new (sp + 16) = 0 ∧
    copyinstr new (addrs.getD 0 0) 3 s' = .ok (true, [97, 98, 0]) s' := by
  obtain ⟨s, hb, hstate, ⟨new, sz', argc⟩, s', hexec⟩ := exec_small
  obtain ⟨O, m, hi⟩ := (booted_valid hb).inv.image hstate
  obtain ⟨rfl, sp, addrs, hsp, -, -, -, -, hlen, hword, -, hstr, -⟩ :=
    exec_arguments rfl hi (by decide) hexec
  refine ⟨s, new, sz', sp, addrs, s', hb, hexec, hsp, ?_, hstr 0 (by decide) 3 (by decide)⟩
  have := hword 2 le_rfl
  rwa [List.getD_append_right _ _ _ _ (by rw [hlen]; exact le_rfl), hlen] at this

end Xv6.Vm

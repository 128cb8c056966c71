import Xv6.Vm.Space

/-! # exec

`exec` builds the new address space from an ELF file beside the old one, and frees
the old one only when nothing can fail any more. The file is given by its content,
and the arguments by what reading them from user memory yields.
-/

namespace Xv6.Vm

open Multiset

abbrev MAXARG : ℕ := 32
abbrev ELF_MAGIC : ℕ := 0x464C457F
abbrev ELF_PROG_LOAD : ℕ := 1

/-- `sizeof(struct elfhdr)` and `sizeof(struct proghdr)`. -/
abbrev ELFHDR : ℕ := 64
abbrev PROGHDR : ℕ := 56

structure Proghdr where
  type : ℕ
  flags : ℕ
  off : ℕ
  vaddr : ℕ
  filesz : ℕ
  memsz : ℕ
  deriving DecidableEq

/-- The bytes that `readi` returns for a kernel address. -/
def readi (file : List UInt8) (off n : ℕ) : List UInt8 := (file.drop off).take n

def parseProghdr (bs : List UInt8) : Proghdr :=
  let b : Bytes PROGHDR := Bytes.zero.fill bs
  ⟨b.get32 0, b.get32 4, b.get64 8, b.get64 16, b.get64 32, b.get64 40⟩

def flags2perm (flags : ℕ) : ℕ :=
  (if flags &&& 1 ≠ 0 then PTE_X else 0) ||| (if flags &&& 2 ≠ 0 then PTE_W else 0)

/-- The loop of `loadseg`; `sz` and `offset` are `uint`. -/
@[grind =] def loadsegFrom (pagetable va : ℕ) (file : List UInt8) (offset sz : ℕ) : ℕ → ℕ → M Bool
  | 0, _ => pure true
  | k + 1, i => do
    match ← walkaddr pagetable (va + i) with
    | none => throw .loadseg
    | some pa =>
      let n := min (sz - i) PGSIZE
      let bs := readi file ((offset + i) % 2 ^ 32) n
      let s ← get
      setPage pa ((s.page pa).blit 0 (fun j => bs.getD j 0) bs.length)
      if bs.length ≠ n then pure false
      else loadsegFrom pagetable va file offset sz k (i + PGSIZE)

def loadseg (pagetable va : ℕ) (file : List UInt8) (offset sz : ℕ) : M Bool :=
  loadsegFrom pagetable va file (offset % 2 ^ 32) (sz % 2 ^ 32) (pagesTo 0 (sz % 2 ^ 32)) 0

/-- The loop over the program headers; returns whether it succeeded, and the size reached. -/
@[grind =] def loadFrom (pagetable : ℕ) (file : List UInt8) : ℕ → ℕ → ℕ → M (Bool × ℕ)
  | 0, _, sz => pure (true, sz)
  | k + 1, off, sz => do
    let bs := readi file (off % 2 ^ 32) PROGHDR
    let ph := parseProghdr bs
    if bs.length ≠ PROGHDR then pure (false, sz)
    else if ph.type ≠ ELF_PROG_LOAD then loadFrom pagetable file k (off + PROGHDR) sz
    else if ph.memsz < ph.filesz then pure (false, sz)
    else if (ph.vaddr + ph.memsz) % 2 ^ 64 < ph.vaddr then pure (false, sz)
    else if ph.vaddr % PGSIZE ≠ 0 then pure (false, sz)
    else
      let sz1 ← uvmalloc pagetable sz ((ph.vaddr + ph.memsz) % 2 ^ 64) (flags2perm ph.flags)
      if sz1 = 0 then pure (false, sz)
      else if ← loadseg pagetable ph.vaddr file ph.off ph.filesz then
        loadFrom pagetable file k (off + PROGHDR) sz1
      else pure (false, sz1)

/-- The bytes of a `uint64`. -/
def bytes64 (v : ℕ) : List UInt8 := List.ofFn (Bytes.set64 (Bytes.zero : Bytes 8) 0 v)

/-- The strings are pushed onto the stack; the result is the stack pointer and `ustack`. -/
@[grind =] def pushArgs (pagetable stackbase : ℕ) : List (List UInt8) → ℕ → List ℕ → M (Option (ℕ × List ℕ))
  | [], sp, ustack => pure (some (sp, ustack))
  | arg :: argv, sp, ustack => do
    if MAXARG ≤ ustack.length then pure none
    else
      let sp₁ := sp - (arg.length + 1)
      let sp₂ := sp₁ - sp₁ % 16
      if sp₂ < stackbase then pure none
      else if ← copyout pagetable sp₂ (arg ++ [0]) then
        pushArgs pagetable stackbase argv sp₂ (ustack ++ [sp₂])
      else pure none

/-- The array of the argument pointers is pushed; returns the stack pointer and `argc`. -/
@[irreducible] def pushUstack (pagetable stackbase sp : ℕ) (ustack : List ℕ) : M (Option (ℕ × ℕ)) := do
  let argc := ustack.length
  let sp₁ := sp - (argc + 1) * 8
  let sp₂ := sp₁ - sp₁ % 16
  if sp₂ < stackbase then pure none
  else if ← copyout pagetable sp₂ ((ustack ++ [0]).flatMap bytes64) then pure (some (sp₂, argc))
  else pure none

/-- The arguments are put on the stack between `stackbase` and `sp`, above the guard page. -/
@[irreducible] def execArgs (pagetable guard stackbase sp : ℕ) (argv : List (List UInt8)) :
    M (Option (ℕ × ℕ)) := do
  uvmclear pagetable guard
  match ← pushArgs pagetable stackbase argv sp [] with
  | none => pure none
  | some b => pushUstack pagetable stackbase b.1 b.2

/-- The part of `exec` from the stack on; returns the new size too. -/
def execStack (pagetable sz : ℕ) (argv : List (List UInt8)) : M (Option (ℕ × ℕ) × ℕ) := do
  let sz := PGROUNDUP sz
  let sz1 ← uvmalloc pagetable sz (sz + 2 * PGSIZE) PTE_W
  if sz1 = 0 then pure (none, sz)
  else
    let ret ← execArgs pagetable (sz1 - 2 * PGSIZE) (sz1 - PGSIZE) sz1 argv
    pure (ret, sz1)

/-- A register in the trapframe page. -/
def setReg (trapframe off v : ℕ) : M Unit := do
  let s ← get
  setPage trapframe ((s.page trapframe).set64 off v)

/-- `exec` of a process with the given page table, size and trapframe. The file is `none` if the
path does not resolve. Returns the new page table, its size and `argc`. -/
def exec (pagetable sz trapframe : ℕ) (file : Option (List UInt8)) (argv : List (List UInt8)) :
    M (Option (ℕ × ℕ × ℕ)) := do
  match file with
  | none => pure none
  | some file =>
    let bs := readi file 0 ELFHDR
    let elf : Bytes ELFHDR := Bytes.zero.fill bs
    if bs.length ≠ ELFHDR then pure none
    else if elf.get32 0 ≠ ELF_MAGIC then pure none
    else
      match ← procPagetable trapframe with
      | none => pure none
      | some new =>
        let load ← loadFrom new file (elf.get16 56) (elf.get64 32) 0
        if load.1 = false then
          procFreepagetable new load.2
          pure none
        else
          let stack ← execStack new load.2 argv
          match stack.1 with
          | none =>
            procFreepagetable new stack.2
            pure none
          | some sp =>
            setReg trapframe 120 sp.1
            setReg trapframe 24 (elf.get64 24)
            setReg trapframe 48 sp.1
            procFreepagetable pagetable sz
            pure (some (new, stack.2, sp.2))

/-- What the kernel finds at one place of the user's `argv`. -/
inductive Arg
  /-- `fetchaddr` fails. -/
  | fault
  /-- `fetchstr` fails. -/
  | badstr
  | str (bytes : List UInt8)

/-- The loop of `sys_exec`: returns the strings unless it fails, and the pages of `argv`. -/
def fetchArgs : List Arg → List (List UInt8) → List ℕ → M (Option (List (List UInt8)) × List ℕ)
  | args, argv, pages => do
    if MAXARG ≤ pages.length then pure (none, pages)
    else
      match args with
      | [] => pure (some argv, pages)
      | .fault :: _ => pure (none, pages)
      | .badstr :: _ =>
        match ← kalloc with
        | none => pure (none, pages)
        | some pa => pure (none, pages ++ [pa])
      | .str bytes :: args =>
        match ← kalloc with
        | none => pure (none, pages)
        | some pa =>
          if PGSIZE ≤ bytes.length then pure (none, pages ++ [pa])
          else
            setPage pa (Bytes.blit (fun _ => 5) 0 (fun j => bytes.getD j 0) (bytes.length + 1))
            fetchArgs args (argv ++ [bytes]) (pages ++ [pa])

def freeArgs : List ℕ → M Unit
  | [] => pure ()
  | pa :: pages => do
    kfree pa
    freeArgs pages

def sysExec (pagetable sz trapframe : ℕ) (file : Option (List UInt8)) (args : List Arg) :
    M (Option (ℕ × ℕ × ℕ)) := do
  let fetched ← fetchArgs args [] []
  match fetched.1 with
  | none =>
    freeArgs fetched.2
    pure none
  | some argv =>
    let ret ← exec pagetable sz trapframe file argv
    freeArgs fetched.2
    pure ret

/-! ## Address spaces in memory -/

variable {s s' : Mem} {H O X : Multiset ℕ} {q r tf k sz oldsz newsz va v e : ℕ} {m m' : ℕ → ℕ}

/-- The table at `r` has the pages `O` and maps `k` user pages and the trapframe `tf`; besides
the pages of this address space, those of `H` are owned. -/
structure Image (s : Mem) (r tf k : ℕ) (H O : Multiset ℕ) (m : ℕ → ℕ) : Prop where
  table : Table s r m O
  maps : Maps s.image tf k m
  own : Own s (O + (mapped m 0 k + H))

/-- The user may access all of its pages. -/
def Accessible (m : ℕ → ℕ) (k : ℕ) : Prop := ∀ v < k, m v &&& PTE_U ≠ 0

theorem mem_mapped (hv : v < k) : PTE2PA (m v) ∈ mapped m 0 k := by
  unfold mapped
  exact mem_map.mpr ⟨v, mem_range.mpr hv, by rw [Nat.zero_add]⟩

theorem mapped_inj {w : ℕ} (hd : (mapped m 0 k).Nodup) (hv : v < k) (hw : w < k)
    (he : PTE2PA (m v) = PTE2PA (m w)) : v = w := by
  unfold mapped at hd
  refine inj_on_of_nodup_map hd v (mem_range.mpr hv) w (mem_range.mpr hw) ?_
  rw [Nat.zero_add, Nat.zero_add, he]

namespace Image

theorem frame_put (h : Image s r tf k H O m) (hq : q ∈ mapped m 0 k) (b : Page) :
    Frame s (s.put q b) (O + H) := by
  have ho := h.own
  rw [← add_assoc, add_comm O, add_assoc] at ho
  exact ho.frame_put_left hq

/-- The contents of the user pages do not matter. -/
theorem congr (h : Image s r tf k H O m) (hf : Frame s s' (O + X)) (hfree : s'.free = s.free) :
    Image s' r tf k H O m where
  table := h.table.congr hf fun _ hx => mem_add.mpr (.inl hx)
  maps := hf.image ▸ h.maps
  own := h.own.congr hfree hf.image

theorem put (h : Image s r tf k H O m) (hq : q ∈ mapped m 0 k) (b : Page) :
    Image (s.put q b) r tf k H O m := h.congr (h.frame_put hq b) rfl

theorem lt (h : Image s r tf k H O m) (hv : v < k) : v < NVPN := by
  have := h.maps.le
  unfold NVPN NPTE
  omega

end Image

theorem user_mk {pa perm : ℕ} (hp : perm < 1024) :
    (PA2PTE pa ||| perm ||| PTE_V) &&& PTE_U = perm &&& PTE_U := by
  have key : ∀ x, x &&& PTE_U = PTE_FLAGS x &&& PTE_U := fun x => by
    have hlt : x &&& 16 < 2 ^ 10 := lt_of_le_of_lt Nat.and_le_right (by decide)
    have := Nat.and_mod_two_pow (a := x) (b := 16) (n := 10)
    rwa [Nat.mod_eq_of_lt hlt] at this
  rw [key, PTE_FLAGS_mk hp, Nat.and_or_distrib_right, show PTE_V &&& PTE_U = 0 from rfl,
    Nat.or_zero]

/-- Neither the trapframe nor the trampoline is accessible. -/
theorem Maps.lt_of_user {L : Layout} (h : Maps L tf k m) (hv : v < NVPN) (hval : m v &&& PTE_V ≠ 0)
    (hu : m v &&& PTE_U ≠ 0) : v < k := by
  by_contra hge
  have htf : v ≠ VTRAP := fun he => by
    rw [he, h.trapframe] at hu
    exact hu ((user_mk (by decide)).trans rfl)
  have htr : v ≠ VTRAMP := fun he => by
    rw [he, h.trampoline] at hu
    exact hu ((user_mk (by decide)).trans rfl)
  rw [h.free _ hv (by omega) htf htr] at hval
  exact hval rfl

/-- `walkaddr` finds user pages only, and all those the user may access. -/
theorem wp_walkaddr {Q : Option ℕ → Mem → Prop} (h : Image s r tf k H O m)
    (hnone : (Accessible m k → ¬ va / PGSIZE < k) → Q none s)
    (hsome : ∀ pa ∈ mapped m 0 k, Q (some pa) s) : wp (walkaddr r va) NoPanic Q s := by
  have hk := h.maps.le
  unfold walkaddr
  split
  next hva =>
    refine hnone fun _ => ?_
    unfold MAXVA PGSIZE at *
    omega
  next hva =>
    have hlt : va < MAXVA := Nat.lt_of_not_le hva
    have hv : va / PGSIZE < NVPN := by
      unfold MAXVA NVPN NPTE PGSIZE at *
      omega
    rw [wp_bind]
    refine wp_walk_find hlt ?_
    cases hl : tree.find s.pte 2 r (va / PGSIZE) with
    | none =>
      refine hnone fun _ hc => absurd ?_ (h.maps.user _ hc)
      rw [h.table.of_find_none hv hl]
      rfl
    | some l =>
      rw [wp_bind, wp_readPte, h.table.entry hv hl]
      split
      next hinv => exact hnone fun _ hc => absurd hinv (h.maps.user _ hc)
      next hval =>
        split
        next hu => exact hnone fun ha hc => absurd hu (ha _ hc)
        next hu =>
          have hmem : PTE2PA (m (va / PGSIZE)) ∈ mapped m 0 k :=
            mem_mapped (h.maps.lt_of_user hv hval hu)
          rw [if_neg (h.own.ne_zero (by simp [hmem]))]
          exact hsome _ hmem

theorem wp_copyoutFrom {fuel dstva : ℕ} {src : List UInt8} (h : Image s r tf k H O m) :
    wp (copyoutFrom r fuel dstva src) NoPanic
      (fun _ s' => Frame s s' (O + H) ∧ s'.free = s.free) s := by
  induction fuel generalizing s dstva src with
  | zero => exact ⟨.refl s _, rfl⟩
  | succ fuel ih =>
    rw [copyoutFrom]
    split
    · exact ⟨.refl s _, rfl⟩
    · rw [wp_bind]
      refine wp_walkaddr h (fun _ => ⟨.refl s _, rfl⟩) fun pa hpa => ?_
      rw [wp_bind, wp_get, wp_bind, wp_setPage]
      refine (ih (h.put hpa _)).post fun _ s' h' => ⟨(h.frame_put hpa _).trans h'.1, h'.2⟩

variable {file : List UInt8} {j : ℕ}

theorem wp_loadsegFrom {offset i : ℕ} (h : Image s r tf k H O m) (ha : Accessible m k)
    (hva : ∀ x < sz, (va + x) / PGSIZE < k) (hj : i + j * PGSIZE < sz + PGSIZE) :
    wp (loadsegFrom r va file offset sz j i) NoPanic
      (fun _ s' => Frame s s' (O + H) ∧ s'.free = s.free) s := by
  induction j generalizing s i with
  | zero => exact ⟨.refl s _, rfl⟩
  | succ j ih =>
    have hi : i < sz := by
      unfold PGSIZE at hj
      omega
    rw [loadsegFrom, wp_bind]
    refine wp_walkaddr h (fun hc => absurd (hva i hi) (hc ha)) fun pa hpa => ?_
    rw [wp_bind, wp_get, wp_bind, wp_setPage]
    split
    · exact ⟨h.frame_put hpa _, rfl⟩
    · refine (ih (h.put hpa _) ?_).post fun _ s' h' => ⟨(h.frame_put hpa _).trans h'.1, h'.2⟩
      unfold PGSIZE at *
      omega

/-! ## Growing and shrinking an address space -/

theorem Maps.grow {L : Layout} {perm : ℕ} (h : Maps L tf k m) (hg : Grown m m' k j perm)
    (hle : k + j ≤ 2 ^ 15) : Maps L tf (k + j) m' := by
  have hbig : ∀ v, 2 ^ 15 ≤ v → m' v = m v := fun v hv => hg.other v (by omega)
  refine ⟨hle, fun v hv => ?_, ?_, ?_, fun v hv hkv h₁ h₂ => ?_⟩
  · rcases Nat.lt_or_ge v k with hvk | hvk
    · rw [hg.other v (.inl hvk)]
      exact h.user v hvk
    · exact hg.valid hvk hv
  · rw [hbig _ (by decide)]
    exact h.trapframe
  · rw [hbig _ (by decide)]
    exact h.trampoline
  · rw [hg.other v (.inr hkv)]
    exact h.free v hv (by omega) h₁ h₂

theorem user_of_flags {perm : ℕ} (h : PTE_FLAGS e = perm ||| PTE_V) (hu : perm &&& PTE_U ≠ 0) :
    e &&& PTE_U ≠ 0 := by
  have hlt : e &&& 16 < 2 ^ 10 := lt_of_le_of_lt Nat.and_le_right (by decide)
  have hmod := Nat.and_mod_two_pow (a := e) (b := 16) (n := 10)
  rw [Nat.mod_eq_of_lt hlt] at hmod
  have hflags : e % 2 ^ 10 = perm ||| PTE_V := h
  rw [show PTE_U = 16 from rfl, hmod, hflags, Nat.and_or_distrib_right]
  exact fun hc => hu (Nat.or_eq_zero_iff.mp hc).1

/-- What `uvmalloc` makes of an address space: it is grown by pages of zeros, or, if the result is 0,
unchanged. The user pages that were there stay and keep their contents. -/
structure Alloc (s : Mem) (r tf oldsz newsz xperm : ℕ) (H O : Multiset ℕ) (m : ℕ → ℕ) (z : ℕ)
    (s' : Mem) : Prop where
  frame : Frame s s' (mapped m 0 (pg oldsz) + H)
  image : ∃ sz' O' m', Image s' r tf (pg sz') H O' m' ∧ (∀ v < pg oldsz, m' v = m v) ∧
    (Accessible m (pg oldsz) → Accessible m' (pg sz')) ∧
    (z = sz' ∧ oldsz ≤ sz' ∧ newsz ≤ sz' ∧ (oldsz ≤ newsz → sz' = newsz) ∧
        Grown m m' (pg oldsz) (pg sz' - pg oldsz) (PTE_R ||| PTE_U ||| xperm) ∧
        Zeroed s' m' (pg oldsz) (pg sz' - pg oldsz) ∨
      z = 0 ∧ sz' = oldsz ∧ m' = m)

theorem wp_uvmalloc_image {xperm : ℕ} (hx : xperm < 1024) (h : Image s r tf (pg oldsz) H O m) :
    wp (uvmalloc r oldsz newsz xperm) NoPanic (Alloc s r tf oldsz newsz xperm H O m) s := by
  have hle := h.maps.le
  have hz : ∀ v, pg oldsz ≤ v → v < VTRAP → m v = 0 := fun v h₁ h₂ => by
    have h₃ : v < NVPN := h₂.trans (by decide)
    have h₄ : v < VTRAMP := h₂.trans (by decide)
    exact h.maps.free v h₃ h₁ h₂.ne h₄.ne
  refine (wp_uvmalloc (hle.trans (by decide)) hx h.table h.own hz).post fun z s' h' => ?_
  obtain ⟨O', m', hf, ht, hres⟩ := h'
  refine ⟨hf, ?_⟩
  split at hres
  next hc =>
    obtain ⟨ho, rfl, hz'⟩ := hres
    refine ⟨oldsz, O', m', ⟨ht, hf.image ▸ h.maps, ho⟩, fun _ _ => rfl, id,
      .inl ⟨hz', le_rfl, hc.le, fun hc' => absurd hc (by omega), ?_⟩⟩
    rw [Nat.sub_self]
    exact ⟨.zero _ _ _, fun _ _ _ => by omega⟩
  next hc =>
    have hmono : pg oldsz ≤ pg newsz := pg_mono (Nat.le_of_not_lt hc)
    rcases hres with ⟨ho, hg, hzero, rfl⟩ | ⟨ho, rfl, rfl⟩
    · have hsame : ∀ v < pg oldsz, m' v = m v := fun v hv => hg.other v (.inl hv)
      have hmap : mapped m' 0 (pg z) = mapped m 0 (pg oldsz) +
          mapped m' (pg oldsz) (pg z - pg oldsz) := by
        have hadd := mapped_add m' 0 (pg oldsz) (pg z - pg oldsz)
        rw [Nat.zero_add, Nat.add_sub_cancel' hmono] at hadd
        rw [hadd, mapped_congr fun j hj => hsame _ (by omega)]
      have ho' : Own s' (O' + (mapped m' 0 (pg z) + H)) := by
        rw [hmap, add_comm (mapped m 0 _), add_assoc (mapped m' _ _)]
        exact ho
      have hle' : pg z ≤ 2 ^ 15 := by
        have := ho'.card_le
        rw [card_add, card_add, card_mapped] at this
        omega
      have hmaps := h.maps.grow hg (by omega)
      rw [Nat.add_sub_cancel' hmono] at hmaps
      refine ⟨z, O', m', ⟨ht, hf.image ▸ hmaps, ho'⟩, hsame, fun ha v hv => ?_,
        .inl ⟨rfl, by omega, le_rfl, fun _ => rfl, hg, hzero⟩⟩
      rcases Nat.lt_or_ge v (pg oldsz) with hvo | hvo
      · rw [hsame v hvo]
        exact ha v hvo
      · refine user_of_flags (hg.flags v hvo (by omega)) ?_
        rw [Nat.and_or_distrib_right]
        exact fun hc => absurd (Nat.or_eq_zero_iff.mp hc).1 (by decide)
    · exact ⟨oldsz, O', m', ⟨ht, hf.image ▸ h.maps, ho⟩, fun _ _ => rfl, id, .inr ⟨rfl, rfl, rfl⟩⟩

theorem Maps.shrink {L : Layout} (h : Maps L tf k m) (hj : j ≤ k) :
    Maps L tf j (cleared m j (k - j)) := by
  have hk := h.le
  have hbig : ∀ v, 2 ^ 15 ≤ v → cleared m j (k - j) v = m v := fun v hv => if_neg (by omega)
  refine ⟨hj.trans hk, fun v hv => ?_, ?_, ?_, fun v hv hjv h₁ h₂ => ?_⟩
  · rw [cleared, if_neg (by omega)]
    exact h.user v (by omega)
  · rw [hbig _ (by decide)]
    exact h.trapframe
  · rw [hbig _ (by decide)]
    exact h.trampoline
  · unfold cleared
    split
    · rfl
    · exact h.free v hv (by omega) h₁ h₂

theorem wp_uvmdealloc_image (h : Image s r tf (pg oldsz) H O m) :
    wp (uvmdealloc r oldsz newsz) NoPanic (fun z s' => Frame s s' H ∧
      ∃ O' m', Image s' r tf (pg z) H O' m') s := by
  by_cases hc : oldsz ≤ newsz
  · rw [uvmdealloc, if_pos hc]
    exact ⟨.refl s H, O, m, h⟩
  have hlt : newsz < oldsz := Nat.lt_of_not_le hc
  have hmono : pg newsz ≤ pg oldsz := pg_mono hlt.le
  have hle := h.maps.le
  have hsplit : mapped m 0 (pg oldsz) =
      mapped m 0 (pg newsz) + mapped m (pg newsz) (pg oldsz - pg newsz) := by
    have hadd := mapped_add m 0 (pg newsz) (pg oldsz - pg newsz)
    rwa [Nat.zero_add, Nat.add_sub_cancel' hmono] at hadd
  have ho : Own s (O + (mapped m (pg newsz) (pg oldsz - pg newsz) + (mapped m 0 (pg newsz) + H))) := by
    rw [← add_assoc (mapped m (pg newsz) _), add_comm (mapped m (pg newsz) _), ← hsplit]
    exact h.own
  refine (wp_uvmdealloc h.table (by omega) ho fun v _ hv => h.maps.user v hv).post fun z s' h' => ?_
  obtain ⟨ho', hf', ht', hz⟩ := h'
  obtain rfl : z = newsz := hz.trans (min_eq_right hlt.le)
  have hkeep : mapped (cleared m (pg z) (pg oldsz - pg z)) 0 (pg z) = mapped m 0 (pg z) :=
    mapped_congr fun j hj => if_neg (by omega)
  refine ⟨hf'.mono fun x hx => mem_add.mpr (.inr hx), O, _, ht', ?_, hkeep ▸ ho'⟩
  rw [hf'.image]
  exact h.maps.shrink hmono

/-! ## Building an address space -/

theorem wp_loadseg {offset : ℕ} (h : Image s r tf k H O m) (ha : Accessible m k)
    (hva : ∀ x < sz, (va + x) / PGSIZE < k) :
    wp (loadseg r va file offset sz) NoPanic
      (fun _ s' => Frame s s' (O + H) ∧ s'.free = s.free) s := by
  have hmod : sz % 2 ^ 32 ≤ sz := Nat.mod_le _ _
  refine wp_loadsegFrom h ha (fun x hx => hva x (by omega)) ?_
  unfold pagesTo PGSIZE
  omega

theorem vaddr_lt (bs : List UInt8) : (parseProghdr bs).vaddr < 2 ^ 64 := Bytes.get64_lt

theorem memsz_lt (bs : List UInt8) : (parseProghdr bs).memsz < 2 ^ 64 := Bytes.get64_lt

theorem flags2perm_lt (flags : ℕ) : flags2perm flags < 1024 := by
  unfold flags2perm
  split_ifs <;> decide

theorem wp_loadFrom {off : ℕ} (h : Image s r tf (pg sz) H O m) (ha : Accessible m (pg sz)) :
    wp (loadFrom r file j off sz) NoPanic
      (fun b s' => Frame s s' H ∧ ∃ O' m', Image s' r tf (pg b.2) H O' m') s := by
  induction j generalizing s sz O m off with
  | zero => exact ⟨.refl s H, O, m, h⟩
  | succ j ih =>
    have hsame : Frame s s H ∧ ∃ O' m', Image s r tf (pg sz) H O' m' := ⟨.refl s H, O, m, h⟩
    rw [loadFrom]
    split
    · exact hsame
    split
    · exact ih h ha
    split
    · exact hsame
    split
    · exact hsame
    split
    · exact hsame
    next hmem hwrap _ =>
      rw [wp_bind]
      refine (wp_uvmalloc_image (flags2perm_lt _) h).post fun z s₁ h₁ => ?_
      obtain ⟨sz₁, O₁, m₁, hi₁, -, ha₁, hz⟩ := h₁.image
      have hf₁ : Frame s s₁ H := h₁.frame.mono fun x hx => mem_add.mpr (.inr hx)
      split
      next hzero =>
        have hsz : sz₁ = sz := by omega
        exact ⟨hf₁, O₁, m₁, hsz ▸ hi₁⟩
      next hzero =>
        obtain ⟨rfl, hle₁, hle₂, -⟩ | ⟨hc, -⟩ := hz
        · have hva : ∀ x < (parseProghdr (readi file (off % 2 ^ 32) PROGHDR)).filesz,
              ((parseProghdr (readi file (off % 2 ^ 32) PROGHDR)).vaddr + x) / PGSIZE < pg z := by
            intro x hx
            have h₁ := vaddr_lt (readi file (off % 2 ^ 32) PROGHDR)
            have h₂ := memsz_lt (readi file (off % 2 ^ 32) PROGHDR)
            unfold pg PGSIZE at *
            omega
          rw [wp_bind]
          refine (wp_loadseg hi₁ (ha₁ ha) hva).post fun b s₂ ⟨hf₂, hfree⟩ => ?_
          have hi₂ := hi₁.congr hf₂ hfree
          have hf : Frame s s₂ H := hf₁.trans (hf₂.mono fun x hx => mem_add.mpr (.inr hx))
          cases b with
          | false => exact ⟨hf, O₁, m₁, hi₂⟩
          | true => exact (ih hi₂ (ha₁ ha)).post fun _ s' h' => ⟨hf.trans h'.1, h'.2⟩
        · exact absurd hc hzero

/-! ## The stack -/

theorem and_user (e : ℕ) : e &&& PTE_U = if e / 16 % 2 = 1 then 16 else 0 := by
  have hlow : ∀ x < 32, x &&& 16 = if x / 16 % 2 = 1 then 16 else 0 := by decide
  have hand : e &&& PTE_U = e % 32 &&& 16 := by
    have hlt : e &&& 16 < 2 ^ 5 := lt_of_le_of_lt Nat.and_le_right (by decide)
    have := Nat.and_mod_two_pow (a := e) (b := 16) (n := 5)
    rwa [Nat.mod_eq_of_lt hlt] at this
  rw [hand, hlow _ (Nat.mod_lt _ (by decide))]
  split <;> split <;> omega

theorem sub_user (e : ℕ) : (e - (e &&& PTE_U)) % 16 = e % 16 ∧
    (e - (e &&& PTE_U)) / 32 = e / 32 := by
  rw [and_user]
  split <;> omega

theorem user_sub_user (e : ℕ) : (e - (e &&& PTE_U)) &&& PTE_U = 0 := by
  rw [and_user e, and_user]
  split <;> split <;> omega

theorem valid_sub_user : e - (e &&& PTE_U) &&& PTE_V ≠ 0 ↔ e &&& PTE_V ≠ 0 := by
  have := (sub_user e).1
  rw [and_one, and_one]
  omega

theorem leaf_sub_user : Leaf (e - (e &&& PTE_U)) ↔ Leaf e := by
  have key : ∀ x, x &&& 14 = x % 2 ^ 4 &&& 14 := fun x => by
    have hlt : x &&& 14 < 2 ^ 4 := lt_of_le_of_lt Nat.and_le_right (by decide)
    have := Nat.and_mod_two_pow (a := x) (b := 14) (n := 4)
    rwa [Nat.mod_eq_of_lt hlt] at this
  unfold Leaf
  rw [show PTE_R ||| PTE_W ||| PTE_X = 14 from rfl, key, key e, show 2 ^ 4 = 16 from rfl,
    (sub_user e).1]

theorem PTE2PA_sub_user : PTE2PA (e - (e &&& PTE_U)) = PTE2PA e := by
  have := (sub_user e).2
  unfold PTE2PA
  congr 1
  omega

theorem pte_lt (pa i : ℕ) : s.pte pa i < 2 ^ 64 := Bytes.get64_lt

/-- The entry of a page that the user may not access any more. -/
def guarded (m : ℕ → ℕ) (v : ℕ) : ℕ → ℕ := Function.update m v (m v - (m v &&& PTE_U))

theorem guarded_of_ne (hx : va ≠ v) : guarded m v va = m va := Function.update_of_ne hx _ _

theorem guarded_self : guarded m v v = m v - (m v &&& PTE_U) := Function.update_self ..

theorem PTE2PA_guarded (x : ℕ) : PTE2PA (guarded m v x) = PTE2PA (m x) := by
  rcases eq_or_ne x v with rfl | hne
  · rw [guarded_self, PTE2PA_sub_user]
  · rw [guarded_of_ne hne]

theorem mapped_guarded : mapped (guarded m v) 0 k = mapped m 0 k := by
  unfold mapped
  exact map_congr rfl fun j _ => PTE2PA_guarded _

theorem wp_uvmclear (h : Image s r tf k H O m) (hv : v < k) :
    wp (uvmclear r (v * PGSIZE)) NoPanic
      (fun _ s' => Frame s s' (mapped m 0 k + H) ∧ Image s' r tf k H O (guarded m v)) s := by
  have hle := h.maps.le
  have hlt := h.lt hv
  have hva : v * PGSIZE < MAXVA := by
    unfold MAXVA PGSIZE
    omega
  have hval := h.maps.user v hv
  rw [uvmclear, wp_bind]
  refine wp_walk_find hva ?_
  rw [Nat.mul_div_cancel _ (by decide)]
  cases hl : tree.find s.pte 2 r v with
  | none => exact absurd (by rw [h.table.of_find_none hlt hl]; rfl) hval
  | some l =>
    have hentry := h.table.entry hlt hl
    rw [wp_bind, wp_readPte, wp_writePte, hentry]
    have hlt64 : m v - (m v &&& PTE_U) < 2 ^ 64 := by
      have := pte_lt (s := s) l.1 l.2
      omega
    have hkind : Kind 0 (m v - (m v &&& PTE_U)) := fun _ =>
      ⟨fun _ => leaf_sub_user.mpr (h.table.leaf hlt hval), fun _ => rfl⟩
    obtain ⟨ht, hf⟩ := h.table.set h.own hlt hl hlt64 hkind
    refine ⟨hf, ht, ?_, mapped_guarded.symm ▸ h.own.put⟩
    have hvt : VTRAP ≠ v ∧ VTRAMP ≠ v := by
      unfold VTRAP VTRAMP TRAPFRAME TRAMPOLINE MAXVA PGSIZE
      omega
    refine ⟨hle, fun x hx => ?_, ?_, ?_, fun x hx hkx h₁ h₂ => ?_⟩
    · rcases eq_or_ne x v with rfl | hne
      · rw [guarded_self]
        exact valid_sub_user.mpr hval
      · rw [guarded_of_ne hne]
        exact h.maps.user x hx
    · rw [guarded_of_ne hvt.1]
      exact h.maps.trapframe
    · rw [guarded_of_ne hvt.2]
      exact h.maps.trampoline
    · rw [guarded_of_ne (by omega)]
      exact h.maps.free x hx hkx h₁ h₂

variable {argv : List (List UInt8)} {stackbase sp : ℕ}

theorem wp_pushArgs {ustack : List ℕ} (h : Image s r tf k H O m) :
    wp (pushArgs r stackbase argv sp ustack) NoPanic
      (fun _ s' => Frame s s' (O + H) ∧ s'.free = s.free) s := by
  have hsame : Frame s s (O + H) ∧ s.free = s.free := ⟨.refl s _, rfl⟩
  induction argv generalizing s sp ustack with
  | nil => exact hsame
  | cons arg argv ih =>
    rw [pushArgs]
    split
    · exact hsame
    dsimp only
    split
    · exact hsame
    rw [wp_bind]
    refine (wp_copyoutFrom h).post fun b s₁ ⟨hf₁, hfree₁⟩ => ?_
    cases b with
    | false => exact ⟨hf₁, hfree₁⟩
    | true =>
      refine (ih (h.congr hf₁ hfree₁) ⟨.refl _ _, rfl⟩).post fun _ s' h' => ?_
      exact ⟨hf₁.trans h'.1, h'.2.trans hfree₁⟩

theorem wp_pushUstack {ustack : List ℕ} (h : Image s r tf k H O m) :
    wp (pushUstack r stackbase sp ustack) NoPanic
      (fun _ s' => Frame s s' (O + H) ∧ s'.free = s.free) s := by
  unfold pushUstack
  dsimp only
  split
  · exact ⟨.refl s _, rfl⟩
  · rw [wp_bind]
    refine (wp_copyoutFrom h).post fun b s' h' => ?_
    cases b <;> exact h'

theorem wp_execArgs {guard : ℕ} (h : Image s r tf k H O m) (hg : guard = v * PGSIZE) (hv : v < k) :
    wp (execArgs r guard stackbase sp argv) NoPanic
      (fun _ s' => Frame s s' H ∧ ∃ O' m', Image s' r tf k H O' m') s := by
  rw [execArgs, wp_bind, hg]
  refine (wp_uvmclear h hv).post fun _ s₁ ⟨hf₁, hi₁⟩ => ?_
  rw [wp_bind]
  refine (wp_pushArgs hi₁).post fun o s₂ ⟨hf₂, hfree₂⟩ => ?_
  have hi₂ := hi₁.congr hf₂ hfree₂
  have hf : Frame s s₂ H := (hf₁.mono fun x hx => mem_add.mpr (.inr hx)).trans
    (hf₂.mono fun x hx => mem_add.mpr (.inr hx))
  cases o with
  | none => exact ⟨hf, O, _, hi₂⟩
  | some b =>
    refine (wp_pushUstack hi₂).post fun _ s₃ ⟨hf₃, hfree₃⟩ => ?_
    exact ⟨hf.trans (hf₃.mono fun x hx => mem_add.mpr (.inr hx)), O, _,
      hi₂.congr hf₃ hfree₃⟩

theorem wp_execStack (h : Image s r tf (pg sz) H O m) :
    wp (execStack r sz argv) NoPanic
      (fun b s' => Frame s s' H ∧ ∃ O' m', Image s' r tf (pg b.2) H O' m') s := by
  have hle := h.maps.le
  have hround : PGROUNDUP sz = pg sz * PGSIZE := PGROUNDUP_eq (by unfold pg PGSIZE at hle; omega)
  have htop : PGROUNDUP sz + 2 * PGSIZE = (pg sz + 2) * PGSIZE := by rw [hround, ← Nat.add_mul]
  have hi : Image s r tf (pg (PGROUNDUP sz)) H O m := by
    rw [hround, pg_mul]
    exact h
  unfold execStack
  dsimp only
  rw [wp_bind]
  refine (wp_uvmalloc_image (by decide) hi).post fun z s₁ h₁ => ?_
  obtain ⟨sz₁, O₁, m₁, hi₁, -, -, hz⟩ := h₁.image
  have hf₁ : Frame s s₁ H := h₁.frame.mono fun x hx => mem_add.mpr (.inr hx)
  split
  next hzero =>
    have hsz : sz₁ = PGROUNDUP sz := by omega
    exact ⟨hf₁, O₁, m₁, hsz ▸ hi₁⟩
  next hzero =>
    have hz := hz.resolve_right fun hc => hzero hc.1
    have hsz : sz₁ = (pg sz + 2) * PGSIZE := (hz.2.2.2.1 (Nat.le_add_right _ _)).trans htop
    rw [wp_bind, hz.1]
    have hguard : sz₁ - 2 * PGSIZE = pg sz * PGSIZE := by
      unfold PGSIZE at *
      omega
    have hlt : pg sz < pg sz₁ := by
      rw [hsz, pg_mul]
      omega
    refine (wp_execArgs hi₁ hguard hlt).post fun o s' h' => ?_
    obtain ⟨hf', O', m', hi'⟩ := h'
    exact ⟨hf₁.trans hf', O', m', hi'⟩

/-! ## The call -/

theorem wp_procFreepagetable_image (h : Image s r tf (pg sz) H O m) :
    wp (procFreepagetable r sz) NoPanic (fun _ s' => Own s' H ∧ Frame s s' H) s :=
  wp_procFreepagetable h.table h.maps h.own

variable {E : Panic → Mem → Prop}

@[simp] theorem wp_setReg {off : ℕ} {Q : Unit → Mem → Prop} :
    wp (setReg tf off v) E Q s ↔ Q () (s.put tf ((s.page tf).set64 off v)) := Iff.rfl

/-- The trapframe of a process that starts at `entry` with the stack pointer `sp`. -/
def startPage (b : Page) (entry sp : ℕ) : Page := ((b.set64 120 sp).set64 24 entry).set64 48 sp

theorem wp_setRegs {α : Type} {entry : ℕ} {Q : α → Mem → Prop} {c : M α}
    (hQ : wp c E Q (s.put tf (startPage (s.page tf) entry sp))) :
    wp (do setReg tf 120 sp; setReg tf 24 entry; setReg tf 48 sp; c) E Q s := by
  rw [wp_bind, wp_setReg, wp_bind, wp_setReg, wp_bind, wp_setReg]
  simpa only [put_page_self, put_put, startPage] using hQ

variable {H₀ : Multiset ℕ}

/-- The old address space is freed, and the trapframe is left to the new one. -/
theorem wp_commit {r' k' : ℕ} {O' : Multiset ℕ} (hH : H = {tf} + H₀) (b : Page)
    (h : Image s r' tf k' (O + (mapped m 0 (pg sz) + H)) O' m') (ht : Table s r m O)
    (hm : Maps s.image tf (pg sz) m) :
    wp (procFreepagetable r sz) NoPanic (fun _ s' => Image s' r' tf k' H O' m' ∧
      Frame s s' (O' + (mapped m' 0 k' + H₀)) ∧ s'.page tf = b) (s.put tf b) := by
  obtain ⟨U, hU⟩ : ∃ U, mapped m' 0 k' = U := ⟨_, rfl⟩
  obtain ⟨V, hV⟩ : ∃ V, mapped m 0 (pg sz) = V := ⟨_, rfl⟩
  have ho := h.own
  rw [hU, hV, hH, show O' + (U + (O + (V + ({tf} + H₀)))) =
    {tf} + (O' + (U + (O + (V + H₀)))) by abel] at ho
  obtain ⟨Y, hY⟩ : ∃ Y, O' + (U + (O + (V + H₀))) = Y := ⟨_, rfl⟩
  rw [hY, singleton_add] at ho
  -- the trapframe belongs to none of the pages that are looked at
  have hf : Frame s (s.put tf b) Y := ho.frame_put
  have hO : O ⊆ Y := fun x hx => by simp [← hY, hx]
  have hO' : O' ⊆ Y := fun x hx => by simp [← hY, hx]
  have hi : Image (s.put tf b) r tf (pg sz) (O' + (U + H)) O m := by
    refine ⟨ht.congr (hf.mono hO) fun x hx => hx, hf.image ▸ hm, ?_⟩
    rw [hV, hH, show O + (V + (O' + (U + ({tf} + H₀)))) =
      {tf} + (O' + (U + (O + (V + H₀)))) by abel, hY, singleton_add]
    exact ho.put
  refine (wp_procFreepagetable_image hi).post fun _ s' ⟨ho', hf'⟩ => ⟨⟨?_, ?_, ?_⟩, ?_, ?_⟩
  · refine h.table.congr ((hf.mono hO').trans (hf'.mono fun x hx => ?_)) fun x hx => hx
    simp [hx]
  · rw [hf'.image, hf.image]
    exact h.maps
  · rw [hU]
    exact ho'
  · rw [hU]
    refine (hf.mono ?_).trans (hf'.mono ?_) <;> intro x hx
    · rw [← hY]
      simp only [mem_add] at hx ⊢
      tauto
    · rw [hH]
      simp only [mem_add] at hx ⊢
      tauto
  · rw [hf'.page tf (by simp [hH]), put_page_self]

/-- The address space is as it was, or a new one has taken its place. -/
theorem wp_exec {file : Option (List UInt8)} (hH : H = {tf} + H₀) (h : Image s r tf (pg sz) H O m) :
    wp (exec r sz tf file argv) NoPanic (fun o s' => match o with
      | none => Image s' r tf (pg sz) H O m ∧ Frame s s' (O + (mapped m 0 (pg sz) + H))
      | some b => ∃ O' m', Image s' b.1 tf (pg b.2.1) H O' m' ∧ Frame s s' H₀) s := by
  obtain ⟨X, hX⟩ : ∃ X, O + (mapped m 0 (pg sz) + H) = X := ⟨_, rfl⟩
  have hOX : O ⊆ X := fun x hx => hX ▸ mem_add.mpr (.inl hx)
  have hsame : Image s r tf (pg sz) H O m ∧ Frame s s X := ⟨h, .refl s _⟩
  have htf : tf < 2 ^ 56 := by
    refine h.own.lt ?_
    rw [hH]
    simp
  -- a failure frees the new table
  have hback : ∀ s₁ r' k' O' m', Frame s s₁ X → Image s₁ r' tf (pg k') X O' m' →
      wp (procFreepagetable r' k') NoPanic
        (fun _ s' => Image s' r tf (pg sz) H O m ∧ Frame s s' X) s₁ := by
    intro s₁ r' k' O' m' hf₁ hi₁
    refine (wp_procFreepagetable_image hi₁).post fun _ s' ⟨ho', hf'⟩ => ?_
    have hf := hf₁.trans hf'
    exact ⟨⟨h.table.congr hf hOX, hf.image ▸ h.maps, hX.symm ▸ ho'⟩, hf⟩
  rw [hX]
  unfold exec
  cases file with
  | none => exact hsame
  | some file =>
    dsimp only
    split
    · exact hsame
    split
    · exact hsame
    rw [wp_bind]
    refine (wp_procPagetable (hX ▸ h.own) htf).post fun o s₁ ⟨hf₁, h₁⟩ => ?_
    cases o with
    | none =>
      exact ⟨⟨h.table.congr hf₁ hOX, hf₁.image ▸ h.maps, hX.symm ▸ h₁⟩, hf₁⟩
    | some r' =>
      obtain ⟨O₁, m₁, ho₁, ht₁, hm₁⟩ := h₁
      have hi₁ : Image s₁ r' tf (pg 0) X O₁ m₁ := by
        refine ⟨ht₁, hf₁.image ▸ hm₁, ?_⟩
        rw [show pg 0 = 0 from rfl, mapped_zero, zero_add]
        exact ho₁
      rw [wp_bind]
      refine (wp_loadFrom hi₁ nofun).post fun load s₂ ⟨hf₂, O₂, m₂, hi₂⟩ => ?_
      split
      · rw [wp_bind]
        exact hback s₂ r' _ O₂ m₂ (hf₁.trans hf₂) hi₂
      rw [wp_bind]
      refine (wp_execStack hi₂).post fun stack s₃ ⟨hf₃, O₃, m₃, hi₃⟩ => ?_
      have hf := (hf₁.trans hf₂).trans hf₃
      split
      · rw [wp_bind]
        exact hback s₃ r' _ O₃ m₃ hf hi₃
      next sp _ =>
        refine wp_setRegs ?_
        rw [wp_bind]
        refine (wp_commit hH _ (hX.symm ▸ hi₃) (h.table.congr hf hOX)
          (hf.image ▸ h.maps)).post fun _ s' ⟨hi', hf', _⟩ => ⟨O₃, m₃, hi', ?_⟩
        refine (hf.mono ?_).trans (hf'.mono ?_) <;> intro x hx
        · simp [← hX, hH, hx]
        · simp [hx]

theorem wp_freeArgs {pages : List ℕ} (ho : Own s (pages + H)) :
    wp (freeArgs pages) NoPanic (fun _ s' => Own s' H ∧ Frame s s' H) s := by
  induction pages generalizing s with
  | nil =>
    rw [coe_nil, zero_add] at ho
    exact ⟨ho, .refl s H⟩
  | cons pa pages ih =>
    rw [← cons_coe, cons_add] at ho
    rw [freeArgs, wp_bind]
    refine (wp_kfree ho).post fun _ s₁ ⟨ho₁, hf₁⟩ => ?_
    refine (ih ho₁).post fun _ s' h' => ⟨h'.1, (hf₁.mono ?_).trans h'.2⟩
    exact fun x hx => mem_add.mpr (.inr hx)

theorem coe_snoc (pages : List ℕ) (pa : ℕ) :
    ((pages ++ [pa] : List ℕ) : Multiset ℕ) + H = pa ::ₘ (pages + H) := by
  rw [← coe_add, coe_singleton, add_assoc, add_left_comm, singleton_add]

theorem wp_fetchArgs {args : List Arg} {pages : List ℕ} (ho : Own s (pages + H)) :
    wp (fetchArgs args argv pages) NoPanic
      (fun b s' => Own s' (b.2 + H) ∧ Frame s s' H) s := by
  induction args generalizing s argv pages with
  | nil =>
    unfold fetchArgs
    split <;> exact ⟨ho, .refl s H⟩
  | cons arg args ih =>
    have hsame : Own s (pages + H) ∧ Frame s s H := ⟨ho, .refl s H⟩
    have hH : H ⊆ (pages : Multiset ℕ) + H := fun x hx => mem_add.mpr (.inr hx)
    unfold fetchArgs
    split
    · exact hsame
    cases arg with
    | fault => exact hsame
    | badstr =>
      dsimp only
      rw [wp_bind]
      refine (wp_kalloc ho).post fun o s₁ h₁ => ?_
      cases o with
      | none =>
        subst h₁
        exact hsame
      | some pa => exact ⟨(coe_snoc pages pa).symm ▸ h₁.1, h₁.2.mono hH⟩
    | str bytes =>
      dsimp only
      rw [wp_bind]
      refine (wp_kalloc ho).post fun o s₁ h₁ => ?_
      cases o with
      | none =>
        subst h₁
        exact hsame
      | some pa =>
        have ho₁ : Own s₁ (((pages ++ [pa] : List ℕ) : Multiset ℕ) + H) :=
          (coe_snoc pages pa).symm ▸ h₁.1
        dsimp only
        split
        · exact ⟨ho₁, h₁.2.mono hH⟩
        · rw [wp_bind, wp_setPage]
          refine (ih ho₁.put).post fun b s' h' => ⟨h'.1, ?_⟩
          exact ((h₁.2.trans h₁.1.frame_put).mono hH).trans h'.2

theorem wp_sysExec {file : Option (List UInt8)} {args : List Arg} (hH : H = {tf} + H₀)
    (h : Image s r tf (pg sz) H O m) :
    wp (sysExec r sz tf file args) NoPanic (fun o s' => match o with
      | none => Image s' r tf (pg sz) H O m ∧ Frame s s' (O + (mapped m 0 (pg sz) + H))
      | some b => ∃ O' m', Image s' b.1 tf (pg b.2.1) H O' m' ∧ Frame s s' H₀) s := by
  obtain ⟨X, hX⟩ : ∃ X, O + (mapped m 0 (pg sz) + H) = X := ⟨_, rfl⟩
  have hOX : O ⊆ X := fun x hx => hX ▸ mem_add.mpr (.inl hx)
  have ho : Own s (([] : List ℕ) + X) := by
    rw [coe_nil, zero_add, ← hX]
    exact h.own
  rw [hX, sysExec, wp_bind]
  refine (wp_fetchArgs ho).post fun b s₁ ⟨ho₁, hf₁⟩ => ?_
  split
  · rw [wp_bind]
    refine (wp_freeArgs ho₁).post fun _ s' ⟨ho', hf'⟩ => ?_
    have hf := hf₁.trans hf'
    exact ⟨⟨h.table.congr hf hOX, hf.image ▸ h.maps, hX.symm ▸ ho'⟩, hf⟩
  next argv _ =>
    -- the pages of the arguments are owned beside those of the process
    have hi₁ : Image s₁ r tf (pg sz) ((b.2 : Multiset ℕ) + H) O m := by
      refine ⟨h.table.congr hf₁ hOX, hf₁.image ▸ h.maps, ?_⟩
      rw [show O + (mapped m 0 (pg sz) + ((b.2 : Multiset ℕ) + H)) =
        (b.2 : Multiset ℕ) + (O + (mapped m 0 (pg sz) + H)) by abel, hX]
      exact ho₁
    rw [wp_bind]
    have hH₁ : (b.2 : Multiset ℕ) + H = {tf} + ((b.2 : Multiset ℕ) + H₀) := by
      rw [hH]
      abel
    refine (wp_exec hH₁ hi₁).post
      fun o s₂ h₂ => ?_
    rw [wp_bind]
    cases o with
    | none =>
      obtain ⟨hi₂, hf₂⟩ := h₂
      have ho₂ := hi₂.own
      rw [show O + (mapped m 0 (pg sz) + ((b.2 : Multiset ℕ) + H)) =
        (b.2 : Multiset ℕ) + (O + (mapped m 0 (pg sz) + H)) by abel, hX] at ho₂
      refine (wp_freeArgs ho₂).post fun _ s' ⟨ho', hf'⟩ => ?_
      have hf : Frame s s' X := (hf₁.trans (hf₂.mono fun x hx => ?_)).trans hf'
      · exact ⟨⟨h.table.congr hf hOX, hf.image ▸ h.maps, hX.symm ▸ ho'⟩, hf⟩
      · rw [← hX] at hx
        simp only [mem_add] at hx ⊢
        tauto
    | some c =>
      obtain ⟨O', m', hi₂, hf₂⟩ := h₂
      have ho₂ := hi₂.own
      rw [show O' + (mapped m' 0 (pg c.2.1) + ((b.2 : Multiset ℕ) + H)) =
        (b.2 : Multiset ℕ) + (O' + (mapped m' 0 (pg c.2.1) + H)) by abel] at ho₂
      refine (wp_freeArgs ho₂).post fun _ s' ⟨ho', hf'⟩ => ⟨O', m', ⟨?_, ?_, ho'⟩, ?_⟩
      · exact hi₂.table.congr hf' fun x hx => mem_add.mpr (.inl hx)
      · rw [hf'.image]
        exact hi₂.maps
      · refine ((hf₁.mono ?_).trans (hf₂.mono ?_)).trans (hf'.mono ?_) <;> intro x hx
        · simp [← hX, hH, hx]
        · simp [hx]
        · simp [hH, hx]

end Xv6.Vm

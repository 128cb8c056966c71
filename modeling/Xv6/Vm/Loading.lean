import Xv6.Vm.Stack

/-! # The program image

What `exec` leaves in the new address space: the bytes of each segment, zeros elsewhere,
and pages with the permissions of their segment. The segments must come in the order of
their addresses and share no page, because `uvmalloc` maps everything from the size
reached so far up to the end of a segment.
-/

namespace Xv6.Vm

open Sys (Pptr)

variable {s s₁ s' : Mem} {H O : Multiset ℕ} {r tf k sz va n : ℕ} {m m' : ℕ → ℕ} {file : List UInt8}
  {argv : List (List UInt8)}

/-! ## One segment -/

theorem getD_readi {off i : ℕ} (hi : i < n) : (readi file off n).getD i 0 = (file.drop off).getD i 0 := by
  rw [readi, List.getD_eq_getElem?_getD, List.getD_eq_getElem?_getD, List.getElem?_take_of_lt hi]

theorem length_readi {off : ℕ} : (readi file off n).length = min n (file.length - off) := by
  rw [readi, List.length_take, List.length_drop]

theorem wp_walkaddr_aligned {Q : Option ℕ → Mem → Prop} (h : Separate s r) (hva : va % PGSIZE = 0)
    (ha : s.Access r va) (hQ : Q (some (s.frame r va)) s) : wp (walkaddr r va) NoPanic Q s := by
  have hround : PGROUNDDOWN va = va := by
    unfold PGROUNDDOWN PGSIZE at *
    omega
  rw [← hround]
  exact wp_walkaddr_access h (fun hc => absurd ha hc) fun _ => hQ

/-- The bytes of a segment come to its addresses. -/
theorem wp_loadsegFrom_exact {offset i j : ℕ} (h : Separate s r) (hva : va % PGSIZE = 0)
    (hi : i % PGSIZE = 0) (ha : ∀ x < sz, s.Access r (va + x)) (hoff : offset + sz < 2 ^ 32)
    (hj : j = pagesTo i sz) :
    wp (loadsegFrom r va file offset sz j i) NoPanic (fun b s' => b = true →
      Copied s s' r (va + i) (file.drop (offset + i)) (sz - i) ∧
        ∀ x, i ≤ x → x < sz → offset + x < file.length) s := by
  induction j generalizing s i with
  | zero =>
    have hle : sz ≤ i := by
      unfold pagesTo PGSIZE at hj
      omega
    rw [Nat.sub_eq_zero_of_le hle]
    exact fun _ => ⟨.zero, fun x h₁ h₂ => by omega⟩
  | succ j ih =>
    have hlt : i < sz := by
      unfold pagesTo PGSIZE at hj
      omega
    have hj' : j = pagesTo (i + PGSIZE) sz := by
      unfold pagesTo PGSIZE at *
      omega
    have hmod : (offset + i) % 2 ^ 32 = offset + i := Nat.mod_eq_of_lt (by omega)
    have halign : (va + i) % PGSIZE = 0 := by
      unfold PGSIZE at *
      omega
    obtain ⟨n, hn⟩ : ∃ n, n = min (sz - i) PGSIZE := ⟨_, rfl⟩
    have hfit : (va + i) % PGSIZE + n ≤ PGSIZE := by omega
    have hnle : 0 < n ∧ n ≤ sz - i := by
      unfold PGSIZE at hn
      omega
    rw [loadsegFrom, wp_bind]
    refine wp_walkaddr_aligned h halign (ha i hlt) ?_
    dsimp only
    rw [wp_bind, wp_get, wp_bind, wp_setPage, hmod, ← hn]
    split
    · exact nofun
    next hlen =>
    have hlen : (readi file (offset + i) n).length = n := not_not.mp hlen
    have hput : Copied s (s.put (s.frame r (va + i)) ((s.page (s.frame r (va + i))).blit 0
        (fun j => (readi file (offset + i) n).getD j 0) n)) r (va + i) (file.drop (offset + i)) n := by
      have : Copied s _ r (va + i) (file.drop (offset + i)) n := .put hfit
      rw [halign, Bytes.blit_congr fun j hj => (getD_readi hj).symm] at this
      exact this
    have hall : ∀ x < n, s.Access r (va + i + x) := fun x hx => by
      rw [Nat.add_assoc]
      exact ha (i + x) (by omega)
    have htab := hput.table h hall
    rw [hlen]
    refine (ih (h.congr htab) (by unfold PGSIZE at *; omega)
      (fun x hx => (Mem.access_congr htab).mpr (ha x hx)) hj').post fun b s' h' hb => ?_
    obtain ⟨hcopy, hin⟩ := h' hb
    have hfile : offset + i + n ≤ file.length := by
      rw [length_readi] at hlen
      omega
    constructor
    · rw [show sz - i = n + (sz - (i + PGSIZE)) by omega]
      refine hput.trans h (fun x hx => ?_) ?_
      · rw [Nat.add_assoc]
        exact ha (i + x) (by omega)
      · rcases Nat.lt_or_ge (sz - i) PGSIZE with hlast | hfull
        · rw [show sz - (i + PGSIZE) = 0 by omega] at hcopy ⊢
          exact ⟨hcopy.free, hcopy.image, nofun, fun q j _ => hcopy.outside q j nofun⟩
        · obtain rfl : n = PGSIZE := hn.trans (min_eq_right hfull)
          rwa [List.drop_drop, Nat.add_assoc, Nat.add_assoc]
    · intro x h₁ h₂
      rcases Nat.lt_or_ge x (i + PGSIZE) with hx | hx
      · omega
      · exact hin x hx h₂

theorem wp_loadseg_exact {offset : ℕ} (h : Separate s r) (hva : va % PGSIZE = 0)
    (ha : ∀ x < sz, s.Access r (va + x)) (hoff : offset < 2 ^ 31) (hsz : sz < 2 ^ 31) :
    wp (loadseg r va file offset sz) NoPanic (fun b s' => b = true →
      Copied s s' r va (file.drop offset) sz ∧ ∀ x < sz, offset + x < file.length) s := by
  rw [loadseg, Nat.mod_eq_of_lt (by omega), Nat.mod_eq_of_lt (by omega)]
  refine (wp_loadsegFrom_exact h hva (Nat.zero_mod _) ha (by omega) rfl).post fun b s' h' hb => ?_
  exact (h' hb).imp_right fun hin x hx => hin x (Nat.zero_le x) hx

/-! ## All segments -/

/-- The segments in the headers of the file. -/
def segmentsFrom (file : List UInt8) : ℕ → ℕ → List Proghdr
  | 0, _ => []
  | k + 1, off =>
    let ph := parseProghdr (readi file off PROGHDR)
    let rest := segmentsFrom file k (off + PROGHDR)
    if ph.type = ELF_PROG_LOAD then ph :: rest else rest

def segments (file : List UInt8) : List Proghdr :=
  segmentsFrom file ((elfhdr file).get16 56) ((elfhdr file).get64 32)

namespace Proghdr

/-- The segment occupies the address. -/
def Covers (ph : Proghdr) (va : ℕ) : Prop := ph.vaddr ≤ va ∧ va < ph.vaddr + ph.memsz

/-- The byte at the address comes from the file. -/
def InFile (ph : Proghdr) (va : ℕ) : Prop := ph.vaddr ≤ va ∧ va < ph.vaddr + ph.filesz

/-- The addresses increase, and no page belongs to both segments. -/
structure Before (a b : Proghdr) : Prop where
  le : a.vaddr ≤ b.vaddr
  apart : ∀ x y, a.Covers x → b.Covers y → x / PGSIZE ≠ y / PGSIZE

/-- The pages of the first segment end before the second one. -/
theorem Before.pg_le {a b : Proghdr} (h : Before a b) (hb : b.vaddr % PGSIZE = 0)
    (hpos : 0 < b.memsz) :
    pg (a.vaddr + a.memsz) ≤ b.vaddr / PGSIZE := by
  have hend : a.vaddr + a.memsz ≤ b.vaddr := by
    by_contra hc
    exact h.apart _ _ ⟨h.le, Nat.lt_of_not_le hc⟩ ⟨le_rfl, Nat.lt_add_of_pos_right hpos⟩ rfl
  unfold pg PGSIZE at *
  omega

end Proghdr

open Proghdr (Before)

/-- What the segments so far have made of an address space of size `sz`. -/
structure Loaded (file : List UInt8) (s : Mem) (r : ℕ) (m : ℕ → ℕ) (sz : ℕ) (segs : List Proghdr) :
    Prop where
  fits : ∀ ph ∈ segs, ph.filesz ≤ ph.memsz ∧ ph.vaddr % PGSIZE = 0 ∧ ph.vaddr + ph.memsz ≤ sz
  top : sz = 0 ∨ ∃ ph ∈ segs, sz = ph.vaddr + ph.memsz
  bytes : ∀ ph ∈ segs, ∀ i < ph.filesz,
    ph.off + i < file.length ∧ s.byte r (ph.vaddr + i) = file.getD (ph.off + i) 0
  zero : ∀ va, va / PGSIZE < pg sz → (∀ ph ∈ segs, ¬ ph.InFile va) → s.byte r va = 0
  flags : ∀ ph ∈ segs, ∀ va, ph.Covers va →
    PTE_FLAGS (m (va / PGSIZE)) = PTE_R ||| PTE_U ||| flags2perm ph.flags ||| PTE_V

theorem covers_lt {z : ℕ} (ph : Proghdr) (hc : ph.Covers va) (hle : ph.vaddr + ph.memsz ≤ z) :
    va / PGSIZE < pg z := by
  have := hc.2
  unfold pg PGSIZE
  omega

theorem Loaded.step {s₂ : Mem} {z : ℕ} {O' : Multiset ℕ} {segs : List Proghdr} {b : Proghdr}
    (h : Loaded file s r m sz segs) (hi : Image s r tf (pg sz) H O m)
    (hi' : Image s₁ r tf (pg z) H O' m') (hacc : Accessible m' (pg z))
    (hsame : ∀ v < pg sz, m' v = m v) (hf : Frame s s₁ (mapped m 0 (pg sz) + H))
    (hg : Grown m m' (pg sz) (pg z - pg sz) (PTE_R ||| PTE_U ||| flags2perm b.flags))
    (hzero : Zeroed s₁ m' (pg sz) (pg z - pg sz)) (hz : z = max sz (b.vaddr + b.memsz))
    (hfit : b.filesz ≤ b.memsz) (hal : b.vaddr % PGSIZE = 0) (hord : ∀ a ∈ segs, Before a b)
    (hcopy : Copied s₁ s₂ r b.vaddr (file.drop b.off) b.filesz)
    (hin : ∀ x < b.filesz, b.off + x < file.length) : Loaded file s₂ r m' z (segs ++ [b]) := by
  have hle : sz ≤ z ∧ b.vaddr + b.memsz ≤ z := by omega
  -- a segment with addresses lies behind everything that is there
  have htight : 0 < b.memsz → pg sz ≤ b.vaddr / PGSIZE := fun hpos => by
    rcases h.top with h₀ | ⟨a, ha, hsz⟩
    · rw [h₀]
      exact Nat.zero_le _
    · rw [hsz]
      exact (hord a ha).pg_le hal hpos
  have haccess : ∀ va, va / PGSIZE < pg z → s₁.Access r va := fun va hva =>
    hi'.access_iff.mpr ⟨hva, hacc _ hva⟩
  have hrange : ∀ x < b.filesz, s₁.Access r (b.vaddr + x) := fun x hx =>
    haccess _ (covers_lt b ⟨by omega, by omega⟩ hle.2)
  have hold : ∀ va, va / PGSIZE < pg sz → s₁.byte r va = s.byte r va := fun va hva => by
    have hlt : va / PGSIZE < pg z := hva.trans_le (pg_mono hle.1)
    rw [hi'.byte_eq hlt, hi.byte_eq hva, hsame _ hva, hf.page _ (by simp [mem_mapped hva])]
  have hkeep : ∀ va, va / PGSIZE < pg z → ¬ b.InFile va → s₂.byte r va = s₁.byte r va :=
    fun va hva hnot => hcopy.byte_of_notMem hi'.separate hrange (haccess va hva) fun i hi he =>
      hnot ⟨by omega, by omega⟩
  have hcover : ∀ va, b.InFile va → b.Covers va := fun va hva => ⟨hva.1, by have := hva.2; omega⟩
  constructor
  · intro ph hph
    rcases List.mem_append.mp hph with hph | hph
    · obtain ⟨h₁, h₂, h₃⟩ := h.fits ph hph
      exact ⟨h₁, h₂, h₃.trans hle.1⟩
    · obtain rfl := List.mem_singleton.mp hph
      exact ⟨hfit, hal, hle.2⟩
  · rcases Nat.le_total sz (b.vaddr + b.memsz) with hc | hc
    · exact .inr ⟨b, by simp, hz.trans (max_eq_right hc)⟩
    · have hzs : z = sz := hz.trans (max_eq_left hc)
      rw [hzs]
      exact h.top.imp_right fun ⟨a, ha, he⟩ => ⟨a, List.mem_append_left _ ha, he⟩
  · intro ph hph i hi
    rcases List.mem_append.mp hph with hph | hph
    · obtain ⟨hlen, hbyte⟩ := h.bytes ph hph i hi
      obtain ⟨h₁, -, h₃⟩ := h.fits ph hph
      have hc : ph.Covers (ph.vaddr + i) := ⟨by omega, by omega⟩
      have hlt := covers_lt _ hc h₃
      refine ⟨hlen, ?_⟩
      rw [hkeep _ (hlt.trans_le (pg_mono hle.1)) fun hb => ?_, hold _ hlt, hbyte]
      exact (hord ph hph).apart _ _ hc (hcover _ hb) rfl
    · obtain rfl := List.mem_singleton.mp hph
      refine ⟨hin i hi, ?_⟩
      rw [hcopy.byte_eq hi'.separate hrange hi, List.getD_eq_getElem?_getD, List.getElem?_drop,
        List.getD_eq_getElem?_getD]
  · intro va hva hnot
    rw [hkeep va hva (hnot b (by simp))]
    rcases Nat.lt_or_ge (va / PGSIZE) (pg sz) with hlt | hge
    · rw [hold va hlt]
      exact h.zero va hlt fun ph hph => hnot ph (List.mem_append_left _ hph)
    · rw [hi'.byte_eq hva, hzero _ hge (by omega)]
      exact Bytes.get_zero
  · intro ph hph va hc
    rcases List.mem_append.mp hph with hph | hph
    · rw [hsame _ (covers_lt _ hc (h.fits ph hph).2.2)]
      exact h.flags ph hph va hc
    · obtain rfl := List.mem_singleton.mp hph
      have hpos : 0 < ph.memsz := by
        have := hc.1
        have := hc.2
        omega
      have hlow : ph.vaddr / PGSIZE ≤ va / PGSIZE := Nat.div_le_div_right hc.1
      have hlt := covers_lt _ hc hle.2
      exact hg.flags _ ((htight hpos).trans hlow) (by omega)

theorem ensures_loadFrom {j off : ℕ} {segs : List Proghdr} (hi : Image s r tf (pg sz) H O m)
    (ha : Accessible m (pg sz)) (h : Loaded file s r m sz segs) (hoff : off + PROGHDR * j < 2 ^ 32)
    (hsegs : ∀ ph ∈ segmentsFrom file j off, ph.off < 2 ^ 31)
    (hord : (segs ++ segmentsFrom file j off).Pairwise Before) :
    Ensures (loadFrom r file j off sz) (fun b s' => b.1 = true → ∃ O' m',
      Image s' r tf (pg b.2) H O' m' ∧ Loaded file s' r m' b.2 (segs ++ segmentsFrom file j off)) s := by
  induction j generalizing s sz O m off segs with
  | zero =>
    rw [segmentsFrom, List.append_nil]
    exact fun _ => ⟨O, m, hi, h⟩
  | succ j ih =>
    have hnext : off + PROGHDR + PROGHDR * j < 2 ^ 32 := by
      unfold PROGHDR at *
      omega
    rw [loadFrom, Nat.mod_eq_of_lt (by omega)]
    rw [segmentsFrom] at hsegs hord ⊢
    obtain ⟨bs, hbs⟩ : ∃ bs, bs = readi file off PROGHDR := ⟨_, rfl⟩
    obtain ⟨ph, hph⟩ : ∃ ph, ph = parseProghdr bs := ⟨_, rfl⟩
    rw [← hbs, ← hph] at hsegs hord ⊢
    split
    · rintro ⟨⟩
    split
    next hty =>
      rw [if_neg hty] at hsegs hord
      exact ih hi ha h hnext hsegs hord
    next hty =>
    rw [if_pos (not_not.mp hty)] at hsegs hord ⊢
    split
    · rintro ⟨⟩
    split
    · rintro ⟨⟩
    split
    · rintro ⟨⟩
    next hmem hwrap hal =>
    have hv : ph.vaddr < 2 ^ 64 := hph ▸ vaddr_lt bs
    have hm : ph.memsz < 2 ^ 64 := hph ▸ memsz_lt bs
    have hend : (ph.vaddr + ph.memsz) % 2 ^ 64 = ph.vaddr + ph.memsz := by omega
    rw [hend, Ensures, wp_bind]
    have hback : Ensures (uvmalloc r sz (ph.vaddr + ph.memsz) (flags2perm ph.flags))
        (fun z _ => ph.vaddr + ph.memsz < sz → z = sz) s := by
      rw [uvmalloc]
      split
      · exact fun _ => rfl
      next hc =>
        rw [Ensures, wp_iff]
        exact ⟨fun _ _ _ hlt => absurd hlt hc, fun _ _ _ => trivial⟩
    refine ((wp_uvmalloc_image (flags2perm_lt _) hi).and hback).mono (fun _ _ _ => trivial)
      fun z s₁ h₁ => ?_
    obtain ⟨hall, hlow⟩ := h₁
    split
    · rintro ⟨⟩
    next hz =>
    obtain ⟨sz₁, O₁, m₁, hi₁, hsame, hacc, hres⟩ := hall.image
    obtain ⟨rfl, hle₁, hle₂, hup, hg, hzero⟩ := hres.resolve_right fun hc => hz hc.1
    have hmax : z = max sz (ph.vaddr + ph.memsz) := by omega
    have hacc₁ := hacc ha
    have hk := hi₁.maps.le
    have hrange : ∀ x < ph.filesz, s₁.Access r (ph.vaddr + x) := fun x hx => by
      have hlt := covers_lt ph (⟨by omega, by omega⟩ : ph.Covers (ph.vaddr + x)) hle₂
      exact hi₁.access_iff.mpr ⟨hlt, hacc₁ _ hlt⟩
    have hsize : ph.filesz < 2 ^ 31 := by
      unfold pg PGSIZE at hk
      omega
    have hva : ∀ x < ph.filesz, (ph.vaddr + x) / PGSIZE < pg z := fun x hx =>
      covers_lt ph ⟨by omega, by omega⟩ hle₂
    rw [wp_bind]
    refine ((wp_loadseg hi₁ hacc₁ hva).and (wp_loadseg_exact hi₁.separate (not_not.mp hal) hrange
      (hsegs ph List.mem_cons_self) hsize)).mono (fun _ _ _ => trivial)
      fun b s₂ h₂ => ?_
    obtain ⟨⟨hf₂, hfree⟩, hload⟩ := h₂
    cases b with
    | false => rintro ⟨⟩
    | true =>
      obtain ⟨hcopy, hin⟩ := hload rfl
      have hord' : ∀ a ∈ segs, Before a ph := fun a ha' =>
        (List.pairwise_append.mp hord).2.2 a ha' ph List.mem_cons_self
      have hnew := h.step hi hi₁ hacc₁ hsame hall.frame hg hzero hmax (Nat.le_of_not_lt hmem)
        (not_not.mp hal) hord' hcopy hin
      have hcons : segs ++ ph :: segmentsFrom file j (off + PROGHDR) =
          segs ++ [ph] ++ segmentsFrom file j (off + PROGHDR) := by simp
      rw [hcons] at hord ⊢
      exact ih (hi₁.congr hf₂ hfree) hacc₁ hnew hnext
        (fun ph' hph' => hsegs ph' (List.mem_cons_of_mem _ hph')) hord

/-! ## The image of the program -/

/-- The permission bits of a page of a segment. -/
theorem flags_bits {e flags : ℕ}
    (h : PTE_FLAGS e = PTE_R ||| PTE_U ||| flags2perm flags ||| PTE_V) :
    e &&& PTE_R ≠ 0 ∧ e &&& PTE_U ≠ 0 ∧ (e &&& PTE_W ≠ 0 ↔ flags &&& 2 ≠ 0) ∧
      (e &&& PTE_X ≠ 0 ↔ flags &&& 1 ≠ 0) := by
  have hbit : ∀ w < 2 ^ 10, e &&& w = PTE_FLAGS e &&& w := fun w hw => by
    have hlt : e &&& w < 2 ^ 10 := lt_of_le_of_lt Nat.and_le_right hw
    have hmod := Nat.and_mod_two_pow (a := e) (b := w) (n := 10)
    rwa [Nat.mod_eq_of_lt hlt, Nat.mod_eq_of_lt hw] at hmod
  rw [hbit _ (by decide), hbit PTE_U (by decide), hbit PTE_W (by decide), hbit PTE_X (by decide), h]
  unfold flags2perm
  generalize flags &&& 1 = a
  generalize flags &&& 2 = b
  rcases eq_or_ne a 0 with rfl | ha <;> rcases eq_or_ne b 0 with rfl | hb
  · decide
  · rw [if_neg (by decide), if_pos hb]
    exact ⟨by decide, by decide, iff_of_true (by decide) hb, by decide⟩
  · rw [if_pos ha, if_neg (by decide)]
    exact ⟨by decide, by decide, by decide, iff_of_true (by decide) ha⟩
  · rw [if_pos ha, if_pos hb]
    exact ⟨by decide, by decide, iff_of_true (by decide) hb, iff_of_true (by decide) ha⟩

/-- If the segments come in the order of their addresses and share no page, then each has its bytes
of the file and the permissions that its flags say, and all other bytes below the guard page are
zero. -/
theorem exec_image {H₀ : Multiset ℕ} (hH : H = {tf} + H₀) (h : Image s r tf (pg sz) H O m)
    (hphoff : (elfhdr file).get64 32 < 2 ^ 31) (hoff : ∀ ph ∈ segments file, ph.off < 2 ^ 31)
    (hord : (segments file).Pairwise Before) {new sz' argc : ℕ}
    (hexec : exec r sz tf (some file) argv s = .ok (some (new, sz', argc)) s') :
    (∀ ph ∈ segments file, ∀ i < ph.filesz, ph.off + i < file.length ∧
      s'.byte new (ph.vaddr + i) = file.getD (ph.off + i) 0) ∧
    (∀ va < sz' - 2 * PGSIZE, (∀ ph ∈ segments file, ¬ ph.InFile va) → s'.byte new va = 0) ∧
    ∀ ph ∈ segments file, ∀ x va, ph.Covers x → x / PGSIZE = va / PGSIZE →
      s'.Access new va ∧ s'.entry new va &&& PTE_R ≠ 0 ∧
      (s'.entry new va &&& PTE_W ≠ 0 ↔ ph.flags &&& 2 ≠ 0) ∧
      (s'.entry new va &&& PTE_X ≠ 0 ↔ ph.flags &&& 1 ≠ 0) := by
  obtain ⟨s₁, s₂, sz₂, sp, c, -, hload, hsz, -, -, -, X, O₁, m₁, hi₁, hbuilt⟩ :=
    exec_built hH h hexec
  have hnum : (elfhdr file).get16 56 < 65536 := Bytes.get16_lt
  have hempty : Loaded file s₁ new m₁ 0 [] := ⟨nofun, .inl rfl, nofun, fun va hva => ?_, nofun⟩
  swap
  · exact absurd hva (Nat.not_lt_zero _)
  obtain ⟨O₂, m₂, hi₂, hl⟩ := (ensures_loadFrom hi₁ nofun hempty
    (by unfold PROGHDR; omega) hoff hord).ok hload rfl
  obtain ⟨O', m', hs⟩ := hbuilt O₂ m₂ hi₂
  dsimp only at hsz hi₂ hl hs
  have hguard : sz' - 2 * PGSIZE = pg sz₂ * PGSIZE := by
    rw [hsz, ← Nat.sub_mul, Nat.add_sub_cancel]
  refine ⟨fun ph hph i hi => ?_, fun va hva hnot => ?_, fun ph hph x va hc hx => ?_⟩
  · obtain ⟨hlen, hbyte⟩ := hl.bytes ph hph i hi
    obtain ⟨h₁, -, h₃⟩ := hl.fits ph hph
    refine ⟨hlen, ?_⟩
    rw [hs.bytes _ (covers_lt ph ⟨by omega, by omega⟩ h₃), hbyte]
  · have hlt : va / PGSIZE < pg sz₂ := by
      rw [hguard] at hva
      exact Nat.div_lt_of_lt_mul (by rwa [Nat.mul_comm])
    rw [hs.bytes va hlt]
    exact hl.zero va hlt hnot
  · have hlt : va / PGSIZE < pg sz₂ := hx ▸ covers_lt _ hc (hl.fits ph hph).2.2
    have hflags := hl.flags ph hph x hc
    rw [hx, ← hs.below _ hlt] at hflags
    obtain ⟨hr, hu, hw, he⟩ := flags_bits hflags
    have hacc : s'.Access new va := hs.page.image.access_iff.mpr ⟨by omega, hu⟩
    rw [hs.page.image.entry_eq hacc.1]
    exact ⟨hacc, hr, hw, he⟩

theorem exec_image_small : ∃ (s : Kern) (b : ℕ × ℕ × ℕ) (s' : Mem),
    Booted (tiny 20 (by decide)) s ∧
    exec (s.proc 0).pagetable (s.proc 0).sz (s.proc 0).trapframe (some smallProgram)
      [[97, 98], []] s.mem = .ok (some b) s' ∧
    s'.byte b.1 2 = 3 ∧ s'.entry b.1 2 &&& PTE_X ≠ 0 := by
  obtain ⟨s, hb, hstate, ⟨new, sz', argc⟩, s', hexec⟩ := exec_small
  obtain ⟨O, m, hi⟩ := (booted_valid hb).inv.image hstate
  have hseg : segments smallProgram = [⟨1, 5, 120, 0, 4, 8⟩] := by decide
  have hmem : (⟨1, 5, 120, 0, 4, 8⟩ : Proghdr) ∈ segments smallProgram := by simp [hseg]
  obtain ⟨hbytes, -, hperm⟩ := exec_image rfl hi (by decide) (by simp [hseg])
    (by rw [hseg]; exact List.pairwise_singleton ..) hexec
  refine ⟨s, _, s', hb, hexec, (hbytes _ hmem 2 (by decide)).2, ?_⟩
  exact (hperm _ hmem 0 2 ⟨by decide, by decide⟩ (by decide)).2.2.2.mpr (by decide)

end Xv6.Vm

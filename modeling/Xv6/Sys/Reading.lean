import Xv6.Sys.Files
import Xv6.Sys.Offset

/-! # Reading from files

The bytes that `fileread` brings to user memory, and the offset of the file. The count
of a read is an `int` and becomes a `uint` in `readi`, so that a negative count is a
large one unless it makes the end of the read wrap.
-/

namespace Xv6.Sys

open Fs Function
open Offset (Shared writeLocked writeOp_eq wp_writeLocked beginOp_eq_ok endOp_eq_ok)

variable {sb : Superblock} {ip : Iptr} {s s' : Kernel} {fs : State} {f : Fptr} {dst : ℕ → Bool}
  {fuel off left n : ℕ}

/-! ## The bytes that arrive -/

section

variable (sb)

/-- The loop of `readi` as in `readiFrom`. Returns whether `either_copyout` never failed, and the
bytes that have come to the destination, also those before a failure. -/
def readiOutFrom (ip : Iptr) (dst : ℕ → Bool) : ℕ → ℕ → ℕ → K (Bool × List UInt8)
  | 0, _, _ => pure (true, [])
  | fuel + 1, off, left =>
    if left = 0 then pure (true, [])
    else do
      let addr ← bmap sb ip (off / BSIZE)
      if addr = 0 then pure (true, [])
      else do
        let bp ← bread addr
        let m := min left (BSIZE - off % BSIZE)
        brelse addr
        let chunk := (List.range m).map fun i => bp.get (off % BSIZE + i)
        if (List.range m).all fun i => dst i then do
          let rest ← readiOutFrom ip (fun i => dst (m + i)) fuel (off + m) (left - m)
          pure (rest.1, chunk ++ rest.2)
        else pure (false, chunk.take ((List.range m).takeWhile fun i => dst i).length)

def readiOut (ip : Iptr) (dst : ℕ → Bool) (off n : ℕ) : K (Bool × List UInt8) := do
  let d ← getInode ip
  if off > d.size ∨ (off + n) % 2 ^ 32 < off then pure (true, [])
  else
    let n := if (off + n) % 2 ^ 32 > d.size then d.size - off else n
    readiOutFrom sb ip dst n off n

/-- `fileread` of an inode file, with the bytes that come to user memory. -/
def filereadOut (f : Fptr) (dst : ℕ → Bool) (n : ℤ) : S (ℤ × List UInt8) := do
  let x ← getFile f
  if !x.readable then pure (-1, [])
  else do
    let r ← onFs do
      ilock sb x.ip
      let r ← readiOut sb x.ip dst x.off (uint n)
      iunlock x.ip
      pure r
    if r.1 then do
      modifyFile f fun x => { x with off := (x.off + r.2.length) % 2 ^ 32 }
      pure (r.2.length, r.2)
    else pure (-1, r.2)

end

/-- What `readi` makes of the bytes. -/
def readiResult (r : Bool × List UInt8) : Option (List UInt8) := if r.1 then some r.2 else none

theorem readiFrom_eq : readiFrom sb ip dst fuel off left =
    readiResult <$> readiOutFrom sb ip dst fuel off left := by
  induction fuel generalizing dst off left with
  | zero => rfl
  | succ fuel ih =>
    rw [readiFrom, readiOutFrom]
    split
    · rfl
    · simp only [map_bind]
      congr 1
      funext addr
      split
      · rfl
      · simp only [map_bind]
        congr 1
        funext bp
        congr 1
        funext _
        split
        · rw [ih]
          simp only [map_eq_pure_bind, bind_assoc, pure_bind]
          congr 1
          funext rest
          unfold readiResult
          cases rest.1 <;> rfl
        · rfl

theorem readi_eq : readi sb ip dst off n = readiResult <$> readiOut sb ip dst off n := by
  rw [readi, readiOut, map_bind]
  congr 1
  funext d
  split
  · rfl
  · exact readiFrom_eq

theorem onFs_map {α β : Type} (g : α → β) (m : K α) : onFs (g <$> m) = g <$> onFs m := by
  funext s
  simp only [onFs, Functor.map, EStateM.map]
  cases m s.fs <;> rfl

theorem getFile_bind {α : Type} (k : File → S α) : (getFile f >>= k) s = k (s.ftable f) s := rfl

theorem fileread_eq {killed : Bool} {dev m : ℤ} (ht : (s.ftable f).type = .inode) :
    fileread sb f killed dst dev m s = ((fun r => some r.1) <$> filereadOut sb f dst m) s := by
  have hfs : ∀ x : File, (do
      ilock sb x.ip
      let r ← readi sb x.ip dst x.off (uint m)
      iunlock x.ip
      pure r) = readiResult <$> (do
      ilock sb x.ip
      let r ← readiOut sb x.ip dst x.off (uint m)
      iunlock x.ip
      pure r) := fun x => by
    rw [readi_eq]
    simp only [map_eq_pure_bind, bind_assoc, pure_bind]
  rw [fileread, filereadOut, map_bind, getFile_bind, getFile_bind]
  split
  · rfl
  simp only [ht, hfs, onFs_map]
  simp only [map_eq_pure_bind, bind_assoc, pure_bind]
  refine congrFun (congrArg _ (funext fun r => ?_)) s
  unfold readiResult
  cases r.1 <;> rfl

/-! ## One read -/

/-- The file is open on an inode whose lock nobody holds. -/
structure Opened (sb : Superblock) (f : Fptr) (s : Kernel) : Prop where
  type : (s.ftable f).type = .inode
  shared : Shared sb (s.ftable f).ip s.fs
  ops : 0 ≤ s.fs.log.outstanding
  off_lt : (s.ftable f).off < 2 ^ 32
  node : (s.fs.disk.nodes (s.fs.itable (s.ftable f).ip).inum).Ok

/-- The size of the file. -/
def Kernel.fileSize (s : Kernel) (f : Fptr) : ℕ :=
  (s.fs.disk.nodes (s.fs.itable (s.ftable f).ip).inum).size

theorem ensures_readiOutFrom :
    Ensures (readiOutFrom sb ip dst fuel off left) (fun r _ => r.2.length ≤ left) fs := by
  induction fuel generalizing dst off left fs with
  | zero => exact Nat.zero_le _
  | succ fuel ih =>
    rw [readiOutFrom]
    split
    · exact Nat.zero_le _
    · rw [Ensures, wp_bind, wp_iff]
      refine ⟨fun addr fs₁ _ => ?_, fun _ _ _ => trivial⟩
      split
      · exact Nat.zero_le _
      · rw [wp_bind, wp_iff]
        refine ⟨fun bp fs₂ _ => ?_, fun _ _ _ => trivial⟩
        rw [wp_bind, wp_iff]
        refine ⟨fun _ fs₃ _ => ?_, fun _ _ _ => trivial⟩
        split
        · rw [wp_bind]
          refine ih.post fun rest _ hrest => ?_
          simp only [wp_pure, List.length_append, List.length_map, List.length_range]
          omega
        · simp only [wp_pure, List.length_take, List.length_map, List.length_range]
          omega

/-- The number of bytes that `readi` is to read, after it has been clipped to the size. -/
def clipped (size off n : ℕ) : ℕ :=
  if off > size ∨ (off + n) % 2 ^ 32 < off then 0
  else if (off + n) % 2 ^ 32 > size then size - off else n

theorem ensures_readiOut : Ensures (readiOut sb ip dst off n)
    (fun r _ => r.2.length ≤ clipped (fs.itable ip).size off n) fs := by
  rw [readiOut, Ensures, wp_bind, wp_getInode]
  unfold clipped
  split
  · exact Nat.zero_le _
  · exact ensures_readiOutFrom

theorem clipped_eq {size : ℕ} (hoff : off < 2 ^ 32) (hn : n < 2 ^ 32) (hs : size < 2 ^ 32) :
    clipped size off n = if size < off ∨ 2 ^ 32 ≤ off + n then 0 else min n (size - off) := by
  unfold clipped
  split_ifs <;> omega

theorem off_add_clipped {size : ℕ} (hs : size < 2 ^ 32) (hoff : off < 2 ^ 32) (hn : n < 2 ^ 32) :
    off + clipped size off n ≤ max off size := by
  unfold clipped
  split_ifs <;> omega

theorem wp_readiOut {nd : Node} (ht : (fs.itable ip).type ≠ 0) (hheld : fs.held = [])
    (hnd : (fs.flush ip).nodes (fs.itable ip).inum = nd) (hok : nd.Ok) (hoff : off < 2 ^ 32)
    (hn : n < 2 ^ 32) : wp (readiOut sb ip dst off n) (fun _ _ => False) (fun r fs' => fs' = fs ∧
      r.2.length ≤ clipped nd.size off n ∧ (r.1 = true → r.2.length = clipped nd.size off n) ∧
      ((∀ i, dst i = true) → r.1 = true)) fs := by
  have hcap : MAXFILE * BSIZE < 2 ^ 32 := by decide
  have hsize : (fs.itable ip).size = nd.size := by
    rw [← hnd, congrArg Attr.size (Disk.nodes_toAttr (by rw [flush_dinode]; exact ht)),
      flush_dinode]
  have hclip := clipped_eq hoff hn (hok.size_le.trans_lt hcap)
  have hread : wp (readi sb ip dst off n) (fun _ _ => False) (fun r fs' => fs' = fs ∧
      r = if nd.size < off ∨ 2 ^ 32 ≤ off + n then some []
        else if ∀ i < min n (nd.size - off), dst i = true then
          some (nd.read off (min n (nd.size - off)))
        else none) fs := wp_readi ht hheld hnd hok hoff hn fun r hr => ⟨rfl, hr⟩
  rw [readi_eq, wp_map] at hread
  refine (hread.and ensures_readiOut).mono (fun _ _ he => he.1) fun r fs' ⟨⟨hfs, hr⟩, hle⟩ => ?_
  rw [hsize] at hle
  refine ⟨hfs, hle, fun h₁ => ?_, fun hdst => ?_⟩
  · rw [readiResult, if_pos h₁] at hr
    rw [hclip]
    split_ifs at hr ⊢
    · rw [Option.some.inj hr, List.length_nil]
    · rw [Option.some.inj hr, Node.length_read]
  · rw [if_pos fun i _ => hdst i] at hr
    by_contra hf
    rw [readiResult, if_neg hf] at hr
    split at hr <;> cases hr

/-- The section of `fileread` that holds the lock of the inode. -/
theorem wp_readLocked {nd : Node} (h : Shared sb ip fs)
    (hnd : fs.disk.nodes (fs.itable ip).inum = nd) (hok : nd.Ok) (hoff : off < 2 ^ 32)
    (hn : n < 2 ^ 32) : wp (do
      ilock sb ip
      let r ← readiOut sb ip dst off n
      iunlock ip
      pure r) (fun _ _ => False) (fun r fs' => (Shared sb ip fs' ∧ fs'.disk = fs.disk ∧
        fs'.log = fs.log ∧ (fs'.itable ip).inum = (fs.itable ip).inum) ∧
      r.2.length ≤ clipped nd.size off n ∧ (r.1 = true → r.2.length = clipped nd.size off n) ∧
      ((∀ i, dst i = true) → r.1 = true)) fs := by
  obtain ⟨d, hd⟩ : ∃ d : Inode, d = { fs.itable ip with
    toDinode := fs.disk.dinode (fs.itable ip).inum, locked := true, valid := true } := ⟨_, rfl⟩
  have hinum : d.inum = (fs.itable ip).inum := by rw [hd]
  have hdin : d.toDinode = fs.disk.dinode (fs.itable ip).inum := by rw [hd]
  have hself : (fs.setInode ip d).itable ip = d := by
    rw [State.setInode_itable, update_self]
  have hflush : (fs.setInode ip d).flush ip = fs.disk := by
    rw [State.flush, hself, hinum, hdin]
    exact Disk.setDinode_self
  have ht : ((fs.setInode ip d).itable ip).type ≠ 0 := by
    rw [hself, hdin]
    exact h.type
  have hnd' : ((fs.setInode ip d).flush ip).nodes ((fs.setInode ip d).itable ip).inum = nd := by
    rw [hflush, hself, hinum, hnd]
  rw [wp_bind]
  refine Offset.wp_ilock h ?_
  rw [← hd, wp_bind]
  refine (wp_readiOut ht h.held hnd' hok hoff hn).post fun r fs' ⟨hfs, hres⟩ => ?_
  subst hfs
  have href : 1 ≤ ((fs.setInode ip d).itable ip).ref := by
    rw [hself, hd]
    exact h.ref
  rw [wp_bind]
  refine Offset.wp_iunlock (by rw [hself, hd]) href ⟨⟨?_, rfl, rfl, ?_⟩, hres⟩
  · refine .unlock h.own h.held h.committing href ?_ ht
    rw [hself, hdin, hinum]
    rfl
  · rw [State.setInode_itable, update_self, hself, hinum]

/-- A read through the file. -/
structure ReadStep (sb : Superblock) (f : Fptr) (s : Kernel) (r : ℤ × List UInt8) (s' : Kernel) :
    Prop where
  opened : Opened sb f s'
  size : s'.fileSize f = s.fileSize f
  off : r.1 = -1 ∧ (s'.ftable f).off = (s.ftable f).off ∨
    r.1 = r.2.length ∧ (s'.ftable f).off = (s.ftable f).off + r.2.length

/-- The file after a section that leaves the disk alone. -/
theorem Opened.congr (h : Opened sb f s) (hx : s'.ftable f =
    { s.ftable f with off := (s'.ftable f).off }) (hoff : (s'.ftable f).off < 2 ^ 32)
    (hsh : Shared sb (s.ftable f).ip s'.fs) (hd : s'.fs.disk = s.fs.disk)
    (hl : s'.fs.log = s.fs.log)
    (hi : (s'.fs.itable (s.ftable f).ip).inum = (s.fs.itable (s.ftable f).ip).inum) :
    Opened sb f s' ∧ s'.fileSize f = s.fileSize f := by
  have hip : (s'.ftable f).ip = (s.ftable f).ip := by rw [hx]
  refine ⟨⟨?_, hip ▸ hsh, hl ▸ h.ops, hoff, ?_⟩, ?_⟩
  · rw [hx]
    exact h.type
  · rw [hip, hi, hd]
    exact h.node
  · rw [Kernel.fileSize, Kernel.fileSize, hip, hi, hd]

theorem uint_lt (m : ℤ) : uint m < 2 ^ 32 := by
  unfold uint
  omega

theorem wp_filereadOut (h : Opened sb f s) (dst : ℕ → Bool) (m : ℤ) :
    wp (filereadOut sb f dst m) (fun _ _ => False) (fun r s' => ReadStep sb f s r s' ∧
      r.2.length ≤ clipped (s.fileSize f) (s.ftable f).off (uint m) ∧
      ((s.ftable f).readable = false → r.2 = []) ∧
      ((s.ftable f).readable = true → (∀ i, dst i = true) →
        r.2.length = clipped (s.fileSize f) (s.ftable f).off (uint m))) s := by
  have hcap : MAXFILE * BSIZE < 2 ^ 32 := by decide
  have hsize : s.fileSize f < 2 ^ 32 := h.node.size_le.trans_lt hcap
  have hmax := off_add_clipped hsize h.off_lt (uint_lt m)
  have hoff := h.off_lt
  rw [filereadOut, wp_bind, wp_getFile]
  split
  next hr =>
    rw [Bool.not_eq_true_eq_eq_false] at hr
    exact ⟨⟨h, rfl, .inl ⟨rfl, rfl⟩⟩, Nat.zero_le _, fun _ => rfl, by rw [hr]; nofun⟩
  next hread =>
  rw [Bool.not_eq_true, Bool.not_eq_false'] at hread
  rw [wp_bind, wp_onFs]
  refine (wp_readLocked h.shared rfl h.node h.off_lt (uint_lt m)).post
    fun r fs' ⟨⟨hsh, hd, hl, hi⟩, hle, hlen, hall⟩ => ?_
  split
  next hr =>
    have hlen := hlen hr
    have hmod : ((s.ftable f).off + r.2.length) % 2 ^ 32 = (s.ftable f).off + r.2.length := by
      rw [Kernel.fileSize] at hmax hsize
      omega
    rw [wp_bind, wp_modifyFile, wp_pure]
    dsimp only
    rw [hmod]
    obtain ⟨t, hs'⟩ : ∃ t : Kernel, t = Kernel.setFile { s with fs := fs' } f
      { s.ftable f with off := (s.ftable f).off + r.2.length } := ⟨_, rfl⟩
    have ht : t.ftable f = { s.ftable f with off := (s.ftable f).off + r.2.length } := by simp [hs']
    have hfs : t.fs = fs' := by rw [hs']; rfl
    rw [← hs']
    rw [← hfs] at hsh hd hl hi
    obtain ⟨ho, hsame⟩ := h.congr (by simp [ht]) (by rw [ht]; exact hmod ▸ Nat.mod_lt _ (by decide))
      hsh hd hl hi
    exact ⟨⟨ho, hsame, .inr ⟨rfl, by rw [ht]⟩⟩, hle, by rw [hread]; nofun, fun _ _ => hlen⟩
  next hr =>
    obtain ⟨ho, hsame⟩ : Opened sb f { s with fs := fs' } ∧ _ :=
      h.congr rfl h.off_lt hsh hd hl hi
    exact ⟨⟨ho, hsame, .inl ⟨rfl, rfl⟩⟩, hle, by rw [hread]; nofun, fun _ hc => absurd (hall hc) hr⟩

/-- Which counts are respected. -/
theorem clipped_le_iff {size : ℕ} {m : ℤ} (hs : size < 2 ^ 31) (hoff : off < 2 ^ 32)
    (hm : -2 ^ 31 ≤ m) (hm' : m < 2 ^ 31) :
    (clipped size off (uint m) : ℤ) ≤ max m 0 ↔ 0 ≤ m ∨ 0 ≤ off + m ∨ size ≤ off := by
  rw [clipped_eq hoff (uint_lt m) (by omega)]
  unfold uint
  split_ifs <;> omega

/-! ## Writes -/

variable {src : ℕ → Option UInt8}

theorem ensures_writeOp (hsb : sb.Valid) (h : Shared sb ip fs) (hop : 0 ≤ fs.log.outstanding)
    (hok : (fs.disk.nodes (fs.itable ip).inum).Ok) (hoff : off < 2 ^ 32) (hn : n < 2 ^ 32) :
    Ensures (writeOp sb ip src off n) (fun r fs' =>
      Shared sb ip fs' ∧ 0 ≤ fs'.log.outstanding ∧
      (fs'.itable ip).inum = (fs.itable ip).inum ∧ (fs'.disk.nodes (fs.itable ip).inum).Ok ∧
      (fs.disk.nodes (fs.itable ip).inum).size ≤ (fs'.disk.nodes (fs.itable ip).inum).size ∧
      (0 < r → off + r.toNat ≤ (fs'.disk.nodes (fs.itable ip).inum).size)) fs := by
  rw [writeOp_eq, Ensures, wp_bind, wp_iff]
  refine ⟨fun _ fs₁ h₁ => ?_, fun _ _ _ => trivial⟩
  obtain ⟨l₁, rfl, hout, hc⟩ := beginOp_eq_ok h₁
  rw [wp_bind]
  refine (wp_writeLocked hsb (h.setLog hc) (by simp [hout, hop]) hoff hn).post
    fun r fs₂ ⟨hsh, hout₂, hinum, hres⟩ => ?_
  rw [wp_bind, wp_iff]
  refine ⟨fun _ fs₃ h₃ => ?_, fun _ _ _ => trivial⟩
  obtain ⟨l₃, rfl, hout₃, hc₃⟩ := endOp_eq_ok h₃
  refine ⟨hsh.setLog hc₃, ?_, hinum, ?_⟩
  · simp only [State.setLog_log, hout₃, hout₂, hout]
    omega
  · simp only [State.setLog_disk, State.setLog_itable] at hres ⊢
    rcases hres with ⟨rfl, hd⟩ | ⟨k, rfl, hle, hmax, nd, hw, hnode⟩
    · rw [hd]
      exact ⟨hok, le_rfl, nofun⟩
    · rw [hnode]
      exact ⟨hw.ok hok hle hmax, le_max_left _ _, fun _ => le_max_right _ _⟩

/-- What a write leaves: the file may have grown, and its offset has moved inside it. -/
structure WriteStep (sb : Superblock) (f : Fptr) (s s' : Kernel) : Prop where
  opened : Opened sb f s'
  size : s.fileSize f ≤ s'.fileSize f
  off : (s'.ftable f).off = (s.ftable f).off ∨ (s'.ftable f).off ≤ s'.fileSize f

theorem WriteStep.trans {s'' : Kernel} (h : WriteStep sb f s s') (h' : WriteStep sb f s' s'') :
    WriteStep sb f s s'' where
  opened := h'.opened
  size := h.size.trans h'.size
  off := by
    rcases h'.off with he | hle
    · rw [he]
      exact h.off.imp_right fun hle => hle.trans h'.size
    · exact .inr hle

theorem ensures_filewriteFrom {i : ℕ} (hsb : sb.Valid) (h : Opened sb f s) :
    Ensures (filewriteFrom sb f src fuel i n)
      (fun _ s' => WriteStep sb f s s') s := by
  have hcap : maxWrite < 2 ^ 32 ∧ MAXFILE * BSIZE < 2 ^ 32 := by decide
  induction fuel generalizing s i with
  | zero => exact ⟨h, le_rfl, .inl rfl⟩
  | succ fuel ih =>
    rw [filewriteFrom]
    split
    swap
    · exact ⟨h, le_rfl, .inl rfl⟩
    rw [Ensures, wp_bind, wp_getFile, wp_bind, wp_onFs]
    refine (ensures_writeOp hsb h.shared h.ops h.node h.off_lt (by omega)).post
      fun r fs' ⟨hsh, hout, hinum, hok, hsize, hoff⟩ => ?_
    -- the loop ends or goes on
    have hnext : ∀ t, WriteStep sb f s t → Ensures
        (if r ≠ (min (n - i) maxWrite : ℕ) then pure i else filewriteFrom sb f src fuel (i + r.toNat) n)
        (fun _ s' => WriteStep sb f s s') t := fun t ht => by
      split
      · exact ht
      · exact (ih ht.opened).post fun _ s' h' => ht.trans h'
    have hnode : ∀ t : Kernel, t.fs = fs' → t.ftable f = { s.ftable f with off := (t.ftable f).off } →
        (t.ftable f).off < 2 ^ 32 → Opened sb f t ∧ t.fileSize f = (fs'.disk.nodes
          (s.fs.itable (s.ftable f).ip).inum).size := fun t hfs hx hlt => by
      have hip : (t.ftable f).ip = (s.ftable f).ip := by rw [hx]
      have hty : (t.ftable f).type = .inode := by
        rw [hx]
        exact h.type
      refine ⟨⟨hty, by rwa [hfs, hip], by rwa [hfs], hlt, by rwa [hfs, hip, hinum]⟩, ?_⟩
      rw [Kernel.fileSize, hfs, hip, hinum]
    rw [wp_bind, wp_runIf]
    refine ⟨fun hpos => ?_, fun _ => ?_⟩
    · have hin := hoff hpos
      have hle := hok.size_le
      have hmod : ((s.ftable f).off + r.toNat) % 2 ^ 32 = (s.ftable f).off + r.toNat :=
        Nat.mod_eq_of_lt (by omega)
      rw [wp_modifyFile]
      dsimp only
      rw [hmod]
      refine hnext _ ?_
      obtain ⟨ho, hsz⟩ := hnode (Kernel.setFile { s with fs := fs' } f
        { s.ftable f with off := (s.ftable f).off + r.toNat }) rfl (by simp)
        (by rw [Kernel.setFile_ftable, update_self]; dsimp only; omega)
      refine ⟨ho, hsz ▸ hsize, .inr ?_⟩
      rw [hsz, Kernel.setFile_ftable, update_self]
      exact hin
    · obtain ⟨ho, hsz⟩ := hnode { s with fs := fs' } rfl rfl h.off_lt
      exact hnext _ ⟨ho, hsz ▸ hsize, .inl rfl⟩

theorem ensures_filewrite {killed : Bool} {dev m : ℤ} (hsb : sb.Valid) (h : Opened sb f s) :
    Ensures (filewrite sb f killed src dev m)
      (fun _ s' => WriteStep sb f s s') s := by
  rw [filewrite, Ensures, wp_bind, wp_getFile]
  split
  · exact ⟨h, le_rfl, .inl rfl⟩
  · rw [h.type, wp_bind]
    exact ensures_filewriteFrom hsb h

/-- What `fileread` returns and how it moves the offset. -/
theorem fileread_returns (h : Opened sb f s) (killed : Bool) (dst : ℕ → Bool) (dev m : ℤ) :
    ∃ r s', filereadOut sb f dst m s = .ok r s' ∧
      fileread sb f killed dst dev m s = .ok (some r.1) s' ∧ ReadStep sb f s r s' ∧
      r.2.length ≤ clipped (s.fileSize f) (s.ftable f).off (uint m) ∧
      ((s.ftable f).readable = false → r.2 = []) ∧
      ((s.ftable f).readable = true → (∀ i, dst i = true) →
        r.2.length = clipped (s.fileSize f) (s.ftable f).off (uint m)) := by
  obtain ⟨r, s', he, hres⟩ := (wp_filereadOut h dst m).returns
  refine ⟨r, s', he, ?_, hres⟩
  rw [fileread_eq h.type]
  simp only [Functor.map, EStateM.map, he]

/-! ## Sequences of reads and writes -/

/-- A read or a write through the file, or what others do to the file system. -/
inductive FileAct
  | read (killed : Bool) (dst : ℕ → Bool) (dev n : ℤ)
  | write (killed : Bool) (src : ℕ → Option UInt8) (dev n : ℤ)
  | other (fs : State)

/-- One action, and the largest size that the file has had. -/
def FileNext (sb : Superblock) (f : Fptr) (s : Kernel × ℕ) (a : FileAct) (s' : Kernel × ℕ) : Prop :=
  (match a with
    | .read killed dst dev n => ∃ r, fileread sb f killed dst dev n s.1 = .ok r s'.1
    | .write killed src dev n => ∃ r, filewrite sb f killed src dev n s.1 = .ok r s'.1
    | .other fs => s'.1 = { s.1 with fs := fs } ∧ Opened sb f s'.1 ∧
        (fs.itable (s.1.ftable f).ip).inum = (s.1.fs.itable (s.1.ftable f).ip).inum) ∧
  s'.2 = max s.2 (s'.1.fileSize f)

/-- The offset is at most the largest size that the file has had. -/
structure Inside (sb : Superblock) (f : Fptr) (s : Kernel × ℕ) : Prop where
  opened : Opened sb f s.1
  size : s.1.fileSize f ≤ s.2
  off : (s.1.ftable f).off ≤ s.2

theorem Inside.next (hsb : sb.Valid) {s s' : Kernel × ℕ} {a : FileAct} (h : Inside sb f s)
    (ha : FileNext sb f s a s') : Inside sb f s' := by
  obtain ⟨hstep, hmax⟩ := ha
  have hold : s.2 ≤ s'.2 := hmax ▸ le_max_left _ _
  have hnew : s'.1.fileSize f ≤ s'.2 := hmax ▸ le_max_right _ _
  cases a with
  | read killed dst dev n =>
    obtain ⟨x, hx⟩ := hstep
    obtain ⟨r, t, -, ht, hread, hle, -⟩ := fileread_returns h.opened killed dst dev n
    obtain ⟨-, rfl⟩ : some r.1 = x ∧ t = s'.1 := by
      rw [hx] at ht
      cases ht
      exact ⟨rfl, rfl⟩
    have hcap : MAXFILE * BSIZE < 2 ^ 32 := by decide
    have hend := off_add_clipped (h.opened.node.size_le.trans_lt hcap) h.opened.off_lt (uint_lt n)
    have hin := h.off.trans hold
    have hsz := h.size.trans hold
    refine ⟨hread.opened, hnew, ?_⟩
    rcases hread.off with ⟨-, he⟩ | ⟨-, he⟩
    · exact he ▸ hin
    · rw [he]
      exact (Nat.add_le_add_left hle _).trans (hend.trans (max_le hin hsz))
  | write killed src dev n =>
    obtain ⟨x, hx⟩ := hstep
    have hw : WriteStep sb f s.1 s'.1 := (ensures_filewrite hsb h.opened).ok hx
    refine ⟨hw.opened, hnew, hw.off.elim (fun he => he ▸ h.off.trans hold) fun hle => hle.trans hnew⟩
  | other fs =>
    obtain ⟨he, ho, -⟩ := hstep
    refine ⟨ho, hnew, ?_⟩
    rw [he]
    exact h.off.trans hold

theorem Inside.run (hsb : sb.Valid) {s s' : Kernel × ℕ} {l : List FileAct} (h : Inside sb f s)
    (hr : Run (FileNext sb f) s l s') : Inside sb f s' :=
  hr.invariant (fun _ _ _ _ ha hi => hi.next hsb ha) h

/-- `fileread` of an inode file returns. It brings no more than the count to user memory exactly
if the count is not negative, or `off + n` wraps in `readi`, or there is nothing left to read. It
returns `-1` or what it adds to the offset, and reads and writes never move the offset beyond the
largest size that the file has had. -/
theorem fileread_within_count_iff (hsb : sb.Valid) (h : Opened sb f s) {m : ℤ} (hm : -2 ^ 31 ≤ m)
    (hm' : m < 2 ^ 31) :
    ((∀ killed dst dev, ∃ r s', filereadOut sb f dst m s = .ok r s' ∧
        fileread sb f killed dst dev m s = .ok (some r.1) s' ∧ (r.2.length : ℤ) ≤ max m 0) ↔
      (s.ftable f).readable = false ∨ 0 ≤ m ∨ 0 ≤ (s.ftable f).off + m ∨
        s.fileSize f ≤ (s.ftable f).off) ∧
    (∀ killed dst dev, ∃ r s', fileread sb f killed dst dev m s = .ok (some r) s' ∧
      (r = -1 ∨ r = ((s'.ftable f).off : ℤ) - (s.ftable f).off)) ∧
    ∀ M l s' M', s.fileSize f ≤ M → (s.ftable f).off ≤ M →
      Run (FileNext sb f) (s, M) l (s', M') → (s'.ftable f).off ≤ M' := by
  have hcap : MAXFILE * BSIZE < 2 ^ 31 := by decide
  have hsize : s.fileSize f < 2 ^ 31 := h.node.size_le.trans_lt hcap
  have hclip := clipped_le_iff hsize h.off_lt hm hm'
  refine ⟨⟨fun hall => ?_, fun hc killed dst dev => ?_⟩, fun killed dst dev => ?_,
    fun M l s' M' hM hoff hrun => ?_⟩
  · by_cases hr : (s.ftable f).readable = false
    · exact .inl hr
    · obtain ⟨r, s', he, -, hle⟩ := hall false (fun _ => true) 0
      obtain ⟨r', t, he', -, -, -, -, hlen⟩ := fileread_returns h false (fun _ => true) 0 m
      obtain ⟨rfl, -⟩ : r' = r ∧ t = s' := by
        rw [he] at he'
        cases he'
        exact ⟨rfl, rfl⟩
      rw [hlen (Bool.eq_true_of_not_eq_false hr) fun _ => rfl] at hle
      exact .inr (hclip.1 hle)
  · obtain ⟨r, s', he, he', -, hle, hnone, -⟩ := fileread_returns h killed dst dev m
    refine ⟨r, s', he, he', ?_⟩
    rcases hc with hr | hc
    · rw [hnone hr]
      exact le_max_right _ _
    · exact (Int.ofNat_le.2 hle).trans (hclip.2 hc)
  · obtain ⟨r, s', -, he', hread, -⟩ := fileread_returns h killed dst dev m
    refine ⟨r.1, s', he', hread.off.imp And.left fun hoff => ?_⟩
    rw [hoff.1, hoff.2]
    omega
  · exact (Inside.run hsb ⟨h, hM, hoff⟩ hrun).off

/-- A process has the file of `oneFile` open at offset 0. -/
def openOne : Kernel where
  fs := Offset.twoWriters.fs
  ftable := fun _ =>
    { type := .inode, ref := 1, readable := true, writable := true, pipe := 0, ip := 0, off := 0,
      major := 0 }
  pipe := fun _ => none
  proc := fun _ =>
    { state := .runnable, killed := false, xstate := 0, pid := 1, parent := none,
      ofile := fun _ => some 0, cwd := none }
  nextpid := 2

theorem opened_openOne : Opened oneFile.superblock 0 openOne where
  type := rfl
  shared := ⟨flush_oneFile ▸ ready_oneFile.own, rfl, rfl, by decide, rfl, fun _ => rfl, by decide⟩
  ops := by decide
  off_lt := by decide
  node := flush_oneFile ▸ ok_oneFile

theorem fileread_within_count_first : Opened oneFile.superblock 0 openOne ∧
    ∀ killed dst dev, ∃ r s', filereadOut oneFile.superblock 0 dst 4 openOne = .ok r s' ∧
      fileread oneFile.superblock 0 killed dst dev 4 openOne = .ok (some r.1) s' ∧
      (r.2.length : ℤ) ≤ max 4 0 :=
  ⟨opened_openOne, (fileread_within_count_iff ⟨by decide, by decide⟩ opened_openOne (by decide)
    (by decide)).1.2 (.inr (.inl (by decide)))⟩

/-- The eight bytes of the file are read with the count -1. -/
theorem fileread_negative_count : Opened oneFile.superblock 0 openOne ∧
    ∃ s', filereadOut oneFile.superblock 0 (fun _ => true) (-1) openOne =
        .ok (8, List.replicate 8 0) s' ∧
      fileread oneFile.superblock 0 false (fun _ => true) 0 (-1) openOne = .ok (some 8) s' := by
  have hrun : wp (filereadOut oneFile.superblock 0 (fun _ => true) (-1)) (fun _ _ => False)
      (fun r _ => r = (8, List.replicate 8 0)) openOne := by decide +kernel
  obtain ⟨r, s', he, rfl⟩ := hrun.returns
  refine ⟨opened_openOne, s', he, ?_⟩
  rw [fileread_eq rfl]
  simp only [Functor.map, EStateM.map, he]

end Xv6.Sys

import Xv6.Fs.Calls
import Xv6.Vm.Stack

/-! # `exec` in the kernel

The whole call: the lookup of the path, the reads from the inode in between the
allocations, the release of the inode and the commit. With the inode locked every read
gives the bytes of the file, so that the memory goes through the states of `Vm.exec` for
this content.
-/

namespace Xv6.Exec

open Fs (Superblock Iptr K State Ref beginOp endOp namei ilock iunlockput)
open Vm (Mem procPagetable procFreepagetable ELFHDR PROGHDR)

/-- The parts of a process that `exec` changes. -/
structure Proc where
  pagetable : ℕ
  sz : ℕ
  trapframe : ℕ
  name : Bytes 16

structure World where
  fs : State
  mem : Mem
  proc : Proc

/-- A panic, or waiting for a lock or for space in the log. -/
inductive Stop
  | fs (e : Fs.Halt)
  | mem (e : Vm.Panic)

abbrev X := EStateM Stop World

section Program

variable {α : Type}

def onFs (m : K α) : X α := fun w =>
  match m w.fs with
  | .ok a fs => .ok a { w with fs := fs }
  | .error e fs => .error (.fs e) { w with fs := fs }

def onMem (m : Vm.M α) : X α := fun w =>
  match m w.mem with
  | .ok a mem => .ok a { w with mem := mem }
  | .error e mem => .error (.mem e) { w with mem := mem }

variable (sb : Superblock)

/-- `readi` to a kernel address, with the bytes that have arrived. -/
def read (ip : Iptr) (off n : ℕ) : X (List UInt8) := do
  let r ← onFs (Fs.readi sb ip (fun _ => true) off n)
  pure (r.getD [])

/-- The bytes come to the page at `pa`. -/
def store (pa : ℕ) (bs : List UInt8) : Vm.M Unit := do
  let s ← get
  Vm.setPage pa ((s.page pa).blit 0 (fun j => bs.getD j 0) bs.length)

/-- The loop of `loadseg`; `sz` and `offset` are `uint`. -/
def loadsegFrom (ip : Iptr) (pagetable va offset sz : ℕ) : ℕ → ℕ → X Bool
  | 0, _ => pure true
  | k + 1, i => do
    match ← onMem (Vm.walkaddr pagetable (va + i)) with
    | none => throw (.mem .loadseg)
    | some pa =>
      let n := min (sz - i) PGSIZE
      let bs ← read sb ip ((offset + i) % 2 ^ 32) n
      onMem (store pa bs)
      if bs.length ≠ n then pure false
      else loadsegFrom ip pagetable va offset sz k (i + PGSIZE)

def loadseg (ip : Iptr) (pagetable va offset sz : ℕ) : X Bool :=
  loadsegFrom sb ip pagetable va (offset % 2 ^ 32) (sz % 2 ^ 32) (Vm.pagesTo 0 (sz % 2 ^ 32)) 0

/-- The loop over the program headers; returns whether it succeeded, and the size reached. -/
def loadFrom (ip : Iptr) (pagetable : ℕ) : ℕ → ℕ → ℕ → X (Bool × ℕ)
  | 0, _, sz => pure (true, sz)
  | k + 1, off, sz => do
    let bs ← read sb ip (off % 2 ^ 32) PROGHDR
    let ph := Vm.parseProghdr bs
    if bs.length ≠ PROGHDR then pure (false, sz)
    else if ph.type ≠ Vm.ELF_PROG_LOAD then loadFrom ip pagetable k (off + PROGHDR) sz
    else if ph.memsz < ph.filesz then pure (false, sz)
    else if (ph.vaddr + ph.memsz) % 2 ^ 64 < ph.vaddr then pure (false, sz)
    else if ph.vaddr % PGSIZE ≠ 0 then pure (false, sz)
    else do
      let sz1 ← onMem (Vm.uvmalloc pagetable sz ((ph.vaddr + ph.memsz) % 2 ^ 64)
        (Vm.flags2perm ph.flags))
      if sz1 = 0 then pure (false, sz)
      else if ← loadseg sb ip pagetable ph.vaddr ph.off ph.filesz then
        loadFrom ip pagetable k (off + PROGHDR) sz1
      else pure (false, sz1)

/-- The inode is released and the transaction ends. -/
def release (ip : Iptr) : X Unit := onFs do
  iunlockput sb ip
  endOp

/-- The part of a path behind the last slash. -/
def lastPart (path : List UInt8) : List UInt8 :=
  (path.reverse.takeWhile fun c => c ≠ Fs.slash).reverse

/-- At most 15 bytes and a NUL are copied. -/
def safestrcpy (s : Bytes 16) (t : List UInt8) : Bytes 16 :=
  s.blit 0 (fun j => (t.take 15).getD j 0) (min t.length 15 + 1)

/-- The new image is complete: it takes the place of the old one. -/
def commit (x : Proc) (path : List UInt8) (elf : Bytes ELFHDR) (new sz sp : ℕ) : X Unit := do
  onMem (Vm.setReg x.trapframe 120 sp)
  modify fun w => { w with proc := { w.proc with name := safestrcpy w.proc.name (lastPart path) } }
  modify fun w => { w with proc := { w.proc with pagetable := new, sz := sz } }
  onMem (Vm.setReg x.trapframe 24 (elf.get64 24))
  onMem (Vm.setReg x.trapframe 48 sp)
  onMem (procFreepagetable x.pagetable x.sz)

/-- `exec` with the inode locked. -/
def execFile (x : Proc) (path : List UInt8) (argv : List (List UInt8)) (ip : Iptr) :
    X (Option ℕ) := do
  let bs ← read sb ip 0 ELFHDR
  let elf : Bytes ELFHDR := Bytes.zero.fill bs
  if bs.length ≠ ELFHDR then do
    release sb ip
    pure none
  else if elf.get32 0 ≠ Vm.ELF_MAGIC then do
    release sb ip
    pure none
  else
    match ← onMem (procPagetable x.trapframe) with
    | none => do
      release sb ip
      pure none
    | some new => do
      let load ← loadFrom sb ip new (elf.get16 56) (elf.get64 32) 0
      if load.1 = false then do
        onMem (procFreepagetable new load.2)
        release sb ip
        pure none
      else do
        release sb ip
        let stack ← onMem (Vm.execStack new load.2 argv)
        match stack.1 with
        | none => do
          onMem (procFreepagetable new stack.2)
          pure none
        | some sp => do
          commit x path elf new stack.2 sp.1
          pure (some sp.2)

/-- The path is looked up in a new transaction. -/
def lookup (cwd : Iptr) (path : List UInt8) : K (Option Iptr) := do
  beginOp
  namei sb cwd path

/-- `exec`; returns `argc`, or `none` for -1. -/
def exec (cwd : Iptr) (path : List UInt8) (argv : List (List UInt8)) : X (Option ℕ) := do
  let x := (← get).proc
  match ← onFs (lookup sb cwd path) with
  | none => do
    onFs endOp
    pure none
  | some ip => do
    onFs (ilock sb ip)
    execFile sb x path argv ip

end Program

variable {sb : Superblock} {w w' : World} {ip cwd : Iptr} {path content : List UInt8}
  {argv : List (List UInt8)} {fs : State}

section Commands

variable {α β : Type} {E : Stop → World → Prop} {Q : α → World → Prop}

@[simp] theorem wp_onFs {m : K α} : wp (onFs m) E Q w ↔
    wp m (fun e fs => E (.fs e) { w with fs := fs }) (fun a fs => Q a { w with fs := fs }) w.fs := by
  unfold wp onFs
  cases m w.fs <;> rfl

@[simp] theorem wp_onMem {m : Vm.M α} : wp (onMem m) E Q w ↔
    wp m (fun e mem => E (.mem e) { w with mem := mem })
      (fun a mem => Q a { w with mem := mem }) w.mem := by
  unfold wp onMem
  cases m w.mem <;> rfl

theorem bind_congr_at {m m' : X α} {f : α → X β} (h : m w = m' w) : (m >>= f) w = (m' >>= f) w := by
  simp only [bind, EStateM.bind, h]

/-- Memory commands in a row are one memory command. -/
theorem onMem_bind_eq {m : Vm.M α} {f : α → X β} {g : α → Vm.M β}
    (h : ∀ a mem, f a { w with mem := mem } = onMem (g a) { w with mem := mem }) :
    (onMem m >>= f) w = onMem (m >>= g) w := by
  simp only [bind, EStateM.bind, onMem]
  cases m w.mem with
  | ok a mem => exact h a mem
  | error e mem => rfl

end Commands

/-! ## The file -/

/-- Reads from the locked inode give the bytes of `content`. -/
def Reads (sb : Superblock) (ip : Iptr) (fs : State) (content : List UInt8) : Prop :=
  ∀ off n, off < 2 ^ 32 → n ≤ PGSIZE →
    Fs.readi sb ip (fun _ => true) off n fs = .ok (some (Vm.readi content off n)) fs

theorem read_bind {β : Type} {f : List UInt8 → X β} {off n : ℕ} (h : Reads sb ip w.fs content)
    (hoff : off < 2 ^ 32) (hn : n ≤ PGSIZE) :
    (read sb ip off n >>= f) w = f (Vm.readi content off n) w := by
  simp only [read, bind, EStateM.bind, onFs, h off n hoff hn]
  rfl

theorem store_bind {β : Type} {pa : ℕ} {bs : List UInt8} {f : Vm.M β} : (do
    let s ← get
    Vm.setPage pa ((s.page pa).blit 0 (fun j => bs.getD j 0) bs.length)
    f) = store pa bs >>= fun _ => f := by
  simp only [store, bind_assoc]

variable {pagetable : ℕ}

theorem loadsegFrom_eq {va offset sz k i : ℕ} (h : Reads sb ip w.fs content) :
    loadsegFrom sb ip pagetable va offset sz k i w =
      onMem (Vm.loadsegFrom pagetable va content offset sz k i) w := by
  induction k generalizing w i with
  | zero => rfl
  | succ k ih =>
    rw [loadsegFrom, Vm.loadsegFrom]
    refine onMem_bind_eq fun o mem => ?_
    cases o with
    | none => rfl
    | some pa =>
      dsimp only
      rw [read_bind (w := { w with mem := mem }) h (Nat.mod_lt _ (by decide))
        (Nat.min_le_right _ _)]
      rw [store_bind]
      refine onMem_bind_eq fun _ mem' => ?_
      split
      · rfl
      · exact ih (w := { w with mem := mem' }) h

theorem loadseg_eq {va offset sz : ℕ} (h : Reads sb ip w.fs content) :
    loadseg sb ip pagetable va offset sz w = onMem (Vm.loadseg pagetable va content offset sz) w :=
  loadsegFrom_eq h

theorem loadFrom_eq {k off sz : ℕ} (h : Reads sb ip w.fs content) :
    loadFrom sb ip pagetable k off sz w = onMem (Vm.loadFrom pagetable content k off sz) w := by
  induction k generalizing w off sz with
  | zero => rfl
  | succ k ih =>
    rw [loadFrom, Vm.loadFrom, read_bind h (Nat.mod_lt _ (by decide)) (by decide)]
    split
    · rfl
    split
    · exact ih h
    split
    · rfl
    split
    · rfl
    split
    · rfl
    refine onMem_bind_eq fun sz1 mem => ?_
    split
    · rfl
    refine (bind_congr_at (loadseg_eq (w := { w with mem := mem }) h)).trans ?_
    refine onMem_bind_eq fun b mem' => ?_
    cases b with
    | false => rfl
    | true => exact ih (w := { w with mem := mem' }) h

/-! ## The call -/

/-- The process after the call. -/
def finish (path : List UInt8) (x : Proc) : Option (ℕ × ℕ × ℕ) → Proc
  | none => x
  | some b => { x with
      name := safestrcpy x.name (lastPart path)
      pagetable := b.1
      sz := b.2.1 }

theorem wp_release {Q : Unit → World → Prop} {E : Stop → World → Prop}
    (hrel : (do iunlockput sb ip; endOp) w.fs = .ok () fs) (hQ : Q () { w with fs := fs }) :
    wp (release sb ip) E Q w := by
  rw [release, wp_onFs, wp_of_eq hrel]
  exact hQ

/-- The memory goes through the states of `Vm.exec`. -/
theorem wp_execFile {P : Option (ℕ × ℕ × ℕ) → Mem → Prop} (hread : Reads sb ip w.fs content)
    (hrel : (do iunlockput sb ip; endOp) w.fs = .ok () fs)
    (hV : wp (Vm.exec w.proc.pagetable w.proc.sz w.proc.trapframe (some content) argv) Vm.NoPanic P
      w.mem) :
    wp (execFile sb w.proc path argv ip) (fun _ _ => False) (fun r t => ∃ o,
      r = o.map (fun b => b.2.2) ∧ P o t.mem ∧ t.fs = fs ∧ t.proc = finish path w.proc o) w := by
  rw [Vm.exec] at hV
  rw [execFile, wp_congr_at (read_bind hread (by decide) (by decide))]
  dsimp only at hV ⊢
  split at hV
  next hlen =>
    rw [if_pos hlen, wp_bind]
    exact wp_release hrel ⟨none, rfl, hV, rfl, rfl⟩
  next hlen =>
  rw [if_neg hlen]
  split at hV
  next hmagic =>
    rw [if_pos hmagic, wp_bind]
    exact wp_release hrel ⟨none, rfl, hV, rfl, rfl⟩
  next hmagic =>
  rw [if_neg hmagic]
  rw [wp_bind] at hV
  rw [wp_bind, wp_onMem]
  refine hV.post fun o s₁ h₁ => ?_
  cases o with
  | none =>
    dsimp only at h₁ ⊢
    rw [wp_bind]
    exact wp_release hrel ⟨none, rfl, h₁, rfl, rfl⟩
  | some new =>
    dsimp only at h₁ ⊢
    rw [wp_bind] at h₁
    rw [wp_bind, wp_congr_at (loadFrom_eq (w := { w with mem := s₁ }) hread), wp_onMem]
    refine h₁.post fun load s₂ h₂ => ?_
    split at h₂
    next hload =>
      rw [if_pos hload, wp_bind, wp_onMem]
      rw [wp_bind] at h₂
      refine h₂.post fun _ s₃ h₃ => ?_
      rw [wp_bind]
      exact wp_release hrel ⟨none, rfl, h₃, rfl, rfl⟩
    next hload =>
    rw [if_neg hload, wp_bind]
    refine wp_release hrel ?_
    rw [wp_bind] at h₂
    rw [wp_bind, wp_onMem]
    refine h₂.post fun stack s₃ h₃ => ?_
    rcases hsp : stack.1 with _ | sp
    · rw [hsp] at h₃
      dsimp only at h₃ ⊢
      rw [wp_bind] at h₃
      rw [wp_bind, wp_onMem]
      exact h₃.post fun _ s₄ h₄ => ⟨none, rfl, h₄, rfl, rfl⟩
    · rw [hsp] at h₃
      dsimp only at h₃ ⊢
      rw [wp_bind, Vm.wp_setReg, wp_bind, Vm.wp_setReg, wp_bind, Vm.wp_setReg, wp_bind] at h₃
      rw [wp_bind, commit, wp_bind, wp_onMem, Vm.wp_setReg, wp_bind, wp_modify, wp_bind, wp_modify,
        wp_bind, wp_onMem, Vm.wp_setReg, wp_bind, wp_onMem, Vm.wp_setReg, wp_onMem]
      exact h₃.post fun _ s₄ h₄ => ⟨some (new, stack.2, sp.2), rfl, h₄, rfl, rfl⟩

/-! ## Failures -/

/-- The lookup returns with a reference to the inode it has found. -/
theorem ensures_lookup {B : Iptr → ℕ} {T : Iptr → ℕ × ℤ} {o : ℤ} (h : Fs.Inv sb B T o fs [] ∅)
    (ho : 0 ≤ o) (hcwd : 0 < B cwd) :
    Ensures (lookup sb cwd path) (fun found fs' => match found with
      | none => Fs.Inv sb B T (o + 1) fs' [] ∅
      | some ip => ∃ i, Fs.Inv sb B T (o + 1) fs' [⟨ip, i, false⟩] ∅ ∧ ¬ Fs.Last fs' B [] ip i) fs := by
  have hF : Fs.Benign fun _ => True := ⟨trivial, trivial, trivial, trivial⟩
  rw [lookup, Ensures, wp_bind]
  refine Fs.wp_beginOp h ho trivial fun fs₁ _ _ h₁ => ?_
  refine Fs.wp_namei h₁ (by omega) hcwd hF (.inl trivial) (fun fs₂ _ _ h₂ => h₂)
    fun ip i _ fs₂ _ hd h₂ hl _ => ⟨i, h₂, fun hc => hl ((Fs.Last.disk hd).mp hc)⟩

section

variable {B : Iptr → ℕ} {T : Iptr → ℕ × ℤ} {o : ℤ} {i : ℕ} {R : List Ref}

theorem drop_read {nd : Fs.Node} {size off n : ℕ} (hoff : off ≤ size) :
    Vm.readi (nd.read 0 size) off n = nd.read off (min n (size - off)) := by
  obtain ⟨k, rfl⟩ := Nat.exists_eq_add_of_le hoff
  rw [Vm.readi, Fs.Node.read_add, List.drop_left' Fs.Node.length_read, Nat.zero_add,
    Nat.add_sub_cancel_left]
  rcases Nat.le_total n k with hn | hn
  · obtain ⟨j, rfl⟩ := Nat.exists_eq_add_of_le hn
    rw [Fs.Node.read_add, List.take_left' Fs.Node.length_read, min_eq_left hn]
  · rw [List.take_of_length_le (by rwa [Fs.Node.length_read]), min_eq_right hn]

/-- Reads from a locked inode. -/
theorem reads_of_inv (h : Fs.Inv sb B T o fs (⟨ip, i, true⟩ :: R) ∅) :
    Reads sb ip fs ((fs.disk.nodes i).read 0 (fs.disk.nodes i).size) := by
  obtain ⟨hi, -, ht, -⟩ := h.inode
  have hcap : MAXFILE * BSIZE < 2 ^ 31 := by decide
  have hsize := (h.node i).size_le
  have hpage : PGSIZE < 2 ^ 31 := by decide
  intro off n hoff hn
  have key : wp (Fs.readi sb ip (fun _ => true) off n) (fun _ _ => False) (fun r fs' => fs' = fs ∧
      r = some (Vm.readi ((fs.disk.nodes i).read 0 (fs.disk.nodes i).size) off n)) fs := by
    refine Fs.wp_readi ht h.held (by rw [h.flush, hi]) (h.node i) hoff (by omega) fun r hr => ⟨rfl, ?_⟩
    rw [hr]
    rcases Nat.lt_or_ge (fs.disk.nodes i).size off with hlt | hge
    · rw [if_pos (.inl hlt), Vm.readi, List.drop_of_length_le (by rw [Fs.Node.length_read]; omega),
        List.take_nil]
    · rw [drop_read hge]
      rw [if_neg (by omega), if_pos fun _ _ => rfl]
  obtain ⟨r, fs', hrun, rfl, rfl⟩ := key.returns
  exact hrun

/-- The inode that the lookup has found is not freed. -/
theorem release_returns (h : Fs.Inv sb B T (o + 1) fs (⟨ip, i, true⟩ :: R) ∅) (ho : 0 ≤ o)
    (hlast : ¬ Fs.Last fs B R ip i) :
    ∃ fs', (do iunlockput sb ip; endOp) fs = .ok () fs' ∧ Fs.Inv sb B T o fs' R ∅ := by
  have key : wp (do iunlockput sb ip; endOp) (fun _ _ => False)
      (fun _ fs' => Fs.Inv sb B T o fs' R ∅) fs := by
    rw [wp_bind]
    refine Fs.wp_iunlockput (F := fun _ => False) h (by omega) (fun hl => absurd hl hlast)
      (fun fs₁ _ _ h₁ => ?_) fun _ hl => absurd hl hlast
    exact Fs.wp_endOp (F := fun _ => False) h₁ fun _ _ _ h₂ => h₂
  obtain ⟨_, fs', hrun, h'⟩ := key.returns
  exact ⟨fs', hrun, h'⟩

end

/-- Nothing is different but the contents of free pages, the buffers and the log. -/
structure Unchanged (w w' : World) : Prop where
  proc : w'.proc = w.proc
  page : ∀ q ∉ w.mem.free, w'.mem.page q = w.mem.page q
  free : (w'.mem.free : Multiset ℕ) = w.mem.free
  ref : ∀ k, (w'.fs.itable k).ref = (w.fs.itable k).ref
  locked : ∀ k, (w'.fs.itable k).locked = (w.fs.itable k).locked
  held : w'.fs.held = w.fs.held
  outstanding : w'.fs.log.outstanding = w.fs.log.outstanding

section

variable {B : Iptr → ℕ} {T : Iptr → ℕ × ℤ} {o : ℤ} {H H₀ O : Multiset ℕ} {m : ℕ → ℕ}

theorem Unchanged.of_inv {mem : Mem} (hfs : Fs.Inv sb B T o w.fs [] ∅)
    (hfs' : Fs.Inv sb B T o fs [] ∅) {X : Multiset ℕ} (ho : Vm.Own w.mem X) (ho' : Vm.Own mem X)
    (hf : Vm.Frame w.mem mem X) : Unchanged w ⟨fs, mem, w.proc⟩ where
  proc := rfl
  page q hq := by
    by_cases hp : q ∈ w.mem.image.pages
    · rw [← ho, Multiset.mem_add] at hp
      exact hf.page q (hp.resolve_left fun hc => hq (Multiset.mem_coe.mp hc))
    · exact hf.outside q hp
  free := by
    have he : (mem.free : Multiset ℕ) + X = w.mem.free + X := by
      rw [ho, ← hf.image]
      exact ho'
    exact add_right_cancel he
  ref k := by rw [hfs.ref, hfs'.ref]
  locked k := by
    have h₁ : (w.fs.itable k).locked = false := by simpa using (hfs.locked k).not
    have h₂ : (fs.itable k).locked = false := by simpa using (hfs'.locked k).not
    rw [h₁, h₂]
  held := by rw [hfs.held, hfs'.held]
  outstanding := by rw [hfs.log.outstanding, hfs'.log.outstanding]

/-- `exec` of a path that leads to some file or to none returns. If it fails, then the process, all
memory that was not free, the set of free pages, and the references and locks are as before. -/
theorem failed_exec_atomic {found : Option Iptr} {fs₁ : State} (hfs : Fs.Inv sb B T o w.fs [] ∅)
    (ho : 0 ≤ o) (hcwd : 0 < B cwd) (hH : H = {w.proc.trapframe} + H₀)
    (hmem : Vm.Image w.mem w.proc.pagetable w.proc.trapframe (Vm.pg w.proc.sz) H O m)
    (hlook : lookup sb cwd path w.fs = .ok found fs₁)
    (hfile : ∀ ip ∈ found, (fs₁.disk.dinode (fs₁.itable ip).inum).type ≠ 0) :
    ∃ r w', exec sb cwd path argv w = .ok r w' ∧ (r = none → Unchanged w w') := by
  have key : wp (exec sb cwd path argv) (fun _ _ => False)
      (fun r w' => r = none → Unchanged w w') w := by
    have hfound := (ensures_lookup hfs ho hcwd).ok hlook
    rw [exec, wp_bind, wp_get, wp_bind, wp_onFs, wp_of_eq hlook]
    cases found with
    | none =>
      rw [wp_bind, wp_onFs]
      refine Fs.wp_endOp (F := fun _ => False) hfound fun fs₂ _ _ h₂ _ => ?_
      exact .of_inv hfs h₂ hmem.own hmem.own (.refl _ _)
    | some ip =>
      obtain ⟨i, h₁, hlast⟩ := hfound
      have hi : (fs₁.itable ip).inum = i := h₁.inum ⟨ip, i, false⟩ List.mem_cons_self
      have ht : (fs₁.disk.nodes i).type ≠ 0 := by
        rw [Fs.Disk.nodes_type, ← hi]
        exact hfile ip rfl
      dsimp only
      rw [wp_bind, wp_onFs]
      refine Fs.wp_ilock (F := fun _ => False) h₁ (fun hl => ?_) (fun h₀ => ht h₀)
        fun fs₂ hd₂ _ h₂ => ?_
      · obtain ⟨r, hr, -, hr'⟩ := (h₁.locked ip).mp hl
        obtain rfl := List.mem_singleton.mp hr
        cases hr'
      · obtain ⟨fs₃, hrel, h₃⟩ := release_returns h₂ ho fun hc => hlast ((Fs.Last.disk hd₂).mp hc)
        refine (wp_execFile (w := { w with fs := fs₂ }) (reads_of_inv h₂) hrel
          (Vm.wp_exec hH hmem)).post fun r t ⟨res, hr, hres, htfs, htproc⟩ hnone => ?_
        cases res with
        | some b =>
          rw [hr] at hnone
          cases hnone
        | none =>
          obtain ⟨tfs, tmem, tproc⟩ := t
          obtain rfl : tfs = fs₃ := htfs
          obtain rfl : tproc = w.proc := htproc
          exact .of_inv hfs h₃ hmem.own hres.1.own hres.2
  obtain ⟨r, w', hrun, h'⟩ := key.returns
  exact ⟨r, w', hrun, h'⟩

end

/-- The first process in a small file system. -/
def firstProcess (s : Vm.Kern) : World where
  fs := Fs.smallFs
  mem := s.mem
  proc := ⟨(s.proc 0).pagetable, (s.proc 0).sz, (s.proc 0).trapframe, Bytes.zero⟩

/-- The file is empty. -/
theorem failed_exec_empty : ∃ s w', Vm.Booted (Vm.tiny 8 (by decide)) s ∧
    exec Fs.smallFs.superblock 0 [97] [] (firstProcess s) = .ok none w' ∧
      Unchanged (firstProcess s) w' := by
  have heval : ∃ s, Vm.Booted (Vm.tiny 8 (by decide)) s ∧ decide ((s.proc 0).state ≠ .unused ∧
      wp (exec Fs.smallFs.superblock 0 [97] []) (fun _ _ => False) (fun r _ => r = none)
        (firstProcess s)) = true :=
    Vm.exists_booted 0 [] (by decide +kernel)
  obtain ⟨s, hb, hs⟩ := heval
  obtain ⟨hstate, hnone⟩ := of_decide_eq_true hs
  obtain ⟨O, m, hi⟩ := (Vm.booted_valid hb).inv.image hstate
  have hlook : wp (lookup Fs.smallFs.superblock 0 [97]) (fun _ _ => False) (fun found fs =>
      found.all (fun ip => (fs.disk.dinode (fs.itable ip).inum).type ≠ 0) = true) Fs.smallFs := by
    decide +kernel
  obtain ⟨found, fs₁, hrun, hfile⟩ := hlook.returns
  obtain ⟨r, w', hexec, hsame⟩ : ∃ r w', exec Fs.smallFs.superblock 0 [97] [] (firstProcess s) =
      .ok r w' ∧ _ := failed_exec_atomic (w := firstProcess s) Fs.inv_smallFs
    le_rfl (by decide) rfl hi hrun fun ip hip => by simpa [Option.mem_def.mp hip] using hfile
  obtain rfl : r = none := hnone.ok hexec
  exact ⟨s, w', hb, hexec, hsame rfl⟩

end Xv6.Exec

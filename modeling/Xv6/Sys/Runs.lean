import Xv6.Fs.Names
import Xv6.Sys.Descriptors

/-! # Runs of system calls

Every call on descriptors and names keeps a valid kernel valid, and so does
every sequence of such calls by the processes of the system.
-/

namespace Xv6.Sys

open Fs

variable {sb : Superblock} {s t : Kernel} {p : Pptr} {l : List (Pptr × Call)}

theorem wp_syscall (hsb : sb.Valid) (h : Valid sb s) (hrun : (s.proc p).state = .runnable)
    (call : Call) : wp (syscall sb p call) (fun e _ => Stops e) (fun _ => Valid sb) s := by
  have hF := benign_stops
  have hN := stops_noType
  cases call with
  | dup fd => exact wp_sysDup h
  | close fd => exact wp_sysClose h hF
  | «open» path omode => exact wp_sysOpen hsb h hrun hF hN
  | link old new =>
    refine wp_named h hrun fun cwd hcwd =>
      wp_sysLink hsb h.mid.inodes le_rfl hcwd hF (.inl hN) ?_ ?_
    all_goals intros; assumption
  | unlink path =>
    refine wp_named h hrun fun cwd hcwd =>
      wp_sysUnlink hsb h.mid.inodes le_rfl hcwd hF (.inl hN) ?_ ?_
    all_goals intros; assumption
  | mkdir path | mknod path major minor =>
    refine wp_named h hrun fun cwd hcwd =>
      wp_makeOp hsb h.mid.inodes le_rfl hcwd hF (.inl hN) (by decide) (by decide) ?_ ?_
    all_goals intros; assumption
  | chdir path => exact wp_sysChdir h hrun hF hN

theorem step_cases {a : Pptr × Call} {r : Except Halt Kernel} (hsb : sb.Valid) (h : Valid sb s)
    (hs : step sb s a = some r) :
    (∃ e, r = .error e ∧ Stops e) ∨ ∃ s', r = .ok s' ∧ Valid sb s' := by
  unfold step at hs
  split at hs
  next hrun =>
    have hw := wp_syscall hsb h hrun a.2
    split at hs
    next _ s' he =>
      cases hs
      exact .inr ⟨s', rfl, hw.ok he⟩
    next e _ he =>
      cases hs
      exact .inl ⟨e, rfl, hw.error he⟩
  next => cases hs

theorem valid_of_run (hsb : sb.Valid) (hr : Run (Next (step sb)) s l t) (h : Valid sb s) :
    Valid sb t := by
  refine hr.invariant (fun s a s' _ hs hv => ?_) h
  rcases step_cases hsb hv hs with ⟨e, he, -⟩ | ⟨_, he, hv'⟩
  · cases he
  · cases he
    exact hv'

/-- Process 0 makes room and opens the file `a`. -/
def reopening : List (Pptr × Call) := [(0, .close 0), (0, .open (some [97]) O_RDWR)]

theorem run_reopening : ∃ t, Run (Next (step smallFs.superblock)) crowded reopening t ∧
    (t.ftable 1).type = .inode := by
  obtain ⟨t, ht, h⟩ := exists_of_exec (step smallFs.superblock) (s := crowded) (l := reopening)
    (P := fun t => (t.ftable 1).type = .inode) (by decide +kernel)
  exact ⟨t, run_of_exec _ ht, h⟩

theorem valid_crowded : Valid smallFs.superblock crowded := by
  refine ⟨mid_crowded, fun p hp => ⟨0, ?_⟩⟩
  simp only [crowded] at hp ⊢
  split at hp
  next hq => rw [if_pos hq]
  next => cases hp

/-- No reference is lost or counted twice, an inode has one entry in the table and an end of a pipe
is open while a file is that end. -/
theorem references_exact (hsb : sb.Valid) (hr : Run (Next (step sb)) s l t) (h : Valid sb s) :
    (∀ f, (t.ftable f).ref = refs t.slots f) ∧ (∀ k, (t.fs.itable k).ref = refs t.holds k) ∧
    (∀ k k', 0 < (t.fs.itable k).ref → 0 < (t.fs.itable k').ref →
      (t.fs.itable k).inum = (t.fs.itable k').inum → k = k') ∧
    (∀ pi w, (∃ v ∈ t.pipe pi, v.isOpen w = true) ↔ ∃ f, IsEnd t.ftable pi w f) ∧
    (∀ k, (t.fs.itable k).locked = false) ∧ t.fs.log.outstanding = 0 ∧
    ∀ a e, step sb t a = some (.error e) → Stops e := by
  have hv := valid_of_run hsb hr h
  have hI := hv.mid.inodes
  refine ⟨hv.mid.files.ref, hI.ref, hI.unique, hv.mid.files.ends, fun k => ?_, hI.log.outstanding,
    fun a e hs => ?_⟩
  · rw [← Bool.not_eq_true, hI.locked]
    simp
  · rcases step_cases hsb hv hs with ⟨_, he, h⟩ | ⟨_, he, -⟩
    · cases he
      exact h
    · cases he

theorem references_exact_reopening : ∃ t : Kernel, (t.ftable 1).type = .inode ∧
    ∀ k, (t.fs.itable k).ref = refs t.holds k := by
  obtain ⟨t, hr, ht⟩ := run_reopening
  exact ⟨t, ht, (references_exact valid_smallFs hr valid_crowded).2.1⟩

/-- The blocks in use belong to one inode each, an inode without links goes with its last
reference, and no directory is open for writing. -/
theorem disk_consistent (hsb : sb.Valid) (hr : Run (Next (step sb)) s l t) (h : Valid sb s) :
    Own sb t.fs.disk ∧ NoDirWrite t.ftable t.fs ∧ ∀ i, (t.fs.disk.nodes i).type ≠ 0 →
      (t.fs.disk.nodes i).Ok ∧ ((t.fs.disk.nodes i).type = T_DIR → (t.fs.disk.nodes i).IsDir i) ∧
      ((t.fs.disk.nodes i).nlink = 0 → ∃ k, 0 < refs t.holds k ∧ (t.fs.itable k).inum = i) := by
  have hm := (valid_of_run hsb hr h).mid
  have hI := hm.inodes
  refine ⟨hI.own, hm.write, fun i hi => ⟨hI.node i, hI.dir i (Set.notMem_empty _), fun hn => ?_⟩⟩
  obtain ⟨k, hk, -, he⟩ := hI.unlinked i (Set.notMem_empty _) hi hn
  exact ⟨k, by rwa [← show _ = refs t.holds k from hI.ref k], he⟩

theorem disk_consistent_reopening : ∃ t : Kernel, (t.ftable 1).type = .inode ∧
    NoDirWrite t.ftable t.fs := by
  obtain ⟨t, hr, ht⟩ := run_reopening
  exact ⟨t, ht, (disk_consistent valid_smallFs hr valid_crowded).2.1⟩

end Xv6.Sys

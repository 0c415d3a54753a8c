import Xv6.Tree.Calls

/-!
# No call waits for itself

`iput` takes the lock of the inode it drops. `dirlink` drops the inode it finds under
the new name while the directory is locked, so a link under a name by which the
directory has itself, such as `.`, never returns. It is the only call of its kind: in
a run without such links no process asks for an inode lock that it already holds.

The file system has to be well formed only as far as no directory has itself under a
name other than `.` and `..`, which `sys_unlink` relies on, and every run keeps this.
-/

namespace Xv6.Tree

open Routine Machine

variable {P : Type} {fmt : Format} {devsw : Devices} {k k' : Kernel P} {tree tree' : ℕ → Inode}
  {cwd : ℕ} {c : Call P}

def Within (fmt : Format) (tree : ℕ → Inode) : Prop :=
  ∀ i, (tree i).type ≠ .free → i < fmt.ninodes

theorem Within.inum_to (h : Within fmt tree) {i : ℕ} (hi : (tree i).type ≠ .free) (name : Name) :
    (Dirent.to i name).inum = i :=
  Nat.mod_eq_of_lt (Nat.lt_of_lt_of_le (h i hi) fmt.ninodes_le)

section Keep

variable {path old new : Path} {i dp off : ℕ} {name : Name}

theorem Links.ne (h : Links tree cwd old new i dp name) : i ≠ dp := by
  rintro rfl
  exact h.notDir h.dir

theorem Unlinks.ne (hp : Proper tree) (h : Unlinks tree cwd path dp i off) : i ≠ dp := by
  obtain ⟨name, -, hdot, hdots, hfound⟩ := h.found
  exact hp.lookup_ne h.dir hfound hdot hdots

theorem Creates.ne (h : Creates fmt tree cwd path dp name i) : i ≠ dp := by
  rintro rfl
  exact absurd (h.fresh.free.symm.trans h.dir) (by decide)

theorem Tended.proper (h : Proper tree) (ht : Tended tree tree') : Proper tree' := by
  intro d hd e he hne hself
  rcases (ht d).2 with ⟨htype, hent⟩ | ⟨-, hfree, -⟩
  · exact h d (htype ▸ hd) e (hent ▸ he) hne hself
  · cases hfree.symm.trans hd

theorem Tended.within (h : Within fmt tree) (ht : Tended tree tree') : Within fmt tree' := by
  intro i hi
  rcases ht.type_eq_or i with hs | hs
  · exact h i (hs ▸ hi)
  · exact absurd hs hi

/-- The entries of a directory after an edit: an old one, the new one for another
inode, or one of the first two of a new directory. -/
theorem Edit.entry_cases (h : Proper tree) (hw : Within fmt tree)
    (he : Edit fmt tree cwd c tree') {d : ℕ} (hd : (tree' d).type = .dir) {e : Dirent}
    (hmem : e ∈ (tree' d).entries) (hnz : e.inum ≠ 0) :
    ((tree d).type = .dir ∧ e ∈ (tree d).entries) ∨ e.inum ≠ d ∨ e.name = dotName ∨
      e.name = dotDot := by
  cases he with
  | same => exact .inl ⟨hd, hmem⟩
  | @link old new i dp name hlink =>
    by_cases hdp : d = dp
    · subst hdp
      rw [linkTree_dir hlink.ne] at hmem
      rcases mem_addEntry hmem with rfl | hmem
      · rw [hw.inum_to hlink.alloc]
        exact .inr (.inl hlink.ne)
      · exact .inl ⟨hlink.dir, hmem⟩
    · by_cases hi : d = i
      · subst hi
        rw [linkTree_inode hlink.ne] at hd
        exact absurd hd hlink.notDir
      · rw [linkTree_of_ne hdp hi] at hd hmem
        exact .inl ⟨hd, hmem⟩
  | @unlink path dp i off hunlink =>
    have hne := hunlink.ne h
    by_cases hdp : d = dp
    · subst hdp
      rw [unlinkTree_dir hne] at hmem
      exact .inl ⟨hunlink.dir, mem_setUnused hmem hnz⟩
    · by_cases hi : d = i
      · subst hi
        rw [unlinkTree_inode hne] at hd hmem
        exact .inl ⟨hd, hmem⟩
      · rw [unlinkTree_of_ne hdp hi] at hd hmem
        exact .inl ⟨hd, hmem⟩
  | @create _ path type dp i name hc hcr major minor =>
    by_cases hdp : d = dp
    · subst hdp
      rw [createTree_dir hcr.ne] at hmem
      rcases mem_addEntry hmem with rfl | hmem
      · rw [hcr.fresh.inum_to]
        exact .inr (.inl hcr.ne)
      · exact .inl ⟨hcr.dir, hmem⟩
    · by_cases hi : d = i
      · subst hi
        rw [createTree_inode hcr.ne] at hd hmem
        have htype : type = .dir := hd
        subst htype
        have hdots : e = Dirent.to d dotName ∨ e = Dirent.to dp dotDot := by
          simpa [Inode.new] using hmem
        rcases hdots with rfl | rfl
        · exact .inr (.inr (.inl rfl))
        · exact .inr (.inr (.inr rfl))
      · rw [createTree_of_ne hdp hi] at hd hmem
        exact .inl ⟨hd, hmem⟩

theorem Edit.proper (h : Proper tree) (hw : Within fmt tree)
    (he : Edit fmt tree cwd c tree') : Proper tree' := by
  intro d hd e hmem hnz hself
  rcases he.entry_cases h hw hd hmem hnz with ⟨hd', hmem'⟩ | hne | hname
  · exact h d hd' e hmem' hnz hself
  · exact absurd hself hne
  · exact hname

theorem Edit.within (hw : Within fmt tree) (he : Edit fmt tree cwd c tree') : Within fmt tree' := by
  intro j hj
  cases he with
  | same => exact hw j hj
  | @link old new i dp name hlink =>
    by_cases hdp : j = dp
    · subst hdp
      exact hw j (by simp [hlink.dir])
    · by_cases hi : j = i
      · subst hi
        exact hw j hlink.alloc
      · rw [linkTree_of_ne hdp hi] at hj
        exact hw j hj
  | @unlink path dp i off hunlink =>
    by_cases hdp : j = dp
    · subst hdp
      exact hw j (by simp [hunlink.dir])
    · by_cases hi : j = i
      · subst hi
        exact hw j hunlink.alloc
      · rw [unlinkTree_of_ne hdp hi] at hj
        exact hw j hj
  | @create _ path type dp i name hc hcr major minor =>
    by_cases hdp : j = dp
    · subst hdp
      exact hw j (by simp [hcr.dir])
    · by_cases hi : j = i
      · subst hi
        exact hcr.fresh.lt
      · rw [createTree_of_ne hdp hi] at hj
        exact hw j hj

end Keep

section Runs

variable {s t : Sys P} {es : List (P × Call P)}

/-- A quiet kernel with a file system that is well formed as far as the calls need it
in order not to wait for themselves. -/
structure Orderly [Fintype P] (fmt : Format) (k : Kernel P) : Prop where
  quiet : k.Quiet
  proper : Proper k.inode
  within : Within fmt k.inode

theorem Outcome.orderly [Fintype P] (h : Orderly fmt k) (ho : Outcome fmt k cwd c k') :
    Orderly fmt k' := by
  obtain ⟨tree, hedit, htend, hq⟩ := ho
  exact ⟨hq, htend.proper (hedit.proper h.proper h.within), htend.within (hedit.within h.within)⟩

theorem Orderly.kept [Fintype P] (h : Orderly fmt k) (hk : Kept k k') : Orderly fmt k' :=
  ⟨hk.1, hk.2.proper h.proper, hk.2.within h.within⟩

theorem step_enabled [DecidableEq P] {p : P} (hstep : step fmt devsw s (p, c) = some t) :
    s.stopped = none ∧ ∃ pr, s.kernel.proc p = some pr ∧
      (∀ child, c = .fork child → s.kernel.proc child = none) ∧
      t = match c.run fmt devsw p pr.cwd s.kernel with
        | (.ok _, k) => ⟨k, none⟩
        | (.error r, k) => ⟨k, some r⟩ := by
  cases hp : s.kernel.proc p with
  | none => simp [step, hp] at hstep
  | some pr =>
    simp only [step, hp, Option.ite_none_right_eq_some] at hstep
    obtain ⟨hen, hrun⟩ := hstep
    have hstop : s.stopped = none := by
      cases c <;> simp_all [enabled]
    refine ⟨hstop, pr, rfl, ?_, ?_⟩
    · rintro child rfl
      simp_all [enabled]
    · rcases hres : c.run fmt devsw p pr.cwd s.kernel with ⟨r, k⟩
      rw [hres] at hrun
      cases r with
      | ok a => exact (Option.some.inj hrun).symm
      | error a => exact (Option.some.inj hrun).symm

variable [Fintype P] [DecidableEq P]

theorem step_cases (h : Orderly fmt s.kernel) {p : P} (hstep : step fmt devsw s (p, c) = some t) :
    ∃ pr, s.kernel.proc p = some pr ∧ ((t.stopped = none ∧ Outcome fmt s.kernel pr.cwd c t.kernel) ∨
        ∃ r, t.stopped = some r ∧ Stops s.kernel.inode pr.cwd c r) := by
  obtain ⟨-, pr, hp, hfork, rfl⟩ := step_enabled hstep
  have hspec := call_spec fmt devsw h.quiet h.proper hp c hfork
  refine ⟨pr, hp, ?_⟩
  unfold wp at hspec
  split at hspec
  · rename_i hres
    rw [hres]
    exact .inl ⟨rfl, hspec⟩
  · rename_i hres
    rw [hres]
    exact .inr ⟨_, rfl, hspec⟩

/-- The call is a link under a name by which the parent directory has itself. -/
def LinksToSelf (s : Sys P) (e : P × Call P) : Prop :=
  ∃ l ∈ e.2.links, ∃ pr ∈ s.kernel.proc e.1, SelfLink s.kernel.inode pr.cwd l.1 l.2

instance (s : Sys P) (e : P × Call P) : Decidable (LinksToSelf s e) :=
  inferInstanceAs (Decidable (∃ l ∈ e.2.links, ∃ pr ∈ s.kernel.proc e.1, _))

def Live (fmt : Format) (s : Sys P) : Prop :=
  s.stopped ≠ some .selfDeadlock ∧ (s.stopped = none → Orderly fmt s.kernel)

theorem step_live {e : P × Call P} (h : Live fmt s) (hself : ¬ LinksToSelf s e)
    (hstep : step fmt devsw s e = some t) : Live fmt t := by
  have hord := h.2 (step_enabled hstep).1
  obtain ⟨pr, hp, ⟨hnone, hout⟩ | ⟨r, hr, hstops⟩⟩ := step_cases hord hstep
  · exact ⟨by simp [hnone], fun _ => hout.orderly hord⟩
  · refine ⟨?_, fun hn => by simp [hr] at hn⟩
    rw [hr]
    rintro hdead
    cases hdead
    rcases hstops with (hharm | ⟨hno, -⟩) | ⟨-, l, hl, hlink⟩
    · exact hharm.1 rfl
    · cases hno
    · exact hself ⟨l, hl, pr, hp, hlink⟩

theorem live_of_run (h : Orderly fmt s.kernel) (hs : s.stopped = none)
    (hmeets : Meets (step fmt devsw) (fun s e => ¬ LinksToSelf s e) s es)
    (hrun : run (step fmt devsw) s es = some t) : Live fmt t :=
  hmeets.invariant (I := Live fmt) ⟨by simp [hs], fun _ => h⟩
    (fun _ _ _ hI hG hstep => step_live hI hG hstep) hrun

/-- From a well-formed file system, processes that make one call after the other, none
of them a link under a name by which the parent directory has itself, never reach a
state in which a process waits for an inode lock that it holds. -/
theorem no_self_deadlock (h : Orderly fmt s.kernel) (hs : s.stopped = none)
    (hmeets : Meets (step fmt devsw) (fun s e => ¬ LinksToSelf s e) s es)
    (hrun : run (step fmt devsw) s es = some t) : t.stopped ≠ some .selfDeadlock :=
  (live_of_run h hs hmeets hrun).1

end Runs

def tinyFormat : Format := ⟨8, by decide, by decide⟩

def noDevices : Devices := ⟨fun _ => none, fun _ => none⟩

def emptyRoot : Inode where
  type := .dir
  major := 0
  minor := 0
  nlink := 1
  size := 0
  entries := [Dirent.to rootIno dotName, Dirent.to rootIno dotDot]

def boot : Kernel Unit where
  inode := fun i => if i = rootIno then emptyRoot else ⟨.free, 0, 0, 0, 0, []⟩
  cache := fun i => if i = rootIno then some ⟨1, true⟩ else none
  locked := ∅
  file := fun _ => ⟨0, .none, 0, 0, false, false⟩
  proc := fun _ => some ⟨rootIno, fun _ => none⟩

theorem boot_cache {i : ℕ} {e : CacheEntry} (h : boot.cache i = some e) :
    i = rootIno ∧ e = ⟨1, true⟩ := by
  simp only [boot] at h
  split at h
  · rename_i hi
    exact ⟨hi, (Option.some.inj h).symm⟩
  · cases h

theorem boot_alloc {i : ℕ} (h : (boot.inode i).type ≠ .free) : i = rootIno := by
  by_contra hi
  simp [boot, hi] at h

theorem boot_quiet : boot.Quiet := by
  refine ⟨⟨?_, ?_, ?_, ?_⟩, rfl, ?_, fun _ => ⟨fun _ => rfl, by simp [boot]⟩⟩
  · intro i e he
    obtain ⟨-, rfl⟩ := boot_cache he
    rfl
  · intro i e he
    obtain ⟨-, rfl⟩ := boot_cache he
    exact Nat.le_refl 1
  · intro i e he
    obtain ⟨rfl, -⟩ := boot_cache he
    decide
  · intro i _ ht _
    obtain rfl := boot_alloc ht
    simp [boot]
  · intro i
    by_cases hi : i = rootIno
    · subst hi
      decide +kernel
    · have hcwd : ¬ rootIno = i := fun h => hi h.symm
      simp [Kernel.ref, Kernel.cwds, Kernel.opens, boot, File.On, hi, hcwd]

theorem boot_orderly : Orderly tinyFormat boot := by
  refine ⟨boot_quiet, ?_, ?_⟩
  · intro d hd e he _ _
    obtain rfl := boot_alloc (i := d) (by simp [hd])
    have hdots : e = Dirent.to rootIno dotName ∨ e = Dirent.to rootIno dotDot := by
      simpa [boot, emptyRoot] using he
    rcases hdots with rfl | rfl
    · exact .inl rfl
    · exact .inr rfl
  · intro i hi
    obtain rfl := boot_alloc hi
    decide

def pathF : Path := [0x66]

def pathD : Path := [0x64]

def pathDG : Path := [0x64, slash, 0x67]

def pathDDot : Path := [0x64, slash, dot]

def makeFD : List (Unit × Call Unit) :=
  [((), .sysOpen pathF (oCreate ||| oRdwr)), ((), .sysMkdir pathD)]

theorem no_self_deadlock_linkFile :
    ∃ t, run (step tinyFormat noDevices) ⟨boot, none⟩
        (makeFD ++ [((), .sysLink pathF pathDG)]) = some t ∧
      t.stopped ≠ some .selfDeadlock := by
  obtain ⟨t, ht, -⟩ : ∃ t, run (step tinyFormat noDevices) ⟨boot, none⟩
      (makeFD ++ [((), .sysLink pathF pathDG)]) = some t ∧ t.stopped = none := by decide +kernel
  exact ⟨t, ht, no_self_deadlock boot_orderly rfl (by decide +kernel) ht⟩

/-- A link under the name `.` in the directory waits for the lock of the directory, which
the call holds. -/
theorem link_to_dot_deadlocks :
    Orderly tinyFormat boot ∧ (run (step tinyFormat noDevices) ⟨boot, none⟩
        (makeFD ++ [((), .sysLink pathF pathDDot)])).map Sys.stopped = some (some .selfDeadlock) :=
  ⟨boot_orderly, by decide +kernel⟩

end Xv6.Tree

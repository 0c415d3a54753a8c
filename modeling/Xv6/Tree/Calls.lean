import Xv6.Tree.Files

/-!
# What a system call does

`Edit` lists the changes a call can make to the tree, and `Outcome` says that a call
made at most one of them, freed what nothing refers to any more, and left a quiet
kernel. `call_spec` is that, for every call and every quiet state, together with the
reasons for which a call can stop. All that is proved about runs of calls rests on it.
-/

namespace Xv6.Tree

open Routine Kernel

variable {P : Type} {fmt : Format} {devsw : Devices} {k k' : Kernel P} {i dp off cwd : ℕ}
  {name : Name} {path : Path} {type : Kind}

def Call.makes : Call P → Option (Path × Kind)
  | .sysOpen path omode => if omode &&& oCreate ≠ 0 then some (path, .file) else none
  | .sysMkdir path => some (path, .dir)
  | .sysMknod path _ _ => some (path, .dev)
  | _ => none

def Call.links : Call P → Option (Path × Path)
  | .sysLink old new => some (old, new)
  | _ => none

/-- The changes that a call can make to the tree. -/
inductive Edit (fmt : Format) (tree : ℕ → Inode) (cwd : ℕ) : Call P → (ℕ → Inode) → Prop where
  | same (c : Call P) : Edit fmt tree cwd c tree
  | link {old new : Path} {i dp : ℕ} {name : Name} (h : Links tree cwd old new i dp name) :
      Edit fmt tree cwd (.sysLink old new) (linkTree tree i dp name)
  | unlink {path : Path} {dp i off : ℕ} (h : Unlinks tree cwd path dp i off) :
      Edit fmt tree cwd (.sysUnlink path) (unlinkTree tree dp i off)
  | create {c : Call P} {path : Path} {type : Kind} {dp i : ℕ} {name : Name}
      (hc : c.makes = some (path, type)) (h : Creates fmt tree cwd path dp name i)
      (major minor : BitVec 16) :
      Edit fmt tree cwd c (createTree tree dp name i (Inode.new type major minor i dp))

def Outcome [Fintype P] (fmt : Format) (k : Kernel P) (cwd : ℕ) (c : Call P)
    (k' : Kernel P) : Prop :=
  ∃ tree, Edit fmt k.inode cwd c tree ∧ Tended tree k'.inode ∧ k'.Quiet

def Stops (tree : ℕ → Inode) (cwd : ℕ) (c : Call P) (r : Stop) : Prop :=
  Fails tree cwd r ∨
    (r = .selfDeadlock ∧ ∃ l ∈ c.links, SelfLink tree cwd l.1 l.2)

namespace Kernel

theorem type_sweep {e : CacheEntry} {i j : ℕ} (h : k.cache j = some e) :
    ((k.sweep i).inode j).type = (k.inode j).type := by
  rw [inode_sweep_of_cached h]

theorem type_modifyInode {g : Inode → Inode} {i j : ℕ}
    (hg : (g (k.inode i)).type = (k.inode i).type) :
    ((k.modifyInode i g).inode j).type = (k.inode j).type := by
  by_cases hj : j = i
  · subst hj
    rw [inode_modifyInode_self, hg]
  · rw [inode_modifyInode_of_ne _ hj]

theorem SettledBut.sweep_both (h : k.SettledBut {i, dp}) : ((k.sweep dp).sweep i).Settled := by
  refine h.sweep.sweep.mono ?_
  rintro j ⟨⟨hj | hj, hdp⟩, hi⟩
  · exact absurd hj hi
  · exact absurd hj hdp

theorem SettledBut.modifyBoth {S : Set ℕ} (h : k.SettledBut S) (i j : ℕ) (g g' : Inode → Inode)
    (hg : ∀ x, (g x).type = x.type) (hg' : ∀ x, (g' x).type = x.type) :
    ((k.modifyInode i g).modifyInode j g').SettledBut (insert j (insert i S)) := by
  refine (h.modifyInode fun hc => ?_).modifyInode fun hc => ?_
  · obtain ⟨e, he⟩ := Option.ne_none_iff_exists'.1 hc
    rw [hg]
    exact h.alloc i e he
  · obtain ⟨e, he⟩ := Option.ne_none_iff_exists'.1 hc
    rw [hg', type_modifyInode (hg _)]
    exact h.alloc j e he

variable [Fintype P]

/-- A change to two inodes that the holders of inodes do not notice, and the sweeps
after it. -/
theorem Quiet.swept (h : k.Quiet) (hs : k'.SettledBut {i, dp}) (hc : k'.cache = k.cache)
    (hl : k'.locked = k.locked) (hf : k'.file = k.file) (hp : k'.proc = k.proc)
    (ht : ∀ j e, k.cache j = some e → (k'.inode j).type = (k.inode j).type) :
    ((k'.sweep dp).sweep i).Quiet := by
  refine h.retree hs.sweep_both ?_ ?_ ?_ ?_ fun j e he => ?_
  · rw [cache_sweep, cache_sweep, hc]
  · rw [locked_sweep, locked_sweep, hl]
  · rw [file_sweep, file_sweep, hf]
  · rw [proc_sweep, proc_sweep, hp]
  · have hj : k'.cache j = some e := hc ▸ he
    rw [type_sweep (cache_sweep.symm ▸ hj), type_sweep hj, ht j e he]

theorem Quiet.linked (h : k.Quiet) : (((k.linked i dp name).sweep dp).sweep i).Quiet := by
  have hs : (k.linked i dp name).SettledBut {i, dp} :=
    (h.settled.modifyBoth i dp Inode.addLink (fun d => d.enter (Dirent.to i name))
      (fun _ => rfl) fun _ => rfl).mono (by simp [Set.pair_comm])
  exact h.swept hs rfl rfl rfl rfl fun j _ _ =>
    (type_modifyInode rfl).trans (type_modifyInode rfl)

theorem Quiet.unlinked (h : k.Quiet) : (((k.unlinked dp i off).sweep dp).sweep i).Quiet := by
  have hs : (k.unlinked dp i off).SettledBut {i, dp} :=
    (h.settled.modifyBoth dp i (fun d => d.remove off (k.inode i)) Inode.dropLink
      (fun _ => rfl) fun _ => rfl).mono (by simp)
  exact h.swept hs rfl rfl rfl rfl fun j _ _ =>
    (type_modifyInode rfl).trans (type_modifyInode rfl)

theorem Quiet.created (h : k.Quiet) (hi : (k.inode i).type = .free)
    (hd : (k.inode dp).type = .dir) {x : Inode} (hx : x.type ≠ .free) (hn : x.nlink ≠ 0) :
    ((k.created dp name i x).sweep dp).Quiet ∧
      ((k.created dp name i x).sweep dp).inode i = x := by
  have hne : i ≠ dp := by
    rintro rfl
    exact absurd (hi.symm.trans hd) (by decide)
  have hself : (k.created dp name i x).inode i = x := by
    rw [Kernel.created, inode_modifyInode_of_ne _ hne, inode_modifyInode_self]
  have hkeep : ∀ j, j ≠ i → ((k.created dp name i x).inode j).type = (k.inode j).type := by
    intro j hj
    rw [Kernel.created, type_modifyInode rfl, inode_modifyInode_of_ne _ hj]
  have hs : (k.created dp name i x).SettledBut {i, dp} := by
    refine ((h.settled.modifyInode fun _ => hx).modifyInode fun hc => ?_).mono
      (by simp [Set.pair_comm])
    show ((k.modifyInode i fun _ => x).inode dp).type ≠ .free
    simp [inode_modifyInode_of_ne _ hne.symm, hd]
  have hswept : ((k.created dp name i x).sweep dp).inode i = x := by
    rw [inode_sweep_of_ne hne, hself]
  refine ⟨?_, hswept⟩
  have hcached : ∀ j e, k.cache j = some e → j ≠ i := by
    rintro j e he rfl
    exact h.settled.alloc j e he hi
  refine h.retree ((hs.sweep.of_linked (i := i) (by rwa [hswept])).mono ?_) ?_ ?_ ?_ ?_ ?_
  · rintro j ⟨⟨hj | hj, hdp⟩, hji⟩
    · exact absurd hj hji
    · exact absurd hj hdp
  · rw [cache_sweep]
    rfl
  · rw [locked_sweep]
    rfl
  · rw [file_sweep]
    rfl
  · rw [proc_sweep]
    rfl
  · intro j e he
    rw [type_sweep (k := k.created dp name i x) he, hkeep j (hcached j e he)]

end Kernel

section Specs

variable [Fintype P]

theorem Kept.outcome {c : Call P} (h : Kept k k') : Outcome fmt k cwd c k' :=
  ⟨k.inode, .same c, h.2, h.1⟩

theorem sysLink_outcome (h : k.Quiet) (old new : Path) :
    wp (sysLink fmt cwd old new) (fun _ k' => Outcome fmt k cwd (.sysLink old new) k')
      (fun r _ => Stops k.inode cwd (.sysLink old new : Call P) r) k := by
  refine wp_mono (sysLink_spec h.settled h.unlocked) ?_ ?_
  · rintro _ k' ⟨-, ⟨-, rfl⟩ | ⟨-, i, dp, name, hlink, rfl⟩⟩
    · exact (Kept.refl h).outcome
    · exact ⟨_, .link hlink, tended_sweep.trans tended_sweep, h.linked⟩
  · rintro r _ (hr | ⟨hr, hself⟩)
    · exact .inl hr
    · exact .inr ⟨hr, (old, new), rfl, hself⟩

theorem sysUnlink_outcome (h : k.Quiet) (hp : Proper k.inode) :
    wp (sysUnlink fmt cwd path) (fun _ k' => Outcome fmt k cwd (.sysUnlink path) k')
      (fun r _ => Fails k.inode cwd r) k := by
  refine wp_mono_post (sysUnlink_spec h.settled h.unlocked hp) ?_
  rintro _ k' (⟨-, rfl⟩ | ⟨-, dp, i, off, hunlink, rfl⟩)
  · exact (Kept.refl h).outcome
  · exact ⟨_, .unlink hunlink, tended_sweep.trans tended_sweep, h.unlinked⟩

theorem Creates.quiet (h : k.Quiet) (htype : type ≠ .free)
    (hcr : Creates fmt k.inode cwd path dp name i) (major minor : BitVec 16) :
    ((k.created dp name i (Inode.new type major minor i dp)).sweep dp).Quiet ∧
      ((k.created dp name i (Inode.new type major minor i dp)).sweep dp).inode i =
        Inode.new type major minor i dp :=
  h.created hcr.fresh.free hcr.dir htype (by simp [Inode.new])

theorem make_spec (h : k.Quiet) (htype : type ≠ .free) (hfile : type ≠ .file)
    (major minor : BitVec 16) :
    wp (make fmt cwd path type major minor)
      (Done k fun k' => ∃ dp name i, Creates fmt k.inode cwd path dp name i ∧
        k' = (k.created dp name i (Inode.new type major minor i dp)).sweep dp)
      (fun r _ => Fails k.inode cwd r) k := by
  rw [make, wp_bind]
  refine create_spec h.settled h.unlocked htype (fun _ _ hr => hr)
    (fun _ => (wp_pure _).2 (.failed rfl)) (fun _ i _ hf _ => absurd hf hfile)
    fun dp name i hcr => ?_
  obtain ⟨hq, hi⟩ := hcr.quiet h htype major minor
  have hl : i ∉ ((k.created dp name i (Inode.new type major minor i dp)).sweep dp).locked := by
    rw [hq.unlocked]
    exact Finset.notMem_empty i
  simp only [wp_bind, wp_pure]
  refine wp_iunlockput hq.settled hl (.done ⟨dp, name, i, hcr, ?_⟩)
  refine hq.settled.sweep_eq (Set.notMem_empty i) ?_
  rw [hi]
  exact htype

theorem make_outcome (h : k.Quiet) {c : Call P} (htype : type ≠ .free)
    (hfile : type ≠ .file) (hc : c.makes = some (path, type)) (major minor : BitVec 16) :
    wp (make fmt cwd path type major minor) (fun _ k' => Outcome fmt k cwd c k')
      (fun r _ => Fails k.inode cwd r) k := by
  refine wp_mono_post (make_spec h htype hfile major minor) ?_
  rintro _ k' (⟨-, rfl⟩ | ⟨-, dp, name, i, hcr, rfl⟩)
  · exact (Kept.refl h).outcome
  · exact ⟨_, .create hc hcr major minor, tended_sweep, (hcr.quiet h htype major minor).1⟩

def MakesFile (tree : ℕ → Inode) (cwd : ℕ) (path : Path) (omode : BitVec 32) : Prop :=
  omode &&& oCreate ≠ 0 ∧ Absent tree cwd path

instance (tree : ℕ → Inode) (cwd : ℕ) (path : Path) (omode : BitVec 32) :
    Decidable (MakesFile tree cwd path omode) :=
  inferInstanceAs (Decidable (_ ∧ _))

/-- The state in which `sys_open` has found the inode `i` of its path, or has made it. -/
inductive Opens (fmt : Format) (k : Kernel P) (cwd : ℕ) (path : Path) (omode : BitVec 32)
    (i : ℕ) : Kernel P → Prop where
  | found (hi : (k.inode i).type ≠ .free) (hdir : (k.inode i).type = .dir → omode = oRdonly)
      (hthere : ¬ MakesFile k.inode cwd path omode) : Opens fmt k cwd path omode i k
  | made {dp : ℕ} {name : Name} (hmode : omode &&& oCreate ≠ 0)
      (h : Creates fmt k.inode cwd path dp name i) :
      Opens fmt k cwd path omode i ((k.created dp name i (Inode.new .file 0 0 i dp)).sweep dp)

section Opens

variable {omode : BitVec 32}

section

variable (h : k.Quiet) (ho : Opens fmt k cwd path omode i k')
include h ho

theorem Opens.quiet : k'.Quiet := by
  cases ho with
  | found => exact h
  | made _ hcr => exact (hcr.quiet h (by decide) 0 0).1

theorem Opens.alloc : (k'.inode i).type ≠ .free := by
  cases ho with
  | found hi _ _ => exact hi
  | made _ hcr =>
    rw [(hcr.quiet h (by decide) 0 0).2]
    simp [Inode.new]

theorem Opens.dir (hdir : (k'.inode i).type = .dir) : omode = oRdonly := by
  cases ho with
  | found _ hmode _ => exact hmode hdir
  | made _ hcr =>
    rw [(hcr.quiet h (by decide) 0 0).2] at hdir
    cases hdir

end

omit [Fintype P] in
theorem Opens.file (ho : Opens fmt k cwd path omode i k') : k'.file = k.file := by
  cases ho with
  | found => rfl
  | made _ _ => exact file_sweep

omit [Fintype P] in
theorem Opens.proc (ho : Opens fmt k cwd path omode i k') : k'.proc = k.proc := by
  cases ho with
  | found => rfl
  | made _ _ => exact proc_sweep

theorem Opens.outcome (h : k.Quiet) (ho : Opens fmt k cwd path omode i k') :
    Outcome fmt k cwd (.sysOpen path omode) k' := by
  cases ho with
  | found => exact (Kept.refl h).outcome
  | made hmode hcr =>
    have hmakes : (Call.sysOpen path omode : Call P).makes = some (path, .file) := if_pos hmode
    exact ⟨_, .create hmakes hcr 0 0, tended_sweep, (hcr.quiet h (by decide) 0 0).1⟩

end Opens

theorem openInode_spec (h : k.Quiet) (omode : BitVec 32) :
    wp (openInode fmt cwd path omode)
      (fun r k' => match r with
        | none => k' = k ∧ ¬ MakesFile k.inode cwd path omode
        | some i => ∃ k₁, k' = k₁.grab i ∧ Opens fmt k cwd path omode i k₁)
      (fun r _ => Fails k.inode cwd r) k := by
  have hfree : ∀ i, i ∉ k.locked := by simp [h.unlocked]
  rw [openInode, wp_ite]
  constructor
  · intro hmode
    refine create_spec h.settled h.unlocked (by decide) (fun _ _ hr => hr) ?_ ?_ ?_
    · intro hthere
      exact ⟨rfl, fun hmakes => hthere hmakes.2⟩
    · intro hthere i hi _ hfile
      refine ⟨k, rfl, .found hi (fun hdir => ?_) fun hmakes => hthere hmakes.2⟩
      cases hfile.symm.trans hdir
    · intro dp name i hcr
      exact ⟨_, rfl, .made hmode hcr⟩
  · intro hmode
    have hthere : ¬ MakesFile k.inode cwd path omode := fun hmakes => hmode hmakes.1
    rw [wp_bind]
    refine namei_spec h.settled h.unlocked (fun _ _ hr => hr.fails) (fun _ => ⟨rfl, hthere⟩) ?_
    intro i k' hres hk
    simp only [wp_bind, wp_look, wp_ite, wp_pure]
    refine wp_ilock h.settled hk (hfree i) (fun hi => ⟨fun _ => ?_, fun hdir => ?_⟩)
      fun ht _ => fails_of_resolve hres ht
    · refine wp_iunlockput h.settled (hfree i) ⟨?_, hthere⟩
      exact h.settled.sweep_eq (Set.notMem_empty i) hi
    · refine ⟨k, rfl, .found hi (fun ht => ?_) hthere⟩
      by_contra hrdonly
      exact hdir ⟨ht, hrdonly⟩

theorem exec_spec (h : k.Quiet) (reads : List (ℕ × ℕ)) :
    wp (exec fmt devsw cwd path reads) (fun _ k' => k' = k) (fun r _ => Fails k.inode cwd r) k := by
  have hfree : ∀ i, i ∉ k.locked := by simp [h.unlocked]
  rw [exec, wp_bind]
  refine namei_spec h.settled h.unlocked (fun _ _ hr => hr.fails) (fun _ => rfl) ?_
  intro i k' hres hk
  simp only [wp_bind, wp_pure]
  refine wp_ilock h.settled hk (hfree i) (fun hi => ?_) fun ht _ => fails_of_resolve hres ht
  refine execReads_spec (k := k.pin i) cache_pin_self rfl (hfree i) reads ?_
  exact wp_iunlockput h.settled (hfree i) (h.settled.sweep_eq (Set.notMem_empty i) hi)

variable [DecidableEq P] {p : P} {pr : Proc}

def Kernel.Full (k : Kernel P) (p : P) : Prop :=
  (∀ f, (k.file f).ref ≠ 0) ∨ ∀ fd, k.ofile p fd ≠ none

instance (k : Kernel P) (p : P) : Decidable (k.Full p) := inferInstanceAs (Decidable (_ ∨ _))

def Kernel.opened (k : Kernel P) (p : P) (i : ℕ) (f : Fin nFile) (fd : Fin nOFile)
    (omode : BitVec 32) : Kernel P :=
  ((k.pin i).modifyFile f fun x => ({ x with ref := 1 } : File).opened i omode).setOfile p fd
    (some f)

def OpenedFile (k : Kernel P) (p : P) (i : ℕ) (omode : BitVec 32) (r : ℤ) (k' : Kernel P) :
    Prop :=
  (r = -1 ∧ k' = k ∧ k.Full p) ∨ ∃ f fd, r = (fd : Fin nOFile).val ∧ (k.file f).ref = 0 ∧
    k.ofile p fd = none ∧ k' = k.opened p i f fd omode

section

variable (h : k.Quiet) (hi : (k.inode i).type ≠ .free)
include h hi

theorem Kernel.Quiet.opened {omode : BitVec 32} (hdir : (k.inode i).type = .dir → omode = oRdonly)
    {f : Fin nFile} (href : (k.file f).ref = 0) (fd : Fin nOFile) :
    (k.opened p i f fd omode).Quiet := by
  refine Quiet.setOfile ?_ p fd (some f)
  refine h.take hi href ⟨rfl, rfl⟩ ⟨by simp [File.opened], fun _ hw ht => ?_⟩
  have hmode := hdir ht
  subst hmode
  simp [File.opened] at hw

theorem OpenedFile.kept {omode : BitVec 32} (hdir : (k.inode i).type = .dir → omode = oRdonly)
    {r : ℤ} (ho : OpenedFile k p i omode r k') : Kept k k' := by
  rcases ho with ⟨-, rfl, -⟩ | ⟨f, fd, -, href, -, rfl⟩
  · exact .refl h
  · exact ⟨h.opened hi hdir href fd, .refl _⟩

theorem openFile_spec (omode : BitVec 32) :
    wp (openFile p i omode) (OpenedFile k p i omode) (fun r _ => Harmless r) (k.grab i) := by
  have hl : i ∉ k.locked := by simp [h.unlocked]
  have hdrop : k.Full p → wp (iunlockput i) (fun _ k' => OpenedFile k p i omode (-1) k')
      (fun r _ => Harmless r) (k.grab i) := by
    intro hfull
    refine wp_iunlockput h.settled hl (.inl ⟨rfl, ?_, hfull⟩)
    exact h.settled.sweep_eq (Set.notMem_empty i) hi
  simp only [openFile, wp_bind]
  refine filealloc_spec (fun hnone => ?_) fun f href => ?_
  · simp only [wp_bind, wp_pure]
    exact hdrop (.inl hnone)
  · have href : (k.file f).ref = 0 := href
    have htype : (k.file f).type = .none := (h.sane f).closed href
    simp only [wp_bind]
    refine fdalloc_spec (fun hnone => ?_) fun fd hfd => ?_
    · -- No descriptor is free: the file structure is given back as it was.
      have hback : ((k.grab i).modifyFile f fun x => { x with ref := 1 }).modifyFile f
          (fun x => { x with ref := 0, type := .none }) = k.grab i := by
        rw [modifyFile_modifyFile]
        refine modifyFile_eq_self ?_
        show { k.file f with ref := 0, type := .none } = k.file f
        rw [← href, ← htype]
      simp only [wp_bind, wp_pure]
      refine fileclose_unopened (by simp) ?_ ?_
      · rw [file_modifyFile_self]
        exact htype
      · rw [hback]
        exact hdrop (.inr hnone)
    · simp only [wp_bind, wp_update, wp_pure]
      refine wp_iunlock
        (k := (k.modifyFile f fun x => { x with ref := 1 }).setOfile p fd (some f)) hl ?_
      refine .inr ⟨f, fd, rfl, href, hfd, ?_⟩
      exact congrArg (setOfile · p fd (some f))
        (modifyFile_modifyFile (k := k.pin i) (fun x => { x with ref := 1 })
          fun x => x.opened i omode)

end

theorem sysOpen_spec (h : k.Quiet) (omode : BitVec 32) :
    wp (sysOpen fmt p cwd path omode)
      (fun r k' => (r = -1 ∧ k' = k ∧ ¬ MakesFile k.inode cwd path omode) ∨
        ∃ i k₁, Opens fmt k cwd path omode i k₁ ∧ OpenedFile k₁ p i omode r k')
      (fun r _ => Fails k.inode cwd r) k := by
  rw [sysOpen, wp_bind]
  refine wp_mono_post (openInode_spec h omode) ?_
  rintro (_ | i) k' hk
  · obtain ⟨rfl, hthere⟩ := hk
    exact .inl ⟨rfl, rfl, hthere⟩
  · obtain ⟨k₁, rfl, hopens⟩ := hk
    refine wp_mono (openFile_spec (hopens.quiet h) (hopens.alloc h) omode) ?_ fun _ _ => .inl
    exact fun r k₂ hk₂ => .inr ⟨i, k₁, hopens, hk₂⟩

theorem sysOpen_outcome (h : k.Quiet) (omode : BitVec 32) :
    wp (sysOpen fmt p cwd path omode) (fun _ k' => Outcome fmt k cwd (.sysOpen path omode) k')
      (fun r _ => Fails k.inode cwd r) k := by
  refine wp_mono_post (sysOpen_spec h omode) ?_
  rintro r k' (⟨-, rfl, -⟩ | ⟨i, k₁, hopens, hfile⟩)
  · exact (Kept.refl h).outcome
  · obtain ⟨tree, hedit, htend, hq⟩ := hopens.outcome h
    have hkept := hfile.kept hq (hopens.alloc h) (hopens.dir h)
    exact ⟨tree, hedit, htend.trans hkept.2, hkept.1⟩

theorem sysChdir_spec (h : k.Quiet) (hp : k.proc p = some pr) :
    wp (sysChdir fmt p pr.cwd path)
      (Done k fun k' => ∃ i, (k.inode i).type ≠ .free ∧
        k' = ((k.pin i).put pr.cwd).setProc p (some { pr with cwd := i }))
      (fun r _ => Fails k.inode pr.cwd r) k := by
  have hfree : ∀ i, i ∉ k.locked := by simp [h.unlocked]
  rw [sysChdir, wp_bind]
  refine namei_spec h.settled h.unlocked (fun _ _ hr => hr.fails)
    (fun _ => (wp_pure _).2 (.failed rfl)) ?_
  intro i k' hres hk
  simp only [wp_bind, wp_look, wp_ite, wp_update, wp_pure]
  refine wp_ilock h.settled hk (hfree i) (fun hi => ⟨fun _ => ?_, fun _ => ?_⟩)
    fun ht _ => fails_of_resolve hres ht
  · refine wp_iunlockput h.settled (hfree i) (.failed ?_)
    exact h.settled.sweep_eq (Set.notMem_empty i) hi
  · refine wp_iunlock (hfree i) (wp_iput (by simp [h.unlocked]) (.done ⟨i, hi, ?_⟩))
    have hproc : ((k.pin i).put pr.cwd).proc p = some pr :=
      (congrFun proc_put p).trans hp
    rw [modifyProc, hproc]
    rfl

theorem sysChdir_outcome (h : k.Quiet) (hp : k.proc p = some pr) :
    wp (sysChdir fmt p pr.cwd path) (fun _ k' => Kept k k')
      (fun r _ => Fails k.inode pr.cwd r) k := by
  refine wp_mono_post (sysChdir_spec h hp) ?_
  rintro _ k' (⟨-, rfl⟩ | ⟨-, i, hi, rfl⟩)
  · exact .refl h
  · exact h.chdir hp hi

theorem call_spec (fmt : Format) (devsw : Devices) (h : k.Quiet) (hproper : Proper k.inode)
    (hp : k.proc p = some pr) (c : Call P)
    (hfork : ∀ child, c = .fork child → k.proc child = none) :
    wp (c.run fmt devsw p pr.cwd) (fun _ k' => Outcome fmt k pr.cwd c k')
      (fun r _ => Stops k.inode pr.cwd c r) k := by
  -- The calls that enter and remove no names.
  have hkept : ∀ {m : KernelM P ℤ}, wp m (fun _ k' => Kept k k') (fun r _ => Harmless r) k →
      wp m (fun _ k' => Outcome fmt k pr.cwd c k') (fun r _ => Stops k.inode pr.cwd c r) k :=
    fun hm => wp_mono hm (fun _ _ hk => hk.outcome) fun _ _ hr => .inl (.inl hr)
  cases c with
  | sysOpen path omode =>
    exact wp_mono (sysOpen_outcome h omode) (fun _ _ hk => hk) fun _ _ => .inl
  | sysLink old new => exact sysLink_outcome h old new
  | sysUnlink path =>
    exact wp_mono (sysUnlink_outcome h hproper) (fun _ _ hk => hk) fun _ _ => .inl
  | sysMkdir | sysMknod =>
    exact wp_mono (make_outcome h (by decide) (by decide) rfl _ _) (fun _ _ hk => hk)
      fun _ _ => .inl
  | sysChdir path =>
    exact wp_mono (sysChdir_outcome h hp) (fun _ _ hk => hk.outcome) fun _ _ => .inl
  | sysRead fd n => exact hkept (onFile_spec h fd fun f => fileread_spec h n)
  | sysWrite fd n => exact hkept (onFile_spec h fd fun f => filewrite_spec h n)
  | sysFstat fd => exact hkept (onFile_spec h fd fun f => filestat_spec h)
  | sysClose fd => exact hkept (sysClose_spec h fd)
  | sysDup fd => exact hkept (sysDup_spec h fd)
  | exec path reads =>
    refine wp_mono (exec_spec h reads) ?_ fun _ _ => .inl
    rintro _ k' rfl
    exact (Kept.refl h).outcome
  | fork child => exact hkept (fork_spec h hp (hfork child rfl))
  | exit => exact hkept (exit_spec h hp)

end Specs

end Xv6.Tree

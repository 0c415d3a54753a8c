import Xv6.Tree.Syscall
import Xv6.Tree.Walk

/-!
# What the calls do to the tree

The state in which `sys_link`, `sys_unlink` and `create` end, from a settled state
without locks. Each either changes nothing, or makes one change to a directory and
one to the inode that is entered in it or taken out of it, and then frees what has
lost its last link and is not in use.

A reason to stop is `Harmless` when it is neither a process that waits for itself
nor an inode without a type.
-/

namespace Xv6.Tree

open Routine Function List Kernel Inode

variable {P : Type} {fmt : Format} {k k' : Kernel P} {i j dp cwd off : ℕ} {name : Name}
  {path : Path} {Q : ℤ → Kernel P → Prop} {tree : ℕ → Inode} {E : Stop → Kernel P → Prop}
  {S : Set ℕ} {D : Kernel P → Prop}

def Harmless (r : Stop) : Prop := r ≠ .selfDeadlock ∧ r ≠ .noType ∧ r ≠ .dirWrite

instance (r : Stop) : Decidable (Harmless r) :=
  inferInstanceAs (Decidable (_ ∧ _ ∧ _))

def Astray (tree : ℕ → Inode) (cwd : ℕ) : Prop :=
  ∃ s j, (s = rootIno ∨ s = cwd) ∧ Leads tree s j ∧ (tree j).type = .free

def Fails (tree : ℕ → Inode) (cwd : ℕ) (r : Stop) : Prop :=
  Harmless r ∨ (r = .noType ∧ Astray tree cwd)

/-- The state in which a call has returned `r`: it has failed and changed nothing, or it has
done what it is for. -/
def Done (k : Kernel P) (D : Kernel P → Prop) (r : ℤ) (k' : Kernel P) : Prop :=
  (r = -1 ∧ k' = k) ∨ (r = 0 ∧ D k')

theorem Done.failed (h : k' = k) : Done k D (-1) k' := .inl ⟨rfl, h⟩

theorem Done.done (h : D k') : Done k D 0 k' := .inr ⟨rfl, h⟩

theorem start_eq : start cwd path = rootIno ∨ start cwd path = cwd := by
  unfold start
  split
  · exact .inl rfl
  · exact .inr rfl

theorem Lost.fails {r : Stop} (h : Lost k (start cwd path) r) : Fails k.inode cwd r := by
  rcases h with rfl | ⟨rfl, j, hj, hfree⟩
  · exact .inl (by decide)
  · exact .inr ⟨rfl, _, j, start_eq, hj, hfree⟩

theorem fails_of_resolve (hr : resolve k.inode cwd path = some i)
    (hfree : (k.inode i).type = .free) : Fails k.inode cwd .noType :=
  .inr ⟨rfl, _, i, start_eq, walk_leads hr, hfree⟩

theorem fails_of_lookup (hr : resolveParent k.inode cwd path = some (dp, name))
    {name' : Name} (hi : (k.inode dp).lookup name' = some (i, off))
    (hfree : (k.inode i).type = .free) : Fails k.inode cwd .noType :=
  .inr ⟨rfl, _, i, start_eq,
    (walkParent_leads hr).tail (entry_of_lookup (resolveParent_dir hr) hi), hfree⟩

def Inode.enter (d : Inode) (e : Dirent) : Inode := { d with entries := addEntry e d.entries }

def Inode.addLink (x : Inode) : Inode := { x with nlink := x.nlink + 1 }

def Inode.dropLink (x : Inode) : Inode := { x with nlink := x.nlink - 1 }

def Inode.remove (d : Inode) (off : ℕ) (x : Inode) : Inode :=
  { d with
    entries := d.entries.set off Dirent.unused
    nlink := if x.type = .dir then d.nlink - 1 else d.nlink }

def Inode.adopt (d : Inode) (e : Dirent) (x : Inode) : Inode :=
  { d with
    entries := addEntry e d.entries
    nlink := if x.type = .dir then d.nlink + 1 else d.nlink }

def Inode.new (type : Kind) (major minor : BitVec 16) (i dp : ℕ) : Inode where
  type := type
  major := major
  minor := minor
  nlink := 1
  size := 0
  entries := if type = .dir then [Dirent.to i dotName, Dirent.to dp dotDot] else []

def changeAt (tree : ℕ → Inode) (i : ℕ) (f : Inode → Inode) : ℕ → Inode :=
  update tree i (f (tree i))

def linkTree (tree : ℕ → Inode) (i dp : ℕ) (name : Name) : ℕ → Inode :=
  changeAt (changeAt tree i addLink) dp fun d => d.enter (Dirent.to i name)

def unlinkTree (tree : ℕ → Inode) (dp i off : ℕ) : ℕ → Inode :=
  changeAt (changeAt tree dp fun d => d.remove off (tree i)) i dropLink

def createTree (tree : ℕ → Inode) (dp : ℕ) (name : Name) (i : ℕ) (x : Inode) : ℕ → Inode :=
  changeAt (changeAt tree i fun _ => x) dp fun d => d.adopt (Dirent.to i name) x

section Apply

variable {tree : ℕ → Inode} {x : Inode}

theorem changeAt_self (f : Inode → Inode) : changeAt tree i f i = f (tree i) :=
  update_self ..

theorem changeAt_of_ne (f : Inode → Inode) (h : j ≠ i) : changeAt tree i f j = tree j :=
  update_of_ne h ..

theorem linkTree_dir (h : i ≠ dp) :
    linkTree tree i dp name dp = (tree dp).enter (Dirent.to i name) := by
  rw [linkTree, changeAt_self, changeAt_of_ne _ h.symm]

theorem linkTree_inode (h : i ≠ dp) : linkTree tree i dp name i = (tree i).addLink := by
  rw [linkTree, changeAt_of_ne _ h, changeAt_self]

theorem linkTree_of_ne (hd : j ≠ dp) (hi : j ≠ i) : linkTree tree i dp name j = tree j := by
  rw [linkTree, changeAt_of_ne _ hd, changeAt_of_ne _ hi]

theorem unlinkTree_dir (h : i ≠ dp) :
    unlinkTree tree dp i off dp = (tree dp).remove off (tree i) := by
  rw [unlinkTree, changeAt_of_ne _ h.symm, changeAt_self]

theorem unlinkTree_inode (h : i ≠ dp) : unlinkTree tree dp i off i = (tree i).dropLink := by
  rw [unlinkTree, changeAt_self, changeAt_of_ne _ h]

theorem unlinkTree_of_ne (hd : j ≠ dp) (hi : j ≠ i) : unlinkTree tree dp i off j = tree j := by
  rw [unlinkTree, changeAt_of_ne _ hi, changeAt_of_ne _ hd]

theorem createTree_dir (h : i ≠ dp) :
    createTree tree dp name i x dp = (tree dp).adopt (Dirent.to i name) x := by
  rw [createTree, changeAt_self, changeAt_of_ne _ h.symm]

theorem createTree_inode (h : i ≠ dp) : createTree tree dp name i x i = x := by
  rw [createTree, changeAt_of_ne _ h, changeAt_self]

theorem createTree_of_ne (hd : j ≠ dp) (hi : j ≠ i) : createTree tree dp name i x j = tree j := by
  rw [createTree, changeAt_of_ne _ hd, changeAt_of_ne _ hi]

theorem mem_addEntry {e e' : Dirent} {es : List Dirent} (h : e ∈ addEntry e' es) :
    e = e' ∨ e ∈ es := by
  induction es with
  | nil => exact .inl (mem_singleton.1 h)
  | cons d ds ih =>
    rw [addEntry] at h
    split at h
    · rcases mem_cons.1 h with h | h
      · exact .inl h
      · exact .inr (mem_cons_of_mem d h)
    · rcases mem_cons.1 h with rfl | h
      · exact .inr mem_cons_self
      · exact (ih h).imp_right (mem_cons_of_mem d)

theorem mem_setUnused {e : Dirent} {es : List Dirent} (h : e ∈ es.set off Dirent.unused)
    (hne : e.inum ≠ 0) : e ∈ es := by
  rcases mem_or_eq_of_mem_set h with h | rfl
  · exact h
  · exact absurd rfl hne

end Apply

namespace Kernel

def linked (k : Kernel P) (i dp : ℕ) (name : Name) : Kernel P :=
  (k.modifyInode i addLink).modifyInode dp fun d => d.enter (Dirent.to i name)

def unlinked (k : Kernel P) (dp i off : ℕ) : Kernel P :=
  (k.modifyInode dp fun d => d.remove off (k.inode i)).modifyInode i dropLink

def created (k : Kernel P) (dp : ℕ) (name : Name) (i : ℕ) (x : Inode) : Kernel P :=
  (k.modifyInode i fun _ => x).modifyInode dp fun d => d.adopt (Dirent.to i name) x

theorem modifyInode_modifyInode (f g : Inode → Inode) :
    (k.modifyInode i f).modifyInode i g = k.modifyInode i fun x => g (f x) := by
  simp only [modifyInode, update_self, update_idem]

theorem modifyInode_comm (h : i ≠ j) (f g : Inode → Inode) :
    (k.modifyInode i f).modifyInode j g = (k.modifyInode j g).modifyInode i f := by
  simp only [modifyInode, update_of_ne h, update_of_ne h.symm, update_comm h]

theorem modifyInode_congr {f g : Inode → Inode} (h : f (k.inode i) = g (k.inode i)) :
    k.modifyInode i f = k.modifyInode i g := by
  simp only [modifyInode, h]

theorem modifyInode_sweep (h : i ≠ j) (f : Inode → Inode) :
    (k.sweep i).modifyInode j f = (k.modifyInode j f).sweep i := by
  simp only [sweep, cache_modifyInode, inode_modifyInode_of_ne f h]
  split
  · exact modifyInode_comm h _ _
  · rfl

theorem SettledBut.grab (h : k.SettledBut S) (hi : (k.inode i).type ≠ .free) :
    (k.grab i).SettledBut (S \ {i}) :=
  { h.pin hi with }

end Kernel

section Dirlink

variable {E : Stop → Kernel P → Prop} {inum : ℕ}

theorem dirlink_spec (hd : (k.inode dp).type = .dir) (hE : ∀ r k', Harmless r → E r k')
    (hsome : ∀ i off, (k.inode dp).lookup name = some (i, off) →
      wp (iput i) (fun _ => Q (-1)) E (k.hold i)) (hnone : (k.inode dp).lookup name = none →
      Q 0 (k.modifyInode dp fun d => d.enter (Dirent.to inum name))) :
    wp (dirlink fmt dp name inum) Q E k := by
  rw [dirlink, wp_bind]
  refine dirlookup_spec hd (fun _ => hE _ _ (by decide)) (fun hx => ?_) fun i off hx => ?_
  · simp only [wp_bind, wp_look, wp_ite, wp_stop, wp_update, wp_pure]
    refine ⟨fun _ => hE _ _ (by decide), fun _ => ?_⟩
    have hset : (k.modifyInode dp fun d =>
        { d with entries := addEntry (Dirent.to inum name) (k.inode dp).entries }) =
          k.modifyInode dp fun d => d.enter (Dirent.to inum name) :=
      modifyInode_congr rfl
    exact hset ▸ hnone hx
  · simp only [wp_bind, wp_pure]
    exact hsome i off hx

theorem dirlink_new (hd : (k.inode dp).type = .dir)
    (hE : ∀ r k', Harmless r → E r k') (hx : (k.inode dp).lookup name = none)
    (hQ : Q 0 (k.modifyInode dp fun d => d.enter (Dirent.to inum name))) :
    wp (dirlink fmt dp name inum) Q E k := by
  refine dirlink_spec hd hE (fun i off hx' => ?_) fun _ => hQ
  simp [hx] at hx'

end Dirlink

section Unlink

variable {Q : ℤ → Kernel P → Prop} {E : Stop → Kernel P → Prop}

theorem unlink_end (h : k.Settled) (hl : k.locked = ∅) (hne : i ≠ dp)
    (hd : (k.inode dp).type = .dir) (ht : (k.inode i).type ≠ .free)
    (hQ : Q 0 (((k.unlinked dp i off).sweep dp).sweep i)) :
    wp (iunlockput dp)
      (fun _ k' => wp (iunlockput i) (fun _ k'' => Q 0 k'') E (k'.modifyInode i dropLink))
      E (((k.grab dp).grab i).modifyInode dp fun d => d.remove off (k.inode i)) := by
  have h₁ := h.modifyInode (i := dp) (f := fun d => d.remove off (k.inode i)) fun _ => by
    simp [remove, hd]
  rw [← grab_modifyInode, ← grab_modifyInode, grab_comm hne.symm]
  have ht₁ : ((k.modifyInode dp fun d => d.remove off (k.inode i)).inode i).type ≠ .free := by
    rwa [inode_modifyInode_of_ne _ hne]
  refine wp_iunlockput (h₁.grab ht₁) (by simp [hl, hne.symm]) ?_
  rw [sweep_grab hne.symm, ← grab_modifyInode]
  have ht₂ : ((sweep (k.modifyInode dp fun d => d.remove off (k.inode i)) dp).inode i).type
      ≠ .free := by
    rwa [inode_sweep_of_ne hne]
  refine wp_iunlockput (h₁.sweep.modifyInode fun _ => ht₂) (by simp [hl]) ?_
  rwa [modifyInode_sweep hne.symm]

/-- Both inodes are locked and the entry for `i` may go. -/
theorem unlinkEntry_spec (h : k.Settled) (hl : k.locked = ∅) (hne : i ≠ dp)
    (hd : (k.inode dp).type = .dir) (hE : ∀ r k', Harmless r → E r k')
    (hT : (k.inode i).type = .free → ∀ k', E .noType k') (hfail : Q (-1) k)
    (hQ : (k.inode i).type ≠ .free → ((k.inode i).type = .dir → isdirempty (k.inode i) = true) →
      1 ≤ (k.inode i).nlink.toInt → Q 0 (((k.unlinked dp i off).sweep dp).sweep i)) :
    wp (unlinkEntry dp i off) Q E ((k.grab dp).hold i) := by
  have hdp : (k.inode dp).type ≠ .free := by simp [hd]
  have hgd := h.grab hdp
  have hlock : i ∉ (k.grab dp).locked := by simp [hl, hne]
  simp only [unlinkEntry, wp_bind, wp_look, wp_ite, wp_stop, wp_update, wp_pure]
  refine wp_ilock hgd (.inl rfl) hlock (fun ht => ⟨fun _ => hE _ _ (by decide), fun hn => ?_⟩) hT
  refine ⟨fun _ => ?_, fun hempty => ?_⟩
  · -- A directory that is not empty: both locks are given back.
    refine wp_iunlockput hgd hlock ?_
    rw [hgd.sweep_eq (by simp) ht]
    refine wp_iunlockput h (by simp [hl]) ?_
    rwa [h.sweep_eq (by simp) hdp]
  · have hempty : (k.inode i).type = .dir → isdirempty (k.inode i) = true := by
      intro hdir
      cases hb : isdirempty (k.inode i) with
      | true => rfl
      | false => exact absurd ⟨hdir, hb⟩ hempty
    have hend := unlink_end (E := E) h hl hne hd ht (hQ ht hempty (Int.not_lt.1 hn))
    refine ⟨fun hdir => ?_, fun hdir => ?_⟩
    · have hdir : (k.inode i).type = .dir := hdir
      rw [modifyInode_modifyInode]
      have hf : (fun d : Inode => d.remove off (k.inode i)) = fun d : Inode =>
          { d with entries := d.entries.set off Dirent.unused, nlink := d.nlink - 1 } := by
        simp [remove, hdir]
      rw [hf] at hend
      exact hend
    · have hdir : (k.inode i).type ≠ .dir := hdir
      have hf : (fun d : Inode => d.remove off (k.inode i)) = fun d : Inode =>
          { d with entries := d.entries.set off Dirent.unused } := by
        simp [remove, hdir]
      rw [hf] at hend
      exact hend

/-- What `sys_unlink` does when it succeeds. -/
structure Unlinks (tree : ℕ → Inode) (cwd : ℕ) (path : Path) (dp i off : ℕ) : Prop where
  dir : (tree dp).type = .dir
  found : ∃ name, resolveParent tree cwd path = some (dp, name) ∧ name ≠ dotName ∧
    name ≠ dotDot ∧ (tree dp).lookup name = some (i, off)
  alloc : (tree i).type ≠ .free
  empty : (tree i).type = .dir → isdirempty (tree i) = true
  linked : 1 ≤ (tree i).nlink.toInt

/-- No directory has an entry for itself other than `.` and `..`. -/
def Proper (tree : ℕ → Inode) : Prop :=
  ∀ d, (tree d).type = .dir → ∀ e ∈ (tree d).entries, e.inum ≠ 0 → e.inum = d →
    e.name = dotName ∨ e.name = dotDot

theorem Proper.lookup_ne (h : Proper tree) (hd : (tree dp).type = .dir)
    (hi : (tree dp).lookup name = some (i, off)) (hdot : name ≠ dotName)
    (hdots : name ≠ dotDot) : i ≠ dp := by
  rintro rfl
  obtain ⟨e, he, hinum, hne, rfl⟩ := lookup_some hi
  rcases h i hd e (mem_of_getElem? he) (hinum ▸ hne) hinum with hn | hn
  · exact hdot hn
  · exact hdots hn

theorem sysUnlink_spec (h : k.Settled) (hl : k.locked = ∅) (hp : Proper k.inode) :
    wp (sysUnlink fmt cwd path) (Done k fun k' => ∃ dp i off, Unlinks k.inode cwd path dp i off ∧
        k' = ((k.unlinked dp i off).sweep dp).sweep i)
      (fun r _ => Fails k.inode cwd r) k := by
  have hfree : ∀ i, i ∉ k.locked := by simp [hl]
  rw [sysUnlink, wp_bind]
  refine nameiparent_spec h hl (fun _ _ hr => hr.fails) (fun _ => (wp_pure _).2 (.failed rfl)) ?_
  intro dp name k' hres hk
  have hd := resolveParent_dir hres
  have hdp : (k.inode dp).type ≠ .free := by simp [hd]
  have hback : k.sweep dp = k := h.sweep_eq (Set.notMem_empty dp) hdp
  simp only [wp_bind, wp_ite, wp_pure]
  refine wp_ilock h hk (hfree dp) (fun _ => ⟨fun _ => ?_, fun hname => ?_⟩)
    fun ht _ => absurd ht hdp
  · exact wp_iunlockput h (hfree dp) (.failed hback)
  · obtain ⟨hdot, hdots⟩ := not_or.1 hname
    refine dirlookup_spec hd (fun _ => .inl (by decide)) (fun _ => ?_) fun i off hi => ?_
    · simp only [wp_bind, wp_pure]
      exact wp_iunlockput h (hfree dp) (.failed hback)
    · have hne := hp.lookup_ne hd hi hdot hdots
      exact unlinkEntry_spec h hl hne hd (fun _ _ hr => .inl hr)
        (fun ht _ => fails_of_lookup hres hi ht) (.failed rfl) fun ha hempty hn =>
          .done ⟨dp, i, off, ⟨hd, ⟨name, hres, hdot, hdots, hi⟩, ha, hempty, hn⟩, rfl⟩

end Unlink

section Link

variable {old new : Path}

/-- What `sys_link` does when it succeeds. -/
structure Links (tree : ℕ → Inode) (cwd : ℕ) (old new : Path) (i dp : ℕ) (name : Name) :
    Prop where
  found : resolve tree cwd old = some i
  alloc : (tree i).type ≠ .free
  notDir : (tree i).type ≠ .dir
  parent : resolveParent tree cwd new = some (dp, name)
  dir : (tree dp).type = .dir
  fresh : (tree dp).lookup name = none

/-- A link to what is not a directory, under a name by which the parent directory
has itself. -/
def SelfLink (tree : ℕ → Inode) (cwd : ℕ) (old new : Path) : Prop :=
  ∃ i ∈ resolve tree cwd old, (tree i).type ≠ .dir ∧
    ∃ d ∈ resolveParent tree cwd new, ∃ e ∈ (tree d.1).lookup d.2, e.1 = d.1

instance (tree : ℕ → Inode) (cwd : ℕ) (old new : Path) : Decidable (SelfLink tree cwd old new) :=
  inferInstanceAs (Decidable (∃ i ∈ resolve tree cwd old, _ ∧ ∃ d ∈ resolveParent tree cwd new, _))

theorem Inode.dropLink_addLink (x : Inode) : x.addLink.dropLink = x := by
  simp only [dropLink, addLink, BitVec.add_sub_cancel]

theorem sameEntries_addLink : SameEntries (k.modifyInode i addLink).inode k.inode := by
  intro j
  by_cases hj : j = i
  · subst hj
    simp [addLink]
  · simp [inode_modifyInode_of_ne _ hj]

variable (h : k.Settled) (hl : k.locked = ∅)
include h hl

theorem sysLink_bad_spec (hi : (k.inode i).type ≠ .free) (hQ : Q (-1) k) :
    wp (sysLink.bad i) Q E ((k.modifyInode i addLink).pin i) := by
  simp only [sysLink.bad, wp_bind, wp_update, wp_pure]
  refine wp_ilock_pin (by simp [hl]) ?_
  have hback : ((k.modifyInode i addLink).grab i).modifyInode i dropLink =
      k.grab i := by
    rw [← grab_modifyInode, modifyInode_modifyInode]
    simp only [dropLink_addLink, modifyInode, update_eq_self]
  have hput : wp (iunlockput i) (fun _ k' => Q (-1) k') E (k.grab i) := by
    refine wp_iunlockput h (by simp [hl]) ?_
    rwa [h.sweep_eq (Set.notMem_empty i) hi]
  rw [← hback] at hput
  exact hput

/-- The second half of `sys_link`: `i` has one more link and is pinned, and `dp` is
locked. -/
theorem sysLink_enter_spec (hi : (k.inode i).type ≠ .free) (hne : i ≠ dp)
    (hd : (k.inode dp).type = .dir) (hE : ∀ r k', Harmless r → E r k')
    (hself : ∀ off, (k.inode dp).lookup name = some (dp, off) → ∀ k', E .selfDeadlock k')
    (hfail : (∀ off, (k.inode dp).lookup name ≠ some (dp, off)) → Q (-1) k)
    (hQ : (k.inode dp).lookup name = none → Q 0 (((k.linked i dp name).sweep dp).sweep i)) :
    wp (dirlink fmt dp name i) (fun r k₁ => wp (iunlockput dp)
        (fun _ k₂ => (r < 0 → wp (sysLink.bad i) Q E k₂) ∧
          (¬ r < 0 → wp (iput i) (fun _ k₃ => Q 0 k₃) E k₂)) E k₁)
      E (((k.modifyInode i addLink).pin i).grab dp) := by
  have hdp : (k.inode dp).type ≠ .free := by simp [hd]
  have hk₁ : ((k.modifyInode i addLink).pin i).Settled :=
    ((h.modifyInode fun _ => hi).pin (by simpa [addLink] using hi)).mono (by simp)
  have hsame : ((k.modifyInode i addLink).pin i).inode dp = k.inode dp :=
    inode_modifyInode_of_ne _ hne.symm
  have hdp₁ : (((k.modifyInode i addLink).pin i).inode dp).type ≠ .free := hsame ▸ hdp
  refine dirlink_spec (hsame ▸ hd : (_ : Inode).type = .dir) hE ?_ ?_
  · intro j off hj
    have hj : (k.inode dp).lookup name = some (j, off) := hsame ▸ hj
    by_cases hjd : j = dp
    · -- The name is there and means `dp` itself, whose lock is held.
      subst hjd
      simp only [iput, wp_bind, wp_look, locked_hold, locked_grab,
        Finset.mem_insert_self, if_true, wp_stop]
      exact hself off hj _
    · refine wp_iput (by simp [hl, hjd]) ?_
      rw [(hk₁.grab hdp₁).put_hold]
      refine wp_iunlockput hk₁ (by simp [hl]) ⟨fun _ => ?_, fun hr => absurd (by decide) hr⟩
      rw [hk₁.sweep_eq (Set.notMem_empty dp) hdp₁]
      refine sysLink_bad_spec h hl hi (hfail fun off' hoff => ?_)
      exact hjd (Prod.mk.inj (Option.some.inj (hj.symm.trans hoff))).1
  · intro hnone
    have hnone : (k.inode dp).lookup name = none := hsame ▸ hnone
    have hlink : (k.linked i dp name).SettledBut {dp, i} := by
      have h₁ : (k.modifyInode i addLink).SettledBut {i} :=
        (h.modifyInode fun _ => hi).mono (by simp)
      refine h₁.modifyInode fun _ => ?_
      rw [inode_modifyInode_of_ne _ hne.symm]
      exact hdp
    have hil : ((k.linked i dp name).inode i).type ≠ .free := by
      rw [linked, inode_modifyInode_of_ne _ hne, inode_modifyInode_self]
      exact hi
    refine wp_iunlockput (k := (k.linked i dp name).pin i) (hlink.pin hil)
      (by simp [linked, hl]) ⟨fun hr => absurd hr (by decide), fun _ => ?_⟩
    rw [sweep_pin hne.symm]
    exact wp_iput_pin hlink.sweep (by simp [linked, hl]) (hQ hnone)

theorem sysLink_spec :
    wp (sysLink fmt cwd old new) (fun r k' => ¬ SelfLink k.inode cwd old new ∧
        Done k (fun k' => ∃ i dp name, Links k.inode cwd old new i dp name ∧
          k' = ((k.linked i dp name).sweep dp).sweep i) r k')
      (fun r _ => Fails k.inode cwd r ∨ (r = .selfDeadlock ∧ SelfLink k.inode cwd old new))
      k := by
  have hfree : ∀ i, i ∉ k.locked := by simp [hl]
  rw [sysLink, wp_bind]
  refine namei_spec h hl (fun _ _ hr => .inl hr.fails) (fun hres => ⟨?_, .failed rfl⟩) ?_
  · rintro ⟨i, hi, -⟩
    cases hres.symm.trans hi
  intro i k' hres hk
  simp only [wp_bind, wp_look, wp_ite, wp_update, wp_pure]
  refine wp_ilock h hk (hfree i) (fun hi => ⟨fun hdir => ?_, fun hdir => ?_⟩)
    fun ht _ => .inl (fails_of_resolve hres ht)
  · refine wp_iunlockput h (hfree i) ⟨fun hself => ?_, .failed ?_⟩
    · obtain ⟨i', hi', hnot, -⟩ := hself
      cases hres.symm.trans hi'
      exact hnot hdir
    · exact h.sweep_eq (Set.notMem_empty i) hi
  · -- The state in which the parent of the new name is looked up.
    have h₁ : ((k.modifyInode i addLink).pin i).Settled :=
      ((h.modifyInode fun _ => hi).pin (by simpa [addLink] using hi)).mono (by simp)
    have hsame := sameEntries_addLink (k := k) (i := i)
    refine wp_iunlock (k := k.modifyInode i addLink) (hfree i)
      (nameiparent_spec h₁ hl ?_ ?_ ?_)
    · exact fun r _ hr => .inl (hr.congr hsame).fails
    · intro hpar
      rw [inode_pin, hsame.resolveParent_eq] at hpar
      refine sysLink_bad_spec h hl hi ⟨?_, .failed rfl⟩
      rintro ⟨-, -, -, d, hpar', -⟩
      cases hpar.symm.trans hpar'
    · intro dp name k'' hpar hk''
      have hd : (k.inode dp).type = .dir := (hsame dp).1.symm.trans (resolveParent_dir hpar)
      rw [inode_pin, hsame.resolveParent_eq] at hpar
      have hne : i ≠ dp := by
        rintro rfl
        exact hdir hd
      have hnot : (∀ off, (k.inode dp).lookup name ≠ some (dp, off)) →
          ¬ SelfLink k.inode cwd old new := by
        rintro hoff ⟨-, -, -, d, hpar', ⟨j, off⟩, hself, rfl⟩
        cases hpar.symm.trans hpar'
        exact hoff off hself
      simp only [wp_bind, wp_ite, wp_pure]
      refine wp_ilock h₁ hk'' (hfree dp) (fun _ => ?_) fun ht _ => ?_
      · exact sysLink_enter_spec h hl hi hne hd (fun _ _ hr => .inl (.inl hr))
          (fun off hoff _ => .inr ⟨rfl, i, hres, hdir, (dp, name), hpar, (dp, off), hoff, rfl⟩)
          (fun hoff => ⟨hnot hoff, .failed rfl⟩) fun hnone =>
            ⟨hnot (by simp [hnone]), .done ⟨i, dp, name, ⟨hres, hi, hdir, hpar, hd, hnone⟩, rfl⟩⟩
      · simp [inode_pin, (hsame dp).1, hd] at ht

end Link

section Create

variable {E : Stop → Kernel P → Prop} {type : Kind} {major minor : BitVec 16}

/-- A free inode that `ialloc` can find. -/
structure Fresh (fmt : Format) (tree : ℕ → Inode) (i : ℕ) : Prop where
  pos : 1 ≤ i
  lt : i < fmt.ninodes
  free : (tree i).type = .free

theorem ialloc_spec {Q : ℕ → Kernel P → Prop} (hE : ∀ r k', Harmless r → E r k')
    (hQ : ∀ i, Fresh fmt k.inode i →
      Q i ((k.modifyInode i fun _ => fresh type).hold i)) : wp (ialloc fmt type) Q E k := by
  simp only [ialloc, wp_bind, wp_look]
  split
  · exact hE _ _ (by decide)
  · rename_i i hi
    have hmem := mem_range.1 (mem_of_find?_eq_some hi)
    have hfree : 1 ≤ i ∧ (k.inode i).type = .free := by simpa using List.find?_some hi
    simp only [wp_bind, wp_update, wp_pure]
    exact wp_iget (hQ i ⟨hfree.1, hmem, hfree.2⟩) fun _ => hE _ _ (by decide)

theorem Fresh.inum_to (h : Fresh fmt tree i) : (Dirent.to i name).inum = i :=
  Nat.mod_eq_of_lt (Nat.lt_of_lt_of_le h.lt fmt.ninodes_le)

/-- A new directory gets its first two entries. -/
theorem linkDots_spec {Q : Unit → Kernel P → Prop} (hi : (k.inode i).type = .dir)
    (hnil : (k.inode i).entries = []) (hinum : (Dirent.to i dotName).inum ≠ 0)
    (hE : ∀ r k', Harmless r → E r k') (hQ : Q () (k.modifyInode i fun x =>
      { x with entries := [Dirent.to i dotName, Dirent.to dp dotDot] })) :
    wp (linkDots fmt dp i) Q E k := by
  simp only [linkDots, wp_bind, wp_ite, wp_stop, wp_pure]
  have hfirst : (k.inode i).enter (Dirent.to i dotName) =
      { k.inode i with entries := [Dirent.to i dotName] } := by
    simp [Inode.enter, hnil, addEntry]
  have hdots : (Dirent.to i dotName).name ≠ dotDot := by simp [Dirent.to]
  refine dirlink_new hi hE (by simp [Inode.lookup, hnil, lookupFrom])
    ⟨fun hr => absurd hr (by decide), fun _ => ?_⟩
  refine dirlink_new (by rw [inode_modifyInode_self]; exact hi) hE ?_
    ⟨fun hr => absurd hr (by decide), fun _ => ?_⟩
  · rw [inode_modifyInode_self, hfirst]
    simp [Inode.lookup, lookupFrom, hdots]
  · have hboth : (k.modifyInode i fun x => { x with entries :=
        [Dirent.to i dotName, Dirent.to dp dotDot] }) = k.modifyInode i fun x =>
          (x.enter (Dirent.to i dotName)).enter (Dirent.to dp dotDot) := by
      refine modifyInode_congr ?_
      rw [hfirst]
      simp [Inode.enter, addEntry, hinum]
    rw [modifyInode_modifyInode, ← hboth]
    exact hQ

theorem createNew_end {Q : ℕ → Kernel P → Prop} (h : k.SettledBut S) (hl : k.locked = ∅)
    (hne : i ≠ dp) (hd : (k.inode dp).type = .dir) (hi : (k.inode i).type ≠ .free)
    (hx : (k.inode dp).lookup name = none) (hE : ∀ r k', Harmless r → E r k')
    (hQ : Q i (((k.modifyInode dp fun d => d.enter (Dirent.to i name)).sweep dp).grab i)) :
    wp (dirlink fmt dp name i) (fun r k₁ => (r < 0 → E .createDirlink k₁) ∧
        (¬ r < 0 → wp (iunlockput dp) (fun _ k₂ => Q i k₂) E k₁))
      E ((k.grab dp).grab i) := by
  refine dirlink_new hd hE hx ⟨fun hr => absurd hr (by decide), fun _ => ?_⟩
  have h₁ := h.modifyInode (i := dp) (f := fun d => d.enter (Dirent.to i name)) fun _ => by
    simp [enter, hd]
  rw [← grab_modifyInode, ← grab_modifyInode, grab_comm hne.symm]
  have hi₁ : ((k.modifyInode dp fun d => d.enter (Dirent.to i name)).inode i).type ≠ .free := by
    rwa [inode_modifyInode_of_ne _ hne]
  refine wp_iunlockput (h₁.grab hi₁) (by simp [hl, hne.symm]) ?_
  rwa [sweep_grab hne.symm]

/-- The end of `create` for a directory, which first gets its own entries. -/
theorem createNew_dir_end {Q : ℕ → Kernel P → Prop} (h : k.SettledBut S) (hl : k.locked = ∅)
    (hne : i ≠ dp) (hd : (k.inode dp).type = .dir) (hi : (k.inode i).type = .dir)
    (hnil : (k.inode i).entries = []) (hinum : (Dirent.to i dotName).inum ≠ 0)
    (hx : (k.inode dp).lookup name = none) (hE : ∀ r k', Harmless r → E r k')
    (hQ : Q i ((((k.modifyInode i fun x =>
      { x with entries := [Dirent.to i dotName, Dirent.to dp dotDot] }).modifyInode dp
        fun d => d.addLink.enter (Dirent.to i name)).sweep dp).grab i)) :
    wp (linkDots fmt dp i) (fun _ k₀ => wp (dirlink fmt dp name i)
        (fun r k₁ => (r < 0 → E .createDirlink k₁) ∧
          (¬ r < 0 → wp (iunlockput dp) (fun _ k₂ => Q i k₂) E k₁)) E k₀)
      E (((k.grab dp).grab i).modifyInode dp addLink) := by
  have hi₁ : (k.modifyInode dp addLink).inode i = k.inode i :=
    inode_modifyInode_of_ne _ hne
  have hd₁ : ((k.modifyInode dp addLink).modifyInode i fun x =>
      { x with entries := [Dirent.to i dotName, Dirent.to dp dotDot] }).inode dp =
        (k.inode dp).addLink := by
    rw [inode_modifyInode_of_ne _ hne.symm, inode_modifyInode_self]
  have h₁ : (k.modifyInode dp addLink).SettledBut (insert dp S) :=
    h.modifyInode fun _ => by simp [addLink, hd]
  refine linkDots_spec (k := ((k.grab dp).grab i).modifyInode dp addLink)
    ((congrArg type hi₁).trans hi) ((congrArg entries hi₁).trans hnil) hinum hE ?_
  have h₂ := h₁.modifyInode (i := i) (f := fun x =>
    { x with entries := [Dirent.to i dotName, Dirent.to dp dotDot] }) fun _ => by simp [hi₁, hi]
  refine createNew_end h₂ hl hne (by simp [hd₁, addLink, hd]) (by simp [hi₁, hi]) ?_ hE ?_
  · rw [hd₁]
    exact hx
  · rw [modifyInode_comm hne.symm, modifyInode_modifyInode]
    exact hQ

/-- `create` when the name is new: the directory `dp` is locked at the beginning, the
new inode at the end. -/
theorem createNew_spec {Q : ℕ → Kernel P → Prop} (h : k.Settled) (hl : k.locked = ∅)
    (hd : (k.inode dp).type = .dir) (hx : (k.inode dp).lookup name = none) (htype : type ≠ .free)
    (hE : ∀ r k', Harmless r → E r k') (hQ : ∀ i, Fresh fmt k.inode i →
      Q i (((k.created dp name i (new type major minor i dp)).sweep dp).grab i)) :
    wp (createNew fmt dp name type major minor) Q E (k.grab dp) := by
  simp only [createNew, wp_bind, wp_ite, wp_stop, wp_update, wp_pure]
  refine ialloc_spec hE fun i hi => ?_
  have hne : i ≠ dp := by
    rintro rfl
    exact absurd (hi.free.symm.trans hd) (by decide)
  have hdp : ((k.modifyInode i fun _ => fresh type).inode dp) = k.inode dp :=
    inode_modifyInode_of_ne _ hne.symm
  have h₁ : (k.modifyInode i fun _ => fresh type).SettledBut {i} :=
    (h.modifyInode fun _ => htype).mono (by simp)
  have hfresh : ((k.modifyInode i fun _ => fresh type).inode i).type ≠ .free := by
    simpa [fresh] using htype
  have hg := h₁.grab (i := dp) (by simp [hdp, hd])
  refine wp_ilock (k := (k.modifyInode i fun _ => fresh type).grab dp) hg (.inl rfl)
    (by simp [hl, hne]) (fun _ => ?_) fun ht _ => absurd ht hfresh
  -- The new inode as it is before it becomes a directory.
  have hbase : (((k.modifyInode i fun _ => fresh type).grab dp).grab i).modifyInode i
      (fun x => { x with major := major, minor := minor, nlink := 1 }) =
        ((k.modifyInode i fun _ => ⟨type, major, minor, 1, 0, []⟩).grab dp).grab i := by
    rw [← grab_modifyInode, ← grab_modifyInode, modifyInode_modifyInode]
    rfl
  have h₂ : (k.modifyInode i fun _ => ⟨type, major, minor, 1, 0, []⟩).SettledBut {i} :=
    (h.modifyInode fun _ => htype).mono (by simp)
  have hdp₂ : ((k.modifyInode i fun _ => ⟨type, major, minor, 1, 0, []⟩).inode dp) = k.inode dp :=
    inode_modifyInode_of_ne _ hne.symm
  refine ⟨fun hdir => ?_, fun hdir => ?_⟩
  · rw [hbase]
    refine createNew_dir_end h₂ hl hne (by rwa [hdp₂]) (by simpa using hdir) (by simp) ?_
      (by rwa [hdp₂]) hE ?_
    · rw [hi.inum_to]
      exact Nat.one_le_iff_ne_zero.1 hi.pos
    · have hend : ((k.modifyInode i fun _ => ⟨type, major, minor, 1, 0, []⟩).modifyInode i
          fun x => { x with entries := [Dirent.to i dotName, Dirent.to dp dotDot] }).modifyInode dp
            (fun d => d.addLink.enter (Dirent.to i name)) =
              k.created dp name i (new type major minor i dp) := by
        rw [modifyInode_modifyInode]
        simp [created, new, adopt, hdir, enter, addLink]
      rw [hend]
      exact hQ i hi
  · rw [hbase]
    refine createNew_end h₂ hl hne (by rwa [hdp₂]) (by simpa using htype) (by rwa [hdp₂]) hE ?_
    have hend : ((k.modifyInode i fun _ => ⟨type, major, minor, 1, 0, []⟩).modifyInode dp
        fun d => d.enter (Dirent.to i name)) =
          k.created dp name i (new type major minor i dp) := by
      simp [created, new, adopt, hdir, enter]
    rw [hend]
    exact hQ i hi

/-- What `create` does when it makes an inode. -/
structure Creates (fmt : Format) (tree : ℕ → Inode) (cwd : ℕ) (path : Path) (dp : ℕ)
    (name : Name) (i : ℕ) : Prop where
  fresh : Fresh fmt tree i
  parent : resolveParent tree cwd path = some (dp, name)
  dir : (tree dp).type = .dir
  absent : (tree dp).lookup name = none

def Absent (tree : ℕ → Inode) (cwd : ℕ) (path : Path) : Prop :=
  ∃ d ∈ resolveParent tree cwd path, (tree d.1).lookup d.2 = none

instance (tree : ℕ → Inode) (cwd : ℕ) (path : Path) : Decidable (Absent tree cwd path) :=
  inferInstanceAs (Decidable (∃ d ∈ resolveParent tree cwd path, _))

theorem Creates.isAbsent (h : Creates fmt tree cwd path dp name i) : Absent tree cwd path :=
  ⟨(dp, name), h.parent, h.absent⟩

theorem create_spec {Q : Option ℕ → Kernel P → Prop} (h : k.Settled) (hl : k.locked = ∅)
    (htype : type ≠ .free) (hE : ∀ r k', Fails k.inode cwd r → E r k')
    (hnone : ¬ Absent k.inode cwd path → Q none k)
    (hfound : ¬ Absent k.inode cwd path → ∀ i, (k.inode i).type ≠ .free → type = .file →
      (k.inode i).type = .file → Q (some i) (k.grab i))
    (hnew : ∀ dp name i, Creates fmt k.inode cwd path dp name i →
      Q (some i) (((k.created dp name i (new type major minor i dp)).sweep dp).grab i)) :
    wp (create fmt cwd path type major minor) Q E k := by
  have hfree : ∀ i, i ∉ k.locked := by simp [hl]
  have hharm : ∀ r k', Harmless r → E r k' := fun r k' hr => hE r k' (.inl hr)
  rw [create, wp_bind]
  refine nameiparent_spec h hl (fun _ _ hr => hE _ _ hr.fails) (fun hres => hnone ?_) ?_
  · rintro ⟨d, hd, -⟩
    cases hres.symm.trans hd
  intro dp name k' hres hk
  have hd := resolveParent_dir hres
  have hdp : (k.inode dp).type ≠ .free := by simp [hd]
  simp only [wp_bind]
  refine wp_ilock h hk (hfree dp) (fun _ => ?_) fun ht _ => absurd ht hdp
  refine dirlookup_spec hd (fun _ => hharm _ _ (by decide)) (fun hx => ?_) fun i off hi => ?_
  · simp only [wp_bind, wp_pure]
    exact createNew_spec h hl hd hx htype hharm fun i hi =>
      hnew dp name i ⟨hi, hres, hd, hx⟩
  · have hthere : ¬ Absent k.inode cwd path := by
      rintro ⟨d, hd', hx⟩
      cases hres.symm.trans hd'
      cases hx.symm.trans hi
    simp only [wp_bind, wp_look, wp_ite, wp_pure]
    refine wp_iunlockput_held h (Set.notMem_empty dp) (hfree dp) hdp fun k'' hk'' => ?_
    refine wp_ilock h hk'' (hfree i) (fun hi => ⟨fun hfile => ?_, fun _ => ?_⟩)
      fun ht _ => hE _ _ (fails_of_lookup hres hi ht)
    · exact hfound hthere i hi hfile.1 hfile.2
    · refine wp_iunlockput h (hfree i) ?_
      rw [h.sweep_eq (Set.notMem_empty i) hi]
      exact hnone hthere

end Create

end Xv6.Tree

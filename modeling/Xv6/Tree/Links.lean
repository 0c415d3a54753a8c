import Xv6.Library.Hierarchy
import Xv6.Tree.Deadlock

/-!
# The tree of directories and its link counts

The inodes as a hierarchy: the second entry of a directory is its parent, and the
entries after it are what it holds. `Sound` says that the directories have this form
and that the hierarchy is well formed, so that link counts are exact. An edit of the
tree is an operation on the hierarchy as long as the new entry goes into a directory
that has links and no count passes the largest 16-bit number.
-/

namespace Xv6.Tree

open List Inode

variable {fmt : Format} {tree tree' : ℕ → Inode} {i j d dp off cwd : ℕ} {name : Name}

theorem forall_inode {C : ℕ → Prop} (dp i : ℕ) (hd : C dp) (hi : C i)
    (hother : ∀ j, j ≠ dp → j ≠ i → C j) (j : ℕ) : C j := by
  by_cases hjd : j = dp
  · exact hjd ▸ hd
  · by_cases hji : j = i
    · exact hji ▸ hi
    · exact hother j hjd hji

section Entries

/-- The inode number of `..`. -/
def Inode.dotdot (x : Inode) : ℕ := (x.entries[1]?.map Dirent.inum).getD 0

def Inode.rest (x : Inode) : List Dirent := x.entries.drop 2

def Inode.holds (x : Inode) (i : ℕ) : ℕ := x.rest.countP fun e => decide (e.inum = i ∧ i ≠ 0)

/-- The entries of directory number `d`: `.` for itself, `..`, and others under other
names. -/
structure Dotted (d : ℕ) (x : Inode) : Prop where
  pos : d ≠ 0
  dots : ∃ e₀ e₁, x.entries = e₀ :: e₁ :: x.rest ∧ e₀.inum = d ∧ e₀.name = dotName ∧
    e₁.inum ≠ 0 ∧ e₁.name = dotDot
  others : ∀ e ∈ x.rest, e.inum ≠ 0 → e.name ≠ dotName ∧ e.name ≠ dotDot

variable {x : Inode} {e : Dirent} {es : List Dirent}

theorem countP_addEntry {p : Dirent → Bool} (hp : ∀ e, e.inum = 0 → p e = false) :
    (addEntry e es).countP p = es.countP p + if p e = true then 1 else 0 := by
  induction es with
  | nil => simp [addEntry, countP_cons]
  | cons d ds ih =>
    rw [addEntry]
    split
    · rename_i hd
      simp [countP_cons, hp d hd]
    · rw [countP_cons, countP_cons, ih]
      omega

section

variable (h : Dotted d x)
include h

theorem Dotted.lookup_ne_none (hname : name = dotName ∨ name = dotDot) : x.lookup name ≠ none := by
  intro hnone
  obtain ⟨e₀, e₁, hes, hself, h₀, hup, h₁⟩ := h.dots
  have hfree := lookup_none hnone
  rw [hes] at hfree
  rcases hname with rfl | rfl
  · exact hfree e₀ (by simp) (hself ▸ h.pos) h₀
  · exact hfree e₁ (by simp) hup h₁

theorem Dotted.name_ne (hnone : x.lookup name = none) : name ≠ dotName ∧ name ≠ dotDot :=
  ⟨fun hn => h.lookup_ne_none (.inl hn) hnone, fun hn => h.lookup_ne_none (.inr hn) hnone⟩

theorem Dotted.entries_enter (e : Dirent) :
    ∃ e₀ e₁, x.entries = e₀ :: e₁ :: x.rest ∧
      addEntry e x.entries = e₀ :: e₁ :: addEntry e x.rest ∧ e₀.inum = d ∧
      e₀.name = dotName ∧ e₁.inum ≠ 0 ∧ e₁.name = dotDot := by
  obtain ⟨e₀, e₁, hes, hself, h₀, hup, h₁⟩ := h.dots
  refine ⟨e₀, e₁, hes, ?_, hself, h₀, hup, h₁⟩
  rw [hes, addEntry, if_neg (hself ▸ h.pos), addEntry, if_neg hup]

theorem Dotted.rest_enter (e : Dirent) : (x.enter e).rest = addEntry e x.rest := by
  obtain ⟨e₀, e₁, -, hadd, -⟩ := h.entries_enter e
  simp [rest, enter, hadd]

theorem Dotted.dotdot_enter (e : Dirent) : (x.enter e).dotdot = x.dotdot := by
  obtain ⟨e₀, e₁, hes, hadd, -⟩ := h.entries_enter e
  rw [dotdot, dotdot, enter, hadd, hes]
  rfl

theorem Dotted.holds_enter (e : Dirent) (j : ℕ) :
    (x.enter e).holds j = x.holds j + if e.inum = j ∧ j ≠ 0 then 1 else 0 := by
  rw [holds, holds, h.rest_enter, countP_addEntry]
  · simp
  · intro e' he'
    simp only [he', decide_eq_false_iff_not, not_and, not_not]
    exact fun hj => hj.symm

theorem Dotted.enter (hname : e.name ≠ dotName ∧ e.name ≠ dotDot) : Dotted d (x.enter e) := by
  refine ⟨h.pos, ?_, ?_⟩
  · obtain ⟨e₀, e₁, -, hadd, hdots⟩ := h.entries_enter e
    refine ⟨e₀, e₁, ?_, hdots⟩
    rw [h.rest_enter]
    exact hadd
  · intro e' he' hne
    rw [h.rest_enter] at he'
    rcases mem_addEntry he' with rfl | he'
    · exact hname
    · exact h.others e' he' hne

theorem Dotted.two_le (hget : x.entries[off]? = some e) (hdot : e.name ≠ dotName)
    (hdots : e.name ≠ dotDot) : 2 ≤ off := by
  obtain ⟨e₀, e₁, hes, -, h₀, -, h₁⟩ := h.dots
  rw [hes] at hget
  match off with
  | 0 => exact absurd (Option.some.inj hget ▸ h₀) hdot
  | 1 => exact absurd (Option.some.inj hget ▸ h₁) hdots
  | _ + 2 => omega

end

theorem Dotted.getElem?_rest (hoff : 2 ≤ off) : x.rest[off - 2]? = x.entries[off]? := by
  rw [rest, List.getElem?_drop]
  congr 1
  omega

theorem Dotted.rest_remove (hoff : 2 ≤ off) (y : Inode) :
    (x.remove off y).rest = x.rest.set (off - 2) Dirent.unused := by
  rw [rest, rest, remove, drop_set, if_neg (by omega)]

theorem Dotted.entries_remove (h : Dotted d x) (hoff : 2 ≤ off) (y : Inode) :
    ∃ e₀ e₁, x.entries = e₀ :: e₁ :: x.rest ∧
      (x.remove off y).entries = e₀ :: e₁ :: (x.remove off y).rest ∧ e₀.inum = d ∧
      e₀.name = dotName ∧ e₁.inum ≠ 0 ∧ e₁.name = dotDot := by
  obtain ⟨e₀, e₁, hes, hdots⟩ := h.dots
  refine ⟨e₀, e₁, hes, ?_, hdots⟩
  obtain ⟨n, rfl⟩ := Nat.exists_eq_add_of_le' hoff
  rw [rest_remove hoff, remove, Nat.add_sub_cancel]
  dsimp only
  rw [hes]
  rfl

theorem Dotted.dotdot_remove (h : Dotted d x) (hoff : 2 ≤ off) (y : Inode) :
    (x.remove off y).dotdot = x.dotdot := by
  obtain ⟨e₀, e₁, hes, hrem, -⟩ := h.entries_remove hoff y
  rw [dotdot, dotdot, hes, hrem]
  rfl

theorem Dotted.holds_remove (hoff : 2 ≤ off) (hget : x.entries[off]? = some e) (hne : e.inum ≠ 0)
    (y : Inode) (j : ℕ) : x.holds j = (x.remove off y).holds j + if e.inum = j then 1 else 0 := by
  rw [← getElem?_rest hoff] at hget
  obtain ⟨hlt, hrest⟩ := List.getElem?_eq_some_iff.1 hget
  have hunused : ¬ (Dirent.unused.inum = j ∧ j ≠ 0) := fun hj => hj.2 hj.1.symm
  rw [holds, holds, rest_remove hoff, countP_set hlt, hrest]
  simp only [decide_eq_true_eq, if_neg hunused, Nat.add_zero]
  by_cases hj : e.inum = j
  · have hpos : 0 < x.rest.countP fun e => decide (e.inum = j ∧ j ≠ 0) :=
      countP_pos_iff.2 ⟨e, mem_of_getElem? hget, by simp [hj, hj ▸ hne]⟩
    rw [if_pos ⟨hj, hj ▸ hne⟩, if_pos hj]
    omega
  · rw [if_neg (fun h => hj h.1), if_neg hj]
    rfl

theorem Dotted.remove (h : Dotted d x) (hoff : 2 ≤ off) (y : Inode) :
    Dotted d (x.remove off y) := by
  refine ⟨h.pos, ?_, ?_⟩
  · obtain ⟨e₀, e₁, -, hrem⟩ := h.entries_remove hoff y
    exact ⟨e₀, e₁, hrem⟩
  · intro e he hne
    rw [rest_remove hoff] at he
    exact h.others e (mem_setUnused he hne) hne

theorem Dotted.congr {y : Inode} (h : Dotted d x) (he : y.entries = x.entries) : Dotted d y := by
  have hrest : y.rest = x.rest := by rw [rest, rest, he]
  refine ⟨h.pos, ?_, ?_⟩
  · rw [he, hrest]
    exact h.dots
  · rw [hrest]
    exact h.others

theorem holds_of_isdirempty (h : isdirempty x = true) (j : ℕ) : x.holds j = 0 := by
  rw [holds, countP_eq_zero]
  intro e he
  have hz : e.inum = 0 := by simpa using all_eq_true.1 h e he
  simp only [hz, decide_eq_true_eq, not_and, not_not]
  exact fun hj => hj.symm

end Entries

def hierarchy (fmt : Format) (tree : ℕ → Inode) : Hierarchy ℕ where
  nodes := Finset.range fmt.ninodes
  used := fun i => (tree i).type ≠ .free
  dir := fun i => (tree i).type = .dir
  links := fun i => (tree i).nlink.toInt
  parent := fun d => if (tree d).type = .dir then (tree d).dotdot else 0
  holds := fun d i => if (tree d).type = .dir then (tree d).holds i else 0

def LiveDir (tree : ℕ → Inode) (d : ℕ) : Prop :=
  (tree d).type = .dir ∧ 0 < (tree d).nlink.toInt

instance (tree : ℕ → Inode) (d : ℕ) : Decidable (LiveDir tree d) :=
  inferInstanceAs (Decidable (_ ∧ _))

/-- The number of directory entries for inode `i`, other than `.`, in directories that
have links. -/
def linkCount (fmt : Format) (tree : ℕ → Inode) (i : ℕ) : ℕ :=
  ∑ d ∈ Finset.range fmt.ninodes,
    if LiveDir tree d then
      (tree d).entries.countP fun e => decide (e.inum = i ∧ e.name ≠ dotName)
    else 0

/-- A well-formed tree of directories with exact link counts. -/
structure Sound (fmt : Format) (tree : ℕ → Inode) : Prop where
  zero : (tree 0).type = .free
  dotted : ∀ d, (tree d).type = .dir → Dotted d (tree d)
  well : (hierarchy fmt tree).Well rootIno

theorem Dotted.countP_entries {x : Inode} (h : Dotted d x) (hi : i ≠ 0) :
    (x.entries.countP fun e => decide (e.inum = i ∧ e.name ≠ dotName)) =
      (if x.dotdot = i then 1 else 0) + x.holds i := by
  obtain ⟨e₀, e₁, hes, -, h₀, -, h₁⟩ := h.dots
  have hdd : x.dotdot = e₁.inum := by
    rw [dotdot, hes]
    rfl
  have hrest : (x.rest.countP fun e => decide (e.inum = i ∧ e.name ≠ dotName)) = x.holds i := by
    apply countP_congr
    intro e he
    simp only [decide_eq_true_eq]
    constructor
    · exact fun hp => ⟨hp.1, hi⟩
    · exact fun hp => ⟨hp.1, (h.others e he (hp.1 ▸ hi)).1⟩
  have hup : e₁.name ≠ dotName := by
    rw [h₁]
    decide
  rw [hes, countP_cons, countP_cons, hrest, hdd]
  simp only [h₀, hup, decide_eq_true_eq, ne_eq, not_true_eq_false, and_false, if_false,
    not_false_eq_true, and_true]
  omega

theorem Sound.linkCount_eq (h : Sound fmt tree) (hi : i ≠ 0) :
    linkCount fmt tree i = (hierarchy fmt tree).count i := by
  apply Finset.sum_congr rfl
  intro d _
  by_cases hd : LiveDir tree d
  · have hlive : (hierarchy fmt tree).Live d := hd
    rw [if_pos hd, Hierarchy.Well.naming_of_live hlive, (h.dotted d hd.1).countP_entries hi]
    simp only [hierarchy, hd.1, if_true]
  · have hdead : ¬ (hierarchy fmt tree).Live d := hd
    rw [if_neg hd, Hierarchy.Well.naming_of_not_live hdead]

theorem Sound.ne_zero (h : Sound fmt tree) (hi : (tree i).type ≠ .free) : i ≠ 0 := by
  rintro rfl
  exact hi h.zero

theorem Sound.nlink_eq (h : Sound fmt tree) (hi : (tree i).type ≠ .free) :
    (tree i).nlink.toInt = linkCount fmt tree i := by
  rw [h.linkCount_eq (h.ne_zero hi)]
  exact h.well.exact i hi

theorem leads_of_reach (h : (hierarchy fmt tree).Reach rootIno i) : Leads tree rootIno i := by
  induction h with
  | root => exact .refl
  | @held d i _ hd hne ih =>
    have hdir : (tree d).type = .dir := hd.1
    have hcount : (tree d).holds i ≠ 0 := by simpa [hierarchy, hdir] using hne
    obtain ⟨e, he, hp⟩ := countP_pos_iff.1 (Nat.pos_of_ne_zero hcount)
    have hp : e.inum = i ∧ i ≠ 0 := by simpa using hp
    exact ih.tail ⟨hdir, e, mem_of_mem_drop he, hp⟩

theorem Sound.leads (h : Sound fmt tree) (hi : (tree i).type ≠ .free)
    (hpos : 0 < (tree i).nlink.toInt) : Leads tree rootIno i :=
  leads_of_reach (h.well.reach_of_links hi hpos)

section Edits

abbrev maxLink : ℤ := 2 ^ 15 - 1

theorem toInt_add_one {n : BitVec 16} (h : n.toInt < maxLink) : (n + 1).toInt = n.toInt + 1 := by
  have hlow := BitVec.le_toInt n
  have hone : (1 : BitVec 16).toInt = 1 := by decide
  rw [BitVec.toInt_add, hone, Int.bmod_def]
  simp only [maxLink] at h
  omega

theorem toInt_sub_one {n : BitVec 16} (h : 0 < n.toInt) : (n - 1).toInt = n.toInt - 1 := by
  have hhigh := BitVec.toInt_lt (x := n)
  have hone : (1 : BitVec 16).toInt = 1 := by decide
  rw [BitVec.toInt_sub, hone, Int.bmod_def]
  omega

variable {old new path : Path}

section

variable (x y : Inode) (e : Dirent)

theorem type_enter : (x.enter e).type = x.type := rfl

theorem type_addLink : x.addLink.type = x.type := rfl

theorem type_dropLink : x.dropLink.type = x.type := rfl

theorem type_remove : (x.remove off y).type = x.type := rfl

theorem type_adopt : (x.adopt e y).type = x.type := rfl

end

theorem agreesAt_of_eq {h : Hierarchy ℕ} (ht : tree' j = tree j)
    (hj : (hierarchy fmt tree).AgreesAt h j) : (hierarchy fmt tree').AgreesAt h j := by
  refine ⟨?_, ?_, ?_, ?_, ?_⟩
  · simpa only [hierarchy, ht] using hj.used
  · simpa only [hierarchy, ht] using hj.dir
  · simpa only [hierarchy, ht] using hj.links
  · simpa only [hierarchy, ht] using hj.parent
  · simpa only [hierarchy, ht] using hj.holds

variable (h : Sound fmt tree) (hw : Within fmt tree)

include h hw in
theorem hierarchy_link (hl : Links tree cwd old new i dp name)
    (hmax : (tree i).nlink.toInt < maxLink) :
    hierarchy fmt (linkTree tree i dp name) = (hierarchy fmt tree).enter dp i := by
  have hne := hl.ne
  have hdots := h.dotted dp hl.dir
  have hinum := hw.inum_to hl.alloc name
  have hi := h.ne_zero hl.alloc
  refine Hierarchy.ext_at rfl (forall_inode dp i ?_ ?_ fun j hjd hji => ?_)
  · refine ⟨?_, ?_, ?_, ?_, fun j => ?_⟩ <;>
      simp only [hierarchy, Hierarchy.enter, linkTree_dir hne, type_enter, hl.dir]
    · simp [enter, hne.symm]
    · simp [hdots.dotdot_enter]
    · simp only [if_true, hdots.holds_enter, hinum, true_and]
      congr 1
      by_cases hj : j = i
      · subst hj
        simp [hi]
      · simp [hj, Ne.symm hj]
  · refine ⟨?_, ?_, ?_, ?_, fun j => ?_⟩ <;>
      simp only [hierarchy, Hierarchy.enter, linkTree_inode hne, type_addLink]
    · rw [if_pos trivial]
      exact toInt_add_one hmax
    · simp [hl.notDir]
    · simp [hl.notDir, hne]
  · refine agreesAt_of_eq (linkTree_of_ne hjd hji) ⟨.rfl, .rfl, ?_, rfl, fun n => ?_⟩
    · simp [Hierarchy.enter, hji]
    · simp [Hierarchy.enter, hjd]

include h hw in
theorem Sound.link (hl : Links tree cwd old new i dp name) (hlive : 0 < (tree dp).nlink.toInt)
    (hmax : (tree i).nlink.toInt < maxLink) : Sound fmt (linkTree tree i dp name) := by
  have hne := hl.ne
  refine ⟨?_, forall_inode dp i (fun _ => ?_) (fun hd => ?_) fun j hjd hji hd => ?_, ?_⟩
  · have hd : 0 ≠ dp := by
      rintro rfl
      cases h.zero.symm.trans hl.dir
    have hi : 0 ≠ i := (h.ne_zero hl.alloc).symm
    rw [linkTree_of_ne hd hi]
    exact h.zero
  · rw [linkTree_dir hne]
    exact (h.dotted dp hl.dir).enter ((h.dotted dp hl.dir).name_ne hl.fresh)
  · rw [linkTree_inode hne] at hd
    exact absurd hd hl.notDir
  · rw [linkTree_of_ne hjd hji] at hd ⊢
    exact h.dotted j hd
  · rw [hierarchy_link h hw hl hmax]
    exact h.well.enter ⟨hl.dir, hlive⟩ hl.alloc hl.notDir

section

variable (hu : Unlinks tree cwd path dp i off) (h : Sound fmt tree)
include hu h

theorem Unlinks.entry : ∃ e, (tree dp).entries[off]? = some e ∧ e.inum = i ∧ i ≠ 0 ∧ 2 ≤ off := by
  obtain ⟨name, -, hdot, hdots, hfound⟩ := hu.found
  obtain ⟨e, hget, hinum, hne, rfl⟩ := lookup_some hfound
  exact ⟨e, hget, hinum, hne, (h.dotted dp hu.dir).two_le hget hdot hdots⟩

theorem Unlinks.holds (y : Inode) (j : ℕ) :
    (tree dp).holds j = ((tree dp).remove off y).holds j + if j = i then 1 else 0 := by
  obtain ⟨e, hget, rfl, hne, hoff⟩ := hu.entry h
  rw [Dotted.holds_remove hoff hget hne y j]
  simp only [eq_comm]

theorem Unlinks.live : (hierarchy fmt tree).Live dp ∧ (hierarchy fmt tree).holds dp i ≠ 0 := by
  have hone : (hierarchy fmt tree).holds dp i ≠ 0 := by
    have hholds := hu.holds h (tree i) i
    rw [if_pos rfl] at hholds
    simp only [hierarchy, hu.dir, if_true]
    omega
  refine ⟨?_, hone⟩
  by_contra hdead
  exact hone (h.well.empty dp i hu.dir hdead)

end

section

variable (h : Sound fmt tree) (hp : Proper tree) (hu : Unlinks tree cwd path dp i off)
include h hp hu

theorem hierarchy_unlink (hnot : (tree i).type ≠ .dir) :
    hierarchy fmt (unlinkTree tree dp i off) = (hierarchy fmt tree).leave dp i := by
  have hne := hu.ne hp
  have hdots := h.dotted dp hu.dir
  obtain ⟨-, -, -, -, hoff⟩ := hu.entry h
  refine Hierarchy.ext_at rfl (forall_inode dp i ?_ ?_ fun j hjd hji => ?_)
  · refine ⟨?_, ?_, ?_, ?_, fun j => ?_⟩ <;>
      simp only [hierarchy, Hierarchy.leave, unlinkTree_dir hne, type_remove, hu.dir]
    · simp [remove, hnot, hne.symm]
    · simp [hdots.dotdot_remove hoff]
    · have hholds := hu.holds h (tree i) j
      simp only [if_true, true_and]
      omega
  · refine ⟨?_, ?_, ?_, ?_, fun j => ?_⟩ <;>
      simp only [hierarchy, Hierarchy.leave, unlinkTree_inode hne, type_dropLink]
    · rw [if_pos trivial]
      exact toInt_sub_one hu.linked
    · simp [hnot]
    · simp [hnot]
  · refine agreesAt_of_eq (unlinkTree_of_ne hjd hji) ⟨.rfl, .rfl, ?_, rfl, fun n => ?_⟩
    · simp [Hierarchy.leave, hji]
    · simp [Hierarchy.leave, hjd]

theorem hierarchy_unlink_dir (hdir : (tree i).type = .dir) :
    hierarchy fmt (unlinkTree tree dp i off) = (hierarchy fmt tree).removeDir dp i := by
  have hne := hu.ne hp
  have hdots := h.dotted dp hu.dir
  obtain ⟨-, -, -, -, hoff⟩ := hu.entry h
  refine Hierarchy.ext_at rfl (forall_inode dp i ?_ ?_ fun j hjd hji => ?_)
  · refine ⟨?_, ?_, ?_, ?_, fun j => ?_⟩ <;>
      simp only [hierarchy, Hierarchy.removeDir, unlinkTree_dir hne, type_remove, hu.dir]
    · rw [if_neg hne.symm, if_pos trivial, Int.sub_zero, remove, if_pos hdir]
      exact toInt_sub_one (hu.live h).1.2
    · simp [hdots.dotdot_remove hoff]
    · have hholds := hu.holds h (tree i) j
      simp only [if_true, true_and]
      omega
  · refine ⟨?_, ?_, ?_, ?_, fun j => ?_⟩ <;>
      simp only [hierarchy, Hierarchy.removeDir, unlinkTree_inode hne, type_dropLink]
    · rw [if_pos trivial, if_neg hne, Int.sub_zero]
      exact toInt_sub_one hu.linked
    · rfl
    · simp only [hne, false_and, if_false, Nat.sub_zero]
      rfl
  · refine agreesAt_of_eq (unlinkTree_of_ne hjd hji) ⟨.rfl, .rfl, ?_, rfl, fun n => ?_⟩
    · simp [Hierarchy.removeDir, hji, hjd]
    · simp [Hierarchy.removeDir, hjd]

theorem Sound.unlink : Sound fmt (unlinkTree tree dp i off) := by
  have hne := hu.ne hp
  obtain ⟨-, -, -, hi, hoff⟩ := hu.entry h
  obtain ⟨hlive, hholds⟩ := hu.live h
  refine ⟨?_, forall_inode dp i (fun _ => ?_) (fun hd => ?_) fun j hjd hji hd => ?_, ?_⟩
  · have hd : 0 ≠ dp := by
      rintro rfl
      cases h.zero.symm.trans hu.dir
    rw [unlinkTree_of_ne hd hi.symm]
    exact h.zero
  · rw [unlinkTree_dir hne]
    exact (h.dotted dp hu.dir).remove hoff _
  · rw [unlinkTree_inode hne] at hd ⊢
    exact (h.dotted i hd).congr rfl
  · rw [unlinkTree_of_ne hjd hji] at hd ⊢
    exact h.dotted j hd
  · by_cases hdir : (tree i).type = .dir
    · rw [hierarchy_unlink_dir h hp hu hdir]
      refine h.well.removeDir hlive hdir hholds hne.symm fun j => ?_
      simp only [hierarchy, hdir, if_true]
      exact holds_of_isdirempty (hu.empty hdir) j
    · rw [hierarchy_unlink h hp hu hdir]
      exact h.well.leave hlive hholds hdir

end

section Create

variable {type : Kind} {major minor : BitVec 16}

theorem type_new : (Inode.new type major minor i dp).type = type := rfl

theorem holds_adopt (h : Sound fmt tree) (hc : Creates fmt tree cwd path dp name i) (y : Inode)
    (j : ℕ) :
    ((tree dp).adopt (Dirent.to i name) y).holds j =
      (tree dp).holds j + if j = i then 1 else 0 := by
  have hholds := (h.dotted dp hc.dir).holds_enter (Dirent.to i name) j
  rw [hc.fresh.inum_to] at hholds
  refine hholds.trans ?_
  congr 1
  by_cases hj : j = i
  · have hpos := hc.fresh.pos
    rw [if_pos hj, if_pos ⟨hj.symm, by omega⟩]
  · rw [if_neg hj, if_neg fun hi => hj hi.1.symm]

theorem hierarchy_create (h : Sound fmt tree) (hc : Creates fmt tree cwd path dp name i)
    (hfree : type ≠ .free) (hnot : type ≠ .dir) :
    hierarchy fmt (createTree tree dp name i (Inode.new type major minor i dp)) =
      (hierarchy fmt tree).make dp i := by
  have hne := hc.ne
  have hdots := h.dotted dp hc.dir
  have hold : (tree i).type ≠ .dir := by simp [hc.fresh.free]
  refine Hierarchy.ext_at rfl (forall_inode dp i ?_ ?_ fun j hjd hji => ?_)
  · refine ⟨?_, ?_, ?_, ?_, fun j => ?_⟩ <;>
      simp only [hierarchy, Hierarchy.make, createTree_dir hne, type_adopt, hc.dir]
    · simp
    · simp [adopt, new, hnot, hne.symm]
    · exact hdots.dotdot_enter _
    · simp only [if_true, true_and, holds_adopt h hc]
  · refine ⟨?_, ?_, ?_, ?_, fun j => ?_⟩ <;>
      simp only [hierarchy, Hierarchy.make, createTree_inode hne, type_new]
    · simp [hfree]
    · simp [hnot, hold]
    · simp only [if_true]
      rfl
    · simp [hnot, hold]
    · simp [hnot, hold, hne]
  · refine agreesAt_of_eq (createTree_of_ne hjd hji) ⟨?_, .rfl, ?_, rfl, fun n => ?_⟩
    · simp [Hierarchy.make, hji]
    · simp [Hierarchy.make, hji]
    · simp [Hierarchy.make, hjd]

include h hw in
theorem hierarchy_create_dir (hc : Creates fmt tree cwd path dp name i)
    (hmax : (tree dp).nlink.toInt < maxLink) :
    hierarchy fmt (createTree tree dp name i (Inode.new .dir major minor i dp)) =
      (hierarchy fmt tree).makeDir dp i := by
  have hne := hc.ne
  have hdots := h.dotted dp hc.dir
  have hinum := hw.inum_to (i := dp) (by simp [hc.dir]) dotDot
  refine Hierarchy.ext_at rfl (forall_inode dp i ?_ ?_ fun j hjd hji => ?_)
  · refine ⟨?_, ?_, ?_, ?_, fun j => ?_⟩ <;>
      simp only [hierarchy, Hierarchy.makeDir, createTree_dir hne, type_adopt, hc.dir]
    · simp
    · simp
    · rw [if_neg hne.symm, if_pos trivial]
      exact toInt_add_one hmax
    · rw [if_neg hne.symm, if_pos trivial, if_pos trivial]
      exact hdots.dotdot_enter _
    · simp only [if_true, true_and, hne.symm, if_false, holds_adopt h hc]
  · refine ⟨?_, ?_, ?_, ?_, fun j => ?_⟩ <;>
      simp only [hierarchy, Hierarchy.makeDir, createTree_inode hne, type_new]
    · simp
    · simp
    · simp only [if_true]
      rfl
    · simp only [if_true]
      exact hinum
    · simp only [if_true]
      rfl
  · refine agreesAt_of_eq (createTree_of_ne hjd hji) ⟨?_, ?_, ?_, ?_, fun n => ?_⟩
    · simp [Hierarchy.makeDir, hji]
    · simp [Hierarchy.makeDir, hji]
    · simp [Hierarchy.makeDir, hji, hjd]
    · simp [Hierarchy.makeDir, hji]
    · simp [Hierarchy.makeDir, hji, hjd]

theorem dotted_new (hi : i ≠ 0) (hlt : i < 2 ^ 16) (hd : dp ≠ 0) (hdlt : dp < 2 ^ 16) :
    Dotted i (Inode.new .dir major minor i dp) := by
  refine ⟨hi, ⟨Dirent.to i dotName, Dirent.to dp dotDot, rfl, Nat.mod_eq_of_lt hlt, rfl, ?_, rfl⟩,
    fun e he => ?_⟩
  · have hinum : (Dirent.to dp dotDot).inum = dp := Nat.mod_eq_of_lt hdlt
    rw [hinum]
    exact hd
  · simp [rest, new] at he

include h hw in
theorem Sound.create (hc : Creates fmt tree cwd path dp name i) (hfree : type ≠ .free)
    (hlive : 0 < (tree dp).nlink.toInt) (hmax : type = .dir → (tree dp).nlink.toInt < maxLink) :
    Sound fmt (createTree tree dp name i (Inode.new type major minor i dp)) := by
  have hne := hc.ne
  have hdots := h.dotted dp hc.dir
  have hpos := hc.fresh.pos
  have hmem : i ∈ (hierarchy fmt tree).nodes := Finset.mem_range.2 hc.fresh.lt
  have hunused : ¬ (hierarchy fmt tree).used i := fun hu => hu hc.fresh.free
  refine ⟨?_, forall_inode dp i (fun _ => ?_) (fun hd => ?_) fun j hjd hji hd => ?_, ?_⟩
  · rw [createTree_of_ne hdots.pos.symm (by omega)]
    exact h.zero
  · rw [createTree_dir hne]
    exact (hdots.enter (e := Dirent.to i name) (hdots.name_ne hc.absent)).congr rfl
  · rw [createTree_inode hne] at hd ⊢
    obtain rfl : type = .dir := hd
    have hle := fmt.ninodes_le
    have hilt := hc.fresh.lt
    have hdlt := hw dp (by simp [hc.dir])
    exact dotted_new (by omega) (by omega) hdots.pos (by omega)
  · rw [createTree_of_ne hjd hji] at hd ⊢
    exact h.dotted j hd
  · by_cases hdir : type = .dir
    · subst hdir
      rw [hierarchy_create_dir h hw hc (hmax rfl)]
      exact h.well.makeDir ⟨hc.dir, hlive⟩ hmem hunused
    · rw [hierarchy_create h hc hfree hdir]
      exact h.well.make ⟨hc.dir, hlive⟩ hmem hunused

end Create

theorem Sound.tended (h : Sound fmt tree) (ht : Tended tree tree') : Sound fmt tree' := by
  have hkeep : ∀ i, (tree' i).type ≠ .free →
      (tree' i).type = (tree i).type ∧ (tree' i).entries = (tree i).entries := by
    intro i hi
    rcases (ht i).2 with hsame | ⟨-, hfree, -⟩
    · exact hsame
    · exact absurd hfree hi
  have hkeepDir : ∀ d, (tree' d).type = .dir →
      (tree d).type = .dir ∧ (tree' d).entries = (tree d).entries := by
    intro d hd
    obtain ⟨htype, hent⟩ := hkeep d (by simp [hd])
    exact ⟨htype ▸ hd, hent⟩
  refine ⟨?_, ?_, h.well.freed ⟨rfl, ?_, ?_, ?_, ?_, ?_, ?_⟩⟩
  · rcases ht.type_eq_or 0 with hs | hs
    · rw [hs]
      exact h.zero
    · exact hs
  · intro d hd
    obtain ⟨hdir, hent⟩ := hkeepDir d hd
    exact (h.dotted d hdir).congr hent
  · funext i
    exact congrArg BitVec.toInt (ht i).1
  · intro i hi
    exact (congrArg (· ≠ Kind.free) (hkeep i hi).1).mp hi
  · intro i hi hlinks
    rcases (ht i).2 with ⟨htype, -⟩ | ⟨hz, -⟩
    · exact (congrArg (· ≠ Kind.free) htype).mpr hi
    · have hzero : (tree i).nlink.toInt = 0 := by simp [hz]
      exact absurd hzero hlinks
  · intro i
    constructor
    · intro hi
      have hi : (tree' i).type = .dir := hi
      exact ⟨by simp [hierarchy, hi], (hkeepDir i hi).1⟩
    · intro hi
      exact (hkeep i hi.1).1.trans hi.2
  · intro d hd
    obtain ⟨hdir, hent⟩ := hkeepDir d hd
    have hd : (tree' d).type = .dir := hd
    simp only [hierarchy, hd, hdir, if_true, dotdot, hent]
  · intro d hd
    obtain ⟨hdir, hent⟩ := hkeepDir d hd
    have hd : (tree' d).type = .dir := hd
    simp only [hierarchy, hd, hdir, if_true, holds, rest, hent]

end Edits

end Xv6.Tree

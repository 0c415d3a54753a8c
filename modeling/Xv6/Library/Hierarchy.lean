import Mathlib.Algebra.Order.BigOperators.Group.Finset
import Xv6.Library.Counting

/-!
# Hierarchies with link counts

Nodes, some of them directories, held by directories under names that do not matter
here: `holds d i` is how often `d` holds `i`. A directory also knows its parent. Every
node has a link count, and a directory is live while its count is positive.

In a well-formed hierarchy the count of a node is the number of times that live
directories hold it, each directory counting as one more link of its parent. The live
directories form a tree below the root, and what is not live holds nothing. The
operations that enter and remove nodes keep this, and it follows that a node with links
can be reached from the root.
-/

@[ext]
structure Hierarchy (α : Type*) where
  nodes : Finset α
  used : α → Prop
  dir : α → Prop
  links : α → ℤ
  parent : α → α
  holds : α → α → ℕ

namespace Hierarchy

open Finset Nat

section Definitions

variable {α : Type*} (h : Hierarchy α)

def Live (d : α) : Prop := h.dir d ∧ 0 < h.links d

open Classical in
noncomputable def naming (d i : α) : ℕ :=
  if h.Live d then (if h.parent d = i then 1 else 0) + h.holds d i else 0

noncomputable def count (i : α) : ℕ := ∑ d ∈ h.nodes, h.naming d i

/-- The parents of a directory lead to the root. -/
inductive Rooted (root : α) : α → Prop where
  | root : Rooted root root
  | up {d : α} : Rooted root (h.parent d) → Rooted root d

/-- What can be reached from the root through live directories. -/
inductive Reach (root : α) : α → Prop where
  | root : Reach root root
  | held {d i : α} : Reach root d → h.Live d → h.holds d i ≠ 0 → Reach root i

/-- The invariant of a hierarchy. -/
structure Well (root : α) : Prop where
  mem : ∀ i, h.used i → i ∈ h.nodes
  used_of_dir : ∀ d, h.dir d → h.used d
  root_live : h.Live root
  root_parent : h.parent root = root
  exact : ∀ i, h.used i → h.links i = h.count i
  down : ∀ d i, h.Live d → h.holds d i ≠ 0 → h.dir i → i ≠ root ∧ h.Live i ∧ h.parent i = d
  up : ∀ d, h.Live d → d ≠ root → h.Live (h.parent d) ∧ h.holds (h.parent d) d = 1
  empty : ∀ d i, h.dir d → ¬ h.Live d → h.holds d i = 0
  held : ∀ d i, h.Live d → h.holds d i ≠ 0 → h.used i
  rooted : ∀ d, h.Live d → h.Rooted root d

end Definitions

structure AgreesAt {α : Type*} (h h' : Hierarchy α) (j : α) : Prop where
  used : h.used j ↔ h'.used j
  dir : h.dir j ↔ h'.dir j
  links : h.links j = h'.links j
  parent : h.parent j = h'.parent j
  holds : ∀ i, h.holds j i = h'.holds j i

theorem ext_at {α : Type*} {h h' : Hierarchy α} (hn : h.nodes = h'.nodes)
    (ha : ∀ j, h.AgreesAt h' j) : h = h' := by
  apply Hierarchy.ext hn
  · funext j
    exact propext (ha j).used
  · funext j
    exact propext (ha j).dir
  · funext j
    exact (ha j).links
  · funext j
    exact (ha j).parent
  · funext j i
    exact (ha j).holds i

namespace Well

variable {α : Type*} {h : Hierarchy α} {root d i : α}

theorem live_mem (hw : h.Well root) (hd : h.Live d) : d ∈ h.nodes :=
  hw.mem d (hw.used_of_dir d hd.1)

theorem parent_live (hw : h.Well root) (hd : h.Live d) : h.Live (h.parent d) := by
  by_cases hroot : d = root
  · subst hroot
    rw [hw.root_parent]
    exact hd
  · exact (hw.up d hd hroot).1

theorem naming_of_live (hd : h.Live d) (i : α) [Decidable (h.parent d = i)] :
    h.naming d i = (if h.parent d = i then 1 else 0) + h.holds d i := by
  rw [naming, if_pos hd]
  congr

theorem naming_of_not_live (hd : ¬ h.Live d) (i : α) : h.naming d i = 0 := if_neg hd

variable (hw : h.Well root)
include hw

theorem naming_le_count (hd : h.Live d) : h.naming d i ≤ h.count i :=
  single_le_sum (f := fun d => h.naming d i) (fun _ _ => zero_le _) (hw.live_mem hd)

theorem holds_of_not_used (hi : ¬ h.used i) (hd : h.Live d) : h.holds d i = 0 := by
  by_contra hne
  exact hi (hw.held d i hd hne)

theorem naming_of_not_used (hi : ¬ h.used i) (d : α) : h.naming d i = 0 := by
  by_cases hd : h.Live d
  · classical
    have hparent : h.parent d ≠ i := by
      rintro rfl
      exact hi (hw.used_of_dir _ (hw.parent_live hd).1)
    rw [naming_of_live hd, if_neg hparent, hw.holds_of_not_used hi hd]
  · exact naming_of_not_live hd i

theorem count_of_not_used (hi : ¬ h.used i) : h.count i = 0 :=
  sum_eq_zero fun d _ => hw.naming_of_not_used hi d

theorem reach_of_live (hd : h.Live d) : h.Reach root d := by
  induction hw.rooted d hd with
  | root => exact .root
  | @up d _ ih =>
    by_cases hroot : d = root
    · subst hroot
      exact .root
    · obtain ⟨hp, hone⟩ := hw.up d hd hroot
      exact .held (ih hp) hp (by rw [hone]; exact one_ne_zero)

theorem reach_of_links (hi : h.used i) (hpos : 0 < h.links i) : h.Reach root i := by
  classical
  have hcount : h.count i ≠ 0 := by
    have := hw.exact i hi
    omega
  obtain ⟨d, -, hd⟩ := exists_ne_zero_of_sum_ne_zero hcount
  have hlive : h.Live d := by
    by_contra hnot
    exact hd (naming_of_not_live hnot i)
  rw [naming_of_live hlive] at hd
  by_cases hp : h.parent d = i
  · subst hp
    exact hw.reach_of_live (hw.parent_live hlive)
  · rw [if_neg hp, zero_add] at hd
    exact .held (hw.reach_of_live hlive) hlive hd

theorem rooted_of_parent {h' : Hierarchy α} (hp : ∀ d, h.Live d → h'.parent d = h.parent d)
    (hd : h.Live d) : h'.Rooted root d := by
  induction hw.rooted d hd with
  | root => exact .root
  | @up d _ ih =>
    have hrec := ih (hw.parent_live hd)
    rw [← hp d hd] at hrec
    exact .up hrec

end Well

/-- `h'` is `h` with some nodes without links no longer used. -/
structure Freed {α : Type*} (h h' : Hierarchy α) : Prop where
  nodes : h'.nodes = h.nodes
  links : h'.links = h.links
  used : ∀ i, h'.used i → h.used i
  kept : ∀ i, h.used i → h.links i ≠ 0 → h'.used i
  dir : ∀ i, h'.dir i ↔ h'.used i ∧ h.dir i
  parent : ∀ d, h'.dir d → h'.parent d = h.parent d
  holds : ∀ d, h'.dir d → h'.holds d = h.holds d

section Operations

variable {α : Type*} [DecidableEq α] (h : Hierarchy α) (d i : α)

/-- One more link to `i`, in the directory `d`. -/
def enter : Hierarchy α :=
  { h with
    links := fun j => h.links j + if j = i then 1 else 0
    holds := fun e j => h.holds e j + if e = d ∧ j = i then 1 else 0 }

def leave : Hierarchy α :=
  { h with
    links := fun j => h.links j - if j = i then 1 else 0
    holds := fun e j => h.holds e j - if e = d ∧ j = i then 1 else 0 }

def make : Hierarchy α :=
  { h with
    used := fun j => h.used j ∨ j = i
    links := fun j => if j = i then 1 else h.links j
    holds := fun e j => h.holds e j + if e = d ∧ j = i then 1 else 0 }

def makeDir : Hierarchy α :=
  { h with
    used := fun j => h.used j ∨ j = i
    dir := fun j => h.dir j ∨ j = i
    links := fun j => if j = i then 1 else h.links j + if j = d then 1 else 0
    parent := fun j => if j = i then d else h.parent j
    holds := fun e j => if e = i then 0 else h.holds e j + if e = d ∧ j = i then 1 else 0 }

def removeDir : Hierarchy α :=
  { h with
    links := fun j => h.links j - (if j = i then 1 else 0) - if j = d then 1 else 0
    holds := fun e j => h.holds e j - if e = d ∧ j = i then 1 else 0 }

end Operations

namespace Well

variable {α : Type*} [DecidableEq α] {h h' : Hierarchy α} {root d i : α}

section Files

omit [DecidableEq α] in
theorem of_files (hw : h.Well root) (hdir : h'.dir = h.dir) (hparent : h'.parent = h.parent)
    (hlive : ∀ e, h'.Live e ↔ h.Live e) (hmem : ∀ j, h'.used j → j ∈ h'.nodes)
    (hused : ∀ j, h.used j → h'.used j) (hexact : ∀ j, h'.used j → h'.links j = h'.count j)
    (hholds : ∀ e j, h.dir j → h'.holds e j = h.holds e j)
    (hempty : ∀ e j, ¬ h.Live e → h.holds e j = 0 → h'.holds e j = 0)
    (hheld : ∀ e j, h'.holds e j ≠ 0 → h.holds e j ≠ 0 ∨ h'.used j) : h'.Well root where
  mem := hmem
  used_of_dir e he := by
    rw [hdir] at he
    exact hused e (hw.used_of_dir e he)
  root_live := (hlive root).2 hw.root_live
  root_parent := by
    rw [hparent]
    exact hw.root_parent
  exact := hexact
  down e j he hne hj := by
    rw [hdir] at hj
    rw [hholds e j hj] at hne
    obtain ⟨hroot, hj, hp⟩ := hw.down e j ((hlive e).1 he) hne hj
    rw [hparent]
    exact ⟨hroot, (hlive j).2 hj, hp⟩
  up e he hroot := by
    have he := (hlive e).1 he
    obtain ⟨hp, hone⟩ := hw.up e he hroot
    rw [hparent, hholds _ e he.1]
    exact ⟨(hlive _).2 hp, hone⟩
  empty e j he hnot := by
    rw [hdir] at he
    have hdead : ¬ h.Live e := mt (hlive e).2 hnot
    exact hempty e j hdead (hw.empty e j he hdead)
  held e j he hne := by
    rcases hheld e j hne with hold | hnew
    · exact hused j (hw.held e j ((hlive e).1 he) hold)
    · exact hnew
  rooted e he := hw.rooted_of_parent (fun d _ => congrFun hparent d) ((hlive e).1 he)

theorem count_of_holds (hnodes : h'.nodes = h.nodes) (hparent : h'.parent = h.parent)
    (hlive : ∀ e, h'.Live e ↔ h.Live e) (hd : h.Live d) (hmem : d ∈ h.nodes)
    (hholds : ∀ e j, h'.holds e j = h.holds e j + if e = d ∧ j = i then 1 else 0) (j : α) :
    h'.count j = h.count j + if j = i then 1 else 0 := by
  rw [count, hnodes]
  refine Counting.sum_add_one h.nodes hmem fun e => ?_
  by_cases he : h.Live e
  · rw [naming_of_live he, naming_of_live ((hlive e).2 he), hparent, hholds, add_assoc]
  · have hed : e ≠ d := by
      rintro rfl
      exact he hd
    rw [naming_of_not_live he, naming_of_not_live (mt (hlive e).1 he)]
    simp [hed]

theorem live_enter (hi : ¬ h.dir i) (e : α) : (h.enter d i).Live e ↔ h.Live e := by
  by_cases he : e = i
  · subst he
    simp [Live, enter, hi]
  · simp [Live, enter, he]

theorem enter (hw : h.Well root) (hd : h.Live d) (hu : h.used i) (hi : ¬ h.dir i) :
    (h.enter d i).Well root := by
  have hcount : ∀ j, (h.enter d i).count j = h.count j + if j = i then 1 else 0 :=
    count_of_holds rfl rfl (live_enter hi) hd (hw.live_mem hd) fun _ _ => rfl
  refine hw.of_files rfl rfl (live_enter hi) hw.mem (fun _ => id) (fun j hj => ?_)
    (fun e j hj => ?_) (fun e j he hzero => ?_) fun e j hne => ?_
  · have hlinks := hw.exact j hj
    rw [hcount]
    simp only [Hierarchy.enter]
    split <;> omega
  · have hji : j ≠ i := by
      rintro rfl
      exact hi hj
    simp [Hierarchy.enter, hji]
  · have hed : e ≠ d := by
      rintro rfl
      exact he hd
    simp [Hierarchy.enter, hed, hzero]
  · by_cases hji : j = i
    · subst hji
      exact .inr hu
    · exact .inl (by simpa [Hierarchy.enter, hji] using hne)

theorem live_leave (hi : ¬ h.dir i) (e : α) : (h.leave d i).Live e ↔ h.Live e := by
  by_cases he : e = i
  · subst he
    simp [Live, leave, hi]
  · simp [Live, leave, he]

theorem holds_leave (hne : h.holds d i ≠ 0) (e j : α) :
    h.holds e j = (h.leave d i).holds e j + if e = d ∧ j = i then 1 else 0 := by
  simp only [leave]
  by_cases hat : e = d ∧ j = i
  · obtain ⟨rfl, rfl⟩ := hat
    simp only [and_self, if_true]
    omega
  · simp only [hat, if_false, Nat.sub_zero, Nat.add_zero]

theorem leave (hw : h.Well root) (hd : h.Live d) (hne : h.holds d i ≠ 0) (hi : ¬ h.dir i) :
    (h.leave d i).Well root := by
  have hcount : ∀ j, h.count j = (h.leave d i).count j + if j = i then 1 else 0 :=
    count_of_holds rfl rfl (fun e => (live_leave hi e).symm) ((live_leave hi d).2 hd)
      (hw.live_mem hd) (holds_leave hne)
  refine hw.of_files rfl rfl (live_leave hi) hw.mem (fun _ => id) (fun j hj => ?_)
    (fun e j hj => ?_) (fun e j _ hzero => ?_) fun e j hold => .inl ?_
  · have hlinks := hw.exact j hj
    change h.links j - (if j = i then 1 else 0) = ((h.leave d i).count j : ℤ)
    rw [hlinks, hcount]
    split <;> omega
  · have hji : j ≠ i := by
      rintro rfl
      exact hi hj
    simp [Hierarchy.leave, hji]
  · simp [Hierarchy.leave, hzero]
  · exact Nat.ne_zero_of_lt (Nat.sub_ne_zero_iff_lt.1 hold)

theorem live_make (hw : h.Well root) (hu : ¬ h.used i) (e : α) :
    (h.make d i).Live e ↔ h.Live e := by
  have hi : ¬ h.dir i := mt (hw.used_of_dir i) hu
  by_cases he : e = i
  · subst he
    simp [Live, make, hi]
  · simp [Live, make, he]

theorem make (hw : h.Well root) (hd : h.Live d) (hmem : i ∈ h.nodes) (hu : ¬ h.used i) :
    (h.make d i).Well root := by
  have hcount : ∀ j, (h.make d i).count j = h.count j + if j = i then 1 else 0 :=
    count_of_holds rfl rfl (live_make hw hu) hd (hw.live_mem hd) fun _ _ => rfl
  refine hw.of_files rfl rfl (live_make hw hu) ?_ (fun _ => .inl) (fun j hj => ?_)
    (fun e j hj => ?_) (fun e j he hzero => ?_) fun e j hne => ?_
  · rintro j (hj | rfl)
    · exact hw.mem j hj
    · exact hmem
  · rw [hcount]
    by_cases hji : j = i
    · subst hji
      simp [Hierarchy.make, hw.count_of_not_used hu]
    · have hlinks := hw.exact j (hj.resolve_right hji)
      simpa [Hierarchy.make, hji] using hlinks
  · have hji : j ≠ i := by
      rintro rfl
      exact hu (hw.used_of_dir j hj)
    simp [Hierarchy.make, hji]
  · have hed : e ≠ d := by
      rintro rfl
      exact he hd
    simp [Hierarchy.make, hed, hzero]
  · by_cases hji : j = i
    · exact .inr (.inr hji)
    · exact .inl (by simpa [Hierarchy.make, hji] using hne)

end Files

section MakeDir

variable (hw : h.Well root) (hd : h.Live d)
include hw hd

theorem live_makeDir (hu : ¬ h.used i) {e : α} : (h.makeDir d i).Live e ↔ h.Live e ∨ e = i := by
  have hdead : ¬ h.Live i := fun hi => hu (hw.used_of_dir i hi.1)
  by_cases he : e = i
  · subst he
    simp [Live, makeDir]
  · by_cases hed : e = d
    · subst hed
      have hpos := hd.2
      simp only [Live, makeDir, he, or_false, if_false, if_true]
      exact and_congr_right fun _ => by omega
    · simp [Live, makeDir, he, hed]

theorem naming_makeDir (hu : ¬ h.used i) (e j : α) :
    (h.makeDir d i).naming e j =
      (h.naming e j + if e = d ∧ j = i then 1 else 0) + if e = i ∧ j = d then 1 else 0 := by
  have hdead : ¬ h.Live i := fun hi => hu (hw.used_of_dir i hi.1)
  have hdi : d ≠ i := by
    rintro rfl
    exact hdead hd
  by_cases hei : e = i
  · subst hei
    rw [naming_of_live ((live_makeDir hw hd hu).2 (.inr rfl)), naming_of_not_live hdead]
    simp [makeDir, hdi.symm, eq_comm]
  · by_cases he : h.Live e
    · rw [naming_of_live he, naming_of_live ((live_makeDir hw hd hu).2 (.inl he))]
      simp [makeDir, hei, add_assoc]
    · have hed : e ≠ d := by
        rintro rfl
        exact he hd
      have hnot : ¬ (h.makeDir d i).Live e := by
        rw [live_makeDir hw hd hu]
        exact fun hor => hor.elim he hei
      rw [naming_of_not_live he, naming_of_not_live hnot]
      simp [hei, hed]

theorem count_makeDir (hmem : i ∈ h.nodes) (hu : ¬ h.used i) (j : α) :
    (h.makeDir d i).count j = (h.count j + if j = i then 1 else 0) + if j = d then 1 else 0 :=
  Counting.sum_add_two h.nodes (hw.live_mem hd) hmem fun e => naming_makeDir hw hd hu e j

theorem makeDir (hmem : i ∈ h.nodes) (hu : ¬ h.used i) : (h.makeDir d i).Well root := by
  have hlive : ∀ {e : α}, (h.makeDir d i).Live e ↔ h.Live e ∨ e = i := live_makeDir hw hd hu
  have hne : ∀ {e : α}, h.used e → e ≠ i := by
    rintro e he rfl
    exact hu he
  have hliveNe : ∀ {e : α}, h.Live e → e ≠ i := fun he => hne (hw.used_of_dir _ he.1)
  refine ⟨?_, ?_, hlive.2 (.inl hw.root_live), ?_, ?_, ?_, ?_, ?_, ?_, ?_⟩
  · rintro j (hj | rfl)
    · exact hw.mem j hj
    · exact hmem
  · rintro e (he | rfl)
    · exact .inl (hw.used_of_dir e he)
    · exact .inr rfl
  · simpa [Hierarchy.makeDir, hliveNe hw.root_live] using hw.root_parent
  · intro j hj
    rw [count_makeDir hw hd hmem hu]
    by_cases hji : j = i
    · subst hji
      simp [Hierarchy.makeDir, hw.count_of_not_used hu, (hliveNe hd).symm]
    · have hlinks := hw.exact j (hj.resolve_right hji)
      simp only [Hierarchy.makeDir, hji, if_false, hlinks]
      split <;> simp
  · intro e j he hold hj
    by_cases hei : e = i
    · simp [Hierarchy.makeDir, hei] at hold
    · by_cases hji : j = i
      · subst hji
        have hed : e = d := by
          by_contra hed
          have hz := hw.holds_of_not_used hu ((hlive.1 he).resolve_right hei)
          simp [Hierarchy.makeDir, hei, hed, hz] at hold
        refine ⟨(hliveNe hw.root_live).symm, hlive.2 (.inr rfl), ?_⟩
        simp [Hierarchy.makeDir, hed]
      · have hdown := hw.down e j ((hlive.1 he).resolve_right hei)
          (by simpa [Hierarchy.makeDir, hei, hji] using hold) (hj.resolve_right hji)
        exact ⟨hdown.1, hlive.2 (.inl hdown.2.1), by simpa [Hierarchy.makeDir, hji] using hdown.2.2⟩
  · intro e he hroot
    by_cases hei : e = i
    · subst hei
      simp only [Hierarchy.makeDir, if_true]
      exact ⟨hlive.2 (.inl hd), by simp [hliveNe hd, hw.holds_of_not_used hu hd]⟩
    · have hup := hw.up e ((hlive.1 he).resolve_right hei) hroot
      have hp : (h.makeDir d i).parent e = h.parent e := if_neg hei
      rw [hp]
      refine ⟨hlive.2 (.inl hup.1), ?_⟩
      simpa [Hierarchy.makeDir, hliveNe hup.1, hei] using hup.2
  · intro e j he hnot
    have hdead : ¬ h.Live e ∧ e ≠ i := not_or.1 (mt hlive.2 hnot)
    have hed : e ≠ d := by
      rintro rfl
      exact hdead.1 hd
    simpa [Hierarchy.makeDir, hdead.2, hed] using hw.empty e j (he.resolve_right hdead.2) hdead.1
  · intro e j he hold
    by_cases hei : e = i
    · simp [Hierarchy.makeDir, hei] at hold
    · by_cases hji : j = i
      · exact .inr hji
      · exact .inl (hw.held e j ((hlive.1 he).resolve_right hei)
          (by simpa [Hierarchy.makeDir, hei, hji] using hold))
  · have hold : ∀ {e : α}, h.Live e → (h.makeDir d i).Rooted root e :=
      hw.rooted_of_parent fun e he => if_neg (hliveNe he)
    intro e he
    rcases hlive.1 he with he | rfl
    · exact hold he
    · exact .up (by simpa [Hierarchy.makeDir] using hold hd)

end MakeDir

/-- An empty directory has one link, in its parent. -/
theorem count_of_empty (hw : h.Well root) (hi : h.Live i) (hroot : i ≠ root)
    (hempty : ∀ j, h.holds i j = 0) : h.count i = 1 := by
  have hup := hw.up i hi hroot
  have hother : ∀ e ∈ h.nodes, e ≠ h.parent i → h.naming e i = 0 := by
    intro e _ hne
    by_cases he : h.Live e
    · have hp : h.parent e ≠ i := by
        intro hp
        by_cases her : e = root
        · subst her
          exact hroot (hp.symm.trans hw.root_parent)
        · have hone := (hw.up e he her).2
          simp [hp, hempty] at hone
      have hz : h.holds e i = 0 := by
        by_contra hz
        exact hne (hw.down e i he hz hi.1).2.2.symm
      rw [naming_of_live he, if_neg hp, hz]
    · exact naming_of_not_live he i
  have hpp : h.parent (h.parent i) ≠ i := by
    intro hpp
    by_cases her : h.parent i = root
    · rw [her, hw.root_parent] at hpp
      exact hroot hpp.symm
    · have hone := (hw.up _ hup.1 her).2
      simp [hpp, hempty] at hone
  rw [count, sum_eq_single_of_mem _ (hw.live_mem hup.1) hother, naming_of_live hup.1,
    if_neg hpp, hup.2]

section

variable (hw : h.Well root) (hd : h.Live d) (hi : h.Live i) (hp : h.parent i = d) (hroot : i ≠ root)
include hw hd hi hp hroot

/-- A directory that holds an empty one has a link besides the one back from it. -/
theorem two_le_count (hempty : ∀ j, h.holds i j = 0) : 2 ≤ h.count d := by
  have hback : 1 ≤ h.naming i d := by
    rw [naming_of_live hi, if_pos hp]
    omega
  obtain ⟨e, he, hei, hnaming⟩ : ∃ e, h.Live e ∧ e ≠ i ∧ 1 ≤ h.naming e d := by
    by_cases hdr : d = root
    · subst hdr
      refine ⟨d, hd, hroot.symm, ?_⟩
      rw [naming_of_live hd, if_pos hw.root_parent]
      omega
    · obtain ⟨hlive, hone⟩ := hw.up d hd hdr
      refine ⟨h.parent d, hlive, ?_, ?_⟩
      · intro heq
        simp [heq, hempty] at hone
      · rw [naming_of_live hlive, hone]
        omega
  have hpair : h.naming i d + h.naming e d ≤ h.count d := by
    rw [← sum_pair (f := fun x => h.naming x d) hei.symm]
    apply sum_le_sum_of_subset
    intro x hx
    rcases mem_insert.1 hx with rfl | hx
    · exact hw.live_mem hi
    · rw [mem_singleton.1 hx]
      exact hw.live_mem he
  omega

theorem live_removeDir (hdi : d ≠ i) (hempty : ∀ j, h.holds i j = 0) {e : α} :
    (h.removeDir d i).Live e ↔ h.Live e ∧ e ≠ i := by
  by_cases hei : e = i
  · subst hei
    have hlinks := hw.exact e (hw.used_of_dir e hi.1)
    rw [hw.count_of_empty hi hroot hempty] at hlinks
    simp [Live, removeDir, hdi.symm, hlinks]
  · by_cases hed : e = d
    · subst hed
      have hlinks := hw.exact e (hw.used_of_dir e hd.1)
      have htwo := hw.two_le_count hd hi hp hroot hempty
      simp only [Live, removeDir, hei, if_false, if_true, ne_eq, not_false_eq_true, and_true]
      exact and_congr_right fun _ => by omega
    · simp [Live, removeDir, hei, hed]

theorem naming_removeDir (hdi : d ≠ i) (hold : h.holds d i = 1) (hempty : ∀ j, h.holds i j = 0)
    (e j : α) :
    h.naming e j = ((h.removeDir d i).naming e j + if e = d ∧ j = i then 1 else 0) +
      if e = i ∧ j = d then 1 else 0 := by
  have hlive : ∀ {e : α}, (h.removeDir d i).Live e ↔ h.Live e ∧ e ≠ i :=
    live_removeDir hw hd hi hp hroot hdi hempty
  by_cases hei : e = i
  · subst hei
    have hdead : ¬ (h.removeDir d e).Live e := fun hl => (hlive.1 hl).2 rfl
    rw [naming_of_live hi, naming_of_not_live hdead, hempty, hp]
    simp [hdi.symm, eq_comm]
  · by_cases he : h.Live e
    · have hback : ¬ (e = i ∧ j = d) := fun hat => hei hat.1
      rw [naming_of_live he, naming_of_live (hlive.2 ⟨he, hei⟩), if_neg hback, add_zero, add_assoc]
      congr 1
      by_cases hat : e = d ∧ j = i
      · obtain ⟨rfl, rfl⟩ := hat
        simp [removeDir, hold]
      · simp [removeDir, hat]
    · have hed : e ≠ d := by
        rintro rfl
        exact he hd
      rw [naming_of_not_live he, naming_of_not_live fun hl => he (hlive.1 hl).1]
      simp [hei, hed]

end

theorem removeDir (hw : h.Well root) (hd : h.Live d) (hi : h.dir i) (hne : h.holds d i ≠ 0)
    (hdi : d ≠ i) (hempty : ∀ j, h.holds i j = 0) : (h.removeDir d i).Well root := by
  obtain ⟨hroot, hi, hp⟩ := hw.down d i hd hne hi
  have hone : h.holds d i = 1 := hp ▸ (hw.up i hi hroot).2
  have hlive : ∀ {e : α}, (h.removeDir d i).Live e ↔ h.Live e ∧ e ≠ i :=
    live_removeDir hw hd hi hp hroot hdi hempty
  have hcount : ∀ j, h.count j = ((h.removeDir d i).count j + if j = i then 1 else 0) +
      if j = d then 1 else 0 :=
    fun j => Counting.sum_add_two h.nodes (hw.live_mem hd) (hw.live_mem hi) fun e =>
      naming_removeDir hw hd hi hp hroot hdi hone hempty e j
  refine ⟨hw.mem, hw.used_of_dir, hlive.2 ⟨hw.root_live, hroot.symm⟩, hw.root_parent, ?_, ?_, ?_,
    ?_, ?_, fun e he => hw.rooted_of_parent (fun _ _ => rfl) (hlive.1 he).1⟩
  · intro j hj
    have hlinks := hw.exact j hj
    change h.links j - (if j = i then 1 else 0) - (if j = d then 1 else 0) =
      ((h.removeDir d i).count j : ℤ)
    rw [hlinks, hcount j]
    split_ifs <;> omega
  · intro e j he hold hj
    have hholds := Nat.ne_zero_of_lt (Nat.sub_ne_zero_iff_lt.1 hold)
    obtain ⟨hjr, hjl, hjp⟩ := hw.down e j (hlive.1 he).1 hholds hj
    refine ⟨hjr, hlive.2 ⟨hjl, ?_⟩, hjp⟩
    rintro rfl
    obtain rfl : e = d := hjp.symm.trans hp
    simp [Hierarchy.removeDir, hone] at hold
  · intro e he her
    obtain ⟨hel, hei⟩ := hlive.1 he
    obtain ⟨hpl, hpo⟩ := hw.up e hel her
    refine ⟨hlive.2 ⟨hpl, ?_⟩, by simpa [Hierarchy.removeDir, hei] using hpo⟩
    intro hpi
    have hpi : h.parent e = i := hpi
    simp [hpi, hempty] at hpo
  · intro e j he hnot
    by_cases hei : e = i
    · simp [Hierarchy.removeDir, hei, hempty]
    · have hzero := hw.empty e j he fun hl => hnot (hlive.2 ⟨hl, hei⟩)
      simp [Hierarchy.removeDir, hzero]
  · intro e j he hold
    exact hw.held e j (hlive.1 he).1 (Nat.ne_zero_of_lt (Nat.sub_ne_zero_iff_lt.1 hold))

section Freed

omit [DecidableEq α] in
theorem live_of_freed (hf : Freed h h') {e : α} (hw : h.Well root) : h'.Live e ↔ h.Live e := by
  constructor
  · intro he
    exact ⟨(hf.dir e).1 he.1 |>.2, hf.links ▸ he.2⟩
  · intro he
    have hused := hf.kept e (hw.used_of_dir e he.1) he.2.ne'
    exact ⟨(hf.dir e).2 ⟨hused, he.1⟩, hf.links ▸ he.2⟩

theorem naming_of_freed (hw : h.Well root) (hf : Freed h h') (e j : α) :
    h'.naming e j = h.naming e j := by
  by_cases he : h.Live e
  · have he' := (live_of_freed hf hw).2 he
    rw [naming_of_live he, naming_of_live he', hf.parent e he'.1, hf.holds e he'.1]
  · rw [naming_of_not_live he, naming_of_not_live (mt (live_of_freed hf hw).1 he)]

theorem freed (hw : h.Well root) (hf : Freed h h') : h'.Well root := by
  have hlive : ∀ {e : α}, h'.Live e ↔ h.Live e := live_of_freed hf hw
  have hcount : ∀ j, h'.count j = h.count j := by
    intro j
    rw [count, count, hf.nodes]
    exact sum_congr rfl fun e _ => naming_of_freed hw hf e j
  have hroot := hlive.2 hw.root_live
  refine ⟨?_, fun e he => ((hf.dir e).1 he).1, hroot, ?_, ?_, ?_, ?_, ?_, ?_, ?_⟩
  · intro j hj
    rw [hf.nodes]
    exact hw.mem j (hf.used j hj)
  · rw [hf.parent root hroot.1]
    exact hw.root_parent
  · intro j hj
    rw [hf.links, hcount]
    exact hw.exact j (hf.used j hj)
  · intro e j he hold hj
    rw [hf.holds e he.1] at hold
    obtain ⟨hjr, hjl, hjp⟩ := hw.down e j (hlive.1 he) hold ((hf.dir j).1 hj).2
    exact ⟨hjr, hlive.2 hjl, (hf.parent j hj).trans hjp⟩
  · intro e he her
    obtain ⟨hpl, hpo⟩ := hw.up e (hlive.1 he) her
    have hp := hlive.2 hpl
    rw [hf.parent e he.1, hf.holds _ hp.1]
    exact ⟨hp, hpo⟩
  · intro e j he hnot
    rw [hf.holds e he]
    exact hw.empty e j ((hf.dir e).1 he).2 (mt hlive.2 hnot)
  · intro e j he hold
    -- What a live directory holds has links, so it stays.
    rw [hf.holds e he.1] at hold
    have hused := hw.held e j (hlive.1 he) hold
    have hone : 1 ≤ h.naming e j := by
      classical
      rw [naming_of_live (hlive.1 he)]
      omega
    have hle := hw.naming_le_count (i := j) (hlive.1 he)
    have hlinks := hw.exact j hused
    exact hf.kept j hused (by omega)
  · exact fun e he =>
      hw.rooted_of_parent (fun d hd => hf.parent d (hlive.2 hd).1) (hlive.1 he)

end Freed

end Well

end Hierarchy

import Xv6.Library.Ownership

/-!
# Two-level tables in frames of memory

A directory is a frame whose entries lead to tables, and a table is a frame whose entries
lead to pages. The frames of all directories lie in one memory, so a store into a frame may
be seen by the tables of any directory. `Scheme` says how entries are read from the contents
of a frame, and which frames they lead to.

A `World` has the memory, the directories of a type `H` of holders and the frames of other
owners. Its places are the directories, the entries of directories and of tables, and the
other owners; `ref` is the frame that a place owns. When no frame is owned twice, a store
into a table changes one entry of one holder, a store into a directory adds one table, and a
store into a frame that is neither changes no entry. Each change of a world is followed by
`Ownership.Owned`.
-/

namespace PageTable

open Ownership Function Option

/-- How a frame is read: the entries of its contents, the table that an entry of a directory
leads to, and the page that the entry of a table at two indices owns. -/
structure Scheme (C F I E : Type*) where
  read : C → I → E
  next : E → Option F
  leaf : I → I → E → Option F
  zero : E
  next_zero : next zero = none
  leaf_zero : ∀ i j, leaf i j zero = none

/-- What may own a frame. -/
inductive Place (H I O : Type*) where
  | dir (h : H)
  | table (h : H) (i : I)
  | page (h : H) (i j : I)
  | other (o : O)
  deriving DecidableEq

namespace Place

variable {H I O : Type*}

def holder : Place H I O → Option H
  | .dir h => some h
  | .table h _ => some h
  | .page h _ _ => some h
  | .other _ => none

def IsNode : Place H I O → Prop
  | .dir _ => True
  | .table _ _ => True
  | .page _ _ _ => False
  | .other _ => False

def nodes (h : H) : Set (Place H I O) := {q | q.IsNode ∧ q.holder = some h}

def held (h : H) : Set (Place H I O) := {q | q.holder = some h}

theorem page_notMem_nodes (h h' : H) (i j : I) : (.page h' i j : Place H I O) ∉ nodes h :=
  fun hq => hq.1

theorem nodes_subset_held (h : H) : (nodes h : Set (Place H I O)) ⊆ held h := fun _ hq => hq.2

end Place

/-- A memory with directories and other owners. -/
structure World (C F H O : Type*) where
  mem : F → C
  dirs : H → Option F
  others : O → Option F

namespace World

variable {C F H O : Type*}

def write [DecidableEq F] (W : World C F H O) (f : F) (c : C) : World C F H O :=
  { W with mem := update W.mem f c }

def setDir [DecidableEq H] (W : World C F H O) (h : H) (d : Option F) : World C F H O :=
  { W with dirs := update W.dirs h d }

theorem dirs_setDir_self [DecidableEq H] (W : World C F H O) (h : H) (d : Option F) :
    (W.setDir h d).dirs h = d := by
  simp [setDir]

theorem dirs_setDir_of_ne [DecidableEq H] (W : World C F H O) {h h' : H} (d : Option F)
    (hne : h' ≠ h) : (W.setDir h d).dirs h' = W.dirs h' := by
  simp [setDir, hne]

end World

open World

section Reading

variable {C F I E H O : Type*} (σ : Scheme C F I E)

def table (mem : F → C) (d : F) (i : I) : Option F := σ.next (σ.read (mem d) i)

def entry (mem : F → C) (d : F) (i j : I) : E :=
  match table σ mem d i with
  | none => σ.zero
  | some t => σ.read (mem t) j

variable {σ} {mem mem' : F → C} {d t : F} {i j : I}

theorem entry_of_table (h : table σ mem d i = some t) : entry σ mem d i j = σ.read (mem t) j := by
  simp only [entry, h]

theorem entry_of_none (h : table σ mem d i = none) : entry σ mem d i j = σ.zero := by
  simp only [entry, h]

/-- A directory and its tables have the same contents in both memories. -/
structure Same (σ : Scheme C F I E) (mem mem' : F → C) (d : F) : Prop where
  dir : mem' d = mem d
  tables : ∀ i t, table σ mem d i = some t → mem' t = mem t

theorem Same.table (h : Same σ mem mem' d) (i : I) :
    PageTable.table σ mem' d i = PageTable.table σ mem d i := by
  simp only [PageTable.table, h.dir]

theorem Same.entry (h : Same σ mem mem' d) (i j : I) :
    PageTable.entry σ mem' d i j = PageTable.entry σ mem d i j := by
  cases ht : PageTable.table σ mem d i with
  | none => rw [entry_of_none ht, entry_of_none ((h.table i).trans ht)]
  | some t =>
    rw [entry_of_table ht, entry_of_table ((h.table i).trans ht), h.tables i t ht]

def ref (σ : Scheme C F I E) (W : World C F H O) : Place H I O → Option F
  | .dir h => W.dirs h
  | .table h i => (W.dirs h).bind fun d => table σ W.mem d i
  | .page h i j => (W.dirs h).bind fun d => σ.leaf i j (entry σ W.mem d i j)
  | .other o => W.others o

variable {W W' : World C F H O} {h : H} {o : O}

theorem ref_table (hd : W.dirs h = some d) :
    ref σ W (.table h i : Place H I O) = table σ W.mem d i := by
  simp only [ref, hd, bind_some]

theorem ref_page (hd : W.dirs h = some d) :
    ref σ W (.page h i j : Place H I O) = σ.leaf i j (entry σ W.mem d i j) := by
  simp only [ref, hd, bind_some]

/-- Worlds with the same owners in which every directory reads the same have the same
places. -/
theorem ref_congr (hdirs : W'.dirs = W.dirs) (hothers : W'.others = W.others)
    (hsame : ∀ h d, W.dirs h = some d → Same σ W.mem W'.mem d) :
    ref σ W' = (ref σ W : Place H I O → Option F) := by
  funext q
  cases q with
  | dir h => exact congrFun hdirs h
  | other o => exact congrFun hothers o
  | table h i =>
    simp only [ref, hdirs]
    cases hd : W.dirs h with
    | none => rfl
    | some d => exact (hsame h d hd).table i
  | page h i j =>
    simp only [ref, hdirs]
    cases hd : W.dirs h with
    | none => rfl
    | some d => exact congrArg (σ.leaf i j) ((hsame h d hd).entry i j)

end Reading

section Stores

variable {C F I E H O : Type*} [DecidableEq F] {σ : Scheme C F I E} {W : World C F H O}
  {used loose : Set F} {h h' : H} {i i' j j' : I} {d d' t f : F} {c : C} {e : E}

theorem same_write (hnode : ∀ q : Place H I O, q.IsNode → ref σ W q ≠ some f)
    (hd : W.dirs h = some d) : Same σ W.mem (W.write f c).mem d := by
  refine ⟨?_, fun i t ht => ?_⟩
  · refine update_of_ne ?_ c W.mem
    rintro rfl
    exact hnode (.dir h) trivial hd
  · refine update_of_ne ?_ c W.mem
    rintro rfl
    exact hnode (.table h i) trivial ((ref_table hd).trans ht)

theorem ref_write (hnode : ∀ q : Place H I O, q.IsNode → ref σ W q ≠ some f) :
    ref σ (W.write f c) = (ref σ W : Place H I O → Option F) :=
  ref_congr rfl rfl fun _ _ hd => same_write hnode hd

omit [DecidableEq F] in
theorem not_node (ho : Owned used loose (ref σ W)) {q : Place H I O} (hq : ¬ q.IsNode)
    (hf : ref σ W q = some f) (r : Place H I O) (hr : r.IsNode) : ref σ W r ≠ some f := by
  intro hrf
  obtain rfl := ho.inj r q f hrf hf
  exact hq hr

variable (ho : Owned used loose (ref σ W : Place H I O → Option F))
include ho

/-- The contents of a directory and of the tables of others do not change when a table of `h`
is stored to. -/
theorem table_write (hd : W.dirs h = some d) (ht : table σ W.mem d i = some t)
    (hd' : W.dirs h' = some d') (i' : I) :
    table σ (W.write t c).mem d' i' = table σ W.mem d' i' := by
  have hne : d' ≠ t := by
    rintro rfl
    have heq := ho.inj (.dir h') (.table h i) d' hd' ((ref_table hd).trans ht)
    cases heq
  simp only [table, write, update_of_ne hne]

variable [DecidableEq H] [DecidableEq I]

section

variable (hd : W.dirs h = some d) (ht : table σ W.mem d i = some t)
  (hc : ∀ j', σ.read c j' = if j' = j then e else σ.read (W.mem t) j')
include hd ht hc

theorem entry_write (hd' : W.dirs h' = some d') (i' j' : I) :
    entry σ (W.write t c).mem d' i' j' =
      if h' = h ∧ i' = i ∧ j' = j then e else entry σ W.mem d' i' j' := by
  have htable := table_write (c := c) ho hd ht hd' i'
  cases ht' : table σ W.mem d' i' with
  | none =>
    have hne : ¬ (h' = h ∧ i' = i ∧ j' = j) := by
      rintro ⟨rfl, rfl, -⟩
      rw [Option.some.inj (hd.symm.trans hd')] at ht
      simp [ht] at ht'
    rw [if_neg hne, entry_of_none ht', entry_of_none (htable.trans ht')]
  | some t' =>
    rw [entry_of_table (htable.trans ht'), entry_of_table ht']
    by_cases hthis : h' = h ∧ i' = i
    · obtain ⟨rfl, rfl⟩ := hthis
      rw [Option.some.inj (hd.symm.trans hd')] at ht
      cases ht.symm.trans ht'
      simp only [write, update_self, hc, true_and]
    · have hne : t' ≠ t := by
        rintro rfl
        have heq := ho.inj (.table h' i') (.table h i) t' ((ref_table hd').trans ht')
          ((ref_table hd).trans ht)
        cases heq
        exact hthis ⟨rfl, rfl⟩
      rw [if_neg fun hall => hthis ⟨hall.1, hall.2.1⟩]
      simp only [write, update_of_ne hne]

theorem ref_setEntry_self : ref σ (W.write t c) (.page h i j : Place H I O) = σ.leaf i j e := by
  rw [ref_page (W := W.write t c) hd, entry_write ho hd ht hc hd, if_pos ⟨rfl, rfl, rfl⟩]

theorem ref_setEntry_of_ne {q : Place H I O} (hq : q ≠ .page h i j) :
    ref σ (W.write t c) q = ref σ W q := by
  cases q with
  | dir h' => rfl
  | other o => rfl
  | table h' i' =>
    cases hd' : W.dirs h' with
    | none => simp only [ref, write, hd', bind_none]
    | some d' =>
      rw [ref_table (W := W.write t c) hd', ref_table hd']
      exact table_write ho hd ht hd' i'
  | page h' i' j' =>
    cases hd' : W.dirs h' with
    | none => simp only [ref, write, hd', bind_none]
    | some d' =>
      rw [ref_page (W := W.write t c) hd', ref_page hd', entry_write ho hd ht hc hd',
        if_neg (by simpa using hq)]

theorem owned_link (hnone : σ.leaf i j (entry σ W.mem d i j) = none) (hf : f ∈ loose)
    (hleaf : σ.leaf i j e = some f) :
    Owned used (loose \ {f}) (ref σ (W.write t c) : Place H I O → Option F) := by
  refine ho.link (p := .page h i j) hf ((ref_page hd).trans hnone) ?_ fun q hq => ?_
  · rw [ref_setEntry_self ho hd ht hc, hleaf]
  · exact ref_setEntry_of_ne ho hd ht hc hq

theorem owned_setEntry (hleaf : σ.leaf i j e = σ.leaf i j (entry σ W.mem d i j)) :
    Owned used loose (ref σ (W.write t c) : Place H I O → Option F) := by
  refine ho.congr (fun _ => Iff.rfl) fun q => ?_
  by_cases hq : q = .page h i j
  · rw [hq, ref_setEntry_self ho hd ht hc, hleaf, ref_page hd]
  · exact ref_setEntry_of_ne ho hd ht hc hq

end

theorem owned_unlink (hd : W.dirs h = some d) (ht : table σ W.mem d i = some t)
    (hc : ∀ j', σ.read c j' = if j' = j then σ.zero else σ.read (W.mem t) j')
    (hleaf : σ.leaf i j (entry σ W.mem d i j) = some f) :
    Owned used (insert f loose) (ref σ (W.write t c) : Place H I O → Option F) := by
  have hunlink : Owned used _ (ref σ (W.write t c) : Place H I O → Option F) :=
    ho.unlink {.page h i j} (fun q hq => ?_) fun q hq => ?_
  · convert hunlink using 1
    ext v
    simp [ref_page hd, hleaf, eq_comm]
  · obtain rfl := Set.mem_singleton_iff.1 hq
    rw [ref_setEntry_self ho hd ht hc, σ.leaf_zero]
  · exact ref_setEntry_of_ne ho hd ht hc (Set.mem_singleton_iff.not.1 hq)

section

variable (hd : W.dirs h = some d) (hnone : table σ W.mem d i = none)
  (hc : ∀ i', σ.read c i' = if i' = i then e else σ.read (W.mem d) i') (hnext : σ.next e = some t)
  (ht : t ∈ loose) (hempty : ∀ j, σ.read (W.mem t) j = σ.zero)
include hd hnone hc hnext ht hempty

theorem read_setTable (hd' : W.dirs h' = some d') :
    (∀ i', table σ (W.write d c).mem d' i' =
      if h' = h ∧ i' = i then some t else table σ W.mem d' i') ∧
      ∀ i' j', entry σ (W.write d c).mem d' i' j' = entry σ W.mem d' i' j' := by
  have htable : ∀ i', table σ (W.write d c).mem d' i' =
      if h' = h ∧ i' = i then some t else table σ W.mem d' i' := by
    intro i'
    by_cases hh : h' = h
    · subst hh
      cases hd.symm.trans hd'
      simp only [table, write, update_self, hc, true_and]
      by_cases hi : i' = i
      · rw [if_pos hi, if_pos hi, hnext]
      · rw [if_neg hi, if_neg hi]
    · have hne : d' ≠ d := by
        rintro rfl
        have heq := ho.inj (.dir h') (.dir h) d' hd' hd
        cases heq
        exact hh rfl
      rw [if_neg fun hall => hh hall.1]
      simp only [table, write, update_of_ne hne]
  refine ⟨htable, fun i' j' => ?_⟩
  by_cases hthis : h' = h ∧ i' = i
  · -- the new table is empty, and so was the entry without it
    obtain ⟨rfl, rfl⟩ := hthis
    cases hd.symm.trans hd'
    have htd : t ≠ d := by
      rintro rfl
      exact ho.unowned t ht (.dir h') hd
    rw [entry_of_table ((htable i').trans (if_pos ⟨rfl, rfl⟩)), entry_of_none hnone]
    simpa only [write, update_of_ne htd] using hempty j'
  · have hkept := (htable i').trans (if_neg hthis)
    cases ht' : table σ W.mem d' i' with
    | none => rw [entry_of_none (hkept.trans ht'), entry_of_none ht']
    | some t' =>
      have hne : t' ≠ d := by
        rintro rfl
        have heq := ho.inj (.table h' i') (.dir h) t' ((ref_table hd').trans ht') hd
        cases heq
      rw [entry_of_table (hkept.trans ht'), entry_of_table ht']
      simp only [write, update_of_ne hne]

theorem ref_setTable_of_ne {q : Place H I O} (hq : q ≠ .table h i) :
    ref σ (W.write d c) q = ref σ W q := by
  have hstep := fun h' d' (hd' : W.dirs h' = some d') =>
    read_setTable ho hd hnone hc hnext ht hempty hd'
  cases q with
  | dir h' => rfl
  | other o => rfl
  | table h' i' =>
    cases hd' : W.dirs h' with
    | none => simp only [ref, write, hd', bind_none]
    | some d' =>
      rw [ref_table (W := W.write d c) hd', ref_table hd', (hstep h' d' hd').1,
        if_neg (by simpa using hq)]
  | page h' i' j' =>
    cases hd' : W.dirs h' with
    | none => simp only [ref, write, hd', bind_none]
    | some d' => rw [ref_page (W := W.write d c) hd', ref_page hd', (hstep h' d' hd').2]

theorem owned_setTable :
    Owned used (loose \ {t}) (ref σ (W.write d c) : Place H I O → Option F) := by
  refine ho.link (p := .table h i) ht ((ref_table hd).trans hnone) ?_ fun q hq => ?_
  · rw [ref_table (W := W.write d c) hd, (read_setTable ho hd hnone hc hnext ht hempty hd).1,
      if_pos ⟨rfl, rfl⟩]
  · exact ref_setTable_of_ne ho hd hnone hc hnext ht hempty hq

end

omit [DecidableEq F] [DecidableEq I] ho in
theorem ref_setDir {q : Place H I O} (hq : q ∉ Place.held h) (x : Option F) :
    ref σ (W.setDir h x) q = ref σ W q := by
  have hother : ∀ h', q.holder = some h' → (W.setDir h x).dirs h' = W.dirs h' := by
    intro h' hh'
    refine W.dirs_setDir_of_ne x ?_
    rintro rfl
    exact hq hh'
  cases q with
  | dir h' => exact hother h' rfl
  | table h' i =>
    simp only [ref, hother h' rfl]
    rfl
  | page h' i j =>
    simp only [ref, hother h' rfl]
    rfl
  | other o => rfl

omit [DecidableEq F] [DecidableEq I] [DecidableEq H] ho in
theorem ref_of_held {q : Place H I O} (hq : q ∈ Place.held h) (hnone : W.dirs h = none) :
    ref σ W q = none := by
  cases q with
  | dir h' =>
    cases hq
    exact hnone
  | table | page =>
    cases hq
    simp only [ref, hnone, bind_none]
  | other o => cases hq

omit [DecidableEq F] [DecidableEq I] in
/-- Start a directory in a loose frame without entries. -/
theorem owned_newDir (hnone : W.dirs h = none) (hd : d ∈ loose)
    (hempty : ∀ i, σ.read (W.mem d) i = σ.zero) :
    Owned used (loose \ {d}) (ref σ (W.setDir h (some d)) : Place H I O → Option F) := by
  have hdir := W.dirs_setDir_self h (some d)
  have htable : ∀ i, table σ (W.setDir h (some d)).mem d i = none := by
    intro i
    simp only [table, setDir, hempty, σ.next_zero]
  refine ho.link (p := .dir h) hd hnone hdir fun q hq => ?_
  by_cases hheld : q ∈ Place.held h
  swap
  · exact ref_setDir hheld (some d)
  rw [ref_of_held hheld hnone]
  cases q with
  | dir h' => exact absurd (congrArg Place.dir (Option.some.inj hheld)) hq
  | table h' i =>
    cases hheld
    rw [ref_table hdir, htable]
  | page h' i j =>
    cases hheld
    rw [ref_page hdir, entry_of_none (htable i), σ.leaf_zero]
  | other o => cases hheld

omit [DecidableEq F] [DecidableEq I] in
/-- Give up a directory without pages; its frame and those of its tables become loose. -/
theorem owned_dropDir (hd : W.dirs h = some d)
    (hpages : ∀ i j, σ.leaf i j (entry σ W.mem d i j) = none) :
    Owned used (loose ∪ {f | f = d ∨ ∃ i, table σ W.mem d i = some f})
      (ref σ (W.setDir h none) : Place H I O → Option F) := by
  have hunlink : Owned used _ (ref σ (W.setDir h none) : Place H I O → Option F) :=
    ho.unlink (Place.held h) (fun q hq => ref_of_held hq (W.dirs_setDir_self h none))
      fun q hq => ref_setDir hq none
  convert hunlink using 2
  ext f
  constructor
  · rintro (rfl | ⟨i, hi⟩)
    · exact ⟨.dir h, rfl, hd⟩
    · exact ⟨.table h i, rfl, (ref_table hd).trans hi⟩
  · rintro ⟨q, hq, hf⟩
    cases q with
    | dir h' =>
      cases hq
      exact .inl (Option.some.inj (hf.symm.trans hd))
    | table h' i =>
      cases hq
      exact .inr ⟨i, (ref_table hd).symm.trans hf⟩
    | page h' i j =>
      cases hq
      simp [ref_page hd, hpages i j] at hf
    | other o => cases hq

end Stores

section Keeping

variable {C F I E H O : Type*} {σ : Scheme C F I E} {W W' W'' : World C F H O}
  {T T' : Set (Place H I O)}

def Keeps (σ : Scheme C F I E) (T : Set (Place H I O)) (W W' : World C F H O) : Prop :=
  ∀ q ∉ T, ∀ f, ref σ W q = some f → ref σ W' q = some f ∧ W'.mem f = W.mem f

theorem Keeps.refl (W : World C F H O) : Keeps σ T W W := fun _ _ _ hf => ⟨hf, rfl⟩

theorem Keeps.trans (h : Keeps σ T W W') (h' : Keeps σ T W' W'') : Keeps σ T W W'' := by
  intro q hq f hf
  obtain ⟨hf', hmem⟩ := h q hq f hf
  obtain ⟨hf'', hmem'⟩ := h' q hq f hf'
  exact ⟨hf'', hmem'.trans hmem⟩

theorem Keeps.mono (h : Keeps σ T W W') (hT : T ⊆ T') : Keeps σ T' W W' :=
  fun q hq => h q fun hmem => hq (hT hmem)

theorem Keeps.restrict (h : Keeps σ T' W W') (hT : ∀ q ∈ T', q ∉ T → ref σ W q = none) :
    Keeps σ T W W' := by
  intro q hq f hf
  refine h q (fun hq' => ?_) f hf
  simp [hT q hq' hq] at hf

theorem Keeps.setDir [DecidableEq H] (h : H) (x : Option F) :
    Keeps σ (Place.held h : Set (Place H I O)) W (W.setDir h x) :=
  fun _ hq _ hf => ⟨(ref_setDir hq x).trans hf, rfl⟩

theorem Keeps.same {h : H} {d : F} (hk : Keeps σ T W W') (hT : ∀ q ∈ Place.nodes h, q ∉ T)
    (hd : W.dirs h = some d) : W'.dirs h = some d ∧ Same σ W.mem W'.mem d := by
  obtain ⟨hd', hmem⟩ := hk (.dir h) (hT _ ⟨trivial, rfl⟩) d hd
  refine ⟨hd', hmem, fun i t ht => ?_⟩
  exact (hk (.table h i) (hT _ ⟨trivial, rfl⟩) t ((ref_table hd).trans ht)).2

end Keeping

end PageTable

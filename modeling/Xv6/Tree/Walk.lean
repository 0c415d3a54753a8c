import Mathlib.Data.List.TakeWhile
import Xv6.Tree.Reference

/-!
# Path resolution

`walk tree i names` looks the names up one after the other, starting at inode `i`.
`namex` does that while it takes and drops references and locks on the way; from a
settled state it returns what the walk returns and leaves no other trace than the
reference to the inode it returns.

It can stop only because the inode cache is full, or because the walk met an inode
that is not allocated.
-/

namespace Xv6.Tree

open Routine List Option

variable {tree : ℕ → Inode} {name : Name}

section Lookup

variable {es : List Dirent} {i n off : ℕ} {x : Inode}

theorem lookupFrom_some (h : lookupFrom name es off = some (i, n)) :
    ∃ e, off ≤ n ∧ es[n - off]? = some e ∧ e.inum = i ∧ i ≠ 0 ∧ e.name = name := by
  induction es generalizing off with
  | nil => simp [lookupFrom] at h
  | cons e es ih =>
    rw [lookupFrom] at h
    split at h
    · rename_i he
      obtain ⟨rfl, rfl⟩ := Prod.mk.inj (Option.some.inj h)
      exact ⟨e, Nat.le_refl _, by simp, rfl, he.1, he.2⟩
    · obtain ⟨e', hle, hget, hrest⟩ := ih h
      have hpos : n - off = n - (off + 1) + 1 := by omega
      refine ⟨e', by omega, ?_, hrest⟩
      rw [hpos, List.getElem?_cons_succ]
      exact hget

theorem lookupFrom_none (h : lookupFrom name es off = none) :
    ∀ e ∈ es, e.inum ≠ 0 → e.name ≠ name := by
  induction es generalizing off with
  | nil => simp
  | cons e es ih =>
    rw [lookupFrom] at h
    split at h
    · simp at h
    · rename_i he
      intro e' he' hne hname
      rcases mem_cons.1 he' with rfl | he'
      · exact he ⟨hne, hname⟩
      · exact ih h e' he' hne hname

theorem Inode.lookup_some (h : x.lookup name = some (i, off)) :
    ∃ e, x.entries[off]? = some e ∧ e.inum = i ∧ i ≠ 0 ∧ e.name = name := by
  obtain ⟨e, -, he⟩ := lookupFrom_some h
  exact ⟨e, he⟩

theorem Inode.lookup_none (h : x.lookup name = none) :
    ∀ e ∈ x.entries, e.inum ≠ 0 → e.name ≠ name := lookupFrom_none h

end Lookup

section Walk

def Inode.child (x : Inode) (name : Name) : Option ℕ :=
  if x.type = .dir then (x.lookup name).map Prod.fst else none

def walk (tree : ℕ → Inode) : ℕ → List Name → Option ℕ
  | i, [] => some i
  | i, name :: names => ((tree i).child name).bind fun j => walk tree j names

def walkParent (tree : ℕ → Inode) : ℕ → List Name → Option (ℕ × Name)
  | _, [] => none
  | i, [name] => if (tree i).type = .dir then some (i, name) else none
  | i, name :: next :: names =>
    ((tree i).child name).bind fun j => walkParent tree j (next :: names)

def elementsFrom : ℕ → Path → List Name
  | 0, _ => []
  | rounds + 1, path =>
    match skipelem path with
    | none => []
    | some (name, rest) => name :: elementsFrom rounds rest

def start (cwd : ℕ) (path : Path) : ℕ := if path.head? = some slash then rootIno else cwd

def resolve (tree : ℕ → Inode) (cwd : ℕ) (path : Path) : Option ℕ :=
  walk tree (start cwd path) (elementsFrom path.length path)

def resolveParent (tree : ℕ → Inode) (cwd : ℕ) (path : Path) : Option (ℕ × Name) :=
  walkParent tree (start cwd path) (elementsFrom path.length path)

def walkFor (tree : ℕ → Inode) (parent : Bool) (i : ℕ) (names : List Name) :
    Option (ℕ × Name) :=
  if parent = true then walkParent tree i names else (walk tree i names).map fun j => (j, [])

def Entry (tree : ℕ → Inode) (d i : ℕ) : Prop :=
  (tree d).type = .dir ∧ ∃ e ∈ (tree d).entries, e.inum = i ∧ i ≠ 0

/-- An inode can be reached from another through directory entries. -/
abbrev Leads (tree : ℕ → Inode) : ℕ → ℕ → Prop := Relation.ReflTransGen (Entry tree)

variable {d i j : ℕ} {names : List Name}

theorem entry_of_lookup {off : ℕ} (hd : (tree d).type = .dir)
    (h : (tree d).lookup name = some (i, off)) : Entry tree d i := by
  obtain ⟨e, hget, hi, hne, -⟩ := Inode.lookup_some h
  exact ⟨hd, e, mem_of_getElem? hget, hi, hne⟩

theorem walkParent_dir (h : walkParent tree i names = some (d, name)) : (tree d).type = .dir := by
  fun_induction walkParent tree i names with
  | case1 => simp at h
  | case2 i name' hdir =>
    obtain ⟨rfl, -⟩ := Prod.mk.inj (Option.some.inj h)
    exact hdir
  | case3 => simp at h
  | case4 i name' next names ih =>
    obtain ⟨j, -, hj⟩ := bind_eq_some_iff.1 h
    exact ih j hj

def SameEntries (tree tree' : ℕ → Inode) : Prop :=
  ∀ i, (tree i).type = (tree' i).type ∧ (tree i).entries = (tree' i).entries

namespace SameEntries

variable {tree' : ℕ → Inode} (h : SameEntries tree tree')

include h

theorem lookup_eq : (tree i).lookup name = (tree' i).lookup name := by
  rw [Inode.lookup, Inode.lookup, (h i).2]

theorem child_eq : (tree i).child name = (tree' i).child name := by
  rw [Inode.child, Inode.child, (h i).1, h.lookup_eq]

theorem walkParent_eq : walkParent tree i names = walkParent tree' i names := by
  fun_induction walkParent tree i names with
  | case1 => rfl
  | case2 i name hdir => rw [walkParent, if_pos ((h i).1 ▸ hdir)]
  | case3 i name hdir => rw [walkParent, if_neg ((h i).1 ▸ hdir)]
  | case4 i name next names ih =>
    rw [walkParent, ← h.child_eq]
    exact congrArg _ (funext ih)

theorem resolveParent_eq (cwd : ℕ) (path : Path) :
    resolveParent tree cwd path = resolveParent tree' cwd path := h.walkParent_eq

theorem entry_iff : Entry tree d i ↔ Entry tree' d i := by
  rw [Entry, Entry, (h d).1, (h d).2]

theorem leads (hl : Leads tree d i) : Leads tree' d i :=
  Relation.ReflTransGen.mono (fun _ _ => h.entry_iff.1) _ _ hl

end SameEntries

theorem Inode.child_some {x : Inode} (h : x.child name = some i) :
    x.type = .dir ∧ ∃ off, x.lookup name = some (i, off) := by
  rw [Inode.child] at h
  split at h
  · rename_i hd
    obtain ⟨⟨i', off⟩, hl, rfl⟩ := map_eq_some_iff.1 h
    exact ⟨hd, off, hl⟩
  · cases h

theorem entry_of_child (h : (tree d).child name = some i) : Entry tree d i := by
  obtain ⟨hd, off, hl⟩ := Inode.child_some h
  exact entry_of_lookup hd hl

theorem walk_leads (h : walk tree i names = some j) : Leads tree i j := by
  induction names generalizing i with
  | nil =>
    cases h
    exact .refl
  | cons name names ih =>
    obtain ⟨n, hn, hj⟩ := bind_eq_some_iff.1 h
    exact .head (entry_of_child hn) (ih hj)

theorem walkParent_leads (h : walkParent tree i names = some (d, name)) : Leads tree i d := by
  fun_induction walkParent tree i names with
  | case1 => simp at h
  | case2 i name' hdir =>
    obtain ⟨rfl, -⟩ := Prod.mk.inj (Option.some.inj h)
    exact .refl
  | case3 => simp at h
  | case4 i name' next names ih =>
    obtain ⟨j, hj, hd⟩ := bind_eq_some_iff.1 h
    exact .head (entry_of_child hj) (ih j hd)

theorem resolveParent_dir {cwd : ℕ} {path : Path}
    (h : resolveParent tree cwd path = some (d, name)) : (tree d).type = .dir :=
  walkParent_dir h

end Walk

section Elements

variable {path rest : Path}

theorem head?_dropSlashes (path : Path) : (path.dropWhile (· == slash)).head? ≠ some slash := by
  intro h
  rw [← List.find?_not_eq_head?_dropWhile] at h
  simpa using List.find?_some h

/-- What is left of a path is shorter and does not begin with a slash. -/
theorem skipelem_rest (h : skipelem path = some (name, rest)) :
    rest.length < path.length ∧ rest.head? ≠ some slash := by
  simp only [skipelem] at h
  have hhead := head?_dropSlashes path
  have hlen := length_dropWhile_le (· == slash) path
  cases hp : path.dropWhile (· == slash) with
  | nil =>
    rw [hp, if_pos rfl] at h
    cases h
  | cons c cs =>
    rw [hp] at h hhead hlen
    have hc : (c != slash) = true := by simpa using hhead
    have hdrop : (c :: cs).dropWhile (· != slash) = cs.dropWhile (· != slash) := by
      rw [dropWhile_cons, if_pos hc]
    rw [if_neg (by simp), hdrop] at h
    obtain ⟨-, rfl⟩ := Prod.mk.inj (Option.some.inj h)
    refine ⟨?_, head?_dropSlashes _⟩
    have h₁ := length_dropWhile_le (· == slash) (cs.dropWhile (· != slash))
    have h₂ := length_dropWhile_le (· != slash) cs
    rw [length_cons] at hlen
    omega

theorem skipelem_ne_none (hne : path ≠ []) (hs : path.head? ≠ some slash) :
    skipelem path ≠ none := by
  cases path with
  | nil => exact absurd rfl hne
  | cons c cs =>
    have hc : ¬ (c == slash) = true := by simpa using hs
    have hdrop : (c :: cs).dropWhile (· == slash) = c :: cs := by
      rw [dropWhile_cons, if_neg hc]
    simp only [skipelem, hdrop]
    simp

theorem elementsFrom_eq_nil (rounds : ℕ) (hlen : rest.length ≤ rounds)
    (hs : rest.head? ≠ some slash) : elementsFrom rounds rest = [] ↔ rest = [] := by
  constructor
  · intro h
    by_contra hne
    cases rounds with
    | zero => exact hne (eq_nil_of_length_eq_zero (Nat.le_zero.1 hlen))
    | succ rounds =>
      rw [elementsFrom] at h
      split at h
      · rename_i hnone
        exact skipelem_ne_none hne hs hnone
      · simp at h
  · rintro rfl
    cases rounds with
    | zero => rfl
    | succ rounds => rfl

end Elements

section Namex

variable {P : Type} {fmt : Format} {k k' : Kernel P} {i : ℕ}

def Lost (k : Kernel P) (i : ℕ) (r : Stop) : Prop :=
  r = .icacheFull ∨ (r = .noType ∧ ∃ j, Leads k.inode i j ∧ (k.inode j).type = .free)

def Crowded (fmt : Format) (k : Kernel P) : Prop := nInode ≤ k.cached fmt + 1

theorem Lost.of_entry {j : ℕ} {r : Stop} (he : Entry k.inode i j) (h : Lost k j r) :
    Lost k i r := by
  rcases h with h | ⟨h, n, hn, hfree⟩
  · exact .inl h
  · exact .inr ⟨h, n, .head he hn, hfree⟩

theorem Lost.congr {r : Stop} (he : SameEntries k.inode k'.inode) (h : Lost k i r) :
    Lost k' i r := by
  rcases h with h | ⟨h, j, hj, hfree⟩
  · exact .inl h
  · exact .inr ⟨h, j, he.leads hj, (he j).1 ▸ hfree⟩

def Returned (k : Kernel P) : Option (ℕ × Name) → Kernel P → Prop
  | none, k' => k' = k
  | some (i, _), k' => k.Held i k'

theorem namexEnd_spec {E : Stop → Kernel P → Prop} (h : k.Settled) (hl : k.locked = ∅)
    (parent : Bool) (hk : k.Held i k') :
    wp (namexEnd parent i) (fun r k'' => Returned k r k'' ∧ r = walkFor k.inode parent i [])
      E k' := by
  have hi : i ∉ k.locked := by simp [hl]
  cases parent with
  | true =>
    simp only [namexEnd, if_true, wp_bind, wp_pure]
    exact wp_iput_held h (Set.notMem_empty i) hk hi ⟨rfl, rfl⟩
  | false =>
    exact ⟨hk, rfl⟩

theorem walkFor_cons {parent : Bool} {names : List Name} (h : ¬ (parent = true ∧ names = [])) :
    walkFor tree parent i (name :: names) =
      ((tree i).child name).bind fun j => walkFor tree parent j names := by
  cases parent with
  | true =>
    cases names with
    | nil => simp at h
    | cons next names => rfl
  | false =>
    simp only [walkFor, walk, Bool.false_eq_true, if_false, map_bind]
    rfl

theorem walkFor_of_not_dir {parent : Bool} {names : List Name}
    (h : (tree i).type ≠ .dir) : walkFor tree parent i (name :: names) = none := by
  by_cases hend : parent = true ∧ names = []
  · obtain ⟨rfl, rfl⟩ := hend
    simp [walkFor, walkParent, h]
  · simp [walkFor_cons hend, Inode.child, h]

theorem dirlookup_spec {Q : Option (ℕ × ℕ) → Kernel P → Prop} {E : Stop → Kernel P → Prop}
    {dp : ℕ} (hd : (k.inode dp).type = .dir) (hE : nInode ≤ k.cached fmt → E .icacheFull k)
    (hnone : (k.inode dp).lookup name = none → Q none k)
    (hsome : ∀ i off, (k.inode dp).lookup name = some (i, off) → Q (some (i, off)) (k.hold i)) :
    wp (dirlookup fmt dp name) Q E k := by
  simp only [dirlookup, wp_bind, wp_look, ne_eq, hd, not_true, if_false]
  cases hx : (k.inode dp).lookup name with
  | none => exact hnone hx
  | some r =>
    obtain ⟨i, off⟩ := r
    simp only [wp_bind, wp_pure]
    exact wp_iget (hsome i off hx) hE

theorem namexLoop_spec (h : k.Settled) (hl : k.locked = ∅) (parent : Bool) (rounds : ℕ) :
    ∀ (i : ℕ) (path : Path) (k' : Kernel P), path.length ≤ rounds → k.Held i k' →
      wp (namexLoop fmt parent rounds i path)
        (fun r k'' => Returned k r k'' ∧
          r = walkFor k.inode parent i (elementsFrom rounds path))
        (fun r _ => Lost k i r ∧ (r = .icacheFull → Crowded fmt k)) k' := by
  induction rounds with
  | zero =>
    intro i path k' _ hk
    exact namexEnd_spec h hl parent hk
  | succ rounds ih =>
    intro i path k' hlen hk
    have hi : i ∉ k.locked := by simp [hl]
    rw [namexLoop, elementsFrom]
    cases hs : skipelem path with
    | none => exact namexEnd_spec h hl parent hk
    | some r =>
      obtain ⟨name, rest⟩ := r
      obtain ⟨hrest, hslash⟩ := skipelem_rest hs
      have hlast := elementsFrom_eq_nil rounds (by omega) hslash
      simp only [wp_bind, wp_look]
      refine wp_ilock h hk hi (fun ht => ?_) fun ht _ =>
        ⟨.inr ⟨rfl, i, .refl, ht⟩, fun h => absurd h (by decide)⟩
      simp only [wp_ite, wp_bind, wp_pure]
      refine ⟨fun hdir => ?_, fun hdir => ⟨fun hend => ?_, fun hend => ?_⟩⟩
      · exact wp_iunlockput h hi
          ⟨h.sweep_eq (Set.notMem_empty i) ht, (walkFor_of_not_dir hdir).symm⟩
      · have hdir : (k.inode i).type = .dir := not_not.1 hdir
        refine wp_iunlock hi ⟨.inr ⟨ht, rfl⟩, ?_⟩
        rw [hlast.2 hend.2, hend.1]
        simp [walkFor, walkParent, hdir]
      · have hdir : (k.inode i).type = .dir := not_not.1 hdir
        rw [← hlast] at hend
        rw [walkFor_cons hend, Inode.child, if_pos hdir]
        refine dirlookup_spec hdir
          (fun hfull => ⟨.inl rfl, fun _ => hfull.trans Kernel.cached_grab_le⟩)
          (fun hnone => ?_) fun j off hsome => ?_
        · simp only [wp_bind, wp_pure]
          refine wp_iunlockput h hi ⟨h.sweep_eq (Set.notMem_empty i) ht, ?_⟩
          rw [show (k.inode i).lookup name = none from hnone]
          rfl
        · have hsome : (k.inode i).lookup name = some (j, off) := hsome
          simp only [wp_bind]
          refine wp_iunlockput_held h (Set.notMem_empty i) hi ht fun k'' hk'' => ?_
          rw [hsome]
          exact wp_mono (ih j rest k'' (by omega) hk'') (fun _ _ hr => hr)
            fun _ _ hr => ⟨hr.1.of_entry (entry_of_lookup hdir hsome), hr.2⟩

variable {cwd : ℕ} {path : Path}

variable (h : k.Settled) (hl : k.locked = ∅)
include h hl

/-- `namex` walks the tree. The reference it starts with is the one to the root, or
a second one to the current directory. -/
theorem namex_spec (parent : Bool) :
    wp (namex fmt cwd parent path)
      (fun r k' => Returned k r k' ∧
        r = walkFor k.inode parent (start cwd path) (elementsFrom path.length path))
      (fun r _ => Lost k (start cwd path) r ∧ (r = .icacheFull → Crowded fmt k)) k := by
  simp only [namex, start, wp_ite, wp_bind]
  constructor
  · intro hs
    rw [if_pos hs]
    exact wp_iget (namexLoop_spec h hl parent _ _ _ _ (Nat.le_refl _) (.inl rfl))
      fun hfull => ⟨.inl rfl, fun _ => Nat.le_succ_of_le hfull⟩
  · intro hs
    rw [if_neg hs]
    exact namexLoop_spec h hl parent _ _ _ _ (Nat.le_refl _) (.inl rfl)

theorem namei_spec {Q : Option ℕ → Kernel P → Prop} {E : Stop → Kernel P → Prop}
    (hE : ∀ r k', Lost k (start cwd path) r → E r k')
    (hnone : resolve k.inode cwd path = none → Q none k)
    (hsome : ∀ i k', resolve k.inode cwd path = some i → k.Held i k' → Q (some i) k') :
    wp (namei fmt cwd path) Q E k := by
  simp only [namei, wp_bind, wp_pure]
  refine wp_mono (namex_spec h hl false) ?_ fun r k' hr => hE r k' hr.1
  rintro r k' ⟨hret, hr⟩
  have hmap : r = (resolve k.inode cwd path).map fun j => (j, []) := hr
  cases hres : resolve k.inode cwd path with
  | none =>
    rw [hres] at hmap
    subst hmap
    have hk : k' = k := hret
    exact hk ▸ hnone hres
  | some i =>
    rw [hres] at hmap
    subst hmap
    exact hsome i k' hres hret

theorem nameiparent_spec {Q : Option (ℕ × Name) → Kernel P → Prop} {E : Stop → Kernel P → Prop}
    (hE : ∀ r k', Lost k (start cwd path) r → E r k')
    (hnone : resolveParent k.inode cwd path = none → Q none k)
    (hsome : ∀ dp name k', resolveParent k.inode cwd path = some (dp, name) →
      k.Held dp k' → Q (some (dp, name)) k') : wp (nameiparent fmt cwd path) Q E k := by
  refine wp_mono (namex_spec h hl true) ?_ fun r k' hr => hE r k' hr.1
  rintro r k' ⟨hret, hr⟩
  have hr : r = resolveParent k.inode cwd path := hr
  cases hres : resolveParent k.inode cwd path with
  | none =>
    rw [hres] at hr
    subst hr
    have hk : k' = k := hret
    exact hk ▸ hnone hres
  | some s =>
    rw [hres] at hr
    subst hr
    exact hsome s.1 s.2 k' hres hret

end Namex

end Xv6.Tree

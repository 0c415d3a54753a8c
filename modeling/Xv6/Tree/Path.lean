import Mathlib.Data.List.GetD
import Xv6.Tree.Deadlock

/-!
# Paths and their components

The components of a path are what stands between its slashes. `skipelem` takes them off one by
one and stores them in a buffer of `DIRSIZ` bytes: an element that fills it has no NUL, and behind
the NUL of a shorter one stays what was there before. `namex` with that buffer does what
`Xv6.Tree.namex` does with names, and both are the walk along the components.
-/

namespace Xv6.Tree

open Routine List Option

section Components

/-- The non-empty parts between the slashes of a path, cut to `DIRSIZ` bytes. -/
def components (path : Path) : List Name :=
  ((path.splitOnP (· == slash)).filter (· ≠ [])).map (List.take dirSiz)

variable {path e rest : Path}

theorem components_nil : components [] = [] := rfl

theorem components_append_slash (path rest : Path) :
    components (path ++ slash :: rest) = components path ++ components rest := by
  rw [components, splitOnP_append_cons path rest rfl, filter_append, map_append]
  rfl

theorem components_slash (path : Path) : components (slash :: path) = components path :=
  components_append_slash [] path

theorem components_dropSlashes (path : Path) :
    components (path.dropWhile (· == slash)) = components path := by
  induction path with
  | nil => rfl
  | cons c cs ih =>
    rw [dropWhile_cons]
    split_ifs with hc
    · rw [ih, eq_of_beq hc, components_slash]
    · rfl

theorem components_single (hne : e ≠ []) (he : ∀ c ∈ e, (c == slash) = false) :
    components e = [e.take dirSiz] := by
  rw [components, splitOnP_eq_singleton he, filter_cons, if_pos (decide_eq_true hne)]
  rfl

/-- What `skipelem` takes off is the first component. -/
theorem components_eq (path : Path) :
    components path = match skipelem path with
      | none => []
      | some (name, rest) => name :: components rest := by
  rw [← components_dropSlashes, skipelem]
  have hhead := head?_dropSlashes path
  generalize path.dropWhile (· == slash) = p at hhead ⊢
  cases p with
  | nil => rfl
  | cons c cs =>
    have hc : (c != slash) = true := by simpa using hhead
    have hnone : ∀ b ∈ (c :: cs).takeWhile (· != slash), (b == slash) = false := by
      intro b hb
      simpa using mem_takeWhile_imp hb
    have hne : (c :: cs).takeWhile (· != slash) ≠ [] := by
      rw [takeWhile_cons, if_pos hc]
      exact cons_ne_nil _ _
    rw [if_neg (cons_ne_nil c cs)]
    dsimp only
    rw [components_dropSlashes]
    -- the element ends at a slash or with the path
    have hsplit := takeWhile_append_dropWhile (p := (· != slash)) (l := c :: cs)
    cases hrest : (c :: cs).dropWhile (· != slash) with
    | nil =>
      rw [hrest, append_nil] at hsplit
      rw [components_nil, ← components_single hne hnone, hsplit]
    | cons b bs =>
      have hb : b = slash := by
        have hhead := List.head?_dropWhile_not (· != slash) (c :: cs)
        rw [hrest] at hhead
        simpa using hhead
      rw [hrest, hb] at hsplit
      rw [hb, components_slash, ← hsplit, components_append_slash,
        components_single hne hnone, hsplit]
      rfl

theorem elementsFrom_eq_components (rounds : ℕ) (path : Path) (hlen : path.length ≤ rounds) :
    elementsFrom rounds path = components path := by
  induction rounds generalizing path with
  | zero =>
    rw [eq_nil_of_length_eq_zero (Nat.le_zero.1 hlen)]
    rfl
  | succ rounds ih =>
    rw [elementsFrom, components_eq]
    cases hs : skipelem path with
    | none => rfl
    | some r =>
      obtain ⟨hrest, -⟩ := skipelem_rest hs
      exact congrArg (r.1 :: ·) (ih r.2 (by omega))

end Components

section Buffers

abbrev NameBuf := Fin dirSiz → Byte

/-- The string in a buffer, as `strncmp` reads it: up to a NUL, or all of the buffer. -/
def NameBuf.name (b : NameBuf) : Name := (List.ofFn b).takeWhile (· != 0)

def NameBuf.copy (b : NameBuf) (s : Path) : NameBuf := fun i =>
  if dirSiz ≤ s.length then
    s.getD i 0
  else
    if (i : ℕ) < s.length then s.getD i 0 else if (i : ℕ) = s.length then 0 else b i

variable {s : Path}

theorem bne_zero_of_notMem (h : 0 ∉ s) : ∀ c ∈ s, (c != 0) = true := by
  intro c hc
  exact bne_iff_ne.2 fun hz => h (hz ▸ hc)

/-- What was in the buffer before does not show in the name. -/
theorem NameBuf.name_copy (b : NameBuf) (h : 0 ∉ s) : (b.copy s).name = s.take dirSiz := by
  rw [name]
  by_cases hlen : dirSiz ≤ s.length
  · have hall : List.ofFn (b.copy s) = s.take dirSiz := by
      refine List.ext_getElem (by simp [hlen]) fun n hn hn' => ?_
      have hns : n < s.length := by
        rw [List.length_ofFn] at hn
        omega
      rw [List.getElem_ofFn, copy, if_pos hlen, List.getElem_take, List.getD_eq_getElem _ _ hns]
    rw [hall]
    exact List.takeWhile_eq_self_iff.2 fun c hc => bne_zero_of_notMem h c (List.mem_of_mem_take hc)
  · have hlt : s.length < dirSiz := Nat.lt_of_not_le hlen
    have hlt' : s.length < (List.ofFn (b.copy s)).length := by rwa [List.length_ofFn]
    have htake : (List.ofFn (b.copy s)).take s.length = s := by
      refine List.ext_getElem (by simp [Nat.le_of_lt hlt]) fun n hn hn' => ?_
      rw [List.getElem_take, List.getElem_ofFn, copy, if_neg hlen, if_pos hn',
        List.getD_eq_getElem _ _ hn']
    -- the byte behind the element is the NUL
    have hnul : (List.ofFn (b.copy s))[s.length] = 0 := by
      rw [List.getElem_ofFn, copy, if_neg hlen, if_neg (Nat.lt_irrefl _), if_pos rfl]
    rw [← List.take_append_drop s.length (List.ofFn (b.copy s)), htake,
      List.drop_eq_getElem_cons hlt', hnul,
      List.takeWhile_append_of_pos (bne_zero_of_notMem h),
      List.take_of_length_le (Nat.le_of_lt hlt)]
    exact List.append_nil s

end Buffers

namespace Buffer

def skipelem (path : Path) (name : NameBuf) : Option Path × NameBuf :=
  let path := path.dropWhile (· == slash)
  if path = [] then
    (none, name)
  else
    (some ((path.dropWhile (· != slash)).dropWhile (· == slash)),
      name.copy (path.takeWhile (· != slash)))

section Namex

variable {P : Type} (fmt : Format)

def namexEnd (parent : Bool) (ip : ℕ) (name : NameBuf) : KernelM P (Option ℕ × NameBuf) :=
  if parent = true then do
    iput ip
    pure (none, name)
  else
    pure (some ip, name)

def namexLoop (parent : Bool) : ℕ → ℕ → Path → NameBuf → KernelM P (Option ℕ × NameBuf)
  | 0, ip, _, name => namexEnd parent ip name
  | rounds + 1, ip, path, name =>
    match skipelem path name with
    | (none, name) => namexEnd parent ip name
    | (some rest, name) => do
        ilock ip
        let x ← look fun k => k.inode ip
        if x.type ≠ .dir then
          iunlockput ip
          pure (none, name)
        else if parent = true ∧ rest = [] then
          iunlock ip
          pure (some ip, name)
        else
          match ← dirlookup fmt ip name.name with
          | none =>
            iunlockput ip
            pure (none, name)
          | some (next, _) =>
            iunlockput ip
            namexLoop parent rounds next rest name

def namex (cwd : ℕ) (parent : Bool) (path : Path) (name : NameBuf) :
    KernelM P (Option ℕ × NameBuf) :=
  if path.head? = some slash then do
    iget fmt rootIno
    namexLoop fmt parent path.length rootIno path name
  else do
    idup cwd
    namexLoop fmt parent path.length cwd path name

/-- `namei`, whose buffer holds whatever the stack has there. -/
def namei (cwd : ℕ) (path : Path) (name : NameBuf) : KernelM P (Option ℕ) := do
  let r ← namex fmt cwd false path name
  pure r.1

def nameiparent (cwd : ℕ) (path : Path) (name : NameBuf) : KernelM P (Option ℕ × NameBuf) :=
  namex fmt cwd true path name

end Namex

section Simulation

variable {P : Type} {fmt : Format} {k : Kernel P} {parent : Bool} {path rest : Path}
  {b : NameBuf} {name : Name}

theorem skipelem_none (h : Tree.skipelem path = none) : skipelem path b = (none, b) := by
  simp only [Tree.skipelem] at h
  simp only [skipelem]
  split at h
  · rename_i hnil
    rw [if_pos hnil]
  · cases h

theorem skipelem_some (h : Tree.skipelem path = some (name, rest)) (hpath : 0 ∉ path) :
    ∃ b', skipelem path b = (some rest, b') ∧ b'.name = name ∧ 0 ∉ rest := by
  simp only [Tree.skipelem] at h
  simp only [skipelem]
  split at h
  · cases h
  · rename_i hne
    obtain ⟨hname, hrest⟩ := Prod.mk.inj (Option.some.inj h)
    have hdrop : 0 ∉ path.dropWhile (· == slash) := fun hz =>
      hpath ((dropWhile_sublist _).subset hz)
    refine ⟨_, by rw [if_neg hne, hrest], ?_, ?_⟩
    · rw [NameBuf.name_copy _ fun hz => hdrop ((takeWhile_sublist _).subset hz), hname]
    · rw [← hrest]
      exact fun hz => hdrop ((dropWhile_sublist _).subset ((dropWhile_sublist _).subset hz))

def Stored (parent : Bool) (r : Option (ℕ × Name)) (b : NameBuf) : Prop :=
  parent = true → ∀ i name, r = some (i, name) → b.name = name

def Lifted (parent : Bool) (Q : Option ℕ × NameBuf → Kernel P → Prop) (r : Option (ℕ × Name))
    (k : Kernel P) : Prop :=
  ∀ b, Stored parent r b → Q (r.map Prod.fst, b) k

variable {Q : Option ℕ × NameBuf → Kernel P → Prop} {E : Stop → Kernel P → Prop}

theorem Lifted.none (h : Lifted parent Q none k) (b : NameBuf) : Q (none, b) k :=
  h b fun _ _ _ hnone => absurd hnone (some_ne_none _).symm

theorem namexEnd_simulates {ip : ℕ} (h : wp (Tree.namexEnd parent ip) (Lifted parent Q) E k) :
    wp (namexEnd parent ip b) Q E k := by
  cases parent with
  | true =>
    simp only [Tree.namexEnd, if_true, wp_bind, wp_pure] at h
    simp only [namexEnd, if_true, wp_bind, wp_pure]
    exact wp_mono_post h fun _ _ hr => hr.none b
  | false =>
    exact h b fun hfalse => absurd hfalse Bool.false_ne_true

/-- The loop with the buffer does what the loop with names does, round by round. -/
theorem namexLoop_simulates (rounds : ℕ) {ip : ℕ} (hpath : 0 ∉ path)
    (h : wp (Tree.namexLoop fmt parent rounds ip path) (Lifted parent Q) E k) :
    wp (namexLoop fmt parent rounds ip path b) Q E k := by
  induction rounds generalizing ip path b k with
  | zero => exact namexEnd_simulates h
  | succ rounds ih =>
    rw [Tree.namexLoop] at h
    rw [namexLoop]
    cases hs : Tree.skipelem path with
    | none =>
      rw [hs] at h
      rw [skipelem_none hs]
      exact namexEnd_simulates h
    | some r =>
      obtain ⟨b', hb, hname, hrest⟩ := skipelem_some (b := b) hs hpath
      rw [hs] at h
      rw [hb]
      simp only [wp_bind, wp_look] at h ⊢
      refine wp_mono_post h fun _ k₁ h => ?_
      simp only [wp_ite, wp_bind, wp_pure] at h ⊢
      refine ⟨fun hdir => ?_, fun hdir => ⟨fun hend => ?_, fun hend => ?_⟩⟩
      · exact wp_mono_post (h.1 hdir) fun _ _ hr => hr.none b'
      · refine wp_mono_post ((h.2 hdir).1 hend) fun _ _ hr => hr b' fun _ i n heq => ?_
        rw [hname, (Prod.mk.inj (Option.some.inj heq)).2]
      · rw [hname]
        refine wp_mono_post ((h.2 hdir).2 hend) ?_
        rintro (- | ⟨next, off⟩) k₂ h
        · simp only [wp_bind, wp_pure] at h ⊢
          exact wp_mono_post h fun _ _ hr => hr.none b'
        · simp only [wp_bind] at h ⊢
          exact wp_mono_post h fun _ _ hr => ih hrest hr

theorem namex_simulates {cwd : ℕ} (hpath : 0 ∉ path)
    (h : wp (Tree.namex fmt cwd parent path) (Lifted parent Q) E k) :
    wp (namex fmt cwd parent path b) Q E k := by
  simp only [Tree.namex, wp_ite, wp_bind] at h
  simp only [namex, wp_ite, wp_bind]
  constructor
  · exact fun hs => wp_mono_post (h.1 hs) fun _ _ hr => namexLoop_simulates _ hpath hr
  · exact fun hs => wp_mono_post (h.2 hs) fun _ _ hr => namexLoop_simulates _ hpath hr

end Simulation

end Buffer

section Resolution

/-- The directory that is to have the last of the names. -/
def parentOf (tree : ℕ → Inode) (i : ℕ) (names : List Name) : Option ℕ :=
  if names = [] then none
  else (walk tree i names.dropLast).filter fun d => (tree d).type = .dir

theorem walkParent_eq_parentOf (tree : ℕ → Inode) (i : ℕ) (names : List Name) :
    walkParent tree i names =
      (parentOf tree i names).bind fun d => names.getLast?.map fun name => (d, name) := by
  fun_induction walkParent tree i names with
  | case1 => rfl
  | case2 i name hdir =>
    simp only [parentOf, dropLast_singleton, walk, filter_some, hdir]
    rfl
  | case3 i name hdir =>
    simp only [parentOf, dropLast_singleton, walk, filter_some, hdir]
    rfl
  | case4 i name next names ih =>
    have hne : next :: names ≠ [] := cons_ne_nil next names
    simp only [parentOf, dropLast_cons_of_ne_nil hne, walk, List.getLast?_cons_cons,
      if_neg hne, if_neg (cons_ne_nil name _)] at ih ⊢
    cases (tree i).child name with
    | none => rfl
    | some j => exact ih j

theorem getLast?_of_parentOf {tree : ℕ → Inode} {i d : ℕ} {names : List Name}
    (h : parentOf tree i names = some d) : ∃ name, names.getLast? = some name := by
  cases names with
  | nil => cases h
  | cons name names => exact ⟨_, List.getLast?_cons⟩

variable {P : Type} {fmt : Format} {k k' : Kernel P} {i cwd : ℕ} {path : Path}

/-- Between `k` and `k'` nothing has changed but for a reference to the inode that is returned,
and no inode is locked. -/
structure Balanced (k : Kernel P) (r : Option ℕ) (k' : Kernel P) : Prop where
  inode : k'.inode = k.inode
  ref : ∀ j, k'.ref j = k.ref j + if r = some j then 1 else 0
  locked : k'.locked = ∅

theorem Balanced.refl (hl : k.locked = ∅) : Balanced k none k :=
  ⟨rfl, fun _ => rfl, hl⟩

theorem Kernel.ref_hold (k : Kernel P) (i j : ℕ) :
    (k.hold i).ref j = k.ref j + if j = i then 1 else 0 := by
  by_cases hj : j = i
  · subst hj
    cases hc : k.cache j <;> simp [ref, hold, setCache, hc]
  · rw [if_neg hj, Nat.add_zero, hold, ref_setCache_of_ne hj]

theorem Kernel.Held.balanced (h : k.Held i k') (hl : k.locked = ∅) : Balanced k (some i) k' := by
  have hsome : ∀ j, (if some i = some j then 1 else 0) = if j = i then 1 else 0 := by
    intro j
    simp only [Option.some.injEq, eq_comm]
  rcases h with rfl | ⟨-, rfl⟩
  · exact ⟨rfl, fun j => by rw [hsome, ref_hold], hl⟩
  · exact ⟨rfl, fun j => by rw [hsome, ref_pin], hl⟩

/-- The panics that `namex` can end in: the inode cache has no two free entries, or the tree
has an entry for an inode that is not allocated. -/
def Hindered (fmt : Format) (k : Kernel P) (i : ℕ) (r : Stop) : Prop :=
  (r = .icacheFull ∧ Crowded fmt k) ∨
    (r = .noType ∧ ∃ j, Leads k.inode i j ∧ (k.inode j).type = .free)

theorem Lost.hindered {r : Stop} (h : Lost k i r) (hfull : r = .icacheFull → Crowded fmt k) :
    Hindered fmt k i r := by
  rcases h with h | h
  · exact .inl ⟨h, hfull h⟩
  · exact .inr h

theorem Returned.balanced {r : Option (ℕ × Name)} (h : Returned k r k') (hl : k.locked = ∅) :
    Balanced k (r.map Prod.fst) k' := by
  cases r with
  | none =>
    obtain rfl : k' = k := h
    exact Balanced.refl hl
  | some s => exact Kernel.Held.balanced h hl

/-- `namei` returns the inode that is found by looking up the components of the path in turn, and
`nameiparent` the one found by all but the last, which it leaves in the buffer. -/
theorem namei_resolves (hk : k.Settled) (hl : k.locked = ∅) (hpath : 0 ∉ path) (name : NameBuf) :
    wp (Buffer.namei fmt cwd path name)
        (fun r k' => r = walk k.inode (start cwd path) (components path) ∧ Balanced k r k')
        (fun r _ => Hindered fmt k (start cwd path) r) k ∧
      wp (Buffer.nameiparent fmt cwd path name)
        (fun r k' => r.1 = parentOf k.inode (start cwd path) (components path) ∧
          (r.1 ≠ none → (components path).getLast? = some r.2.name) ∧ Balanced k r.1 k')
        (fun r _ => Hindered fmt k (start cwd path) r) k := by
  have hnames := elementsFrom_eq_components path.length path (Nat.le_refl _)
  constructor
  · rw [Buffer.namei, wp_bind]
    refine Buffer.namex_simulates hpath ?_
    refine wp_mono (namex_spec hk hl false) ?_ fun r _ hr => hr.1.hindered hr.2
    rintro r k' ⟨hret, hr⟩ b -
    rw [hnames] at hr
    refine ⟨?_, hret.balanced hl⟩
    rw [hr, walkFor, if_neg Bool.false_ne_true, Option.map_map]
    exact Option.map_id'
  · refine Buffer.namex_simulates hpath ?_
    refine wp_mono (namex_spec hk hl true) ?_ fun r _ hr => hr.1.hindered hr.2
    rintro r k' ⟨hret, hr⟩ b hb
    rw [hnames, walkFor, if_pos rfl, walkParent_eq_parentOf] at hr
    cases hparent : parentOf k.inode (start cwd path) (components path) with
    | none =>
      rw [hparent] at hr
      subst hr
      exact ⟨rfl, fun hne => absurd rfl hne, hret.balanced hl⟩
    | some d =>
      obtain ⟨last, hlast⟩ := getLast?_of_parentOf hparent
      rw [hparent, hlast] at hr
      subst hr
      refine ⟨rfl, fun _ => ?_, hret.balanced hl⟩
      rw [hlast, hb rfl d last rfl]

theorem namei_resolves_dots :
    wp (Buffer.namei tinyFormat rootIno [dot, dot, slash, dot, slash] fun _ => 0x61)
        (fun r k' => r = some rootIno ∧ Balanced boot r k')
        (fun r _ => Hindered tinyFormat boot rootIno r) boot ∧
      wp (Buffer.nameiparent tinyFormat rootIno [dot, dot, slash, 0x64] fun _ => 0x61)
        (fun r k' => r.1 = some rootIno ∧ r.2.name = [0x64] ∧ Balanced boot r.1 k')
        (fun r _ => Hindered tinyFormat boot rootIno r) boot := by
  have hsettled := boot_quiet.settled
  constructor
  · refine wp_mono_post (namei_resolves hsettled rfl (by decide) _).1 fun r k' hr => ⟨?_, hr.2⟩
    exact hr.1.trans (by decide)
  · refine wp_mono_post (namei_resolves hsettled rfl (by decide) _).2 fun r k' hr => ?_
    have hroot : r.1 = some rootIno := hr.1.trans (by decide)
    refine ⟨hroot, ?_, hr.2.2⟩
    have hlast := hr.2.1 (by rw [hroot]; exact some_ne_none _)
    exact (Option.some.inj (hlast.symm.trans (by decide)))

end Resolution

end Xv6.Tree

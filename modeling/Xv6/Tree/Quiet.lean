import Xv6.Library.Counting
import Xv6.Tree.Effect

/-!
# Between two calls

A kernel is `Quiet` when no call is under way: the inode cache is settled, no inode
is locked, and the reference count of every inode is the number of its holders, the
processes whose current directory it is and the open files on it.

The lemmas below are the ways in which a call moves references: to a new holder
(`pin`), away from one (`put`), and from one to another. `Tended` is what happens to
the tree meanwhile: inodes without links may be freed, and sizes may change.
-/

namespace Xv6.Tree

open Function Option

variable {P : Type} {k k' : Kernel P} {i j : ℕ} {f : Fin nFile}

namespace Kernel

variable {e : CacheEntry} {g : File → File}

theorem ref_pin : (k.pin i).ref j = k.ref j + if j = i then 1 else 0 := by
  by_cases hj : j = i
  · subst hj
    simp [ref]
  · rw [if_neg hj, Nat.add_zero, pin, ref_setCache_of_ne hj]

theorem ref_of_some (hc : k.cache i = some e) : k.ref i = e.ref := by
  simp [ref, hc]

theorem cached_of_ref (h : k.ref i ≠ 0) : ∃ e, k.cache i = some e := by
  cases hc : k.cache i with
  | none => simp [ref, hc] at h
  | some e => exact ⟨e, rfl⟩

theorem ref_put (hc : k.cache i = some e) (hpos : 1 ≤ e.ref) :
    (k.put i).ref j + (if j = i then 1 else 0) = k.ref j := by
  have hcache : (k.put i).cache = update k.cache i
      (if e.ref = 1 then none else some { e with ref := e.ref - 1 }) := by
    simp only [put, hc]
    split <;> rfl
  by_cases hj : j = i
  · subst hj
    rw [ref_of_some hc]
    by_cases hone : e.ref = 1
    · simp [ref, hcache, hone]
    · simp only [ref, hcache, hone, update_self, if_false, if_true]
      omega
  · simp [ref, hcache, hj]

theorem file_put : (k.put i).file = k.file := by
  unfold put
  split
  · rfl
  · split <;> rfl

theorem proc_put : (k.put i).proc = k.proc := by
  unfold put
  split
  · rfl
  · split <;> rfl

theorem locked_put : (k.put i).locked = k.locked := by
  unfold put
  split
  · rfl
  · split <;> rfl

@[simp] theorem file_sweep : (k.sweep i).file = k.file := by
  unfold sweep
  split <;> rfl

@[simp] theorem proc_sweep : (k.sweep i).proc = k.proc := by
  unfold sweep
  split <;> rfl

theorem SettledBut.put (h : k.Settled) (hc : k.cache i = some e) : (k.put i).Settled := by
  by_cases hone : e.ref = 1
  · rw [put_last hc (h.valid i e hc) hone]
    have hk : (k.setCache i none).SettledBut {i} := by
      have hsome : ∀ j e, (k.setCache i none).cache j = some e → k.cache j = some e := by
        intro j e he
        by_cases hj : j = i
        · subst hj
          simp [Kernel.setCache] at he
        · rwa [cache_setCache_of_ne hj] at he
      refine ⟨fun j e he => h.valid j e (hsome j e he), fun j e he => h.pos j e (hsome j e he),
        fun j e he => h.alloc j e (hsome j e he), fun j hj => ?_⟩
      rw [cache_setCache_of_ne hj]
      exact h.tidy j (Set.notMem_empty j)
    exact hk.sweep.mono (by simp)
  · rw [put_more hc hone]
    have hpos := h.pos i e hc
    have hmore : 1 ≤ e.ref - 1 := by omega
    exact (h.setCache (c := { e with ref := e.ref - 1 }) (h.valid i e hc) hmore
      (h.alloc i e hc)).mono (by simp)

end Kernel

section Tended

variable {tree tree' tree'' : ℕ → Inode}

/-- What references do to the tree when they go: an inode without links may be
freed. The sizes of files are left open. -/
def Tended (tree tree' : ℕ → Inode) : Prop :=
  ∀ i, (tree' i).nlink = (tree i).nlink ∧
    (((tree' i).type = (tree i).type ∧ (tree' i).entries = (tree i).entries) ∨
      ((tree i).nlink = 0 ∧ (tree' i).type = .free ∧ (tree' i).entries = []))

theorem Tended.refl (tree : ℕ → Inode) : Tended tree tree :=
  fun _ => ⟨rfl, .inl ⟨rfl, rfl⟩⟩

theorem Tended.trans (h : Tended tree tree') (h' : Tended tree' tree'') : Tended tree tree'' := by
  intro i
  obtain ⟨hn, hi⟩ := h i
  obtain ⟨hn', hi'⟩ := h' i
  refine ⟨hn'.trans hn, ?_⟩
  rcases hi' with ⟨ht', he'⟩ | ⟨hz, hfree⟩
  · rcases hi with ⟨ht, he⟩ | ⟨hz, ht, he⟩
    · exact .inl ⟨ht'.trans ht, he'.trans he⟩
    · exact .inr ⟨hz, ht'.trans ht, he'.trans he⟩
  · exact .inr ⟨hn ▸ hz, hfree⟩

theorem Tended.type_eq_or (h : Tended tree tree') (i : ℕ) :
    (tree' i).type = (tree i).type ∨ (tree' i).type = .free := by
  rcases (h i).2 with ⟨ht, -⟩ | ⟨-, ht, -⟩
  · exact .inl ht
  · exact .inr ht

theorem tended_modifyInode {g : Inode → Inode}
    (hg : ∀ x, (g x).nlink = x.nlink ∧ (g x).type = x.type ∧ (g x).entries = x.entries) :
    Tended k.inode (k.modifyInode i g).inode := by
  intro j
  by_cases hj : j = i
  · subst hj
    rw [Kernel.inode_modifyInode_self]
    exact ⟨(hg _).1, .inl (hg _).2⟩
  · rw [Kernel.inode_modifyInode_of_ne _ hj]
    exact ⟨rfl, .inl ⟨rfl, rfl⟩⟩

theorem tended_sweep : Tended k.inode (k.sweep i).inode := by
  unfold Kernel.sweep
  split
  · rename_i hi
    intro j
    by_cases hj : j = i
    · subst hj
      rw [Kernel.inode_modifyInode_self]
      exact ⟨rfl, .inr ⟨hi.1, rfl, rfl⟩⟩
    · rw [Kernel.inode_modifyInode_of_ne _ hj]
      exact ⟨rfl, .inl ⟨rfl, rfl⟩⟩
  · exact .refl _

theorem tended_put (h : k.Settled) (hc : k.cache i = some e) : Tended k.inode (k.put i).inode := by
  by_cases hone : e.ref = 1
  · rw [Kernel.put_last hc (h.valid i e hc) hone]
    exact tended_sweep (k := k.setCache i none)
  · rw [Kernel.put_more hc hone]
    exact .refl _

end Tended

def File.On (x : File) (i : ℕ) : Prop := x.type = .inode ∧ x.ip = i

instance (x : File) (i : ℕ) : Decidable (x.On i) := inferInstanceAs (Decidable (_ ∧ _))

/-- A file structure not in use is closed, and a directory is not open for writing. -/
structure File.Sane (tree : ℕ → Inode) (x : File) : Prop where
  closed : x.ref = 0 → x.type = .none
  plain : x.type = .inode → x.writable = true → (tree x.ip).type ≠ .dir

namespace Kernel

def opens (k : Kernel P) (i : ℕ) : ℕ := (Finset.univ.filter fun f => (k.file f).On i).card

variable [Fintype P]

def cwds (k : Kernel P) (i : ℕ) : ℕ :=
  (Finset.univ.filter fun p => (k.proc p).map Proc.cwd = some i).card

/-- The state of the kernel between two calls. -/
structure Quiet (k : Kernel P) : Prop where
  settled : k.Settled
  unlocked : k.locked = ∅
  counted : ∀ i, k.ref i = k.cwds i + k.opens i
  sane : ∀ f, (k.file f).Sane k.inode

end Kernel

theorem File.Sane.tended {tree tree' : ℕ → Inode} {x : File} (h : x.Sane tree)
    (ht : Tended tree tree') : x.Sane tree' := by
  refine ⟨h.closed, fun hin hw => ?_⟩
  rcases ht.type_eq_or x.ip with hs | hs
  · rw [hs]
    exact h.plain hin hw
  · rw [hs]
    simp

namespace Kernel

section Counts

theorem opens_modifyFile (g : File → File) :
    (k.modifyFile f g).opens i + (if (k.file f).On i then 1 else 0) =
      k.opens i + if (g (k.file f)).On i then 1 else 0 :=
  Counting.card_filter_update k.file f (g (k.file f)) (File.On · i)

theorem opens_congr (h : k'.file = k.file) : k'.opens i = k.opens i := by
  rw [opens, opens, h]

theorem sane_modifyFile {tree : ℕ → Inode} (h : ∀ f, (k.file f).Sane tree)
    (hg : (g (k.file f)).Sane tree) (f' : Fin nFile) : ((k.modifyFile f g).file f').Sane tree := by
  by_cases hf : f' = f
  · subst hf
    simpa only [modifyFile, update_self] using hg
  · simpa only [modifyFile, update_of_ne hf] using h f'

variable [Fintype P]

theorem cwds_setProc [DecidableEq P] (p : P) (r : Option Proc) :
    (k.setProc p r).cwds i + (if (k.proc p).map Proc.cwd = some i then 1 else 0) =
      k.cwds i + if r.map Proc.cwd = some i then 1 else 0 :=
  Counting.card_filter_update k.proc p r fun r => r.map Proc.cwd = some i

theorem cwds_congr (h : k'.proc = k.proc) : k'.cwds i = k.cwds i := by
  rw [cwds, cwds, h]

end Counts

namespace Quiet

variable [Fintype P]

section

variable (h : k.Quiet)
include h

theorem file_cached (hf : (k.file f).On i) : ∃ e, k.cache i = some e := by
  refine cached_of_ref ?_
  have hpos : 0 < k.opens i := Finset.card_pos.2 ⟨f, Finset.mem_filter.2 ⟨Finset.mem_univ f, hf⟩⟩
  rw [h.counted i]
  omega

theorem cwd_cached {p : P} {pr : Proc} (hp : k.proc p = some pr) :
    ∃ e, k.cache pr.cwd = some e := by
  refine cached_of_ref ?_
  have hpos : 0 < k.cwds pr.cwd :=
    Finset.card_pos.2 ⟨p, Finset.mem_filter.2 ⟨Finset.mem_univ p, by rw [hp]; rfl⟩⟩
  rw [h.counted pr.cwd]
  omega

theorem retree (hs : k'.Settled) (hc : k'.cache = k.cache) (hl : k'.locked = k.locked)
    (hf : k'.file = k.file) (hp : k'.proc = k.proc)
    (ht : ∀ i e, k.cache i = some e → (k'.inode i).type = (k.inode i).type) : k'.Quiet := by
  refine ⟨hs, hl.trans h.unlocked, fun i => ?_, fun f => ?_⟩
  · rw [ref, hc, cwds_congr hp, opens_congr hf]
    exact h.counted i
  · rw [hf]
    refine ⟨(h.sane f).closed, fun hin hw => ?_⟩
    obtain ⟨e, he⟩ := h.file_cached ⟨hin, rfl⟩
    rw [ht _ e he]
    exact (h.sane f).plain hin hw

theorem setFiles (file : Fin nFile → File) (hon : ∀ f i, (file f).On i ↔ (k.file f).On i)
    (hsane : ∀ f, (file f).Sane k.inode) : ({ k with file := file } : Kernel P).Quiet := by
  refine ⟨⟨h.settled.valid, h.settled.pos, h.settled.alloc, h.settled.tidy⟩, h.unlocked,
    fun i => ?_, hsane⟩
  have hopens : ({ k with file := file } : Kernel P).opens i = k.opens i := by
    simp only [opens, hon]
  rw [hopens]
  exact h.counted i

theorem modifyFile (hon : ∀ i, (g (k.file f)).On i ↔ (k.file f).On i)
    (hsane : (g (k.file f)).Sane k.inode) : (k.modifyFile f g).Quiet := by
  refine h.setFiles _ (fun f' i => ?_) (sane_modifyFile h.sane hsane)
  by_cases hf : f' = f
  · subst hf
    rw [update_self]
    exact hon i
  · rw [update_of_ne hf]

theorem modifyProc [DecidableEq P] (p : P) {g : Proc → Proc} (hg : ∀ pr, (g pr).cwd = pr.cwd) :
    (k.modifyProc p g).Quiet := by
  refine ⟨⟨h.settled.valid, h.settled.pos, h.settled.alloc, h.settled.tidy⟩, h.unlocked,
    fun i => ?_, h.sane⟩
  have hmap : ((k.proc p).map g).map Proc.cwd = (k.proc p).map Proc.cwd := by
    rw [map_map]
    exact congrArg (Option.map · _) (funext hg)
  have hcwds := cwds_setProc (k := k) (i := i) p ((k.proc p).map g)
  have hcount := h.counted i
  rw [hmap] at hcwds
  have hopens : (k.modifyProc p g).opens i = k.opens i := rfl
  have href : (k.modifyProc p g).ref i = k.ref i := rfl
  have hproc : (k.modifyProc p g).cwds i = (k.setProc p ((k.proc p).map g)).cwds i := rfl
  omega

/-- The last reference to an open file goes. -/
theorem close (hf : (k.file f).On i) (hg : (g (k.file f)).type = .none) :
    ((k.modifyFile f g).put i).Quiet ∧ Tended k.inode ((k.modifyFile f g).put i).inode := by
  obtain ⟨e, he⟩ := h.file_cached hf
  have hs : (k.modifyFile f g).Settled :=
    ⟨h.settled.valid, h.settled.pos, h.settled.alloc, h.settled.tidy⟩
  have ht : Tended k.inode ((k.modifyFile f g).put i).inode := tended_put hs he
  refine ⟨⟨hs.put he, locked_put.trans h.unlocked, fun j => ?_, fun f' => ?_⟩, ht⟩
  · have hopens := opens_modifyFile (k := k) (f := f) (i := j) g
    have hcount := h.counted j
    have href := ref_put (j := j) (show (k.modifyFile f g).cache i = some e from he) (hs.pos i e he)
    have hoff : ¬ (g (k.file f)).On j := by simp [File.On, hg]
    have hon : (k.file f).On j ↔ j = i :=
      ⟨fun hj => hj.2.symm.trans hf.2, fun hj => hj ▸ hf⟩
    rw [if_neg hoff] at hopens
    simp only [hon] at hopens
    rw [opens_congr file_put, cwds_congr proc_put]
    have hcwds : (k.modifyFile f g).cwds j = k.cwds j := rfl
    have hr : (k.modifyFile f g).ref j = k.ref j := rfl
    omega
  · rw [file_put]
    exact (sane_modifyFile h.sane ⟨fun _ => hg, fun hin => by simp [hg] at hin⟩ f').tended ht

theorem take (hi : (k.inode i).type ≠ .free) (hclosed : (k.file f).ref = 0)
    (hg : (g (k.file f)).On i) (hsane : (g (k.file f)).Sane k.inode) :
    ((k.pin i).modifyFile f g).Quiet := by
  have hp : (k.pin i).Settled := (h.settled.pin hi).mono (by simp)
  refine ⟨{ hp with }, h.unlocked, fun j => ?_, sane_modifyFile h.sane hsane⟩
  have hopens := opens_modifyFile (k := k.pin i) (f := f) (i := j) g
  have hcount := h.counted j
  have hoff : ¬ ((k.pin i).file f).On j := by
    have hnone : ((k.pin i).file f).type = .none := (h.sane f).closed hclosed
    simp [File.On, hnone]
  have hon : (g ((k.pin i).file f)).On j ↔ j = i :=
    ⟨fun hj => hj.2.symm.trans hg.2, fun hj => hj ▸ hg⟩
  rw [if_neg hoff] at hopens
  simp only [hon] at hopens
  have href : ((k.pin i).modifyFile f g).ref j = k.ref j + if j = i then 1 else 0 := ref_pin
  have hcwds : ((k.pin i).modifyFile f g).cwds j = k.cwds j := rfl
  have hpin : (k.pin i).opens j = k.opens j := rfl
  omega

end

section Processes

variable [DecidableEq P] {p : P} {pr : Proc}

/-- A process leaves its current directory, for another one that has been pinned for
it or for good. -/
theorem leave (hs : k.Settled) (hl : k.locked = ∅) (hsane : ∀ f, (k.file f).Sane k.inode)
    (hp : k.proc p = some pr) (he : k.cache pr.cwd = some e) (r : Option Proc)
    (hcount : ∀ j, k.ref j = k.cwds j + k.opens j + if r.map Proc.cwd = some j then 1 else 0) :
    ((k.put pr.cwd).setProc p r).Quiet ∧ Tended k.inode (k.put pr.cwd).inode := by
  have ht := tended_put hs he
  have hput := hs.put he
  refine ⟨⟨{ hput with }, locked_put.trans hl, fun j => ?_, fun f => ?_⟩, ht⟩
  · have hcwds := cwds_setProc (k := k.put pr.cwd) (i := j) p r
    rw [congrFun proc_put p, hp, cwds_congr proc_put] at hcwds
    simp only [map_some, Option.some.injEq] at hcwds
    have href := ref_put (j := j) he (hs.pos _ e he)
    simp only [eq_comm (a := j)] at href
    have hj := hcount j
    have hself : ((k.put pr.cwd).setProc p r).ref j = (k.put pr.cwd).ref j := rfl
    have hopens : ((k.put pr.cwd).setProc p r).opens j = k.opens j := opens_congr file_put
    omega
  · have hfile : ((k.put pr.cwd).setProc p r).file = k.file := file_put
    rw [hfile]
    exact (hsane f).tended ht

variable (h : k.Quiet) (hp : k.proc p = some pr)
include h hp

theorem exit : ((k.put pr.cwd).setProc p none).Quiet ∧ Tended k.inode (k.put pr.cwd).inode := by
  obtain ⟨e, he⟩ := h.cwd_cached hp
  exact leave h.settled h.unlocked h.sane hp he none h.counted

theorem chdir (hi : (k.inode i).type ≠ .free) :
    (((k.pin i).put pr.cwd).setProc p (some { pr with cwd := i })).Quiet ∧
      Tended k.inode ((k.pin i).put pr.cwd).inode := by
  have hpin : (k.pin i).Settled := (h.settled.pin hi).mono (by simp)
  obtain ⟨e, he⟩ := h.cwd_cached hp
  have hpos := h.settled.pos _ e he
  obtain ⟨e', he'⟩ : ∃ e, (k.pin i).cache pr.cwd = some e := by
    refine cached_of_ref ?_
    rw [ref_pin, ref_of_some he]
    omega
  refine leave hpin h.unlocked h.sane hp he' _ fun j => ?_
  rw [ref_pin, h.counted j]
  simp only [map_some, Option.some.injEq, eq_comm (a := j)]
  rfl

theorem fork {q : P} (hq : k.proc q = none) : ((k.hold pr.cwd).setProc q (some pr)).Quiet := by
  obtain ⟨e, he⟩ := h.cwd_cached hp
  rw [hold_eq_pin he (h.settled.valid _ e he)]
  have hs := h.settled.pin (h.settled.alloc _ e he)
  refine ⟨⟨hs.valid, hs.pos, hs.alloc, fun j hj => hs.tidy j (by simp)⟩, h.unlocked,
    fun j => ?_, h.sane⟩
  have hcwds := cwds_setProc (k := k.pin pr.cwd) (i := j) q (some pr)
  have hq' : (k.pin pr.cwd).proc q = none := hq
  rw [hq'] at hcwds
  simp only [map_some, map_none, Option.some.injEq, reduceCtorEq, if_false]
    at hcwds
  have hcount := h.counted j
  have href : ((k.pin pr.cwd).setProc q (some pr)).ref j =
      k.ref j + if pr.cwd = j then 1 else 0 := by
    simp only [eq_comm (a := pr.cwd)]
    exact ref_pin
  have hopens : ((k.pin pr.cwd).setProc q (some pr)).opens j = k.opens j := rfl
  have hsame : (k.pin pr.cwd).cwds j = k.cwds j := rfl
  omega

end Processes

end Quiet

end Kernel

end Xv6.Tree

import Xv6.Process.Arguments

/-!
# `exec`

The stages of `exec` put together. A call that fails gives the new directory back and changes
nothing else, unless an argument is so long that `uva2ka` follows a null PTE. One that succeeds
moves the process to the new directory, gives the old one back, and passes the arguments on.
-/

namespace Xv6.Process

open Routine PageTable Vm Function Xv6.Tree

variable {H O : Type} {lk : Link} {others : O → Option ℕ} {loose : Set ℕ} {argv : List (List Byte)}
  {p : Slot}
open PTable (Slot)

variable {Q : Unit → Kernel → Prop} {E : Stop → Kernel → Prop}

section Stages

variable [DecidableEq H] {dirs dirs' : H → Option ℕ} {T : Set (Spot H O)} {m m' : Mem} {h h₀ : H}
  {d old : ℕ} {sz esp : BitVec 32}

def Stacked (m : Mem) (d : ℕ) (sz esp : BitVec 32) (argv : List (List Byte)) : Prop :=
  ∃ g f ptrs, StackReady m d sz g f ∧
    Framed (m.page f) (4096 * (g + 1)) sz.toNat esp.toNat ptrs argv

theorem Stacked.passed (hs : Stacked m d sz esp argv) : ∃ ptrs, Passed m d sz esp ptrs argv := by
  obtain ⟨g, f, ptrs, hready, hframed⟩ := hs
  exact ⟨ptrs, hframed.passed hready⟩

omit [DecidableEq H] in
theorem Stacked.moves (hs : Stacked m d sz esp argv) (hm : Moves lk others T dirs dirs' loose m m')
    (hT : ∀ q ∈ Place.held h, q ∉ T) (hd : dirs h = some d) : Stacked m' d sz esp argv := by
  obtain ⟨g, f, ptrs, hready, hframed⟩ := hs
  have hlt := hready.lt
  obtain ⟨hp, hframe⟩ := hready.present
  obtain ⟨-, htables, hptes⟩ := hm.same (fun q hq => hT q (Place.nodes_subset_held h hq)) hd
  have howner : owner m dirs others (.page h (dirIdx (g + 1)) (tabIdx (g + 1))) = some f :=
    hframe ▸ owner_of_present hd (show g + 1 < 2 ^ 19 by omega) hp
  have hpage : m'.page f = m.page f := (hm.keeps _ (hT _ rfl) f howner).2
  exact ⟨g, f, ptrs, hready.congr htables hptes, hpage ▸ hframed⟩

def NoPages (m : Mem) (sz : BitVec 32) : Prop :=
  2 ^ 31 ≤ 4096 * (pagesOf sz + 2) ∨ m.stock ≤ 1026

def NoRoom (m : Mem) (sz : BitVec 32) (argv : List (List Byte)) : Prop :=
  NoPages m sz ∨ 4096 < stackSize argv + 4 * (argv.length + 4)

attribute [local irreducible] stackPages

/-- `exec` from the stack on: there is a stack with the arguments, or the directory is given
back. A wild argument is not pushed. -/
theorem setupStack_spec (hf : Frames lk dirs others loose m) (hd : dirs h = some d)
    (hs : Space m d sz) (hfull : Full m d sz) (hlen : ∀ arg ∈ argv, arg.length < 2 ^ 31)
    (hcount : argv.length ≤ maxArg) :
    wp (setupStack lk d sz argv) (fun r m' => match r with
      | none => Moves lk others (Place.held h) dirs (update dirs h none) loose m m' ∧
          NoRoom m sz argv ∧ (NoPages m sz ∨ ¬ Wild (4096 * (pagesOf sz + 2)) argv)
      | some (top, esp) => Moves lk others (Place.held h) dirs dirs loose m m' ∧
          Stacked m' d top esp argv ∧ ¬ Wild (4096 * (pagesOf sz + 2)) argv)
      (fun e _ => e = .nullPte ∧ Wild (4096 * (pagesOf sz + 2)) argv) m := by
  have hback : ∀ {m₁}, Moves lk others (Place.held h) dirs dirs loose m m₁ →
      NoRoom m sz argv ∧ (NoPages m sz ∨ ¬ Wild (4096 * (pagesOf sz + 2)) argv) →
      wp (freevm lk d) (fun _ m' =>
        Moves lk others (Place.held h) dirs (update dirs h none) loose m m' ∧ NoRoom m sz argv ∧
          (NoPages m sz ∨ ¬ Wild (4096 * (pagesOf sz + 2)) argv))
        (fun e _ => e = .nullPte ∧ Wild (4096 * (pagesOf sz + 2)) argv) m₁ :=
    fun hm hshort => wp_mono (freevm_spec hm.frames hd)
      (fun _ _ hfree => ⟨hm.trans hfree, hshort⟩) fun _ _ hstop => hstop.elim
  rw [setupStack, wp_bind]
  refine wp_mono_ok (stackPages_spec hf hd hs hfull) ?_
  rintro (- | top) m₁ hpages
  · rw [wp_bind]
    exact hback (hpages.moves.mono (Place.nodes_subset_held h))
      ⟨.inl (hpages.short rfl), .inl (hpages.short rfl)⟩
  · have hheld := hpages.moves.mono (Place.nodes_subset_held h)
    obtain ⟨f, hready⟩ := hpages.ready top rfl
    have hsize : top.toNat = 4096 * (pagesOf sz + 2) := hready.size
    have hpush := pushFrame_spec hready hheld.frames hd hlen hcount
    rw [wildFrom_size hready, hsize] at hpush
    rw [wp_bind]
    refine wp_mono hpush ?_ fun _ _ hstop => hstop
    rintro (- | sp) m₂ ⟨hpushed, htame⟩
    · rw [wp_bind]
      exact hback (hheld.trans (hpushed.moves.mono (span_subset_held h 0 (2 ^ 19))))
        ⟨.inr (hpushed.short rfl), .inr htame⟩
    · obtain ⟨ptrs, hframed⟩ := hpushed.framed sp rfl
      exact ⟨hheld.trans (hpushed.moves.mono (span_subset_held h 0 (2 ^ 19))),
        ⟨pagesOf sz, f, ptrs, hpushed.ready sp rfl, hframed⟩, htame⟩

end Stages

section Commit

variable [DecidableEq H] {dirs : H → Option ℕ} {h₀ : H} {s : Kernel} {old : ℕ}

def Kernel.execed (s : Kernel) (p : Slot) (path : Path) (im : Image) (sz sp : BitVec 32) :
    Kernel :=
  s.modifyProc p fun x => { x with
    name := (lastElem path).take 15, pgdir := some im.pgdir, sz := sz, eip := im.entry, esp := sp
    sched := { x.sched with priority := .pl2 } }

theorem proc_execed (s : Kernel) (p : Slot) (path : Path) (im : Image) (sz sp : BitVec 32) :
    (s.execed p path im sz sp).proc p = { s.proc p with
      name := (lastElem path).take 15, pgdir := some im.pgdir, sz := sz, eip := im.entry, esp := sp
      sched := { (s.proc p).sched with priority := .pl2 } } := proc_modifyProc_self s p _

theorem modifyProc_modifyProc (s : Kernel) (p : Slot) (f g : Proc → Proc) :
    (s.modifyProc p f).modifyProc p g = s.modifyProc p fun x => g (f x) := by
  simp only [Kernel.modifyProc, update_self, update_idem]

theorem commit_spec (hf : Frames lk dirs others loose s.mem) (hold : dirs h₀ = some old)
    (hpgdir : (s.proc p).pgdir = some old) (hstack : (s.proc p).kstack ≠ none) (path : Path)
    (im : Image) (sz sp : BitVec 32) :
    wp (commit lk p path im sz sp) (fun r s' => r = 0 ∧ ∃ m',
      s' = (s.execed p path im sz sp).setMem m' ∧
        Moves lk others (Place.held h₀) dirs (update dirs h₀ none) loose s.mem m')
      (fun _ _ => False) s := by
  simp only [commit, wp_bind, wp_getProc, wp_modify, hpgdir, wp_onMem, wp_pure,
    modifyProc_modifyProc]
  refine wp_switchuvm ?_ ?_ (wp_mono_ok (freevm_spec hf hold) fun _ m' hfree => ?_)
  · rw [proc_modifyProc_self]
    exact hstack
  · rw [proc_modifyProc_self]
    exact Option.some_ne_none _
  · exact ⟨trivial, m', rfl, hfree⟩

end Commit

section Whole

variable [DecidableEq H] {dirs : H → Option ℕ} {h h₀ : H} {s s' : Kernel} {old : ℕ}
  {fmt : Format} {cwd : ℕ} {path : Path} {file : List Byte} {r : ℤ}

/-- `exec` has returned: nothing but free memory has changed, or the process has a new image. -/
inductive ExecDone (lk : Link) (others : O → Option ℕ) (dirs : H → Option ℕ) (loose : Set ℕ)
    (h h₀ : H) (p : Slot) (path : Path) (argv : List (List Byte)) (s : Kernel) :
    ℤ → Kernel → Prop
  | failed {m'} (hm : Moves lk others (Place.held h) dirs dirs loose s.mem m') :
      ExecDone lk others dirs loose h h₀ p path argv s (-1) (s.setMem m')
  | started {m'} {im : Image} {sz esp : BitVec 32}
      (hm : Moves lk others (Place.held h ∪ Place.held h₀) dirs
        (update (update dirs h (some im.pgdir)) h₀ none) loose s.mem m')
      (hstack : Stacked m' im.pgdir sz esp argv) :
      ExecDone lk others dirs loose h h₀ p path argv s 0 ((s.execed p path im sz esp).setMem m')

def Kernel.setOutstanding (s : Kernel) (n : ℤ) : Kernel := { s with outstanding := n }

theorem wp_beginOp : wp beginOp Q E s ↔ Q () (s.setOutstanding (s.outstanding + 1)) := Iff.rfl

theorem wp_endOp : wp endOp Q E s ↔ Q () (s.setOutstanding (s.outstanding - 1)) := Iff.rfl

theorem setOutstanding_back (s : Kernel) (m : Mem) :
    (s.setMem m).setOutstanding (s.outstanding + 1 - 1) = s.setMem m := by
  rw [Int.add_sub_cancel]
  rfl

attribute [local irreducible] loadImage setupStack commit

theorem exec_loaded (hnone : dirs h = none) (hne : h₀ ≠ h) (hold : dirs h₀ = some old)
    (hpgdir : (s.proc p).pgdir = some old) (hstack : (s.proc p).kstack ≠ none)
    (hlen : ∀ arg ∈ argv, arg.length < 2 ^ 31) (hcount : argv.length ≤ maxArg) {m₁ : Mem}
    {im : Image} (hm : Moves lk others (Place.held h) dirs (update dirs h (some im.pgdir)) loose
      s.mem m₁) (hs : Space m₁ im.pgdir im.sz) (hfull : Full m₁ im.pgdir im.sz) :
    wp (onMem (setupStack lk im.pgdir im.sz argv) >>= fun r => match r with
        | none => pure (-1)
        | some (sz, sp) => commit lk p path im sz sp)
      (ExecDone lk others dirs loose h h₀ p path argv s)
      (fun e _ => e = .vm .nullPte ∧ Wild (4096 * (pagesOf im.sz + 2)) argv) (s.setMem m₁) := by
  have hd : update dirs h (some im.pgdir) h = some im.pgdir := update_self ..
  rw [wp_bind, wp_onMem]
  refine wp_mono (setupStack_spec hm.frames hd hs hfull hlen hcount) ?_
    fun e _ hstop => ⟨congrArg Stop.vm hstop.1, hstop.2⟩
  rintro (- | ⟨sz, esp⟩) m₂ hpost
  · have hback := hpost.1
    rw [update_idem, ← hnone, update_eq_self] at hback
    exact ExecDone.failed (hm.trans hback)
  · obtain ⟨hm₂, hstacked, -⟩ := hpost
    have hold' : update dirs h (some im.pgdir) h₀ = some old := by
      rw [update_of_ne hne, hold]
    refine wp_mono_ok (commit_spec (s := s.setMem m₂) hm₂.frames hold' hpgdir hstack path im sz esp)
      ?_
    rintro r s' ⟨rfl, m₃, rfl, hm₃⟩
    have hapart : ∀ q ∈ (Place.held h : Set (Spot H O)), q ∉ (Place.held h₀ : Set (Spot H O)) := by
      intro q hq hq₀
      exact hne (Option.some.inj (hq₀.symm.trans hq))
    refine ExecDone.started ?_ (hstacked.moves hm₃ hapart hd)
    exact ((hm.trans hm₂).mono Set.subset_union_left).trans (hm₃.mono Set.subset_union_right)

/-- The file is loaded, and an argument is wild for the image with its stack. -/
def WildFor (lk : Link) (file : List Byte) (m : Mem) (argv : List (List Byte)) : Prop :=
  ∃ im m₁, loadImage lk file m = (.ok (some im), m₁) ∧ Wild (4096 * (pagesOf im.sz + 2)) argv

theorem exec_spec (hq : s.files.base.Quiet) (hf : Frames lk dirs others loose s.mem)
    (hnone : dirs h = none) (hold : dirs h₀ = some old) (hpgdir : (s.proc p).pgdir = some old)
    (hstack : (s.proc p).kstack ≠ none) (hlen : ∀ arg ∈ argv, arg.length < 2 ^ 31)
    (hcount : argv.length ≤ maxArg) :
    wp (exec lk fmt p cwd path file argv) (ExecDone lk others dirs loose h h₀ p path argv s)
      (fun e _ => e = .vm .nullPte ∧ WildFor lk file s.mem argv ∨ ∃ r, e = .files (.base r)) s := by
  have hfree : ∀ i, i ∉ s.files.base.locked := by simp [hq.unlocked]
  have hne : h₀ ≠ h := by
    rintro rfl
    simp [hnone] at hold
  simp only [exec, onTree, wp_bind, wp_beginOp, wp_onFiles, OpenFiles.wp_lift]
  refine namei_spec hq.settled hq.unlocked (fun r _ _ => .inr ⟨r, rfl⟩) (fun _ => ?_) ?_
  · change ExecDone _ _ _ _ _ _ _ _ _ _ _ ((s.setMem s.mem).setOutstanding (s.outstanding + 1 - 1))
    rw [setOutstanding_back]
    exact ExecDone.failed (Moves.refl hf)
  · intro i k' hres hk
    simp only [wp_bind, wp_endOp, wp_onFiles, OpenFiles.wp_lift]
    refine wp_ilock hq.settled hk (hfree i) (fun hi => ?_) fun _ _ => .inr ⟨_, rfl⟩
    rw [wp_onMem]
    obtain ⟨r, m₁, hload, hloaded⟩ := wp_returns (loadImage_spec hf hnone file) fun _ _ => id
    change wp _ _ _ s.mem
    rw [wp_iff_of_ok hload]
    refine wp_iunlockput hq.settled (hfree i) ?_
    rw [hq.settled.sweep_eq (Set.notMem_empty i) hi]
    change wp _ _ _ ((s.setMem m₁).setOutstanding (s.outstanding + 1 - 1))
    rw [setOutstanding_back]
    cases r with
    | none => exact ExecDone.failed hloaded
    | some im =>
      obtain ⟨hm, hs, hfull⟩ := hloaded
      exact wp_mono (exec_loaded hnone hne hold hpgdir hstack hlen hcount hm hs hfull)
        (fun _ _ hdone => hdone) fun _ _ hstop => .inl ⟨hstop.1, im, m₁, hload, hstop.2⟩

/-- `exec` of the root directory's inode, which the walk and `ilock` leave as it is. -/
theorem exec_root {Q : ℤ → Kernel → Prop} {im : Option Image} {m₁ : Mem}
    (hfiles : s.files = firstFiles) (hload : loadImage lk file s.mem = (.ok im, m₁))
    (hrest : match im with
      | none => Q (-1) (s.setMem m₁)
      | some im => wp (onMem (setupStack lk im.pgdir im.sz argv) >>= fun r => match r with
          | none => pure (-1)
          | some (sz, sp) => commit lk p [slash] im sz sp) Q E (s.setMem m₁)) :
    wp (exec lk tinyFormat p rootIno [slash] file argv) Q E s := by
  have hq := firstTree_quiet
  have hfree : ∀ i, i ∉ firstTree.locked := by simp [hq.unlocked]
  -- the walk does not stop here, and its end is known from the specification
  obtain ⟨t, hnamei⟩ := ok_of_toOption (x := namei tinyFormat rootIno [slash])
    (s := firstTree) (some rootIno) (by decide)
  have hspec : wp (namei tinyFormat rootIno [slash])
      (fun r k' => ∀ i, r = some i → firstTree.Held i k') (fun _ _ => True) firstTree :=
    namei_spec hq.settled hq.unlocked (fun _ _ _ => trivial)
      (fun _ _ heq => absurd heq (Option.some_ne_none _).symm)
      fun i k' _ hk j heq => Option.some.inj heq ▸ hk
  have hheld := wp_ok hspec hnamei rootIno rfl
  simp only [exec, onTree, wp_bind, wp_beginOp, wp_onFiles, OpenFiles.wp_lift]
  have hbase : (s.setOutstanding (s.outstanding + 1)).files = firstFiles := hfiles
  rw [hbase]
  change wp _ _ _ firstTree
  rw [wp_iff_of_ok hnamei]
  simp only [wp_bind, wp_endOp, wp_onFiles, OpenFiles.wp_lift]
  refine wp_ilock hq.settled hheld (hfree _) (fun hi => ?_) fun hi => absurd hi (by decide)
  rw [wp_onMem]
  change wp _ _ _ s.mem
  rw [wp_iff_of_ok hload]
  refine wp_iunlockput hq.settled (hfree _) ?_
  have hback : ((s.setMem m₁).setFiles firstFiles).setOutstanding (s.outstanding + 1 - 1) =
      s.setMem m₁ := by
    rw [Int.add_sub_cancel, ← hfiles]
    rfl
  change wp _ _ _ (((s.setMem m₁).setFiles firstFiles).setOutstanding (s.outstanding + 1 - 1))
  rw [hback]
  cases im with
  | none => exact hrest
  | some im => exact hrest

/-- `ls /` -/
def argsLs : List (List Byte) := [[0x6c, 0x73], [0x2f]]

theorem start_of_room {im : Image} (hf : Frames lk dirs others loose s.mem)
    (hd : dirs h = some im.pgdir) (hold : dirs h₀ = some old) (hpgdir : (s.proc p).pgdir = some old)
    (hstack : (s.proc p).kstack ≠ none) (hs : Space s.mem im.pgdir im.sz)
    (hfull : Full s.mem im.pgdir im.sz) (hlen : ∀ arg ∈ argv, arg.length < 2 ^ 31)
    (hcount : argv.length ≤ maxArg) (hroom : ¬ NoRoom s.mem im.sz argv) :
    wp (onMem (setupStack lk im.pgdir im.sz argv) >>= fun r => match r with
        | none => pure (-1)
        | some (sz, sp) => commit lk p path im sz sp) (fun r _ => r = 0) (fun _ _ => False) s := by
  rw [wp_bind, wp_onMem]
  refine wp_mono (setupStack_spec hf hd hs hfull hlen hcount) ?_ ?_
  · rintro (- | ⟨sz, esp⟩) m₂ hpost
    · exact absurd hpost.2.1 hroom
    · exact wp_mono
        (commit_spec (s := s.setMem m₂) hpost.1.frames hold hpgdir hstack path im sz esp)
        (fun _ _ hdone => hdone.1) fun _ _ hstop => hstop
  · rintro e _ ⟨-, hwild⟩
    have hlong := hwild.long
    exact hroom (.inr (by omega))

theorem exec_empty (hfiles : s.files = firstFiles) (hf : Frames lk dirs others loose s.mem)
    (hnone : dirs h = none) (hold : dirs h₀ = some old) (hpgdir : (s.proc p).pgdir = some old)
    (hstack : (s.proc p).kstack ≠ none) (hstock : 2000 ≤ s.mem.stock) :
    wp (exec lk tinyFormat p rootIno [slash] emptyProgram argsLs) (fun r _ => r = 0)
      (fun _ _ => False) s := by
  have hne : h₀ ≠ h := by
    rintro rfl
    simp [hnone] at hold
  obtain ⟨_, m₁, hload, ⟨im, rfl, hsz, hleft⟩, hm, hs, hfull⟩ :=
    wp_returns (wp_and (loadImage_empty hf hnone (by omega)) (loadImage_spec hf hnone emptyProgram))
      fun _ _ hstop => hstop.1
  have hold' : update dirs h (some im.pgdir) h₀ = some old := by
    rw [update_of_ne hne, hold]
  have hzero : pagesOf im.sz = 0 := by
    rw [hsz]
    rfl
  refine exec_root hfiles hload (start_of_room (s := s.setMem m₁) hm.frames (update_self ..) hold'
    hpgdir hstack hs hfull (by decide) (by decide) ?_)
  have hsize : stackSize argsLs + 4 * (argsLs.length + 4) = 32 := by decide
  rintro ((hbig | hshort) | hlong)
  · omega
  · have hshort : m₁.stock ≤ 1026 := hshort
    omega
  · omega

/-- A program that `exec` has started finds its arguments. -/
theorem exec_passes (hq : s.files.base.Quiet) (hf : Frames lk dirs others loose s.mem)
    (hnone : dirs h = none) (hold : dirs h₀ = some old) (hpgdir : (s.proc p).pgdir = some old)
    (hstack : (s.proc p).kstack ≠ none) (hlen : ∀ arg ∈ argv, arg.length < 2 ^ 31)
    (hargc : argv.length < maxArg) (hrun : exec lk fmt p cwd path file argv s = (.ok 0, s')) :
    ∃ d ptrs, (s'.proc p).pgdir = some d ∧
      Passed s'.mem d (s'.proc p).sz (s'.proc p).esp ptrs argv := by
  have hdone := wp_ok (exec_spec hq hf hnone hold hpgdir hstack hlen (Nat.le_of_lt hargc)) hrun
  generalize hr : (0 : ℤ) = r at hdone
  cases hdone with
  | failed hm => exact absurd hr (by decide)
  | @started m' im sz esp hm hstacked =>
    obtain ⟨ptrs, hpassed⟩ := hstacked.passed
    refine ⟨im.pgdir, ptrs, ?_, ?_⟩
    · rw [proc_setMem, proc_execed]
    · rw [proc_setMem, proc_execed]
      exact hpassed

theorem exec_passes_ls : ∃ (s s' : Kernel) (d : ℕ) (ptrs : List (BitVec 32)),
    exec smallLink tinyFormat 0 rootIno [slash] emptyProgram argsLs s = (.ok 0, s') ∧
      Passed s'.mem d (s'.proc 0).sz (s'.proc 0).esp ptrs argsLs := by
  obtain ⟨s, old, hf, hsized, -, -, -, -, -, hfiles, hstock⟩ := exists_process
  have hold := update_self false (some old) fun _ => none
  have hquiet : s.files.base.Quiet := by
    rw [hfiles]
    exact firstTree_quiet
  obtain ⟨r, s', hrun, rfl⟩ := wp_returns (exec_empty (h := true) hfiles hf rfl hold hsized.pgdir
    hsized.kstack (by omega)) fun _ _ => id
  obtain ⟨d, ptrs, -, hpassed⟩ := exec_passes (h := true) hquiet hf rfl hold hsized.pgdir
    hsized.kstack (by decide) (by decide) hrun
  exact ⟨s, s', d, ptrs, hrun, hpassed⟩

end Whole

end Xv6.Process

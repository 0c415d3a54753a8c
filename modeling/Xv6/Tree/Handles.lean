import Mathlib.Algebra.BigOperators.Fin
import Xv6.Tree.Deadlock

/-!
# Descriptors and the files they refer to

`ref` of a file structure counts the descriptors that refer to it, over all processes. The
calls move it together with the descriptors: `sys_open` and `sys_dup` fill one descriptor,
`sys_close` empties one, `fork` copies all of a process and `exit` empties all of them.
-/

namespace Xv6.Tree

open Routine Function Nat Kernel

variable {P : Type} {fmt : Format} {devsw : Devices} {k k' : Kernel P} {f : Fin nFile}
  {fd : Fin nOFile} {cwd : ℕ}

def held (r : Option Proc) (f : Fin nFile) : ℕ :=
  ∑ fd, if (r.bind fun pr => pr.ofile fd) = some f then 1 else 0

theorem held_none : held none f = 0 := by simp [held]

theorem held_update (pr : Proc) (fd : Fin nOFile) (o : Option (Fin nFile)) :
    held (some { pr with ofile := update pr.ofile fd o }) f +
        (if pr.ofile fd = some f then 1 else 0) =
      held (some pr) f + if o = some f then 1 else 0 :=
  Counting.sum_apply_update Finset.univ (Finset.mem_univ fd) pr.ofile o
    fun o => if o = some f then 1 else 0

namespace Kernel

variable [Fintype P]

def handles (k : Kernel P) (f : Fin nFile) : ℕ :=
  (Finset.univ.filter fun x : P × Fin nOFile => k.ofile x.1 x.2 = some f).card

def Handled (k : Kernel P) : Prop := ∀ f, (k.file f).ref = k.handles f

omit [Fintype P] in
theorem ref_modifyFile (g : File → File) (f' : Fin nFile) :
    ((k.modifyFile f g).file f').ref = if f' = f then (g (k.file f)).ref else (k.file f').ref := by
  by_cases hf : f' = f
  · subst hf
    rw [if_pos rfl, file_modifyFile_self]
  · rw [if_neg hf]
    exact congrArg File.ref (update_of_ne hf ..)

theorem handles_eq : k.handles f = ∑ p, held (k.proc p) f := by
  rw [handles, Finset.card_filter, Fintype.sum_prod_type]
  rfl

theorem handles_congr (h : k'.proc = k.proc) : k'.handles f = k.handles f := by
  rw [handles_eq, handles_eq, h]

theorem Handled.congr (h : k.Handled) (href : ∀ f, (k'.file f).ref = (k.file f).ref)
    (hproc : k'.proc = k.proc) : k'.Handled := by
  intro f
  rw [href, handles_congr hproc]
  exact h f

variable [DecidableEq P] {p : P} {pr : Proc}

theorem handles_setProc (p : P) (r : Option Proc) :
    (k.setProc p r).handles f + held (k.proc p) f = k.handles f + held r f := by
  rw [handles_eq, handles_eq]
  exact Counting.sum_apply_update Finset.univ (Finset.mem_univ p) k.proc r fun r => held r f

theorem handles_setOfile (hp : k.proc p = some pr) (fd : Fin nOFile) (o : Option (Fin nFile)) :
    (k.setOfile p fd o).handles f + (if k.ofile p fd = some f then 1 else 0) =
      k.handles f + if o = some f then 1 else 0 := by
  have hproc := handles_setProc (k := k) (f := f) p (some { pr with ofile := update pr.ofile fd o })
  have hheld := held_update (f := f) pr fd o
  have hset : (k.setOfile p fd o).handles f =
      (k.setProc p (some { pr with ofile := update pr.ofile fd o })).handles f := by
    rw [setOfile, modifyProc, hp]
    rfl
  have hofile : k.ofile p fd = pr.ofile fd := by
    rw [ofile, hp]
    rfl
  rw [hp] at hproc
  rw [hset, hofile]
  omega

theorem Handled.setOfile (h : k.Handled) (hp : k.proc p = some pr) {o : Option (Fin nFile)}
    (hproc : k'.proc = (k.setOfile p fd o).proc)
    (hfile : ∀ f, (k'.file f).ref + (if k.ofile p fd = some f then 1 else 0) =
      (k.file f).ref + if o = some f then 1 else 0) : k'.Handled := by
  intro f
  have hcount := handles_setOfile (f := f) hp fd o
  have hmove := hfile f
  have hbefore := h f
  rw [handles_congr hproc]
  omega

theorem Handled.fill (h : k.Handled) (hp : k.proc p = some pr) (hfd : k.ofile p fd = none)
    {g : File → File} (hg : (g (k.file f)).ref = (k.file f).ref + 1)
    (hproc : k'.proc = (k.setOfile p fd (some f)).proc)
    (hfile : k'.file = (k.modifyFile f g).file) : k'.Handled := by
  refine h.setOfile hp hproc fun f' => ?_
  rw [hfile, ref_modifyFile, hfd]
  by_cases hf : f' = f
  · subst hf
    simp [hg]
  · simp [hf, Ne.symm hf]

theorem Handled.clear (h : k.Handled) (hp : k.proc p = some pr) (hfd : k.ofile p fd = some f)
    {g : File → File} (hg : (g (k.file f)).ref + 1 = (k.file f).ref)
    (hproc : k'.proc = (k.setOfile p fd none).proc) (hfile : k'.file = (k.modifyFile f g).file) :
    k'.Handled := by
  refine h.setOfile hp hproc fun f' => ?_
  rw [hfile, ref_modifyFile, hfd]
  by_cases hf : f' = f
  · subst hf
    simp [hg]
  · simp [hf, Ne.symm hf]

end Kernel

def File.dropped (x : File) : File :=
  if 1 < x.ref then { x with ref := x.ref - 1 } else { x with ref := 0, type := .none }

theorem File.ref_dropped {x : File} (h : 0 < x.ref) : x.dropped.ref + 1 = x.ref := by
  unfold File.dropped
  split
  · exact Nat.sub_add_cancel h
  · show 0 + 1 = x.ref
    omega

theorem iput_file (i : ℕ) :
    wp (iput i) (fun _ k' => k'.file = k.file ∧ k'.proc = k.proc) (fun _ _ => True) k := by
  simp only [iput, wp_bind, wp_look, wp_ite, wp_stop, wp_update]
  exact ⟨fun _ => trivial, fun _ => ⟨file_put, proc_put⟩⟩

theorem fileclose_file :
    wp (fileclose f)
      (fun _ k' => 0 < (k.file f).ref ∧ k'.file = (k.modifyFile f File.dropped).file ∧
        k'.proc = k.proc)
      (fun _ _ => True) k := by
  simp only [fileclose, wp_bind, wp_look, wp_ite, wp_stop, wp_update, wp_pure]
  refine ⟨fun _ => trivial, fun hpos => ⟨fun hmore => ?_, fun hlast => ?_⟩⟩
  · refine ⟨lt_of_succ_lt hmore, ?_, rfl⟩
    show update _ _ _ = update _ _ _
    rw [File.dropped, if_pos hmore]
  · have hfile : (k.modifyFile f fun x => { x with ref := 0, type := .none }).file =
        (k.modifyFile f File.dropped).file := by
      show update _ _ _ = update _ _ _
      rw [File.dropped, if_neg hlast]
    have hpos : 0 < (k.file f).ref := not_lt.1 hpos
    refine ⟨fun _ => wp_mono (iput_file _) ?_ fun _ _ h => h, fun _ => ⟨hpos, hfile, rfl⟩⟩
    rintro _ k' ⟨hfile', hproc⟩
    exact ⟨hpos, hfile'.trans hfile, hproc⟩

theorem filedup_file :
    wp (filedup f) (fun _ k' => 0 < (k.file f).ref ∧
        k' = k.modifyFile f fun x => { x with ref := x.ref + 1 })
      (fun _ _ => True) k := by
  simp only [filedup, wp_bind, wp_look, wp_ite, wp_stop, wp_update]
  exact ⟨fun _ => trivial, fun hpos => ⟨not_lt.1 hpos, trivial⟩⟩

theorem argfd_spec {p : P} {Q : Option (Fin nOFile × Fin nFile) → Kernel P → Prop}
    {E : Stop → Kernel P → Prop} (fd : ℤ) (hnone : Q none k)
    (hsome : ∀ n f, k.ofile p n = some f → Q (some (n, f)) k) : wp (argfd p fd) Q E k := by
  rw [argfd, wp_look]
  split
  · cases hf : k.ofile p ⟨fd.toNat, by omega⟩ with
    | none =>
      rw [show Option.map _ _ = none from congrArg _ hf]
      exact hnone
    | some f =>
      rw [show Option.map _ _ = some _ from congrArg _ hf]
      exact hsome _ f hf
  · exact hnone

def Lasting (k k' : Kernel P) : Prop :=
  ∀ f, (k.file f).ref ≠ 0 → (k'.file f).ref ≠ 0 ∧ (k'.file f).type = (k.file f).type ∧
    (k'.file f).writable = (k.file f).writable

theorem Lasting.of_file (h : k'.file = k.file) : Lasting k k' := by
  intro f hf
  rw [h]
  exact ⟨hf, rfl, rfl⟩

theorem Lasting.trans {k'' : Kernel P} (h : Lasting k k') (h' : Lasting k' k'') :
    Lasting k k'' := by
  intro f hf
  obtain ⟨hr, ht, hw⟩ := h f hf
  obtain ⟨hr', ht', hw'⟩ := h' f hr
  exact ⟨hr', ht'.trans ht, hw'.trans hw⟩

theorem lasting_filedup (k : Kernel P) (f : Fin nFile) :
    Lasting k (k.modifyFile f fun x => { x with ref := x.ref + 1 }) := by
  intro f' hf'
  by_cases hf : f' = f
  · subst hf
    rw [file_modifyFile_self]
    exact ⟨succ_ne_zero _, rfl, rfl⟩
  · rw [show (k.modifyFile f fun x => { x with ref := x.ref + 1 }).file f' = k.file f' from
      update_of_ne hf ..]
    exact ⟨hf', rfl, rfl⟩

theorem lasting_modifyFile (href : (k.file f).ref = 0) (g : File → File) :
    Lasting k (k.modifyFile f g) := by
  intro f' hf'
  have hf : f' ≠ f := by
    rintro rfl
    exact hf' href
  rw [show (k.modifyFile f g).file f' = k.file f' from update_of_ne hf ..]
  exact ⟨hf', rfl, rfl⟩

theorem dupFiles_ref {p : P} (fds : List (Fin nOFile)) :
    wp (dupFiles p fds) (fun _ k' => k'.proc = k.proc ∧ Lasting k k' ∧ ∀ f, (k'.file f).ref =
        (k.file f).ref + (fds.map fun fd => if k.ofile p fd = some f then 1 else 0).sum)
      (fun _ _ => True) k := by
  induction fds generalizing k with
  | nil => exact ⟨rfl, .of_file rfl, fun _ => rfl⟩
  | cons fd fds ih =>
    simp only [dupFiles, wp_bind, wp_look]
    cases hfd : k.ofile p fd with
    | none =>
      refine wp_mono ih ?_ fun _ _ _ => trivial
      rintro _ k' ⟨hproc, hlasting, href⟩
      refine ⟨hproc, hlasting, fun f => ?_⟩
      rw [href f, List.map_cons, List.sum_cons, hfd]
      simp
    | some f₀ =>
      rw [wp_bind]
      refine wp_mono filedup_file ?_ fun _ _ _ => trivial
      rintro _ k₁ ⟨-, rfl⟩
      refine wp_mono ih ?_ fun _ _ _ => trivial
      rintro _ k' ⟨hproc, hlasting, href⟩
      refine ⟨hproc, (lasting_filedup k f₀).trans hlasting, fun f => ?_⟩
      rw [href f, List.map_cons, List.sum_cons, hfd, ref_modifyFile]
      by_cases hf : f = f₀
      · subst hf
        rw [if_pos rfl, if_pos rfl]
        exact add_assoc _ 1 _
      · have hne : ¬ some f₀ = some f := fun heq => hf (Option.some.inj heq).symm
        rw [if_neg hf, if_neg hne, zero_add]
        rfl

section Calls

variable [Fintype P] [DecidableEq P] {p : P} {pr : Proc} {path : Path}

def Moved (k k' : Kernel P) : Prop := k'.Handled ∧ Lasting k k'

omit [DecidableEq P] in
theorem Moved.of_same (h : k.Handled) (hfile : k'.file = k.file) (hproc : k'.proc = k.proc) :
    Moved k k' :=
  ⟨h.congr (fun f => by rw [hfile]) hproc, .of_file hfile⟩

theorem OpenedFile.moved (h : k.Handled) (hp : k.proc p = some pr) {i : ℕ} {omode : BitVec 32}
    {r : ℤ} (ho : OpenedFile k p i omode r k') : Moved k k' := by
  rcases ho with ⟨-, rfl, -⟩ | ⟨f, fd, -, href, hfd, rfl⟩
  · exact .of_same h rfl rfl
  · constructor
    · refine h.fill hp hfd (g := fun x => ({ x with ref := 1 } : File).opened i omode) ?_ rfl rfl
      rw [href]
      rfl
    · exact lasting_modifyFile (k := k.pin i) href fun x =>
        ({ x with ref := 1 } : File).opened i omode

theorem sysOpen_moved (h : k.Quiet) (hh : k.Handled) (hp : k.proc p = some pr) (omode : BitVec 32) :
    wp (sysOpen fmt p cwd path omode) (fun _ k' => Moved k k') (fun _ _ => True) k := by
  refine wp_mono (sysOpen_spec h omode) ?_ fun _ _ _ => trivial
  rintro r k' (⟨-, rfl, -⟩ | ⟨i, k₁, hopens, hfile⟩)
  · exact .of_same hh rfl rfl
  · have hmoved : Moved k k₁ := .of_same hh hopens.file hopens.proc
    have hp₁ : k₁.proc p = some pr := by
      rw [hopens.proc]
      exact hp
    obtain ⟨hhandled, hlasting⟩ := hfile.moved hmoved.1 hp₁
    exact ⟨hhandled, hmoved.2.trans hlasting⟩

theorem sysDup_moved (h : k.Handled) (hp : k.proc p = some pr) (fd : ℤ) :
    wp (sysDup p fd) (fun _ k' => Moved k k') (fun _ _ => True) k := by
  rw [sysDup, wp_bind]
  refine argfd_spec fd (.of_same h rfl rfl) fun n f hn => ?_
  rw [wp_bind]
  refine fdalloc_spec (fun _ => .of_same h rfl rfl) fun fd' hfd' => ?_
  simp only [wp_bind, wp_pure]
  refine wp_mono filedup_file ?_ fun _ _ _ => trivial
  rintro _ k' ⟨-, rfl⟩
  exact ⟨h.fill hp hfd' (g := fun x => { x with ref := x.ref + 1 }) rfl rfl rfl,
    lasting_filedup k f⟩

theorem sysChdir_moved (h : k.Quiet) (hh : k.Handled) (hp : k.proc p = some pr) :
    wp (sysChdir fmt p pr.cwd path) (fun _ k' => Moved k k') (fun _ _ => True) k := by
  refine wp_mono (sysChdir_spec h hp) ?_ fun _ _ _ => trivial
  rintro _ k' (⟨-, rfl⟩ | ⟨-, i, -, rfl⟩)
  · exact .of_same hh rfl rfl
  · have hfile : (((k.pin i).put pr.cwd).setProc p (some { pr with cwd := i })).file = k.file :=
      file_put
    refine ⟨fun f => ?_, .of_file hfile⟩
    have hproc : ((k.pin i).put pr.cwd).proc = k.proc := proc_put
    have hcount := handles_setProc (k := (k.pin i).put pr.cwd) (f := f) p
      (some { pr with cwd := i })
    rw [handles_congr hproc, hproc, hp] at hcount
    rw [hfile, hh f]
    exact (add_right_cancel hcount).symm

theorem fork_moved (h : k.Handled) {child : P} (hchild : k.proc child = none) :
    wp (fork p child cwd) (fun _ k' => Moved k k') (fun _ _ => True) k := by
  simp only [fork, wp_bind, idup, wp_update, wp_pure]
  refine wp_mono (dupFiles_ref _) ?_ fun _ _ _ => trivial
  rintro _ k₁ ⟨hproc, hlasting, href⟩
  refine ⟨fun f => ?_, hlasting⟩
  have hcount := handles_setProc (k := k₁.hold cwd) (f := f) child (k.proc p)
  have hsum : held (k.proc p) f =
      ((List.finRange nOFile).map fun fd => if k.ofile p fd = some f then 1 else 0).sum :=
    Fin.sum_univ_def _
  have hsame : (k₁.hold cwd).proc = k.proc := hproc
  rw [hsame, hchild, held_none, handles_congr hsame, hsum] at hcount
  have hf := href f
  have hbefore := h f
  have hset : (k₁.hold cwd).proc p = k.proc p := congrFun hsame p
  rw [hset]
  show (k₁.file f).ref = _
  omega

def Call.keepsFiles : Call P → Bool
  | .sysOpen _ _ | .sysLink _ _ | .sysUnlink _ | .sysMkdir _ | .sysMknod _ _ _
  | .sysChdir _ | .sysDup _ | .exec _ _ | .fork _ => true
  | .sysRead _ _ | .sysWrite _ _ | .sysFstat _ | .sysClose _ | .exit => false

theorem call_moved (devsw : Devices) {c : Call P} (h : Orderly fmt k) (hh : k.Handled)
    (hp : k.proc p = some pr) (hc : c.keepsFiles = true)
    (hfork : ∀ child, c = .fork child → k.proc child = none) :
    wp (c.run fmt devsw p pr.cwd) (fun _ k' => Moved k k') (fun _ _ => True) k := by
  have hq := h.quiet
  cases c with
  | sysOpen path omode => exact sysOpen_moved hq hh hp omode
  | sysLink old new =>
    refine wp_mono (sysLink_spec hq.settled hq.unlocked) ?_ fun _ _ _ => trivial
    rintro _ k' ⟨-, ⟨-, rfl⟩ | ⟨-, i, dp, name, -, rfl⟩⟩
    · exact .of_same hh rfl rfl
    · exact .of_same hh (file_sweep.trans file_sweep)
        (proc_sweep.trans proc_sweep)
  | sysUnlink path =>
    refine wp_mono (sysUnlink_spec hq.settled hq.unlocked h.proper) ?_ fun _ _ _ => trivial
    rintro _ k' (⟨-, rfl⟩ | ⟨-, dp, i, off, -, rfl⟩)
    · exact .of_same hh rfl rfl
    · exact .of_same hh (file_sweep.trans file_sweep)
        (proc_sweep.trans proc_sweep)
  | sysMkdir | sysMknod =>
    refine wp_mono (make_spec hq (by decide) (by decide) _ _) ?_ fun _ _ _ => trivial
    rintro _ k' (⟨-, rfl⟩ | ⟨-, dp, name, i, -, rfl⟩)
    · exact .of_same hh rfl rfl
    · exact .of_same hh file_sweep proc_sweep
  | sysChdir path => exact sysChdir_moved hq hh hp
  | sysDup fd => exact sysDup_moved hh hp fd
  | exec path reads =>
    refine wp_mono (exec_spec hq reads) ?_ fun _ _ _ => trivial
    rintro _ k' rfl
    exact .of_same hh rfl rfl
  | fork child => exact fork_moved hh (hfork child rfl)
  | _ => cases hc

end Calls

end Xv6.Tree

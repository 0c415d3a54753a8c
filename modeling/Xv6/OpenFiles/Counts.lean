import Xv6.OpenFiles.Model

/-!
# Reference counts

Between two system calls every reference count is the number of references there are: `ref`
of a file structure counts the descriptors that refer to it, `ref` of a cached inode counts
the open files on it and the processes in it, and the two flags of a pipe say whether there
is an open file for that end. A page belongs to a pipe as long as one end is open.

The calls of `Xv6.Tree` leave the file structures in use as they are, so that pipes do not
notice them. What is left to show is about the three calls that know of pipes: `sys_close`
and `exit`, which close file structures one by one, and `sys_pipe` with its four ways to
fail.
-/

namespace Xv6.OpenFiles

open Routine Function Kernel Xv6.Tree.Kernel Xv6.Tree

variable {f₀ f₁ : Fin nFile} {pr : Proc} {fd : Fin nOFile}

variable {P Page : Type} {fmt : Format} {devsw : Devices} {s s' : Kernel P Page}
  {k : Tree.Kernel P} {f f' : Fin nFile} {pg : Page} {w : Bool} {e : Ends} {pg' : Page}
  {free : Option Page}

section Lift

variable {α : Type} {x : Tree.KernelM P α} {Q : α → Kernel P Page → Prop}
  {E : Stop → Kernel P Page → Prop}

@[simp] theorem wp_lift : wp (lift x) Q E s ↔
      wp x (fun a k => Q a (s.setBase k)) (fun r k => E (.base r) (s.setBase k)) s.base := by
  simp only [wp, lift]
  rcases x s.base with ⟨r, k⟩
  cases r with
  | ok a => rfl
  | error r => rfl

end Lift

def Ends.get (e : Ends) (w : Bool) : Bool := if w = true then e.writeopen else e.readopen

theorem Ends.get_close (e : Ends) (w w' : Bool) :
    (e.close w).get w' = if w' = w then false else e.get w' := by
  cases w <;> cases w' <;> rfl

theorem Ends.both_closed (e : Ends) :
    (e.readopen = false ∧ e.writeopen = false) ↔ ∀ w, e.get w = false := by
  constructor
  · rintro ⟨hr, hw⟩ w
    cases w with
    | false => exact hr
    | true => exact hw
  · intro h
    exact ⟨h false, h true⟩

section Pipes

def Kernel.EndOf (s : Kernel P Page) (pg : Page) (w : Bool) (f : Fin nFile) : Prop :=
  s.pipe f = some pg ∧ (s.base.file f).writable = w

/-- Pipes and the file structures that are open on them. -/
structure Kernel.Piped (s : Kernel P Page) : Prop where
  inUse : ∀ f, s.pipe f ≠ none → (s.base.file f).ref ≠ 0
  plain : ∀ f, s.pipe f ≠ none → (s.base.file f).type = .none
  unique : ∀ pg w f f', s.EndOf pg w f → s.EndOf pg w f' → f = f'
  flag : ∀ pg e, s.page pg = some e → ∀ w, e.get w = true ↔ ∃ f, s.EndOf pg w f
  live : ∀ pg e, s.page pg = some e → ∃ w, e.get w = true
  freed : ∀ pg, s.page pg = none → ∀ f, s.pipe f ≠ some pg

theorem Kernel.Piped.setBase (h : s.Piped) (hkeep : ∀ f, s.pipe f ≠ none → (k.file f).ref ≠ 0 ∧
      (k.file f).type = (s.base.file f).type ∧
      (k.file f).writable = (s.base.file f).writable) : (s.setBase k).Piped := by
  have hend : ∀ pg w f, (s.setBase k).EndOf pg w f ↔ s.EndOf pg w f := by
    intro pg w f
    constructor
    · rintro ⟨hpipe, hw⟩
      refine ⟨hpipe, ?_⟩
      have hpipe : s.pipe f = some pg := hpipe
      rw [← (hkeep f (by simp [hpipe])).2.2]
      exact hw
    · rintro ⟨hpipe, hw⟩
      refine ⟨hpipe, ?_⟩
      rw [← hw]
      exact (hkeep f (by simp [hpipe])).2.2
  refine ⟨fun f hf => (hkeep f hf).1, fun f hf => ?_, ?_, ?_, h.live, h.freed⟩
  · exact ((hkeep f hf).2.1).trans (h.plain f hf)
  · intro pg w f f' hf hf'
    exact h.unique pg w f f' ((hend pg w f).1 hf) ((hend pg w f').1 hf')
  · intro pg e he w
    rw [h.flag pg e he w]
    exact exists_congr fun f => (hend pg w f).symm

theorem Kernel.Piped.lasting (h : s.Piped) (hlasting : Lasting s.base k) :
    (s.setBase k).Piped :=
  h.setBase fun f hf => hlasting f (h.inUse f hf)

theorem Kernel.Piped.setPlain (h : s.Piped) (hpipe : s.pipe f = none) {g : Tree.File → Tree.File}
    (hfile : k.file = (s.base.modifyFile f g).file) : ((s.setBase k).setPipe f none).Piped := by
  have hsame : (s.setBase k).setPipe f none = s.setBase k := by
    simp [Kernel.setPipe, Kernel.setBase, ← hpipe]
  rw [hsame]
  refine h.setBase fun f' hf' => ?_
  have hff : f' ≠ f := by
    rintro rfl
    exact hf' hpipe
  have hkeep : (s.base.modifyFile f g).file f' = s.base.file f' := update_of_ne hff ..
  rw [hfile, hkeep]
  exact ⟨h.inUse f' hf', rfl, rfl⟩

theorem Kernel.Piped.exists_page (h : s.Piped) (hf : s.pipe f = some pg) :
    ∃ e, s.page pg = some e := by
  cases he : s.page pg with
  | none => exact absurd hf (h.freed pg he f)
  | some e => exact ⟨e, rfl⟩

/-- The flags of one page agree with the file structures that are open on it. -/
structure Kernel.PageOk (s : Kernel P Page) (pg : Page) : Prop where
  flag : ∀ e, s.page pg = some e → ∀ w, e.get w = true ↔ ∃ f, s.EndOf pg w f
  live : ∀ e, s.page pg = some e → ∃ w, e.get w = true
  freed : s.page pg = none → ∀ f, s.pipe f ≠ some pg

theorem Kernel.Piped.pageOk (h : s.Piped) (pg : Page) : s.PageOk pg :=
  ⟨h.flag pg, h.live pg, h.freed pg⟩

namespace Kernel.PageOk

theorem of_some (hpage : s.page pg = some e) (hflag : ∀ w, e.get w = true ↔ ∃ f, s.EndOf pg w f)
    (hlive : ∃ w, e.get w = true) : s.PageOk pg := by
  have heq : ∀ {e'}, s.page pg = some e' → e = e' :=
    fun he' => Option.some.inj (hpage.symm.trans he')
  refine ⟨fun e' he' => heq he' ▸ hflag, fun e' he' => heq he' ▸ hlive, fun hnone => ?_⟩
  simp [hpage] at hnone

theorem of_none (hpage : s.page pg = none) (hfreed : ∀ f, s.pipe f ≠ some pg) : s.PageOk pg := by
  have hne : ∀ {e}, s.page pg ≠ some e := by simp [hpage]
  exact ⟨fun _ he => absurd he hne, fun _ he => absurd he hne, fun _ => hfreed⟩

theorem congr (h : s.PageOk pg) (hpage : s'.page pg = s.page pg)
    (hend : ∀ w f, s'.EndOf pg w f ↔ s.EndOf pg w f) : s'.PageOk pg where
  flag e he w := by
    rw [hpage] at he
    rw [h.flag e he w]
    exact exists_congr fun f => (hend w f).symm
  live e he := h.live e (hpage ▸ he)
  freed hnone f hf := h.freed (hpage ▸ hnone) f ((hend _ f).1 ⟨hf, rfl⟩).1

end Kernel.PageOk

variable [DecidableEq Page]

def Kernel.dropEnd (s : Kernel P Page) (f : Fin nFile) (pg : Page) (e : Ends) : Kernel P Page :=
  let e := e.close (s.base.file f).writable
  ((s.setBase (s.base.modifyFile f fun x => { x with ref := 0, type := .none })).setPipe f
    none).setPage pg (if e.readopen = false ∧ e.writeopen = false then none else some e)

theorem Kernel.endOf_dropEnd (f₀ : Fin nFile) (pg₀ : Page) :
    (s.dropEnd f₀ pg₀ e).EndOf pg w f ↔ f ≠ f₀ ∧ s.EndOf pg w f := by
  by_cases hf : f = f₀
  · subst hf
    simp [EndOf, dropEnd, setPage, setPipe, setBase]
  · simp [EndOf, dropEnd, setPage, setPipe, setBase,
      modifyFile, hf]

theorem Kernel.page_dropEnd_of_ne (h : pg' ≠ pg) :
    (s.dropEnd f pg e).page pg' = s.page pg' := update_of_ne h ..

theorem Kernel.page_dropEnd_self :
    (s.dropEnd f pg e).page pg =
      if ∀ w, (e.close (s.base.file f).writable).get w = false then none
      else some (e.close (s.base.file f).writable) := by
  simp only [← Ends.both_closed]
  exact update_self ..

section

variable (h : s.Piped) (hf : s.pipe f = some pg) (he : s.page pg = some e)
include h hf he

theorem Kernel.Piped.flag_dropEnd (w : Bool) :
    (e.close (s.base.file f).writable).get w = true ↔ ∃ f', (s.dropEnd f pg e).EndOf pg w f' := by
  rw [Ends.get_close]
  simp only [endOf_dropEnd]
  by_cases hw : w = (s.base.file f).writable
  · rw [if_pos hw]
    refine iff_of_false (by simp) ?_
    rintro ⟨f', hne, hend⟩
    exact hne (h.unique pg w f' f hend ⟨hf, hw.symm⟩)
  · rw [if_neg hw, h.flag pg e he w]
    refine exists_congr fun f' => ⟨fun hend => ⟨?_, hend⟩, fun hend => hend.2⟩
    rintro rfl
    exact hw hend.2.symm

theorem Kernel.Piped.pageOk_dropEnd : (s.dropEnd f pg e).PageOk pg := by
  have hflag := h.flag_dropEnd hf he
  by_cases hclosed : ∀ w, (e.close (s.base.file f).writable).get w = false
  · refine .of_none (by rw [page_dropEnd_self, if_pos hclosed]) fun f' hf' => ?_
    have hset := (hflag _).2 ⟨f', hf', rfl⟩
    simp [hclosed] at hset
  · refine .of_some (by rw [page_dropEnd_self, if_neg hclosed]) hflag ?_
    obtain ⟨w, hw⟩ := not_forall.1 hclosed
    exact ⟨w, eq_true_of_ne_false hw⟩

/-- Closing an end clears its flag, and leaves the other pipes alone. -/
theorem Kernel.Piped.dropEnd : (s.dropEnd f pg e).Piped := by
  have hpipe : ∀ f', (s.dropEnd f pg e).pipe f' ≠ none → f' ≠ f ∧ s.pipe f' ≠ none := by
    intro f' hf'
    by_cases hff : f' = f
    · subst hff
      exact absurd (update_self ..) hf'
    · exact ⟨hff, fun hnone => hf' ((update_of_ne hff ..).trans hnone)⟩
  have hfile : ∀ f', f' ≠ f → (s.dropEnd f pg e).base.file f' = s.base.file f' :=
    fun f' hff => update_of_ne hff ..
  have hpage : ∀ pg', (s.dropEnd f pg e).PageOk pg' := by
    intro pg'
    by_cases hpg : pg' = pg
    · subst hpg
      exact h.pageOk_dropEnd hf he
    · refine (h.pageOk pg').congr (page_dropEnd_of_ne hpg) fun w f' => ?_
      rw [endOf_dropEnd]
      refine ⟨fun hend => hend.2, fun hend => ⟨?_, hend⟩⟩
      rintro rfl
      exact hpg (Option.some.inj (hend.1.symm.trans hf))
  refine ⟨?_, ?_, ?_, fun pg' => (hpage pg').flag, fun pg' => (hpage pg').live,
    fun pg' => (hpage pg').freed⟩
  · intro f' hf'
    obtain ⟨hne, hp⟩ := hpipe f' hf'
    rw [hfile f' hne]
    exact h.inUse f' hp
  · intro f' hf'
    obtain ⟨hne, hp⟩ := hpipe f' hf'
    rw [hfile f' hne]
    exact h.plain f' hp
  · intro pg' w f₁ f₂ h₁ h₂
    exact h.unique pg' w f₁ f₂ ((endOf_dropEnd f pg).1 h₁).2 ((endOf_dropEnd f pg).1 h₂).2

end

def Kernel.take (s : Kernel P Page) (f : Fin nFile) : Kernel P Page :=
  s.setBase (s.base.modifyFile f fun x => { x with ref := 1 })

def Kernel.newPipe (s : Kernel P Page) (f₀ f₁ : Fin nFile) (pg : Page) : Kernel P Page :=
  ((((s.take f₀).take f₁).setPage pg (some ⟨true, true⟩)).setEnd f₀ pg false).setEnd f₁ pg true

theorem Kernel.page_newPipe :
    (s.newPipe f₀ f₁ pg).page pg' = if pg' = pg then some ⟨true, true⟩ else s.page pg' := by
  by_cases h : pg' = pg
  · subst h
    simp [newPipe, setEnd, setPipe, setBase, setPage]
  · simp [newPipe, setEnd, setPipe, setBase, setPage, take, h]

theorem Kernel.newPipe_cases (s : Kernel P Page) (hne : f₀ ≠ f₁) (pg : Page) (f : Fin nFile) :
    (f = f₀ ∧ (s.newPipe f₀ f₁ pg).pipe f = some pg ∧ (s.newPipe f₀ f₁ pg).base.file f =
        { s.base.file f with ref := 1, readable := true, writable := false }) ∨
      (f = f₁ ∧ (s.newPipe f₀ f₁ pg).pipe f = some pg ∧ (s.newPipe f₀ f₁ pg).base.file f =
        { s.base.file f with ref := 1, readable := false, writable := true }) ∨
      (f ≠ f₀ ∧ f ≠ f₁ ∧ (s.newPipe f₀ f₁ pg).pipe f = s.pipe f ∧
        (s.newPipe f₀ f₁ pg).base.file f = s.base.file f) := by
  by_cases h₀ : f = f₀
  · subst h₀
    refine .inl ⟨rfl, ?_, ?_⟩
    · simp [newPipe, setEnd, setPipe, setBase, hne]
    · simp [newPipe, setEnd, setPipe, setBase, setPage, take, modifyFile, hne]
  · by_cases h₁ : f = f₁
    · subst h₁
      refine .inr (.inl ⟨rfl, ?_, ?_⟩)
      · simp [newPipe, setEnd, setPipe]
      · simp [newPipe, setEnd, setPipe, setBase, setPage, take, modifyFile, h₀]
    · refine .inr (.inr ⟨h₀, h₁, ?_, ?_⟩)
      · simp [newPipe, setEnd, setPipe, setBase, setPage, take, h₀, h₁]
      · simp [newPipe, setEnd, setPipe, setBase, setPage, take, modifyFile, h₀, h₁]

theorem Kernel.endOf_newPipe (hne : f₀ ≠ f₁) :
    (s.newPipe f₀ f₁ pg).EndOf pg' w f ↔ (pg' = pg ∧ ((f = f₀ ∧ w = false) ∨ (f = f₁ ∧ w = true))) ∨
        (f ≠ f₀ ∧ f ≠ f₁ ∧ s.EndOf pg' w f) := by
  rw [EndOf]
  rcases s.newPipe_cases hne pg f with ⟨rfl, hp, hf⟩ | ⟨rfl, hp, hf⟩ | ⟨h₀, h₁, hp, hf⟩
  · rw [hp, hf]
    simp [hne, eq_comm]
  · rw [hp, hf]
    simp [hne.symm, eq_comm]
  · rw [hp, hf]
    simp [h₀, h₁, EndOf]

theorem Kernel.Piped.pageOk_newPipe (h : s.Piped) (hne : f₀ ≠ f₁) (h₀ : (s.base.file f₀).ref = 0)
    (h₁ : (s.base.file f₁).ref = 0) (pg' : Page) : (s.newPipe f₀ f₁ pg).PageOk pg' := by
  by_cases hpg : pg' = pg
  · subst hpg
    refine .of_some (by rw [page_newPipe, if_pos rfl]) (fun w => ?_) ⟨true, rfl⟩
    cases w with
    | false => exact iff_of_true rfl ⟨f₀, (endOf_newPipe hne).2 (.inl ⟨rfl, .inl ⟨rfl, rfl⟩⟩)⟩
    | true => exact iff_of_true rfl ⟨f₁, (endOf_newPipe hne).2 (.inl ⟨rfl, .inr ⟨rfl, rfl⟩⟩)⟩
  · refine (h.pageOk pg').congr (by rw [page_newPipe, if_neg hpg]) fun w f => ?_
    rw [endOf_newPipe hne]
    constructor
    · rintro (⟨hsame, -⟩ | ⟨-, -, hend⟩)
      · exact absurd hsame hpg
      · exact hend
    · intro hend
      -- an end of a pipe is in use, so it is not one of the new ones
      have hused := h.inUse f (by simp [hend.1])
      refine .inr ⟨?_, ?_, hend⟩
      · rintro rfl
        exact hused h₀
      · rintro rfl
        exact hused h₁

theorem Kernel.Piped.newPipe (h : s.Piped) (hne : f₀ ≠ f₁)
    (hsane : ∀ f, (s.base.file f).ref = 0 → (s.base.file f).type = .none)
    (h₀ : (s.base.file f₀).ref = 0) (h₁ : (s.base.file f₁).ref = 0)
    (hpg : s.page pg = none) : (s.newPipe f₀ f₁ pg).Piped := by
  have hpage : ∀ pg', (s.newPipe f₀ f₁ pg).PageOk pg' := h.pageOk_newPipe hne h₀ h₁
  -- No old end is open on the new page.
  have hold : ∀ w f, ¬ s.EndOf pg w f := fun w f hend => h.freed pg hpg f hend.1
  refine ⟨?_, ?_, ?_, fun pg' => (hpage pg').flag, fun pg' => (hpage pg').live,
    fun pg' => (hpage pg').freed⟩
  · intro f hp
    rcases s.newPipe_cases hne pg f with ⟨-, -, hf⟩ | ⟨-, -, hf⟩ | ⟨-, -, hpf, hf⟩
    · rw [hf]
      exact Nat.one_ne_zero
    · rw [hf]
      exact Nat.one_ne_zero
    · rw [hf]
      exact h.inUse f (hpf ▸ hp)
  · intro f hp
    rcases s.newPipe_cases hne pg f with ⟨rfl, -, hf⟩ | ⟨rfl, -, hf⟩ | ⟨-, -, hpf, hf⟩
    · rw [hf]
      exact hsane f h₀
    · rw [hf]
      exact hsane f h₁
    · rw [hf]
      exact h.plain f (hpf ▸ hp)
  · intro pg' w f f' hf hf'
    rw [endOf_newPipe hne] at hf hf'
    rcases hf with ⟨rfl, hf⟩ | ⟨-, -, hf⟩
    · rcases hf' with ⟨-, hf'⟩ | ⟨-, -, hf'⟩
      · rcases hf with ⟨rfl, rfl⟩ | ⟨rfl, rfl⟩
        · rcases hf' with ⟨rfl, -⟩ | ⟨-, hw⟩
          · rfl
          · cases hw
        · rcases hf' with ⟨-, hw⟩ | ⟨rfl, -⟩
          · cases hw
          · rfl
      · exact absurd hf' (hold w f')
    · rcases hf' with ⟨rfl, -⟩ | ⟨-, -, hf'⟩
      · exact absurd hf (hold w f)
      · exact h.unique pg' w f f' hf hf'

/-- `fileclose` does to file structures what it does without pipes, and keeps the flags of
pipes right. -/
theorem fileclose_spec {R : Tree.Kernel P → Prop} (h : s.Piped)
    (hbase : wp (Tree.fileclose f) (fun _ k => R k) (fun _ _ => True) s.base) :
    wp (fileclose f) (fun _ s' => R s'.base ∧ s'.Piped) (fun r _ => r ≠ .freedPipe) s := by
  simp only [Tree.fileclose, wp_bind, wp_look, wp_ite, wp_stop, wp_update, wp_pure] at hbase
  obtain ⟨-, hbase⟩ := hbase
  simp only [fileclose, wp_bind, wp_look, wp_ite, wp_stop, wp_update]
  refine ⟨fun _ => by simp, fun hpos => ?_⟩
  obtain ⟨hmore, hlast⟩ := hbase hpos
  refine ⟨fun href => ⟨hmore href, ?_⟩, fun href => ?_⟩
  · refine h.setBase fun f' hf' => ?_
    by_cases hff : f' = f
    · subst hff
      rw [file_modifyFile_self]
      exact ⟨Nat.sub_ne_zero_of_lt href, rfl, rfl⟩
    · rw [show (s.base.modifyFile f _).file f' = s.base.file f' from update_of_ne hff ..]
      exact ⟨h.inUse f' hf', rfl, rfl⟩
  · obtain ⟨hinode, hother⟩ := hlast href
    cases hpipe : s.pipe f with
    | some pg =>
      obtain ⟨e, he⟩ := h.exists_page hpipe
      have htype : (s.base.file f).type ≠ .inode := by
        rw [h.plain f (by simp [hpipe])]
        decide
      have hdrop := h.dropEnd hpipe he
      simp only [pipeclose, wp_bind, wp_look]
      rw [show ((s.setBase _).setPipe f none).page pg = some e from he]
      simp only [wp_ite, wp_update]
      constructor
      · intro hclosed
        rw [dropEnd, if_pos hclosed] at hdrop
        exact ⟨hother htype, hdrop⟩
      · intro hopen
        rw [dropEnd, if_neg hopen] at hdrop
        exact ⟨hother htype, hdrop⟩
    | none =>
      simp only [wp_ite, wp_lift, wp_pure]
      refine ⟨fun hin => ?_, fun hin => ⟨hother hin, h.setPlain hpipe rfl⟩⟩
      refine wp_mono (wp_and (hinode hin) (iput_file _)) ?_ fun _ _ _ => by simp
      rintro _ k ⟨hR, hfile, -⟩
      exact ⟨hR, h.setPlain hpipe hfile⟩

end Pipes

/-- Every reference count is the number of references. -/
structure Exact [Fintype P] (fmt : Format) (s : Kernel P Page) : Prop where
  orderly : Orderly fmt s.base
  handled : s.base.Handled
  piped : s.Piped

section Close

variable [Fintype P] [DecidableEq P] [DecidableEq Page] {p : P}

omit [DecidableEq P] in
theorem fileclose_base (h : Orderly fmt k) :
    wp (Tree.fileclose f) (fun _ k' => Orderly fmt k' ∧ 0 < (k.file f).ref ∧
        k'.file = (k.modifyFile f File.dropped).file ∧ k'.proc = k.proc)
      (fun _ _ => True) k := by
  refine wp_mono (wp_and (Tree.fileclose_spec h.quiet) fileclose_file) ?_ fun _ _ _ => trivial
  rintro _ k' ⟨⟨hkept, -⟩, hpos, hfile, hproc⟩
  exact ⟨h.kept hkept, hpos, hfile, hproc⟩

theorem Orderly.setOfile (h : Orderly fmt k) (p : P) (fd : Fin nOFile)
    (o : Option (Fin nFile)) : Orderly fmt (k.setOfile p fd o) :=
  ⟨h.quiet.setOfile p fd o, h.proper, h.within⟩

theorem sysClose_exact (h : Exact fmt s) (hp : s.base.proc p = some pr) (fd : ℤ) :
    wp (sysClose p fd) (fun _ s' => Exact fmt s') (fun r _ => r ≠ .freedPipe) s := by
  rw [sysClose, wp_bind, wp_lift]
  refine argfd_spec fd h fun n f hn => ?_
  simp only [wp_bind, wp_update, wp_pure]
  refine wp_mono_post (fileclose_spec ?_ (fileclose_base (Orderly.setOfile h.orderly p n none))) ?_
  · exact h.piped.lasting (.of_file rfl)
  · rintro _ s' ⟨⟨horderly, hpos, hfile, hproc⟩, hpiped⟩
    exact ⟨horderly, h.handled.clear hp hn (File.ref_dropped hpos) hproc hfile, hpiped⟩

/-- The loop of `exit` empties the descriptors one by one. -/
theorem closeFiles_exact (fds : List (Fin nOFile)) (h : Exact fmt s)
    (hp : s.base.proc p = some pr) :
    wp (closeFiles p fds)
      (fun _ s' => Exact fmt s' ∧ ∃ pr', s'.base.proc p = some pr' ∧ pr'.cwd = pr.cwd ∧
        ∀ fd, (pr.ofile fd = none ∨ fd ∈ fds) → pr'.ofile fd = none)
      (fun r _ => r ≠ .freedPipe) s := by
  induction fds generalizing s pr with
  | nil => exact ⟨h, pr, hp, rfl, fun fd hfd => hfd.resolve_right (by simp)⟩
  | cons fd fds ih =>
    have hofile : s.base.ofile p fd = pr.ofile fd := by
      rw [ofile, hp]
      rfl
    simp only [closeFiles, wp_bind, wp_look]
    cases hfd : s.base.ofile p fd with
    | none =>
      refine wp_mono_post (ih h hp) ?_
      rintro _ s' ⟨hexact, pr', hpr', hcwd, hnone⟩
      refine ⟨hexact, pr', hpr', hcwd, fun fd' hfd' => hnone fd' ?_⟩
      rcases hfd' with hfd' | hfd'
      · exact .inl hfd'
      · rcases List.mem_cons.1 hfd' with rfl | hmem
        · exact .inl (hofile.symm.trans hfd)
        · exact .inr hmem
    | some f =>
      simp only [wp_bind, wp_update]
      refine wp_mono_post (fileclose_spec h.piped (fileclose_base h.orderly)) ?_
      rintro _ s₁ ⟨⟨horderly, hpos, hfile, hproc⟩, hpiped⟩
      have hp₁ : s₁.base.proc p = some pr := (congrFun hproc p).trans hp
      have hexact : Exact fmt (s₁.setBase (s₁.base.setOfile p fd none)) := by
        refine ⟨Orderly.setOfile horderly p fd none, ?_, ?_⟩
        · refine h.handled.clear hp hfd (File.ref_dropped hpos) ?_ hfile
          show (s₁.base.setOfile p fd none).proc = (s.base.setOfile p fd none).proc
          simp only [setOfile, modifyProc, setProc, hproc]
        · exact hpiped.lasting (.of_file rfl)
      have hpr : (s₁.setBase (s₁.base.setOfile p fd none)).base.proc p =
          some { pr with ofile := update pr.ofile fd none } := by
        simp [setBase, setOfile, modifyProc,
          setProc, hp₁]
      refine wp_mono_post (ih hexact hpr) ?_
      rintro _ s' ⟨hexact', pr', hpr', hcwd, hnone⟩
      refine ⟨hexact', pr', hpr', hcwd, fun fd' hfd' => hnone fd' ?_⟩
      by_cases hsame : fd' = fd
      · subst hsame
        exact .inl (update_self ..)
      · rcases hfd' with hfd' | hfd'
        · exact .inl ((update_of_ne hsame ..).trans hfd')
        · exact .inr ((List.mem_cons.1 hfd').resolve_left hsame)

theorem exit_exact (h : Exact fmt s) (hp : s.base.proc p = some pr) :
    wp (exit p pr.cwd) (fun _ s' => Exact fmt s') (fun r _ => r ≠ .freedPipe) s := by
  simp only [exit, wp_bind, wp_update, wp_pure, wp_lift]
  refine wp_mono_post (closeFiles_exact _ h hp) ?_
  rintro _ s₁ ⟨hexact, pr', hpr', hcwd, hnone⟩
  have hunlocked : pr.cwd ∉ s₁.base.locked := by simp [hexact.orderly.quiet.unlocked]
  refine wp_iput hunlocked ⟨?_, ?_, ?_⟩
  · rw [← hcwd]
    exact hexact.orderly.kept (hexact.orderly.quiet.exit hpr')
  · -- The process that goes has no descriptors left.
    intro f
    have hcount := handles_setProc (k := s₁.base.put pr.cwd) (f := f) p none
    have hheld : held (some pr') f = 0 :=
      Finset.sum_eq_zero fun fd _ => by simp [hnone fd (.inr (List.mem_finRange fd))]
    have hproc : (s₁.base.put pr.cwd).proc = s₁.base.proc := proc_put
    rw [handles_congr hproc, hproc, hpr', hheld, held_none] at hcount
    have hfile : ((s₁.base.put pr.cwd).setProc p none).file = s₁.base.file :=
      file_put
    show (((s₁.base.put pr.cwd).setProc p none).file f).ref = _
    rw [hfile, hexact.handled f]
    exact hcount.symm
  · exact hexact.piped.lasting (.of_file file_put)

end Close

section Pipe

variable [DecidableEq Page] {Q : Unit → Kernel P Page → Prop} {E : Stop → Kernel P Page → Prop}

theorem fileclose_taken (href : (s.base.file f).ref = 0) (htype : (s.base.file f).type = .none)
    (hpipe : s.pipe f = none) (hQ : Q () s) : wp (fileclose f) Q E (s.take f) := by
  have hback : (((s.take f).setBase ((s.take f).base.modifyFile f fun x =>
      { x with ref := 0, type := .none })).setPipe f none) = s := by
    have hfile : { s.base.file f with ref := 0, type := .none } = s.base.file f := by
      rw [← href, ← htype]
    simp [take, setBase, setPipe, modifyFile, hfile, ← hpipe]
  have hone : ((s.take f).base.file f).ref = 1 := by
    simp [take, setBase]
  have hnone : ((s.take f).base.file f).type = .none := by
    simpa [take, setBase] using htype
  simp only [fileclose, wp_bind, wp_look, wp_ite, wp_stop, wp_update, hone]
  refine ⟨fun hlt => absurd hlt (by decide), fun _ =>
    ⟨fun hlt => absurd hlt (by decide), fun _ => ?_⟩⟩
  rw [show (s.take f).pipe f = none from hpipe, hback]
  simp only [wp_ite, wp_pure, hnone]
  exact ⟨fun hin => absurd hin (by decide), fun _ => hQ⟩

omit [DecidableEq Page] in
theorem Kernel.take_comm (hne : f₀ ≠ f₁) : (s.take f₀).take f₁ = (s.take f₁).take f₀ := by
  simp only [take, setBase, modifyFile, update_of_ne hne,
    update_of_ne hne.symm, update_comm hne]

omit [DecidableEq Page] in
theorem Kernel.file_take_of_ne (h : f ≠ f₀) : (s.take f₀).base.file f = s.base.file f :=
  update_of_ne h ..

/-- `pipealloc` makes a pipe, or gives back all that it has taken. -/
theorem pipealloc_spec {Q : Option (Fin nFile × Fin nFile) → Kernel P Page → Prop} (h : s.Piped)
    (hsane : ∀ f, (s.base.file f).ref = 0 → (s.base.file f).type = .none)
    (hfree : ∀ pg ∈ free, s.page pg = none) (hnone : Q none s)
    (hsome : ∀ f₀ f₁ pg, f₀ ≠ f₁ → (s.base.file f₀).ref = 0 → (s.base.file f₁).ref = 0 →
      s.page pg = none → Q (some (f₀, f₁)) (s.newPipe f₀ f₁ pg)) : wp (pipealloc free) Q E s := by
  have hpipe : ∀ f, (s.base.file f).ref = 0 → s.pipe f = none := by
    intro f href
    by_contra hne
    exact h.inUse f hne href
  rw [pipealloc, wp_bind, wp_lift]
  refine filealloc_spec (fun _ => hnone) fun f₀ h₀ => ?_
  rw [wp_bind, wp_lift]
  refine filealloc_spec (fun _ => ?_) fun f₁ h₁ => ?_
  · simp only [wp_bind, wp_pure]
    exact fileclose_taken h₀ (hsane f₀ h₀) (hpipe f₀ h₀) hnone
  · have hne : f₀ ≠ f₁ := by
      rintro rfl
      have hone : ((s.take f₀).base.file f₀).ref = 1 := by simp [take, setBase]
      exact Nat.one_ne_zero (hone.symm.trans h₁)
    have h₁ : (s.base.file f₁).ref = 0 := by
      rw [← file_take_of_ne hne.symm]
      exact h₁
    cases free with
    | none =>
      simp only [wp_bind, wp_pure]
      show wp (fileclose f₀) _ _ ((s.take f₀).take f₁)
      rw [take_comm hne]
      have hfile := file_take_of_ne (s := s) hne
      refine fileclose_taken (s := s.take f₁) (by rw [hfile, h₀]) ?_ (hpipe f₀ h₀) ?_
      · rw [hfile]
        exact hsane f₀ h₀
      · exact fileclose_taken h₁ (hsane f₁ h₁) (hpipe f₁ h₁) hnone
    | some pg => exact hsome f₀ f₁ pg hne h₀ h₁ (hfree pg rfl)

theorem Orderly.newPipe [Fintype P] (h : Orderly fmt s.base) (hne : f₀ ≠ f₁)
    (h₀ : (s.base.file f₀).type = .none) (h₁ : (s.base.file f₁).type = .none) (pg : Page) :
    Orderly fmt (s.newPipe f₀ f₁ pg).base := by
  refine ⟨h.quiet.setFiles (s.newPipe f₀ f₁ pg).base.file (fun f i => ?_) fun f => ?_, h.proper,
    h.within⟩
  · rcases s.newPipe_cases hne pg f with ⟨-, -, hf⟩ | ⟨-, -, hf⟩ | ⟨-, -, -, hf⟩
    · rw [hf]
      rfl
    · rw [hf]
      rfl
    · rw [hf]
  · rcases s.newPipe_cases hne pg f with ⟨rfl, -, hf⟩ | ⟨rfl, -, hf⟩ | ⟨-, -, -, hf⟩
    · rw [hf]
      exact ⟨fun _ => h₀, fun hin => absurd (h₀.symm.trans hin) (by decide)⟩
    · rw [hf]
      exact ⟨fun _ => h₁, fun hin => absurd (h₁.symm.trans hin) (by decide)⟩
    · rw [hf]
      exact h.quiet.sane f

variable [Fintype P] {p : P}

/-- The way out of `sys_pipe` when there is no descriptor: both ends are closed, and the page
goes with them. -/
theorem closeBoth_exact (pg : Page) (h : Exact fmt s) (hne : f₀ ≠ f₁)
    (h₀ : (s.base.file f₀).ref = 0) (h₁ : (s.base.file f₁).ref = 0)
    (horderly : Orderly fmt s'.base) (hpiped : s'.Piped)
    (hfile : s'.base.file = (s.newPipe f₀ f₁ pg).base.file) (hproc : s'.base.proc = s.base.proc) :
    wp (fileclose f₀ >>= fun _ => fileclose f₁ >>= fun _ => pure (-1 : ℤ))
      (fun _ t => Exact fmt t) (fun r _ => r ≠ .freedPipe) s' := by
  simp only [wp_bind, wp_pure]
  refine wp_mono_post (fileclose_spec hpiped (fileclose_base horderly)) ?_
  rintro _ t ⟨⟨ht, -, htfile, htproc⟩, htpiped⟩
  refine wp_mono_post (fileclose_spec htpiped (fileclose_base ht)) ?_
  rintro _ u ⟨⟨hu, -, hufile, huproc⟩, hupiped⟩
  refine ⟨hu, h.handled.congr (fun f => ?_) ?_, hupiped⟩
  · -- Each of the two has one reference, which is dropped.
    rw [hufile, ref_modifyFile, htfile, ref_modifyFile,
      show (s'.base.modifyFile f₀ File.dropped).file f₁ = s'.base.file f₁ from
        update_of_ne hne.symm .., hfile]
    rcases s.newPipe_cases hne pg f with ⟨rfl, -, hf⟩ | ⟨rfl, -, hf⟩ | ⟨hf₀, hf₁, -, hf⟩
    · rw [if_neg hne, if_pos rfl, hf, h₀]
      rfl
    · rw [if_pos rfl, hf, h₁]
      rfl
    · rw [if_neg hf₁, if_neg hf₀, hf]
  · exact huproc.trans (htproc.trans hproc)

variable [DecidableEq P]

omit [Fintype P] in
theorem setOfile_back (hp : k.proc p = some pr) (hfd : k.ofile p fd = none)
    (o : Option (Fin nFile)) : ((k.setOfile p fd o).setOfile p fd none).proc = k.proc := by
  have hnone : pr.ofile fd = none := by
    rw [ofile, hp] at hfd
    exact hfd
  have hback : ({ pr with ofile := update pr.ofile fd none } : Proc) = pr := by
    rw [← hnone, update_eq_self]
  have hproc : some ({ pr with ofile := update pr.ofile fd none } : Proc) = k.proc p := by
    rw [hback, hp]
  simp [setOfile, modifyProc, setProc, hp, hproc]

theorem sysPipe_exact (h : Exact fmt s) (hp : s.base.proc p = some pr)
    (hfree : ∀ pg ∈ free, s.page pg = none) :
    wp (sysPipe p free) (fun _ s' => Exact fmt s') (fun r _ => r ≠ .freedPipe) s := by
  have hsane : ∀ f, (s.base.file f).ref = 0 → (s.base.file f).type = .none :=
    fun f => (h.orderly.quiet.sane f).closed
  rw [sysPipe, wp_bind]
  refine pipealloc_spec h.piped hsane hfree h fun f₀ f₁ pg hne h₀ h₁ hpg => ?_
  have horderly := Orderly.newPipe h.orderly hne (hsane f₀ h₀) (hsane f₁ h₁) pg
  have hpiped := h.piped.newPipe hne hsane h₀ h₁ hpg
  rw [wp_bind, wp_lift]
  refine fdalloc_spec (fun _ => closeBoth_exact pg h hne h₀ h₁ horderly hpiped rfl rfl)
    fun fd₀ hfd₀ => ?_
  rw [wp_bind, wp_lift]
  refine fdalloc_spec (fun _ => ?_) fun fd₁ hfd₁ => ?_
  · -- The first descriptor is given back before the two ends are closed.
    have hback : (((s.newPipe f₀ f₁ pg).base.setOfile p fd₀ (some f₀)).setOfile p fd₀ none).proc =
        s.base.proc := setOfile_back (k := (s.newPipe f₀ f₁ pg).base) hp hfd₀ (some f₀)
    have hpiped' : ((s.newPipe f₀ f₁ pg).setBase (((s.newPipe f₀ f₁ pg).base.setOfile p fd₀
        (some f₀)).setOfile p fd₀ none)).Piped := hpiped.lasting (.of_file rfl)
    rw [wp_bind, wp_update]
    exact closeBoth_exact pg h hne h₀ h₁
      (Orderly.setOfile (Orderly.setOfile horderly p fd₀ (some f₀)) p fd₀ none) hpiped' rfl hback
  · refine ⟨Orderly.setOfile (Orderly.setOfile horderly p fd₀ _) p fd₁ _, ?_,
      hpiped.lasting (.of_file rfl)⟩
    -- One descriptor after the other, each with its file structure.
    have hfirst : ((s.take f₀).base.setOfile p fd₀ (some f₀)).Handled :=
      h.handled.fill hp hfd₀ (g := fun x => { x with ref := 1 }) (by rw [h₀]) rfl rfl
    have hp' : ((s.take f₀).base.setOfile p fd₀ (some f₀)).proc p =
        some { pr with ofile := update pr.ofile fd₀ (some f₀) } := by
      have hpr : (s.take f₀).base.proc p = some pr := hp
      simp [setOfile, modifyProc, setProc, hpr]
    have h₁' : (((s.take f₀).base.setOfile p fd₀ (some f₀)).file f₁).ref = 0 := by
      rw [← h₁]
      exact congrArg File.ref (file_take_of_ne hne.symm)
    have hsecond : (((s.take f₀).base.setOfile p fd₀ (some f₀)).modifyFile f₁ fun x =>
        { x with ref := 1 }).setOfile p fd₁ (some f₁) |>.Handled :=
      hfirst.fill hp' hfd₁ (g := fun x => { x with ref := 1 }) (by rw [h₁']) rfl rfl
    refine hsecond.congr (fun f => ?_) rfl
    show ((s.newPipe f₀ f₁ pg).base.file f).ref =
      (((s.take f₀).base.modifyFile f₁ fun x => { x with ref := 1 }).file f).ref
    rw [ref_modifyFile]
    rcases s.newPipe_cases hne pg f with ⟨rfl, -, hf⟩ | ⟨rfl, -, hf⟩ | ⟨hf₀, hf₁, -, hf⟩
    · rw [if_neg hne, hf]
      simp [take, setBase]
    · rw [if_pos rfl, hf]
    · rw [if_neg hf₁, hf, file_take_of_ne hf₀]

end Pipe

section Runs

variable [Fintype P] [DecidableEq P] {p : P} {c : Call P Page}

theorem lift_exact (devsw : Devices) (h : Exact fmt s) (hp : s.base.proc p = some pr)
    {c : Tree.Call P} (hc : c.keepsFiles = true)
    (hfork : ∀ child, c = .fork child → s.base.proc child = none) :
    wp (lift (c.run fmt devsw p pr.cwd)) (fun _ s' => Exact fmt s') (fun r _ => r ≠ .freedPipe)
      s := by
  have hspec := call_spec fmt devsw h.orderly.quiet h.orderly.proper hp c hfork
  have hmoved := call_moved devsw h.orderly h.handled hp hc hfork
  rw [wp_lift]
  refine wp_mono (wp_and hspec hmoved) ?_ fun _ _ _ => by simp
  rintro _ k ⟨hout, hhandled, hlasting⟩
  exact ⟨hout.orderly h.orderly, hhandled, h.piped.lasting hlasting⟩

variable [DecidableEq Page]

omit [Fintype P] in
theorem run_of_toBase (fmt : Format) (devsw : Devices) (p : P) (cwd : ℕ)
    {c' : Tree.Call P} (h : c.toBase = some c') :
    c.run fmt devsw p cwd = lift (c'.run fmt devsw p cwd) ∧ c'.keepsFiles = true := by
  cases c with
  | sysClose fd => cases h
  | sysPipe free => cases h
  | exit => cases h
  | _ =>
    cases h
    exact ⟨rfl, rfl⟩

omit [Fintype P] [DecidableEq P] [DecidableEq Page] in
theorem free_of_fork {child : P} (h : c.toBase = some (.fork child))
    (henabled : enabled s c = true) : s.base.proc child = none := by
  cases c with
  | fork child' =>
    obtain rfl := Tree.Call.fork.inj (Option.some.inj h)
    exact Option.isNone_iff_eq_none.1 henabled
  | _ => cases h

theorem call_exact (devsw : Devices) (h : Exact fmt s) (hp : s.base.proc p = some pr)
    (henabled : enabled s c = true) :
    wp (c.run fmt devsw p pr.cwd) (fun _ s' => Exact fmt s') (fun r _ => r ≠ .freedPipe) s := by
  cases hbase : c.toBase with
  | some c' =>
    obtain ⟨hrun, hkeeps⟩ := run_of_toBase fmt devsw p pr.cwd hbase
    rw [hrun]
    refine lift_exact devsw h hp hkeeps ?_
    rintro child rfl
    exact free_of_fork hbase henabled
  | none =>
    cases c with
    | sysClose fd => exact sysClose_exact h hp fd
    | exit => exact exit_exact h hp
    | sysPipe free =>
      refine sysPipe_exact h hp ?_
      rintro pg rfl
      exact Option.isNone_iff_eq_none.1 henabled
    | _ => cases hbase

def Sys.Inv (fmt : Format) (s : Sys P Page) : Prop :=
  s.stopped ≠ some .freedPipe ∧ (s.stopped = none → Exact fmt s.kernel)

theorem step_inv {s t : Sys P Page} {e : P × Call P Page} (h : s.Inv fmt)
    (hstep : step fmt devsw s e = some t) : t.Inv fmt := by
  obtain ⟨p, c⟩ := e
  cases hp : s.kernel.base.proc p with
  | none => simp [step, hp] at hstep
  | some pr =>
    simp only [step, hp, Option.ite_none_right_eq_some] at hstep
    obtain ⟨⟨hnone, henabled⟩, hstep⟩ := hstep
    have hspec := call_exact devsw (h.2 hnone) hp henabled
    rw [wp] at hspec
    rcases hres : c.run fmt devsw p pr.cwd s.kernel with ⟨r, k⟩
    rw [hres] at hspec hstep
    cases r with
    | ok a =>
      cases hstep
      exact ⟨by simp, fun _ => hspec⟩
    | error r =>
      cases hstep
      exact ⟨fun hr => hspec (Option.some.inj hr), fun hr => by cases hr⟩

end Runs

section Results

/-- What the reference counts between two calls are. -/
structure RefCounts [Fintype P] (s : Kernel P Page) : Prop where
  file : ∀ f, (s.base.file f).ref =
    (Finset.univ.filter fun x : P × Fin nOFile => s.base.ofile x.1 x.2 = some f).card
  closed : ∀ f, (s.base.file f).ref = 0 → s.type f = .none
  inode : ∀ i, s.base.ref i =
    (Finset.univ.filter fun f => s.type f = .inode ∧ (s.base.file f).ip = i).card +
      (Finset.univ.filter fun p => (s.base.proc p).map Proc.cwd = some i).card
  readopen : ∀ pg e, s.page pg = some e → (e.readopen = true ↔
    ∃ f, s.pipe f = some pg ∧ (s.base.file f).writable = false ∧ 0 < (s.base.file f).ref)
  writeopen : ∀ pg e, s.page pg = some e → (e.writeopen = true ↔
    ∃ f, s.pipe f = some pg ∧ (s.base.file f).writable = true ∧ 0 < (s.base.file f).ref)
  freed : ∀ pg, s.page pg = none ↔ ∀ f, s.pipe f ≠ some pg
  notBoth : ∀ pg e, s.page pg = some e → e.readopen = true ∨ e.writeopen = true

theorem type_eq_inode (h : s.Piped) : s.type f = .inode ↔ (s.base.file f).type = .inode := by
  rw [type]
  cases hp : s.pipe f with
  | some pg => simp [h.plain f (by simp [hp])]
  | none => cases (s.base.file f).type <;> simp

theorem type_eq_none (h : s.Piped) (href : (s.base.file f).ref = 0)
    (htype : (s.base.file f).type = .none) : s.type f = .none := by
  have hp : s.pipe f = none := by
    by_contra hne
    exact h.inUse f hne href
  simp [type, hp, htype]

theorem Kernel.Piped.get_iff (h : s.Piped) (he : s.page pg = some e) (w : Bool) :
    e.get w = true ↔
      ∃ f, s.pipe f = some pg ∧ (s.base.file f).writable = w ∧ 0 < (s.base.file f).ref := by
  rw [h.flag pg e he w]
  refine exists_congr fun f => ⟨fun hend => ⟨hend.1, hend.2, ?_⟩, fun hend => ⟨hend.1, hend.2.1⟩⟩
  exact Nat.pos_of_ne_zero (h.inUse f (by simp [hend.1]))

variable [Fintype P]

theorem Exact.refCounts (h : Exact fmt s) : RefCounts s := by
  have hpiped := h.piped
  refine ⟨h.handled, fun f href => ?_, fun i => ?_, ?_, ?_, fun pg => ⟨hpiped.freed pg, ?_⟩, ?_⟩
  · exact type_eq_none hpiped href ((h.orderly.quiet.sane f).closed href)
  · simp only [type_eq_inode hpiped]
    rw [h.orderly.quiet.counted i, Nat.add_comm]
    rfl
  · exact fun pg e he => hpiped.get_iff he false
  · exact fun pg e he => hpiped.get_iff he true
  · intro hnone
    cases he : s.page pg with
    | none => rfl
    | some e =>
      obtain ⟨w, hw⟩ := hpiped.live pg e he
      obtain ⟨f, hf, -⟩ := (hpiped.flag pg e he w).1 hw
      exact absurd hf (hnone f)
  · intro pg e he
    obtain ⟨w, hw⟩ := hpiped.live pg e he
    cases w with
    | false => exact .inl hw
    | true => exact .inr hw

/-- A kernel in which no file is open. -/
def start (k : Tree.Kernel P) : Sys P Page := ⟨⟨k, fun _ => none, fun _ => none⟩, none⟩

theorem exact_start {k : Tree.Kernel P} (horderly : Orderly fmt k)
    (hfiles : ∀ f, (k.file f).ref = 0) (hfds : ∀ p fd, k.ofile p fd = none) :
    Exact fmt (start k : Sys P Page).kernel := by
  refine ⟨horderly, fun f => ?_, ⟨?_, ?_, ?_, ?_, ?_, ?_⟩⟩
  · show (k.file f).ref = k.handles f
    rw [hfiles f, handles]
    simp [hfds]
  all_goals simp [start, EndOf]

variable [DecidableEq P] [DecidableEq Page]

/-- From a kernel without open files, after any system calls that have returned, every
reference count is the number of references there are. No call closes a pipe that has been
freed. -/
theorem reference_counts_exact {k : Tree.Kernel P} (horderly : Orderly fmt k)
    (hfiles : ∀ f, (k.file f).ref = 0) (hfds : ∀ p fd, k.ofile p fd = none)
    {es : List (P × Call P Page)} {t : Sys P Page}
    (hrun : Machine.run (step fmt devsw) (start k) es = some t) :
    t.stopped ≠ some .freedPipe ∧ (t.stopped = none → RefCounts t.kernel) := by
  have hstart : Sys.Inv fmt (start k : Sys P Page) :=
    ⟨by simp [start], fun _ => exact_start horderly hfiles hfds⟩
  have hinv : t.Inv fmt :=
    Machine.run_invariant hstart (fun _ _ _ h hstep => step_inv h hstep) hrun
  exact ⟨hinv.1, fun hnone => (hinv.2 hnone).refCounts⟩

def closeOneEnd : List (Unit × Call Unit Unit) :=
  [((), .sysPipe (some ())), ((), .sysClose 0),
    ((), .sysOpen pathF (oCreate ||| oRdwr))]

theorem reference_counts_exact_closeOneEnd :
    ∃ t, Machine.run (step tinyFormat noDevices) (start boot) closeOneEnd = some t ∧
      t.kernel.page () = some ⟨false, true⟩ ∧ RefCounts t.kernel := by
  obtain ⟨t, ht, hreturned, hpage⟩ : ∃ t, Machine.run (step tinyFormat noDevices) (start boot)
      closeOneEnd = some t ∧ t.stopped = none ∧ t.kernel.page () = some ⟨false, true⟩ := by
    decide +kernel
  have hcounts := reference_counts_exact boot_orderly (fun _ => rfl) (fun _ _ => rfl) ht
  exact ⟨t, ht, hpage, hcounts.2 hreturned⟩

end Results

end Xv6.OpenFiles

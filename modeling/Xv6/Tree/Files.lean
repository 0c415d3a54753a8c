import Xv6.Tree.Quiet

/-!
# Calls on open files and processes

`read`, `write`, `fstat`, `close` and `dup`, and the parts of `fork` and `exit` that
deal with files. None of them enters or removes a name. From a quiet state they leave
a quiet one, in which some inodes without links may have been freed.
-/

namespace Xv6.Tree

open Routine Function Kernel

variable {P : Type} {devsw : Devices} {k k' : Kernel P} {i : ℕ}
  {f : Fin nFile} {Q : Unit → Kernel P → Prop} {e : CacheEntry}

section Contents

variable {E : Stop → Kernel P → Prop}

section

variable (hc : k.cache i = some e) (hv : e.valid = true) (hl : i ∉ k.locked)
include hc hv hl

theorem devcall_spec {Q : ℤ → Kernel P → Prop} (table : ℕ → Option (ℕ → ℤ)) (n : ℕ)
    (hQ : ∀ r, Q r (k.lock i)) : wp (devcall table i n) Q E (k.lock i) := by
  simp only [devcall, wp_bind, wp_look, wp_ite, wp_pure]
  refine ⟨fun _ => hQ _, fun _ => ?_⟩
  split
  · exact hQ _
  · simp only [wp_bind, wp_pure]
    exact wp_iunlock_lock (by simp [hc]) hl (wp_ilock_read hc hv hl (hQ _))

theorem readi_spec {Q : ℤ → Kernel P → Prop} (off n : ℕ) (hQ : ∀ r, Q r (k.lock i)) :
    wp (readi devsw i off n) Q E (k.lock i) := by
  simp only [readi, wp_bind, wp_look, wp_ite, wp_pure]
  exact ⟨fun _ => devcall_spec hc hv hl _ _ hQ, fun _ => ⟨fun _ => hQ _, fun _ => hQ _⟩⟩

theorem execReads_spec (reads : List (ℕ × ℕ)) (hQ : Q () (k.lock i)) :
    wp (execReads devsw i reads) Q E (k.lock i) := by
  induction reads with
  | nil => exact hQ
  | cons r reads ih =>
    rw [execReads, wp_bind]
    exact readi_spec hc hv hl _ _ fun _ => ih

theorem writei_spec {Q : ℤ → Kernel P → Prop} (hdir : (k.inode i).type ≠ .dir) (off n : ℕ)
    (hsame : ∀ r, Q r (k.lock i)) (hsize : ∀ r (g : Inode → Inode),
      (∀ x, (g x).nlink = x.nlink ∧ (g x).type = x.type ∧ (g x).entries = x.entries) →
        Q r ((k.modifyInode i g).lock i)) : wp (writei devsw i off n) Q E (k.lock i) := by
  simp only [writei, wp_bind, wp_look, wp_ite, wp_stop, wp_pure, wp_update]
  refine ⟨fun _ => devcall_spec hc hv hl _ _ hsame, fun _ => ⟨fun h => absurd h hdir, fun _ =>
    ⟨fun _ => hsame _, fun _ => ⟨fun _ => hsame _, fun _ => ?_⟩⟩⟩⟩
  refine hsize _ (fun x => if 0 < n ∧ x.size < off + n then { x with size := off + n } else x)
    fun x => ?_
  by_cases hx : 0 < n ∧ x.size < off + n
  · rw [if_pos hx]
    exact ⟨rfl, rfl, rfl⟩
  · rw [if_neg hx]
    exact ⟨rfl, rfl, rfl⟩

end

theorem advance_spec (r : ℤ)
    (hQ : ∀ g : File → File, (∀ x, (g x).ref = x.ref ∧ (g x).type = x.type ∧
      (g x).ip = x.ip ∧ (g x).writable = x.writable) → Q () (k.modifyFile f g)) :
    wp (advance f r) Q E k := by
  rw [advance, wp_ite]
  constructor
  · intro _
    exact hQ _ fun x => ⟨rfl, rfl, rfl, rfl⟩
  · intro _
    have hid : k.modifyFile f id = k := by simp [modifyFile]
    exact hid ▸ hQ id fun x => ⟨rfl, rfl, rfl, rfl⟩

theorem fdalloc_spec [DecidableEq P] {Q : Option (Fin nOFile) → Kernel P → Prop} {p : P}
    (hnone : (∀ fd, k.ofile p fd ≠ none) → Q none k)
    (hsome : ∀ fd, k.ofile p fd = none → Q (some fd) (k.setOfile p fd (some f))) :
    wp (fdalloc p f) Q E k := by
  simp only [fdalloc, wp_bind, wp_look]
  split
  · rename_i hfind
    refine hnone fun fd => ?_
    simpa using List.find?_eq_none.1 hfind fd (List.mem_finRange fd)
  · rename_i fd hfind
    refine hsome fd ?_
    simpa using List.find?_some hfind

theorem filealloc_spec {Q : Option (Fin nFile) → Kernel P → Prop}
    (hnone : (∀ f, (k.file f).ref ≠ 0) → Q none k) (hsome : ∀ f, (k.file f).ref = 0 →
      Q (some f) (k.modifyFile f fun x => { x with ref := 1 })) : wp filealloc Q E k := by
  simp only [filealloc, wp_bind, wp_look]
  split
  · rename_i hfind
    refine hnone fun f => ?_
    simpa using List.find?_eq_none.1 hfind f (List.mem_finRange f)
  · rename_i f hf
    have href : (k.file f).ref = 0 := by simpa using List.find?_some hf
    exact hsome f href

theorem fileclose_unopened (href : (k.file f).ref = 1) (htype : (k.file f).type = .none)
    (hQ : Q () (k.modifyFile f fun x => { x with ref := 0, type := .none })) :
    wp (fileclose f) Q E k := by
  simp only [fileclose, wp_bind, wp_look, wp_ite, wp_stop, wp_update, wp_pure, href, htype]
  exact ⟨fun h => absurd h (by decide), fun _ => ⟨fun h => absurd h (by decide), fun _ =>
    ⟨by simp, fun _ => hQ⟩⟩⟩

end Contents

theorem Kernel.modifyFile_modifyFile (g g' : File → File) :
    (k.modifyFile f g).modifyFile f g' = k.modifyFile f fun x => g' (g x) := by
  simp only [modifyFile, update_self, update_idem]

theorem Kernel.modifyFile_eq_self {g : File → File} (h : g (k.file f) = k.file f) :
    k.modifyFile f g = k := by
  simp only [modifyFile, h, update_eq_self]

@[simp] theorem Kernel.file_modifyFile_self (g : File → File) :
    (k.modifyFile f g).file f = g (k.file f) := update_self ..

section Files

variable [Fintype P]

theorem Kernel.Quiet.moveOffset (h : k.Quiet) {g : File → File}
    (hg : ∀ x, (g x).ref = x.ref ∧ (g x).type = x.type ∧ (g x).ip = x.ip ∧
      (g x).writable = x.writable) : (k.modifyFile f g).Quiet := by
  obtain ⟨hr, ht, hip, hw⟩ := hg (k.file f)
  refine h.modifyFile (fun i => by rw [File.On, File.On, ht, hip]) ⟨fun h0 => ?_, fun hin hwr => ?_⟩
  · rw [ht]
    exact (h.sane f).closed (hr ▸ h0)
  · rw [hip]
    exact (h.sane f).plain (ht ▸ hin) (hw ▸ hwr)

def Kept (k k' : Kernel P) : Prop := k'.Quiet ∧ Tended k.inode k'.inode

theorem Kept.refl (h : k.Quiet) : Kept k k := ⟨h, .refl _⟩

theorem Kept.trans {k'' : Kernel P} (h : Kept k k') (h' : Kept k' k'') : Kept k k'' :=
  ⟨h'.1, h.2.trans h'.2⟩

theorem fileread_spec (h : k.Quiet) (n : ℕ) :
    wp (fileread devsw f n) (fun _ k' => Kept k k') (fun r _ => Harmless r) k := by
  simp only [fileread, wp_bind, wp_look, wp_ite, wp_stop, wp_pure]
  refine ⟨fun _ => .refl h, fun _ => ⟨fun hin => ?_, fun _ => by decide⟩⟩
  obtain ⟨e, he⟩ := h.file_cached ⟨hin, rfl⟩
  have hv := h.settled.valid _ e he
  have hl : (k.file f).ip ∉ k.locked := by simp [h.unlocked]
  refine wp_ilock_read he hv hl (readi_spec he hv hl _ _ fun r => advance_spec r fun g hg => ?_)
  exact wp_iunlock_lock (k := k.modifyFile f g)
    (fun hn => Option.some_ne_none _ (he.symm.trans hn)) hl ⟨h.moveOffset hg, .refl _⟩

theorem filestat_spec (h : k.Quiet) :
    wp (filestat f) (fun _ k' => Kept k k') (fun r _ => Harmless r) k := by
  simp only [filestat, wp_bind, wp_look, wp_ite, wp_pure]
  refine ⟨fun hin => ?_, fun _ => .refl h⟩
  obtain ⟨e, he⟩ := h.file_cached ⟨hin, rfl⟩
  have hl : (k.file f).ip ∉ k.locked := by simp [h.unlocked]
  exact wp_ilock_read he (h.settled.valid _ e he) hl
    (wp_iunlock_lock (fun hn => Option.some_ne_none _ (he.symm.trans hn)) hl (.refl h))

/-- One round of `filewrite` and the ones after it. -/
theorem filewriteLoop_spec (n rounds : ℕ) :
    ∀ (i : ℕ) (k : Kernel P), k.Quiet → (k.file f).type = .inode → (k.file f).writable = true →
        wp (filewriteLoop devsw f n rounds i) (fun _ k' => Kept k k')
          (fun r _ => Harmless r) k := by
  induction rounds with
  | zero =>
    intro i k h _ _
    exact .refl h
  | succ rounds ih =>
    intro i k h hin hw
    obtain ⟨e, he⟩ := h.file_cached ⟨hin, rfl⟩
    have hv := h.settled.valid _ e he
    have hl : (k.file f).ip ∉ k.locked := by simp [h.unlocked]
    have hdir := (h.sane f).plain hin hw
    simp only [filewriteLoop, wp_ite, wp_bind, wp_look, wp_pure, wp_stop]
    refine ⟨fun _ => wp_ilock_read he hv hl ?_, fun _ => .refl h⟩
    -- What is left to do once the size may have changed.
    have hrest : ∀ (r : ℤ) (k₁ : Kernel P), Kept k k₁ → k₁.file = k.file →
        k₁.cache = k.cache → wp (advance f r) (fun _ k₂ => wp (iunlock (k.file f).ip)
            (fun _ k₃ => (r < 0 → Kept k k₃) ∧ (¬ r < 0 →
              (r ≠ (min (n - i) maxWrite : ℕ) → Harmless .shortFilewrite) ∧
              (¬ r ≠ (min (n - i) maxWrite : ℕ) →
                wp (filewriteLoop devsw f n rounds (i + min (n - i) maxWrite))
                  (fun _ k' => Kept k k') (fun r _ => Harmless r) k₃)))
            (fun r _ => Harmless r) k₂)
          (fun r _ => Harmless r) (k₁.lock (k.file f).ip) := by
      intro r k₁ hk₁ hfile hcache
      refine advance_spec r fun g hg => ?_
      have hk₂ : Kept k (k₁.modifyFile f g) := hk₁.trans ⟨hk₁.1.moveOffset hg, .refl _⟩
      refine wp_iunlock_lock (k := k₁.modifyFile f g) ?_ ?_ ⟨fun _ => hk₂, fun _ =>
        ⟨fun _ => by decide, fun _ => ?_⟩⟩
      · intro hn
        rw [show (k₁.modifyFile f g).cache = k.cache from hcache] at hn
        cases he.symm.trans hn
      · simp [show (k₁.modifyFile f g).locked = ∅ from hk₁.1.unlocked]
      · have hself : (k₁.modifyFile f g).file f = g (k.file f) := by
          simp [modifyFile, hfile]
        refine wp_mono_post (ih _ _ hk₂.1 ?_ ?_) (fun _ k' hk' => hk₂.trans hk')
        · rw [hself, (hg _).2.1]
          exact hin
        · rw [hself, (hg _).2.2.2]
          exact hw
    refine writei_spec he hv hl hdir _ _ (fun r => hrest r k (.refl h) rfl rfl) fun r g hg => ?_
    refine hrest r (k.modifyInode (k.file f).ip g) ⟨?_, tended_modifyInode hg⟩ rfl rfl
    refine h.retree (h.settled.retouch (hg _).2.1 (hg _).1) rfl rfl rfl rfl fun j _ _ => ?_
    by_cases hj : j = (k.file f).ip
    · subst hj
      rw [inode_modifyInode_self, (hg _).2.1]
    · rw [inode_modifyInode_of_ne _ hj]

theorem filewrite_spec (h : k.Quiet) (n : ℕ) :
    wp (filewrite devsw f n) (fun _ k' => Kept k k') (fun r _ => Harmless r) k := by
  simp only [filewrite, wp_bind, wp_look, wp_ite, wp_stop, wp_pure]
  refine ⟨fun _ => .refl h, fun hw => ⟨fun hin => ?_, fun _ => by decide⟩⟩
  exact filewriteLoop_spec n n 0 k h hin (by simpa using hw)

theorem fileclose_spec (h : k.Quiet) :
    wp (fileclose f) (fun _ k' => Kept k k' ∧ k'.proc = k.proc) (fun r _ => Harmless r) k := by
  simp only [fileclose, wp_bind, wp_look, wp_ite, wp_stop, wp_update, wp_pure]
  refine ⟨fun _ => by decide, fun _ => ⟨fun hmore => ?_, fun _ => ⟨fun hin => ?_, fun hin => ?_⟩⟩⟩
  · refine ⟨⟨h.modifyFile (fun _ => Iff.rfl) ⟨fun hz => ?_, (h.sane f).plain⟩, .refl _⟩, rfl⟩
    have hone : (k.file f).ref - 1 = 0 := hz
    omega
  · refine wp_iput (by simp [modifyFile, h.unlocked]) ⟨?_, proc_put⟩
    exact h.close ⟨hin, rfl⟩ rfl
  · refine ⟨⟨h.modifyFile (fun j => ?_) ⟨fun _ => rfl, by simp⟩, .refl _⟩, rfl⟩
    simp [File.On, hin]

theorem filedup_spec (h : k.Quiet) :
    wp (filedup f) (fun _ k' => k'.Quiet ∧ k'.inode = k.inode ∧ k'.proc = k.proc)
      (fun r _ => Harmless r) k := by
  simp only [filedup, wp_bind, wp_look, wp_ite, wp_stop, wp_update]
  refine ⟨fun _ => by decide, fun _ => ⟨h.modifyFile (fun _ => Iff.rfl) ⟨fun hz => ?_,
    (h.sane f).plain⟩, rfl, rfl⟩⟩
  cases hz

variable {p : P} {pr : Proc}

theorem onFile_spec {act : Fin nFile → KernelM P ℤ} (h : k.Quiet) (fd : ℤ)
    (hact : ∀ f, wp (act f) (fun _ k' => Kept k k') (fun r _ => Harmless r) k) :
    wp (onFile p fd act) (fun _ k' => Kept k k') (fun r _ => Harmless r) k := by
  simp only [onFile, argfd, wp_bind, wp_look]
  split
  · exact .refl h
  · exact hact _

theorem dupFiles_spec (h : k.Quiet) (fds : List (Fin nOFile)) :
    wp (dupFiles p fds) (fun _ k' => k'.Quiet ∧ k'.inode = k.inode ∧ k'.proc = k.proc)
      (fun r _ => Harmless r) k := by
  induction fds generalizing k with
  | nil => exact ⟨h, rfl, rfl⟩
  | cons fd fds ih =>
    simp only [dupFiles, wp_bind, wp_look]
    split
    · exact ih h
    · rw [wp_bind]
      refine wp_mono_post (filedup_spec h) ?_
      rintro _ k₁ ⟨hq, hi, hp⟩
      refine wp_mono_post (ih hq) ?_
      rintro _ k₂ ⟨hq', hi', hp'⟩
      exact ⟨hq', hi'.trans hi, hp'.trans hp⟩

variable [DecidableEq P]

variable (h : k.Quiet)
include h

theorem Kernel.Quiet.setOfile (p : P) (fd : Fin nOFile) (o : Option (Fin nFile)) :
    (k.setOfile p fd o).Quiet :=
  h.modifyProc p fun _ => rfl

theorem sysClose_spec (fd : ℤ) :
    wp (sysClose p fd) (fun _ k' => Kept k k') (fun r _ => Harmless r) k := by
  simp only [sysClose, argfd, wp_bind, wp_look]
  split
  · exact .refl h
  · simp only [wp_bind, wp_update, wp_pure]
    exact wp_mono_post (fileclose_spec (h.setOfile p _ none)) (fun _ _ hk => hk.1)

theorem sysDup_spec (fd : ℤ) :
    wp (sysDup p fd) (fun _ k' => Kept k k') (fun r _ => Harmless r) k := by
  simp only [sysDup, argfd, wp_bind, wp_look]
  split
  · exact .refl h
  · rw [wp_bind]
    refine fdalloc_spec (fun _ => .refl h) fun fd' _ => ?_
    simp only [wp_bind, wp_pure]
    refine wp_mono_post (filedup_spec (h.setOfile p fd' _)) ?_
    rintro _ k' ⟨hq, hi, -⟩
    refine ⟨hq, ?_⟩
    rw [hi]
    exact .refl _

theorem fork_spec (hp : k.proc p = some pr) {child : P} (hchild : k.proc child = none) :
    wp (fork p child pr.cwd) (fun _ k' => Kept k k') (fun r _ => Harmless r) k := by
  simp only [fork, wp_bind, idup, wp_update, wp_pure]
  refine wp_mono_post (dupFiles_spec h _) ?_
  rintro _ k₁ ⟨hq, hi, hproc⟩
  have hpr : (k₁.hold pr.cwd).proc p = some pr := (congrFun hproc p).trans hp
  rw [hpr]
  refine ⟨hq.fork ((congrFun hproc p).trans hp) ((congrFun hproc child).trans hchild), ?_⟩
  show Tended k.inode k₁.inode
  rw [hi]
  exact .refl _

theorem closeFiles_spec (fds : List (Fin nOFile)) :
    wp (closeFiles p fds)
      (fun _ k' => Kept k k' ∧ (k'.proc p).map Proc.cwd = (k.proc p).map Proc.cwd)
      (fun r _ => Harmless r) k := by
  induction fds generalizing k with
  | nil => exact ⟨.refl h, rfl⟩
  | cons fd fds ih =>
    simp only [closeFiles, wp_bind, wp_look]
    split
    · exact ih h
    · simp only [wp_bind, wp_update]
      refine wp_mono_post (fileclose_spec h) ?_
      rintro _ k₁ ⟨hk₁, hproc⟩
      refine wp_mono_post (ih (hk₁.1.setOfile p fd none)) ?_
      rintro _ k₂ ⟨hk₂, hcwd⟩
      refine ⟨hk₁.trans hk₂, hcwd.trans ?_⟩
      simp only [setOfile, modifyProc, setProc, update_self,
        Option.map_map, hproc]
      rfl

theorem exit_spec (hp : k.proc p = some pr) :
    wp (exit p pr.cwd) (fun _ k' => Kept k k') (fun r _ => Harmless r) k := by
  simp only [exit, wp_bind, wp_update, wp_pure]
  refine wp_mono_post (closeFiles_spec h _) ?_
  rintro _ k₁ ⟨hk₁, hcwd⟩
  rw [hp] at hcwd
  obtain ⟨pr', hpr', hsame⟩ := Option.map_eq_some_iff.1 hcwd
  refine wp_iput (by simp [hk₁.1.unlocked]) ?_
  rw [← hsame]
  exact hk₁.trans (hk₁.1.exit hpr')

end Files

end Xv6.Tree

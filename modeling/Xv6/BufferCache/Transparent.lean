import Xv6.BufferCache.Coherent
import Xv6.BufferCache.Held

/-!
# The buffer cache is transparent

In every run the links form a ring of all buffers, no block is cached twice, and
`bread` returns the contents that were last given to the block. The runs are those
in which blocks are read from devices other than 0, whose blocks the unused buffers
seem to hold after `binit`, and in which a buffer that was changed is given to
`log_write` or `bwrite` before it is released.
-/

namespace Xv6.BufferCache

open LinkedRing Function Option

variable {P : Type*} {s t : State P} {i : Fin nBuf} {dev blockno : ℕ}

theorem logWrite_cases (hok : s.logWrite i = .ok t) :
    ∃ l, t = (State.setBuf { s with log := l } i fun b => { b with dirty := true }).give i := by
  rw [State.logWrite] at hok
  split at hok
  · cases hok
  · split at hok
    · cases hok
    · exact ⟨_, (Except.ok.inj hok).symm⟩

variable [DecidableEq P] {p : P}

theorem iderw_cases (hok : s.iderw p i = .ok t) :
    (s.buf i).lock = some p ∧ (s.buf i).dev = rootDev ∧ ((s.buf i).dirty = true ∧
          t = { s.setBuf i fun b => { b with dirty := false, valid := true } with
                disk := update s.disk (s.buf i).blockno (s.buf i).data } ∨
        (s.buf i).dirty = false ∧
          t = s.setBuf i fun b => { b with data := s.disk b.blockno, valid := true }) := by
  rw [State.iderw] at hok
  split at hok
  · cases hok
  · rename_i hlock
    split at hok
    · cases hok
    · split at hok
      · cases hok
      · rename_i hdev
        refine ⟨not_not.1 hlock, not_not.1 hdev, ?_⟩
        split at hok
        · cases hok
        · split at hok
          · rename_i hdirty
            exact .inl ⟨hdirty, (Except.ok.inj hok).symm⟩
          · rename_i hdirty
            exact .inr ⟨Bool.eq_false_iff.2 hdirty, (Except.ok.inj hok).symm⟩

theorem bwrite_cases (hok : s.bwrite p i = .ok t) :
    (s.buf i).lock = some p ∧ (s.buf i).dev = rootDev ∧
      t = State.give { s.setBuf i fun b => { b with dirty := false, valid := true } with
        disk := update s.disk (s.buf i).blockno (s.buf i).data } i := by
  rw [State.bwrite] at hok
  split at hok
  · cases hok
  · cases hu : (s.setBuf i fun b => { b with dirty := true }).iderw p i with
    | error e =>
      rw [hu] at hok
      cases hok
    | ok u =>
      rw [hu] at hok
      obtain ⟨hlock, hdev, hcases⟩ := iderw_cases hu
      rw [State.setBuf_buf_self] at hlock hdev hcases
      rcases hcases with ⟨-, rfl⟩ | ⟨hdirty, -⟩
      · refine ⟨hlock, hdev, (Except.ok.inj hok).symm.trans ?_⟩
        rw [State.setBuf_setBuf]
        rfl
      · cases hdirty

/-- Blocks are asked for on devices other than 0, and a buffer is released when
`log_write` or `bwrite` has been called since it was changed. -/
def Proper (s : State P) : Event P → Prop
  | .bget _ dev _ => dev ≠ 0
  | .brelse _ i => s.touched i = false
  | .acquiresleep _ | .bread _ | .modify _ _ _ | .logWrite _ _ | .bwrite _ _ | .unref _
  | .log _ => True

instance decidableProper (s : State P) : DecidablePred (Proper s)
  | .bget _ dev _ => inferInstanceAs (Decidable (dev ≠ 0))
  | .brelse _ i => inferInstanceAs (Decidable (s.touched i = false))
  | .acquiresleep _ | .bread _ | .modify _ _ _ | .logWrite _ _ | .bwrite _ _ | .unref _
  | .log _ => inferInstanceAs (Decidable True)

variable [Fintype P]

structure Inv (s : State P) : Prop where
  listed : s.Listed
  coherent : Coherent s
  held : Held s

theorem Inv.bget (h : Inv s) (hdev : dev ≠ 0) (hp : s.pc p = .idle)
    (hget : s.bget dev blockno = .ok (i, t)) : Inv (t.goto p (.waiting dev blockno i)) := by
  rcases bget_cases h.listed hget with ⟨hi, rfl⟩ | ⟨hfresh, hi, rfl⟩
  · refine ⟨h.listed, ?_, h.held.bump hdev hp hi⟩
    exact h.coherent.congr_update rfl ⟨rfl, rfl, rfl, rfl, rfl⟩ rfl rfl rfl
  · obtain ⟨hrefcnt, hdirty⟩ : (s.buf i).refcnt = 0 ∧ (s.buf i).dirty = false := by
      simpa [State.unused] using hi
    refine ⟨h.listed, ?_, h.held.recycle hdev hp hrefcnt⟩
    exact (h.coherent.recycle hdirty hfresh).congr (fun _ => .refl _) rfl rfl rfl

theorem Inv.acquiresleep (h : Inv s) (hp : s.pc p = .waiting dev blockno i)
    (hi : (s.buf i).lock = none) :
    Inv ((s.setBuf i fun b => { b with lock := some p }).goto p (.locked dev blockno i)) := by
  refine ⟨h.listed, ?_, h.held.acquiresleep hp hi⟩
  exact h.coherent.congr_update rfl ⟨rfl, rfl, rfl, rfl, rfl⟩ rfl rfl rfl

/-- What `bread` does once it has the lock: the buffer is valid and has the contents
of the block. -/
theorem Inv.bread (h : Inv s) (hp : s.pc p = .locked dev blockno i) (hok : s.bread p i = .ok t) :
    Inv (t.goto p .idle) ∧ (t.buf i).lock = some p ∧ (t.buf i).dev = dev ∧
      (t.buf i).blockno = blockno ∧ (t.buf i).data = s.contents dev blockno := by
  have hlock : (s.buf i).lock = some p := (h.held i).locked p (by rw [hp]; rfl)
  obtain ⟨-, hidev, hiblockno⟩ := (h.held i).asked p dev blockno (.inr hp)
  rw [State.bread] at hok
  split at hok
  · rename_i hinvalid
    have hclean : (s.buf i).dirty = false := by
      by_contra hdirty
      simp [h.coherent.dirty_valid i (Bool.eq_true_of_not_eq_false hdirty)] at hinvalid
    obtain ⟨-, hroot, ⟨hdirty, -⟩ | ⟨-, rfl⟩⟩ := iderw_cases hok
    · simp [hclean] at hdirty
    · refine ⟨⟨h.listed, ?_, ?_⟩, ?_, ?_, ?_, ?_⟩
      · exact (h.coherent.fill hroot hclean).congr (fun _ => .refl _) rfl rfl rfl
      · exact h.held.bread hp rfl rfl rfl rfl rfl rfl rfl rfl
      · rw [State.setBuf_buf_self, hlock]
      · rw [State.setBuf_buf_self, hidev]
      · rw [State.setBuf_buf_self, hiblockno]
      · rw [State.setBuf_buf_self, h.coherent.disk_eq hroot hclean, ← hroot, hidev, hiblockno]
  · rename_i hvalid
    obtain rfl := Except.ok.inj hok
    have hvalid : (s.buf i).valid = true := Bool.eq_true_of_not_eq_false hvalid
    -- The process has just got the lock, so nobody has changed the buffer.
    have htouched : s.touched i = false := by
      by_contra ht
      obtain ⟨q, hq, hnot⟩ := (h.held i).touched (Bool.eq_true_of_not_eq_false ht)
      cases hq.symm.trans hlock
      exact hnot (by rw [hp]; rfl)
    refine ⟨⟨h.listed, ?_, ?_⟩, hlock, hidev, hiblockno, ?_⟩
    · exact h.coherent.congr (fun _ => .refl _) rfl rfl rfl
    · exact h.held.bread hp (update_eq_self i s.buf).symm rfl rfl rfl rfl rfl rfl hvalid
    · rw [h.coherent.cached i hvalid htouched, hidev, hiblockno]

section

variable (h : Inv s) (hp : s.pc p = .idle)
include h hp

theorem Inv.modify (hi : (s.buf i).lock = some p) (d : Block) : Inv (s.modify i d) := by
  have hvalid := (h.held i).usable p hi (by simp [hp])
  refine ⟨h.listed, h.coherent.modify hvalid d, ?_⟩
  exact h.held.use hp hi rfl rfl (fun j hj => update_of_ne hj _ _) rfl rfl rfl rfl hvalid

theorem Inv.logWrite (hi : (s.buf i).lock = some p) (hok : s.logWrite i = .ok t) : Inv t := by
  have hvalid := (h.held i).usable p hi (by simp [hp])
  have hdev := h.coherent.valid_dev i hvalid
  obtain ⟨l, rfl⟩ := logWrite_cases hok
  refine ⟨h.listed, ?_, ?_⟩
  · exact h.coherent.give rfl hdev hdev rfl hvalid rfl rfl (fun _ _ => rfl) (by simp)
  · exact h.held.use hp hi rfl rfl (fun j hj => update_of_ne hj _ _) rfl rfl rfl rfl hvalid

theorem Inv.bwrite (hok : s.bwrite p i = .ok t) : Inv t := by
  obtain ⟨hi, hdev, rfl⟩ := bwrite_cases hok
  refine ⟨h.listed, ?_, ?_⟩
  · exact h.coherent.give rfl hdev hdev rfl rfl rfl rfl
      (fun b hb => update_of_ne hb _ _) fun _ => update_self _ _ _
  · exact h.held.use hp hi rfl rfl (fun j hj => update_of_ne hj _ _) rfl rfl rfl rfl rfl

theorem Inv.brelse (htouched : s.touched i = false) (hok : s.brelse p i = .ok t) : Inv t := by
  rw [State.brelse] at hok
  split at hok
  · cases hok
  · rename_i hlock
    obtain rfl := Except.ok.inj hok
    refine ⟨h.listed, ?_, h.held.brelse hp (not_not.1 hlock) htouched⟩
    exact h.coherent.congr_update rfl ⟨rfl, rfl, rfl, rfl, rfl⟩ rfl rfl rfl

end

theorem Inv.unref (h : Inv s) (hp : s.pc p = .released i) : Inv ((s.unref i).goto p .idle) := by
  refine ⟨unref_listed h.listed i, ?_, h.held.unref hp⟩
  exact h.coherent.congr_update (s.unref_buf i) ⟨rfl, rfl, rfl, rfl, rfl⟩ (s.unref_disk i)
    (s.unref_contents i) (s.unref_touched i)

omit [DecidableEq P] in
theorem Inv.log (h : Inv s) (l : Log) : Inv { s with log := l } :=
  ⟨h.listed, h.coherent.congr (fun _ => .refl _) rfl rfl rfl,
    fun i => (h.held i).frame rfl rfl fun _ => .inl rfl⟩

omit [DecidableEq P] in
theorem inv_boot (image : ℕ → Block) (diskSize : ℕ) (log : Log) :
    Inv (boot P image diskSize log) := by
  refine ⟨?_, ?_, ?_⟩
  · refine ⟨(List.finRange nBuf).reverse, ?_, fun i => by simp⟩
    have hnodup : ((List.finRange nBuf).reverse ++ []).Nodup := by
      rw [List.append_nil, List.nodup_reverse]
      exact List.nodup_finRange nBuf
    have hlinked := Links.linked_empty.foldl_insertFront hnodup
    rwa [List.append_nil] at hlinked
  · refine ⟨?_, ?_, ?_, ?_, fun b _ => rfl⟩
    · intro i j hi
      exact absurd rfl hi
    · intro i hi
      cases hi
    · intro i hi
      cases hi
    · intro i hi
      cases hi
  · intro i
    refine ⟨?_, ?_, ?_, ?_, ?_⟩
    · have hrefs : (boot P image diskSize log).refs i = 0 :=
        Finset.card_eq_zero.2 (Finset.filter_eq_empty_iff.2 fun _ _ => id)
      rw [hrefs]
      rfl
    · intro p d n hp
      simp [boot, Pc.reads] at hp
    · exact fun p hp => hp.elim
    · intro p hp
      cases hp
    · intro hp
      cases hp

theorem eq_ok_of_toOption {α : Type*} {x : Except Stop α} {a : α} (h : x.toOption = some a) :
    x = .ok a := by
  cases x with
  | error e => cases h
  | ok b =>
    cases h
    rfl

theorem step_inv (e : Event P) (h : Inv s) (he : Proper s e) (hstep : step s e = some t) :
    Inv t := by
  cases e with
  | bget p dev blockno =>
    obtain ⟨hp, hget⟩ := ite_none_right_eq_some.1 hstep
    obtain ⟨⟨i, u⟩, hu, rfl⟩ := map_eq_some_iff.1 hget
    exact h.bget he hp (eq_ok_of_toOption hu)
  | acquiresleep p =>
    simp only [step] at hstep
    split at hstep
    · rename_i dev blockno i hp
      obtain ⟨hi, rfl⟩ := ite_some_none_eq_some.1 hstep
      exact h.acquiresleep hp hi
    · cases hstep
  | bread p =>
    simp only [step] at hstep
    split at hstep
    · rename_i dev blockno i hp
      obtain ⟨u, hu, rfl⟩ := map_eq_some_iff.1 hstep
      exact (h.bread hp (eq_ok_of_toOption hu)).1
    · cases hstep
  | modify p i d =>
    obtain ⟨⟨hp, hi⟩, rfl⟩ := ite_some_none_eq_some.1 hstep
    exact h.modify hp hi d
  | logWrite p i =>
    obtain ⟨⟨hp, hi⟩, ht⟩ := ite_none_right_eq_some.1 hstep
    exact h.logWrite hp hi (eq_ok_of_toOption ht)
  | bwrite p i =>
    obtain ⟨hp, ht⟩ := ite_none_right_eq_some.1 hstep
    exact h.bwrite hp (eq_ok_of_toOption ht)
  | brelse p i =>
    obtain ⟨hp, ht⟩ := ite_none_right_eq_some.1 hstep
    exact h.brelse hp he (eq_ok_of_toOption ht)
  | unref p =>
    simp only [step] at hstep
    split at hstep
    · rename_i i hp
      cases hstep
      exact h.unref hp
    · cases hstep
  | log l =>
    cases hstep
    exact h.log l

/-- The cache shows each block as it was last given. -/
structure Transparent (s : State P) : Prop where
  /-- The list from the head links every buffer once, forwards and backwards. -/
  linked : ∃ order : List (Fin nBuf), s.links.Linked order ∧ ∀ i, order.count i = 1
  /-- So both searches of `bget` end. -/
  ends : ∀ dev blockno, s.bget dev blockno ≠ .error .endless
  /-- No block of a device other than 0 is cached twice. -/
  unique : ∀ i j, (s.buf i).dev ≠ 0 → (s.buf i).dev = (s.buf j).dev →
    (s.buf i).blockno = (s.buf j).blockno → i = j
  /-- `bread` returns a locked buffer with the contents last given to the block. -/
  returns : ∀ p dev blockno i t, s.pc p = .locked dev blockno i → step s (.bread p) = some t →
    (t.buf i).lock = some p ∧ (t.buf i).dev = dev ∧ (t.buf i).blockno = blockno ∧
      (t.buf i).data = s.contents dev blockno

theorem Inv.transparent (h : Inv s) : Transparent s := by
  obtain ⟨order, horder, hall⟩ := h.listed
  refine ⟨⟨order, horder, fun i => ?_⟩, bget_ne_endless h.listed, h.coherent.unique, ?_⟩
  · exact List.count_eq_one_of_mem horder.nodup (hall i)
  · intro p dev blockno i t hp hstep
    simp only [step, hp] at hstep
    obtain ⟨u, hu, rfl⟩ := map_eq_some_iff.1 hstep
    exact (h.bread hp (eq_ok_of_toOption hu)).2

/-- Whatever the processes read, change and release, in any order that the locks of
the buffers permit, the cache is transparent. -/
theorem buffer_cache_transparent {image : ℕ → Block} {diskSize : ℕ} {log : Log}
    {es : List (Event P)} (hes : Machine.Meets step Proper (boot P image diskSize log) es)
    (hrun : Machine.run step (boot P image diskSize log) es = some s) : Transparent s :=
  (hes.invariant (inv_boot image diskSize log) (fun _ e _ h he => step_inv e h he) hrun).transparent

theorem buffer_cache_transparent_loggedBlock :
    ∃ s, Machine.run step (boot (Fin 2) (fun _ _ => 0) 100 ⟨30, 1, []⟩)
        [.bget 0 1 5, .bget 1 1 5, .acquiresleep 0, .bread 0,
          .modify 0 ⟨0, by decide⟩ fun _ => 7, .logWrite 0 ⟨0, by decide⟩,
          .brelse 0 ⟨0, by decide⟩, .acquiresleep 1, .unref 0] = some s ∧
      s.pc 1 = .locked 1 5 ⟨0, by decide⟩ ∧ Transparent s := by
  obtain ⟨s, hs, hpc⟩ : ∃ s, Machine.run step (boot (Fin 2) (fun _ _ => 0) 100 ⟨30, 1, []⟩)
      [.bget 0 1 5, .bget 1 1 5, .acquiresleep 0, .bread 0, .modify 0 ⟨0, by decide⟩ fun _ => 7,
      .logWrite 0 ⟨0, by decide⟩, .brelse 0 ⟨0, by decide⟩, .acquiresleep 1, .unref 0] = some s ∧
      s.pc 1 = .locked 1 5 ⟨0, by decide⟩ := by decide +kernel
  exact ⟨s, hs, hpc, buffer_cache_transparent (by decide +kernel) hs⟩

end Xv6.BufferCache

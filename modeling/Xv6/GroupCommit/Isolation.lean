import Xv6.GroupCommit.Model

/-!
# Group commit isolates operations

`ops` are the processes between `begin_op` and `end_op`, and `owner` is the one
that commits. The invariant relates them to `outstanding` and `committing`, and
relates the header and the writes of the current commit to the history: until
the commit clears the header, it lists the blocks logged since the last commit,
and what a commit writes are exactly these.
-/

namespace Xv6.GroupCommit

open Machine Function List Option State List.Sublist

variable {P : Type*} {es fs : List (Event P)} {s t : State P} {p q : P} {b : ℕ} {c : Pc}
  {bs : List ℕ} {e : Event P} {size : ℕ}

@[simp] theorem group_concat (es : List (Event P)) (e : Event P) :
    group (es ++ [e]) = e.joinGroup (group es) := by
  simp [group]

@[simp] theorem ledger_concat (es : List (Event P)) (e : Event P) :
    ledger (es ++ [e]) = (ledger es).add e := by
  simp [ledger]

theorem mem_addBlock {a : ℕ} : a ∈ addBlock bs b ↔ a ∈ bs ∨ a = b := by
  unfold addBlock
  split_ifs with h
  · constructor
    · exact .inl
    · rintro (ha | rfl)
      · exact ha
      · exact h
  · simp

theorem nodup_addBlock (h : bs.Nodup) : (addBlock bs b).Nodup := by
  unfold addBlock
  split_ifs with hb
  · exact h
  · rw [← concat_eq_append]
    exact h.concat hb

def Progress (es : List (Event P)) (lh : List ℕ) : Pc → Prop
  | .writeLog tail => lh = group es ∧ tail ≤ lh.length ∧
      (ledger es).current = ⟨lh.take tail, [], []⟩
  | .install tail => lh = group es ∧ tail ≤ lh.length ∧
      (ledger es).current = ⟨lh, lh, lh.take tail⟩
  | .erase | .done => lh = [] ∧ (ledger es).current = ⟨group es, group es, group es⟩
  | _ => lh = group es ∧ (ledger es).current = ⟨[], [], []⟩

theorem role_wakeup (s : State P) (q : P) : (s.wakeup.pc q).role = (s.pc q).role := by
  simp only [wakeup]
  split_ifs with hq
  · rw [hq]
    rfl
  · rfl

variable [DecidableEq P]

theorem role_goto (s : State P) (p q : P) (c : Pc) :
    ((s.goto p c).pc q).role = if q = p then c.role else (s.pc q).role := by
  by_cases hq : q = p
  · simp [goto, hq]
  · simp [goto, hq]

@[simp] theorem loggedBy_concat (p : P) (es : List (Event P)) (e : Event P) :
    loggedBy p (es ++ [e]) = e.joinOp p (loggedBy p es) := by
  simp [loggedBy]

/-- `ops` are inside an operation and `owner` commits. -/
structure Roles (pc : P → Pc) (ops : Finset P) (owner : Option P) : Prop where
  op : ∀ p, p ∈ ops ↔ (pc p).role = .op
  commit : ∀ p, owner = some p ↔ (pc p).role = .commit

namespace Roles

variable {pc : P → Pc} {ops : Finset P} {owner : Option P}

/-- `p` takes up another role; the others keep theirs. -/
theorem change {ops' : Finset P} {owner' : Option P} (h : Roles pc ops owner)
    (hop : p ∈ ops' ↔ c.role = .op) (hcommit : owner' = some p ↔ c.role = .commit)
    (hother : ∀ q ≠ p, (q ∈ ops' ↔ q ∈ ops) ∧ (owner' = some q ↔ owner = some q)) :
    Roles (update pc p c) ops' owner' := by
  constructor
  · intro q
    by_cases hq : q = p
    · rwa [hq, update_self]
    · rw [update_of_ne hq, (hother q hq).1, h.op]
  · intro q
    by_cases hq : q = p
    · rwa [hq, update_self]
    · rw [update_of_ne hq, (hother q hq).2, h.commit]

theorem move (h : Roles pc ops owner) (hc : c.role = (pc p).role) :
    Roles (update pc p c) ops owner :=
  h.change (by rw [hc, h.op]) (by rw [hc, h.commit]) fun _ _ => ⟨.rfl, .rfl⟩

theorem enter (h : Roles pc ops owner) (hp : (pc p).role = .outside) (hc : c.role = .op) :
    Roles (update pc p c) (insert p ops) owner :=
  h.change (by simp [hc]) (by simp [hc, h.commit, hp]) fun q hq => ⟨by simp [hq], .rfl⟩

theorem leave (h : Roles pc ops owner) (hp : (pc p).role = .op) (hc : c.role = .outside) :
    Roles (update pc p c) (ops.erase p) owner :=
  h.change (by simp [hc]) (by simp [hc, h.commit, hp]) fun q hq => ⟨by simp [hq], .rfl⟩

theorem startCommit (h : Roles pc ops none) (hc : c.role = .commit) :
    Roles (update pc p c) (ops.erase p) (some p) :=
  h.change (by simp [hc]) (by simp [hc]) fun q hq => ⟨by simp [hq], by simp [Ne.symm hq]⟩

omit [DecidableEq P] in
theorem ne_owner (h : Roles pc ops owner) (hp : (pc p).role ≠ .commit) : owner ≠ some p :=
  fun howner => hp ((h.commit p).1 howner)

theorem endCommit (h : Roles pc ops (some p)) (hc : c.role = .outside) :
    Roles (update pc p c) ops none :=
  h.change (by simp [hc, h.op, (h.commit p).1 rfl]) (by simp [hc])
    fun q hq => ⟨.rfl, by simp [Ne.symm hq]⟩

omit [DecidableEq P] in
theorem wakeup (h : Roles s.pc ops owner) : Roles s.wakeup.pc ops owner := by
  constructor
  · intro q
    rw [role_wakeup, h.op]
  · intro q
    rw [role_wakeup, h.commit]

end Roles

structure Inv (es : List (Event P)) (s : State P) (ops : Finset P) (owner : Option P) :
    Prop where
  roles : Roles s.pc ops owner
  outstanding : s.outstanding = ops.card
  committing : s.committing = owner.isSome
  quiet : owner.isSome → ops = ∅
  settled : owner = none → ops = ∅ → s.lh = []
  nodup : s.lh.Nodup
  fits : s.lh.length ≤ logSize
  sound : s.halted ≠ some .outsideOfTrans ∧ s.halted ≠ some .logCommitting
  progress : Progress es s.lh (owner.elim .idle s.pc)
  logged : ∀ p ∈ ops, loggedBy p es ⊆ group es

/-- An event that neither logs a block nor writes one. -/
structure Event.Silent (e : Event P) : Prop where
  group : ∀ bs, e.joinGroup bs = bs
  ledger : ∀ l : Ledger, l.add e = l

omit [DecidableEq P] in
theorem Progress.silent {lh : List ℕ} (h : Progress es lh c) (he : e.Silent) :
    Progress (es ++ [e]) lh c := by
  have hgroup : group (es ++ [e]) = group es := by
    rw [group_concat, he.group]
  have hledger : ledger (es ++ [e]) = ledger es := by
    rw [ledger_concat, he.ledger]
  cases c <;> simpa only [Progress, hgroup, hledger] using h

theorem elim_update_of_ne {owner : Option P} (h : owner ≠ some p) (pc : P → Pc) (c : Pc) :
    owner.elim .idle (update pc p c) = owner.elim .idle pc := by
  cases owner with
  | none => rfl
  | some q =>
    have hqp : q ≠ p := fun hq => h (by rw [hq])
    simp [update_of_ne hqp]

namespace Inv

variable {ops : Finset P} {owner : Option P} {e : Event P}

section

variable (h : Inv es s ops owner) (he : e.Silent)
  (hop : ∀ q ∈ ops, e.joinOp q (loggedBy q es) = loggedBy q es)
include h he hop

theorem move (hp : (s.pc p).role ≠ .commit) (hc : c.role = (s.pc p).role) :
    Inv (es ++ [e]) (s.goto p c) ops owner :=
  { h with
    roles := h.roles.move hc
    progress := by
      have hne := h.roles.ne_owner hp
      simpa only [goto, elim_update_of_ne hne] using h.progress.silent he
    logged := fun q hq => by
      rw [loggedBy_concat, hop q hq, group_concat, he.group]
      exact h.logged q hq }

theorem halt {x : Panic} (hx : x ≠ .outsideOfTrans ∧ x ≠ .logCommitting) :
    Inv (es ++ [e]) (s.halt x) ops owner :=
  { h with
    sound := by simpa [State.halt] using hx
    progress := h.progress.silent he
    logged := fun q hq => by
      rw [loggedBy_concat, hop q hq, group_concat, he.group]
      exact h.logged q hq }

end

theorem commitMove (h : Inv es s ops (some p)) (hc : c.role = .commit) {lh : List ℕ}
    (hlh : lh.Sublist s.lh) (hprogress : Progress (es ++ [e]) lh c) :
    Inv (es ++ [e]) { s.goto p c with lh := lh } ops (some p) :=
  { h with
    roles := h.roles.move (hc.trans ((h.roles.commit p).1 rfl).symm)
    settled := by simp
    nodup := h.nodup.sublist hlh
    fits := hlh.length_le.trans h.fits
    progress := by simpa [goto] using hprogress
    logged := fun q hq => by
      rw [h.quiet rfl] at hq
      exact absurd hq (Finset.notMem_empty q) }

section

variable (h : Inv es s ops owner)
include h

theorem card_pos (hp : (s.pc p).role = .op) : 0 < ops.card :=
  Finset.card_pos.2 ⟨p, (h.roles.op p).2 hp⟩

theorem owner_eq_none (hp : (s.pc p).role = .op) : owner = none := by
  by_contra howner
  have hempty := h.quiet (isSome_iff_ne_none.2 howner)
  have hmem := (h.roles.op p).2 hp
  rw [hempty] at hmem
  exact absurd hmem (Finset.notMem_empty p)

theorem beginOp (hs : s.beginOp p = some t) : ∃ ops, Inv (es ++ [.beginOp p]) t ops owner := by
  have hsilent : (Event.beginOp p).Silent := ⟨fun _ => rfl, fun _ => rfl⟩
  rw [State.beginOp, ite_none_right_eq_some] at hs
  obtain ⟨hpc, hs⟩ := hs
  have hrole : (s.pc p).role = .outside := by
    rcases hpc with hpc | hpc <;> rw [hpc] <;> rfl
  have hnotMem : p ∉ ops := fun hmem => by
    simp [h.roles.op, hrole] at hmem
  have hop : ∀ q ∈ ops, (Event.beginOp p).joinOp q (loggedBy q es) = loggedBy q es := by
    intro q hq
    exact if_neg (ne_of_mem_of_not_mem hq hnotMem).symm
  have hsleep : Inv (es ++ [.beginOp p]) (s.goto p .asleep) ops owner :=
    h.move hsilent hop (by rw [hrole]; decide) (by rw [hrole]; rfl)
  split_ifs at hs with hcommitting hroom
  · cases hs
    exact ⟨ops, hsleep⟩
  · cases hs
    exact ⟨ops, hsleep⟩
  · cases hs
    have howner : owner = none := by
      rw [h.committing] at hcommitting
      simpa using hcommitting
    subst howner
    refine ⟨insert p ops, h.roles.enter hrole rfl, ?_, h.committing, by simp, by simp,
      h.nodup, h.fits, h.sound, h.progress.silent hsilent, ?_⟩
    · rw [Finset.card_insert_of_notMem hnotMem, h.outstanding]
      rfl
    · intro q hq
      rcases Finset.mem_insert.1 hq with rfl | hq
      · simp [Event.joinOp]
      · rw [loggedBy_concat, hop q hq, group_concat]
        exact h.logged q hq

theorem testRoom (hs : s.testRoom p b = some t) : Inv (es ++ [.testRoom p b]) t ops owner := by
  have hsilent : (Event.testRoom p b).Silent := ⟨fun _ => rfl, fun _ => rfl⟩
  rw [State.testRoom, ite_none_right_eq_some] at hs
  obtain ⟨hpc, hs⟩ := hs
  split_ifs at hs with hroom
  · cases hs
    exact h.halt hsilent (fun _ _ => rfl) (by decide)
  · cases hs
    exact h.move hsilent (fun _ _ => rfl) (by rw [hpc]; decide) (by rw [hpc]; rfl)

theorem testTrans (hs : s.testTrans p = some t) : Inv (es ++ [.testTrans p]) t ops owner := by
  have hsilent : (Event.testTrans p).Silent := ⟨fun _ => rfl, fun _ => rfl⟩
  rw [State.testTrans] at hs
  split at hs
  case h_1 b hpc =>
    have hpos := h.card_pos (p := p) (by rw [hpc]; rfl)
    have houtstanding := h.outstanding
    rw [if_neg (by omega)] at hs
    cases hs
    exact h.move hsilent (fun _ _ => rfl) (by simp [hpc, Pc.role]) (by rw [hpc]; rfl)
  case h_2 => cases hs

theorem record (hs : s.record p b = some t) : Inv (es ++ [.record p b]) t ops owner := by
  obtain ⟨⟨hpc, hroom⟩, rfl⟩ := ite_some_none_eq_some.1 hs
  have hrole : (s.pc p).role = .op := by
    rw [hpc]
    rfl
  obtain rfl := h.owner_eq_none hrole
  have hmem := (h.roles.op p).2 hrole
  obtain ⟨hgroup, hcurrent⟩ := h.progress
  refine ⟨h.roles.move (by rw [hpc]; rfl), h.outstanding, h.committing, h.quiet, ?_,
    nodup_addBlock h.nodup, ?_, h.sound, ⟨?_, ?_⟩, ?_⟩
  · intro _ hempty
    rw [hempty] at hmem
    exact absurd hmem (Finset.notMem_empty p)
  · have hfits := h.fits
    simp only [addBlock]
    split_ifs with hb
    · exact hfits
    · rw [length_append, length_singleton]
      exact hroom.resolve_left hb
  · simp [Event.joinGroup, hgroup]
  · rw [ledger_concat]
    exact hcurrent
  · intro q hq a ha
    rw [loggedBy_concat] at ha
    rw [group_concat]
    simp only [Event.joinOp, Event.joinGroup] at ha ⊢
    split_ifs at ha
    · rw [mem_addBlock] at ha ⊢
      exact ha.imp_left fun ha => h.logged q hq ha
    · exact mem_addBlock.2 (.inl (h.logged q hq ha))

theorem overrun (hs : s.overrun p b = some t) : Inv (es ++ [.overrun p b]) t ops owner := by
  obtain ⟨-, rfl⟩ := ite_some_none_eq_some.1 hs
  exact h.halt ⟨fun _ => rfl, fun _ => rfl⟩ (fun _ _ => rfl) (by decide)

/-- `end_op` never finds a commit under way. -/
theorem endOp (hs : s.endOp p = some t) : ∃ ops owner, Inv (es ++ [.endOp p]) t ops owner := by
  have hsilent : (Event.endOp p).Silent := ⟨fun _ => rfl, fun _ => rfl⟩
  rw [State.endOp, ite_none_right_eq_some] at hs
  obtain ⟨hpc, hs⟩ := hs
  have hrole : (s.pc p).role = .op := by
    rw [hpc]
    rfl
  obtain rfl := h.owner_eq_none hrole
  have hmem := (h.roles.op p).2 hrole
  have hcommitting : s.committing = false := h.committing
  have hcard : s.outstanding - 1 = (ops.erase p).card := by
    have hpos := h.card_pos hrole
    rw [h.outstanding, Finset.card_erase_of_mem hmem]
    omega
  have hlogged : ∀ q ∈ ops.erase p, loggedBy q (es ++ [.endOp p]) ⊆
      group (es ++ [.endOp p]) := by
    intro q hq
    rw [loggedBy_concat, group_concat]
    exact h.logged q (Finset.mem_of_mem_erase hq)
  rw [if_neg (by simp [hcommitting])] at hs
  split_ifs at hs with hlast
  · cases hs
    have hempty : ops.erase p = ∅ := by
      exact Finset.card_eq_zero.1 (by omega)
    refine ⟨ops.erase p, some p, h.roles.startCommit rfl, hcard, rfl, fun _ => hempty,
      by simp, h.nodup, h.fits, h.sound, ?_, hlogged⟩
    have hprogress : Progress (es ++ [.endOp p]) s.lh .entry := h.progress.silent hsilent
    simpa [goto] using hprogress
  · cases hs
    have hroles : Roles ({ s with outstanding := s.outstanding - 1 }.goto p .idle).pc
        (ops.erase p) none := h.roles.leave hrole rfl
    refine ⟨ops.erase p, none, hroles.wakeup, hcard, h.committing, by simp, ?_, h.nodup,
      h.fits, h.sound, h.progress.silent hsilent, hlogged⟩
    intro _ hempty
    rw [hcard, hempty] at hlast
    exact absurd rfl hlast

theorem during (hpc : s.pc p = c) (hc : c.role = .commit) :
    owner = some p ∧ Progress es s.lh c := by
  obtain rfl : owner = some p := (h.roles.commit p).2 (hpc ▸ hc)
  exact ⟨rfl, hpc ▸ h.progress⟩

theorem commitTest (hs : s.commitTest p = some t) : Inv (es ++ [.commitTest p]) t ops owner := by
  rw [State.commitTest, ite_none_right_eq_some] at hs
  obtain ⟨hpc, hs⟩ := hs
  obtain ⟨rfl, hgroup, hcurrent⟩ := h.during hpc rfl
  split_ifs at hs with hpos
  · cases hs
    refine h.commitMove rfl (refl _) ⟨?_, Nat.zero_le _, ?_⟩
    · rw [group_concat]
      exact hgroup
    · rw [ledger_concat]
      exact hcurrent
  · cases hs
    have hnil : s.lh = [] := eq_nil_of_length_eq_zero (by omega)
    refine h.commitMove rfl (refl _) ⟨hnil, ?_⟩
    simpa [Event.joinGroup, Ledger.add, ← hgroup, hnil] using hcurrent

end

theorem take_concat_of_getElem? {l : List ℕ} {i : ℕ} (h : l[i]? = some b) :
    l.take i ++ [b] = l.take (i + 1) := by
  rw [take_add_one, h]
  rfl

section

variable (h : Inv es s ops owner)
include h

theorem copyBlock (hs : s.copyBlock p b = some t) : Inv (es ++ [.copyBlock p b]) t ops owner := by
  rw [State.copyBlock] at hs
  split at hs
  case h_1 tail hpc =>
    obtain ⟨hb, rfl⟩ := ite_some_none_eq_some.1 hs
    obtain ⟨rfl, hgroup, -, hcurrent⟩ := h.during hpc rfl
    refine h.commitMove rfl (refl _) ⟨?_, ?_, ?_⟩
    · rw [group_concat]
      exact hgroup
    · exact (List.getElem?_eq_some_iff.1 hb).1
    · rw [ledger_concat, Ledger.add, hcurrent, ← take_concat_of_getElem? hb]
  case h_2 => cases hs

theorem writeHead (hs : s.writeHead p bs = some t) : Inv (es ++ [.writeHead p bs]) t ops owner := by
  rw [State.writeHead] at hs
  split at hs
  case h_1 tail hpc =>
    obtain ⟨⟨htail, rfl⟩, rfl⟩ := ite_some_none_eq_some.1 hs
    obtain ⟨rfl, hgroup, -, hcurrent⟩ := h.during hpc rfl
    refine h.commitMove rfl (refl _) ⟨?_, Nat.zero_le _, ?_⟩
    · rw [group_concat]
      exact hgroup
    · rw [ledger_concat, Ledger.add, hcurrent, take_of_length_le htail, take_zero]
  case h_2 => cases hs

theorem installBlock (hs : s.installBlock p b = some t) :
    Inv (es ++ [.installBlock p b]) t ops owner := by
  rw [State.installBlock] at hs
  split at hs
  case h_1 tail hpc =>
    obtain ⟨hb, rfl⟩ := ite_some_none_eq_some.1 hs
    obtain ⟨rfl, hgroup, -, hcurrent⟩ := h.during hpc rfl
    refine h.commitMove rfl (refl _) ⟨?_, ?_, ?_⟩
    · rw [group_concat]
      exact hgroup
    · exact (List.getElem?_eq_some_iff.1 hb).1
    · rw [ledger_concat, Ledger.add, hcurrent, ← take_concat_of_getElem? hb]
  case h_2 => cases hs

theorem clearHead (hs : s.clearHead p = some t) : Inv (es ++ [.clearHead p]) t ops owner := by
  rw [State.clearHead] at hs
  split at hs
  case h_1 tail hpc =>
    obtain ⟨htail, rfl⟩ := ite_some_none_eq_some.1 hs
    obtain ⟨rfl, hgroup, -, hcurrent⟩ := h.during hpc rfl
    refine h.commitMove rfl (nil_sublist _) ⟨rfl, ?_⟩
    rw [take_of_length_le htail, hgroup] at hcurrent
    rw [ledger_concat, group_concat]
    exact hcurrent
  case h_2 => cases hs

theorem eraseHead (hs : s.eraseHead p bs = some t) : Inv (es ++ [.eraseHead p bs]) t ops owner := by
  obtain ⟨⟨hpc, -⟩, rfl⟩ := ite_some_none_eq_some.1 hs
  obtain ⟨rfl, hnil, hcurrent⟩ := h.during hpc rfl
  refine h.commitMove rfl (refl _) ⟨hnil, ?_⟩
  rw [ledger_concat, group_concat]
  exact hcurrent

theorem finish (hs : s.finish p = some t) : Inv (es ++ [.finish p]) t ops none := by
  obtain ⟨hpc, rfl⟩ := ite_some_none_eq_some.1 hs
  obtain ⟨rfl, hnil, -⟩ := h.during hpc rfl
  have hempty := h.quiet rfl
  have hroles : Roles ({ s with committing := false }.goto p .idle).pc ops none :=
    h.roles.endCommit rfl
  refine ⟨hroles.wakeup, h.outstanding, rfl, by simp, fun _ _ => hnil, h.nodup, h.fits,
    h.sound, ⟨?_, ?_⟩, ?_⟩
  · rw [group_concat]
    exact hnil
  · rw [ledger_concat]
    rfl
  · intro q hq
    rw [hempty] at hq
    exact absurd hq (Finset.notMem_empty q)

theorem step (hs : GroupCommit.step s e = some t) : ∃ ops owner, Inv (es ++ [e]) t ops owner := by
  obtain ⟨-, hs⟩ := ite_none_left_eq_some.1 hs
  cases e with
  | beginOp p =>
    obtain ⟨ops, hops⟩ := h.beginOp hs
    exact ⟨ops, owner, hops⟩
  | testRoom p b => exact ⟨ops, owner, h.testRoom hs⟩
  | testTrans p => exact ⟨ops, owner, h.testTrans hs⟩
  | record p b => exact ⟨ops, owner, h.record hs⟩
  | overrun p b => exact ⟨ops, owner, h.overrun hs⟩
  | endOp p => exact h.endOp hs
  | commitTest p => exact ⟨ops, owner, h.commitTest hs⟩
  | copyBlock p b => exact ⟨ops, owner, h.copyBlock hs⟩
  | writeHead p bs => exact ⟨ops, owner, h.writeHead hs⟩
  | installBlock p b => exact ⟨ops, owner, h.installBlock hs⟩
  | clearHead p => exact ⟨ops, owner, h.clearHead hs⟩
  | eraseHead p bs => exact ⟨ops, owner, h.eraseHead hs⟩
  | finish p => exact ⟨ops, none, h.finish hs⟩

end

theorem initlog (size : ℕ) : Inv [] (GroupCommit.initlog P size) ∅ none where
  roles := by
    constructor <;> intro p <;> simp [GroupCommit.initlog, Pc.role]
  outstanding := rfl
  committing := rfl
  quiet _ := rfl
  settled _ _ := rfl
  nodup := nodup_nil
  fits := Nat.zero_le _
  sound := by simp [GroupCommit.initlog]
  progress := ⟨rfl, rfl⟩
  logged p hp := absurd hp (Finset.notMem_empty p)

theorem run (hrun : Machine.run GroupCommit.step (GroupCommit.initlog P size) es =
    some s) : ∃ ops owner, Inv es s ops owner :=
  run_history (I := fun es s => ∃ ops owner, Inv es s ops owner) ⟨∅, none, initlog size⟩
    (fun _ _ _ _ _ ⟨_, _, h⟩ hs => h.step hs) hrun

end Inv

/-- What every step has in common: the log keeps its size, only `begin_op` takes
a process into an operation, only `log_write` adds to the header, and only its
first test finds the transaction too big. -/
structure StepFacts (s : State P) (e : Event P) (t : State P) : Prop where
  running : s.halted = none
  size : t.size = s.size
  role_op : ∀ p, (t.pc p).role = .op → e ≠ .beginOp p → (s.pc p).role = .op
  length_lh : (∀ p b, e ≠ .record p b) → t.lh.length ≤ s.lh.length
  tooBig : t.halted = some .tooBig → ∃ p b, e = .testRoom p b

theorem step_facts (hs : step s e = some t) : StepFacts s e t := by
  obtain ⟨hrunning, hstep⟩ := ite_none_left_eq_some.1 hs
  rw [not_isSome_iff_eq_none] at hrunning
  cases e <;>
    simp only [beginOp, testRoom, testTrans, record, overrun,
      endOp, commitTest, copyBlock, writeHead, installBlock,
      clearHead, eraseHead, finish] at hstep <;>
    repeat' split at hstep
  all_goals cases hstep
  all_goals refine ⟨hrunning, rfl, fun q hq hne => ?_, fun hne => ?_, fun htooBig => ?_⟩
  -- the roles
  all_goals try
    simp only [role_goto, role_wakeup, halt] at hq
    grind [Pc.role]
  -- the header
  all_goals try
    simp_all [goto, wakeup, halt]

theorem step_finish (hs : step s (.finish p) = some t) : s.pc p = .done := by
  obtain ⟨-, hstep⟩ := ite_none_left_eq_some.1 hs
  exact (ite_none_right_eq_some.1 hstep).1

theorem step_endOp (hs : step s (.endOp p) = some t) : s.pc p = .inOp := by
  obtain ⟨-, hstep⟩ := ite_none_left_eq_some.1 hs
  exact (ite_none_right_eq_some.1 hstep).1

omit [DecidableEq P] in
theorem Ledger.finished_add (l : Ledger) (he : ∀ q, e ≠ .finish q) :
    (l.add e).finished = l.finished := by
  cases e with
  | finish q => exact absurd rfl (he q)
  | _ => rfl

omit [DecidableEq P] in
theorem subset_joinGroup (bs : List ℕ) (he : ∀ q, e ≠ .finish q) : bs ⊆ e.joinGroup bs := by
  cases e with
  | finish q => exact absurd rfl (he q)
  | record q b => exact fun a ha => mem_addBlock.2 (.inl ha)
  | _ => exact List.Subset.refl bs

/-- No commit finishes while a process is in an operation. -/
theorem finished_of_inOp {mid : List (Event P)}
    (hrun : run step (initlog P size) (es ++ .beginOp p :: mid) = some s)
    (hmid : .beginOp p ∉ mid) (hp : (s.pc p).role = .op) :
    (ledger (es ++ .beginOp p :: mid)).finished = (ledger es).finished := by
  induction mid using List.reverseRecOn generalizing s with
  | nil =>
    rw [ledger_concat]
    rfl
  | append_singleton mid e ih =>
    rw [← cons_append, ← append_assoc] at hrun ⊢
    obtain ⟨r, hr, he⟩ := run_concat.1 hrun
    simp only [mem_append, mem_singleton, not_or] at hmid
    have hrole : (r.pc p).role = .op := (step_facts he).role_op p hp (Ne.symm hmid.2)
    obtain ⟨ops, owner, hinv⟩ := Inv.run hr
    have hne : ∀ q, e ≠ .finish q := by
      rintro q rfl
      have hsome := (hinv.during (step_finish he) rfl).1
      simp [hinv.owner_eq_none hrole] at hsome
    rw [ledger_concat, Ledger.finished_add _ hne]
    exact ih hr hmid.1 hrole

/-- Once `bs` are in the group, the next commit to finish writes all of them. -/
theorem group_written (hbs : bs ⊆ group es) (hrun : run step (initlog P size) (es ++ fs) = some s) :
    ((ledger (es ++ fs)).finished = (ledger es).finished ∧ bs ⊆ group (es ++ fs)) ∨
      ∃ r, (ledger (es ++ fs)).finished[(ledger es).finished.length]? = some r ∧
        bs ⊆ r.copied ∧ bs ⊆ r.header ∧ bs ⊆ r.installed := by
  induction fs using List.reverseRecOn generalizing s with
  | nil =>
    rw [append_nil]
    exact .inl ⟨rfl, hbs⟩
  | append_singleton fs e ih =>
    rw [← append_assoc] at hrun ⊢
    obtain ⟨r, hr, he⟩ := run_concat.1 hrun
    rw [ledger_concat, group_concat]
    by_cases hfinish : ∃ q, e = .finish q
    · obtain ⟨q, rfl⟩ := hfinish
      obtain ⟨ops, owner, hinv⟩ := Inv.run hr
      have hpc := step_finish he
      obtain ⟨rfl, -, hcurrent⟩ := hinv.during hpc rfl
      refine .inr ?_
      rcases ih hr with ⟨hfinished, hgroup⟩ | ⟨c, hc, hwritten⟩
      · refine ⟨(ledger (es ++ fs)).current, ?_, ?_⟩
        · simp [Ledger.add, hfinished]
        · rw [hcurrent]
          exact ⟨hgroup, hgroup, hgroup⟩
      · exact ⟨c, List.getElem?_append_left (List.getElem?_eq_some_iff.1 hc).1 ▸ hc, hwritten⟩
    · simp only [not_exists] at hfinish
      rw [Ledger.finished_add _ hfinish]
      refine (ih hr).imp_left fun ⟨hfinished, hgroup⟩ => ⟨hfinished, ?_⟩
      exact List.Subset.trans hgroup (subset_joinGroup _ hfinish)

/-- Group commit isolates operations: nobody is in an operation during a commit,
neither consistency panic is reached, the header has no duplicates, no commit
finishes within an operation, and the first one to finish after its `end_op`
writes all the blocks it has logged. -/
theorem operation_committed_together {es : List (Event P)} {s : State P}
    (hrun : run step (initlog P size) es = some s) :
    (s.committing = true → s.outstanding = 0) ∧
      s.halted ≠ some .logCommitting ∧ s.halted ≠ some .outsideOfTrans ∧ s.lh.Nodup ∧
      ∀ pre p post, es = pre ++ .endOp p :: post →
        (∀ first mid, pre = first ++ .beginOp p :: mid → .beginOp p ∉ mid →
          (ledger pre).finished = (ledger first).finished) ∧
        ∀ r, (ledger es).finished[(ledger pre).finished.length]? = some r →
          ∀ b ∈ loggedBy p pre, b ∈ r.copied ∧ b ∈ r.header ∧ b ∈ r.installed := by
  obtain ⟨ops, owner, h⟩ := Inv.run hrun
  refine ⟨fun hcommitting => ?_, h.sound.2, h.sound.1, h.nodup, ?_⟩
  · rw [h.committing] at hcommitting
    rw [h.outstanding, h.quiet hcommitting]
    rfl
  rintro pre p post rfl
  obtain ⟨t, ht, hpost⟩ := run_append_eq_some.1 hrun
  rw [run_cons, bind_eq_some_iff] at hpost
  obtain ⟨u, hu, -⟩ := hpost
  have hrole : (t.pc p).role = .op := by
    rw [step_endOp hu]
    rfl
  obtain ⟨ops', owner', h'⟩ := Inv.run ht
  constructor
  · rintro first mid rfl hmid
    exact finished_of_inOp ht hmid hrole
  · intro r hr b hb
    have hgroup := h'.logged p ((h'.roles.op p).2 hrole)
    rcases group_written hgroup hrun with ⟨hfinished, -⟩ | ⟨c, hc, hcopied, hheader, hinst⟩
    · rw [hfinished] at hr
      simp at hr
    · rw [hc] at hr
      cases hr
      exact ⟨hcopied hb, hheader hb, hinst hb⟩

/-- Two overlapping operations that log one block each. -/
def twoOperations : List (Event (Fin 2)) :=
  [.beginOp 0, .beginOp 1, .testRoom 0 7, .testTrans 0, .record 0 7, .endOp 0,
    .testRoom 1 8, .testTrans 1, .record 1 8, .endOp 1, .commitTest 1, .copyBlock 1 7,
    .copyBlock 1 8, .writeHead 1 [7, 8], .installBlock 1 7, .installBlock 1 8, .clearHead 1,
    .eraseHead 1 [], .finish 1]

theorem operation_committed_together_twoOperations :
    ∃ r, (ledger twoOperations).finished[0]? = some r ∧ 7 ∈ r.copied ∧ 7 ∈ r.header ∧
      7 ∈ r.installed := by
  obtain ⟨s, hrun⟩ : ∃ s, run step (initlog (Fin 2) nlog) twoOperations = some s :=
    isSome_iff_exists.1 (by decide)
  obtain ⟨-, -, -, -, hops⟩ := operation_committed_together hrun
  obtain ⟨-, hwritten⟩ := hops (twoOperations.take 5) 0 (twoOperations.drop 6) rfl
  exact ⟨_, rfl, hwritten _ rfl 7 (by decide)⟩

end Xv6.GroupCommit

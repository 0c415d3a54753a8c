import Xv6.PTable.History

/-!
# The process tree

Every process but init has a parent that is alive, since `exit` passes its children on to
init, and init does not exit. A process that sleeps in `wait` has no dead child, because
`exit` wakes the parent before it dies and wakes init when it passes on a dead child; both
happen under `ptable.lock`. `wait` therefore returns each child once, to the process that
forked it or to init when that process has exited.
-/

namespace Xv6.PTable

open Machine List Function ProcState

variable {C : Type*} {s t : State C} {p q np : Slot} {x : Proc}

/-! ## The tree -/

structure Tree (s : State C) : Prop where
  root : (s.proc s.initproc).state.alive ∧ (s.proc s.initproc).parent = none
  parent : ∀ q ≠ s.initproc, (s.proc q).state.live →
    ∃ p, p ≠ q ∧ (s.proc q).parent = some p ∧ (s.proc p).state.alive
  forking : ∀ p, s.fork p ≠ .idle → (s.proc p).state.alive
  copied : ∀ p np, s.fork p = .copied np → (s.proc np).parent = some p
  waits : ∀ q, (s.pc q).inWait → (s.proc q).state = .sleeping →
    (s.proc q).chan = .proc q ∧ ∀ r, (s.proc r).parent = some q → (s.proc r).state ≠ .zombie

theorem Inv.ne_child (h : Inv s) (hp : (s.fork p).child = some np) (r : Slot) (hr : r ≠ p) :
    (s.fork r).child ≠ some np :=
  fun hchild => hr (h.builders r p np hchild hp)

namespace Tree

theorem userinit (C : Type*) (initproc : Slot) (kstack pgdir : ℕ) :
    Tree (PTable.userinit C initproc kstack pgdir) where
  root := by simp [PTable.userinit, alive]
  parent q hq hlive := by
    simp only [PTable.userinit] at hq hlive
    simp [if_neg hq] at hlive
  forking p hp := absurd rfl hp
  copied p np hp := by cases hp
  waits q hq := by cases hq

theorem keep (h : Tree s) (hk : Keeps s t) (hinit : t.initproc = s.initproc)
    (hasleep : Asleep s t) : Tree t where
  root := by
    rw [hinit, hk.alive, hk.parent]
    exact h.root
  parent q hq hlive := by
    rw [hinit] at hq
    obtain ⟨p, hne, hparent, halive⟩ := h.parent q hq ((hk.live q).1 hlive)
    exact ⟨p, hne, (hk.parent q).trans hparent, (hk.alive p).trans halive⟩
  forking p hp := by
    rw [hk.fork] at hp
    exact (hk.alive p).trans (h.forking p hp)
  copied p np hp := by
    rw [hk.fork] at hp
    exact (hk.parent np).trans (h.copied p np hp)
  waits q hwait hsleep := by
    rcases hasleep q hwait hsleep with ⟨hwait, hsleep, hchan⟩ | hfound
    · obtain ⟨hproc, hnone⟩ := h.waits q hwait hsleep
      refine ⟨hchan.trans hproc, fun r hr hz => ?_⟩
      exact hnone r ((hk.parent r).symm.trans hr) ((hk.zombie r).1 hz)
    · exact hfound

theorem update (h : Tree s) (hproc : t.proc = Function.update s.proc np x)
    (hnp : (s.proc np).state.alive = false) (hz : x.state ≠ .zombie)
    (hx : x.state.live → ∃ p, p ≠ np ∧ x.parent = some p ∧ (s.proc p).state.alive)
    (hforking : ∀ p, t.fork p ≠ .idle → (s.proc p).state.alive)
    (hcopied : ∀ p n, t.fork p = .copied n → (t.proc n).parent = some p)
    (hinit : t.initproc = s.initproc) (hasleep : Asleep s t) : Tree t := by
  have halive : ∀ p, (s.proc p).state.alive → p ≠ np ∧ (t.proc p) = s.proc p := by
    intro p hp
    have hne : p ≠ np := by
      rintro rfl
      simp [hp] at hnp
    exact ⟨hne, by rw [hproc, update_of_ne hne]⟩
  refine ⟨?_, fun q hq hlive => ?_, fun p hp => ?_, hcopied, fun q hwait hsleep => ?_⟩
  · rw [hinit, (halive _ h.root.1).2]
    exact h.root
  · by_cases hqn : q = np
    · subst hqn
      rw [hproc, update_self] at hlive ⊢
      obtain ⟨p, hne, hparent, hp⟩ := hx hlive
      exact ⟨p, hne, hparent, by rwa [update_of_ne hne]⟩
    · rw [hproc, update_of_ne hqn] at hlive
      obtain ⟨p, hne, hparent, hp⟩ := h.parent q (hinit ▸ hq) hlive
      refine ⟨p, hne, ?_, by rwa [(halive p hp).2]⟩
      rw [hproc, update_of_ne hqn]
      exact hparent
  · have hp' := hforking p hp
    rwa [(halive p hp').2]
  · rcases hasleep q hwait hsleep with ⟨hwait, hsleep, hchan⟩ | hfound
    · obtain ⟨hown, hnone⟩ := h.waits q hwait hsleep
      refine ⟨hchan.trans hown, fun r hr hzombie => ?_⟩
      by_cases hrn : r = np
      · subst hrn
        rw [hproc, update_self] at hzombie
        exact hz hzombie
      · rw [hproc, update_of_ne hrn] at hr hzombie
        exact hnone r hr hzombie
    · exact hfound

theorem forking_update (h : Tree s) {f : ForkPc} (hfork : t.fork = Function.update s.fork p f)
    (hp : f ≠ .idle → (s.proc p).state.alive) (r : Slot) (hr : t.fork r ≠ .idle) :
    (s.proc r).state.alive := by
  by_cases hrp : r = p
  · subst hrp
    rw [hfork, update_self] at hr
    exact hp hr
  · rw [hfork, update_of_ne hrp] at hr
    exact h.forking r hr

theorem copied_update (h : Tree s) {f : ForkPc}
    (hproc : t.proc = Function.update s.proc np x) (hfork : t.fork = Function.update s.fork p f)
    (hne : ∀ r ≠ p, (s.fork r).child ≠ some np)
    (hf : ∀ n, f = .copied n → n = np ∧ x.parent = some p) (r n : Slot)
    (hn : t.fork r = .copied n) : (t.proc n).parent = some r := by
  by_cases hrp : r = p
  · subst hrp
    rw [hfork, update_self] at hn
    obtain ⟨rfl, hparent⟩ := hf n hn
    rwa [hproc, update_self]
  · rw [hfork, update_of_ne hrp] at hn
    have hnp : n ≠ np := by
      rintro rfl
      exact hne r hrp (by rw [hn]; rfl)
    rw [hproc, update_of_ne hnp]
    exact h.copied r n hn

theorem exit (h : Tree s) (he : Exits s t p) (hinit : t.initproc = s.initproc)
    (hasleep : Asleep s t) : Tree t := by
  have halive : ∀ q ≠ p, (s.proc q).state.alive → (t.proc q).state.alive := by
    intro q hq hs
    rcases he.others q hq with hsame | ⟨-, hrunnable⟩
    · rwa [hsame]
    · rw [hrunnable]
      rfl
  have hlive : ∀ q, (t.proc q).state.live → (s.proc q).state.live := by
    intro q ht
    by_cases hq : q = p
    · subst hq
      rw [he.running]
      rfl
    · rcases he.others q hq with hsame | ⟨hsleep, -⟩
      · rwa [← hsame]
      · rw [hsleep]
        rfl
  refine ⟨?_, fun q hq ht => ?_, fun q hq => ?_, fun q np hq => ?_, fun q hwait hsleep => ?_⟩
  · rw [hinit, he.parent, h.root.2]
    exact ⟨halive _ he.ne_init.symm h.root.1, rfl⟩
  · rw [hinit] at hq
    obtain ⟨r, hne, hparent, hr⟩ := h.parent q hq (hlive q ht)
    rw [he.parent, hparent]
    by_cases hrp : r = p
    · subst hrp
      exact ⟨s.initproc, hq.symm, if_pos rfl, halive _ he.ne_init.symm h.root.1⟩
    · exact ⟨r, hne, if_neg (by simpa using hrp), halive r hrp hr⟩
  · rw [he.fork] at hq
    refine halive q ?_ (h.forking q hq)
    rintro rfl
    exact hq he.idle
  · rw [he.fork] at hq
    have hqp : q ≠ p := by
      rintro rfl
      simp [he.idle] at hq
    rw [he.parent, h.copied q np hq]
    exact if_neg (by simpa using hqp)
  · rcases hasleep q hwait hsleep with ⟨hwait, hslept, hchan⟩ | hfound
    · obtain ⟨hown, hnone⟩ := h.waits q hwait hslept
      refine ⟨hchan.trans hown, fun r hr hz => ?_⟩
      rw [he.parent] at hr
      by_cases hrp : r = p
      · -- the parent of the process that exits has been woken
        subst hrp
        obtain ⟨r', hne, hparent, -⟩ := h.parent r he.ne_init (by rw [he.running]; rfl)
        rw [hparent, if_neg (by simpa using hne)] at hr
        exact he.wakesParent q (hparent.trans hr) hown hsleep
      · have hzombie : (s.proc r).state = .zombie := by
          rcases he.others r hrp with hsame | ⟨-, hrunnable⟩
          · exact hsame.symm.trans hz
          · simp [hz] at hrunnable
        split_ifs at hr with hchild
        · -- init has been woken when the dead child was passed to it
          cases hr
          exact he.wakesInit r hchild hzombie hown hsleep
        · exact hnone r hr hzombie
    · exact hfound

theorem step (h : Tree s) (hinv : Inv s) {e : Effect} (he : Effects s t e) : Tree t := by
  have hinit := he.initproc
  have hasleep := he.asleep
  cases he.change with
  | keep hk => exact h.keep hk hinit hasleep
  | kill pid hk => exact h.keep hk hinit hasleep
  | trap p hp hk => exact h.keep hk hinit hasleep
  | exit p hexit => exact h.exit hexit hinit hasleep
  | reap p q x hproc hfork hp hparent hq hx =>
    refine h.update hproc (by rw [hq]; rfl) (by simp [hx.1])
      (by simp [hx.1]) (by rw [hfork]; exact h.forking) (fun r n hn => ?_)
      hinit hasleep
    rw [hfork] at hn
    have hne : n ≠ q := by
      rintro rfl
      exact hinv.ne_child_of_state (q := n) (by simp [hq]) r (by rw [hn]; rfl)
    rw [hproc, update_of_ne hne]
    exact h.copied r n hn
  | alloc p np x hproc hfork hp hnp hx =>
    refine h.update hproc (by rw [hnp]; rfl) (by simp [hx.1])
      (by simp [hx.1]) (h.forking_update hfork fun _ => by rw [hp]; rfl)
      (h.copied_update hproc hfork ?_ (by simp)) hinit hasleep
    exact fun r _ => hinv.ne_child_of_state (by simp [hnp]) r
  | build p np x f hproc hfork hp hx hf hcopied =>
    refine h.update hproc (by rw [hinv.embryo_of_child hp]; rfl) (by simp [hx.1])
      (by simp [hx.1]) (h.forking_update hfork fun _ => h.forking p ?_)
      (h.copied_update hproc hfork (hinv.ne_child hp) fun n hn => ?_) hinit hasleep
    · intro hidle
      rw [hidle] at hp
      cases hp
    · subst hn
      obtain rfl : n = np := Option.some.inj hf
      exact ⟨rfl, hcopied rfl⟩
  | fail p np x hproc hfork hp hx =>
    exact h.update hproc (by rw [hinv.embryo_of_child hp]; rfl) (by simp [hx.1])
      (by simp [hx.1]) (h.forking_update hfork fun hidle => absurd rfl hidle)
      (h.copied_update hproc hfork (hinv.ne_child hp) (by simp)) hinit hasleep
  | start p np hp hproc hfork =>
    have hchild : (s.fork p).child = some np := by
      rw [hp]
      rfl
    have hembryo := hinv.embryo_of_child hchild
    have halive := h.forking p (by simp [hp])
    refine h.update hproc (by rw [hembryo]; rfl) (by simp)
      (fun _ => ⟨p, ?_, h.copied p np hp, halive⟩)
      (h.forking_update hfork fun hidle => absurd rfl hidle)
      (h.copied_update hproc hfork (hinv.ne_child hchild) (by simp)) hinit hasleep
    rintro rfl
    rw [hembryo] at halive
    cases halive

end Tree

/-! ## The records -/

theorem child_of_idle (hfork : t.fork = Function.update s.fork p .idle)
    (hq : (t.fork q).child = some np) : (s.fork q).child = some np := by
  by_cases hqp : q = p
  · subst hqp
    rw [hfork, update_self] at hq
    cases hq
  · rwa [hfork, update_of_ne hqp] at hq

namespace History

variable {h k : History C}

/-- What is recorded of a return of `wait`. -/
def Proper (h : History C) (r : Return) : Prop :=
  r.child ∈ h.exited ∧ r.pid = h.pidOf r.child ∧
    (r.caller = h.forker r.child ∨
      r.caller = h.stamp h.state.initproc ∧ h.forker r.child ∈ h.exited)

/-- The records agree with the table. -/
structure Records (h : History C) : Prop where
  born : ∀ q, (h.state.proc q).state ≠ .unused → h.stamp q < h.births
  inj : ∀ q q', (h.state.proc q).state ≠ .unused → (h.state.proc q').state ≠ .unused →
    h.stamp q = h.stamp q' → q = q'
  pid : ∀ q, (h.state.proc q).state ≠ .unused → (h.state.proc q).pid = h.pidOf (h.stamp q)
  builder : ∀ p np, (h.state.fork p).child = some np → h.forker (h.stamp np) = h.stamp p
  forker : ∀ q p, q ≠ h.state.initproc → (h.state.proc q).state.live →
    (h.state.proc q).parent = some p → h.stamp p = h.forker (h.stamp q) ∨
      p = h.state.initproc ∧ h.forker (h.stamp q) ∈ h.exited
  zombie : ∀ q, (h.state.proc q).state = .zombie → h.stamp q ∈ h.exited
  nodup : (h.returned.map Return.child).Nodup
  returned : ∀ r ∈ h.returned, r.child < h.births ∧ h.Proper r
  gone : ∀ r ∈ h.returned, ∀ q, (h.state.proc q).state ≠ .unused → h.stamp q ≠ r.child

namespace Records

theorem userinit (C : Type*) (initproc : Slot) (kstack pgdir : ℕ) :
    Records (userinit C initproc kstack pgdir) := by
  have hinit : ∀ q, ((PTable.userinit C initproc kstack pgdir).proc q).state ≠ .unused →
      q = initproc := by
    intro q hq
    by_contra hne
    exact hq (by simp [PTable.userinit, hne])
  have hreturned : (History.userinit C initproc kstack pgdir).returned = [] := rfl
  refine ⟨fun _ _ => Nat.zero_lt_one, fun q q' hq hq' _ => ?_, fun q hq => ?_, fun _ _ _ => rfl,
    fun q p hq hlive => ?_, fun q hq => ?_, nodup_nil, by simp [hreturned],
    by simp [hreturned]⟩
  · exact (hinit q hq).trans (hinit q' hq').symm
  · simp [History.userinit, PTable.userinit, hinit q hq]
  · exact absurd (hinit q (ne_unused_of_live hlive)) hq
  · simp only [History.userinit, PTable.userinit] at hq
    split_ifs at hq

section

variable (hr : Records h)
include hr

theorem mono {t : State C} {exited marked : List ℕ} (hinit : t.initproc = h.state.initproc)
    (hexited : h.exited ⊆ exited) (hused : ∀ q, (t.proc q).state ≠ .unused →
      (h.state.proc q).state ≠ .unused ∧ (t.proc q).pid = (h.state.proc q).pid)
    (hbuilder : ∀ p np, (t.fork p).child = some np → (h.state.fork p).child = some np)
    (hforker : ∀ q p, q ≠ h.state.initproc → (t.proc q).state.live →
      (t.proc q).parent = some p → h.stamp p = h.forker (h.stamp q) ∨
        p = h.state.initproc ∧ h.forker (h.stamp q) ∈ exited)
    (hzombie : ∀ q, (t.proc q).state = .zombie → h.stamp q ∈ exited) :
    Records { h with state := t, exited := exited, marked := marked } where
  born q hq := hr.born q (hused q hq).1
  inj q q' hq hq' := hr.inj q q' (hused q hq).1 (hused q' hq').1
  pid q hq := (hused q hq).2.trans (hr.pid q (hused q hq).1)
  builder p np hp := hr.builder p np (hbuilder p np hp)
  forker q p hq hlive hparent := by
    rw [hinit] at hq ⊢
    exact hforker q p hq hlive hparent
  zombie := hzombie
  nodup := hr.nodup
  returned r hrr := by
    obtain ⟨hlt, hin, hpid, hcaller⟩ := hr.returned r hrr
    refine ⟨hlt, hexited hin, hpid, hcaller.imp_right fun hc => ?_⟩
    rw [hinit]
    exact ⟨hc.1, hexited hc.2⟩
  gone r hrr q hq := hr.gone r hrr q (hused q hq).1

theorem keep {t : State C} (hk : Keeps h.state t) (hinit : t.initproc = h.state.initproc)
    (marked : List ℕ) : Records { h with state := t, marked := marked } := by
  refine hr.mono hinit (List.Subset.refl _) (fun q hq => ⟨?_, hk.pid q⟩) (fun p np hp => ?_)
    (fun q p hq hlive hparent => ?_) fun q hq => hr.zombie q ((hk.zombie q).1 hq)
  · exact fun hunused => hq ((hk.unused q).2 hunused)
  · rwa [hk.fork] at hp
  · exact hr.forker q p hq ((hk.live q).1 hlive) ((hk.parent q).symm.trans hparent)

theorem update {t : State C} {np : Slot} (hproc : t.proc = Function.update h.state.proc np x)
    (hinit : t.initproc = h.state.initproc) (hnp : (h.state.proc np).state ≠ .unused)
    (hx : x.state ≠ .unused → x.pid = (h.state.proc np).pid) (hz : x.state ≠ .zombie)
    (hbuilder : ∀ p np, (t.fork p).child = some np → (h.state.fork p).child = some np)
    (hlive : x.state.live → ∃ p, x.parent = some p ∧ (h.state.fork p).child = some np) :
    Records { h with state := t } := by
  refine hr.mono hinit (List.Subset.refl _) (fun q hq => ?_) hbuilder
    (fun q p hq hqlive hparent => ?_) fun q hq => ?_
  · by_cases hqn : q = np
    · subst hqn
      rw [hproc, update_self] at hq ⊢
      exact ⟨hnp, hx hq⟩
    · rw [hproc, update_of_ne hqn] at hq ⊢
      exact ⟨hq, rfl⟩
  · by_cases hqn : q = np
    · subst hqn
      rw [hproc, update_self] at hqlive hparent
      obtain ⟨p', hp', hchild⟩ := hlive hqlive
      obtain rfl : p' = p := Option.some.inj (hp'.symm.trans hparent)
      exact .inl (hr.builder p' q hchild).symm
    · rw [hproc, update_of_ne hqn] at hqlive hparent
      exact hr.forker q p hq hqlive hparent
  · by_cases hqn : q = np
    · subst hqn
      rw [hproc, update_self] at hq
      exact absurd hq hz
    · rw [hproc, update_of_ne hqn] at hq
      exact hr.zombie q hq

theorem exit {t : State C} {p : Slot} (he : Exits h.state t p)
    (hinit : t.initproc = h.state.initproc) :
    Records { h with state := t, exited := h.stamp p :: h.exited } := by
  have hsub := subset_cons_self (h.stamp p) h.exited
  refine hr.mono hinit hsub (fun q hq => ⟨?_, he.pid q⟩) (fun r np hrn => ?_)
    (fun q r hq hlive hparent => ?_) fun q hq => ?_
  · exact fun hunused => hq ((he.unused q).2 hunused)
  · rwa [he.fork] at hrn
  · have hlive' : (h.state.proc q).state.live := by
      by_cases hqp : q = p
      · subst hqp
        rw [he.running]
        rfl
      · rcases he.others q hqp with hsame | ⟨hsleep, -⟩
        · rwa [← hsame]
        · rw [hsleep]
          rfl
    rw [he.parent] at hparent
    split_ifs at hparent with hchild
    · -- a child that is passed on was forked by `p`, which is not init
      cases hparent
      rcases hr.forker q p hq hlive' hchild with hforker | ⟨hp, -⟩
      · exact .inr ⟨rfl, hforker ▸ mem_cons_self⟩
      · exact absurd hp he.ne_init
    · exact (hr.forker q r hq hlive' hparent).imp_right fun hinit => ⟨hinit.1, hsub hinit.2⟩
  · by_cases hqp : q = p
    · subst hqp
      exact mem_cons_self
    · rcases he.others q hqp with hsame | ⟨-, hrunnable⟩
      · exact hsub (hr.zombie q (hsame.symm.trans hq))
      · simp [hq] at hrunnable

theorem addReturn {r : Return} (hlt : r.child < h.births) (hproper : h.Proper r)
    (hfresh : ∀ r' ∈ h.returned, r.child ≠ r'.child)
    (hgone : ∀ q, (h.state.proc q).state ≠ .unused → h.stamp q ≠ r.child) :
    Records { h with returned := r :: h.returned } :=
  { hr with
    nodup := by
      refine nodup_cons.2 ⟨fun hmem => ?_, hr.nodup⟩
      obtain ⟨r', hr', heq⟩ := mem_map.1 hmem
      exact hfresh r' hr' heq.symm
    returned r' hr' := by
      rcases mem_cons.1 hr' with rfl | hr'
      · exact ⟨hlt, hproper⟩
      · exact hr.returned r' hr'
    gone r' hr' := by
      rcases mem_cons.1 hr' with rfl | hr'
      · exact hgone
      · exact hr.gone r' hr' }

theorem reap (htree : Tree h.state) {t : State C} {p q : Slot}
    (hproc : t.proc = Function.update h.state.proc q x) (hfork : t.fork = h.state.fork)
    (hinit : t.initproc = h.state.initproc) (hparent : (h.state.proc q).parent = some p)
    (hq : (h.state.proc q).state = .zombie) (hx : x.state = .unused) :
    Records { h with
      state := t
      returned := ⟨h.stamp q, h.stamp p, (h.state.proc q).pid⟩ :: h.returned } := by
  have hused : (h.state.proc q).state ≠ .unused := by simp [hq]
  have hfree : Records { h with state := t } := by
    refine hr.update hproc hinit hused (fun hne => absurd hx hne) (by simp [hx])
      (fun p np hp => ?_) (by simp [hx])
    rwa [hfork] at hp
  have hne : q ≠ h.state.initproc := by
    rintro rfl
    have halive := htree.root.1
    rw [hq] at halive
    cases halive
  have hcaller := hr.forker q p hne (by rw [hq]; rfl) hparent
  refine hfree.addReturn (hr.born q hused) ⟨hr.zombie q hq, hr.pid q hused, ?_⟩
    (fun r hrr => hr.gone r hrr q hused) fun q' hq' heq => ?_
  · refine hcaller.imp_right fun hc => ⟨?_, hc.2⟩
    rw [hinit, hc.1]
  · -- no other slot has the number of the process that has gone
    by_cases hqq : q' = q
    · rw [hqq, hproc, update_self] at hq'
      exact hq' hx
    · rw [hproc, update_of_ne hqq] at hq'
      exact hqq (hr.inj q' q hq' hused heq)

end

section Alloc

variable {t : State C} {p np : Slot}

theorem kept_of_alloc (hr : Records h) (hnp : (h.state.proc np).state = .unused)
    (hother : ∀ q ≠ np, t.proc q = h.state.proc q) {q : Slot}
    (hq : (h.state.proc q).state ≠ .unused) :
    q ≠ np ∧ t.proc q = h.state.proc q ∧ h.stamp q < h.births ∧
      (h.note t (.alloc p np)).stamp q = h.stamp q := by
  have hne : q ≠ np := by
    rintro rfl
    exact hq hnp
  exact ⟨hne, hother q hne, hr.born q hq, stamp_alloc_of_ne hne⟩

theorem inj_alloc (hr : Records h) (hother : ∀ q ≠ np, t.proc q = h.state.proc q) {q q' : Slot}
    (hq : (t.proc q).state ≠ .unused) (hq' : (t.proc q').state ≠ .unused)
    (heq : (h.note t (.alloc p np)).stamp q = (h.note t (.alloc p np)).stamp q') : q = q' := by
  have hborn : ∀ r ≠ np, (t.proc r).state ≠ .unused → h.stamp r < h.births := by
    intro r hr' hused
    rw [hother r hr'] at hused
    exact hr.born r hused
  by_cases hqn : q = np
  · by_contra hne
    have hqn' : q' ≠ np := fun hqn' => hne (hqn.trans hqn'.symm)
    rw [hqn, stamp_alloc_self, stamp_alloc_of_ne hqn'] at heq
    exact (hborn q' hqn' hq').ne' heq
  · by_cases hqn' : q' = np
    · rw [hqn', stamp_alloc_self, stamp_alloc_of_ne hqn] at heq
      exact absurd heq (hborn q hqn hq).ne
    · rw [stamp_alloc_of_ne hqn, stamp_alloc_of_ne hqn'] at heq
      rw [hother q hqn] at hq
      rw [hother q' hqn'] at hq'
      exact hr.inj q q' hq hq' heq

/-- A process under construction is recorded with the process that forks it. -/
theorem builder_alloc (hr : Records h) (htree : Tree h.state) (hinv : Inv h.state)
    (hfork : t.fork = Function.update h.state.fork p (.found np))
    (hother : ∀ q ≠ np, t.proc q = h.state.proc q) (hpn : p ≠ np)
    (hnp : (h.state.proc np).state = .unused) {r n : Slot} (hn : (t.fork r).child = some n) :
    (h.note t (.alloc p np)).forker ((h.note t (.alloc p np)).stamp n) =
      (h.note t (.alloc p np)).stamp r := by
  by_cases hrp : r = p
  · rw [hrp, hfork, update_self] at hn
    obtain rfl : np = n := Option.some.inj hn
    rw [hrp, stamp_alloc_self, forker_alloc_self, stamp_alloc_of_ne hpn]
  · rw [hfork, update_of_ne hrp] at hn
    have hforking : h.state.fork r ≠ .idle := by
      intro hidle
      rw [hidle] at hn
      cases hn
    obtain ⟨-, -, hborn, hstamp⟩ := hr.kept_of_alloc (p := p) hnp hother
      (q := n) (by simp [hinv.embryo_of_child hn])
    obtain ⟨-, -, -, hstamp'⟩ := hr.kept_of_alloc (p := p) hnp hother
      (ne_unused_of_alive (htree.forking r hforking))
    rw [hstamp, hstamp', forker_alloc_of_lt hborn]
    exact hr.builder r n hn

theorem alloc (hr : Records h) (htree : Tree h.state) (hinv : Inv h.state)
    (hproc : t.proc = Function.update h.state.proc np x)
    (hfork : t.fork = Function.update h.state.fork p (.found np))
    (hinit : t.initproc = h.state.initproc) (hp : (h.state.proc p).state = .running)
    (hnp : (h.state.proc np).state = .unused) (hx : x.state = .embryo) :
    Records (h.note t (.alloc p np)) := by
  have hother : ∀ q ≠ np, t.proc q = h.state.proc q := by
    intro q hq
    rw [hproc, update_of_ne hq]
  have hself : (t.proc np).state = .embryo := by
    rw [hproc, update_self, hx]
  have hkept := fun {q : Slot} => hr.kept_of_alloc (p := p) (q := q) hnp hother
  obtain ⟨hpn, -⟩ := hkept (q := p) (by simp [hp])
  obtain ⟨-, -, -, hroot⟩ := hkept (ne_unused_of_alive htree.root.1)
  refine ⟨fun q hq => ?_, fun q q' hq hq' heq => hr.inj_alloc hother hq hq' heq, fun q hq => ?_,
    fun r n hn => hr.builder_alloc htree hinv hfork hother hpn hnp hn,
    fun q r hq hlive hparent => ?_, fun q hq => ?_, hr.nodup, fun r hrr => ?_,
    fun r hrr q hq => ?_⟩
  · by_cases hqn : q = np
    · rw [hqn, stamp_alloc_self]
      exact Nat.lt_succ_self _
    · rw [stamp_alloc_of_ne hqn]
      rw [note_state, hother q hqn] at hq
      exact (hr.born q hq).trans (Nat.lt_succ_self _)
  · rw [note_state] at hq ⊢
    by_cases hqn : q = np
    · rw [hqn, stamp_alloc_self, pidOf_alloc_self]
    · rw [hother q hqn] at hq
      obtain ⟨-, hsame, hborn, hstamp⟩ := hkept hq
      rw [hstamp, pidOf_alloc_of_lt hborn, hsame]
      exact hr.pid q hq
  · rw [note_state] at hq hlive hparent
    have hqn : q ≠ np := by
      rintro rfl
      simp [hself] at hlive
    rw [hother q hqn] at hlive hparent
    rw [hinit] at hq
    obtain ⟨r', -, hr', halive⟩ := htree.parent q hq hlive
    obtain rfl : r' = r := Option.some.inj (hr'.symm.trans hparent)
    obtain ⟨-, -, hborn, hstamp⟩ := hkept (ne_unused_of_live hlive)
    obtain ⟨-, -, -, hstamp'⟩ := hkept (ne_unused_of_alive halive)
    rw [hstamp, hstamp', forker_alloc_of_lt hborn, note_state, hinit]
    exact hr.forker q r' hq hlive hparent
  · rw [note_state] at hq
    have hqn : q ≠ np := by
      rintro rfl
      simp [hself] at hq
    rw [hother q hqn] at hq
    rw [stamp_alloc_of_ne hqn]
    exact hr.zombie q hq
  · obtain ⟨hlt, hin, hpid, hcaller⟩ := hr.returned r hrr
    refine ⟨hlt.trans (Nat.lt_succ_self _), hin, ?_, ?_⟩
    · rw [pidOf_alloc_of_lt hlt]
      exact hpid
    · rw [forker_alloc_of_lt hlt, note_state, hinit, hroot]
      exact hcaller
  · have hlt := (hr.returned r hrr).1
    by_cases hqn : q = np
    · rw [hqn, stamp_alloc_self]
      exact hlt.ne'
    · rw [stamp_alloc_of_ne hqn]
      rw [note_state, hother q hqn] at hq
      exact hr.gone r hrr q hq

end Alloc

theorem step (hr : Records h) (htree : Tree h.state) (hinv : Inv h.state) {t : State C}
    {e : Effect} (he : Effects h.state t e) : Records (h.note t e) := by
  have hinit := he.initproc
  cases he.change with
  | keep hk => exact hr.keep hk hinit h.marked
  | kill pid hk => exact hr.keep hk hinit _
  | trap p hp hk => exact hr.keep hk hinit _
  | exit p hexit => exact hr.exit hexit hinit
  | reap p q x hproc hfork hp hparent hq hx =>
    exact hr.reap htree hproc hfork hinit hparent hq hx.1
  | alloc p np x hproc hfork hp hnp hx =>
    exact hr.alloc htree hinv hproc hfork hinit hp hnp hx.1
  | build p np x f hproc hfork hp hx hf =>
    refine hr.update hproc hinit (by simp [hinv.embryo_of_child hp])
      (fun _ => hx.2.1) (by simp [hx.1]) (fun r n hn => ?_)
      (by simp [hx.1])
    by_cases hrp : r = p
    · subst hrp
      rw [hfork, update_self, hf] at hn
      exact hp.trans hn
    · rwa [hfork, update_of_ne hrp] at hn
  | fail p np x hproc hfork hp hx =>
    refine hr.update hproc hinit (by simp [hinv.embryo_of_child hp])
      (fun hne => absurd hx.1 hne) (by simp [hx.1]) (fun r n hn => ?_)
      (by simp [hx.1])
    exact child_of_idle hfork hn
  | start p np hp hproc hfork =>
    have hchild : (h.state.fork p).child = some np := by
      rw [hp]
      rfl
    refine hr.update hproc hinit (by simp [hinv.embryo_of_child hchild])
      (fun _ => rfl) (by simp) (fun r n hn => child_of_idle hfork hn)
      fun _ => ⟨p, htree.copied p np hp, hchild⟩

end Records

end History

/-- The process tree and the hand-off of dead children, in every run. Whenever `ptable.lock`
is free, the parent of every process is alive, and no process sleeps in `wait` while it has a
dead child. No process is returned twice by `wait`, and the caller is the process that forked
it, or init when that process has exited. -/
theorem family_handoff [DecidableEq C] {initproc : Slot} {kstack pgdir : ℕ}
    {es : List (Event C)} {h : History C}
    (hrun : run History.next (History.userinit C initproc kstack pgdir) es = some h) :
    (h.state.lock = none →
      (∀ q ≠ h.state.initproc, (h.state.proc q).state.live →
        ∃ p, (h.state.proc q).parent = some p ∧ (h.state.proc p).state.alive) ∧
      ∀ q, (h.state.pc q).inWait → (h.state.proc q).state = .sleeping →
        (h.state.proc q).chan = .proc q ∧
          ∀ r, (h.state.proc r).parent = some q → (h.state.proc r).state ≠ .zombie) ∧
    (h.returned.map Return.child).Nodup ∧
    ∀ r ∈ h.returned, r.child ∈ h.exited ∧ r.pid = h.pidOf r.child ∧
      (r.caller = h.forker r.child ∨
        r.caller = h.stamp h.state.initproc ∧ h.forker r.child ∈ h.exited) := by
  obtain ⟨-, htree, hrecords⟩ : h.Ready ∧ Tree h.state ∧ h.Records := by
    refine run_invariant (I := fun h : History C => h.Ready ∧ Tree h.state ∧ h.Records) ?_ ?_ hrun
    · exact ⟨History.ready_userinit initproc kstack pgdir,
        Tree.userinit C initproc kstack pgdir,
        History.Records.userinit C initproc kstack pgdir⟩
    · rintro g e k ⟨hready, htree, hrecords⟩ hs
      have hready' := hready.next hs
      obtain ⟨t, rfl, heffects⟩ := hready.effects hs
      refine ⟨hready', ?_, hrecords.step htree hready.inv heffects⟩
      rw [History.note_state]
      exact htree.step hready.inv heffects
  refine ⟨fun _ => ⟨fun q hq hlive => ?_, htree.waits⟩, hrecords.nodup, fun r hr => ?_⟩
  · obtain ⟨p, -, hparent, halive⟩ := htree.parent q hq hlive
    exact ⟨p, hparent, halive⟩
  · exact (hrecords.returned r hr).2

def forkAndWait : List (Event (Fin 1)) :=
  [.schedAcquire, .runProc 0, .resume, .release, .acquire .allocproc, .update, .release,
    .allocStack (some 5), .copyuvm (some 6), .acquire (.start 1), .update, .release,
    .acquire .wait, .update, .swtch, .clearProc, .schedAcquire, .runProc 1, .resume, .release,
    .acquire .exit, .update, .swtch, .clearProc, .schedAcquire, .runProc 0, .resume, .update,
    .release].map (Event.act 0)

theorem family_handoff_forkAndWait :
    ∃ h, run History.next (History.userinit (Fin 1) 0 3 4) forkAndWait = some h ∧
      h.returned = [⟨1, 0, 2⟩] ∧ 1 ∈ h.exited ∧ h.pidOf 1 = 2 := by
  obtain ⟨h, hh, hreturned⟩ : ∃ h, run History.next (History.userinit (Fin 1) 0 3 4)
      forkAndWait = some h ∧ h.returned = [⟨1, 0, 2⟩] := by decide +kernel
  obtain ⟨-, -, hproper⟩ := family_handoff hh
  obtain ⟨hexited, hpid, -⟩ := hproper ⟨1, 0, 2⟩ (by simp [hreturned])
  exact ⟨h, hh, hreturned, hexited, hpid.symm⟩

end Xv6.PTable

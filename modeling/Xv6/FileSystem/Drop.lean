import Mathlib.Data.Fintype.Card
import Xv6.FileSystem.Blocks

/-!
# Dropping references concurrently

Any number of processes call `iput` on one inode, each giving up one of its
references. A call takes the inode's sleep lock, reads `ip->ref` in a critical
section of `icache.lock`, frees the inode or not, releases the sleep lock, and
drops its reference in a second critical section of `icache.lock`. A call is
interrupted between these steps only, so a schedule is a list of calls, each
taking its next step.

The decision to free is made on a reference count that other calls have yet to
drop. The inode is freed exactly when some call reads the count after all the
others have finished.
-/

namespace Xv6.FileSystem.Drop

open Routine Function Finset

variable {v : Volume}

/-- Where a call of `iput` stands; `counted r` has read `r` from `ip->ref`. -/
inductive Pc where
  | entering
  | holding
  | counted (r : ℕ)
  | leaving
  | released
  | finished
  deriving DecidableEq, Repr

def Pc.inside : Pc → Prop
  | .holding | .counted _ | .leaving => True
  | .entering | .released | .finished => False

def iputStep (sb : Superblock) (ip : Slot) : Pc → VolumeM Pc
  | .entering => do
      acquiresleep ip
      pure .holding
  | .holding => do
      let x ← look fun v => v.inode ip
      pure (if x.valid = true ∧ x.nlink = 0 then .counted x.ref else .leaving)
  | .counted r => do
      if r = 1 then ifree sb ip else pure ()
      pure .leaving
  | .leaving => do
      releasesleep ip
      pure .released
  | .released => do
      dropRef ip
      pure .finished
  | .finished => pure .finished

def iputSteps (sb : Superblock) (ip : Slot) : VolumeM Pc := do
  let k₁ ← iputStep sb ip .entering
  let k₂ ← iputStep sb ip k₁
  let k₃ ← iputStep sb ip k₂
  let k₄ ← iputStep sb ip k₃
  iputStep sb ip k₄

theorem iput_eq_steps (sb : Superblock) (ip : Slot) :
    iputSteps sb ip = (iput sb ip >>= fun _ => pure .finished) := by
  simp only [iput, iputSteps, iputStep, bind_assoc, pure_bind]
  congr 1
  funext _
  congr 1
  funext x
  by_cases hfree : x.valid = true ∧ x.nlink = 0
  · by_cases hone : x.ref = 1
    · simp [hfree, hone]
    · simp [hfree, hone]
  · have hkeep : ¬ (x.valid = true ∧ x.nlink = 0 ∧ x.ref = 1) := fun h => hfree ⟨h.1, h.2.1⟩
    rw [if_neg hfree, if_neg hkeep]
    simp

/-- The volume and the calls of `iput` on slot `ip`. -/
structure State (C : Type*) where
  vol : Volume
  pc : C → Pc
  panicked : Option Panic

def unfinished {C : Type*} [Fintype C] (pc : C → Pc) : Finset C :=
  Finset.univ.filter fun c => pc c ≠ .finished

theorem mem_unfinished {C : Type*} [Fintype C] {pc : C → Pc} {c : C} :
    c ∈ unfinished pc ↔ pc c ≠ .finished := by
  simp [unfinished]

variable {C : Type*}

def step [DecidableEq C] (sb : Superblock) (ip : Slot) (s : State C) (c : C) :
    Option (State C) :=
  if s.panicked = none ∧ s.pc c ≠ .finished then
    match iputStep sb ip (s.pc c) s.vol with
    | (.ok k, v) => some { s with vol := v, pc := update s.pc c k }
    | (.error .sleeping, _) => none
    | (.error e, v) => some { s with vol := v, panicked := some e }
  else
    none

def start (C : Type*) (v : Volume) : State C := ⟨v, fun _ => .entering, none⟩

/-- The inode has been truncated and is free on the disk. -/
structure Freed (sb : Superblock) (i : ℕ) (v : Volume) : Prop where
  type : (v.dinode sb i).type = 0
  size : (v.dinode sb i).size = 0
  addrs : ∀ k, (v.dinode sb i).addrs k = 0

/-- Some call reads `ip->ref` after all the other calls have dropped theirs. -/
def ReadsAlone [DecidableEq C] (sb : Superblock) (ip : Slot) (v : Volume) (es : List C) :
    Prop :=
  Machine.Happens (step sb ip) (fun t c => t.pc c = .holding ∧ ∀ d, d ≠ c → t.pc d = .finished)
    (start C v) es

section Schedules

variable {sb : Superblock} {ip : Slot} {v₀ : Volume} {s t : State C} {c : C} {alone : Prop}

/-- Before the inode is freed, only its count and its lock have changed, and a
call that has read the count 1 is the last one. -/
structure Alive (ip : Slot) (v₀ : Volume) (s : State C) : Prop where
  block : s.vol.block = v₀.block
  slot : s.vol.inode ip =
    { v₀.inode ip with ref := (s.vol.inode ip).ref, locked := (s.vol.inode ip).locked }
  last : ∀ c, s.pc c = .counted 1 → ∀ d, d ≠ c → s.pc d = .finished

/-- After the inode is freed, the call that did it is the last one. -/
structure Gone (sb : Superblock) (ip : Slot) (v₀ : Volume) (s : State C) : Prop where
  freed : Freed sb (v₀.inode ip).inum s.vol
  last : ∃ c, (s.pc c = .leaving ∨ s.pc c = .released ∨ s.pc c = .finished) ∧
    ∀ d, d ≠ c → s.pc d = .finished

/-- The invariant; `alone` says whether some call has read the count alone. -/
structure Inv [Fintype C] (sb : Superblock) (ip : Slot) (v₀ : Volume) (alone : Prop)
    (s : State C) : Prop where
  running : s.panicked = none
  ref : (s.vol.inode ip).ref = (unfinished s.pc).card
  holder : ∀ c, (s.pc c).inside → (s.vol.inode ip).locked = true ∧
    ∀ d, (s.pc d).inside → d = c
  phase : (Alive ip v₀ s ∧ (alone ↔ ∃ c, s.pc c = .counted 1)) ∨ (Gone sb ip v₀ s ∧ alone)

theorem unfinished_update [Fintype C] [DecidableEq C] {pc : C → Pc} (k : Pc) (hc : pc c ≠ .finished)
    (hk : k ≠ .finished) : unfinished (update pc c k) = unfinished pc := by
  ext d
  rw [mem_unfinished, mem_unfinished]
  by_cases hd : d = c
  · rw [hd, update_self]
    exact iff_of_true hk hc
  · rw [update_of_ne hd]

theorem unfinished_finish [Fintype C] [DecidableEq C] (pc : C → Pc) (c : C) :
    unfinished (update pc c .finished) = (unfinished pc).erase c := by
  ext d
  rw [mem_erase, mem_unfinished, mem_unfinished]
  by_cases hd : d = c
  · rw [hd, update_self]
    simp
  · simp [hd]

theorem card_unfinished_eq_one [Fintype C] {pc : C → Pc} (hc : pc c ≠ .finished) :
    (unfinished pc).card = 1 ↔ ∀ d, d ≠ c → pc d = .finished := by
  rw [card_eq_one]
  constructor
  · rintro ⟨e, he⟩ d hd
    by_contra hne
    have hce : c = e := mem_singleton.1 (he ▸ mem_unfinished.2 hc)
    have hde : d = e := mem_singleton.1 (he ▸ mem_unfinished.2 hne)
    exact hd (hde.trans hce.symm)
  · intro h
    refine ⟨c, Finset.ext fun d => ?_⟩
    rw [mem_unfinished, mem_singleton]
    exact ⟨fun hd => by_contra fun hdc => hd (h d hdc), fun hd => hd ▸ hc⟩

theorem iputStep_entering (h : (v.inode ip).locked = false) :
    iputStep sb ip .entering v =
      (.ok .holding, v.modifyInode ip fun x => { x with locked := true }) := by
  simp only [iputStep, acquiresleep, bind, look, h]
  rfl

theorem iputStep_waiting (h : (v.inode ip).locked = true) :
    iputStep sb ip .entering v = (.error .sleeping, v) := by
  simp only [iputStep, acquiresleep, bind, look, h]
  rfl

theorem Gone.pc (h : Gone sb ip v₀ s) (hc : s.pc c ≠ .finished) :
    (s.pc c = .leaving ∨ s.pc c = .released) ∧ ∀ d, d ≠ c → s.pc d = .finished := by
  obtain ⟨e, he, hothers⟩ := h.last
  obtain rfl : c = e := by_contra fun hce => hc (hothers c hce)
  refine ⟨?_, hothers⟩
  rcases he with he | he | he
  · exact .inl he
  · exact .inr he
  · exact absurd he hc

theorem holder_update [Fintype C] [DecidableEq C] (h : Inv sb ip v₀ alone s) {k : Pc} {l : Bool}
    (hin : k.inside → l = true ∧ ∀ d, d ≠ c → ¬ (s.pc d).inside)
    (hout : ¬ k.inside → ∀ d, d ≠ c → (s.pc d).inside → l = true) (e : C)
    (he : (update s.pc c k e).inside) : l = true ∧ ∀ d, (update s.pc c k d).inside → d = e := by
  by_cases hec : e = c
  · subst hec
    rw [update_self] at he
    refine ⟨(hin he).1, fun d hd => by_contra fun hde => ?_⟩
    rw [update_of_ne hde] at hd
    exact (hin he).2 d hde hd
  · rw [update_of_ne hec] at he
    have hk : ¬ k.inside := fun hk => (hin hk).2 e hec he
    refine ⟨hout hk e hec he, fun d hd => ?_⟩
    by_cases hdc : d = c
    · subst hdc
      rw [update_self] at hd
      exact absurd hd hk
    · rw [update_of_ne hdc] at hd
      exact (h.holder e he).2 d hd

theorem Alive.last_update [DecidableEq C] (h : Alive ip v₀ s) (hc : s.pc c ≠ .finished) {k : Pc}
    (hk : k ≠ .counted 1) (e : C) (he : update s.pc c k e = .counted 1) (d : C) (_ : d ≠ e) :
    update s.pc c k d = .finished := by
  have hec : e ≠ c := by
    rintro rfl
    exact hk ((update_self ..).symm.trans he)
  rw [update_of_ne hec] at he
  exact absurd (h.last e he c hec.symm) hc

theorem exists_counted_update [DecidableEq C] {pc : C → Pc} (k : Pc) (hc : pc c ≠ .counted 1)
    (hk : k ≠ .counted 1) : (∃ d, update pc c k d = .counted 1) ↔ ∃ d, pc d = .counted 1 := by
  refine exists_congr fun d => ?_
  by_cases hd : d = c
  · rw [hd, update_self]
    exact iff_of_false hk hc
  · rw [update_of_ne hd]

namespace Inv

variable [Fintype C]

theorem congr {alone' : Prop} (h : Inv sb ip v₀ alone s) (hiff : alone ↔ alone') :
    Inv sb ip v₀ alone' s :=
  propext hiff ▸ h

theorem alive (h : Inv sb ip v₀ alone s) (hc : s.pc c ≠ .finished)
    (hpc : s.pc c ≠ .leaving ∧ s.pc c ≠ .released) :
    Alive ip v₀ s ∧ (alone ↔ ∃ c, s.pc c = .counted 1) := by
  refine h.phase.resolve_right fun hgone => ?_
  rcases (hgone.1.pc hc).1 with hleaving | hreleased
  · exact hpc.1 hleaving
  · exact hpc.2 hreleased

variable [DecidableEq C]

variable (h : Inv sb ip v₀ alone s)
include h

theorem entering (hpc : s.pc c = .entering) (hfree : (s.vol.inode ip).locked = false) :
    Inv sb ip v₀ alone
      { s with
        vol := s.vol.modifyInode ip fun x => { x with locked := true }
        pc := update s.pc c .holding } := by
  have hnobody : ∀ d, ¬ (s.pc d).inside := fun d hd => by
    simp [(h.holder d hd).1] at hfree
  have hc : s.pc c ≠ .finished := by simp [hpc]
  obtain ⟨halive, halone⟩ := h.alive hc (by simp [hpc])
  have hslot := s.vol.modifyInode_inode_self ip fun x => { x with locked := true }
  refine ⟨h.running, ?_, ?_, .inl ⟨⟨halive.block, ?_, ?_⟩, ?_⟩⟩
  · rw [hslot]
    simp only [unfinished_update .holding hc (by simp), h.ref]
  · rw [hslot]
    exact holder_update h (fun _ => ⟨rfl, fun d _ => hnobody d⟩) fun _ _ _ _ => rfl
  · rw [hslot, halive.slot]
  · exact halive.last_update hc (by simp)
  · rw [halone]
    exact (exists_counted_update .holding (by simp [hpc]) (by simp)).symm

theorem holding (hpc : s.pc c = .holding) :
    Inv sb ip v₀ (alone ∨ ∀ d, d ≠ c → s.pc d = .finished)
      { s with pc := update s.pc c (.counted (s.vol.inode ip).ref) } := by
  have hc : s.pc c ≠ .finished := by simp [hpc]
  have hinside : (s.pc c).inside := hpc ▸ trivial
  obtain ⟨hlocked, hunique⟩ := h.holder c hinside
  obtain ⟨halive, halone⟩ := h.alive hc (by simp [hpc])
  have hone := card_unfinished_eq_one hc
  rw [← h.ref] at hone
  have hnot : ∀ e, s.pc e ≠ .counted 1 := by
    intro e he
    by_cases hec : c = e
    · rw [← hec, hpc] at he
      cases he
    · exact hc (halive.last e he c hec)
  refine ⟨h.running, ?_, ?_, .inl ⟨⟨halive.block, halive.slot, ?_⟩, ?_⟩⟩
  · exact h.ref.trans (congrArg Finset.card (unfinished_update (.counted _) hc (by simp)).symm)
  · exact holder_update h (fun _ => ⟨hlocked, fun d hd hd' => hd (hunique d hd')⟩)
      fun hk => absurd trivial hk
  · intro e he d hd
    have hec : e = c := by_contra fun hec => by
      simp only [update_of_ne hec] at he
      exact hnot e he
    subst hec
    simp only [update_self] at he
    simp only [update_of_ne hd]
    exact hone.1 (Pc.counted.inj he) d hd
  · rw [halone, ← hone]
    constructor
    · rintro (⟨e, he⟩ | hone')
      · exact absurd he (hnot e)
      · exact ⟨c, by simp only [update_self, hone']⟩
    · rintro ⟨e, he⟩
      have hec : e = c := by_contra fun hec => by
        simp only [update_of_ne hec] at he
        exact hnot e he
      subst hec
      simp only [update_self] at he
      exact .inr (Pc.counted.inj he)

theorem keep {r : ℕ} (hpc : s.pc c = .counted r) (hr : r ≠ 1) :
    Inv sb ip v₀ alone { s with pc := update s.pc c .leaving } := by
  have hc : s.pc c ≠ .finished := by simp [hpc]
  have hinside : (s.pc c).inside := hpc ▸ trivial
  have hcount : s.pc c ≠ .counted 1 := by
    rw [hpc]
    exact fun h => hr (Pc.counted.inj h)
  obtain ⟨hlocked, hunique⟩ := h.holder c hinside
  obtain ⟨halive, halone⟩ := h.alive hc (by simp [hpc])
  refine ⟨h.running, ?_, ?_, .inl ⟨⟨halive.block, halive.slot, ?_⟩, ?_⟩⟩
  · exact h.ref.trans (congrArg Finset.card (unfinished_update .leaving hc (by simp)).symm)
  · exact holder_update h (fun _ => ⟨hlocked, fun d hd hd' => hd (hunique d hd')⟩)
      fun hk => absurd trivial hk
  · exact halive.last_update hc (by simp)
  · rw [halone]
    exact (exists_counted_update .leaving hcount (by simp)).symm

theorem free (hpc : s.pc c = .counted 1) (hfreed : Freed sb (v₀.inode ip).inum v)
    (href : (v.inode ip).ref = (s.vol.inode ip).ref)
    (hlocked : (v.inode ip).locked = (s.vol.inode ip).locked) :
    Inv sb ip v₀ alone { s with vol := v, pc := update s.pc c .leaving } := by
  have hc : s.pc c ≠ .finished := by simp [hpc]
  have hinside : (s.pc c).inside := hpc ▸ trivial
  obtain ⟨hheld, hunique⟩ := h.holder c hinside
  obtain ⟨halive, halone⟩ := h.alive hc (by simp [hpc])
  refine ⟨h.running, ?_, ?_, .inr ⟨⟨hfreed, c, .inl ?_, fun d hd => ?_⟩, ?_⟩⟩
  · have hcard := congrArg Finset.card (unfinished_update .leaving hc (by simp))
    exact href.trans (h.ref.trans hcard.symm)
  · simp only [hlocked]
    exact holder_update h (fun _ => ⟨hheld, fun d hd hd' => hd (hunique d hd')⟩)
      fun hk => absurd trivial hk
  · simp only [update_self]
  · simp only [update_of_ne hd]
    exact halive.last c hpc d hd
  · exact halone.2 ⟨c, hpc⟩

theorem out {k k' : Pc} (hpc : s.pc c = k)
    (hk : k = .leaving ∧ k' = .released ∨ k = .released ∧ k' = .finished) {f : Inode → Inode}
    (hdinode : ∀ x, (f x).toDinode = x.toDinode ∧ (f x).inum = x.inum ∧ (f x).valid = x.valid)
    (href : (f (s.vol.inode ip)).ref = (unfinished (update s.pc c k')).card)
    (hlocked : ∀ d, d ≠ c → (s.pc d).inside → (f (s.vol.inode ip)).locked = true) :
    Inv sb ip v₀ alone
      { s with vol := s.vol.modifyInode ip f, pc := update s.pc c k' } := by
  have hslot := s.vol.modifyInode_inode_self ip f
  have hc : s.pc c ≠ .finished := by
    rw [hpc]
    rcases hk with ⟨rfl, -⟩ | ⟨rfl, -⟩ <;> simp
  have hcount : s.pc c ≠ .counted 1 := by
    rw [hpc]
    rcases hk with ⟨rfl, -⟩ | ⟨rfl, -⟩ <;> simp
  have hout : ¬ k'.inside := by
    rcases hk with ⟨-, rfl⟩ | ⟨-, rfl⟩ <;> exact id
  have hcount' : k' ≠ .counted 1 := by
    rcases hk with ⟨-, rfl⟩ | ⟨-, rfl⟩ <;> simp
  refine ⟨h.running, ?_, ?_, ?_⟩
  · simp only [hslot, href]
  · simp only [hslot]
    exact holder_update h (fun hin => absurd hin hout) fun _ => hlocked
  · rcases h.phase with ⟨halive, halone⟩ | ⟨hgone, halone⟩
    · left
      refine ⟨⟨halive.block, ?_, halive.last_update hc hcount'⟩, ?_⟩
      · obtain ⟨hd, hi, hv⟩ := hdinode (s.vol.inode ip)
        simp only [hslot]
        have hself := halive.slot
        generalize f (s.vol.inode ip) = y at hd hi hv ⊢
        rw [hself] at hd hi hv
        cases y
        simp only at hd hi hv
        rw [hd, hi, hv]
      · rw [halone]
        exact (exists_counted_update k' hcount hcount').symm
    · right
      refine ⟨⟨⟨hgone.freed.type, hgone.freed.size, hgone.freed.addrs⟩, c, ?_, fun d hd => ?_⟩,
        halone⟩
      · simp only [update_self]
        exact .inr (hk.imp And.right And.right)
      · simp only [update_of_ne hd]
        exact (hgone.pc hc).2 d hd

end Inv

/-- The step in which the inode is freed does not panic. -/
theorem iputStep_free {T : Table} (ho : Opened sb T ip v) (hledger : Ledger sb T ∅ v.block) :
    ∃ v', iputStep sb ip (.counted 1) v = (.ok .leaving, v') ∧ Freed sb (v.inode ip).inum v' ∧
      (v'.inode ip).ref = (v.inode ip).ref ∧ (v'.inode ip).locked = (v.inode ip).locked := by
  have hspec := ifree_spec ho hledger
  rcases hx : ifree sb ip v with ⟨r, v'⟩
  rw [wp, hx] at hspec
  cases r with
  | error e => exact hspec.elim
  | ok _ =>
    obtain ⟨hrewritten, hslot⟩ := hspec
    have hself := hrewritten.dinode_self
    refine ⟨v', ?_, ⟨?_, ?_, fun k => ?_⟩, ?_, ?_⟩
    · rw [iputStep, if_pos rfl]
      simp only [bind, hx]
      rfl
    · rw [hself]
      rfl
    · rw [hself]
      rfl
    · rw [hself]
      rfl
    · rw [hslot]
    · rw [hslot]

theorem step_inv [Fintype C] [DecidableEq C] {T : Table} (hsound : Sound sb T v₀)
    (href : 0 < (v₀.inode ip).ref) (hvalid : (v₀.inode ip).valid = true)
    (hnlink : (v₀.inode ip).nlink = 0) (h : Inv sb ip v₀ alone s) (hs : step sb ip s c = some t) :
    Inv sb ip v₀ (alone ∨ s.pc c = .holding ∧ ∀ d, d ≠ c → s.pc d = .finished) t := by
  rw [step, Option.ite_none_right_eq_some] at hs
  obtain ⟨⟨-, hc⟩, hs⟩ := hs
  have hsame : ∀ k : Pc, k ≠ .holding →
      (alone ↔ alone ∨ k = .holding ∧ ∀ d, d ≠ c → s.pc d = .finished) := fun k hk =>
    (or_iff_left fun hh => hk hh.1).symm
  cases hpc : s.pc c with
  | entering =>
    rw [hpc] at hs
    cases hlocked : (s.vol.inode ip).locked with
    | true =>
      rw [iputStep_waiting hlocked] at hs
      cases hs
    | false =>
      rw [iputStep_entering hlocked] at hs
      cases hs
      exact (h.entering hpc hlocked).congr (hsame .entering (by simp))
  | holding =>
    obtain ⟨halive, -⟩ := h.alive hc (by simp [hpc])
    have htest : (s.vol.inode ip).valid = true ∧ (s.vol.inode ip).nlink = 0 := by
      rw [halive.slot]
      exact ⟨hvalid, hnlink⟩
    have hread : iputStep sb ip .holding s.vol =
        (.ok (.counted (s.vol.inode ip).ref), s.vol) := by
      simp only [iputStep, bind, look, if_pos htest]
      rfl
    rw [hpc, hread] at hs
    cases hs
    exact (h.holding hpc).congr (or_congr_right (by simp))
  | counted r =>
    obtain ⟨halive, -⟩ := h.alive hc (by simp [hpc])
    rw [hpc] at hs
    by_cases hr : r = 1
    · subst hr
      have hopened : Opened sb T ip s.vol := by
        obtain ⟨hlt, hcopy, htype⟩ := hsound.cached ip href hvalid
        constructor <;> rwa [halive.slot]
      have hledger : Ledger sb T ∅ s.vol.block := halive.block ▸ hsound.ledger
      obtain ⟨v, hstep, hfreed, hcount, hlocked⟩ := iputStep_free hopened hledger
      rw [hstep] at hs
      cases hs
      rw [halive.slot] at hfreed
      exact (h.free hpc hfreed hcount hlocked).congr (hsame (.counted 1) (by simp))
    · have hstep : iputStep sb ip (.counted r) s.vol = (.ok .leaving, s.vol) := by
        rw [iputStep, if_neg hr]
        rfl
      rw [hstep] at hs
      cases hs
      exact (h.keep hpc hr).congr (hsame (.counted r) (by simp))
  | leaving =>
    rw [hpc] at hs
    cases hs
    have hinside : (s.pc c).inside := hpc ▸ trivial
    refine (h.out (f := fun x => { x with locked := false }) hpc (.inl ⟨rfl, rfl⟩)
      (fun _ => ⟨rfl, rfl, rfl⟩) ?_ ?_).congr (hsame .leaving (by simp))
    · exact h.ref.trans (congrArg Finset.card (unfinished_update .released hc (by simp)).symm)
    · exact fun d hd hd' => absurd ((h.holder c hinside).2 d hd') hd
  | released =>
    rw [hpc] at hs
    cases hs
    refine (h.out (f := fun x => { x with ref := x.ref - 1 }) hpc (.inr ⟨rfl, rfl⟩)
      (fun _ => ⟨rfl, rfl, rfl⟩) ?_ ?_).congr (hsame .released (by simp))
    · rw [unfinished_finish, card_erase_of_mem (mem_unfinished.2 hc), ← h.ref]
    · exact fun d _ hd' => (h.holder d hd').1
  | finished => exact absurd hpc hc

/-- When all calls have finished, the inode has been freed if and only if some
call read the reference count after the others had dropped theirs. -/
theorem iput_frees_iff [Fintype C] [DecidableEq C] [Nonempty C] (hwf : WellFormed sb v)
    (href : (v.inode ip).ref = Fintype.card C) (hvalid : (v.inode ip).valid = true)
    (hnlink : (v.inode ip).nlink = 0) {es : List C}
    (hrun : Machine.run (step sb ip) (start C v) es = some s) (hdone : ∀ c, s.pc c = .finished) :
    (s.vol.inode ip).ref = 0 ∧
      (Freed sb (v.inode ip).inum s.vol ↔ ReadsAlone sb ip v es) := by
  have hpos : 0 < (v.inode ip).ref := href ▸ Fintype.card_pos
  have hpc : ∀ c, (start C v).pc c = .entering := fun _ => rfl
  have hinit : Inv sb ip v (ReadsAlone sb ip v ([] : List C)) (start C v) := by
    refine ⟨rfl, ?_, by simp [hpc, Pc.inside], .inl ⟨⟨rfl, rfl, by simp [hpc]⟩, ?_⟩⟩
    · have hall : unfinished (start C v).pc = Finset.univ :=
        Finset.ext fun c => iff_of_true (mem_unfinished.2 (by simp [hpc])) (mem_univ c)
      rw [hall]
      exact href
    · exact iff_of_false Machine.not_happens_nil (by simp [hpc])
  have hinv : Inv sb ip v (ReadsAlone sb ip v es) s :=
    Machine.run_history (I := fun es s => Inv sb ip v (ReadsAlone sb ip v es) s) hinit
      (fun es t c u ht h hu => (step_inv hwf hpos hvalid hnlink h hu).congr
        (Machine.happens_concat ht).symm) hrun
  have hnone : unfinished s.pc = ∅ :=
    eq_empty_of_forall_notMem fun c hc => mem_unfinished.1 hc (hdone c)
  refine ⟨by rw [hinv.ref, hnone, card_empty], ?_⟩
  rcases hinv.phase with ⟨halive, halone⟩ | ⟨hgone, halone⟩
  · refine iff_of_false (fun hfreed => ?_) fun hra => ?_
    · -- nothing on the disk has changed
      have hsame : s.vol.dinode sb (v.inode ip).inum = v.dinode sb (v.inode ip).inum := by
        rw [Volume.dinode, halive.block, Volume.dinode]
      have htype := hfreed.type
      rw [hsame] at htype
      exact (hwf.cached ip hpos hvalid).type_ne htype
    · obtain ⟨c, hc⟩ := halone.1 hra
      simp [hdone c] at hc
  · exact iff_of_true hgone.freed halone

/-- A file that two processes refer to and no directory names: slot 0 of the
cache, inode 1, with two blocks. -/
def sharedFile : Option System :=
  Machine.run (FileSystem.step tinyDisk ⟨fun _ => none, fun _ => none⟩) ⟨emptyVolume, none⟩
    [.ialloc tFile, .ilock 0, .writei 0 (fun i => BitVec.ofNat 8 i) 0 600, .iunlock 0, .idup 0]

def sharedVolume : Volume := (sharedFile.map System.vol).getD emptyVolume

theorem sharedVolume_wellFormed : WellFormed tinyDisk sharedVolume := by
  obtain ⟨s, hs, hrunning⟩ : ∃ s, sharedFile = some s ∧ s.panicked = none := by decide +kernel
  have hvol : sharedVolume = s.vol := by rw [sharedVolume, hs, Option.map_some, Option.getD_some]
  have hstart : System.Inv tinyDisk ⟨emptyVolume, none⟩ := ⟨_, emptyVolume_wellFormed⟩
  have hinv : s.Inv tinyDisk :=
    Machine.run_invariant hstart (fun _ _ _ h hs => FileSystem.step_inv h hs) hs
  rw [System.Inv, hrunning] at hinv
  obtain ⟨T, h⟩ := hinv
  rw [hvol]
  exact h.dinode

def overlapping : List (Fin 2) := [0, 0, 0, 0, 1, 1, 1, 1, 0, 1]

def oneAfterTheOther : List (Fin 2) := [0, 0, 0, 0, 0, 1, 1, 1, 1, 1]

theorem overlapping_leaks :
    WellFormed tinyDisk sharedVolume ∧ (sharedVolume.inode 0).inum = 1 ∧
      (sharedVolume.inode 0).ref = 2 ∧ (sharedVolume.inode 0).valid = true ∧
      (sharedVolume.inode 0).nlink = 0 ∧
      ∃ s, Machine.run (step tinyDisk 0) (start (Fin 2) sharedVolume) overlapping = some s ∧
        (∀ c, s.pc c = .finished) ∧ (s.vol.inode 0).ref = 0 ∧
        (s.vol.dinode tinyDisk 1).type = tFile ∧ (s.vol.dinode tinyDisk 1).size = 600 := by
  refine ⟨sharedVolume_wellFormed, ?_, ?_, ?_, ?_, ?_⟩ <;> decide +kernel

theorem iput_frees_iff_oneAfterTheOther :
    ∃ s, Machine.run (step tinyDisk 0) (start (Fin 2) sharedVolume) oneAfterTheOther = some s ∧
      (∀ c, s.pc c = .finished) ∧ Freed tinyDisk 1 s.vol := by
  obtain ⟨s, hs, hdone⟩ : ∃ s, Machine.run (step tinyDisk 0) (start (Fin 2) sharedVolume)
      oneAfterTheOther = some s ∧ ∀ c, s.pc c = .finished := by decide +kernel
  -- call 1 holds the lock after six steps, and call 0 has finished
  obtain ⟨t, ht, halone⟩ : ∃ t, Machine.run (step tinyDisk 0) (start (Fin 2) sharedVolume)
      [0, 0, 0, 0, 0, 1] = some t ∧ t.pc 1 = .holding ∧ ∀ d, d ≠ 1 → t.pc d = .finished := by
    decide +kernel
  have hra : ReadsAlone tinyDisk 0 sharedVolume oneAfterTheOther :=
    ⟨_, 1, t, by decide, ht, halone⟩
  have href : (sharedVolume.inode 0).ref = Fintype.card (Fin 2) := by decide +kernel
  have hvalid : (sharedVolume.inode 0).valid = true := by decide +kernel
  have hnlink : (sharedVolume.inode 0).nlink = 0 := by decide +kernel
  have hfrees := iput_frees_iff sharedVolume_wellFormed href hvalid hnlink hs hdone
  exact ⟨s, hs, hdone, hfrees.2.2 hra⟩

end Schedules

end Xv6.FileSystem.Drop

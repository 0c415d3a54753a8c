import Mathlib.Data.List.Nodup
import Mathlib.Logic.Relation

/-!
# Lock order and wait cycles

Threads take and release locks as their scripts say. A thread that wants a lock
which another one holds waits for it. `nestings` lists the pairs of locks that a
script nests, the outer one first. If some rank grows along every nesting, then
the locks wanted along a chain of waiting threads have growing ranks, and no
thread waits for itself.
-/

namespace LockOrder

open Function

variable {C L : Type*} {r : L → ℕ}

inductive Op (L : Type*) where
  | acquire (l : L)
  | release (l : L)
  deriving DecidableEq

/-- The locks a thread holds and what it still has to do. -/
structure Thread (L : Type*) where
  held : List L
  todo : List (Op L)

structure State (C L : Type*) where
  thread : C → Thread L
  holder : L → Option C

def Wants (s : State C L) (c : C) (l : L) : Prop :=
  ∃ ops, (s.thread c).todo = .acquire l :: ops

/-- Thread `c` wants a lock that thread `d` holds. -/
def WaitsFor (s : State C L) (c d : C) : Prop := ∃ l, Wants s c l ∧ s.holder l = some d

structure Sound (s : State C L) : Prop where
  holder_iff : ∀ l c, s.holder l = some c ↔ l ∈ (s.thread c).held
  nodup : ∀ c, (s.thread c).held.Nodup

section

variable [DecidableEq L]

def nestings : List L → List (Op L) → List (L × L)
  | _, [] => []
  | held, .acquire l :: ops => held.map (fun h => (h, l)) ++ nestings (l :: held) ops
  | held, .release l :: ops => nestings (held.erase l) ops

def heldAfter : List L → List (Op L) → List L
  | held, [] => held
  | held, .acquire l :: ops => heldAfter (l :: held) ops
  | held, .release l :: ops => heldAfter (held.erase l) ops

def Ordered (r : L → ℕ) (t : Thread L) : Prop :=
  ∀ x ∈ nestings t.held t.todo, r x.1 < r x.2

theorem Ordered.lt_of_wants {s : State C L} {c : C} {l h : L} (ho : Ordered r (s.thread c))
    (hw : Wants s c l) (hh : h ∈ (s.thread c).held) : r h < r l := by
  obtain ⟨ops, hops⟩ := hw
  refine ho (h, l) ?_
  rw [hops]
  exact List.mem_append_left _ (List.mem_map_of_mem hh)

theorem lt_of_waits {s : State C L} (hs : Sound s)
    (ho : ∀ c, Ordered r (s.thread c)) {c d : C} (h : Relation.TransGen (WaitsFor s) c d)
    {l m : L} (hl : Wants s c l) (hm : Wants s d m) : r l < r m := by
  induction h generalizing m with
  | single hcd =>
    obtain ⟨k, hk, hholder⟩ := hcd
    have hkl : k = l := by
      obtain ⟨ops, hops⟩ := hk
      obtain ⟨ops', hops'⟩ := hl
      rw [hops] at hops'
      injection hops' with hop
      injection hop
    subst hkl
    exact (ho _).lt_of_wants hm ((hs.holder_iff _ _).1 hholder)
  | tail _ hde ih =>
    obtain ⟨k, hk, hholder⟩ := hde
    exact Nat.lt_trans (ih hk) ((ho _).lt_of_wants hm ((hs.holder_iff _ _).1 hholder))

/-- With a rank that grows along every nesting there is no cycle of waiting
threads. -/
theorem no_wait_cycle {s : State C L} (hs : Sound s)
    (ho : ∀ c, Ordered r (s.thread c)) (c : C) : ¬ Relation.TransGen (WaitsFor s) c c := by
  intro hcycle
  obtain ⟨d, ⟨l, hl, -⟩, -⟩ := Relation.TransGen.head'_iff.1 hcycle
  exact absurd (lt_of_waits hs ho hcycle hl hl) (Nat.lt_irrefl _)

variable [DecidableEq C]

/-- Thread `c` takes its next step: it acquires a free lock or releases one
that it holds. -/
def advance (s : State C L) (c : C) : Option (State C L) :=
  match (s.thread c).todo with
  | [] => none
  | .acquire l :: ops =>
    if s.holder l = none then
      some { thread := update s.thread c ⟨l :: (s.thread c).held, ops⟩,
             holder := update s.holder l (some c) }
    else
      none
  | .release l :: ops =>
    if s.holder l = some c then
      some { thread := update s.thread c ⟨(s.thread c).held.erase l, ops⟩,
             holder := update s.holder l none }
    else
      none

/-- A step changes only the thread that takes it, keeps it ordered, and does not
change what it ends with. -/
theorem advance_thread {s t : State C L} {c : C} (h : advance s c = some t) :
    (∀ d ≠ c, t.thread d = s.thread d) ∧ (s.thread c).todo ≠ [] ∧
      heldAfter (t.thread c).held (t.thread c).todo =
        heldAfter (s.thread c).held (s.thread c).todo ∧
      ∀ r : L → ℕ, Ordered r (s.thread c) → Ordered r (t.thread c) := by
  unfold advance at h
  split at h
  case h_1 => cases h
  case h_2 l ops hops =>
    obtain ⟨-, rfl⟩ := Option.ite_some_none_eq_some.1 h
    refine ⟨fun d hd => update_of_ne hd _ _, by simp [hops],
      by simp [hops, heldAfter], fun r ho x hx => ho x ?_⟩
    simp only [update_self] at hx
    rw [hops]
    exact List.mem_append_right _ hx
  case h_3 l ops hops =>
    obtain ⟨-, rfl⟩ := Option.ite_some_none_eq_some.1 h
    refine ⟨fun d hd => update_of_ne hd _ _, by simp [hops],
      by simp [hops, heldAfter], fun r ho x hx => ho x ?_⟩
    simp only [update_self] at hx
    rw [hops]
    exact hx

theorem Sound.advance {s t : State C L} {c : C} (hs : Sound s)
    (h : LockOrder.advance s c = some t) : Sound t := by
  unfold LockOrder.advance at h
  split at h
  case h_1 => cases h
  case h_2 l ops hops =>
    obtain ⟨hfree, rfl⟩ := Option.ite_some_none_eq_some.1 h
    have hnone : ∀ d, l ∉ (s.thread d).held := by
      intro d hd
      rw [← hs.holder_iff, hfree] at hd
      cases hd
    constructor
    · intro m d
      by_cases hd : d = c
      · subst hd
        by_cases hm : m = l
        · simp [hm]
        · simp [hm, hs.holder_iff]
      · by_cases hm : m = l
        · subst hm
          simp [hd, hnone d, Ne.symm hd]
        · simp [hd, hm, hs.holder_iff]
    · intro d
      by_cases hd : d = c
      · subst hd
        simpa using ⟨hnone d, hs.nodup d⟩
      · simpa [hd] using hs.nodup d
  case h_3 l ops hops =>
    obtain ⟨hheld, rfl⟩ := Option.ite_some_none_eq_some.1 h
    constructor
    · intro m d
      by_cases hd : d = c
      · subst hd
        by_cases hm : m = l
        · subst hm
          simp [(hs.nodup d).not_mem_erase]
        · simp [hm, hs.holder_iff, List.mem_erase_of_ne hm]
      · by_cases hm : m = l
        · subst hm
          have hother : m ∉ (s.thread d).held := by
            rw [← hs.holder_iff, hheld]
            exact fun hcd => hd (Option.some.inj hcd).symm
          simp [hd, hother]
        · simp [hd, hm, hs.holder_iff]
    · intro d
      by_cases hd : d = c
      · subst hd
        simpa using (hs.nodup d).erase l
      · simpa [hd] using hs.nodup d

end

end LockOrder

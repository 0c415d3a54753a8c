import Mathlib.Algebra.Ring.Nat
import Mathlib.Data.List.Infix

/-!
# Machines with labelled steps

A machine is a partial function `step` from a state and an event to the next
state. A run applies a list of events, oldest first, and fails as soon as one of
them is not enabled. Concurrent systems are machines whose events say which
party acts, so that an interleaving is a list of events and every property of
all interleavings is a property of all runs.

An invariant may speak of the events that led to a state as well as of the
state itself. `Meets` is the condition that every event of a run satisfies a
guard in the state in which it happens, and `Happens` that some event does.
-/

namespace Machine

open List

/-! A run on a fixed input has one party, which is `0 : Fin 1`, or two. -/

instance neZeroOneParty : NeZero 1 := ⟨by decide⟩

instance neZeroTwoParties : NeZero 2 := ⟨by decide⟩

variable {S E : Type*} {step : S → E → Option S} {s t u : S} {es fs : List E} {e : E}

/-- Apply the events of a list in order. -/
def run (step : S → E → Option S) : S → List E → Option S
  | s, [] => some s
  | s, e :: es => (step s e).bind fun t => run step t es

@[simp] theorem run_nil : run step s [] = some s := rfl

theorem run_cons : run step s (e :: es) = (step s e).bind fun t => run step t es := rfl

theorem run_append : run step s (es ++ fs) = (run step s es).bind fun t => run step t fs := by
  induction es generalizing s with
  | nil => rfl
  | cons e es ih =>
    rw [cons_append, run_cons, run_cons, Option.bind_assoc]
    simp only [ih]

theorem run_append_eq_some :
    run step s (es ++ fs) = some u ↔ ∃ t, run step s es = some t ∧ run step t fs = some u := by
  rw [run_append, Option.bind_eq_some_iff]

theorem run_concat :
    run step s (es ++ [e]) = some u ↔ ∃ t, run step s es = some t ∧ step t e = some u := by
  simp [run_append_eq_some, run_cons]

/-- What holds of the empty history and is kept by every step holds of every
run together with its history. -/
theorem run_history {I : List E → S → Prop} (hinit : I [] s)
    (hstep : ∀ es t e u, run step s es = some t → I es t → step t e = some u →
      I (es ++ [e]) u) (hrun : run step s es = some t) : I es t := by
  induction es using List.reverseRecOn generalizing t with
  | nil =>
    cases hrun
    exact hinit
  | append_singleton es e ih =>
    obtain ⟨r, hr, he⟩ := run_concat.1 hrun
    exact hstep es r e t hr (ih hr) he

theorem run_invariant {I : S → Prop} (hinit : I s) (hstep : ∀ t e u, I t → step t e = some u → I u)
    (hrun : run step s es = some t) : I t :=
  run_history (I := fun _ => I) hinit (fun _ t e u _ ht he => hstep t e u ht he) hrun

/-- Every event of the run satisfies the guard in the state where it happens. -/
def Meets (step : S → E → Option S) (G : S → E → Prop) (s : S) (es : List E) : Prop :=
  ∀ p e t, p ++ [e] <+: es → run step s p = some t → G t e

theorem meets_nil {G : S → E → Prop} : Meets step G s [] := by
  intro p e t hp
  simp at hp

theorem Meets.cons {G : S → E → Prop} (he : G s e)
    (hes : ∀ t, step s e = some t → Meets step G t es) : Meets step G s (e :: es) := by
  intro p e' u hp hrun
  cases p with
  | nil =>
    cases hrun
    obtain rfl : e' = e := by simpa using hp
    exact he
  | cons e'' p =>
    rw [cons_append, cons_prefix_cons] at hp
    obtain ⟨rfl, hp⟩ := hp
    rw [run_cons, Option.bind_eq_some_iff] at hrun
    obtain ⟨t, ht, hrun⟩ := hrun
    exact hes t ht p e' u hp hrun

theorem Meets.head {G : S → E → Prop} (h : Meets step G s (e :: es)) : G s e :=
  h [] e s (prefix_append [e] es) rfl

theorem Meets.tail {G : S → E → Prop} (h : Meets step G s (e :: es)) (ht : step s e = some t) :
    Meets step G t es := by
  intro p e' u hp hrun
  refine h (e :: p) e' u (cons_prefix_cons.2 ⟨rfl, hp⟩) ?_
  rw [run_cons, ht]
  exact hrun

theorem meets_cons {G : S → E → Prop} :
    Meets step G s (e :: es) ↔ G s e ∧ ∀ t, step s e = some t → Meets step G t es :=
  ⟨fun h => ⟨h.head, fun _ => h.tail⟩, fun h => .cons h.1 h.2⟩

def check (step : S → E → Option S) (g : S → E → Bool) : S → List E → Bool
  | _, [] => true
  | s, e :: es =>
    g s e && match step s e with
      | none => true
      | some t => check step g t es

theorem check_iff {G : S → E → Prop} [∀ s e, Decidable (G s e)] :
    check step (fun s e => decide (G s e)) s es = true ↔ Meets step G s es := by
  induction es generalizing s with
  | nil => exact iff_of_true rfl meets_nil
  | cons e es ih =>
    rw [check, Bool.and_eq_true, decide_eq_true_iff, meets_cons]
    cases step s e <;> simp [ih]

instance decidableMeets {G : S → E → Prop} [∀ s e, Decidable (G s e)] :
    Decidable (Meets step G s es) :=
  decidable_of_iff _ check_iff

theorem Meets.mono {G H : S → E → Prop} (h : Meets step G s es) (hGH : ∀ s e, G s e → H s e) :
    Meets step H s es :=
  fun p e t hp hrun => hGH t e (h p e t hp hrun)

theorem Meets.of_prefix {G : S → E → Prop} (h : Meets step G s es) (hfs : fs <+: es) :
    Meets step G s fs :=
  fun p e t hp => h p e t (hp.trans hfs)

theorem Meets.last {G : S → E → Prop} (h : Meets step G s (es ++ [e]))
    (hrun : run step s es = some t) : G t e :=
  h es e t (prefix_refl _) hrun

theorem meets_concat {G : S → E → Prop} (hrun : run step s es = some t) :
    Meets step G s (es ++ [e]) ↔ Meets step G s es ∧ G t e := by
  constructor
  · intro h
    exact ⟨h.of_prefix (prefix_append es [e]), h.last hrun⟩
  · rintro ⟨h, he⟩ p e' u hp hu
    rcases prefix_concat_iff.1 hp with heq | hp
    · obtain ⟨rfl, hee⟩ := append_inj' heq rfl
      obtain rfl := singleton_inj.1 hee
      cases hu.symm.trans hrun
      exact he
    · exact h p e' u hp hu

theorem Meets.invariant {G : S → E → Prop} {I : S → Prop} (h : Meets step G s es)
    (hinit : I s) (hstep : ∀ t e u, I t → G t e → step t e = some u → I u)
    (hrun : run step s es = some t) : I t := by
  induction es using List.reverseRecOn generalizing t with
  | nil =>
    cases hrun
    exact hinit
  | append_singleton es e ih =>
    obtain ⟨r, hr, he⟩ := run_concat.1 hrun
    exact hstep r e t (ih (h.of_prefix (prefix_append es [e])) hr) (h.last hr) he

def Happens (step : S → E → Option S) (G : S → E → Prop) (s : S) (es : List E) : Prop :=
  ∃ p e t, p ++ [e] <+: es ∧ run step s p = some t ∧ G t e

theorem not_happens_nil {G : S → E → Prop} : ¬ Happens step G s [] := by
  rintro ⟨p, e, t, hp, -⟩
  simp at hp

theorem happens_concat {G : S → E → Prop} (hrun : run step s es = some t) :
    Happens step G s (es ++ [e]) ↔ Happens step G s es ∨ G t e := by
  constructor
  · rintro ⟨p, e', u, hp, hu, hG⟩
    rcases prefix_concat_iff.1 hp with heq | hp
    · obtain ⟨rfl, he⟩ := append_inj' heq rfl
      obtain rfl := singleton_inj.1 he
      cases hu.symm.trans hrun
      exact .inr hG
    · exact .inl ⟨p, e', u, hp, hu, hG⟩
  · rintro (⟨p, e', u, hp, hu, hG⟩ | hG)
    · exact ⟨p, e', u, hp.trans (prefix_append es [e]), hu, hG⟩
    · exact ⟨es, e, t, prefix_refl _, hrun, hG⟩

end Machine

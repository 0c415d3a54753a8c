import Mathlib.Order.BooleanAlgebra.Set

/-!
# Units in use and the places that own them

An allocator marks some units of a type `U` as used, and each place of a type
`P` refers to at most one unit. `Owned used loose ref` says that no two places
refer to one unit and that a unit is marked exactly when a place refers to it or
it is `loose`: taken from the allocator but not yet stored in a place, or
removed from its place but not yet given back.

Taking, storing, removing and releasing move units between these three parts,
so a routine that allocates is followed through its intermediate states with the
same relation that holds between calls, where nothing is loose.
-/

namespace Ownership

open Set

variable {P U : Type*}

/-- Every used unit is loose or referred to by exactly one place. -/
structure Owned (used loose : Set U) (ref : P → Option U) : Prop where
  inj : ∀ p q u, ref p = some u → ref q = some u → p = q
  used_iff : ∀ u, u ∈ used ↔ (∃ p, ref p = some u) ∨ u ∈ loose
  unowned : ∀ u ∈ loose, ∀ p, ref p ≠ some u

namespace Owned

variable {used loose : Set U} {ref ref' : P → Option U} {u : U} {p : P}

theorem used_of_ref (h : Owned used loose ref) (hp : ref p = some u) : u ∈ used :=
  (h.used_iff u).2 (.inl ⟨p, hp⟩)

theorem used_of_loose (h : Owned used loose ref) (hu : u ∈ loose) : u ∈ used :=
  (h.used_iff u).2 (.inr hu)

theorem ref_ne_of_notMem (h : Owned used loose ref) (hu : u ∉ used) (p : P) : ref p ≠ some u :=
  fun hp => hu (h.used_of_ref hp)

theorem used_iff_existsUnique (h : Owned used ∅ ref) (u : U) : u ∈ used ↔ ∃! p, ref p = some u := by
  rw [h.used_iff]
  constructor
  · rintro (⟨p, hp⟩ | hu)
    · exact ⟨p, hp, fun q hq => h.inj q p u hq hp⟩
    · exact absurd hu (notMem_empty u)
  · rintro ⟨p, hp, -⟩
    exact .inl ⟨p, hp⟩

variable (h : Owned used loose ref)
include h

theorem take (hu : u ∉ used) :
    Owned (insert u used) (insert u loose) ref where
  inj := h.inj
  used_iff v := by
    rw [mem_insert_iff, mem_insert_iff, h.used_iff, or_left_comm]
  unowned := by
    rintro v (rfl | hv)
    · exact h.ref_ne_of_notMem hu
    · exact h.unowned v hv

theorem link (hu : u ∈ loose) (hp : ref p = none) (hself : ref' p = some u)
    (hother : ∀ q, q ≠ p → ref' q = ref q) : Owned used (loose \ {u}) ref' := by
  -- the place that refers to `v` now: `p` for the stored unit, the old one otherwise
  have hcases : ∀ q v, ref' q = some v → q = p ∧ v = u ∨ q ≠ p ∧ ref q = some v := by
    intro q v hq
    by_cases hqp : q = p
    · rw [hqp, hself] at hq
      exact .inl ⟨hqp, (Option.some.inj hq).symm⟩
    · rw [hother q hqp] at hq
      exact .inr ⟨hqp, hq⟩
  have hkept : ∀ q v, ref q = some v → ref' q = some v := by
    intro q v hq
    have hqp : q ≠ p := by
      rintro rfl
      simp [hp] at hq
    rw [hother q hqp, hq]
  constructor
  · intro q r v hq hr
    rcases hcases q v hq with ⟨rfl, rfl⟩ | ⟨-, hq'⟩ <;>
      rcases hcases r _ hr with ⟨rfl, hv⟩ | ⟨-, hr'⟩
    · rfl
    · exact absurd hr' (h.unowned _ hu r)
    · exact absurd (hv ▸ hq') (h.unowned _ hu q)
    · exact h.inj q r v hq' hr'
  · intro v
    rw [h.used_iff, mem_sdiff, mem_singleton_iff]
    constructor
    · rintro (⟨q, hq⟩ | hv)
      · exact .inl ⟨q, hkept q v hq⟩
      · by_cases hvu : v = u
        · exact .inl ⟨p, hvu ▸ hself⟩
        · exact .inr ⟨hv, hvu⟩
    · rintro (⟨q, hq⟩ | ⟨hv, -⟩)
      · rcases hcases q v hq with ⟨-, rfl⟩ | ⟨-, hq'⟩
        · exact .inr hu
        · exact .inl ⟨q, hq'⟩
      · exact .inr hv
  · rintro v ⟨hv, hvu⟩ q hq
    rcases hcases q v hq with ⟨-, rfl⟩ | ⟨-, hq'⟩
    · exact hvu rfl
    · exact h.unowned v hv q hq'

/-- Empty the places of a set; the units they referred to become loose. -/
theorem unlink (S : Set P) (hin : ∀ q ∈ S, ref' q = none) (hout : ∀ q, q ∉ S → ref' q = ref q) :
    Owned used (loose ∪ {u | ∃ p ∈ S, ref p = some u}) ref' := by
  have hold : ∀ q v, ref' q = some v → q ∉ S ∧ ref q = some v := by
    intro q v hq
    have hqS : q ∉ S := fun hqS => by
      simp [hin q hqS] at hq
    exact ⟨hqS, hout q hqS ▸ hq⟩
  constructor
  · intro q r v hq hr
    exact h.inj q r v (hold q v hq).2 (hold r v hr).2
  · intro v
    rw [h.used_iff, mem_union, mem_ofPred_eq]
    constructor
    · rintro (⟨q, hq⟩ | hv)
      · by_cases hqS : q ∈ S
        · exact .inr (.inr ⟨q, hqS, hq⟩)
        · exact .inl ⟨q, hout q hqS ▸ hq⟩
      · exact .inr (.inl hv)
    · rintro (⟨q, hq⟩ | hv | ⟨q, -, hq⟩)
      · exact .inl ⟨q, (hold q v hq).2⟩
      · exact .inr hv
      · exact .inl ⟨q, hq⟩
  · rintro v (hv | ⟨q, hqS, hq⟩) r hr
    · exact h.unowned v hv r (hold r v hr).2
    · exact (hold r v hr).1 (h.inj r q v (hold r v hr).2 hq ▸ hqS)

theorem release (hu : u ∈ loose) :
    Owned (used \ {u}) (loose \ {u}) ref where
  inj := h.inj
  used_iff v := by
    have hne : ∀ p, ref p = some v → v ≠ u := fun p hp hvu =>
      h.unowned u hu p (hvu ▸ hp)
    rw [mem_sdiff, mem_sdiff, h.used_iff, mem_singleton_iff]
    constructor
    · rintro ⟨⟨p, hp⟩ | hv, hvu⟩
      · exact .inl ⟨p, hp⟩
      · exact .inr ⟨hv, hvu⟩
    · rintro (⟨p, hp⟩ | ⟨hv, hvu⟩)
      · exact ⟨.inl ⟨p, hp⟩, hne p hp⟩
      · exact ⟨.inr hv, hvu⟩
  unowned v hv := h.unowned v hv.1

theorem congr {used' : Set U} (hused : ∀ v, v ∈ used' ↔ v ∈ used) (href : ∀ q, ref' q = ref q) :
    Owned used' loose ref' := by
  obtain rfl : used' = used := Set.ext hused
  obtain rfl : ref' = ref := funext href
  exact h

end Owned

end Ownership

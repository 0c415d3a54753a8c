import Mathlib.Data.List.Nodup
import Mathlib.Data.Set.Basic

/-!
# Redo logging over an arbitrary store

A store maps addresses to values, and a list of writes is applied to it one
write at a time. A crash keeps a prefix of the writes issued so far, so a
property that has to survive a crash at any moment is a property `Along` a list
of writes: it holds after every prefix.

A redo log reserves a header address and numbered slots. `Layout.homes` reads
from a header value the home addresses of the transaction committed there.
Committing a transaction writes the slots, then the header, then the home
addresses, then a cleared header. Recovery copies the slots named by the header
to their homes and clears the header. `Layout.Recoverable` is the invariant
that carries atomicity: it holds along the writes of a commit and along the
writes of any recovery, and a finished recovery leaves the store as it was
before the transaction or as it is after it.
-/

namespace RedoLog

open Function List

variable {A V : Type*} [DecidableEq A] {P : (A → V) → Prop} {d : A → V} {w : A × V}
  {ws vs : List (A × V)}

def applyWrites (d : A → V) (ws : List (A × V)) : A → V :=
  ws.foldl (fun d w => update d w.1 w.2) d

@[simp] theorem applyWrites_nil (d : A → V) : applyWrites d [] = d := rfl

@[simp] theorem applyWrites_cons (d : A → V) (w : A × V) (ws : List (A × V)) :
    applyWrites d (w :: ws) = applyWrites (update d w.1 w.2) ws := rfl

theorem applyWrites_append (d : A → V) (ws vs : List (A × V)) :
    applyWrites d (ws ++ vs) = applyWrites (applyWrites d ws) vs :=
  foldl_append

theorem applyWrites_of_notMem (d : A → V) (ws : List (A × V)) {a : A}
    (h : a ∉ ws.map Prod.fst) : applyWrites d ws a = d a := by
  induction ws generalizing d with
  | nil => rfl
  | cons w ws ih =>
    simp only [map_cons, mem_cons, not_or] at h
    rw [applyWrites_cons, ih _ h.2, update_of_ne h.1]

theorem applyWrites_congr_of_mem (d e : A → V) (ws : List (A × V)) {a : A}
    (h : a ∈ ws.map Prod.fst) : applyWrites d ws a = applyWrites e ws a := by
  induction ws generalizing d e with
  | nil => simp at h
  | cons w ws ih =>
    by_cases hws : a ∈ ws.map Prod.fst
    · exact ih _ _ hws
    · have haw : a = w.1 := by simpa [hws] using h
      rw [applyWrites_cons, applyWrites_cons, applyWrites_of_notMem _ _ hws,
        applyWrites_of_notMem _ _ hws, haw, update_self,
        update_self]

theorem applyWrites_of_mem (d : A → V) (ws : List (A × V)) (hnodup : (ws.map Prod.fst).Nodup)
    (hw : w ∈ ws) : applyWrites d ws w.1 = w.2 := by
  induction ws generalizing d with
  | nil => simp at hw
  | cons v ws ih =>
    simp only [map_cons, nodup_cons] at hnodup
    rcases mem_cons.1 hw with rfl | hw
    · rw [applyWrites_cons, applyWrites_of_notMem _ _ hnodup.1, update_self]
    · exact ih _ hnodup.2 hw

theorem applyWrites_map (d f : A → V) (as : List A) (a : A) :
    applyWrites d (as.map fun a => (a, f a)) a = if a ∈ as then f a else d a := by
  induction as generalizing d with
  | nil => simp
  | cons b as ih =>
    rw [map_cons, applyWrites_cons, ih]
    by_cases hmem : a ∈ as
    · simp [hmem]
    · by_cases hab : a = b
      · subst hab
        simp [hmem]
      · simp [hmem, hab]

def Along (P : (A → V) → Prop) (d : A → V) (ws : List (A × V)) : Prop :=
  ∀ p, p <+: ws → P (applyWrites d p)

theorem along_nil (h : P d) : Along P d [] := by
  intro p hp
  rw [prefix_nil.1 hp]
  exact h

theorem Along.of_prefix (h : Along P d ws) (hvs : vs <+: ws) : Along P d vs :=
  fun p hp => h p (hp.trans hvs)

theorem Along.append (h : Along P d ws) (h' : Along P (applyWrites d ws) vs) :
    Along P d (ws ++ vs) := by
  intro p hp
  rcases prefix_or_prefix_of_prefix hp (prefix_append ws vs) with hws | ⟨q, rfl⟩
  · exact h p hws
  · rw [applyWrites_append]
    exact h' q ((prefix_append_right_inj ws).1 hp)

theorem Along.cons {ws : List (A × V)}
    (h : P d) (h' : Along P (update d w.1 w.2) ws) : Along P d (w :: ws) := by
  intro p hp
  rcases prefix_cons_iff.1 hp with rfl | ⟨q, rfl, hq⟩
  · exact h
  · exact h' q hq

/-- Where a redo log keeps its header and its slots, and how a header value
names the home addresses of a committed transaction. `clear` is the header
value that recovery writes over a header. -/
structure Layout (A V : Type*) where
  header : A
  slot : ℕ → A
  region : Set A
  homes : V → List A
  clear : V → V
  header_mem : header ∈ region
  homes_clear : ∀ v, homes (clear v) = []

namespace Layout

variable (L : Layout A V)

def slotWrites (t : List (A × V)) : List (A × V) :=
  t.mapIdx fun i w => (L.slot i, w.2)

def commitWrites (t : List (A × V)) (v c : V) : List (A × V) :=
  L.slotWrites t ++ ((L.header, v) :: (t ++ [(L.header, c)]))

def installWrites (d : A → V) : List (A × V) :=
  (L.homes (d L.header)).mapIdx fun i a => (a, d (L.slot i))

def recoverWrites (d : A → V) : List (A × V) :=
  L.installWrites d ++ [(L.header, L.clear (d L.header))]

/-- A transaction that the layout can commit: distinct homes outside the
region, and enough distinct slots inside it that are not the header. -/
structure Fits (t : List (A × V)) : Prop where
  nodup : (t.map Prod.fst).Nodup
  outside : ∀ a ∈ t.map Prod.fst, a ∉ L.region
  slot_mem : ∀ i < t.length, L.slot i ∈ L.region
  slot_ne : ∀ i < t.length, L.slot i ≠ L.header
  slot_inj : ∀ i < t.length, ∀ j < t.length, L.slot i = L.slot j → i = j

/-- No transaction is committed and the homes are those of `e`. -/
structure Settled (e d : A → V) : Prop where
  homes : L.homes (d L.header) = []
  same : ∀ a, a ∉ L.region → d a = e a

/-- The header of `d` commits `t`, the slots hold its contents, and nothing
outside the region has changed but the homes of `t`. -/
structure Committed (d₀ : A → V) (t : List (A × V)) (d : A → V) : Prop where
  homes : L.homes (d L.header) = t.map Prod.fst
  slots : ∀ i (h : i < t.length), d (L.slot i) = (t.get ⟨i, h⟩).2
  same : ∀ a, a ∉ L.region → a ∉ t.map Prod.fst → d a = d₀ a

def Recoverable (d₀ : A → V) (t : List (A × V)) (d : A → V) : Prop :=
  L.Settled d₀ d ∨ L.Committed d₀ t d ∨ L.Settled (applyWrites d₀ t) d

variable {L} {e d d₀ : A → V} {t : List (A × V)}

theorem Settled.along (h : L.Settled e d) (ws : List (A × V))
    (hws : ∀ w ∈ ws, w.1 ∈ L.region ∧ w.1 ≠ L.header) : Along (L.Settled e) d ws := by
  induction ws generalizing d with
  | nil => exact along_nil h
  | cons w ws ih =>
    obtain ⟨hmem, hne⟩ := hws w mem_cons_self
    refine Along.cons h (ih ⟨?_, ?_⟩ fun v hv => hws v (mem_cons_of_mem _ hv))
    · rw [update_of_ne hne.symm]
      exact h.homes
    · intro a ha
      rw [update_of_ne (ne_of_mem_of_not_mem hmem ha).symm]
      exact h.same a ha

omit [DecidableEq A] in
theorem mem_slotWrites (hw : w ∈ L.slotWrites t) :
    ∃ i, ∃ h : i < t.length, w = (L.slot i, (t.get ⟨i, h⟩).2) := by
  obtain ⟨i, hi, rfl⟩ := mem_mapIdx.1 hw
  exact ⟨i, hi, rfl⟩

omit [DecidableEq A] in
theorem slotWrites_keys (t : List (A × V)) :
    (L.slotWrites t).map Prod.fst = (List.range t.length).map L.slot := by
  apply ext_getElem
  · simp [slotWrites]
  · simp [slotWrites]

omit [DecidableEq A] in
theorem Fits.slotWrites_nodup (ht : L.Fits t) : ((L.slotWrites t).map Prod.fst).Nodup := by
  rw [slotWrites_keys]
  refine List.Nodup.map_on ?_ nodup_range
  intro i hi j hj hij
  exact ht.slot_inj i (mem_range.1 hi) j (mem_range.1 hj) hij

theorem Fits.committed (ht : L.Fits t) (h : L.Settled d₀ d) {v : V}
    (hv : L.homes v = t.map Prod.fst) :
    L.Committed d₀ t (update (applyWrites d (L.slotWrites t)) L.header v) := by
  have hkeys : ∀ w ∈ L.slotWrites t, w.1 ∈ L.region ∧ w.1 ≠ L.header := by
    intro w hw
    obtain ⟨i, hi, rfl⟩ := mem_slotWrites hw
    exact ⟨ht.slot_mem i hi, ht.slot_ne i hi⟩
  have hslots := h.along _ hkeys _ (prefix_refl _)
  refine ⟨?_, ?_, ?_⟩
  · rw [update_self, hv]
  · intro i hi
    rw [update_of_ne (ht.slot_ne i hi)]
    refine applyWrites_of_mem d _ ht.slotWrites_nodup (w := (L.slot i, (t.get ⟨i, hi⟩).2)) ?_
    exact mem_mapIdx.2 ⟨i, hi, rfl⟩
  · intro a ha _
    rw [update_of_ne (ne_of_mem_of_not_mem L.header_mem ha).symm]
    exact hslots.same a ha

theorem Committed.along (h : L.Committed d₀ t d) (ht : L.Fits t) (ws : List (A × V))
    (hws : ∀ w ∈ ws, w.1 ∈ t.map Prod.fst) : Along (L.Committed d₀ t) d ws := by
  induction ws generalizing d with
  | nil => exact along_nil h
  | cons w ws ih =>
    have hw := hws w mem_cons_self
    have hout := ht.outside _ hw
    refine Along.cons h (ih ⟨?_, ?_, ?_⟩ fun v hv => hws v (mem_cons_of_mem _ hv))
    · rw [update_of_ne (ne_of_mem_of_not_mem L.header_mem hout)]
      exact h.homes
    · intro i hi
      rw [update_of_ne (ne_of_mem_of_not_mem (ht.slot_mem i hi) hout)]
      exact h.slots i hi
    · intro a ha hat
      rw [update_of_ne (ne_of_mem_of_not_mem hw hat).symm]
      exact h.same a ha hat

/-- Once all homes are written, clearing the header settles the store after
the transaction. -/
theorem Committed.settled (h : L.Committed d₀ t d) {c : V} (hc : L.homes c = []) :
    L.Settled (applyWrites d₀ t) (update (applyWrites d t) L.header c) := by
  refine ⟨?_, ?_⟩
  · rw [update_self, hc]
  · intro a ha
    rw [update_of_ne (ne_of_mem_of_not_mem L.header_mem ha).symm]
    by_cases hat : a ∈ t.map Prod.fst
    · exact applyWrites_congr_of_mem _ _ _ hat
    · rw [applyWrites_of_notMem _ _ hat, applyWrites_of_notMem _ _ hat]
      exact h.same a ha hat

omit [DecidableEq A] in
theorem Committed.installWrites (h : L.Committed d₀ t d) : L.installWrites d = t := by
  apply ext_getElem
  · simp [Layout.installWrites, h.homes]
  · intro i h₁ h₂
    have hslot := h.slots i h₂
    simp only [Layout.installWrites, h.homes, getElem_mapIdx, getElem_map]
    rw [hslot]
    rfl

theorem Committed.along_finish (h : L.Committed d₀ t d) (ht : L.Fits t) {c : V}
    (hc : L.homes c = []) : Along (L.Recoverable d₀ t) d (t ++ [(L.header, c)]) := by
  have hmem : ∀ w ∈ t, w.1 ∈ t.map Prod.fst := fun w hw => mem_map_of_mem hw
  have hinstall : Along (L.Recoverable d₀ t) d t :=
    fun p hp => .inr (.inl (h.along ht t hmem p hp))
  refine hinstall.append (Along.cons (hinstall t (prefix_refl t)) (along_nil ?_))
  exact .inr (.inr (h.settled hc))

theorem Fits.along_commitWrites (ht : L.Fits t) (h : L.Settled d₀ d) {v c : V}
    (hv : L.homes v = t.map Prod.fst) (hc : L.homes c = []) :
    Along (L.Recoverable d₀ t) d (L.commitWrites t v c) := by
  have hkeys : ∀ w ∈ L.slotWrites t, w.1 ∈ L.region ∧ w.1 ≠ L.header := by
    intro w hw
    obtain ⟨i, hi, rfl⟩ := mem_slotWrites hw
    exact ⟨ht.slot_mem i hi, ht.slot_ne i hi⟩
  have hslots : Along (L.Recoverable d₀ t) d (L.slotWrites t) :=
    fun p hp => .inl (h.along _ hkeys p hp)
  refine hslots.append (Along.cons (hslots _ (prefix_refl _)) ?_)
  exact (ht.committed h hv).along_finish ht hc

omit [DecidableEq A] in
theorem Settled.recoverWrites (h : L.Settled e d) :
    L.recoverWrites d = [(L.header, L.clear (d L.header))] := by
  simp [Layout.recoverWrites, Layout.installWrites, h.homes]

theorem Settled.clear (h : L.Settled e d) :
    L.Settled e (update d L.header (L.clear (d L.header))) := by
  refine ⟨?_, ?_⟩
  · rw [update_self, L.homes_clear]
  · intro a ha
    rw [update_of_ne (ne_of_mem_of_not_mem L.header_mem ha).symm]
    exact h.same a ha

theorem Recoverable.along_recoverWrites (ht : L.Fits t) (h : L.Recoverable d₀ t d) :
    Along (L.Recoverable d₀ t) d (L.recoverWrites d) := by
  rcases h with h | h | h
  · rw [h.recoverWrites]
    exact Along.cons (.inl h) (along_nil (.inl h.clear))
  · rw [recoverWrites, h.installWrites]
    exact h.along_finish ht (L.homes_clear _)
  · rw [h.recoverWrites]
    exact Along.cons (.inr (.inr h)) (along_nil (.inr (.inr h.clear)))

/-- A recovery that is not cut settles the store before or after the
transaction. -/
theorem Recoverable.settled_recoverWrites (h : L.Recoverable d₀ t d) :
    L.Settled d₀ (applyWrites d (L.recoverWrites d)) ∨
      L.Settled (applyWrites d₀ t) (applyWrites d (L.recoverWrites d)) := by
  rcases h with h | h | h
  · rw [h.recoverWrites]
    exact .inl h.clear
  · rw [recoverWrites, h.installWrites, applyWrites_append]
    exact .inr (h.settled (L.homes_clear _))
  · rw [h.recoverWrites]
    exact .inr h.clear

/-- Whatever a crash leaves behind, an address outside the region and outside
the transaction has its old value. -/
theorem Recoverable.frame (h : L.Recoverable d₀ t d) {a : A} (ha : a ∉ L.region)
    (hat : a ∉ t.map Prod.fst) : d a = d₀ a := by
  rcases h with h | h | h
  · exact h.same a ha
  · exact h.same a ha hat
  · rw [h.same a ha, applyWrites_of_notMem _ _ hat]

end Layout

end RedoLog

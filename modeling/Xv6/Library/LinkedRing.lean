import Mathlib.Data.List.Nodup

/-!
# Circular doubly linked lists

The nodes are a head, `none`, and the elements of a type. `Segment k a l b` says
that the links lead from the node `a` through the nodes of the list `l` to the
node `b`, and back. A ring is a segment from the head to the head in which no
node comes twice, `Linked`. The two changes that an LRU list needs, `unlink` and
`insertFront`, are assignments to single links, and on the list they are `erase`
and `cons`. A walk along the links that looks for a node finds what `List.find?`
finds, in either direction.
-/

namespace LinkedRing

open Function List

/-- The links of every node, `none` being the head. -/
structure Links (α : Type*) where
  next : Option α → Option α
  prev : Option α → Option α

namespace Links

variable {α : Type*} {k k' : Links α} {a b : Option α} {x y : α} {l l₁ l₂ : List α}

def flip (k : Links α) : Links α := ⟨k.prev, k.next⟩

def Segment (k : Links α) : Option α → List α → Option α → Prop
  | a, [], b => k.next a = b ∧ k.prev b = a
  | a, x :: l, b => (k.next a = some x ∧ k.prev (some x) = a) ∧ k.Segment (some x) l b

theorem segment_nil : k.Segment a [] b ↔ k.next a = b ∧ k.prev b = a := Iff.rfl

theorem segment_cons :
    k.Segment a (x :: l) b ↔ k.Segment a [] (some x) ∧ k.Segment (some x) l b := Iff.rfl

theorem segment_append :
    k.Segment a (l₁ ++ x :: l₂) b ↔ k.Segment a l₁ (some x) ∧ k.Segment (some x) l₂ b := by
  induction l₁ generalizing a with
  | nil => exact segment_cons
  | cons y l₁ ih => rw [cons_append, segment_cons, ih, segment_cons, and_assoc]

theorem Segment.flip (h : k.Segment a l b) : k.flip.Segment b l.reverse a := by
  induction l generalizing a with
  | nil => exact ⟨h.2, h.1⟩
  | cons x l ih =>
    rw [reverse_cons, segment_append]
    exact ⟨ih h.2, h.1.2, h.1.1⟩

theorem Segment.congr (h : k.Segment a l b) (hnext : ∀ c ∈ a :: l.map some, k'.next c = k.next c)
    (hprev : ∀ c ∈ b :: l.map some, k'.prev c = k.prev c) : k'.Segment a l b := by
  induction l generalizing a with
  | nil =>
    rw [segment_nil, hnext a (by simp), hprev b (by simp)]
    exact h
  | cons x l ih =>
    obtain ⟨⟨hax, hxa⟩, hl⟩ := h
    refine ⟨⟨?_, ?_⟩, ih hl ?_ ?_⟩
    · rw [hnext a (by simp), hax]
    · rw [hprev (some x) (by simp), hxa]
    · intro c hc
      exact hnext c (mem_cons_of_mem a hc)
    · intro c hc
      refine hprev c ?_
      rcases mem_cons.1 hc with rfl | hc
      · exact mem_cons_self
      · exact mem_cons_of_mem b (mem_cons_of_mem _ hc)

theorem Segment.next_mem (h : k.Segment a l b) : k.next a ∈ b :: l.map some := by
  cases l with
  | nil => simp [h.1]
  | cons x l => simp [h.1.1]

theorem Segment.prev_mem (h : k.Segment a l b) : k.prev b ∈ a :: l.map some := by
  simpa [Links.flip] using h.flip.next_mem

theorem Segment.next_ne (h : k.Segment (some x) l b) (hx : x ∉ l) (hb : b ≠ some x) :
    k.next (some x) ≠ some x := by
  intro heq
  have hmem := h.next_mem
  rw [heq, mem_cons] at hmem
  rcases hmem with hxb | hxl
  · exact hb hxb.symm
  · exact hx (by simpa using hxl)

/-- The nodes of a list form a ring with the head. -/
structure Linked (k : Links α) (l : List α) : Prop where
  nodup : l.Nodup
  segment : k.Segment none l none

def empty : Links α := ⟨fun _ => none, fun _ => none⟩

theorem linked_empty : (empty : Links α).Linked [] := ⟨nodup_nil, rfl, rfl⟩

/-! ### Walks -/

/-- Walk from a node on until the head or a node with the property is reached;
`none` when the steps do not suffice. -/
def walk (link : Option α → Option α) (p : α → Bool) : ℕ → Option α → Option (Option α)
  | 0, _ => none
  | _ + 1, none => some none
  | n + 1, some x => if p x then some (some x) else walk link p n (link (some x))

theorem Segment.walk_eq (h : k.Segment a l none) (p : α → Bool) {n : ℕ} (hn : l.length < n) :
    walk k.next p n (k.next a) = some (l.find? p) := by
  induction l generalizing a n with
  | nil =>
    obtain ⟨n, rfl⟩ := Nat.exists_eq_succ_of_ne_zero (Nat.ne_of_gt hn)
    rw [h.1]
    rfl
  | cons x l ih =>
    obtain ⟨n, rfl⟩ := Nat.exists_eq_succ_of_ne_zero (Nat.ne_zero_of_lt hn)
    rw [h.1.1, walk, List.find?_cons]
    by_cases hp : p x
    · simp only [hp, if_true]
    · simp only [hp, Bool.false_eq_true, if_false]
      exact ih h.2 (Nat.lt_of_succ_lt_succ hn)

theorem Linked.walk_next (h : k.Linked l) (p : α → Bool) {n : ℕ} (hn : l.length < n) :
    walk k.next p n (k.next none) = some (l.find? p) :=
  h.segment.walk_eq p hn

theorem Linked.walk_prev (h : k.Linked l) (p : α → Bool) {n : ℕ} (hn : l.length < n) :
    walk k.prev p n (k.prev none) = some (l.reverse.find? p) :=
  h.segment.flip.walk_eq p (by rwa [length_reverse])

/-! ### Changes -/

variable [DecidableEq α]

def setNext (k : Links α) (a b : Option α) : Links α :=
  { k with next := update k.next a b }

def setPrev (k : Links α) (a b : Option α) : Links α :=
  { k with prev := update k.prev a b }

def unlink (k : Links α) (x : α) : Links α :=
  let k := k.setPrev (k.next (some x)) (k.prev (some x))
  k.setNext (k.prev (some x)) (k.next (some x))

def insertFront (k : Links α) (x : α) : Links α :=
  let k := k.setNext (some x) (k.next none)
  let k := k.setPrev (some x) none
  let k := k.setPrev (k.next none) (some x)
  k.setNext none (some x)

theorem unlink_next (hx : k.next (some x) ≠ some x) :
    (k.unlink x).next = update k.next (k.prev (some x)) (k.next (some x)) := by
  simp only [unlink, setNext, setPrev, update_of_ne hx.symm]

theorem unlink_prev : (k.unlink x).prev = update k.prev (k.next (some x)) (k.prev (some x)) := rfl

theorem insertFront_next : (k.insertFront x).next =
    update (update k.next (some x) (k.next none)) none (some x) := by
  simp [insertFront, setNext, setPrev]

theorem insertFront_prev : (k.insertFront x).prev =
    update (update k.prev (some x) none) (k.next none) (some x) := by
  simp [insertFront, setNext, setPrev]

/-- Without its first node a segment goes on with the node after it. -/
theorem Segment.unlink_head (h : k.Segment a (x :: l) b) (hnodup : (x :: l).Nodup)
    (ha : a ∉ (x :: l).map some) (hb : b ∉ (x :: l).map some) : (k.unlink x).Segment a l b := by
  obtain ⟨⟨-, hprev⟩, hl⟩ := h
  obtain ⟨hx, hnodup⟩ := nodup_cons.1 hnodup
  simp only [map_cons, mem_cons, not_or] at ha hb
  have hxx : k.next (some x) ≠ some x := hl.next_ne hx hb.1
  cases l with
  | nil =>
    rw [segment_nil, unlink_next hxx, unlink_prev, hprev, hl.1]
    simp
  | cons y l =>
    simp only [map_cons, mem_cons, not_or] at ha hb
    refine ⟨?_, hl.2.congr ?_ ?_⟩
    · rw [unlink_next hxx, unlink_prev, hprev, hl.1.1]
      simp
    · intro c hc
      rw [unlink_next hxx, hprev, update_of_ne]
      rintro rfl
      rcases mem_cons.1 hc with hcy | hcl
      · exact ha.2.1 hcy
      · exact ha.2.2 hcl
    · intro c hc
      rw [unlink_prev, hl.1.1, update_of_ne]
      rintro rfl
      rcases mem_cons.1 hc with hcb | hcl
      · exact hb.2.1 hcb.symm
      · exact (nodup_cons.1 hnodup).1 (by simpa using hcl)

/-- By induction on the nodes before `x`: of their links only the last changes. -/
theorem Segment.unlink (h : k.Segment a (l₁ ++ x :: l₂) b)
    (hnodup : (l₁ ++ x :: l₂).Nodup) (ha : a ∉ (l₁ ++ x :: l₂).map some)
    (hb : b ∉ (l₁ ++ x :: l₂).map some) : (k.unlink x).Segment a (l₁ ++ l₂) b := by
  induction l₁ generalizing a with
  | nil => exact Segment.unlink_head h hnodup ha hb
  | cons z l₁ ih =>
    obtain ⟨⟨hnext, hprev⟩, hl⟩ := h
    rw [cons_append] at hnodup ha hb
    obtain ⟨hz, hnodup⟩ := nodup_cons.1 hnodup
    simp only [map_cons, mem_cons, not_or] at ha hb
    obtain ⟨hbefore, hafter⟩ := segment_append.1 hl
    have hx : x ∉ l₂ := (nodup_cons.1 (nodup_append.1 hnodup).2.1).1
    have hbx : b ≠ some x := fun heq => hb.2 (by simp [heq])
    have hne : k.next (some x) ≠ some x := hafter.next_ne hx hbx
    have haprev : a ≠ k.prev (some x) := by
      intro heq
      have hmem := hbefore.prev_mem
      rw [← heq, mem_cons] at hmem
      rcases hmem with haz | hal
      · exact ha.1 haz
      · exact ha.2 (by simp [mem_map.1 hal])
    have hznext : some z ≠ k.next (some x) := by
      intro heq
      have hmem := hafter.next_mem
      rw [← heq, mem_cons] at hmem
      rcases hmem with hzb | hzl
      · exact hb.1 hzb.symm
      · simp only [mem_map, Option.some.injEq, exists_eq_right] at hzl
        exact hz (by simp [hzl])
    refine ⟨⟨?_, ?_⟩, ih hl hnodup (by simpa using hz) hb.2⟩
    · rw [unlink_next hne, update_of_ne haprev, hnext]
    · rw [unlink_prev, update_of_ne hznext, hprev]

theorem Linked.unlink (h : k.Linked l) (hx : x ∈ l) : (k.unlink x).Linked (l.erase x) := by
  obtain ⟨l₁, l₂, rfl⟩ := append_of_mem hx
  have hx₁ : x ∉ l₁ := fun hx₁ => (nodup_append.1 h.nodup).2.2 x hx₁ x (by simp) rfl
  have herase : (l₁ ++ x :: l₂).erase x = l₁ ++ l₂ := by
    rw [erase_append_right _ hx₁, erase_cons_head]
  refine ⟨h.nodup.erase x, ?_⟩
  rw [herase]
  exact h.segment.unlink h.nodup (by simp) (by simp)

theorem Linked.insertFront (h : k.Linked l) (hx : x ∉ l) : (k.insertFront x).Linked (x :: l) := by
  refine ⟨nodup_cons.2 ⟨hx, h.nodup⟩, ⟨?_, ?_⟩, ?_⟩
  · rw [insertFront_next, update_self]
  · have hfirst : some x ≠ k.next none := by
      intro heq
      have hmem := h.segment.next_mem
      rw [← heq] at hmem
      exact hx (by simpa using hmem)
    rw [insertFront_prev, update_of_ne hfirst, update_self]
  · have hsegment := h.segment
    cases l with
    | nil =>
      rw [segment_nil, insertFront_next, insertFront_prev, hsegment.1]
      simp
    | cons y l =>
      simp only [mem_cons, not_or] at hx
      refine ⟨⟨?_, ?_⟩, hsegment.2.congr ?_ ?_⟩
      · rw [insertFront_next, hsegment.1.1]
        simp
      · rw [insertFront_prev, hsegment.1.1]
        simp
      · intro c hc
        have hcx : c ≠ some x := by
          rintro rfl
          simp only [mem_cons, Option.some.injEq, mem_map, exists_eq_right] at hc
          exact hc.elim hx.1 hx.2
        have hcnone : c ≠ none := by
          rintro rfl
          simp at hc
        rw [insertFront_next, update_of_ne hcnone, update_of_ne hcx]
      · intro c hc
        have hcx : c ≠ some x := by
          rintro rfl
          simp only [mem_cons, reduceCtorEq, false_or, mem_map, Option.some.injEq,
            exists_eq_right] at hc
          exact hx.2 hc
        have hcy : c ≠ some y := by
          rintro rfl
          simp only [mem_cons, reduceCtorEq, false_or, mem_map, Option.some.injEq,
            exists_eq_right] at hc
          exact (nodup_cons.1 h.nodup).1 hc
        rw [insertFront_prev, hsegment.1.1, update_of_ne hcy, update_of_ne hcx]

theorem Linked.toFront (h : k.Linked l) (hx : x ∈ l) :
    ((k.unlink x).insertFront x).Linked (x :: l.erase x) :=
  (h.unlink hx).insertFront h.nodup.not_mem_erase

theorem Linked.foldl_insertFront {m : List α} (h : k.Linked m) (hl : (l.reverse ++ m).Nodup) :
    (l.foldl Links.insertFront k).Linked (l.reverse ++ m) := by
  induction l generalizing k m with
  | nil => exact h
  | cons x l ih =>
    have hlist : (x :: l).reverse ++ m = l.reverse ++ (x :: m) := by simp
    rw [hlist] at hl ⊢
    have hx : x ∉ m := (nodup_cons.1 (nodup_append.1 hl).2.1).1
    exact ih (h.insertFront hx) hl

end Links

end LinkedRing

import Xv6.Tree.Model

/-!
# References and locks

Between two system calls the inode cache is `Settled`: what is cached has been
read, is allocated and is referenced, and an inode without links is kept only by
its references. A call goes away from such a state `k` by taking references and
locks. `k.hold i` has one reference to `i` more, `k.pin i` has also read the inode,
and in `k.grab i` it is locked as well.

Giving them back leads to `k` again, up to an inode that lost its last link in the
meantime and that `k.sweep i` frees. So the effect of a call on the inodes can be
read off without its references and locks.
-/

namespace Xv6.Tree

open Routine Function Finset Kernel

variable {P : Type} {k k' : Kernel P} {i j : ℕ}

namespace Kernel

variable {e : CacheEntry} {f : Inode → Inode}

def ref (k : Kernel P) (i : ℕ) : ℕ :=
  match k.cache i with
  | none => 0
  | some e => e.ref

def pin (k : Kernel P) (i : ℕ) : Kernel P := k.setCache i (some ⟨k.ref i + 1, true⟩)

def lock (k : Kernel P) (i : ℕ) : Kernel P := { k with locked := insert i k.locked }

def grab (k : Kernel P) (i : ℕ) : Kernel P := (k.pin i).lock i

def sweep (k : Kernel P) (i : ℕ) : Kernel P :=
  if (k.inode i).nlink = 0 ∧ k.cache i = none then k.modifyInode i Inode.freed else k

/-- The inode cache when the inodes in `S`, and no others, may have lost their last
link without having been swept. -/
structure SettledBut (k : Kernel P) (S : Set ℕ) : Prop where
  valid : ∀ i e, k.cache i = some e → e.valid = true
  pos : ∀ i e, k.cache i = some e → 1 ≤ e.ref
  alloc : ∀ i e, k.cache i = some e → (k.inode i).type ≠ .free
  tidy : ∀ i, i ∉ S → (k.inode i).type ≠ .free → (k.inode i).nlink = 0 → k.cache i ≠ none

/-- The inode cache between two system calls. -/
abbrev Settled (k : Kernel P) : Prop := k.SettledBut ∅

@[ext] theorem ext_fields (hi : k.inode = k'.inode) (hc : k.cache = k'.cache)
    (hl : k.locked = k'.locked) (hf : k.file = k'.file) (hp : k.proc = k'.proc) : k = k' := by
  cases k
  cases k'
  simp_all

@[simp] theorem inode_setCache (c : Option CacheEntry) : (k.setCache i c).inode = k.inode := rfl

@[simp] theorem inode_pin : (k.pin i).inode = k.inode := rfl

@[simp] theorem locked_pin : (k.pin i).locked = k.locked := rfl

@[simp] theorem locked_lock : (k.lock i).locked = insert i k.locked := rfl

@[simp] theorem inode_grab : (k.grab i).inode = k.inode := rfl

@[simp] theorem locked_grab : (k.grab i).locked = insert i k.locked := rfl

theorem cache_grab : (k.grab i).cache = (k.pin i).cache := rfl

@[simp] theorem cache_pin_self : (k.pin i).cache i = some ⟨k.ref i + 1, true⟩ :=
  update_self ..

theorem cache_pin_of_ne (h : j ≠ i) : (k.pin i).cache j = k.cache j :=
  update_of_ne h ..

@[simp] theorem inode_hold : (k.hold i).inode = k.inode := rfl

@[simp] theorem locked_hold : (k.hold i).locked = k.locked := rfl

@[simp] theorem cache_modifyInode (f : Inode → Inode) : (k.modifyInode i f).cache = k.cache :=
  rfl

@[simp] theorem locked_modifyInode (f : Inode → Inode) :
    (k.modifyInode i f).locked = k.locked := rfl

@[simp] theorem inode_modifyInode_self (f : Inode → Inode) :
    (k.modifyInode i f).inode i = f (k.inode i) := update_self ..

theorem inode_modifyInode_of_ne (f : Inode → Inode) (h : j ≠ i) :
    (k.modifyInode i f).inode j = k.inode j := update_of_ne h ..

@[simp] theorem cache_sweep : (k.sweep i).cache = k.cache := by
  unfold sweep
  split <;> rfl

@[simp] theorem locked_sweep : (k.sweep i).locked = k.locked := by
  unfold sweep
  split <;> rfl

theorem inode_sweep_of_cached (h : k.cache j = some e) : (k.sweep i).inode j = k.inode j := by
  unfold sweep
  split
  · rename_i hi
    refine inode_modifyInode_of_ne _ ?_
    rintro rfl
    rw [h] at hi
    cases hi.2
  · rfl

theorem inode_sweep_of_ne (h : j ≠ i) : (k.sweep i).inode j = k.inode j := by
  unfold sweep
  split
  · exact inode_modifyInode_of_ne _ h
  · rfl

theorem setCache_comm (h : i ≠ j) (c d : Option CacheEntry) :
    (k.setCache i c).setCache j d = (k.setCache j d).setCache i c := by
  simp only [setCache, update_comm h]

theorem cache_setCache_of_ne (h : j ≠ i) (c : Option CacheEntry) :
    (k.setCache i c).cache j = k.cache j := update_of_ne h ..

theorem ref_setCache_of_ne (h : j ≠ i) (c : Option CacheEntry) :
    (k.setCache i c).ref j = k.ref j := by
  simp only [ref, cache_setCache_of_ne h]

theorem hold_eq_pin (h : k.cache i = some e) (hv : e.valid = true) : k.hold i = k.pin i := by
  simp [hold, pin, ref, h, hv]

theorem pin_comm (h : i ≠ j) : (k.pin i).pin j = (k.pin j).pin i := by
  simp only [pin, ref_setCache_of_ne h, ref_setCache_of_ne h.symm, setCache_comm h]

theorem hold_pin (h : i ≠ j) : (k.pin i).hold j = (k.hold j).pin i := by
  simp only [pin, hold, ref_setCache_of_ne h, cache_setCache_of_ne h.symm, setCache_comm h]

theorem grab_comm (h : i ≠ j) : (k.grab i).grab j = (k.grab j).grab i := by
  ext1
  · rfl
  · exact congrArg (·.cache) (pin_comm (k := k) h)
  · exact insert_comm ..
  · rfl
  · rfl

theorem hold_grab (h : i ≠ j) : (k.grab i).hold j = (k.hold j).grab i := by
  ext1
  · rfl
  · exact congrArg (·.cache) (hold_pin (k := k) h)
  · rfl
  · rfl
  · rfl

theorem grab_modifyInode (f : Inode → Inode) :
    (k.modifyInode j f).grab i = (k.grab i).modifyInode j f := rfl

theorem sweep_pin (h : i ≠ j) : (k.pin j).sweep i = (k.sweep i).pin j := by
  simp only [sweep, inode_pin, cache_pin_of_ne h]
  split <;> rfl

theorem sweep_grab (h : i ≠ j) : (k.grab j).sweep i = (k.sweep i).grab j := by
  simp only [sweep, inode_grab, cache_grab, cache_pin_of_ne h]
  split <;> rfl

theorem sweep_hold (h : i ≠ j) : (k.hold j).sweep i = (k.sweep i).hold j := by
  have hc : (k.hold j).cache i = k.cache i := cache_setCache_of_ne h _
  simp only [sweep, inode_hold, hc]
  split <;> rfl

theorem setCache_setCache (c d : Option CacheEntry) :
    (k.setCache i c).setCache i d = k.setCache i d := by
  simp only [setCache, update_idem]

theorem setCache_eq_self {c : Option CacheEntry} (h : k.cache i = c) : k.setCache i c = k := by
  subst h
  simp only [setCache, update_eq_self]

theorem put_last (hc : k.cache i = some e) (hv : e.valid = true)
    (hr : e.ref = 1) : k.put i = (k.setCache i none).sweep i := by
  have hnone : (k.setCache i none).cache i = none := update_self ..
  simp only [put, hc, hv, hr, sweep, hnone, inode_setCache, and_true, true_and, if_true]
  split <;> rfl

theorem put_unread (hc : k.cache i = some e) (hv : e.valid = false)
    (hr : e.ref = 1) : k.put i = k.setCache i none := by
  simp [put, hc, hv, hr]

theorem put_more (hc : k.cache i = some e) (hr : e.ref ≠ 1) :
    k.put i = k.setCache i (some { e with ref := e.ref - 1 }) := by
  simp only [put, hc, hr, and_false, if_false]

theorem put_pin (hv : ∀ e, k.cache i = some e → e.valid = true ∧ 1 ≤ e.ref) :
    (k.pin i).put i = k.sweep i := by
  cases hc : k.cache i with
  | none =>
    have hr : k.ref i + 1 = 1 := by simp [ref, hc]
    rw [put_last cache_pin_self rfl hr, pin, setCache_setCache, setCache_eq_self hc]
  | some e =>
    obtain ⟨hv, hpos⟩ := hv e hc
    have hr : k.ref i = e.ref := by simp [ref, hc]
    have hone : k.ref i + 1 ≠ 1 := by omega
    have hkeep : k.sweep i = k := by simp [sweep, hc]
    have he : k.cache i = some ⟨k.ref i, true⟩ := by rw [hc, hr, ← hv]
    rw [put_more cache_pin_self hone, pin, setCache_setCache, hkeep]
    exact setCache_eq_self he

theorem put_hold (hv : ∀ e, k.cache i = some e → 1 ≤ e.ref) : (k.hold i).put i = k := by
  have hself : (k.hold i).cache i = _ := update_self ..
  cases hc : k.cache i with
  | none =>
    rw [hc] at hself
    rw [put_unread hself rfl rfl, hold, setCache_setCache, setCache_eq_self hc]
  | some e =>
    rw [hc] at hself
    have hone : e.ref + 1 ≠ 1 := by
      have := hv e hc
      omega
    rw [put_more hself hone, hold, setCache_setCache]
    exact setCache_eq_self hc

theorem put_hold_pin : ((k.pin i).hold i).put i = k.pin i := by
  have hself : ((k.pin i).hold i).cache i = some ⟨k.ref i + 1 + 1, true⟩ := by
    simp [hold, setCache]
  have hone : k.ref i + 1 + 1 ≠ 1 := by omega
  rw [put_more hself hone, hold, setCache_setCache]
  exact setCache_eq_self cache_pin_self

namespace SettledBut

variable {S : Set ℕ}

variable (h : k.SettledBut S)
include h

theorem mono {T : Set ℕ} (hST : S ⊆ T) : k.SettledBut T :=
  ⟨h.valid, h.pos, h.alloc, fun i hi => h.tidy i fun hS => hi (hST hS)⟩

theorem put_pin : (k.pin i).put i = k.sweep i :=
  Kernel.put_pin fun e he => ⟨h.valid i e he, h.pos i e he⟩

theorem put_hold : (k.hold i).put i = k := Kernel.put_hold (h.pos i)

theorem sweep_eq (hS : i ∉ S) (hi : (k.inode i).type ≠ .free) : k.sweep i = k := by
  unfold sweep
  rw [if_neg]
  rintro ⟨hn, hc⟩
  exact h.tidy i hS hi hn hc

theorem setCache {c : CacheEntry} (hv : c.valid = true) (hr : 1 ≤ c.ref)
    (hi : (k.inode i).type ≠ .free) : (k.setCache i (some c)).SettledBut (S \ {i}) := by
  have hself : (k.setCache i (some c)).cache i = some c := update_self ..
  constructor
  · intro j e he
    by_cases hj : j = i
    · subst hj
      cases hself.symm.trans he
      exact hv
    · exact h.valid j e (cache_setCache_of_ne hj _ ▸ he)
  · intro j e he
    by_cases hj : j = i
    · subst hj
      cases hself.symm.trans he
      exact hr
    · exact h.pos j e (cache_setCache_of_ne hj _ ▸ he)
  · intro j e he
    by_cases hj : j = i
    · subst hj
      exact hi
    · exact h.alloc j e (cache_setCache_of_ne hj _ ▸ he)
  · intro j hS ht hn
    by_cases hj : j = i
    · subst hj
      rw [hself]
      simp
    · rw [cache_setCache_of_ne hj]
      exact h.tidy j (fun hj' => hS ⟨hj', hj⟩) ht hn

theorem pin (hi : (k.inode i).type ≠ .free) : (k.pin i).SettledBut (S \ {i}) :=
  h.setCache rfl (Nat.le_add_left 1 _) hi

theorem modifyInode (hf : k.cache i ≠ none → (f (k.inode i)).type ≠ .free) :
    (k.modifyInode i f).SettledBut (insert i S) := by
  refine ⟨h.valid, h.pos, fun j e he => ?_, fun j hS => ?_⟩
  · by_cases hj : j = i
    · subst hj
      rw [inode_modifyInode_self]
      exact hf (by simp_all)
    · rw [inode_modifyInode_of_ne _ hj]
      exact h.alloc j e he
  · have hj : j ≠ i := fun hj => hS (.inl hj)
    rw [inode_modifyInode_of_ne _ hj]
    exact h.tidy j fun hj' => hS (.inr hj')

theorem retouch (ht : (f (k.inode i)).type = (k.inode i).type)
    (hn : (f (k.inode i)).nlink = (k.inode i).nlink) : (k.modifyInode i f).SettledBut S := by
  refine ⟨h.valid, h.pos, fun j e he => ?_, fun j hS => ?_⟩
  · by_cases hj : j = i
    · subst hj
      rw [inode_modifyInode_self, ht]
      exact h.alloc j e he
    · rw [inode_modifyInode_of_ne _ hj]
      exact h.alloc j e he
  · by_cases hj : j = i
    · subst hj
      rw [inode_modifyInode_self, ht, hn]
      exact h.tidy j hS
    · rw [inode_modifyInode_of_ne _ hj]
      exact h.tidy j hS

theorem of_linked (hn : (k.inode i).nlink ≠ 0) : k.SettledBut (S \ {i}) := by
  refine ⟨h.valid, h.pos, h.alloc, fun j hS ht hz => ?_⟩
  by_cases hj : j = i
  · subst hj
    exact absurd hz hn
  · exact h.tidy j (fun hj' => hS ⟨hj', hj⟩) ht hz

theorem sweep : (k.sweep i).SettledBut (S \ {i}) := by
  by_cases hi : (k.inode i).nlink = 0 ∧ k.cache i = none
  · have hs : k.sweep i = k.modifyInode i Inode.freed := if_pos hi
    have hk := h.modifyInode (f := Inode.freed) fun hc => absurd hi.2 hc
    rw [hs]
    refine ⟨hk.valid, hk.pos, hk.alloc, fun j hS ht hn => ?_⟩
    by_cases hj : j = i
    · subst hj
      simp [Inode.freed] at ht
    · exact hk.tidy j (fun hj' => hS ⟨hj'.resolve_left hj, hj⟩) ht hn
  · have hs : k.sweep i = k := if_neg hi
    rw [hs]
    refine ⟨h.valid, h.pos, h.alloc, fun j hS ht hn hc => ?_⟩
    by_cases hj : j = i
    · subst hj
      exact hi ⟨hn, hc⟩
    · exact h.tidy j (fun hj' => hS ⟨hj', hj⟩) ht hn hc

end SettledBut

section Cached

variable {fmt : Format}

theorem countP_le_add_count (p q : ℕ → Bool) (h : ∀ j, j ≠ i → p j = q j) (l : List ℕ) :
    l.countP p ≤ l.countP q + l.count i := by
  induction l with
  | nil => exact Nat.le_refl _
  | cons j l ih =>
    rw [List.countP_cons, List.countP_cons, List.count_cons]
    by_cases hj : j = i
    · rw [if_pos (beq_iff_eq.2 hj)]
      split_ifs <;> omega
    · rw [h j hj]
      omega

theorem cached_setCache_le (c : Option CacheEntry) :
    (k.setCache i c).cached fmt ≤ k.cached fmt + 1 := by
  have hone := List.nodup_iff_count_le_one.1 (List.nodup_range (n := fmt.ninodes)) i
  have hcount := countP_le_add_count (i := i) (fun j => ((k.setCache i c).cache j).isSome)
    (fun j => (k.cache j).isSome) (fun j hj => by rw [cache_setCache_of_ne hj])
    (List.range fmt.ninodes)
  exact hcount.trans (Nat.add_le_add_left hone _)

theorem cached_grab_le : (k.grab i).cached fmt ≤ k.cached fmt + 1 := cached_setCache_le _

end Cached

/-- A reference to inode `i` has been taken in `k`, and the inode may have been
read since. -/
def Held (k : Kernel P) (i : ℕ) (k' : Kernel P) : Prop :=
  k' = k.hold i ∨ ((k.inode i).type ≠ .free ∧ k' = k.pin i)

end Kernel

section Rules

variable {S : Set ℕ} {Q : Unit → Kernel P → Prop} {E : Stop → Kernel P → Prop}

theorem wp_iget {fmt : Format} (hQ : Q () (k.hold i))
    (hE : nInode ≤ k.cached fmt → E .icacheFull k) : wp (iget fmt i) Q E k := by
  simp only [iget, wp_bind, wp_look, wp_ite, wp_stop, wp_update]
  exact ⟨fun hfull => hE hfull.2, fun _ => hQ⟩

theorem wp_ilock_read (hc : k.cache i = some e) (hv : e.valid = true)
    (hl : i ∉ k.locked) (hQ : Q () (k.lock i)) : wp (ilock i) Q E k := by
  simp only [ilock, wp_bind, wp_look, hc, if_neg hl, wp_update, hv, if_true, wp_pure]
  exact hQ

theorem wp_ilock_pin (hl : i ∉ k.locked) (hQ : Q () (k.grab i)) : wp (ilock i) Q E (k.pin i) :=
  wp_ilock_read cache_pin_self rfl hl hQ

theorem wp_ilock (h : k.SettledBut S) (hk : k.Held i k') (hl : i ∉ k.locked)
    (hQ : (k.inode i).type ≠ .free → Q () (k.grab i))
    (hE : (k.inode i).type = .free → ∀ k', E .noType k') : wp (ilock i) Q E k' := by
  rcases hk with rfl | ⟨ht, rfl⟩
  · cases hc : k.cache i with
    | some e =>
      rw [hold_eq_pin hc (h.valid i e hc)]
      exact wp_ilock_pin hl (hQ (h.alloc i e hc))
    | none =>
      have hself : (k.hold i).cache i = some ⟨1, false⟩ := by
        simp [hold, setCache, hc]
      have hgrab : setCache { k.hold i with locked := insert i k.locked } i
          (some ⟨1, true⟩) = k.grab i := by
        simp [grab, lock, pin, hold, setCache,
          ref, hc]
      simp only [ilock, wp_bind, wp_look,  hself, locked_hold, if_neg hl,
        wp_update, Bool.false_eq_true, if_false, wp_ite, wp_stop, wp_pure]
      exact ⟨fun ht => hE ht _, fun ht => (congrArg (Q ()) hgrab).mpr (hQ ht)⟩
  · exact wp_ilock_pin hl (hQ ht)

theorem wp_iunlock_lock (hc : k.cache i ≠ none) (hl : i ∉ k.locked) (hQ : Q () k) :
    wp (iunlock i) Q E (k.lock i) := by
  have hback : { k.lock i with locked := (k.lock i).locked.erase i } = k := by
    simp [lock, erase_insert hl]
  simp only [iunlock, wp_bind, wp_look, wp_ite, wp_stop, wp_update, locked_lock,
    mem_insert_self, not_true, false_or]
  exact ⟨fun h => absurd h hc, fun _ => (congrArg (Q ()) hback).mpr hQ⟩

theorem wp_iunlock (hl : i ∉ k.locked) (hQ : Q () (k.pin i)) : wp (iunlock i) Q E (k.grab i) :=
  wp_iunlock_lock (by simp) hl hQ

theorem wp_iput (hl : i ∉ k.locked) (hQ : Q () (k.put i)) : wp (iput i) Q E k := by
  simp only [iput, wp_bind, wp_look,  if_neg hl, wp_update]
  exact hQ

theorem wp_iput_pin (h : k.SettledBut S) (hl : i ∉ k.locked) (hQ : Q () (k.sweep i)) :
    wp (iput i) Q E (k.pin i) :=
  wp_iput hl (h.put_pin ▸ hQ)

theorem wp_iput_held (h : k.SettledBut S) (hS : i ∉ S) (hk : k.Held i k')
    (hl : i ∉ k.locked) (hQ : Q () k) : wp (iput i) Q E k' := by
  rcases hk with rfl | ⟨ht, rfl⟩
  · refine wp_iput hl ?_
    rwa [h.put_hold]
  · refine wp_iput_pin h hl ?_
    rwa [h.sweep_eq hS ht]

theorem wp_iunlockput (h : k.SettledBut S) (hl : i ∉ k.locked) (hQ : Q () (k.sweep i)) :
    wp (iunlockput i) Q E (k.grab i) := by
  rw [iunlockput, wp_bind]
  exact wp_iunlock hl (wp_iput_pin h hl hQ)

/-- Leaving a directory for an inode that was found in it, maybe itself. -/
theorem wp_iunlockput_held (h : k.SettledBut S) (hS : i ∉ S) (hl : i ∉ k.locked)
    (ht : (k.inode i).type ≠ .free) (hQ : ∀ k', k.Held j k' → Q () k') :
    wp (iunlockput i) Q E ((k.grab i).hold j) := by
  by_cases hij : i = j
  · subst hij
    have hback : { (k.grab i).hold i with locked := ((k.grab i).hold i).locked.erase i } =
        (k.pin i).hold i := by
      simp [hold, grab, lock, pin, setCache,
        erase_insert hl]
    have hcache : ((k.grab i).hold i).cache i ≠ none := by
      simp [hold, setCache]
    simp only [iunlockput, iunlock, wp_bind, wp_look, wp_ite, wp_stop, wp_update,
      locked_hold, locked_grab, mem_insert_self, not_true, false_or,
      hcache]
    refine ⟨by simp, fun _ => ?_⟩
    rw [locked_hold, locked_grab] at hback
    rw [hback]
    refine wp_iput hl ?_
    rw [put_hold_pin]
    exact hQ _ (.inr ⟨ht, rfl⟩)
  · rw [hold_grab hij, iunlockput, wp_bind]
    refine wp_iunlock hl ?_
    have hv : ∀ e, (k.hold j).cache i = some e → e.valid = true ∧ 1 ≤ e.ref := by
      intro e he
      rw [hold, cache_setCache_of_ne hij] at he
      exact ⟨h.valid i e he, h.pos i e he⟩
    refine wp_iput hl ?_
    rw [put_pin hv, sweep_hold hij, h.sweep_eq hS ht]
    exact hQ _ (.inl rfl)

end Rules

end Xv6.Tree

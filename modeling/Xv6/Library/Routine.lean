import Mathlib.Tactic.Common

/-!
# Routines that may stop

A `Routine ε σ α` runs on a state of type `σ` and either returns a value of
type `α` or stops for a reason of type `ε`. The state reached is kept in both
cases, so what a stopped routine had already done can still be spoken of.

`Routine.wp x Q E s` is the weakest condition on the state `s` from which `x`
returns a value and a state satisfying `Q`, or stops with a reason and a state
satisfying `E`. The rules below compute it for each way of building a routine,
so a caller cites the specification of a callee through `Routine.wp_mono` and
never opens its body.
-/

def Routine (ε σ α : Type) : Type := σ → Except ε α × σ

namespace Routine

open List

variable {ε σ α β : Type}

def stop (e : ε) : Routine ε σ α := fun s => (.error e, s)

def look (f : σ → α) : Routine ε σ α := fun s => (.ok (f s), s)

def update (f : σ → σ) : Routine ε σ Unit := fun s => (.ok (), f s)

instance : Monad (Routine ε σ) where
  pure a := fun s => (.ok a, s)
  bind x f := fun s =>
    match x s with
    | (.ok a, t) => f a t
    | (.error e, t) => (.error e, t)

instance : LawfulMonad (Routine ε σ) := by
  refine LawfulMonad.mk' _ (fun x => ?_) (fun _ _ => rfl) fun x f g => ?_
  · funext s
    simp only [Functor.map]
    rcases x s with ⟨r, t⟩
    cases r <;> rfl
  · funext s
    simp only [bind]
    rcases x s with ⟨r, t⟩
    cases r <;> rfl

theorem bind_of_ok {x : Routine ε σ α} {f : α → Routine ε σ β} {a : α} {s t : σ}
    (h : x s = (.ok a, t)) : (x >>= f) s = f a t := by
  simp only [bind, h]

theorem bind_of_error {x : Routine ε σ α} {f : α → Routine ε σ β} {e : ε} {s t : σ}
    (h : x s = (.error e, t)) : (x >>= f) s = (.error e, t) := by
  simp only [bind, h]

theorem ok_of_toOption {x : Routine ε σ α} {s : σ} (a : α) (h : (x s).1.toOption = some a) :
    ∃ t, x s = (.ok a, t) := by
  rcases hx : x s with ⟨r, t⟩
  rw [hx] at h
  cases r with
  | error e => cases h
  | ok b =>
    cases h
    exact ⟨t, rfl⟩

/-- The weakest condition under which `x` ends in `Q` or stops in `E`. -/
def wp (x : Routine ε σ α) (Q : α → σ → Prop) (E : ε → σ → Prop) (s : σ) : Prop :=
  match x s with
  | (.ok a, t) => Q a t
  | (.error e, t) => E e t

section Rules

variable {Q : α → σ → Prop} {E : ε → σ → Prop} {s : σ}

@[simp] theorem wp_pure (a : α) : wp (pure a) Q E s ↔ Q a s := Iff.rfl

@[simp] theorem wp_stop (e : ε) : wp (stop e) Q E s ↔ E e s := Iff.rfl

@[simp] theorem wp_look (f : σ → α) : wp (look f) Q E s ↔ Q (f s) s := Iff.rfl

@[simp] theorem wp_update {Q : Unit → σ → Prop} (f : σ → σ) :
    wp (update f) Q E s ↔ Q () (f s) := Iff.rfl

@[simp] theorem wp_bind {Q : β → σ → Prop} (x : Routine ε σ α) (f : α → Routine ε σ β) :
    wp (x >>= f) Q E s ↔ wp x (fun a t => wp (f a) Q E t) E s := by
  simp only [wp, bind]
  rcases x s with ⟨r, t⟩
  cases r <;> rfl

@[simp] theorem wp_ite (c : Prop) [Decidable c] (x y : Routine ε σ α) :
    wp (if c then x else y) Q E s ↔ (c → wp x Q E s) ∧ (¬ c → wp y Q E s) := by
  by_cases h : c <;> simp [h]

theorem wp_mono {x : Routine ε σ α} {Q' : α → σ → Prop} {E' : ε → σ → Prop} (h : wp x Q E s)
    (hQ : ∀ a t, Q a t → Q' a t) (hE : ∀ e t, E e t → E' e t) : wp x Q' E' s := by
  rcases hx : x s with ⟨r, t⟩
  cases r with
  | ok a =>
    simp only [wp, hx] at h ⊢
    exact hQ a t h
  | error e =>
    simp only [wp, hx] at h ⊢
    exact hE e t h

theorem wp_mono_post {x : Routine ε σ α} {Q' : α → σ → Prop} (h : wp x Q E s)
    (hQ : ∀ a t, Q a t → Q' a t) : wp x Q' E s :=
  wp_mono h hQ fun _ _ hstop => hstop

theorem wp_mono_ok {x : Routine ε σ α} {Q' : α → σ → Prop}
    (h : wp x Q (fun _ _ => False) s) (hQ : ∀ a t, Q a t → Q' a t) : wp x Q' E s :=
  wp_mono h hQ fun _ _ hstop => hstop.elim

theorem wp_and {x : Routine ε σ α} {Q' : α → σ → Prop} {E' : ε → σ → Prop} (h : wp x Q E s)
    (h' : wp x Q' E' s) : wp x (fun a t => Q a t ∧ Q' a t) (fun e t => E e t ∧ E' e t) s := by
  rcases hx : x s with ⟨r, t⟩
  cases r with
  | ok | error =>
    simp only [wp, hx] at h h' ⊢
    exact ⟨h, h'⟩

theorem wp_iff_of_ok {x : Routine ε σ α} {a : α} {t : σ} (hx : x s = (.ok a, t)) :
    wp x Q E s ↔ Q a t := by
  rw [wp, hx]

theorem wp_ok {x : Routine ε σ α} {a : α} {t : σ} (h : wp x Q E s)
    (hx : x s = (.ok a, t)) : Q a t :=
  (wp_iff_of_ok hx).1 h

theorem wp_returns {x : Routine ε σ α} (h : wp x Q E s) (hE : ∀ e t, ¬ E e t) :
    ∃ a t, x s = (.ok a, t) ∧ Q a t := by
  rcases hx : x s with ⟨r, t⟩
  cases r with
  | ok a =>
    simp only [wp, hx] at h
    exact ⟨a, t, rfl, h⟩
  | error e =>
    simp only [wp, hx] at h
    exact absurd h (hE e t)

theorem wp_state {x : Routine ε σ α} {P : σ → Prop}
    (h : wp x (fun _ t => P t) (fun _ t => P t) s) : P (x s).2 := by
  rcases hx : x s with ⟨r, t⟩
  cases r with
  | ok a => simpa only [wp, hx] using h
  | error e => simpa only [wp, hx] using h

end Rules

def foldFrom (f : ℕ → α → Routine ε σ α) : ℕ → ℕ → α → Routine ε σ α
  | _, 0, a => pure a
  | i, k + 1, a => do
      let b ← f i a
      foldFrom f (i + 1) k b

def foldRange (n : ℕ) (f : ℕ → α → Routine ε σ α) (a : α) : Routine ε σ α :=
  foldFrom f 0 n a

theorem wp_foldFrom {f : ℕ → α → Routine ε σ α} {I : ℕ → α → σ → Prop} {E : ε → σ → Prop} (k : ℕ) :
    ∀ (i : ℕ) (a : α) (s : σ), I i a s →
      (∀ j b t, i ≤ j → j < i + k → I j b t → wp (f j b) (fun c u => I (j + 1) c u) E t) →
        wp (foldFrom f i k a) (fun b t => I (i + k) b t) E s := by
  induction k with
  | zero =>
    intro i a s hs _
    simpa [foldFrom] using hs
  | succ k ih =>
    intro i a s hs hf
    rw [foldFrom, wp_bind]
    refine wp_mono (hf i a s (Nat.le_refl i) (by omega) hs) ?_ (fun _ _ h => h)
    intro b t ht
    have hrest := ih (i + 1) b t ht fun j c u hij hj hu =>
      hf j c u (by omega) (by omega) hu
    have hend : i + 1 + k = i + (k + 1) := by omega
    rwa [hend] at hrest

theorem wp_foldRange {f : ℕ → α → Routine ε σ α} {I : ℕ → α → σ → Prop}
    {E : ε → σ → Prop} {n : ℕ} {a : α} {s : σ} (h₀ : I 0 a s)
    (hf : ∀ j b t, j < n → I j b t → wp (f j b) (fun c u => I (j + 1) c u) E t) :
    wp (foldRange n f a) (fun b t => I n b t) E s := by
  have h := wp_foldFrom (f := f) (E := E) n 0 a s h₀ fun j b t _ hj hI =>
    hf j b t (by omega) hI
  rwa [Nat.zero_add] at h

def forFrom (f : ℕ → Routine ε σ Unit) : ℕ → ℕ → Routine ε σ Unit
  | _, 0 => pure ()
  | i, k + 1 => do
      f i
      forFrom f (i + 1) k

def forRange (n : ℕ) (f : ℕ → Routine ε σ Unit) : Routine ε σ Unit :=
  forFrom f 0 n

theorem forFrom_eq_foldFrom (f : ℕ → Routine ε σ Unit) (i k : ℕ) :
    forFrom f i k = foldFrom (fun j _ => f j) i k () := by
  induction k generalizing i with
  | zero => rfl
  | succ k ih => simp only [forFrom, foldFrom, ih]

theorem wp_forRange {f : ℕ → Routine ε σ Unit} {I : ℕ → σ → Prop} {E : ε → σ → Prop} {n : ℕ} {s : σ}
    (h₀ : I 0 s) (hf : ∀ j t, j < n → I j t → wp (f j) (fun _ u => I (j + 1) u) E t) :
    wp (forRange n f) (fun _ t => I n t) E s := by
  rw [forRange, forFrom_eq_foldFrom]
  exact wp_foldRange (I := fun j _ => I j) h₀ fun j _ => hf j

/-- `searchFrom f i k` runs `f i`, `f (i + 1)`, ... until one answers, for at most `k`
rounds, and returns where it has stopped. -/
def searchFrom (f : ℕ → Routine ε σ Bool) : ℕ → ℕ → Routine ε σ ℕ
  | i, 0 => pure i
  | i, k + 1 => do
      let found ← f i
      if found = true then pure i else searchFrom f (i + 1) k

def search (n : ℕ) (f : ℕ → Routine ε σ Bool) : Routine ε σ ℕ :=
  searchFrom f 0 n

theorem wp_searchFrom {f : ℕ → Routine ε σ Bool} {I Q : ℕ → σ → Prop} {E : ε → σ → Prop} (k : ℕ) :
    ∀ (i : ℕ) (s : σ), I i s → (∀ j t, i ≤ j → j < i + k → I j t →
        wp (f j) (fun b u => if b = true then Q j u else I (j + 1) u) E t) →
      (∀ t, I (i + k) t → Q (i + k) t) → wp (searchFrom f i k) Q E s := by
  induction k with
  | zero =>
    intro i s hs _ hend
    simpa [searchFrom] using hend s hs
  | succ k ih =>
    intro i s hs hf hend
    have hnext : i + 1 + k = i + (k + 1) := by omega
    rw [searchFrom, wp_bind]
    refine wp_mono (hf i s (Nat.le_refl i) (by omega) hs) ?_ (fun _ _ h => h)
    intro b t ht
    rw [wp_ite]
    refine ⟨fun hb => ?_, fun hb => ?_⟩
    · simpa [hb] using ht
    · rw [if_neg hb] at ht
      refine ih (i + 1) t ht (fun j u hij hj hu => hf j u (by omega) (by omega) hu) ?_
      rwa [hnext]

/-- The invariant rule for a search: `I i` holds before round `i`, and `Q i` where the loop
is left. -/
theorem wp_search {f : ℕ → Routine ε σ Bool} {I Q : ℕ → σ → Prop}
    {E : ε → σ → Prop} {n : ℕ} {s : σ} (h₀ : I 0 s)
    (hf : ∀ j t, j < n → I j t → wp (f j) (fun b u => if b = true then Q j u else I (j + 1) u) E t)
    (hend : ∀ t, I n t → Q n t) : wp (search n f) Q E s := by
  refine wp_searchFrom n 0 s h₀ (fun j t _ hj hI => hf j t (by omega) hI) ?_
  rwa [Nat.zero_add]

theorem wp_search_look {f : ℕ → Routine ε σ Bool} {P : ℕ → Prop} [DecidablePred P] {n : ℕ}
    {s : σ} (hf : ∀ j < n, f j s = (.ok (decide (P j)), s)) :
    wp (search n f)
      (fun i t => t = s ∧ i ≤ n ∧ (∀ j < i, ¬ P j) ∧ (i < n → P i)) (fun _ _ => False) s := by
  refine wp_search (I := fun i t => t = s ∧ ∀ j < i, ¬ P j) ⟨rfl, by simp⟩ ?_ ?_
  · rintro i t hi ⟨rfl, hbefore⟩
    rw [wp, hf i hi]
    dsimp only
    split_ifs with hfound
    · exact ⟨rfl, Nat.le_of_lt hi, hbefore, fun _ => of_decide_eq_true hfound⟩
    · refine ⟨rfl, fun j hj => ?_⟩
      rcases Nat.lt_succ_iff_lt_or_eq.1 hj with hj | rfl
      · exact hbefore j hj
      · exact of_decide_eq_false (eq_false_of_ne_true hfound)
  · rintro t ⟨rfl, hbefore⟩
    exact ⟨rfl, Nat.le_refl n, hbefore, fun hlt => absurd hlt (Nat.lt_irrefl n)⟩

def forEach (f : α → Routine ε σ Unit) : List α → Routine ε σ Unit
  | [] => pure ()
  | a :: l => do
      f a
      forEach f l

theorem wp_forEach {f : α → Routine ε σ Unit} {I : σ → Prop} {P : α → Prop} {E : ε → σ → Prop}
    {l : List α} {s : σ} (h₀ : I s) (hf : ∀ a ∈ l, ∀ t, I t → wp (f a) (fun _ u => I u ∧ P a) E t) :
    wp (forEach f l) (fun _ t => I t ∧ ∀ a ∈ l, P a) E s := by
  induction l generalizing s with
  | nil => simpa [forEach] using h₀
  | cons a l ih =>
    rw [forEach, wp_bind]
    refine wp_mono (hf a mem_cons_self s h₀) ?_ (fun _ _ h => h)
    rintro _ t ⟨ht, ha⟩
    refine wp_mono (ih ht fun b hb => hf b (mem_cons_of_mem a hb)) ?_ (fun _ _ h => h)
    rintro _ u ⟨hu, hl⟩
    exact ⟨hu, forall_mem_cons.2 ⟨ha, hl⟩⟩

theorem wp_forEach_done {f : α → Routine ε σ Unit} {I : List α → σ → Prop} {E : ε → σ → Prop}
    {l : List α} {s : σ} (h₀ : I [] s) (hf : ∀ done a rest, l = done ++ a :: rest → ∀ t, I done t →
      wp (f a) (fun _ u => I (done ++ [a]) u) E t) : wp (forEach f l) (fun _ t => I l t) E s := by
  have hrest : ∀ rest done t, l = done ++ rest → I done t →
      wp (forEach f rest) (fun _ u => I l u) E t := by
    intro rest
    induction rest with
    | nil =>
      intro done t hl ht
      rw [hl, append_nil]
      exact ht
    | cons a rest ih =>
      intro done t hl ht
      rw [forEach, wp_bind]
      refine wp_mono (hf done a rest hl t ht) (fun _ u hu => ?_) (fun _ _ h => h)
      exact ih (done ++ [a]) u (by rw [hl, append_assoc, singleton_append]) hu
  exact hrest l [] s rfl h₀

section Simulation

variable {τ : Type} {abs : τ → σ}

def Simulates (abs : τ → σ) (y : Routine ε τ α) (x : Routine ε σ α) : Prop :=
  ∀ t, x (abs t) = ((y t).1, abs (y t).2)

theorem Simulates.bind {y : Routine ε τ α} {x : Routine ε σ α} {g : α → Routine ε τ β}
    {f : α → Routine ε σ β} (h : Simulates abs y x) (hf : ∀ a, Simulates abs (g a) (f a)) :
    Simulates abs (y >>= g) (x >>= f) := by
  intro t
  have ht := h t
  simp only [Bind.bind, ht]
  rcases y t with ⟨r, t'⟩
  cases r with
  | ok a => exact hf a t'
  | error e => rfl

theorem Simulates.ite {c : Prop} [Decidable c] {y y' : Routine ε τ α} {x x' : Routine ε σ α}
    (h : Simulates abs y x) (h' : Simulates abs y' x') :
    Simulates abs (if c then y else y') (if c then x else x') := by
  split_ifs
  · exact h
  · exact h'

theorem Simulates.wp_iff {y : Routine ε τ α} {x : Routine ε σ α} {Q : α → σ → Prop}
    {E : ε → σ → Prop} {t : τ} (h : Simulates abs y x) :
    wp x Q E (abs t) ↔ wp y (fun a t => Q a (abs t)) (fun e t => E e (abs t)) t := by
  rw [wp, h t, wp]
  rcases y t with ⟨r, t'⟩
  cases r <;> rfl

end Simulation

end Routine

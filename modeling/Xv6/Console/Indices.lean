import Xv6.Console.Model

/-!
# The indices of the console

The indices `r`, `w` and `e` run free and are reduced at each use, so what matters are the
distances between them. Two places forget to reduce. A newline copies the line to the
history from `&(input.buf[input.r])` on, and `tabhandler` compares from there on and
appends at `input.buf[input.e++]`. They stay inside of the array as long as the characters
that are not read yet lie in it in one piece, and what a tab would append as well.
-/

namespace Xv6.Console

open List

/-- The indices are in order and the accesses were inside of the arrays. -/
structure Input.Sound (s : Input) : Prop where
  committed : (s.w - s.r).toNat ≤ (s.e - s.r).toNat
  unread : (s.e - s.r).toNat ≤ inputBuf
  index : s.history.index.toNat < hisSize
  sizes : ∀ i, (s.history.commandSize i).toNat < inputBuf
  accesses : ∀ a ∈ s.accesses, a.InBounds
  overrun : s.overrun = false

/-- The characters not read yet do not go past the end of the array, when `input.r` is taken
as it is. -/
def Input.InPiece (s : Input) : Prop :=
  s.e = s.r ∨ s.r.toNat + (s.e - s.r).toNat ≤ inputBuf

/-- What a character must find: for a newline that is accepted, the characters not read yet
in one piece; for a tab in addition room for the remembered command that its search takes. -/
def Input.Contained (s : Input) (c : Byte) : Prop :=
  (c = newline ∨ c = carriageReturn → (s.e - s.r).toNat < inputBuf → s.InPiece) ∧
    (c = tab → s.InPiece ∧ ∀ i ∈ (s.tabSearch (s.e - s.r).toNat (List.range hisSize)).2,
      (s.e - s.r).toNat < (s.history.commandSize i).toNat →
      s.r.toNat + (s.history.commandSize i).toNat ≤ inputBuf)

instance Input.decidableInPiece (s : Input) : Decidable s.InPiece :=
  inferInstanceAs (Decidable (_ ∨ _))

instance Input.decidableContained (s : Input) (c : Byte) : Decidable (s.Contained c) :=
  inferInstanceAs (Decidable (_ ∧ _))

theorem strncmp_snd_le (p q : ℕ → Byte) (k n : ℕ) : (strncmp p q k n).2 ≤ k + n := by
  induction n generalizing k with
  | zero => exact le_rfl
  | succ n ih =>
    rw [strncmp]
    split
    · have := ih (k + 1)
      omega
    · omega

theorem strncpyReads_le (t : ℕ → Byte) (k n : ℕ) : strncpyReads t k n ≤ k + n := by
  induction n generalizing k with
  | zero => exact le_rfl
  | succ n ih =>
    rw [strncpyReads]
    split
    · omega
    · have := ih (k + 1)
      omega

/-! The distance from an index to another, when one of them moves by one. -/

section Distance

variable {a b : BitVec 32}

theorem toNat_succ_sub (h : (b - a).toNat < inputBuf) : (b + 1 - a).toNat = (b - a).toNat + 1 := by
  have hlt : (b - a).toNat < 128 := h
  bv_omega

theorem toNat_pred_sub (h : b ≠ a) : (b - 1 - a).toNat + 1 = (b - a).toNat := by
  bv_omega

theorem toNat_sub_succ (h : a ≠ b) : (b - (a + 1)).toNat + 1 = (b - a).toNat := by
  bv_omega

end Distance

namespace Input

variable {s : Input} {c : Byte}

theorem Sound.w_lt (h : s.Sound) (hne : s.e ≠ s.w) : (s.w - s.r).toNat < (s.e - s.r).toNat := by
  refine lt_of_le_of_ne h.committed fun heq => hne ?_
  bv_omega

theorem mod_inputBuf_lt (n : ℕ) : n % inputBuf < inputBuf := Nat.mod_lt n (by decide)

theorem Sound.touch (h : s.Sound) (as : List Access) (has : ∀ a ∈ as, a.InBounds) :
    (s.touch as).Sound :=
  { h with accesses := fun a ha => (mem_append.1 ha).elim (h.accesses a) (has a) }

theorem Sound.touch_one (h : s.Sound) {a : Access} (ha : a.InBounds) : (s.touch [a]).Sound :=
  h.touch [a] fun _ hb => mem_singleton.1 hb ▸ ha

theorem Sound.pop (h : s.Sound) (hne : s.e ≠ s.w) : { s with e := s.e - 1 }.Sound := by
  have hlt := h.w_lt hne
  have hunread := h.unread
  have hpred : (s.e - 1 - s.r).toNat + 1 = (s.e - s.r).toNat := by
    refine toNat_pred_sub fun heq => ?_
    simp [heq] at hlt
  refine { h with committed := ?_, unread := ?_ }
  · simp only
    omega
  · simp only
    omega

theorem Sound.killLine (h : s.Sound) (n : ℕ) : (killLine n s).Sound := by
  induction n generalizing s with
  | zero => exact h
  | succ n ih =>
    rw [killLine]
    have htouch := h.touch_one (a := .buf ((s.e - 1).toNat % inputBuf)) (mod_inputBuf_lt _)
    split
    · exact h
    · rename_i hne
      split
      · exact htouch
      · exact ih (htouch.pop hne)

theorem Sound.erase (h : s.Sound) : s.erase.Sound := by
  rw [Input.erase]
  split
  · rename_i hne
    exact h.pop hne
  · exact h

theorem Sound.store (h : s.Sound) (hfull : (s.e - s.r).toNat < inputBuf) (c : Byte) :
    (s.store c).Sound := by
  have htouch := h.touch_one (a := .buf (s.e.toNat % inputBuf)) (mod_inputBuf_lt _)
  have hcommitted := h.committed
  have hsucc := toNat_succ_sub hfull
  refine { htouch with committed := ?_, unread := ?_ }
  · simp only [Input.store, Input.touch]
    omega
  · simp only [Input.store, Input.touch]
    omega

theorem mod_hisSize_lt (x : BitVec 32) : (x % BitVec.ofNat 32 hisSize).toNat < hisSize := by
  rw [BitVec.toNat_umod]
  exact Nat.mod_lt _ (by decide)

theorem Sound.remember (h : s.Sound) (hsize : (s.e - s.r - 1).toNat < inputBuf)
    (hpiece : (s.e - s.r - 1).toNat = 0 ∨ s.r.toNat + (s.e - s.r - 1).toNat ≤ inputBuf) :
    s.remember.Sound := by
  have hreads := strncpyReads_le s.text 0 (s.e - s.r - 1).toNat
  have htouch := h.touch ((List.range (strncpyReads s.text 0 (s.e - s.r - 1).toNat)).map
      (fun k => .buf (s.r.toNat + k)) ++
    (List.range (s.e - s.r - 1).toNat).map (.command s.history.index.toNat) ++
      [.commandSize s.history.index.toNat]) fun a ha => by
    rcases mem_append.1 ha with ha | ha
    · rcases mem_append.1 ha with ha | ha
      · obtain ⟨k, hk, rfl⟩ := mem_map.1 ha
        rw [mem_range] at hk
        show s.r.toNat + k < inputBuf
        omega
      · obtain ⟨k, hk, rfl⟩ := mem_map.1 ha
        exact ⟨h.index, (mem_range.1 hk).trans hsize⟩
    · rw [mem_singleton.1 ha]
      exact h.index
  refine { htouch with index := mod_hisSize_lt _, sizes := fun i => ?_ }
  simp only [Input.remember]
  by_cases hi : i = s.history.index.toNat
  · rw [hi, Function.update_self]
    exact hsize
  · rw [Function.update_of_ne hi]
    exact h.sizes i

theorem Sound.commit (h : s.Sound) : { s with w := s.e }.Sound :=
  { h with committed := le_rfl }

theorem Sound.enter (h : s.Sound) (hc : s.Contained c) : (s.enter c).1.Sound := by
  rw [Input.enter]
  split
  · rename_i hfull
    have hstore := h.store hfull.2
    have hremember : ∀ d : Byte, (c = newline ∨ c = carriageReturn) →
        (s.store d).remember.Sound := by
      intro d hd
      have hdist : (s.store d).e - (s.store d).r - 1 = s.e - s.r := by
        simp only [Input.store, Input.touch]
        bv_omega
      refine (hstore d).remember (hdist ▸ hfull.2) ?_
      rw [hdist]
      refine (hc.1 hd hfull.2).imp_left fun heq => ?_
      bv_omega
    have hd : (if c = carriageReturn then newline else c) = newline →
        c = newline ∨ c = carriageReturn := by
      split
      · rename_i heq
        exact fun _ => .inr heq
      · exact .inl
    generalize (if c = carriageReturn then newline else c) = d at hd ⊢
    have hline : (if d = newline then (s.store d).remember else s.store d).Sound := by
      split
      · rename_i heq
        exact hremember d (hd heq)
      · exact hstore d
    simp only
    generalize (if d = newline then (s.store d).remember else s.store d) = t at hline ⊢
    split
    · exact hline.commit
    · exact hline
  · exact h

/-- What the search of `tabhandler` finds. It changes nothing but the record of accesses. -/
theorem tabSearch_spec (s : Input) (wlen : ℕ) (is : List ℕ) :
    ∃ as, (s.tabSearch wlen is).1 = s.touch as ∧
      (∀ a ∈ as, ∃ k < wlen, a = .buf (s.r.toNat + k) ∨ ∃ i, a = .command (s.entry i) k) ∧
      ∀ index, (s.tabSearch wlen is).2 = some index → ∃ i, index = s.entry i := by
  induction is generalizing s with
  | nil => exact ⟨[], by simp [tabSearch, touch], by simp, by simp [tabSearch]⟩
  | cons i is ih =>
    rw [tabSearch]
    have hreads := strncmp_snd_le s.text (s.history.command (s.entry i)) 0 wlen
    set found := strncmp s.text (s.history.command (s.entry i)) 0 wlen
    set as := (List.range found.2).flatMap fun k =>
      [Access.buf (s.r.toNat + k), Access.command (s.entry i) k]
    have hmem : ∀ a ∈ as, ∃ k < wlen,
        a = .buf (s.r.toNat + k) ∨ ∃ i, a = .command (s.entry i) k := by
      intro a ha
      obtain ⟨k, hk, ha⟩ := mem_flatMap.1 ha
      rw [mem_range] at hk
      refine ⟨k, by omega, ?_⟩
      rcases mem_cons.1 ha with ha | ha
      · exact .inl ha
      · exact .inr ⟨i, mem_singleton.1 ha⟩
    split
    · exact ⟨as, rfl, hmem, fun index hindex => ⟨i, (Option.some.inj hindex).symm⟩⟩
    · obtain ⟨bs, hbs, hbound, hindex⟩ := ih (s.touch as)
      refine ⟨as ++ bs, ?_, fun a ha => ?_, hindex⟩
      · rw [hbs]
        simp [touch]
      · exact (mem_append.1 ha).elim (hmem a) (hbound a)

theorem entry_lt (s : Input) (i : ℕ) : s.entry i < hisSize := Nat.mod_lt _ (by decide)

/-- The inner loop of `tabhandler` stores in the cells after those that are not read yet. -/
theorem Sound.tabAppend (h : s.Sound) {index : ℕ} (hindex : index < hisSize) {j n : ℕ}
    (hj : (s.e - s.r).toNat = j)
    (hroom : n = 0 ∨ j + n < inputBuf ∧ s.r.toNat + (j + n) ≤ inputBuf) :
    (tabAppend index j n s).Sound := by
  induction n generalizing j s with
  | zero => exact h
  | succ n ih =>
    obtain ⟨hn, hroom⟩ := hroom.resolve_left (Nat.succ_ne_zero n)
    have he : s.e.toNat < inputBuf := by
      have hle : s.r.toNat + (j + (n + 1)) ≤ 128 := hroom
      bv_omega
    have htouch := h.touch [.command index j, .buf s.e.toNat, .commandSize index]
      fun a ha => by
        simp only [mem_cons, not_mem_nil, or_false] at ha
        rcases ha with rfl | rfl | rfl
        · exact ⟨hindex, by omega⟩
        · exact he
        · exact hindex
    have hcommitted := h.committed
    have hsucc : (s.e + 1 - s.r).toNat = (s.e - s.r).toNat + 1 :=
      toNat_succ_sub (by omega)
    apply ih
    · refine { htouch with committed := ?_, unread := ?_, overrun := ?_ }
      · simp only [Input.touch]
        omega
      · simp only [Input.touch]
        omega
      · simp only [h.overrun, Bool.false_or, decide_eq_false_iff_not, Nat.not_le]
        exact he
    · simp only [Input.touch]
      omega
    · simp only [Input.touch]
      omega

theorem Sound.tabhandler (h : s.Sound) (hc : s.Contained tab) : s.tabhandler.Sound := by
  obtain ⟨hpiece, hroom⟩ := hc.2 rfl
  rw [Input.tabhandler]
  obtain ⟨as, hfst, hbound, hindex⟩ :=
    tabSearch_spec s (s.e - s.r).toNat (List.range hisSize)
  have hunread := h.unread
  have hsearch : (s.touch as).Sound := by
    refine h.touch as fun a ha => ?_
    obtain ⟨k, hk, rfl | ⟨i, rfl⟩⟩ := hbound a ha
    · rcases hpiece with heq | hle
      · simp [heq] at hk
      · show s.r.toNat + k < inputBuf
        omega
    · exact ⟨entry_lt s i, by omega⟩
  split
  · rename_i t heq
    rw [heq] at hfst
    obtain rfl : t = s.touch as := hfst
    exact hsearch
  · rename_i t index heq
    rw [heq] at hfst
    obtain ⟨i, hi⟩ := hindex index (by rw [heq])
    have hlt : index < hisSize := hi ▸ entry_lt s i
    obtain rfl : t = s.touch as := hfst
    have hsizes := h.sizes index
    refine (hsearch.touch_one (a := .commandSize index) hlt).tabAppend hlt rfl ?_
    simp only [Input.touch]
    by_cases hlong : (s.e - s.r).toNat < (s.history.commandSize index).toNat
    · have hend := hroom index (by rw [heq]; rfl) hlong
      exact .inr (by omega)
    · exact .inl (by omega)

theorem Sound.key (h : s.Sound) (hc : s.Contained c) : (s.key c).1.Sound := by
  rw [Input.key]
  split
  · exact h
  · split
    · exact h.killLine _
    · split
      · exact h.erase
      · split
        · rename_i htab
          exact h.tabhandler (htab ▸ hc)
        · exact h.enter hc

theorem Sound.take (h : s.Sound) (hne : s.r ≠ s.w) :
    { s.touch [.buf (s.r.toNat % inputBuf)] with r := s.r + 1 }.Sound := by
  have htouch := h.touch_one (a := .buf (s.r.toNat % inputBuf)) (mod_inputBuf_lt _)
  have hcommitted := h.committed
  have hunread := h.unread
  have hw := toNat_sub_succ hne
  have he : (s.e - (s.r + 1)).toNat + 1 = (s.e - s.r).toNat := by
    refine toNat_sub_succ fun heq => ?_
    bv_omega
  refine { htouch with committed := ?_, unread := ?_ }
  · simp only [Input.touch]
    omega
  · simp only [Input.touch]
    omega

theorem Sound.consoleread (h : s.Sound) (killed : Bool) (n : ℕ) (got : List Byte) :
    (s.consoleread killed n got).1.Sound := by
  induction n generalizing s got with
  | zero => exact h
  | succ n ih =>
    rw [Input.consoleread]
    split
    · exact h
    · rename_i hne
      have htake := h.take hne
      simp only
      split
      · split
        · -- the end of file is put back
          have hback : s.r + 1 - 1 = s.r := BitVec.add_sub_cancel s.r 1
          refine { htake with committed := ?_, unread := ?_ }
          · simp only [Input.touch, hback]
            exact h.committed
          · simp only [Input.touch, hback]
            exact h.unread
        · exact htake
      · split
        · exact htake
        · exact ih htake (got ++ [_])

end Input

theorem sound_boot (P : Type*) (buf : ℕ → Byte) : (boot P buf).input.Sound where
  committed := le_rfl
  unread := by simp [boot]
  index := Nat.zero_lt_succ 9
  sizes _ := Nat.zero_lt_succ 127
  accesses a ha := by cases ha
  overrun := rfl

variable {P : Type*} [DecidableEq P] {s t : State P}

/-- A newline and a tab find the characters not read yet in one piece, and room for what a
tab appends. -/
def Contained (s : State P) : Event P → Prop
  | .key c => s.input.Contained c
  | .read _ _ | .resume _ | .kill _ | .elsewhere _ => True

instance decidableContained (s : State P) : (e : Event P) → Decidable (Contained s e)
  | .key c => s.input.decidableContained c
  | .read _ _ | .resume _ | .kill _ | .elsewhere _ => .isTrue trivial

theorem step_sound (e : Event P) (h : s.input.Sound) (he : Contained s e)
    (hstep : step s e = some t) : t.input.Sound := by
  cases e with
  | key c =>
    simp only [step, h.overrun, Bool.false_eq_true, if_false] at hstep
    cases hstep
    exact h.key he
  | read | resume =>
    simp only [step, h.overrun, Bool.false_eq_true, if_false] at hstep
    split at hstep
    · cases hstep
      exact h.consoleread _ _ _
    · cases hstep
  | kill p =>
    simp only [step, h.overrun, Bool.false_eq_true, if_false] at hstep
    cases hstep
    exact h
  | elsewhere f =>
    simp only [step, h.overrun, Bool.false_eq_true, if_false] at hstep
    cases hstep
    exact { h with overrun := rfl }

/-- In every run in which each newline and each tab finds the characters not read yet in one
piece from `input.r` on, with room for what a tab appends, the indices are in order and all
accesses are inside of the arrays. -/
theorem console_indices {buf : ℕ → Byte} {es : List (Event P)}
    (hes : Machine.Meets step Contained (boot P buf) es)
    (hrun : Machine.run step (boot P buf) es = some s) :
    (s.input.w - s.input.r).toNat ≤ (s.input.e - s.input.r).toNat ∧
      (s.input.e - s.input.r).toNat ≤ inputBuf ∧ ∀ a ∈ s.input.accesses, a.InBounds := by
  have h : s.input.Sound :=
    hes.invariant (I := fun s => s.input.Sound) (sound_boot P buf)
      (fun _ e _ h he hstep => step_sound e h he hstep) hrun
  exact ⟨h.committed, h.unread, h.accesses⟩

def catTwice : List (Event (Fin 1)) :=
  [.key 0x63, .key 0x61, .key 0x74, .key newline, .read 0 80, .key 0x63, .key tab]

theorem console_indices_catTwice :
    ∃ s, Machine.run step (boot (Fin 1) fun _ => 0) catTwice = some s ∧
      (s.input.e - s.input.r).toNat = 3 ∧
      (s.input.w - s.input.r).toNat ≤ (s.input.e - s.input.r).toNat ∧
      ∀ a ∈ s.input.accesses, a.InBounds := by
  obtain ⟨s, hs, hd⟩ : ∃ s, Machine.run step (boot (Fin 1) fun _ => 0) catTwice = some s ∧
      (s.input.e - s.input.r).toNat = 3 := by decide +kernel
  have hmeets : Machine.Meets step Contained (boot (Fin 1) fun _ => 0) catTwice := by
    decide +kernel
  obtain ⟨hw, -, has⟩ := console_indices hmeets hs
  exact ⟨s, hs, hd, hw, has⟩

/-- After a line of 100 characters has been read, the newline of a line of 28 characters
reads past the end of `input.buf`. After a line of 64 characters has been read, one of its
characters and a tab store past the end of `input.buf`. -/
theorem console_leaves_buf :
    (∃ s, Machine.run step (boot (Fin 1) fun _ => 0)
        (List.replicate 100 (.key 0x61) ++ [.key newline, .read 0 101] ++
          List.replicate 28 (.key 0x62) ++ [.key newline]) = some s ∧
      ¬ ∀ a ∈ s.input.accesses, a.InBounds) ∧
    ∃ s, Machine.run step (boot (Fin 1) fun _ => 0)
        (List.replicate 64 (.key 0x61) ++ [.key newline, .read 0 65, .key 0x61, .key tab]) =
          some s ∧
      s.input.overrun = true ∧ ¬ ∀ a ∈ s.input.accesses, a.InBounds := by
  exact ⟨by decide +kernel, by decide +kernel⟩

end Xv6.Console

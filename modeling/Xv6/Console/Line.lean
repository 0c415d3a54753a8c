import Xv6.Console.Indices
import Xv6.Library.RingBuffer

/-!
# The line discipline of the console

What the console is for, in terms of two lists: the characters that are committed, which
`consoleread` delivers, and those that are pending, which can still be edited. A character
is appended to the pending ones unless the two lists together are full, and a newline, an
end of file or a full buffer commits them. A read takes the committed characters up to and
including the first newline, up to the first end of file, or as many as it wants.

The console does the same with its ring and its three indices, as long as no tab is typed.
Whatever the history takes from outside of `input.buf` does not come back.
-/

namespace Xv6.Console

open Function List Nat

variable {buf : ℕ → Byte}

instance neZeroInputBuf : NeZero inputBuf := ⟨by decide⟩

/-- The characters that were read, those that are committed, and those that are pending. -/
structure Lines where
  taken : List Byte
  committed : List Byte
  pending : List Byte

def plain (cs : List Byte) : List Byte := cs.takeWhile fun c => c ≠ newline ∧ c ≠ ctrl 'D'

/-- What a read of `n` more characters delivers after `got`, and the committed characters
that it takes. An end of file is taken only by a read that has got nothing. -/
def deliver (n : ℕ) (got committed : List Byte) : Outcome × List Byte :=
  let line := plain committed
  if n ≤ line.length then
    (.returns (got ++ line.take n).length (got ++ line.take n), line.take n)
  else
    match committed.drop line.length with
    | [] => (.sleeps (n - line.length) (got ++ line), line)
    | c :: _ =>
      if c = newline then
        (.returns (got ++ line ++ [c]).length (got ++ line ++ [c]), line ++ [c])
      else
        (.returns (got ++ line).length (got ++ line), if got ++ line = [] then [c] else line)

namespace Lines

def commit (l : Lines) : Lines :=
  { l with committed := l.committed ++ l.pending, pending := [] }

/-- An ordinary character. The flag tells whether the pending ones are committed. -/
def enter (l : Lines) (c : Byte) : Lines × Bool :=
  if c ≠ 0 ∧ (l.committed ++ l.pending).length < inputBuf then
    let c := if c = carriageReturn then newline else c
    let l := { l with pending := l.pending ++ [c] }
    if c = newline ∨ c = ctrl 'D' ∨ (l.committed ++ l.pending).length = inputBuf then
      (l.commit, true)
    else
      (l, false)
  else
    (l, false)

def key (l : Lines) (c : Byte) : Lines × Bool :=
  if c = ctrl 'P' then
    (l, false)
  else if c = ctrl 'U' ∨ c = ctrl 'R' then
    ({ l with pending := [] }, false)
  else if c = ctrl 'H' ∨ c = delete then
    ({ l with pending := l.pending.dropLast }, false)
  else
    l.enter c

def read (l : Lines) (n : ℕ) (got : List Byte) : Lines × Outcome :=
  let d := deliver n got l.committed
  ({ l with
      taken := l.taken ++ d.2
      committed := l.committed.drop d.2.length }, d.1)

end Lines

structure Discipline (P : Type*) where
  lines : Lines
  reader : P → Reader

namespace Discipline

def boot (P : Type*) : Discipline P where
  lines := ⟨[], [], []⟩
  reader _ := .out none

variable {P : Type*} [DecidableEq P]

def read (a : Discipline P) (p : P) (n : ℕ) (got : List Byte) : Discipline P :=
  { lines := (a.lines.read n got).1
    reader := update a.reader p (a.lines.read n got).2.reader }

def step (a : Discipline P) : Event P → Option (Discipline P)
  | .key c =>
    some { lines := (a.lines.key c).1
           reader := fun q => if (a.lines.key c).2 then (a.reader q).wake else a.reader q }
  | .read p n =>
    match a.reader p with
    | .out _ => some (a.read p n.toNat [])
    | .waiting _ _ _ => none
  | .resume p =>
    match a.reader p with
    | .waiting false n got => some (a.read p n got)
    | _ => none
  | .kill _ => none
  | .elsewhere _ => some a

end Discipline

open Discipline

section Deliver

variable {n : ℕ} {c : Byte} {got cs : List Byte}

theorem plain_cons (cs : List Byte) (hline : c ≠ newline) (heof : c ≠ ctrl 'D') :
    plain (c :: cs) = c :: plain cs :=
  takeWhile_cons_of_pos (decide_eq_true ⟨hline, heof⟩)

theorem plain_stop (hstop : c = newline ∨ c = ctrl 'D') : plain (c :: cs) = [] := by
  refine takeWhile_cons_of_neg ?_
  rw [decide_eq_true_iff]
  exact fun hplain => hstop.elim hplain.1 hplain.2

theorem deliver_zero : deliver 0 got cs = (.returns got.length got, []) := by
  simp [deliver]

theorem deliver_nil : deliver (n + 1) got [] = (.sleeps (n + 1) got, []) := by
  simp [deliver, plain]

theorem deliver_eof :
    deliver (n + 1) got (ctrl 'D' :: cs) =
      (.returns got.length got, if got = [] then [ctrl 'D'] else []) := by
  have hne : ctrl 'D' ≠ newline := by decide
  simp [deliver, plain_stop (.inr rfl), hne]

theorem deliver_newline :
    deliver (n + 1) got (newline :: cs) =
      (.returns (got ++ [newline]).length (got ++ [newline]), [newline]) := by
  simp [deliver, plain_stop (.inl rfl)]

theorem deliver_cons (hline : c ≠ newline) (heof : c ≠ ctrl 'D') :
    deliver (n + 1) got (c :: cs) =
      ((deliver n (got ++ [c]) cs).1, c :: (deliver n (got ++ [c]) cs).2) := by
  have hcons := plain_cons cs hline heof
  have hgot : got ++ c :: plain cs = got ++ [c] ++ plain cs := by simp
  by_cases hn : n ≤ (plain cs).length
  · have hn' : n + 1 ≤ (plain (c :: cs)).length := by
      rw [hcons, length_cons]
      exact succ_le_succ hn
    rw [deliver, deliver, if_pos hn, if_pos hn', hcons, take_succ_cons]
    simp
  · have hn' : ¬ n + 1 ≤ (plain (c :: cs)).length := by
      rw [hcons, length_cons]
      omega
    rw [deliver, deliver, if_neg hn, if_neg hn', hcons, length_cons, drop_succ_cons, hgot]
    split
    · simp
    · split
      · simp
      · simp

theorem deliver_beginning (n : ℕ) (got cs : List Byte) : (deliver n got cs).2 <+: cs := by
  induction n generalizing got cs with
  | zero =>
    exact nil_prefix
  | succ n ih =>
    cases cs with
    | nil => rw [deliver_nil]
    | cons c cs =>
      by_cases heof : c = ctrl 'D'
      · subst heof
        rw [deliver_eof]
        split
        · exact ⟨cs, rfl⟩
        · exact nil_prefix
      · by_cases hline : c = newline
        · subst hline
          exact ⟨cs, rfl⟩
        · rw [deliver_cons hline heof]
          exact cons_prefix_cons.2 ⟨rfl, ih (got ++ [c]) cs⟩

end Deliver

def Input.ring (s : Input) : RingBuffer 32 inputBuf Byte := ⟨s.r, s.e, fun i => s.buf i⟩

/-- The ring and the indices represent the lists. -/
structure Represents (s : Input) (l : Lines) : Prop where
  ring : s.ring.Represents (l.taken ++ (l.committed ++ l.pending)) l.taken
  w : s.w = BitVec.ofNat 32 (l.taken ++ l.committed).length
  oneLine : newline ∉ l.pending
  overrun : s.overrun = false

theorem inputBuf_lt : inputBuf < 2 ^ 32 := by decide

theorem inputBuf_dvd : inputBuf ∣ 2 ^ 32 := by decide

namespace Represents

variable {s t : Input} {l : Lines} {c : Byte}

section

variable (h : Represents s l)
include h

theorem congr (hring : t.ring = s.ring) (hw : t.w = s.w) (hoverrun : t.overrun = s.overrun) :
    Represents t l where
  ring := hring ▸ h.ring
  w := hw ▸ h.w
  oneLine := h.oneLine
  overrun := hoverrun ▸ h.overrun

theorem toNat_sub : (s.e - s.r).toNat = (l.committed ++ l.pending).length := by
  have hsub := h.ring.toNat_sub inputBuf_lt
  rw [length_append, Nat.add_sub_cancel_left] at hsub
  exact hsub

theorem length_le : (l.committed ++ l.pending).length ≤ inputBuf := by
  have hbound := h.ring.bound
  rw [length_append] at hbound
  exact Nat.le_of_add_le_add_left hbound

theorem e_eq : s.e = s.w + BitVec.ofNat 32 l.pending.length := by
  have he : s.e = _ := h.ring.nwrite
  rw [he, h.w, ← BitVec.ofNat_add, ← length_append, append_assoc]

theorem w_eq : s.w = s.r + BitVec.ofNat 32 l.committed.length := by
  have hr : s.r = _ := h.ring.nread
  rw [hr, h.w, ← BitVec.ofNat_add, length_append]

end

theorem lt_of_le_inputBuf {n : ℕ} (h : n ≤ inputBuf) : n < 2 ^ 32 :=
  lt_of_le_of_lt h inputBuf_lt

variable (h : Represents s l)
include h

theorem pending_le : l.pending.length ≤ inputBuf := by
  have hle := h.length_le
  rw [length_append] at hle
  exact le_trans (le_add_left _ _) hle

theorem committed_le : l.committed.length ≤ inputBuf := by
  have hle := h.length_le
  rw [length_append] at hle
  exact le_trans (le_add_right _ _) hle

theorem e_sub_w : (s.e - s.w).toNat = l.pending.length := by
  rw [h.e_eq, BitVec.add_comm, BitVec.add_sub_cancel, BitVec.toNat_ofNat,
    mod_eq_of_lt (lt_of_le_inputBuf h.pending_le)]

theorem w_sub_r : (s.w - s.r).toNat = l.committed.length := by
  rw [h.w_eq, BitVec.add_comm, BitVec.add_sub_cancel, BitVec.toNat_ofNat,
    mod_eq_of_lt (lt_of_le_inputBuf h.committed_le)]

theorem e_eq_w_iff : s.e = s.w ↔ l.pending = [] := by
  rw [← length_eq_zero_iff, ← h.e_sub_w]
  constructor
  · intro heq
    rw [heq, BitVec.sub_self]
    rfl
  · bv_omega

theorem r_eq_w_iff : s.r = s.w ↔ l.committed = [] := by
  rw [← length_eq_zero_iff, ← h.w_sub_r]
  constructor
  · intro heq
    rw [heq, BitVec.sub_self]
    rfl
  · bv_omega

theorem pop {ps : List Byte} (hps : l.pending = ps ++ [c]) :
    s.buf ((s.e - 1).toNat % inputBuf) = c ∧
      Represents { s with e := s.e - 1 } { l with pending := ps } := by
  obtain ⟨taken, committed, pending⟩ := l
  subst hps
  have hassoc : taken ++ (committed ++ (ps ++ [c])) = taken ++ (committed ++ ps) ++ [c] := by
    simp
  have hring := h.ring
  simp only [hassoc] at hring
  refine ⟨?_, hring.pop (by simp), h.w, ?_, h.overrun⟩
  · have he : s.e - 1 = BitVec.ofNat 32 (taken ++ (committed ++ ps)).length := by
      have hlast : s.e = BitVec.ofNat 32 ((taken ++ (committed ++ ps)).length + 1) := by
        have hnwrite := hring.nwrite
        rwa [length_append, length_singleton] at hnwrite
      rw [hlast, BitVec.ofNat_add]
      exact BitVec.add_sub_cancel _ _
    have hcell := hring.inside (taken ++ (committed ++ ps)).length c (by simp) (by simp)
    rw [← RingBuffer.cell_ofNat inputBuf_dvd, ← he] at hcell
    exact hcell
  · exact fun hmem => h.oneLine (mem_append_left [c] hmem)

theorem killLine {n : ℕ} (hn : l.pending.length = n) :
    Represents (Input.killLine n s) { l with pending := [] } := by
  induction n generalizing s l with
  | zero =>
    rw [length_eq_zero_iff] at hn
    rw [← hn]
    exact h
  | succ n ih =>
    obtain hnil | ⟨ps, c, hps⟩ := eq_nil_or_concat' l.pending
    · simp [hnil] at hn
    · obtain ⟨hbuf, hpop⟩ := h.pop hps
      have hline : c ≠ newline := by
        rintro rfl
        exact h.oneLine (hps ▸ mem_append_right ps (mem_singleton_self newline))
      have hne : s.e ≠ s.w := by
        rw [Ne, h.e_eq_w_iff, hps]
        exact append_ne_nil_of_right_ne_nil ps (cons_ne_nil c [])
      rw [hps, length_append, length_singleton] at hn
      rw [Input.killLine]
      simp only [if_neg hne, hbuf, if_neg hline]
      exact ih (l := { l with pending := ps })
        (hpop.congr (t := { s.touch [.buf ((s.e - 1).toNat % inputBuf)] with e := s.e - 1 })
          rfl rfl rfl) (Nat.succ.inj hn)

theorem erase : Represents s.erase { l with pending := l.pending.dropLast } := by
  obtain hnil | ⟨ps, c, hps⟩ := eq_nil_or_concat' l.pending
  · rw [Input.erase, if_neg (not_not.2 (h.e_eq_w_iff.2 hnil)), hnil, dropLast_nil, ← hnil]
    exact h
  · have hne : s.e ≠ s.w := by
      rw [Ne, h.e_eq_w_iff, hps]
      exact append_ne_nil_of_right_ne_nil ps (cons_ne_nil c [])
    rw [Input.erase, if_pos hne, hps, dropLast_concat]
    exact (h.pop hps).2

end Represents

theorem ring_store (s : Input) (c : Byte) : (s.store c).ring = s.ring.put c := by
  simp only [Input.ring, Input.store, RingBuffer.put]
  congr 1
  funext i
  by_cases hi : i = Fin.ofNat inputBuf s.e.toNat
  · subst hi
    rw [update_self]
    exact update_self _ _ _
  · rw [update_of_ne hi, update_of_ne]
    intro heq
    exact hi (Fin.ext heq)

namespace Represents

variable {s t : Input} {l : Lines} {c : Byte}

theorem ring_put (h : Represents s l) (hlt : (s.e - s.r).toNat < inputBuf) (c : Byte) :
    (s.store c).ring.Represents (l.taken ++ (l.committed ++ (l.pending ++ [c]))) l.taken := by
  have hfull : ¬ s.ring.Full := by
    rw [h.ring.full_iff inputBuf_lt, length_append, Nat.add_left_cancel_iff, ← h.toNat_sub]
    exact Nat.ne_of_lt hlt
  have hput := h.ring.put inputBuf_lt inputBuf_dvd hfull c
  rw [ring_store]
  rwa [append_assoc, append_assoc] at hput

theorem commit {p : List Byte} (hring : s.ring.Represents (l.taken ++ (l.committed ++ p)) l.taken)
    (hoverrun : s.overrun = false) :
    Represents { s with w := s.e } { l with committed := l.committed ++ p, pending := [] } where
  ring := by
    simp only [append_nil]
    exact hring
  w := by
    have he : s.e = _ := hring.nwrite
    simp only [he]
  oneLine := not_mem_nil
  overrun := hoverrun

theorem e_eq_iff (hring : s.ring.Represents (l.taken ++ (l.committed ++ l.pending)) l.taken) :
    s.e = s.r + BitVec.ofNat 32 inputBuf ↔ (l.committed ++ l.pending).length = inputBuf := by
  have hfull := hring.full_iff inputBuf_lt
  rw [length_append, add_left_cancel_iff] at hfull
  exact hfull

variable (h : Represents s l)
include h

theorem enter (c : Byte) :
    Represents (s.enter c).1 (l.enter c).1 ∧ (s.enter c).2 = (l.enter c).2 := by
  rw [Input.enter, Lines.enter, h.toNat_sub]
  split
  · rename_i hlt
    rw [← h.toNat_sub] at hlt
    generalize (if c = carriageReturn then newline else c) = d
    have hput := h.ring_put hlt.2 d
    -- entering the line into the history does not change the ring
    have hline : (if d = newline then (s.store d).remember else s.store d).ring =
        (s.store d).ring := by
      split
      · rfl
      · rfl
    have hw : (if d = newline then (s.store d).remember else s.store d).w = s.w := by
      split
      · rfl
      · rfl
    have hoverrun : (if d = newline then (s.store d).remember else s.store d).overrun = false := by
      split
      · exact h.overrun
      · exact h.overrun
    rw [← hline] at hput
    have hiff := e_eq_iff (l := { l with pending := l.pending ++ [d] }) hput
    simp only [hiff]
    split
    · exact ⟨commit hput hoverrun, rfl⟩
    · rename_i hplain
      refine ⟨⟨hput, hw ▸ h.w, ?_, hoverrun⟩, rfl⟩
      intro hmem
      rcases mem_append.1 hmem with hmem | hmem
      · exact h.oneLine hmem
      · exact hplain (.inl (mem_singleton.1 hmem).symm)
  · exact ⟨h, rfl⟩

theorem key (htab : c ≠ tab) : Represents (s.key c).1 (l.key c).1 ∧ (s.key c).2 = (l.key c).2 := by
  rw [Input.key, Lines.key]
  split
  · exact ⟨h, rfl⟩
  · split
    · refine ⟨?_, rfl⟩
      rw [h.e_sub_w]
      exact h.killLine rfl
    · split
      · exact ⟨h.erase, rfl⟩
      · exact h.enter c

theorem take {cs : List Byte} (hcs : l.committed = c :: cs) :
    s.buf (s.r.toNat % inputBuf) = c ∧ Represents { s with r := s.r + 1 }
        { l with taken := l.taken ++ [c], committed := cs } := by
  obtain ⟨taken, committed, pending⟩ := l
  subst hcs
  have hring := h.ring
  have hfront : s.ring.front = c := hring.front_eq inputBuf_dvd
  have hempty : ¬ s.ring.Empty := by
    rw [hring.empty_iff inputBuf_lt]
    simp
  have hdrop := hring.drop inputBuf_lt inputBuf_dvd hempty
  rw [hfront] at hdrop
  refine ⟨hfront, ?_, ?_, h.oneLine, h.overrun⟩
  · simp only [append_assoc, singleton_append]
    exact hdrop
  · simp only [append_assoc, singleton_append]
    exact h.w

theorem consoleread (n : ℕ) (got : List Byte) :
    Represents (s.consoleread false n got).1 (l.read n got).1 ∧
      (s.consoleread false n got).2 = (l.read n got).2 := by
  induction n generalizing s l got with
  | zero =>
    simp only [Input.consoleread, Lines.read, deliver_zero, append_nil, length_nil, drop_zero]
    exact ⟨h, trivial⟩
  | succ n ih =>
    rw [Input.consoleread]
    cases hcs : l.committed with
    | nil =>
      rw [if_pos (h.r_eq_w_iff.2 hcs)]
      simp only [Lines.read, hcs, deliver_nil, append_nil, length_nil, drop_zero]
      rw [← hcs]
      exact ⟨h, rfl⟩
    | cons c cs =>
      obtain ⟨hbuf, htake⟩ := h.take hcs
      have hne : s.r ≠ s.w := by
        rw [Ne, h.r_eq_w_iff, hcs]
        exact cons_ne_nil c cs
      rw [if_neg hne]
      simp only [hbuf]
      by_cases heof : c = ctrl 'D'
      · subst heof
        simp only [Lines.read, hcs, deliver_eof]
        by_cases hgot : got = []
        · simp only [hgot, ne_eq, not_true_eq_false, if_false, if_true]
          exact ⟨htake.congr rfl rfl rfl, trivial⟩
        · simp only [hgot, ne_eq, not_false_eq_true, if_true, if_false, append_nil,
            length_nil, drop_zero]
          refine ⟨?_, trivial⟩
          rw [← hcs]
          refine h.congr ?_ rfl rfl
          simp only [Input.ring, Input.touch, BitVec.add_sub_cancel]
      · rw [if_neg heof]
        by_cases hline : c = newline
        · subst hline
          rw [if_pos rfl]
          simp only [Lines.read, hcs, deliver_newline, length_append, length_singleton]
          exact ⟨htake.congr rfl rfl rfl, trivial⟩
        · rw [if_neg hline]
          have hrest := ih (htake.congr (t := { s.touch [.buf (s.r.toNat % inputBuf)] with
            r := s.r + 1 }) rfl rfl rfl) (got ++ [c])
          simp only [Lines.read, append_assoc, singleton_append] at hrest
          simp only [Lines.read, hcs, deliver_cons hline heof, length_cons, drop_succ_cons]
          exact hrest

theorem buf_eq {k : ℕ} (hk : (l.committed ++ l.pending)[k]? = some c) :
    s.buf ((s.r.toNat + k) % inputBuf) = c := by
  have hcell : s.buf ((l.taken.length + k) % inputBuf) = c := by
    refine h.ring.inside (l.taken.length + k) c (Nat.le_add_right _ _) ?_
    rwa [List.getElem?_append_right (Nat.le_add_right _ _), Nat.add_sub_cancel_left]
  have hr : s.r = BitVec.ofNat 32 l.taken.length := h.ring.nread
  rw [hr, BitVec.toNat_ofNat, Nat.add_mod, Nat.mod_mod_of_dvd _ inputBuf_dvd, ← Nat.add_mod]
  exact hcell

end Represents

def Lines.entered (l : Lines) : List Byte := l.taken ++ l.committed

namespace Lines

theorem key_entered (l : Lines) (c : Byte) : l.entered <+: (l.key c).1.entered := by
  rw [key]
  split
  · exact prefix_rfl
  · split
    · exact prefix_rfl
    · split
      · exact prefix_rfl
      · rw [enter]
        split
        · generalize (if c = carriageReturn then newline else c) = d
          simp only
          split
          · simp only [entered, commit]
            rw [← append_assoc]
            exact prefix_append _ _
          · exact prefix_rfl
        · exact prefix_rfl

theorem read_entered (l : Lines) (n : ℕ) (got : List Byte) :
    (l.read n got).1.entered = l.entered := by
  have hmoved := prefix_iff_eq_append.1 (deliver_beginning n got l.committed)
  rw [entered, entered, read, append_assoc, hmoved]

end Lines

variable {P : Type*} [DecidableEq P]

theorem Discipline.step_entered {a b : Discipline P} (e : Event P)
    (hstep : Discipline.step a e = some b) : a.lines.entered <+: b.lines.entered := by
  cases e with
  | key c =>
    cases hstep
    exact a.lines.key_entered c
  | read | resume =>
    simp only [step] at hstep
    split at hstep
    · cases hstep
      exact (a.lines.read_entered _ _).symm ▸ prefix_rfl
    · cases hstep
  | kill p => cases hstep
  | elsewhere f =>
    cases hstep
    exact prefix_rfl

theorem Discipline.run_entered {a b : Discipline P} {es : List (Event P)}
    (hrun : Machine.run Discipline.step a es = some b) : a.lines.entered <+: b.lines.entered :=
  Machine.run_invariant (I := fun b => a.lines.entered <+: b.lines.entered) prefix_rfl
    (fun _ e _ h hstep => h.trans (step_entered e hstep)) hrun

structure Simulates (s : State P) (a : Discipline P) : Prop where
  lines : Represents s.input a.lines
  reader : a.reader = s.reader
  alive : ∀ p, s.killed p = false

/-- A character is not a tab, and nobody is killed. -/
def Plain : Event P → Prop
  | .key c => c ≠ tab
  | .kill _ => False
  | .read _ _ | .resume _ | .elsewhere _ => True

variable {s t : State P} {a : Discipline P}

theorem Simulates.read (h : Simulates s a) (p : P) (n : ℕ) (got : List Byte) :
    Simulates (s.consoleread p n got) (a.read p n got) := by
  obtain ⟨hlines, hout⟩ := h.lines.consoleread n got
  simp only [State.consoleread, Discipline.read, h.alive p]
  exact ⟨hlines, by rw [h.reader, hout], h.alive⟩

theorem Simulates.step (h : Simulates s a) {e : Event P} (he : Plain e)
    (hstep : Console.step s e = some t) : ∃ b, Discipline.step a e = some b ∧ Simulates t b := by
  cases e with
  | key c =>
    simp only [Console.step, h.lines.overrun, Bool.false_eq_true, if_false] at hstep
    cases hstep
    obtain ⟨hlines, hwoken⟩ := h.lines.key he
    refine ⟨_, rfl, hlines, ?_, h.alive⟩
    simp only [h.reader, hwoken]
  | read p n =>
    simp only [Console.step, h.lines.overrun, Bool.false_eq_true, if_false] at hstep
    split at hstep
    · rename_i last hp
      cases hstep
      refine ⟨_, ?_, h.read p n.toNat []⟩
      simp only [Discipline.step, h.reader, hp]
    · cases hstep
  | resume p =>
    simp only [Console.step, h.lines.overrun, Bool.false_eq_true, if_false] at hstep
    split at hstep
    · rename_i n got hp
      cases hstep
      refine ⟨_, ?_, h.read p n got⟩
      simp only [Discipline.step, h.reader, hp]
    · cases hstep
  | kill p => exact he.elim
  | elsewhere f =>
    simp only [Console.step, h.lines.overrun, Bool.false_eq_true, if_false] at hstep
    cases hstep
    refine ⟨a, rfl, h.lines.congr ?_ rfl h.lines.overrun.symm, h.reader, h.alive⟩
    simp only [Input.ring]
    congr 1
    funext i
    exact if_pos i.isLt

omit [DecidableEq P] in
theorem simulates_boot (buf : ℕ → Byte) : Simulates (boot P buf) (Discipline.boot P) where
  lines := ⟨RingBuffer.represents_nil _, rfl, not_mem_nil, rfl⟩
  reader := rfl
  alive _ := rfl

theorem run_simulates {es : List (Event P)} (hes : ∀ e ∈ es, Plain e)
    (hrun : Machine.run Console.step (boot P buf) es = some s) :
    ∃ a, Machine.run Discipline.step (Discipline.boot P) es = some a ∧ Simulates s a := by
  refine Machine.run_history (I := fun es s => (∀ e ∈ es, Plain e) →
    ∃ a, Machine.run Discipline.step (Discipline.boot P) es = some a ∧ Simulates s a)
    ?_ ?_ hrun hes
  · intro _
    exact ⟨_, rfl, simulates_boot buf⟩
  · intro es t e u _ ih hstep hall
    obtain ⟨a, ha, hsim⟩ := ih fun e he => hall e (mem_append_left _ he)
    obtain ⟨b, hb, hsim'⟩ :=
      hsim.step (hall e (mem_append_right es (mem_singleton_self e))) hstep
    exact ⟨b, Machine.run_concat.2 ⟨a, ha, hb⟩, hsim'⟩

/-- Without tabs and without killed processes, the console does to its ring and to the
processes that read what the same events do to the two lists. What was committed at some
point of a run is a beginning of what is committed later. -/
theorem console_line_discipline {es : List (Event P)}
    (hes : ∀ e ∈ es, Plain e) (hrun : Machine.run Console.step (boot P buf) es = some s) :
    ∃ a, Machine.run Discipline.step (Discipline.boot P) es = some a ∧ a.reader = s.reader ∧
      (s.input.e - s.input.r).toNat = (a.lines.committed ++ a.lines.pending).length ∧
      (s.input.w - s.input.r).toNat = a.lines.committed.length ∧
      (∀ k c, (a.lines.committed ++ a.lines.pending)[k]? = some c →
        s.input.buf ((s.input.r.toNat + k) % inputBuf) = c) ∧
      ∀ fs gs b, fs ++ gs = es → Machine.run Discipline.step (Discipline.boot P) fs = some b →
        b.lines.taken ++ b.lines.committed <+: a.lines.taken ++ a.lines.committed := by
  obtain ⟨a, ha, h⟩ := run_simulates hes hrun
  refine ⟨a, ha, h.reader, h.lines.toNat_sub, h.lines.w_sub_r, fun k c => h.lines.buf_eq, ?_⟩
  rintro fs gs b rfl hb
  obtain ⟨b', hb', hrest⟩ := Machine.run_append_eq_some.1 ha
  cases hb.symm.trans hb'
  exact run_entered hrest

/-- The word `cap` is typed, its last character is corrected, and an end of file is typed
after it. The first read gets the word, and the second one the end of file. -/
def capEof : List (Event (Fin 1)) :=
  [.key 0x63, .key 0x61, .key 0x70, .key (ctrl 'H'), .key 0x74, .key (ctrl 'D'), .read 0 80,
    .read 0 80]

theorem console_line_discipline_capEof :
    ∃ s a, Machine.run Console.step (boot (Fin 1) fun _ => 0) capEof = some s ∧
      s.reader 0 = .out (some (0, [])) ∧
      Machine.run Discipline.step (Discipline.boot (Fin 1)) capEof = some a ∧
      a.reader = s.reader := by
  obtain ⟨s, hs, hout⟩ : ∃ s, Machine.run Console.step (boot (Fin 1) fun _ => 0) capEof = some s ∧
      s.reader 0 = .out (some (0, [])) := by decide +kernel
  have hes : ∀ e ∈ capEof, Plain e := by
    have hh : ctrl 'H' ≠ tab := by decide
    have hd : ctrl 'D' ≠ tab := by decide
    simpa [capEof, Plain] using ⟨hh, hd⟩
  obtain ⟨a, ha, hreader, -⟩ := console_line_discipline hes hs
  exact ⟨s, a, hs, hout, ha, hreader⟩

end Xv6.Console

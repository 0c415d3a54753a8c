import Xv6.Library.Machine

/-!
# Console input

`consoleintr`, `tabhandler` and `consoleread` of `console.c`, with any number of processes
that read. An iteration of the loop of `consoleintr`, which handles one character, is one
event, and so is what `consoleread` does from the moment it takes `cons.lock` until it
returns or sleeps. What is echoed on the screen is left out.

The arrays are functions of an index that may lie outside of them. There `input.buf` stands
for whatever memory follows the array, which the event `elsewhere` changes; a store outside
of the array destroys other data of the kernel, and what happens after it is not modelled.
The list `accesses`, which is not in the source, records every access to an array.
-/

namespace Xv6.Console

open Function

abbrev Byte := BitVec 8

abbrev inputBuf : ℕ := 128

abbrev hisSize : ℕ := 10

abbrev ctrl (x : Char) : Byte := BitVec.ofNat 8 (x.toNat - '@'.toNat)

abbrev newline : Byte := BitVec.ofNat 8 '\n'.toNat

abbrev carriageReturn : Byte := BitVec.ofNat 8 '\r'.toNat

abbrev tab : Byte := 0x09

abbrev delete : Byte := 0x7f

/-- An access to an element of `input.buf`, `history.command` or `history.command_size`. -/
inductive Access where
  | buf (i : ℕ)
  | command (index i : ℕ)
  | commandSize (index : ℕ)
  deriving DecidableEq

/-- The element is one of the array. -/
def Access.InBounds : Access → Prop
  | .buf i => i < inputBuf
  | .command index i => index < hisSize ∧ i < inputBuf
  | .commandSize index => index < hisSize

instance Access.decidableInBounds : (a : Access) → Decidable a.InBounds
  | .buf i => inferInstanceAs (Decidable (i < inputBuf))
  | .command index i => inferInstanceAs (Decidable (index < hisSize ∧ i < inputBuf))
  | .commandSize index => inferInstanceAs (Decidable (index < hisSize))

structure History where
  command : ℕ → ℕ → Byte
  commandSize : ℕ → BitVec 32
  index : BitVec 32

structure Input where
  buf : ℕ → Byte
  r : BitVec 32
  w : BitVec 32
  e : BitVec 32
  history : History
  accesses : List Access
  /-- A store has gone outside of `input.buf`. -/
  overrun : Bool

/-- What `strncmp(p, q, n)` finds, from position `k` on: whether it returns 0, and how many
bytes it has read of each. -/
def strncmp (p q : ℕ → Byte) : ℕ → ℕ → Bool × ℕ
  | k, 0 => (true, k)
  | k, n + 1 =>
    if p k ≠ 0 ∧ p k = q k then strncmp p q (k + 1) n else (decide (p k = q k), k + 1)

def strncpyReads (t : ℕ → Byte) : ℕ → ℕ → ℕ
  | k, 0 => k
  | k, n + 1 => if t k = 0 then k + 1 else strncpyReads t (k + 1) n

def strncpy (s t : ℕ → Byte) (n : ℕ) : ℕ → Byte := fun i =>
  if i < n then (if i < strncpyReads t 0 n then t i else 0) else s i

namespace Input

def text (s : Input) : ℕ → Byte := fun k => s.buf (s.r.toNat + k)

def touch (s : Input) (as : List Access) : Input :=
  { s with accesses := s.accesses ++ as }

def entry (s : Input) (i : ℕ) : ℕ := (s.history.index - BitVec.ofNat 32 i).toNat % hisSize

/-- The loop of `tabhandler` over the given `i`, up to the first entry that starts with the
`wlen` characters typed. -/
def tabSearch (s : Input) (wlen : ℕ) : List ℕ → Input × Option ℕ
  | [] => (s, none)
  | i :: is =>
    let found := strncmp s.text (s.history.command (s.entry i)) 0 wlen
    let t := s.touch ((List.range found.2).flatMap fun k =>
      [.buf (s.r.toNat + k), .command (s.entry i) k])
    if found.1 then (t, some (s.entry i)) else t.tabSearch wlen is

/-- The inner loop of `tabhandler`, from `j` on. -/
def tabAppend (index : ℕ) : ℕ → ℕ → Input → Input
  | _, 0, s => s
  | j, n + 1, s =>
    let i := s.e.toNat
    tabAppend index (j + 1) n { s.touch [.command index j, .buf i, .commandSize index] with
        buf := update s.buf i (s.history.command index j)
        e := s.e + 1
        overrun := s.overrun || decide (inputBuf ≤ i) }

def tabhandler (s : Input) : Input :=
  let wlen := (s.e - s.r).toNat
  match s.tabSearch wlen (List.range hisSize) with
  | (t, none) => t
  | (t, some index) =>
    tabAppend index wlen ((t.history.commandSize index).toNat - wlen) (t.touch [.commandSize index])

/-- The loop that removes the characters since the last newline or `input.w`. It ends within
`n` steps if that is the distance from `input.w` to `input.e`. -/
def killLine : ℕ → Input → Input
  | 0, s => s
  | n + 1, s =>
    let i := (s.e - 1).toNat % inputBuf
    if s.e = s.w then
      s
    else if s.buf i = newline then
      s.touch [.buf i]
    else
      killLine n { s.touch [.buf i] with e := s.e - 1 }

def erase (s : Input) : Input := if s.e ≠ s.w then { s with e := s.e - 1 } else s

def remember (s : Input) : Input :=
  let size := s.e - s.r - 1
  let index := s.history.index.toNat
  { s.touch ((List.range (strncpyReads s.text 0 size.toNat)).map (fun k => .buf (s.r.toNat + k)) ++
      (List.range size.toNat).map (.command index) ++ [.commandSize index]) with
    history :=
      { command := update s.history.command index
          (strncpy (s.history.command index) s.text size.toNat)
        commandSize := update s.history.commandSize index size
        index := (s.history.index + 1) % BitVec.ofNat 32 hisSize } }

def store (s : Input) (c : Byte) : Input :=
  let i := s.e.toNat % inputBuf
  { s.touch [.buf i] with buf := update s.buf i c, e := s.e + 1 }

/-- The default case of the switch. The flag tells whether it calls `wakeup`. -/
def enter (s : Input) (c : Byte) : Input × Bool :=
  if c ≠ 0 ∧ (s.e - s.r).toNat < inputBuf then
    let c := if c = carriageReturn then newline else c
    let s := s.store c
    let s := if c = newline then s.remember else s
    if c = newline ∨ c = ctrl 'D' ∨ s.e = s.r + BitVec.ofNat 32 inputBuf then
      ({ s with w := s.e }, true)
    else
      (s, false)
  else
    (s, false)

def key (s : Input) (c : Byte) : Input × Bool :=
  if c = ctrl 'P' then
    (s, false)
  else if c = ctrl 'U' ∨ c = ctrl 'R' then
    (killLine (s.e - s.w).toNat s, false)
  else if c = ctrl 'H' ∨ c = delete then
    (s.erase, false)
  else if c = tab then
    (s.tabhandler, false)
  else
    s.enter c

end Input

/-- How the loop of `consoleread` ends: the call returns, or it sleeps with `n` bytes still
wanted. The bytes copied to `dst` so far are `got`. -/
inductive Outcome where
  | returns (ret : ℤ) (got : List Byte)
  | sleeps (n : ℕ) (got : List Byte)
  deriving DecidableEq

namespace Input

def consoleread (killed : Bool) : ℕ → List Byte → Input → Input × Outcome
  | 0, got, s => (s, .returns got.length got)
  | n + 1, got, s =>
    if s.r = s.w then
      (s, if killed then .returns (-1) got else .sleeps (n + 1) got)
    else
      let i := s.r.toNat % inputBuf
      let c := s.buf i
      let t := { s.touch [.buf i] with r := s.r + 1 }
      if c = ctrl 'D' then
        (if got ≠ [] then { t with r := t.r - 1 } else t, .returns got.length got)
      else if c = newline then
        (t, .returns (got.length + 1 : ℕ) (got ++ [c]))
      else
        t.consoleread killed n (got ++ [c])

end Input

/-- A process with respect to `consoleread`: outside, with what its last call returned and
copied, or in `sleep`. -/
inductive Reader where
  | out (last : Option (ℤ × List Byte))
  | waiting (asleep : Bool) (n : ℕ) (got : List Byte)
  deriving DecidableEq

def Outcome.reader : Outcome → Reader
  | .returns ret got => .out (some (ret, got))
  | .sleeps n got => .waiting true n got

def Reader.wake : Reader → Reader
  | .waiting _ n got => .waiting false n got
  | .out last => .out last

structure State (P : Type*) where
  input : Input
  reader : P → Reader
  killed : P → Bool

inductive Event (P : Type*) where
  /-- `consoleintr` gets a character. -/
  | key (c : Byte)
  | read (p : P) (n : ℤ)
  /-- A process in `sleep` that was woken up goes on. -/
  | resume (p : P)
  | kill (p : P)
  /-- The memory outside of `input.buf` changes. -/
  | elsewhere (f : ℕ → Byte)

def boot (P : Type*) (buf : ℕ → Byte) : State P where
  input :=
    { buf := buf
      r := 0
      w := 0
      e := 0
      history := { command := fun _ _ => 0, commandSize := fun _ => 0, index := 0 }
      accesses := []
      overrun := false }
  reader _ := .out none
  killed _ := false

variable {P : Type*} [DecidableEq P]

def State.consoleread (s : State P) (p : P) (n : ℕ) (got : List Byte) : State P :=
  let (input, o) := s.input.consoleread (s.killed p) n got
  { s with input := input, reader := update s.reader p o.reader }

def step (s : State P) (e : Event P) : Option (State P) :=
  if s.input.overrun then none
  else match e with
    | .key c =>
      let (input, woken) := s.input.key c
      some { s with
        input := input
        reader := fun q => if woken then (s.reader q).wake else s.reader q }
    | .read p n =>
      match s.reader p with
      | .out _ => some (s.consoleread p n.toNat [])
      | .waiting _ _ _ => none
    | .resume p =>
      match s.reader p with
      | .waiting false n got => some (s.consoleread p n got)
      | _ => none
    | .kill p =>
      some { s with
        killed := update s.killed p true
        reader := update s.reader p (s.reader p).wake }
    | .elsewhere f =>
      some { s with input :=
        { s.input with buf := fun i => if i < inputBuf then s.input.buf i else f i } }

end Xv6.Console

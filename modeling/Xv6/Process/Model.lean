import Xv6.OpenFiles.Model
import Xv6.Scheduler.Model
import Xv6.Vm.Model

/-!
# Processes and their memory

`fork`, `growproc` and `exec` over the frames of `Xv6.Vm` and the files of `Xv6.OpenFiles`, whose
pages are frames here. A system call runs from its start to its end. `proc` is `ptable.proc`, and
`beyond` has what has been stored right after it, the latest first: `allocproc` stores there, as
into a slot, when the table is full.

Of the trap frame there are the two registers that `exec` sets. The file that `exec` loads is
given with the call, as the bytes that `readi` reads from it, and so are the strings of `argv`.
-/

namespace Xv6.Process

open Routine
open PTable (Slot ProcState)
open Scheduler (Priority)
open Vm (VmM Link)

abbrev Byte := BitVec 8

structure Sched where
  priority : Priority
  clicks : BitVec 32
  arrivalTime : BitVec 32
  lastRun : BitVec 32
  tickets : BitVec 32
  deriving DecidableEq

def Sched.fresh (ticks : BitVec 32) : Sched := ⟨.pl3, 1, ticks, ticks, 10⟩

/-- `struct proc`; the descriptors and the current directory are in `Xv6.Tree.Proc`. -/
structure Proc where
  sz : BitVec 32
  pgdir : Option ℕ
  kstack : Option ℕ
  state : ProcState
  pid : BitVec 32
  parent : Option Slot
  eip : BitVec 32
  esp : BitVec 32
  killed : Bool
  name : List Byte
  sched : Sched

/-- The kernel; `outstanding` is that of the log. -/
structure Kernel where
  mem : Vm.Mem
  proc : Slot → Proc
  beyond : List Sched
  nextpid : BitVec 32
  ticks : BitVec 32
  files : OpenFiles.Kernel Slot ℕ
  outstanding : ℤ

inductive Stop where
  | vm (e : Vm.Panic)
  | files (r : OpenFiles.Stop)
  /-- `"switchuvm: no kstack"`. -/
  | noKstack
  /-- `"switchuvm: no pgdir"`, and the use of a null `pgdir`. -/
  | noPgdir
  /-- `"freevm: no pgdir"`. -/
  | freevm

abbrev KernelM := Routine Stop Kernel

section Parts

def Kernel.setMem (s : Kernel) (m : Vm.Mem) : Kernel := { s with mem := m }

def Kernel.setFiles (s : Kernel) (k : OpenFiles.Kernel Slot ℕ) : Kernel := { s with files := k }

def Kernel.modifyProc (s : Kernel) (p : Slot) (f : Proc → Proc) : Kernel :=
  { s with proc := Function.update s.proc p (f (s.proc p)) }

def onMem {α : Type} (x : VmM α) : KernelM α := fun s =>
  match x s.mem with
  | (.ok a, m) => (.ok a, s.setMem m)
  | (.error e, m) => (.error (.vm e), s.setMem m)

def onFiles {α : Type} (x : OpenFiles.KernelM Slot ℕ α) : KernelM α := fun s =>
  match x s.files with
  | (.ok a, k) => (.ok a, s.setFiles k)
  | (.error r, k) => (.error (.files r), s.setFiles k)

def getProc (p : Slot) : KernelM Proc := look fun s => s.proc p

def modify (p : Slot) (f : Proc → Proc) : KernelM Unit := update fun s => s.modifyProc p f

def switchuvm (p : Slot) : KernelM Unit := do
  let x ← getProc p
  if x.kstack = none then
    stop .noKstack
  else if x.pgdir = none then
    stop .noPgdir
  else
    pure ()

variable (lk : Link)

/-- The pages that a call of process `p` has taken from pipes, in the order in which `exit`
closes descriptors; `free` is the page that `kalloc` has returned to the call. -/
def released (p : Slot) (free : Option ℕ) (k k' : OpenFiles.Kernel Slot ℕ) : List ℕ :=
  let pages := free.toList ++ (List.finRange nFile).filterMap k.pipe ++
    (List.finRange nOFile).filterMap fun fd => (k.base.ofile p fd).bind k.pipe
  pages.dedup.filter fun pg => (k'.page pg).isNone

/-- A call on files, with the calls of `kfree` that `pipeclose` makes. -/
def fileCall {α : Type} (p : Slot) (free : Option ℕ) (x : OpenFiles.KernelM Slot ℕ α) :
    KernelM α := do
  let before ← look Kernel.files
  let a ← onFiles x
  let after ← look Kernel.files
  onMem (forEach (Vm.kfree lk) (released p free before after))
  pure a

end Parts

section Memory

variable (lk : Link)

def resize (p : Slot) (sz : BitVec 32) : KernelM ℤ := do
  modify p fun x => { x with sz := sz }
  switchuvm p
  pure 0

def growproc (p : Slot) (n : BitVec 32) : KernelM ℤ := do
  let x ← getProc p
  match x.pgdir with
  | none => stop .noPgdir
  | some pgdir =>
    if 0 < n.toInt then do
      let sz ← onMem (Vm.allocuvm lk pgdir x.sz (x.sz + n))
      if sz = 0 then pure (-1) else resize p sz
    else if n.toInt < 0 then do
      let sz ← onMem (Vm.deallocuvm lk pgdir x.sz (x.sz + n))
      if sz = 0 then pure (-1) else resize p sz
    else
      resize p x.sz

end Memory

section Table

variable (lk : Link)

def Kernel.unusedSlot (s : Kernel) : Option Slot :=
  (List.finRange nProc).find? fun p => decide ((s.proc p).state = .unused)

def Kernel.embryo (s : Kernel) (p : Slot) : Kernel :=
  { s.modifyProc p fun x =>
      { x with state := .embryo, pid := s.nextpid, sched := Sched.fresh s.ticks } with
    nextpid := s.nextpid + 1 }

/-- `allocproc`. When there is no slot, `p` points after the table. -/
def allocproc : KernelM (Option Slot) := do
  match ← look Kernel.unusedSlot with
  | none => do
      update fun s => { s with beyond := Sched.fresh s.ticks :: s.beyond }
      pure none
  | some p => do
      update fun s => s.embryo p
      match ← onMem Vm.kalloc with
      | none => do
          modify p fun x => { x with kstack := none, state := .unused }
          pure none
      | some kstack => do
          modify p fun x => { x with kstack := some kstack }
          pure (some p)

def freeStack (p : Slot) : KernelM Unit := do
  let x ← getProc p
  match x.kstack with
  | none => stop (.vm .kfree)
  | some kstack => do
      onMem (Vm.kfree lk kstack)
      modify p fun x => { x with kstack := none }

/-- `fork` after `copyuvm` has returned the directory `d` for the slot `np`; `x` is `*curproc`. -/
def startChild (p np : Slot) (x : Proc) (cwd d : ℕ) : KernelM ℤ := do
  modify np fun y => { y with
    pgdir := some d, sz := x.sz, parent := some p, eip := x.eip, esp := x.esp }
  let _ ← fileCall lk p none (OpenFiles.lift (Tree.fork p np cwd))
  modify np fun y => { y with name := x.name }
  let pid ← look fun s => (s.proc np).pid
  modify np fun y => { y with state := .runnable }
  pure pid.toInt

/-- `fork`, by a process whose current directory is `cwd`. -/
def fork (p : Slot) (cwd : ℕ) : KernelM ℤ := do
  match ← allocproc with
  | none => pure (-1)
  | some np => do
      let x ← getProc p
      match x.pgdir with
      | none => stop .noPgdir
      | some pgdir => do
          match ← onMem (Vm.copyuvm lk pgdir x.sz) with
          | none => do
              modify np fun y => { y with pgdir := none }
              freeStack lk np
              modify np fun y => { y with state := .unused }
              pure (-1)
          | some d => startChild lk p np x cwd d

end Table

section Exec

variable (lk : Link)

def u32At (bytes : List Byte) (off : ℕ) : BitVec 32 :=
  (bytes.getD off 0).setWidth 32 ||| (bytes.getD (off + 1) 0).setWidth 32 <<< 8 |||
    (bytes.getD (off + 2) 0).setWidth 32 <<< 16 ||| (bytes.getD (off + 3) 0).setWidth 32 <<< 24

def u16At (bytes : List Byte) (off : ℕ) : BitVec 16 :=
  (bytes.getD off 0).setWidth 16 ||| (bytes.getD (off + 1) 0).setWidth 16 <<< 8

def elfMagic : BitVec 32 := 0x464C457F

def elfProgLoad : BitVec 32 := 1

structure ElfHdr where
  magic : BitVec 32
  entry : BitVec 32
  phoff : BitVec 32
  phnum : BitVec 16

def ElfHdr.ofBytes (bytes : List Byte) : ElfHdr :=
  ⟨u32At bytes 0, u32At bytes 24, u32At bytes 28, u16At bytes 44⟩

structure ProgHdr where
  type : BitVec 32
  off : BitVec 32
  vaddr : BitVec 32
  filesz : BitVec 32
  memsz : BitVec 32

def ProgHdr.ofBytes (bytes : List Byte) : ProgHdr :=
  ⟨u32At bytes 0, u32At bytes 4, u32At bytes 8, u32At bytes 16, u32At bytes 20⟩

/-- The loop of `exec` over the program headers, with `n` rounds left: the size reached, or
nothing after a jump to `bad`. -/
def loadSegments (pgdir : ℕ) (file : List Byte) :
    ℕ → BitVec 32 → BitVec 32 → VmM (Option (BitVec 32))
  | 0, _, sz => pure (some sz)
  | n + 1, off, sz =>
    let r := Vm.readi file off 32
    let ph := ProgHdr.ofBytes r.2
    if r.1 ≠ 32 then
      pure none
    else if ph.type ≠ elfProgLoad then
      loadSegments pgdir file n (off + 32) sz
    else if ph.memsz < ph.filesz then
      pure none
    else if ph.vaddr + ph.memsz < ph.vaddr then
      pure none
    else do
      let sz ← Vm.allocuvm lk pgdir sz (ph.vaddr + ph.memsz)
      if sz = 0 then
        pure none
      else if ph.vaddr.toNat % Vm.pgSize ≠ 0 then
        pure none
      else do
        let r ← Vm.loaduvm pgdir ph.vaddr file ph.off ph.filesz
        if r < 0 then pure none else loadSegments pgdir file n (off + 32) sz

/-- A program in memory: `pgdir`, `sz` and `elf.entry`. -/
structure Image where
  pgdir : ℕ
  sz : BitVec 32
  entry : BitVec 32

/-- `exec` up to the end of the loop over the program headers. After a jump to `bad` the
directory is given back. -/
def loadImage (file : List Byte) : VmM (Option Image) :=
  let r := Vm.readi file 0 52
  let elf := ElfHdr.ofBytes r.2
  if r.1 ≠ 52 then
    pure none
  else if elf.magic ≠ elfMagic then
    pure none
  else do
    match ← Vm.setupkvm lk with
    | none => pure none
    | some pgdir => do
        match ← loadSegments lk pgdir file elf.phnum.toNat elf.phoff 0 with
        | none => do
            Vm.freevm lk pgdir
            pure none
        | some sz => pure (some ⟨pgdir, sz, elf.entry⟩)

/-- The loop of `exec` over the arguments: `sp` and the pointers that it stores in `ustack`. -/
def pushArgs (pgdir : ℕ) :
    List (List Byte) → ℕ → BitVec 32 → List (BitVec 32) →
      VmM (Option (BitVec 32 × List (BitVec 32)))
  | [], _, sp, ptrs => pure (some (sp, ptrs))
  | arg :: args, argc, sp, ptrs =>
    if maxArg ≤ argc then
      pure none
    else do
      let sp := (sp - BitVec.ofNat 32 (arg.length + 1)) &&& ~~~(3 : BitVec 32)
      let r ← Vm.copyout pgdir sp (arg ++ [0])
      if r < 0 then pure none else pushArgs pgdir args (argc + 1) sp (ptrs ++ [sp])

def wordBytes (w : BitVec 32) : List Byte :=
  [w.extractLsb' 0 8, w.extractLsb' 8 8, w.extractLsb' 16 8, w.extractLsb' 24 8]

def ustack (sp : BitVec 32) (ptrs : List (BitVec 32)) : List (BitVec 32) :=
  let argc := BitVec.ofNat 32 ptrs.length
  [0xffffffff, argc, sp - (argc + 1) * 4] ++ ptrs ++ [0]

/-- The arguments of `exec` are pushed on the stack: the final `sp`. -/
def pushFrame (pgdir : ℕ) (argv : List (List Byte)) (sz : BitVec 32) :
    VmM (Option (BitVec 32)) := do
  match ← pushArgs pgdir argv 0 sz [] with
  | none => pure none
  | some (sp, ptrs) => do
      let words := ustack sp ptrs
      let sp := sp - BitVec.ofNat 32 (4 * words.length)
      let r ← Vm.copyout pgdir sp (words.flatMap wordBytes)
      if r < 0 then pure none else pure (some sp)

/-- The two pages at the next page boundary, the first of them inaccessible: the new size. -/
def stackPages (pgdir : ℕ) (sz : BitVec 32) : VmM (Option (BitVec 32)) := do
  let sz := Vm.pgRoundUp sz
  let sz ← Vm.allocuvm lk pgdir sz (sz + 2 * 4096)
  if sz = 0 then
    pure none
  else do
    Vm.clearpteu pgdir (sz - 2 * 4096)
    pure (some sz)

/-- `exec` from the stack on: the new size and `sp`. After a jump to `bad` the directory is
given back. -/
def setupStack (pgdir : ℕ) (sz : BitVec 32) (argv : List (List Byte)) :
    VmM (Option (BitVec 32 × BitVec 32)) := do
  match ← stackPages lk pgdir sz with
  | none => do
      Vm.freevm lk pgdir
      pure none
  | some sz => do
      match ← pushFrame pgdir argv sz with
      | none => do
          Vm.freevm lk pgdir
          pure none
      | some sp => pure (some (sz, sp))

def lastElem (path : Tree.Path) : Tree.Path :=
  (path.reverse.takeWhile (· != Tree.slash)).reverse

def beginOp : KernelM Unit := update fun s => { s with outstanding := s.outstanding + 1 }

def endOp : KernelM Unit := update fun s => { s with outstanding := s.outstanding - 1 }

def commit (p : Slot) (path : Tree.Path) (im : Image) (sz sp : BitVec 32) : KernelM ℤ := do
  let old ← getProc p
  modify p fun x => { x with name := (lastElem path).take 15 }
  modify p fun x => { x with pgdir := some im.pgdir, sz := sz, eip := im.entry, esp := sp }
  modify p fun x => { x with sched := { x.sched with priority := .pl2 } }
  switchuvm p
  match old.pgdir with
  | none => stop .freevm
  | some oldpgdir => do
      onMem (Vm.freevm lk oldpgdir)
      pure 0

def onTree {α : Type} (x : Tree.KernelM Slot α) : KernelM α := onFiles (OpenFiles.lift x)

def exec (fmt : Tree.Format) (p : Slot) (cwd : ℕ) (path : Tree.Path) (file : List Byte)
    (argv : List (List Byte)) : KernelM ℤ := do
  beginOp
  match ← onTree (Tree.namei fmt cwd path) with
  | none => do
      endOp
      pure (-1)
  | some ip => do
      onTree (Tree.ilock ip)
      let im ← onMem (loadImage lk file)
      onTree (Tree.iunlockput ip)
      endOp
      match im with
      | none => pure (-1)
      | some im => do
          match ← onMem (setupStack lk im.pgdir im.sz argv) with
          | none => pure (-1)
          | some (sz, sp) => commit lk p path im sz sp

end Exec

end Xv6.Process

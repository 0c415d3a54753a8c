import Xv6.Tree.Handles

/-!
# Open files and pipes

The calls of `Xv6.Tree` with pipes. A file structure of type `FD_PIPE` is one that `pipe`
gives a page to; for `Xv6.Tree` it is a file structure in use that is open on no inode, so
that its calls do with it what the source does, except when it is closed for good. Of a pipe
only the two flags `readopen` and `writeopen` matter here; what goes through it is the
subject of `Xv6.Pipes`.

`kalloc` is outside: a call of `sys_pipe` comes with the page that it returns, which is one
that no pipe has, or none.
-/

namespace Xv6.OpenFiles

open Routine

variable {P Page : Type}

/-- `readopen` and `writeopen` of `struct pipe`. -/
structure Ends where
  readopen : Bool
  writeopen : Bool
  deriving DecidableEq

/-- `enum { FD_NONE, FD_PIPE, FD_INODE }`. -/
inductive FileType where
  | none
  | pipe
  | inode
  deriving DecidableEq

/-- `pipe f` is `f->pipe` when `f->type` is `FD_PIPE`; `page` has the pages that belong to
pipes. -/
structure Kernel (P Page : Type) where
  base : Tree.Kernel P
  pipe : Fin nFile → Option Page
  page : Page → Option Ends

inductive Stop where
  | base (r : Tree.Stop)
  | freedPipe
  deriving DecidableEq

abbrev KernelM (P Page : Type) := Routine Stop (Kernel P Page)

namespace Kernel

def type (s : Kernel P Page) (f : Fin nFile) : FileType :=
  if (s.pipe f).isSome then .pipe
  else match (s.base.file f).type with
    | .none => .none
    | .inode => .inode

def setBase (s : Kernel P Page) (k : Tree.Kernel P) : Kernel P Page := { s with base := k }

def setPipe (s : Kernel P Page) (f : Fin nFile) (pg : Option Page) : Kernel P Page :=
  { s with pipe := Function.update s.pipe f pg }

variable [DecidableEq Page]

def setPage (s : Kernel P Page) (pg : Page) (e : Option Ends) : Kernel P Page :=
  { s with page := Function.update s.page pg e }

end Kernel

/-- A routine of `Xv6.Tree`. -/
def lift {α : Type} (x : Tree.KernelM P α) : KernelM P Page α := fun s =>
  match x s.base with
  | (.ok a, k) => (.ok a, s.setBase k)
  | (.error r, k) => (.error (.base r), s.setBase k)

section Files

variable [DecidableEq Page]

def Ends.close (e : Ends) (writable : Bool) : Ends :=
  if writable = true then { e with writeopen := false } else { e with readopen := false }

/-- `pipeclose`. The page goes back to `kalloc` with the second end. -/
def pipeclose (pg : Page) (writable : Bool) : KernelM P Page Unit := do
  match ← look fun s => s.page pg with
  | none => stop .freedPipe
  | some e =>
    let e := e.close writable
    if e.readopen = false ∧ e.writeopen = false then
      update fun s => s.setPage pg none
    else
      update fun s => s.setPage pg (some e)

def fileclose (f : Fin nFile) : KernelM P Page Unit := do
  let x ← look fun s => s.base.file f
  if x.ref < 1 then
    stop (.base .fileclose)
  else if 1 < x.ref then
    update fun s => s.setBase (s.base.modifyFile f fun x => { x with ref := x.ref - 1 })
  else
    let pipe ← look fun s => s.pipe f
    update fun s =>
      (s.setBase (s.base.modifyFile f fun x => { x with ref := 0, type := .none })).setPipe f none
    match pipe with
    | some pg => pipeclose pg x.writable
    | none => if x.type = .inode then lift (Tree.iput x.ip) else pure ()

def Kernel.setEnd (s : Kernel P Page) (f : Fin nFile) (pg : Page) (writable : Bool) :
    Kernel P Page :=
  (s.setBase (s.base.modifyFile f fun x =>
    { x with readable := !writable, writable := writable })).setPipe f (some pg)

/-- `pipealloc`, when `kalloc` returns `free`. -/
def pipealloc (free : Option Page) : KernelM P Page (Option (Fin nFile × Fin nFile)) := do
  match ← lift Tree.filealloc with
  | none => pure none
  | some f0 =>
    match ← lift Tree.filealloc with
    | none =>
      fileclose f0
      pure none
    | some f1 =>
      match free with
      | none =>
        fileclose f0
        fileclose f1
        pure none
      | some pg =>
        update fun s => s.setPage pg (some ⟨true, true⟩)
        update fun s => s.setEnd f0 pg false
        update fun s => s.setEnd f1 pg true
        pure (some (f0, f1))

variable [DecidableEq P]

def sysPipe (p : P) (free : Option Page) : KernelM P Page ℤ := do
  match ← pipealloc free with
  | none => pure (-1)
  | some (rf, wf) =>
    match ← lift (Tree.fdalloc p rf) with
    | none =>
      fileclose rf
      fileclose wf
      pure (-1)
    | some fd0 =>
      match ← lift (Tree.fdalloc p wf) with
      | none =>
        update fun s => s.setBase (s.base.setOfile p fd0 none)
        fileclose rf
        fileclose wf
        pure (-1)
      | some _ => pure 0

def sysClose (p : P) (fd : ℤ) : KernelM P Page ℤ := do
  match ← lift (Tree.argfd p fd) with
  | none => pure (-1)
  | some (n, f) =>
    update fun s => s.setBase (s.base.setOfile p n none)
    fileclose f
    pure 0

def closeFiles (p : P) : List (Fin nOFile) → KernelM P Page Unit
  | [] => pure ()
  | fd :: fds => do
      match ← look fun s => s.base.ofile p fd with
      | none => pure ()
      | some f => do
          fileclose f
          update fun s => s.setBase (s.base.setOfile p fd none)
      closeFiles p fds

def exit (p : P) (cwd : ℕ) : KernelM P Page ℤ := do
  closeFiles p (List.finRange nOFile)
  lift (Tree.iput cwd)
  update fun s => s.setBase (s.base.setProc p none)
  pure 0

end Files

inductive Call (P Page : Type) where
  | sysOpen (path : Tree.Path) (omode : BitVec 32)
  | sysDup (fd : ℤ)
  | sysClose (fd : ℤ)
  | sysPipe (free : Option Page)
  | fork (child : P)
  | exit
  | sysChdir (path : Tree.Path)
  | exec (path : Tree.Path) (reads : List (ℕ × ℕ))
  | sysLink (old new : Tree.Path)
  | sysUnlink (path : Tree.Path)
  | sysMkdir (path : Tree.Path)
  | sysMknod (path : Tree.Path) (major minor : BitVec 32)

/-- The calls that do with a pipe what they do with any open file. -/
def Call.toBase : Call P Page → Option (Tree.Call P)
  | .sysOpen path omode => some (.sysOpen path omode)
  | .sysDup fd => some (.sysDup fd)
  | .fork child => some (.fork child)
  | .sysChdir path => some (.sysChdir path)
  | .exec path reads => some (.exec path reads)
  | .sysLink old new => some (.sysLink old new)
  | .sysUnlink path => some (.sysUnlink path)
  | .sysMkdir path => some (.sysMkdir path)
  | .sysMknod path major minor => some (.sysMknod path major minor)
  | .sysClose _ | .sysPipe _ | .exit => none

section Machine

variable (fmt : Tree.Format) (devsw : Tree.Devices) [DecidableEq P] [DecidableEq Page]

def Call.run (p : P) (cwd : ℕ) : Call P Page → KernelM P Page ℤ
  | .sysClose fd => OpenFiles.sysClose p fd
  | .sysPipe free => OpenFiles.sysPipe p free
  | .exit => OpenFiles.exit p cwd
  | .sysOpen path omode => lift (Tree.sysOpen fmt p cwd path omode)
  | .sysDup fd => lift (Tree.sysDup p fd)
  | .fork child => lift (Tree.fork p child cwd)
  | .sysChdir path => lift (Tree.sysChdir fmt p cwd path)
  | .exec path reads => lift (Tree.exec fmt devsw cwd path reads)
  | .sysLink old new => lift (Tree.sysLink fmt cwd old new)
  | .sysUnlink path => lift (Tree.sysUnlink fmt cwd path)
  | .sysMkdir path => lift (Tree.sysMkdir fmt cwd path)
  | .sysMknod path major minor => lift (Tree.sysMknod fmt cwd path major minor)

structure Sys (P Page : Type) where
  kernel : Kernel P Page
  stopped : Option Stop

/-- A new process takes a free slot, and `kalloc` returns a page that is not in use. -/
def enabled (s : Kernel P Page) : Call P Page → Bool
  | .fork child => (s.base.proc child).isNone
  | .sysPipe (some pg) => (s.page pg).isNone
  | _ => true

/-- One system call, by a process there is, before the system has stopped. -/
def step (s : Sys P Page) (e : P × Call P Page) : Option (Sys P Page) :=
  match s.kernel.base.proc e.1 with
  | none => none
  | some pr =>
    if s.stopped = none ∧ enabled s.kernel e.2 = true then
      match e.2.run fmt devsw e.1 pr.cwd s.kernel with
      | (.ok _, k) => some ⟨k, none⟩
      | (.error r, k) => some ⟨k, some r⟩
    else
      none

end Machine

end Xv6.OpenFiles

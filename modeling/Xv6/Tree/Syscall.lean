import Xv6.Library.Machine
import Xv6.Tree.Model

/-!
# The system calls on files

The calls of `sysfile.c` with the parts of `file.c`, `exec.c` and `proc.c` they
are made of. `Call` lists the calls of a process, and `step` runs one of them from
beginning to end. A call that panics or waits for itself stops the system.

Not modelled are pipes, the bytes of files, the image that `exec` builds, and the
ways to fail that leave no trace in the file system: a bad user pointer, no memory,
no process slot.
-/

namespace Xv6.Tree

open Routine

variable {P : Type}

/-- `devsw`: what a device returns for a number of bytes, by its major number. -/
structure Devices where
  read : ℕ → Option (ℕ → ℤ)
  write : ℕ → Option (ℕ → ℤ)

abbrev oRdonly : BitVec 32 := 0x000

abbrev oWronly : BitVec 32 := 0x001

abbrev oRdwr : BitVec 32 := 0x002

abbrev oCreate : BitVec 32 := 0x200

namespace Kernel

def modifyFile (k : Kernel P) (f : Fin nFile) (g : File → File) : Kernel P :=
  { k with file := Function.update k.file f (g (k.file f)) }

def ofile (k : Kernel P) (p : P) (fd : Fin nOFile) : Option (Fin nFile) :=
  (k.proc p).bind fun pr => pr.ofile fd

variable [DecidableEq P]

def setProc (k : Kernel P) (p : P) (r : Option Proc) : Kernel P :=
  { k with proc := Function.update k.proc p r }

def modifyProc (k : Kernel P) (p : P) (g : Proc → Proc) : Kernel P :=
  k.setProc p ((k.proc p).map g)

def setOfile (k : Kernel P) (p : P) (fd : Fin nOFile) (f : Option (Fin nFile)) : Kernel P :=
  k.modifyProc p fun pr => { pr with ofile := Function.update pr.ofile fd f }

end Kernel

section Files

def filealloc : KernelM P (Option (Fin nFile)) := do
  let k ← look fun k => k
  match (List.finRange nFile).find? fun f => decide ((k.file f).ref = 0) with
  | none => pure none
  | some f =>
    update fun k => k.modifyFile f fun x => { x with ref := 1 }
    pure (some f)

def filedup (f : Fin nFile) : KernelM P Unit := do
  let x ← look fun k => k.file f
  if x.ref < 1 then
    stop .filedup
  else
    update fun k => k.modifyFile f fun x => { x with ref := x.ref + 1 }

def fileclose (f : Fin nFile) : KernelM P Unit := do
  let x ← look fun k => k.file f
  if x.ref < 1 then
    stop .fileclose
  else if 1 < x.ref then
    update fun k => k.modifyFile f fun x => { x with ref := x.ref - 1 }
  else
    update fun k => k.modifyFile f fun x => { x with ref := 0, type := .none }
    if x.type = .inode then iput x.ip else pure ()

def argfd (p : P) (fd : ℤ) : KernelM P (Option (Fin nOFile × Fin nFile)) :=
  look fun k =>
    if h : 0 ≤ fd ∧ fd < nOFile then
      let n : Fin nOFile := ⟨fd.toNat, by omega⟩
      (k.ofile p n).map fun f => (n, f)
    else
      none

variable [DecidableEq P]

def fdalloc (p : P) (f : Fin nFile) : KernelM P (Option (Fin nOFile)) := do
  let k ← look fun k => k
  match (List.finRange nOFile).find? fun fd => decide (k.ofile p fd = none) with
  | none => pure none
  | some fd =>
    update fun k => k.setOfile p fd (some f)
    pure (some fd)

end Files

section Contents

variable (devsw : Devices)

/-- A device function. The one device, the console, gives up the lock of the
inode while it works. -/
def devcall (table : ℕ → Option (ℕ → ℤ)) (ip n : ℕ) : KernelM P ℤ := do
  let x ← look fun k => k.inode ip
  if x.major.toInt < 0 ∨ (nDev : ℤ) ≤ x.major.toInt then
    pure (-1)
  else
    match table x.major.toNat with
    | none => pure (-1)
    | some f => do
        iunlock ip
        ilock ip
        pure (f n)

def readi (ip off n : ℕ) : KernelM P ℤ := do
  let x ← look fun k => k.inode ip
  if x.type = .dev then
    devcall devsw.read ip n
  else if x.bytes < off ∨ 2 ^ 32 ≤ off + n then
    pure (-1)
  else
    pure (min n (x.bytes - off) : ℕ)

def writei (ip off n : ℕ) : KernelM P ℤ := do
  let x ← look fun k => k.inode ip
  if x.type = .dev then
    devcall devsw.write ip n
  else if x.type = .dir then
    stop .dirWrite
  else if x.bytes < off ∨ 2 ^ 32 ≤ off + n then
    pure (-1)
  else if maxFile * bSize < off + n then
    pure (-1)
  else
    update fun k => k.modifyInode ip fun x =>
      if 0 < n ∧ x.size < off + n then { x with size := off + n } else x
    pure n

def advance (f : Fin nFile) (r : ℤ) : KernelM P Unit :=
  if 0 < r then
    update fun k => k.modifyFile f fun x => { x with off := (x.off + r.toNat) % 2 ^ 32 }
  else
    pure ()

def fileread (f : Fin nFile) (n : ℕ) : KernelM P ℤ := do
  let x ← look fun k => k.file f
  if x.readable = false then
    pure (-1)
  else if x.type = .inode then do
    ilock x.ip
    let r ← readi devsw x.ip x.off n
    advance f r
    iunlock x.ip
    pure r
  else
    stop .fileread

def filestat (f : Fin nFile) : KernelM P ℤ := do
  let x ← look fun k => k.file f
  if x.type = .inode then do
    ilock x.ip
    iunlock x.ip
    pure 0
  else
    pure (-1)

abbrev maxWrite : ℕ := (maxOpBlocks - 1 - 1 - 2) / 2 * 512

/-- The loop of `filewrite`, with `i` of `n` bytes written. A round writes at
least one byte, so `n` rounds are enough. -/
def filewriteLoop (f : Fin nFile) (n : ℕ) : ℕ → ℕ → KernelM P ℤ
  | 0, i => pure (if i = n then n else -1)
  | rounds + 1, i =>
    if i < n then do
      let n1 := min (n - i) maxWrite
      let x ← look fun k => k.file f
      ilock x.ip
      let r ← writei devsw x.ip x.off n1
      advance f r
      iunlock x.ip
      if r < 0 then
        pure (-1)
      else if r ≠ n1 then
        stop .shortFilewrite
      else
        filewriteLoop f n rounds (i + n1)
    else
      pure (if i = n then n else -1)

def filewrite (f : Fin nFile) (n : ℕ) : KernelM P ℤ := do
  let x ← look fun k => k.file f
  if x.writable = false then
    pure (-1)
  else if x.type = .inode then
    filewriteLoop devsw f n n 0
  else
    stop .filewrite

end Contents

section Tree

variable (fmt : Format)

def isdirempty (x : Inode) : Bool := (x.entries.drop 2).all fun e => e.inum = 0

def sysLink (cwd : ℕ) (old new : Path) : KernelM P ℤ := do
  match ← namei fmt cwd old with
  | none => pure (-1)
  | some ip =>
    ilock ip
    let x ← look fun k => k.inode ip
    if x.type = .dir then
      iunlockput ip
      pure (-1)
    else
      update fun k => k.modifyInode ip fun x => { x with nlink := x.nlink + 1 }
      iunlock ip
      match ← nameiparent fmt cwd new with
      | none => bad ip
      | some (dp, name) =>
        ilock dp
        let r ← dirlink fmt dp name ip
        iunlockput dp
        if r < 0 then
          bad ip
        else
          iput ip
          pure 0
where
  bad (ip : ℕ) : KernelM P ℤ := do
    ilock ip
    update fun k => k.modifyInode ip fun x => { x with nlink := x.nlink - 1 }
    iunlockput ip
    pure (-1)

/-- The second half of `sys_unlink`: the entry at `off` of the locked directory
`dp` names the inode `ip`. -/
def unlinkEntry (dp ip off : ℕ) : KernelM P ℤ := do
  ilock ip
  let x ← look fun k => k.inode ip
  if x.nlink.toInt < 1 then
    stop .unlinkNlink
  else if x.type = .dir ∧ isdirempty x = false then
    iunlockput ip
    iunlockput dp
    pure (-1)
  else
    update fun k => k.modifyInode dp fun d =>
      { d with entries := d.entries.set off Dirent.unused }
    if x.type = .dir then
      update fun k => k.modifyInode dp fun d => { d with nlink := d.nlink - 1 }
    iunlockput dp
    update fun k => k.modifyInode ip fun x => { x with nlink := x.nlink - 1 }
    iunlockput ip
    pure 0

def sysUnlink (cwd : ℕ) (path : Path) : KernelM P ℤ := do
  match ← nameiparent fmt cwd path with
  | none => pure (-1)
  | some (dp, name) =>
    ilock dp
    if name = dotName ∨ name = dotDot then
      iunlockput dp
      pure (-1)
    else
      match ← dirlookup fmt dp name with
      | none =>
        iunlockput dp
        pure (-1)
      | some (ip, off) => unlinkEntry dp ip off

def linkDots (dp ip : ℕ) : KernelM P Unit := do
  let r ← dirlink fmt ip dotName ip
  if r < 0 then
    stop .createDots
  else
    let r ← dirlink fmt ip dotDot dp
    if r < 0 then stop .createDots else pure ()

/-- The second half of `create`: a new inode under `name` in the locked directory
`dp`. -/
def createNew (dp : ℕ) (name : Name) (type : Kind) (major minor : BitVec 16) :
    KernelM P ℕ := do
  let ip ← ialloc fmt type
  ilock ip
  update fun k => k.modifyInode ip fun x =>
    { x with major := major, minor := minor, nlink := 1 }
  if type = .dir then
    update fun k => k.modifyInode dp fun d => { d with nlink := d.nlink + 1 }
    linkDots fmt dp ip
  let r ← dirlink fmt dp name ip
  if r < 0 then
    stop .createDirlink
  else
    iunlockput dp
    pure ip

def create (cwd : ℕ) (path : Path) (type : Kind) (major minor : BitVec 16) :
    KernelM P (Option ℕ) := do
  match ← nameiparent fmt cwd path with
  | none => pure none
  | some (dp, name) =>
    ilock dp
    match ← dirlookup fmt dp name with
    | some (ip, _) =>
      iunlockput dp
      ilock ip
      let x ← look fun k => k.inode ip
      if type = .file ∧ x.type = .file then
        pure (some ip)
      else
        iunlockput ip
        pure none
    | none =>
      let ip ← createNew fmt dp name type major minor
      pure (some ip)

def make (cwd : ℕ) (path : Path) (type : Kind) (major minor : BitVec 16) : KernelM P ℤ := do
  match ← create fmt cwd path type major minor with
  | none => pure (-1)
  | some ip =>
    iunlockput ip
    pure 0

def sysMkdir (cwd : ℕ) (path : Path) : KernelM P ℤ := make fmt cwd path .dir 0 0

def sysMknod (cwd : ℕ) (path : Path) (major minor : BitVec 32) : KernelM P ℤ :=
  make fmt cwd path .dev (major.setWidth 16) (minor.setWidth 16)

end Tree

section Calls

variable (fmt : Format) (devsw : Devices) [DecidableEq P]

/-- The first half of `sys_open`: the inode of the path, locked. -/
def openInode (cwd : ℕ) (path : Path) (omode : BitVec 32) : KernelM P (Option ℕ) := do
  if omode &&& oCreate ≠ 0 then
    create fmt cwd path .file 0 0
  else
    match ← namei fmt cwd path with
    | none => pure none
    | some ip =>
      ilock ip
      let x ← look fun k => k.inode ip
      if x.type = .dir ∧ omode ≠ oRdonly then
        iunlockput ip
        pure none
      else
        pure (some ip)

def File.opened (x : File) (ip : ℕ) (omode : BitVec 32) : File :=
  { x with
    type := .inode
    ip := ip
    off := 0
    readable := decide (omode &&& oWronly = 0)
    writable := decide (omode &&& oWronly ≠ 0 ∨ omode &&& oRdwr ≠ 0) }

/-- The second half of `sys_open`: a file structure and a descriptor for the locked
inode. -/
def openFile (p : P) (ip : ℕ) (omode : BitVec 32) : KernelM P ℤ := do
  match ← filealloc with
  | none =>
    iunlockput ip
    pure (-1)
  | some f =>
    match ← fdalloc p f with
    | none =>
      fileclose f
      iunlockput ip
      pure (-1)
    | some fd =>
      iunlock ip
      update fun k => k.modifyFile f fun x => x.opened ip omode
      pure fd.val

def sysOpen (p : P) (cwd : ℕ) (path : Path) (omode : BitVec 32) : KernelM P ℤ := do
  match ← openInode fmt cwd path omode with
  | none => pure (-1)
  | some ip => openFile p ip omode

def sysChdir (p : P) (cwd : ℕ) (path : Path) : KernelM P ℤ := do
  match ← namei fmt cwd path with
  | none => pure (-1)
  | some ip =>
    ilock ip
    let x ← look fun k => k.inode ip
    if x.type ≠ .dir then
      iunlockput ip
      pure (-1)
    else
      iunlock ip
      iput cwd
      update fun k => k.modifyProc p fun pr => { pr with cwd := ip }
      pure 0

def execReads (ip : ℕ) : List (ℕ × ℕ) → KernelM P Unit
  | [] => pure ()
  | (off, n) :: reads => do
      let _ ← readi devsw ip off n
      execReads ip reads

/-- The part of `exec` that uses the file system. -/
def exec (cwd : ℕ) (path : Path) (reads : List (ℕ × ℕ)) : KernelM P ℤ := do
  match ← namei fmt cwd path with
  | none => pure (-1)
  | some ip =>
    ilock ip
    execReads devsw ip reads
    iunlockput ip
    pure 0

def sysClose (p : P) (fd : ℤ) : KernelM P ℤ := do
  match ← argfd p fd with
  | none => pure (-1)
  | some (n, f) =>
    update fun k => k.setOfile p n none
    fileclose f
    pure 0

def sysDup (p : P) (fd : ℤ) : KernelM P ℤ := do
  match ← argfd p fd with
  | none => pure (-1)
  | some (_, f) =>
    match ← fdalloc p f with
    | none => pure (-1)
    | some n =>
      filedup f
      pure n.val

def onFile (p : P) (fd : ℤ) (act : Fin nFile → KernelM P ℤ) : KernelM P ℤ := do
  match ← argfd p fd with
  | none => pure (-1)
  | some (_, f) => act f

def sysRead (p : P) (fd : ℤ) (n : ℕ) : KernelM P ℤ :=
  onFile p fd fun f => fileread devsw f n

def sysWrite (p : P) (fd : ℤ) (n : ℕ) : KernelM P ℤ :=
  onFile p fd fun f => filewrite devsw f n

def sysFstat (p : P) (fd : ℤ) : KernelM P ℤ := onFile p fd filestat

def dupFiles (p : P) : List (Fin nOFile) → KernelM P Unit
  | [] => pure ()
  | fd :: fds => do
      match ← look fun k => k.ofile p fd with
      | none => pure ()
      | some f => filedup f
      dupFiles p fds

/-- The part of `fork` that shares files and the current directory with the new
process `child`. -/
def fork (p child : P) (cwd : ℕ) : KernelM P ℤ := do
  dupFiles p (List.finRange nOFile)
  idup cwd
  update fun k => k.setProc child (k.proc p)
  pure 0

def closeFiles (p : P) : List (Fin nOFile) → KernelM P Unit
  | [] => pure ()
  | fd :: fds => do
      match ← look fun k => k.ofile p fd with
      | none => pure ()
      | some f => do
          fileclose f
          update fun k => k.setOfile p fd none
      closeFiles p fds

def exit (p : P) (cwd : ℕ) : KernelM P ℤ := do
  closeFiles p (List.finRange nOFile)
  iput cwd
  update fun k => k.setProc p none
  pure 0

end Calls

inductive Call (P : Type) where
  | sysOpen (path : Path) (omode : BitVec 32)
  | sysLink (old new : Path)
  | sysUnlink (path : Path)
  | sysMkdir (path : Path)
  | sysMknod (path : Path) (major minor : BitVec 32)
  | sysChdir (path : Path)
  | sysRead (fd : ℤ) (n : ℕ)
  | sysWrite (fd : ℤ) (n : ℕ)
  | sysFstat (fd : ℤ)
  | sysClose (fd : ℤ)
  | sysDup (fd : ℤ)
  | exec (path : Path) (reads : List (ℕ × ℕ))
  | fork (child : P)
  | exit

section Machine

variable (fmt : Format) (devsw : Devices) [DecidableEq P]

def Call.run (p : P) (cwd : ℕ) : Call P → KernelM P ℤ
  | .sysOpen path omode => Tree.sysOpen fmt p cwd path omode
  | .sysLink old new => Tree.sysLink fmt cwd old new
  | .sysUnlink path => Tree.sysUnlink fmt cwd path
  | .sysMkdir path => Tree.sysMkdir fmt cwd path
  | .sysMknod path major minor => Tree.sysMknod fmt cwd path major minor
  | .sysChdir path => Tree.sysChdir fmt p cwd path
  | .sysRead fd n => Tree.sysRead devsw p fd n
  | .sysWrite fd n => Tree.sysWrite devsw p fd n
  | .sysFstat fd => Tree.sysFstat p fd
  | .sysClose fd => Tree.sysClose p fd
  | .sysDup fd => Tree.sysDup p fd
  | .exec path reads => Tree.exec fmt devsw cwd path reads
  | .fork child => Tree.fork p child cwd
  | .exit => Tree.exit p cwd

structure Sys (P : Type) where
  kernel : Kernel P
  stopped : Option Stop

/-- A call can be made while the system has not stopped, by a process there is.
A new process takes a free slot. -/
def enabled (s : Sys P) (p : P) : Call P → Bool
  | .fork child => s.stopped.isNone && (s.kernel.proc child).isNone && (s.kernel.proc p).isSome
  | _ => s.stopped.isNone && (s.kernel.proc p).isSome

def step (s : Sys P) (e : P × Call P) : Option (Sys P) :=
  match s.kernel.proc e.1 with
  | none => none
  | some pr =>
    if enabled s e.1 e.2 = true then
      match e.2.run fmt devsw e.1 pr.cwd s.kernel with
      | (.ok _, k) => some ⟨k, none⟩
      | (.error r, k) => some ⟨k, some r⟩
    else
      none

end Machine

end Xv6.Tree

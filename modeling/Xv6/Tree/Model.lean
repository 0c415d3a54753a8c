import Mathlib.Data.Finset.Basic
import Xv6.Library.Routine
import Xv6.Param

/-!
# Inodes, directories and paths

The upper half of `fs.c`, from `iget` to `nameiparent`, over inodes whose
contents are already put together from their blocks: a directory is the list of
its entries, and of a regular file only the size matters. The inode cache is
write-through, so the copy in memory and the copy on disk of an inode are one
record here.

`cache i` is the cache entry of inode `i`, absent when its reference count is
zero. `locked` has the inodes whose sleep locks are held. One system call runs at
a time, so they are held by the process that makes it, and asking for a lock
that is already held means waiting for oneself.
-/

namespace Xv6.Tree

open Routine

abbrev Byte := BitVec 8

abbrev slash : Byte := 0x2f

abbrev dot : Byte := 0x2e

abbrev Name := List Byte

abbrev dotName : Name := [dot]

abbrev dotDot : Name := [dot, dot]

abbrev Path := List Byte

/-- `ip->type`; `free` is zero. -/
inductive Kind where
  | free
  | dir
  | file
  | dev
  deriving DecidableEq, Repr

/-- `struct dirent`, with its inode number in 16 bits; an unused entry has `inum`
zero. -/
structure Dirent where
  inum : ℕ
  inum_lt : inum < 2 ^ 16
  name : Name
  deriving DecidableEq, Repr

def Dirent.to (inum : ℕ) (name : Name) : Dirent :=
  ⟨inum % 2 ^ 16, Nat.mod_lt _ (by decide), name⟩

/-- The entry that `sys_unlink` writes. -/
def Dirent.unused : Dirent := ⟨0, by decide, []⟩

/-- An inode with its contents: the entries of a directory, the size of a file. -/
structure Inode where
  type : Kind
  major : BitVec 16
  minor : BitVec 16
  nlink : BitVec 16
  size : ℕ
  entries : List Dirent
  deriving DecidableEq, Repr

/-- What the inode cache adds to an inode. -/
structure CacheEntry where
  ref : ℕ
  valid : Bool
  deriving DecidableEq, Repr

inductive FileType where
  | none
  | inode
  deriving DecidableEq, Repr

/-- `struct file`, pipes left out. -/
structure File where
  ref : ℕ
  type : FileType
  ip : ℕ
  off : ℕ
  readable : Bool
  writable : Bool

structure Proc where
  cwd : ℕ
  ofile : Fin nOFile → Option (Fin nFile)

structure Kernel (P : Type) where
  inode : ℕ → Inode
  cache : ℕ → Option CacheEntry
  locked : Finset ℕ
  file : Fin nFile → File
  proc : P → Option Proc

/-- The number of inodes, which a directory entry stores in 16 bits. -/
structure Format where
  ninodes : ℕ
  root_lt : rootIno < ninodes
  ninodes_le : ninodes ≤ 2 ^ 16

/-- Why a system call does not return: the panics of `fs.c`, `file.c` and
`sysfile.c`, and a process that waits for a lock it holds. `dirWrite` would be a
write to a directory through a file descriptor. -/
inductive Stop where
  | selfDeadlock
  | ilock
  | noType
  | iunlock
  | icacheFull
  | noFreeInode
  | dirlookupNotDir
  | dirlink
  | unlinkNlink
  | createDots
  | createDirlink
  | filedup
  | fileclose
  | fileread
  | filewrite
  | shortFilewrite
  | dirWrite
  deriving DecidableEq, Repr

def Inode.fresh (type : Kind) : Inode := ⟨type, 0, 0, 0, 0, []⟩

def Inode.freed (x : Inode) : Inode := { x with type := .free, size := 0, entries := [] }

def Inode.bytes (x : Inode) : ℕ :=
  if x.type = .dir then direntSize * x.entries.length else x.size

abbrev maxEntries : ℕ := maxFile * bSize / direntSize

variable {P : Type}

abbrev KernelM (P : Type) := Routine Stop (Kernel P)

namespace Kernel

def modifyInode (k : Kernel P) (i : ℕ) (f : Inode → Inode) : Kernel P :=
  { k with inode := Function.update k.inode i (f (k.inode i)) }

def setCache (k : Kernel P) (i : ℕ) (c : Option CacheEntry) : Kernel P :=
  { k with cache := Function.update k.cache i c }

def hold (k : Kernel P) (i : ℕ) : Kernel P :=
  k.setCache i <| some <|
    match k.cache i with
    | none => ⟨1, false⟩
    | some e => { e with ref := e.ref + 1 }

/-- The body of `iput` between its two lock operations and after them: free the
inode if this is the last reference and it has no links, and drop the reference. -/
def put (k : Kernel P) (i : ℕ) : Kernel P :=
  match k.cache i with
  | none => k
  | some e =>
    let k := if e.valid = true ∧ (k.inode i).nlink = 0 ∧ e.ref = 1 then
        k.modifyInode i Inode.freed
      else
        k
    k.setCache i (if e.ref = 1 then none else some { e with ref := e.ref - 1 })

def cached (k : Kernel P) (fmt : Format) : ℕ :=
  (List.range fmt.ninodes).countP fun i => (k.cache i).isSome

end Kernel

section Inodes

variable (fmt : Format)

def iget (i : ℕ) : KernelM P Unit := do
  let k ← look fun k => k
  if k.cache i = none ∧ nInode ≤ k.cached fmt then
    stop .icacheFull
  else
    update fun k => k.hold i

def ialloc (type : Kind) : KernelM P ℕ := do
  let k ← look fun k => k
  match (List.range fmt.ninodes).find? fun i => decide (1 ≤ i ∧ (k.inode i).type = .free) with
  | none => stop .noFreeInode
  | some i =>
    update fun k => k.modifyInode i fun _ => Inode.fresh type
    iget fmt i
    pure i

def idup (i : ℕ) : KernelM P Unit := update fun k => k.hold i

/-- `ilock`: lock inode `i`, and look at its type when it is first read. -/
def ilock (i : ℕ) : KernelM P Unit := do
  let k ← look fun k => k
  match k.cache i with
  | none => stop .ilock
  | some e =>
    if i ∈ k.locked then
      stop .selfDeadlock
    else
      update fun k => { k with locked := insert i k.locked }
      if e.valid = true then
        pure ()
      else
        update fun k => k.setCache i (some { e with valid := true })
        if (k.inode i).type = .free then stop .noType else pure ()

def iunlock (i : ℕ) : KernelM P Unit := do
  let k ← look fun k => k
  if i ∉ k.locked ∨ k.cache i = none then
    stop .iunlock
  else
    update fun k => { k with locked := k.locked.erase i }

def iput (i : ℕ) : KernelM P Unit := do
  let k ← look fun k => k
  if i ∈ k.locked then stop .selfDeadlock else update fun k => k.put i

def iunlockput (i : ℕ) : KernelM P Unit := do
  iunlock i
  iput i

end Inodes

section Directories

variable (fmt : Format)

/-- The search of `dirlookup`: the inode number and the place of the first entry
in use with the given name. -/
def lookupFrom (name : Name) : List Dirent → ℕ → Option (ℕ × ℕ)
  | [], _ => none
  | e :: es, off =>
    if e.inum ≠ 0 ∧ e.name = name then some (e.inum, off) else lookupFrom name es (off + 1)

def Inode.lookup (x : Inode) (name : Name) : Option (ℕ × ℕ) := lookupFrom name x.entries 0

def dirlookup (dp : ℕ) (name : Name) : KernelM P (Option (ℕ × ℕ)) := do
  let x ← look fun k => k.inode dp
  if x.type ≠ .dir then
    stop .dirlookupNotDir
  else
    match x.lookup name with
    | none => pure none
    | some (i, off) =>
      iget fmt i
      pure (some (i, off))

/-- The entries after `dirlink` has stored `e` in the first unused one, or at the
end. -/
def addEntry (e : Dirent) : List Dirent → List Dirent
  | [] => [e]
  | d :: ds => if d.inum = 0 then e :: ds else d :: addEntry e ds

def dirlink (dp : ℕ) (name : Name) (inum : ℕ) : KernelM P ℤ := do
  match ← dirlookup fmt dp name with
  | some (i, _) =>
    iput i
    pure (-1)
  | none =>
    let x ← look fun k => k.inode dp
    let entries := addEntry (Dirent.to inum name) x.entries
    if maxEntries < entries.length then
      stop .dirlink
    else
      update fun k => k.modifyInode dp fun x => { x with entries := entries }
      pure 0

end Directories

section Paths

variable (fmt : Format)

/-- `skipelem`: the next path element, cut to `DIRSIZ` bytes, and the path after
it without leading slashes. -/
def skipelem (path : Path) : Option (Name × Path) :=
  let path := path.dropWhile (· == slash)
  if path = [] then
    none
  else
    some ((path.takeWhile (· != slash)).take dirSiz,
      (path.dropWhile (· != slash)).dropWhile (· == slash))

/-- The end of `namex`, when the path is used up. -/
def namexEnd (parent : Bool) (ip : ℕ) : KernelM P (Option (ℕ × Name)) :=
  if parent = true then do
    iput ip
    pure none
  else
    pure (some (ip, []))

/-- The loop of `namex`. An element takes at least one byte off the path, so as
many rounds as the path has bytes are enough. -/
def namexLoop (parent : Bool) : ℕ → ℕ → Path → KernelM P (Option (ℕ × Name))
  | 0, ip, _ => namexEnd parent ip
  | rounds + 1, ip, path =>
    match skipelem path with
    | none => namexEnd parent ip
    | some (name, rest) => do
        ilock ip
        let x ← look fun k => k.inode ip
        if x.type ≠ .dir then
          iunlockput ip
          pure none
        else if parent = true ∧ rest = [] then
          iunlock ip
          pure (some (ip, name))
        else
          match ← dirlookup fmt ip name with
          | none =>
            iunlockput ip
            pure none
          | some (next, _) =>
            iunlockput ip
            namexLoop parent rounds next rest

/-- `namex`, for a process whose current directory is `cwd`: the inode for a path
name, or the one of its parent and the final path element. -/
def namex (cwd : ℕ) (parent : Bool) (path : Path) : KernelM P (Option (ℕ × Name)) :=
  if path.head? = some slash then do
    iget fmt rootIno
    namexLoop fmt parent path.length rootIno path
  else do
    idup cwd
    namexLoop fmt parent path.length cwd path

def namei (cwd : ℕ) (path : Path) : KernelM P (Option ℕ) := do
  let r ← namex fmt cwd false path
  pure (r.map Prod.fst)

def nameiparent (cwd : ℕ) (path : Path) : KernelM P (Option (ℕ × Name)) :=
  namex fmt cwd true path

end Paths

end Xv6.Tree

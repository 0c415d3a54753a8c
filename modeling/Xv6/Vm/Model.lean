import Mathlib.Algebra.Ring.Nat
import Mathlib.Data.List.FinRange
import Xv6.Library.ByteBlock
import Xv6.Library.Routine

/-!
# Physical frames and page tables

`kalloc.c` and `vm.c`. Physical memory is a function from frame numbers to pages of bytes,
and page directories and tables are read from it and stored into it as the source does. A
pointer to a frame is its number; `kmem.freelist` is the list of the frames that are linked
by it, which are filled with junk. `kalloc` fails when the list is empty, and `refuse` says
at which other calls it does.

The addresses `data` and `end` come from the linker, with what `kernel.ld` and the boot code
make sure of. A loop is given a number of rounds that is enough for it. What does not return
is a panic or the use of a null pointer.
-/

namespace Xv6.Vm

open Routine

abbrev pgSize : ℕ := 4096

abbrev nPdEntries : ℕ := 1024

def extMem : BitVec 32 := 0x100000

def physTop : BitVec 32 := 0xE000000

def devSpace : BitVec 32 := 0xFE000000

def kernBase : BitVec 32 := 0x80000000

def kernLink : BitVec 32 := kernBase + extMem

def v2p (a : BitVec 32) : BitVec 32 := a - kernBase

def p2v (a : BitVec 32) : BitVec 32 := a + kernBase

/-- The addresses that the linker gives: the section `data` starts on a page after the text,
and the kernel ends inside of the first 4 MB. -/
structure Link where
  data : BitVec 32
  kernelEnd : BitVec 32
  aligned : data.toNat % pgSize = 0
  text : kernLink < data
  ordered : data ≤ kernelEnd
  small : kernelEnd < p2v 0x400000

def pteP : BitVec 32 := 0x001

def pteW : BitVec 32 := 0x002

def pteU : BitVec 32 := 0x004

def present (pte : BitVec 32) : Bool := pte.getLsbD 0

def user (pte : BitVec 32) : Bool := pte.getLsbD 2

def pteFrame (pte : BitVec 32) : ℕ := pte.toNat / pgSize

def pteFlags (pte : BitVec 32) : BitVec 32 := pte &&& 0xFFF

def frameAddr (f : ℕ) : BitVec 32 := BitVec.ofNat 32 (pgSize * f)

def pdx (va : BitVec 32) : Fin nPdEntries := ⟨va.toNat / 2 ^ 22 % 1024, Nat.mod_lt _ (by decide)⟩

def ptx (va : BitVec 32) : Fin nPdEntries := ⟨va.toNat / 2 ^ 12 % 1024, Nat.mod_lt _ (by decide)⟩

def pgRoundDown (a : BitVec 32) : BitVec 32 := a &&& ~~~(0xFFF : BitVec 32)

def pgRoundUp (sz : BitVec 32) : BitVec 32 := (sz + 0xFFF) &&& ~~~(0xFFF : BitVec 32)

def pgAddr (d : ℕ) : BitVec 32 := BitVec.ofNat 32 d <<< 22

/-- Physical memory, `kmem.freelist`, the calls of `kalloc` that fail with memory left, and
the number of calls so far. -/
structure Mem where
  page : ℕ → ByteBlock pgSize
  freelist : List ℕ
  refuse : ℕ → Bool
  calls : ℕ

/-- Why a function does not return. -/
inductive Panic where
  /-- `"kfree"`. -/
  | kfree
  /-- `"remap"`. -/
  | remap
  /-- `"PHYSTOP too high"`. -/
  | phystop
  /-- `"loaduvm: addr must be page aligned"`. -/
  | loadAligned
  /-- `"loaduvm: address should exist"`. -/
  | loadExist
  /-- `"clearpteu"`. -/
  | clearpteu
  /-- `"copyuvm: pte should exist"`. -/
  | copyExist
  /-- `"copyuvm: page not present"`. -/
  | copyPresent
  /-- `uva2ka` reads the entry at a null pointer. The code goes on with what the process has at
  its address 0. -/
  | nullPte
  /-- A pointer to a page is used that is null. -/
  | nullFrame
  /-- A loop has run out of rounds. -/
  | endless
  deriving DecidableEq

abbrev VmM := Routine Panic Mem

def Mem.setPage (m : Mem) (f : ℕ) (b : ByteBlock pgSize) : Mem :=
  { m with page := Function.update m.page f b }

def Mem.pte (m : Mem) (f : ℕ) (i : Fin nPdEntries) : BitVec 32 := (m.page f).u32At (4 * i)

def Mem.setPte (m : Mem) (f : ℕ) (i : Fin nPdEntries) (pte : BitVec 32) : Mem :=
  m.setPage f ((m.page f).setU32 (4 * i) pte)

def readPte (f : ℕ) (i : Fin nPdEntries) : VmM (BitVec 32) := look fun m => m.pte f i

def writePte (f : ℕ) (i : Fin nPdEntries) (pte : BitVec 32) : VmM Unit :=
  update fun m => m.setPte f i pte

def fill (f : ℕ) (byte : BitVec 8) : VmM Unit := update fun m => m.setPage f fun _ => byte

def Mem.storeBytes (m : Mem) (f off : ℕ) (bytes : List (BitVec 8)) : Mem :=
  m.setPage f ((m.page f).store off bytes.length fun i => bytes.getD i 0)

section Allocator

variable (lk : Link)

def Link.Managed (f : ℕ) : Prop :=
  lk.kernelEnd.toNat ≤ kernBase.toNat + pgSize * f ∧ pgSize * f < physTop.toNat

instance (f : ℕ) : Decidable (lk.Managed f) := inferInstanceAs (Decidable (_ ∧ _))

def Mem.free (m : Mem) (f : ℕ) : Mem :=
  { m.setPage f (fun _ => 1) with freelist := f :: m.freelist }

def kfree (f : ℕ) : VmM Unit :=
  if lk.Managed f then update fun m => m.free f else stop .kfree

def kalloc : VmM (Option ℕ) := do
  let refused ← look fun m => m.refuse m.calls
  update fun m => { m with calls := m.calls + 1 }
  match ← look Mem.freelist with
  | [] => pure none
  | r :: next =>
    if refused = true then
      pure none
    else do
      update fun m => { m with freelist := next }
      pure (some r)

end Allocator

section Tables

variable (lk : Link)

/-- `walkpgdir`: the frame and the index of the entry. -/
def walkpgdir (pgdir : ℕ) (va : BitVec 32) (alloc : Bool) :
    VmM (Option (ℕ × Fin nPdEntries)) := do
  let pde ← readPte pgdir (pdx va)
  if present pde = true then
    pure (some (pteFrame pde, ptx va))
  else if alloc = false then
    pure none
  else
    match ← kalloc with
    | none => pure none
    | some pgtab => do
        fill pgtab 0
        writePte pgdir (pdx va) (frameAddr pgtab ||| pteP ||| pteW ||| pteU)
        pure (some (pgtab, ptx va))

/-- One round of `mappages`; `false` if there is no entry. -/
def mapPage (pgdir : ℕ) (a pte : BitVec 32) : VmM Bool := do
  match ← walkpgdir pgdir a true with
  | none => pure false
  | some (t, j) => do
      let old ← readPte t j
      if present old = true then
        stop .remap
      else do
        writePte t j pte
        pure true

def mapLoop (pgdir : ℕ) (last perm : BitVec 32) : ℕ → BitVec 32 → BitVec 32 → VmM ℤ
  | 0, _, _ => stop .endless
  | n + 1, a, pa => do
      let mapped ← mapPage pgdir a (pa ||| perm ||| pteP)
      if mapped = false then
        pure (-1)
      else if a = last then
        pure 0
      else
        mapLoop pgdir last perm n (a + 4096) (pa + 4096)

def mappages (pgdir : ℕ) (va size pa perm : BitVec 32) : VmM ℤ :=
  let a := pgRoundDown va
  let last := pgRoundDown (va + size - 1)
  mapLoop pgdir last perm ((last - a).toNat / pgSize + 1) a pa

/-- The loop of `deallocuvm`. Without a table it goes on at the first page of the next
one. -/
def deallocLoop (pgdir : ℕ) (oldsz : BitVec 32) : ℕ → BitVec 32 → VmM Unit
  | 0, a => if a < oldsz then stop .endless else pure ()
  | n + 1, a =>
    if a < oldsz then do
      match ← walkpgdir pgdir a false with
      | none => deallocLoop pgdir oldsz n (pgAddr (pdx a + 1) - 4096 + 4096)
      | some (t, j) => do
          let pte ← readPte t j
          if present pte = true then do
            if pteFrame pte = 0 then
              stop .kfree
            else do
              kfree lk (pteFrame pte)
              writePte t j 0
              deallocLoop pgdir oldsz n (a + 4096)
          else
            deallocLoop pgdir oldsz n (a + 4096)
    else
      pure ()

def deallocuvm (pgdir : ℕ) (oldsz newsz : BitVec 32) : VmM (BitVec 32) :=
  if oldsz ≤ newsz then
    pure oldsz
  else do
    deallocLoop lk pgdir oldsz (oldsz.toNat / pgSize + 1) (pgRoundUp newsz)
    pure newsz

def allocLoop (pgdir : ℕ) (oldsz newsz : BitVec 32) : ℕ → BitVec 32 → VmM (BitVec 32)
  | 0, a => if a < newsz then stop .endless else pure newsz
  | n + 1, a =>
    if a < newsz then do
      match ← kalloc with
      | none => do
          let _ ← deallocuvm lk pgdir newsz oldsz
          pure 0
      | some mem => do
          fill mem 0
          let r ← mappages pgdir a 4096 (frameAddr mem) (pteW ||| pteU)
          if r < 0 then do
            let _ ← deallocuvm lk pgdir newsz oldsz
            kfree lk mem
            pure 0
          else
            allocLoop pgdir oldsz newsz n (a + 4096)
    else
      pure newsz

def allocuvm (pgdir : ℕ) (oldsz newsz : BitVec 32) : VmM (BitVec 32) :=
  if kernBase ≤ newsz then
    pure 0
  else if newsz < oldsz then
    pure oldsz
  else
    allocLoop lk pgdir oldsz newsz (newsz.toNat / pgSize + 1) (pgRoundUp oldsz)

@[irreducible] def indices (n : ℕ) : List (Fin n) := List.finRange n

def freeTables (pgdir : ℕ) : VmM Unit :=
  forEach (fun i => do
    let pde ← readPte pgdir i
    if present pde = true then kfree lk (pteFrame pde) else pure ()) (indices nPdEntries)

def freevm (pgdir : ℕ) : VmM Unit := do
  let _ ← deallocuvm lk pgdir kernBase 0
  freeTables lk pgdir
  kfree lk pgdir

structure KMap where
  virt : BitVec 32
  physStart : BitVec 32
  physEnd : BitVec 32
  perm : BitVec 32

def kmap : List KMap :=
  [⟨kernBase, 0, extMem, pteW⟩, ⟨kernLink, v2p kernLink, v2p lk.data, 0⟩,
    ⟨lk.data, v2p lk.data, physTop, pteW⟩,
    ⟨devSpace, devSpace, 0, pteW⟩]

def mapKernel (pgdir : ℕ) : List KMap → VmM Bool
  | [] => pure true
  | k :: ks => do
      let r ← mappages pgdir k.virt (k.physEnd - k.physStart) k.physStart k.perm
      if r < 0 then pure false else mapKernel pgdir ks

def setupkvm : VmM (Option ℕ) := do
  match ← kalloc with
  | none => pure none
  | some pgdir => do
      fill pgdir 0
      if devSpace < p2v physTop then
        stop .phystop
      else do
        let mapped ← mapKernel pgdir (kmap lk)
        if mapped = true then
          pure (some pgdir)
        else do
          freevm lk pgdir
          pure none

def clearpteu (pgdir : ℕ) (uva : BitVec 32) : VmM Unit := do
  match ← walkpgdir pgdir uva false with
  | none => stop .clearpteu
  | some (t, j) => do
      let pte ← readPte t j
      writePte t j (pte &&& ~~~pteU)

def copyLoop (pgdir d : ℕ) (sz : BitVec 32) : ℕ → BitVec 32 → VmM (Option ℕ)
  | 0, i => if i < sz then stop .endless else pure (some d)
  | n + 1, i =>
    if i < sz then do
      match ← walkpgdir pgdir i false with
      | none => stop .copyExist
      | some (t, j) => do
          let pte ← readPte t j
          if present pte = false then
            stop .copyPresent
          else do
            match ← kalloc with
            | none => do
                freevm lk d
                pure none
            | some mem => do
                update fun m => m.setPage mem (m.page (pteFrame pte))
                let r ← mappages d i 4096 (frameAddr mem) (pteFlags pte)
                if r < 0 then do
                  kfree lk mem
                  freevm lk d
                  pure none
                else
                  copyLoop pgdir d sz n (i + 4096)
    else
      pure (some d)

def copyuvm (pgdir : ℕ) (sz : BitVec 32) : VmM (Option ℕ) := do
  match ← setupkvm lk with
  | none => pure none
  | some d => copyLoop lk pgdir d sz (sz.toNat / pgSize + 1) 0

end Tables

/-- `readi` on an inode with the given bytes: what it returns, and what it stores. -/
def readi (file : List (BitVec 8)) (off n : BitVec 32) : ℤ × List (BitVec 8) :=
  if file.length < off.toNat ∨ off + n < off then
    (-1, [])
  else
    let n := if file.length < (off + n).toNat then file.length - off.toNat else n.toNat
    (n, (file.drop off.toNat).take n)

def loadLoop (pgdir : ℕ) (addr : BitVec 32) (file : List (BitVec 8)) (offset sz : BitVec 32) :
    ℕ → BitVec 32 → VmM ℤ
  | 0, i => if i < sz then stop .endless else pure 0
  | k + 1, i =>
    if i < sz then do
      match ← walkpgdir pgdir (addr + i) false with
      | none => stop .loadExist
      | some (t, j) => do
          let pte ← readPte t j
          let n := if sz - i < 4096 then sz - i else 4096
          let r := readi file (offset + i) n
          update fun m => m.storeBytes (pteFrame pte) 0 r.2
          if r.1 ≠ n.toNat then
            pure (-1)
          else
            loadLoop pgdir addr file offset sz k (i + 4096)
    else
      pure 0

def loaduvm (pgdir : ℕ) (addr : BitVec 32) (file : List (BitVec 8)) (offset sz : BitVec 32) :
    VmM ℤ :=
  if addr.toNat % pgSize ≠ 0 then
    stop .loadAligned
  else
    loadLoop pgdir addr file offset sz (sz.toNat / pgSize + 1) 0

/-- `uva2ka`: the frame that is returned. -/
def uva2ka (pgdir : ℕ) (uva : BitVec 32) : VmM (Option ℕ) := do
  match ← walkpgdir pgdir uva false with
  | none => stop .nullPte
  | some (t, j) => do
      let pte ← readPte t j
      if present pte = false then
        pure none
      else if user pte = false then
        pure none
      else
        pure (some (pteFrame pte))

def copyoutLoop (pgdir : ℕ) : ℕ → BitVec 32 → List (BitVec 8) → VmM ℤ
  | _, _, [] => pure 0
  | 0, _, _ :: _ => stop .endless
  | k + 1, va, b :: buf => do
      let va0 := pgRoundDown va
      match ← uva2ka pgdir va0 with
      | none => pure (-1)
      | some pa0 => do
          let n := min (pgSize - (va - va0).toNat) (b :: buf).length
          update fun m => m.storeBytes pa0 (va - va0).toNat ((b :: buf).take n)
          copyoutLoop pgdir k (va0 + 4096) ((b :: buf).drop n)

def copyout (pgdir : ℕ) (va : BitVec 32) (buf : List (BitVec 8)) : VmM ℤ :=
  copyoutLoop pgdir buf.length va buf

end Xv6.Vm

import Xv6.FileSystem.Model

/-!
# What a write logs

The routines of `writei` once more, with the blocks that they pass to `log_write`. Without this
log they are the routines of `FileSystem/Model.lean`, so what is proved of them is proved of both.
-/

namespace Xv6.FileSystem

open ByteBlock Routine

/-- A volume, and the blocks that have been passed to `log_write`. -/
structure Journal where
  vol : Volume
  logged : List ℕ

namespace Journal

section Routines

variable (sb : Superblock)

def see {α : Type} (f : Volume → α) : Routine Panic Journal α := look fun j => f j.vol

def setInode (ip : Slot) (f : Inode → Inode) : Routine Panic Journal Unit :=
  update fun j => { j with vol := j.vol.modifyInode ip f }

def logWrite (b : ℕ) (f : Block → Block) : Routine Panic Journal Unit :=
  update fun j => ⟨j.vol.modifyBlock b f, b :: j.logged⟩

def bzero (b : ℕ) : Routine Panic Journal Unit := logWrite b fun _ => fun _ => 0

def ballocFrom : ℕ → ℕ → Routine Panic Journal ℕ
  | _, 0 => stop .outOfBlocks
  | b, n + 1 => do
      let d ← see fun v => v.block (sb.bblock b)
      match freeBit d (min bpb (sb.size - b)) with
      | some bi =>
        logWrite (sb.bblock b) fun d => setBit d bi
        bzero (b + bi)
        pure (b + bi)
      | none => ballocFrom (b + bpb) n

def balloc : Routine Panic Journal ℕ := ballocFrom sb 0 ((sb.size + bpb - 1) / bpb)

def addrOrAlloc (ip : Slot) (i : Fin (nDirect + 1)) : Routine Panic Journal ℕ := do
  let addr ← see fun v => (v.inode ip).addrs i
  if addr = 0 then
    let b ← balloc sb
    setInode ip fun x => x.setAddr i (BitVec.ofNat 32 b)
    pure b
  else
    pure addr.toNat

def entryOrAlloc (addr j : ℕ) : Routine Panic Journal ℕ := do
  let a ← see fun v => wordAt (v.block addr) j
  if a = 0 then
    let b ← balloc sb
    logWrite addr fun d => setWord d j (BitVec.ofNat 32 b)
    pure b
  else
    pure a.toNat

def bmap (ip : Slot) (bn : ℕ) : Routine Panic Journal ℕ :=
  if bn < nDirect then
    addrOrAlloc sb ip (slotOf bn)
  else if bn - nDirect < nIndirect then do
    let addr ← addrOrAlloc sb ip indirectSlot
    entryOrAlloc sb addr (bn - nDirect)
  else
    stop .bmapOutOfRange

def iupdate (ip : Slot) : Routine Panic Journal Unit := do
  let x ← see fun v => v.inode ip
  logWrite (sb.iblock x.inum) fun d => setDinode d (x.inum % ipb) x.toDinode

def writeLoop (ip : Slot) (src : ℕ → BitVec 8) (n : ℕ) : ℕ → ℕ → ℕ → Routine Panic Journal ℕ
  | 0, _, off => pure off
  | rounds + 1, tot, off =>
    if tot < n then do
      let b ← bmap sb ip (off / bSize)
      let m := min (n - tot) (bSize - off % bSize)
      logWrite b fun d => store d (off % bSize) m fun i => src (tot + i)
      writeLoop ip src n rounds (tot + m) (off + m)
    else
      pure off

def writei (devsw : Devices) (ip : Slot) (src : ℕ → BitVec 8) (off n : BitVec 32) :
    Routine Panic Journal ℤ := do
  let x ← see fun v => v.inode ip
  if x.type = tDev then
    if badMajor x.major then
      pure (-1)
    else
      match devsw.write x.major.toNat with
      | none => pure (-1)
      | some write => pure (write src n.toNat)
  else if x.size < off ∨ off + n < off then
    pure (-1)
  else if BitVec.ofNat 32 (maxFile * bSize) < off + n then
    pure (-1)
  else
    let stop ← writeLoop sb ip src n.toNat n.toNat 0 off.toNat
    if 0 < n ∧ x.size.toNat < stop then
      setInode ip fun x => { x with size := BitVec.ofNat 32 stop }
      iupdate sb ip
    else
      pure ()
    pure n.toNat

end Routines

section Erasure

variable {sb : Superblock} {ip : Slot}

abbrev Erases {α : Type} (y : Routine Panic Journal α) (x : VolumeM α) : Prop :=
  Simulates vol y x

theorem ballocFrom_erases (n : ℕ) :
    ∀ b, Erases (ballocFrom sb b n) (FileSystem.ballocFrom sb b n) := by
  induction n with
  | zero => exact fun _ _ => rfl
  | succ n ih =>
    intro b
    refine .bind (fun _ => rfl) fun d => ?_
    cases freeBit d (min bpb (sb.size - b)) with
    | some bi => exact fun _ => rfl
    | none => exact ih (b + bpb)

theorem balloc_erases : Erases (balloc sb) (FileSystem.balloc sb) := ballocFrom_erases _ 0

theorem addrOrAlloc_erases (i : Fin (nDirect + 1)) :
    Erases (addrOrAlloc sb ip i) (FileSystem.addrOrAlloc sb ip i) :=
  .bind (fun _ => rfl) fun _ => .ite (.bind balloc_erases fun _ _ => rfl) fun _ => rfl

theorem entryOrAlloc_erases (addr k : ℕ) :
    Erases (entryOrAlloc sb addr k) (FileSystem.entryOrAlloc sb addr k) :=
  .bind (fun _ => rfl) fun _ => .ite (.bind balloc_erases fun _ _ => rfl) fun _ => rfl

theorem bmap_erases (bn : ℕ) : Erases (bmap sb ip bn) (FileSystem.bmap sb ip bn) :=
  .ite (addrOrAlloc_erases _) (.ite (.bind (addrOrAlloc_erases _) fun _ => entryOrAlloc_erases _ _)
    fun _ => rfl)

theorem writeLoop_erases (src : ℕ → BitVec 8) (n rounds : ℕ) :
    ∀ tot off, Erases (writeLoop sb ip src n rounds tot off)
      (FileSystem.writeLoop sb ip src n rounds tot off) := by
  induction rounds with
  | zero => exact fun _ _ _ => rfl
  | succ rounds ih =>
    intro tot off
    exact .ite (.bind (bmap_erases _) fun b => .bind (fun _ => rfl) fun _ => ih _ _) fun _ => rfl

theorem writei_erases (devsw : Devices) (src : ℕ → BitVec 8) (off n : BitVec 32) :
    Erases (writei sb devsw ip src off n) (FileSystem.writei sb devsw ip src off n) := by
  refine .bind (fun _ => rfl) fun x => .ite (.ite (fun _ => rfl) ?_) (.ite (fun _ => rfl)
    (.ite (fun _ => rfl) (.bind (writeLoop_erases _ _ _ _ _) fun stop => .ite (fun _ => rfl)
      fun _ => rfl)))
  cases devsw.write x.major.toNat <;> exact fun _ => rfl

end Erasure

end Journal

end Xv6.FileSystem

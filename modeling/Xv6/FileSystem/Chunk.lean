import Mathlib.Order.Interval.Finset.Nat
import Xv6.FileSystem.Blocks

/-!
# The log reservation of a write

`filewrite` cuts a long write into chunks and runs `writei` on each of them as an operation of its
own, for which the log has reserved `MAXOPBLOCKS` blocks. A chunk of three blocks that does not
start at the beginning of a block touches four. Those of them that have to be allocated come after
the end of the file, so that they are three at most, and each needs a block of the free map. With
the indirect block, its block of the free map and the block of the inode these are ten.
-/

namespace Xv6.FileSystem

open Routine Finset

variable {sb : Superblock} {T T' : Table} {v : Volume} {ip : Slot} {j j' : Journal}

def loggable (sb : Superblock) (T : Table) (block : ℕ → Block) (i off : ℕ) : Finset ℕ :=
  let blockOf := fun bn => (blockTarget sb T block i bn).getD 0
  let indirect := (target sb T block (.addr i indirectSlot)).getD 0
  (Finset.Ico (off / bSize) (off / bSize + 4)).image blockOf ∪
    ((Finset.Ico ((off + (bSize - 1)) / bSize) ((off + (bSize - 1)) / bSize + 3)).image
      fun bn => sb.bblock (blockOf bn)) ∪ {indirect, sb.bblock indirect}

theorem card_loggable_le (sb : Superblock) (T : Table) (block : ℕ → Block) (i off : ℕ) :
    (loggable sb T block i off).card ≤ 9 := by
  have himage : ∀ k m (f : ℕ → ℕ), ((Finset.Ico k (k + m)).image f).card ≤ m := fun k m f => by
    refine card_image_le.trans ?_
    rw [Nat.card_Ico, Nat.add_sub_cancel_left]
  exact (card_union_le _ _).trans (Nat.add_le_add ((card_union_le _ _).trans
    (Nat.add_le_add (himage _ 4 _) (himage _ 3 _))) card_le_two)

/-- What is logged anew is loggable: a block that is not there lies behind the end of the file. -/
theorem Logs.mem_loggable {i off n : ℕ} (h : Logs sb i (span off (off + n)) j T j' T')
    (hnoHole : NoHole sb T j.vol.block i) (hoff : off ≤ (T i).size.toNat) (hn : n ≤ 3 * bSize)
    {c : ℕ} (hc : c ∈ j'.logged) : c ∈ j.logged ∨ c ∈ loggable sb T' j'.vol.block i off := by
  refine (h c hc).imp id ?_
  rw [loggable, mem_union, mem_union]
  rintro (⟨bn, ⟨hle, hlt⟩, b, hb, hnew⟩ | ⟨a, ha, hnew⟩)
  · rcases hnew with rfl | ⟨hnone, rfl⟩
    · refine .inl (.inl (mem_image.2 ⟨bn, mem_Ico.2 ⟨hle, ?_⟩, ?_⟩))
      · simp only [bSize] at hlt hn ⊢
        omega
      · rw [hb, Option.getD_some]
    · have hbehind : (T i).size.toNat ≤ bn * bSize := Nat.not_lt.1 fun hlt => hnoHole bn hlt hnone
      refine .inl (.inr (mem_image.2 ⟨bn, mem_Ico.2 ?_, ?_⟩))
      · simp only [bSize] at hbehind hlt hn ⊢
        omega
      · simp only [hb, Option.getD_some]
  · rw [ha, Option.getD_some, mem_insert, mem_singleton]
    exact .inr hnew

theorem Journal.writei_spec (ho : Opened sb T ip v) (hledger : Ledger sb T ∅ v.block)
    (hnoHole : (v.inode ip).type ≠ tDev → NoHole sb T v.block (v.inode ip).inum)
    (devsw : Devices) (src : ℕ → BitVec 8) (off n : BitVec 32) (hn : n.toNat ≤ 3 * bSize) :
    wp (Journal.writei sb devsw ip src off n) (fun _ j' => j'.logged.toFinset.card ≤ maxOpBlocks)
      (fun _ j' => j'.logged.toFinset.card ≤ maxOpBlocks) ⟨v, []⟩ := by
  have hnothing : ([] : List ℕ).toFinset.card ≤ maxOpBlocks := by decide
  simp only [writei, see, wp_bind, wp_look, wp_ite, wp_pure]
  refine ⟨fun _ => ⟨fun _ => hnothing, fun _ => ?_⟩, fun hdev => ⟨fun _ => hnothing, fun hrange =>
    ⟨fun _ => hnothing, fun _ => ?_⟩⟩⟩
  · cases devsw.write (v.inode ip).major.toNat <;> exact hnothing
  have hoff : off.toNat ≤ (T (v.inode ip).inum).size.toNat := by
    rw [← ho.copy]
    exact BitVec.le_def.1 (BitVec.not_lt.1 (not_or.1 hrange).1)
  have hcount : ∀ (j : Journal) T', Logs sb (v.inode ip).inum (span off.toNat
      (off.toNat + n.toNat)) ⟨v, []⟩ T j T' → j.logged.toFinset.card ≤ 9 := by
    intro j T' hlog
    refine (card_le_card fun c hc => ?_).trans
      (card_loggable_le sb T' j.vol.block (v.inode ip).inum off.toNat)
    exact (hlog.mem_loggable (hnoHole hdev) hoff hn (List.mem_toFinset.1 hc)).resolve_left
      List.not_mem_nil
  refine wp_mono (writeLoop_spec src (fun k => src (k - off.toNat)) n.toNat n.toNat 0 off.toNat _ T
    ho hledger (Nat.zero_le _) (Nat.le_refl _) fun i => ?_) ?_ ?_
  · rw [Nat.add_sub_cancel_left, Nat.zero_add]
  · rintro stop j₁ ⟨rfl, T₁, -, hlog, -⟩
    have hloop := hcount j₁ T₁ hlog
    refine ⟨fun _ => ?_, fun _ => Nat.le_succ_of_le hloop⟩
    simp only [iupdate, setInode, see, logWrite, wp_bind, wp_look,
      wp_update, List.toFinset_cons]
    exact (card_insert_le _ _).trans (Nat.succ_le_succ hloop)
  · rintro e j₁ ⟨-, ⟨T₁, -, hlog⟩, -⟩
    exact Nat.le_succ_of_le (hcount j₁ T₁ hlog)

/-- The `writei` of one chunk, whether it returns or panics, calls `log_write` on no more distinct
blocks than an operation has reserved. -/
theorem writei_within_reservation (ho : Opened sb T ip v) (hledger : Ledger sb T ∅ v.block)
    (hnoHole : (v.inode ip).type ≠ tDev → NoHole sb T v.block (v.inode ip).inum) (devsw : Devices)
    (src : ℕ → BitVec 8) (off n : BitVec 32) (hn : n.toNat ≤ (maxOpBlocks - 1 - 1 - 2) / 2 * 512) :
    ∃ logged : List ℕ, Journal.writei sb devsw ip src off n ⟨v, []⟩ =
        ((writei sb devsw ip src off n v).1, ⟨(writei sb devsw ip src off n v).2, logged⟩) ∧
      logged.toFinset.card ≤ maxOpBlocks := by
  refine ⟨(Journal.writei sb devsw ip src off n ⟨v, []⟩).2.logged, ?_,
    wp_state (P := fun j : Journal => j.logged.toFinset.card ≤ maxOpBlocks)
      (Journal.writei_spec ho hledger hnoHole devsw src off n hn)⟩
  rw [Journal.writei_erases devsw src off n ⟨v, []⟩]

theorem writei_within_reservation_new :
    ∃ s, Machine.run (step tinyDisk ⟨fun _ => none, fun _ => none⟩) ⟨emptyVolume, none⟩
        [.ialloc tFile, .ilock 0] = some s ∧
      ∃ logged : List ℕ, (Journal.writei tinyDisk ⟨fun _ => none, fun _ => none⟩ 0 (fun _ => 7) 0
        1536 ⟨s.vol, []⟩).2.logged = logged ∧ logged.toFinset.card ≤ maxOpBlocks := by
  obtain ⟨s, hs, hpanicked, hlocked⟩ : ∃ s, Machine.run (step tinyDisk noDriver)
      ⟨emptyVolume, none⟩ [.ialloc tFile, .ilock 0] = some s ∧ s.panicked = none ∧
      (s.vol.inode 0).locked = true := by decide +kernel
  have hsound : Sound tinyDisk (s.vol.dinode tinyDisk) s.vol :=
    wellFormed_of_run emptyVolume_wellFormed hs hpanicked
  have ho := hsound.opened hlocked
  obtain ⟨logged, hlogged, hcard⟩ := writei_within_reservation ho hsound.ledger
    (fun hdev => hsound.noHole _ ho.inum_lt ⟨ho.type_ne, by rwa [← ho.copy]⟩)
    noDriver (fun _ => 7) 0 1536 (by decide)
  exact ⟨s, hs, logged, congrArg (fun x => x.2.logged) hlogged, hcard⟩

end Xv6.FileSystem

import Xv6.FileSystem.Dirents
import Xv6.Mkfs.Build

/-!
# Images for the kernel

What the kernel expects of an image: the inodes in use are those of the superblock, the blocks
they refer to are data blocks with one owner each and are the ones that the bitmap marks, no
inode has a hole, and no two entries of the root directory have one name.

`mkfs` exits with status 0 on inputs for which its image is not like this. It does not compare
`freeinode` with `NINODES`. When the entries of the root directory fill its last block, the size
is rounded up by a block that is not there. And the names are cut to `DIRSIZ` bytes, after a
leading `_` has been dropped, without a look at the entries before. These are all the ways:
`mkfs_wellFormed_iff`.
-/

namespace Xv6.Mkfs

open ByteBlock Routine FileSystem List Nat

variable {files : List File} {m : State}

variable {T : Table} {k : ℕ} {de : Dirent} {e : ℕ × List (BitVec 8)}

def State.rootEntry (m : State) (k : ℕ) : Option Dirent :=
  let T := (boot m.sector).dinode sb
  if direntSize * k < (T rootIno).size.toNat then
    (blockTarget sb T m.sector rootIno (direntSize * k / bSize)).map fun b =>
      Dirent.decode ((List.range direntSize).map fun i =>
        byteAt (m.sector b) (direntSize * k % bSize + i))
  else
    none

/-- An image that is well formed for the kernel. The inodes in use are those below
`freeinode`. -/
structure WellFormed (m : State) : Prop where
  super : m.sector 1 = superBlock
  inodes : ∀ inum, 1 ≤ inum → inum < m.freeinode → inum < sb.ninodes
  image : Image sb m.sector
  names : ∀ k k' de de', m.rootEntry k = some de → m.rootEntry k' = some de' →
    de.inum ≠ 0 → de'.inum ≠ 0 → (∀ i < dirSiz, de.name i = de'.name i) → k = k'

/-- The files for which the image is well formed: few enough for the inodes, their entries do
not fill the last block of the directory, and their names differ where they are compared. -/
structure Conforms (files : List File) : Prop where
  inodes : files.length + 2 ≤ nInodes
  entries : direntSize * (files.length + 2) % bSize ≠ 0
  names : (dot :: dotdot :: files.map fun f => f.name.take dirSiz).Nodup

theorem strncpy_getD {name : List (BitVec 8)} (h : ∀ c ∈ name, c ≠ 0) (i : ℕ) :
    strncpy (fun j => name.getD j 0) i = name.getD i 0 := by
  unfold strncpy
  split_ifs with hnul
  · obtain ⟨j, hj, hzero⟩ := hnul
    have hle : name.length ≤ j := by
      by_contra hlt
      rw [not_le] at hlt
      have hmem := getElem_mem hlt
      rw [← getD_eq_getElem _ 0 hlt] at hmem
      exact h _ hmem hzero
    rw [getD_eq_default _ _ (by omega)]
  · rfl

/-- Names that agree in the bytes of an entry are equal up to its length. -/
theorem take_eq_take_iff {name name' : List (BitVec 8)} (h : ∀ c ∈ name, c ≠ 0)
    (h' : ∀ c ∈ name', c ≠ 0) :
    name.take dirSiz = name'.take dirSiz ↔ ∀ i < dirSiz, name.getD i 0 = name'.getD i 0 := by
  constructor
  · intro htake i hi
    have hget := congrArg (fun l => l[i]?) htake
    simp only [List.getElem?_take_of_lt hi] at hget
    rw [getD_eq_getElem?_getD, getD_eq_getElem?_getD, hget]
  · intro heq
    apply ext_getElem?
    intro i
    by_cases hi : i < dirSiz
    · have hbyte := heq i hi
      rw [List.getElem?_take_of_lt hi, List.getElem?_take_of_lt hi]
      by_cases hlt : i < name.length
      · by_cases hlt' : i < name'.length
        · rw [getD_eq_getElem _ _ hlt, getD_eq_getElem _ _ hlt'] at hbyte
          rw [List.getElem?_eq_getElem hlt, List.getElem?_eq_getElem hlt', hbyte]
        · rw [getD_eq_getElem _ _ hlt, getD_eq_default _ _ (Nat.le_of_not_lt hlt')] at hbyte
          exact absurd hbyte (h _ (getElem_mem hlt))
      · by_cases hlt' : i < name'.length
        · rw [getD_eq_getElem _ _ hlt', getD_eq_default _ _ (Nat.le_of_not_lt hlt)] at hbyte
          exact absurd hbyte.symm (h' _ (getElem_mem hlt'))
        · rw [List.getElem?_eq_none (Nat.le_of_not_lt hlt),
            List.getElem?_eq_none (Nat.le_of_not_lt hlt')]
    · rw [List.getElem?_take_eq_none (Nat.le_of_not_lt hi),
        List.getElem?_take_eq_none (Nat.le_of_not_lt hi)]

theorem File.name_noNul (f : File) : ∀ c ∈ f.name, c ≠ 0 := by
  obtain ⟨argv, hnul, chunks⟩ := f
  intro c hc
  unfold File.name at hc
  cases argv with
  | nil => cases hc
  | cons a rest =>
    dsimp only at hc
    split_ifs at hc
    · exact hnul c (mem_cons_of_mem a hc)
    · exact hnul c hc

theorem entries_mem {files : List File} (he : e ∈ entries files) :
    1 ≤ e.1 ∧ e.1 < files.length + 2 ∧ ∀ c ∈ e.2, c ≠ 0 := by
  rw [entries, mem_cons, mem_cons, mem_mapIdx] at he
  rcases he with rfl | rfl | ⟨k, hk, rfl⟩
  · exact ⟨le_refl _, lt_of_lt_of_le (by decide) (le_add_left 2 _), by decide⟩
  · exact ⟨le_refl _, lt_of_lt_of_le (by decide) (le_add_left 2 _), by decide⟩
  · exact ⟨by simp, by simpa using hk, File.name_noNul _⟩

theorem entries_names (files : List File) :
    (entries files).map (fun e => e.2.take dirSiz) =
      dot :: dotdot :: files.map fun f => f.name.take dirSiz := by
  have hdot : dot.take dirSiz = dot := by decide
  have hdotdot : dotdot.take dirSiz = dotdot := by decide
  have hfiles : (files.mapIdx fun k f => (k + 2, f.name)).map (fun e => e.2.take dirSiz) =
      files.map fun f => f.name.take dirSiz := by
    apply ext_getElem?
    intro k
    rw [List.getElem?_map, List.getElem?_mapIdx, List.getElem?_map, Option.map_map]
    rfl
  rw [entries, map_cons, map_cons, hdot, hdotdot, hfiles]

theorem getD_flatMap_dirent (l : List (ℕ × List (BitVec 8))) (k : ℕ) {i : ℕ} (hi : i < direntSize) :
    (l.flatMap fun e => dirent e.1 e.2).getD (direntSize * k + i) 0 =
      ((l[k]?.map fun e => dirent e.1 e.2).getD []).getD i 0 := by
  induction l generalizing k with
  | nil => simp
  | cons e l ih =>
    rw [flatMap_cons]
    cases k with
    | zero =>
      have hlt : i < (dirent e.1 e.2).length := (dirent_length ..).symm ▸ hi
      rw [mul_zero, zero_add, getD_append _ _ _ _ hlt]
      rfl
    | succ k =>
      have hle : (dirent e.1 e.2).length ≤ direntSize * (k + 1) + i := by
        rw [dirent_length, mul_succ]
        omega
      have hsub : direntSize * (k + 1) + i - direntSize = direntSize * k + i := by
        rw [mul_succ]
        omega
      rw [getD_append_right _ _ _ _ hle, dirent_length, hsub, ih, List.getElem?_cons_succ]

theorem Finished.dinode (h : Finished files m T) :
    Finished files m ((boot m.sector).dinode sb) := by
  have hT : ∀ i < nInodes, (boot m.sector).dinode sb i = T i := h.disk
  have haddr : ∀ i k, addrTarget sb ((boot m.sector).dinode sb) i k = addrTarget sb T i k := by
    intro i k
    unfold addrTarget
    split_ifs with hi
    · rw [hT i hi]
    · rfl
  refine ⟨h.freeinode, h.super, h.ledger.retable haddr, fun _ _ => rfl, fun i hi => ?_,
    fun i hi hne => ?_, ?_, h.types.congr fun i hi => congrArg Dinode.type (hT i hi)⟩
  · exact (h.stored i hi).congr
      (blockTarget_of_target (target_congr haddr fun _ _ _ => rfl) i) fun _ _ _ => rfl
  · rw [hT i hi, h.size i hi hne]
  · rw [hT rootIno (by decide), h.rootSize]

theorem Finished.rootEntry_eq_some (h : Finished files m T) (hde : m.rootEntry k = some de) :
    de = Dirent.decode ((List.range direntSize).map fun i =>
      (rootData files).getD (direntSize * k + i) 0) := by
  rw [State.rootEntry, Option.ite_none_right_eq_some, Option.map_eq_some_iff] at hde
  obtain ⟨-, b, hb, rfl⟩ := hde
  congr 1
  apply map_congr_left
  intro i hi
  rw [mem_range] at hi
  have hin : direntSize * k % bSize + i < bSize := by
    simp only [direntSize, dirSiz, bSize] at hi ⊢
    omega
  have hoff : direntSize * k / bSize * bSize + (direntSize * k % bSize + i) =
      direntSize * k + i := by
    rw [← add_assoc, div_add_mod']
  rw [(h.dinode.stored rootIno (by decide)).bytes _ b hb _ hin, hoff, contents_root]

theorem Finished.rootEntry_isSome (h : Finished files m T)
    (hk : k < files.length + 2) : ∃ de, m.rootEntry k = some de := by
  have hdisk := h.dinode
  have hlen := rootData_length files
  have hsize : direntSize * k < ((boot m.sector).dinode sb rootIno).size.toNat := by
    rw [hdisk.rootSize, hlen]
    simp only [direntSize, dirSiz, bSize]
    omega
  have hblock : direntSize * k / bSize < blocksFor (rootData files) := by
    rw [blocksFor, hlen]
    simp only [direntSize, dirSiz, bSize]
    omega
  have hsome := ((hdisk.stored rootIno (by decide)).blocks _).2 hblock
  obtain ⟨b, hb⟩ := Option.ne_none_iff_exists'.1 hsome
  rw [State.rootEntry, if_pos hsize, hb]
  exact ⟨_, rfl⟩

section

variable (h : Finished files m T) (hde : m.rootEntry k = some de)
include h hde

theorem Finished.rootEntry_of_lt (he : (entries files)[k]? = some e) :
    de.inum = BitVec.ofNat 16 e.1 ∧ ∀ i < dirSiz, de.name i = e.2.getD i 0 := by
  have hmem : e ∈ entries files := mem_of_getElem? he
  have hbytes : ((List.range direntSize).map fun i =>
      (rootData files).getD (direntSize * k + i) 0) = dirent e.1 e.2 := by
    apply ext_getElem
    · rw [length_map, length_range, dirent_length]
    · intro i hi hi'
      rw [getElem_map, getElem_range, rootData, getD_flatMap_dirent _ _ hi, he,
        Option.map_some, Option.getD_some, getD_eq_getElem _ _ hi']
  obtain rfl := h.rootEntry_eq_some hde
  rw [hbytes, dirent]
  refine ⟨decode_inum _, fun i hi => ?_⟩
  rw [decode_name _ hi]
  exact strncpy_getD (entries_mem hmem).2.2 i

theorem Finished.rootEntry_of_ge (hk : files.length + 2 ≤ k) : de.inum = 0 := by
  have hzero : ∀ i, (rootData files).getD (direntSize * k + i) 0 = 0 := by
    intro i
    apply getD_eq_default
    rw [rootData_length]
    exact le_trans (mul_le_mul_left _ hk) (le_add_right _ _)
  rw [h.rootEntry_eq_some hde]
  simp only [hzero]
  rfl

theorem Finished.lt_of_live (hlive : de.inum ≠ 0) : k < (entries files).length := by
  rw [entries_length]
  by_contra hk
  exact hlive (h.rootEntry_of_ge hde (Nat.le_of_not_lt hk))

end

theorem Finished.live (h : Finished files m T) (hn : files.length + 2 ≤ nInodes)
    (hk : k < (entries files).length) :
    ∃ de, m.rootEntry k = some de ∧ de.inum ≠ 0 ∧
      ∀ i < dirSiz, de.name i = (entries files)[k].2.getD i 0 := by
  obtain ⟨de, hde⟩ := h.rootEntry_isSome (entries_length files ▸ hk)
  obtain ⟨hinum, hname⟩ := h.rootEntry_of_lt hde (List.getElem?_eq_getElem hk)
  obtain ⟨hpos, hlt, -⟩ := entries_mem (getElem_mem hk)
  refine ⟨de, hde, fun hzero => ?_, hname⟩
  have hnat := congrArg BitVec.toNat (hinum.symm.trans hzero)
  rw [BitVec.toNat_ofNat, mod_eq_of_lt] at hnat
  · exact ne_of_gt hpos hnat
  · simp only [nInodes] at hn
    omega

/-- Two entries with one name are two places of the list with one name. -/
theorem Finished.names_iff (h : Finished files m T) (hn : files.length + 2 ≤ nInodes) :
    (∀ k k' de de', m.rootEntry k = some de → m.rootEntry k' = some de' →
      de.inum ≠ 0 → de'.inum ≠ 0 → (∀ i < dirSiz, de.name i = de'.name i) → k = k') ↔
      (dot :: dotdot :: files.map fun f => f.name.take dirSiz).Nodup := by
  have hnul : ∀ {k} (hk : k < (entries files).length), ∀ c ∈ (entries files)[k].2, c ≠ 0 :=
    fun hk => (entries_mem (getElem_mem hk)).2.2
  rw [← entries_names]
  constructor
  · intro hnames
    rw [nodup_iff_injective_getElem]
    intro a b hab
    have ha : a.val < (entries files).length := by simpa using a.isLt
    have hb : b.val < (entries files).length := by simpa using b.isLt
    simp only [getElem_map] at hab
    obtain ⟨de, hde, hlive, hname⟩ := h.live hn ha
    obtain ⟨de', hde', hlive', hname'⟩ := h.live hn hb
    apply Fin.ext
    refine hnames a b de de' hde hde' hlive hlive' fun i hi => ?_
    rw [hname i hi, hname' i hi]
    exact (take_eq_take_iff (hnul ha) (hnul hb)).1 hab i hi
  · intro hnodup k k' de de' hde hde' hlive hlive' hsame
    have hk := h.lt_of_live hde hlive
    have hk' := h.lt_of_live hde' hlive'
    have hname := (h.rootEntry_of_lt hde (List.getElem?_eq_getElem hk)).2
    have hname' := (h.rootEntry_of_lt hde' (List.getElem?_eq_getElem hk')).2
    have htake : (entries files)[k].2.take dirSiz = (entries files)[k'].2.take dirSiz := by
      rw [take_eq_take_iff (hnul hk) (hnul hk')]
      intro i hi
      rw [← hname i hi, ← hname' i hi, hsame i hi]
    rw [← length_map fun e : ℕ × List (BitVec 8) => e.2.take dirSiz] at hk hk'
    have heq : (⟨k, hk⟩ : Fin _) = ⟨k', hk'⟩ := by
      refine nodup_iff_injective_getElem.1 hnodup ?_
      simp only [getElem_map]
      exact htake
    exact congrArg Fin.val heq

theorem Finished.noHole (h : Finished files m T) {i : ℕ} (hi : i < nInodes)
    (hne : i ≠ rootIno) : NoHole sb T m.sector i := by
  intro bn hbn
  rw [h.size i hi hne] at hbn
  refine ((h.stored i hi).blocks bn).2 ?_
  rw [blocksFor]
  simp only [bSize] at hbn ⊢
  omega

theorem Finished.noHole_root_iff (h : Finished files m T) :
    NoHole sb T m.sector rootIno ↔ direntSize * (files.length + 2) % bSize ≠ 0 := by
  have hblocks := (h.stored rootIno (by decide)).blocks
  rw [contents_root, blocksFor] at hblocks
  rw [← rootData_length]
  constructor
  · intro hnoHole hfull
    have hlast := hnoHole ((rootData files).length / bSize) (by rw [h.rootSize]; simp)
    rw [hblocks] at hlast
    simp only [bSize] at hlast hfull
    omega
  · intro hpart bn hbn
    rw [h.rootSize] at hbn
    rw [hblocks]
    simp only [bSize] at hbn hpart ⊢
    omega

theorem Finished.image_iff (h : Finished files m T) :
    Image sb m.sector ↔ direntSize * (files.length + 2) % bSize ≠ 0 := by
  have hdisk := h.dinode
  rw [← hdisk.noHole_root_iff]
  constructor
  · intro himage
    refine himage.noHole rootIno (show rootIno < nInodes by decide) ?_
    rw [Dinode.hasContents, hdisk.types.root]
    decide
  · intro hroot
    refine ⟨hdisk.ledger.blocksOwned, fun i hi _ => ?_⟩
    by_cases hi' : i = rootIno
    · rw [hi']
      exact hroot
    · exact hdisk.noHole hi hi'

/-- The image of a run that exits with status 0 is well formed exactly for the files that
conform. -/
theorem mkfs_wellFormed_iff (hexit : main files start = (.ok (), m)) :
    WellFormed m ↔ Conforms files := by
  have hinode := wp_ok (main_freeinode files) hexit
  constructor
  · intro h
    have hn : files.length + 2 ≤ nInodes := h.inodes (files.length + 1) (by omega) (by omega)
    obtain ⟨T, hT⟩ := wp_ok (main_spec hn) hexit
    exact ⟨hn, hT.image_iff.1 h.image, (hT.names_iff hn).1 h.names⟩
  · intro h
    obtain ⟨T, hT⟩ := wp_ok (main_spec h.inodes) hexit
    refine ⟨hT.super, fun inum _ hlt => ?_, hT.image_iff.2 h.entries,
      (hT.names_iff h.inodes).2 h.names⟩
    rw [hT.freeinode] at hlt
    exact lt_of_lt_of_le hlt h.inodes

theorem main_returns (hn : files.length + 2 ≤ nInodes) (hcap : Capacity files) :
    ∃ m, main files start = (.ok (), m) := by
  obtain ⟨_, m, hm, _⟩ := wp_returns (main_spec hn) fun _ _ hfull => hfull hcap
  exact ⟨m, hm⟩

def catFile : File where
  argv := [0x5f, 0x63, 0x61, 0x74]
  noNul := by decide
  chunks := some [⟨[1, 2, 3], by decide, by decide⟩]

theorem mkfs_wellFormed_iff_catFile : ∃ m, main [catFile] start = (.ok (), m) ∧ WellFormed m := by
  have hcap : Capacity [catFile] := by
    refine ⟨?_, ?_, ?_, by decide⟩ <;> simp only [forall_mem_singleton] <;> decide
  obtain ⟨m, hm⟩ := main_returns (by decide) hcap
  exact ⟨m, hm, (mkfs_wellFormed_iff hm).2 ⟨by decide, by decide, by decide⟩⟩

def emptyFile (i : Fin 30) : File where
  argv := [BitVec.ofNat 8 (0x61 + i)]
  noNul := by
    intro c hc hzero
    rw [List.mem_singleton.1 hc, ← BitVec.toNat_inj, BitVec.toNat_ofNat] at hzero
    have hi := i.isLt
    simp only [BitVec.ofNat_eq_ofNat, BitVec.toNat_zero] at hzero
    omega
  chunks := some []

/-- Thirty empty files, which make the entries of the root directory fill one block. -/
def thirtyFiles : List File := (List.finRange 30).map emptyFile

theorem thirtyFiles_capacity : Capacity thirtyFiles where
  slash := by
    decide
  opens := by
    rw [thirtyFiles, forall_mem_map]
    exact fun i _ => Option.some_ne_none []
  short := by
    rw [thirtyFiles, forall_mem_map]
    exact fun i _ => zero_le _
  blocks := by
    rw [usedBlocks, rootData_length]
    decide

/-- `mkfs` exits with status 0, and the root directory has a hole. -/
theorem thirtyFiles_not_wellFormed :
    ∃ m, main thirtyFiles start = (.ok (), m) ∧ ¬ WellFormed m := by
  have hn : thirtyFiles.length + 2 ≤ nInodes := by decide
  obtain ⟨m, hm⟩ := main_returns hn thirtyFiles_capacity
  obtain ⟨T, hT⟩ := wp_ok (main_spec hn) hm
  exact ⟨m, hm, fun h => hT.image_iff.1 h.image (by decide)⟩

end Xv6.Mkfs

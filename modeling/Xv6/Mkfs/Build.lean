import Xv6.Mkfs.Append

/-!
# The files of the image

`contents files` is what the image is to hold: the root directory with an entry for each file,
and the files, numbered in the order of the arguments. `main` builds it, and it does not end
early where the files can be opened and have room.
-/

namespace Xv6.Mkfs

open ByteBlock Routine FileSystem Function List

variable {files : List File}

def File.bytes (f : File) : List (BitVec 8) := (f.chunks.getD []).flatMap Chunk.bytes

def entries (files : List File) : List (ℕ × List (BitVec 8)) :=
  (rootIno, dot) :: (rootIno, dotdot) :: files.mapIdx fun k f => (k + 2, f.name)

def rootData (files : List File) : List (BitVec 8) :=
  (entries files).flatMap fun e => dirent e.1 e.2

def contents (files : List File) : ℕ → List (BitVec 8)
  | 0 => []
  | 1 => rootData files
  | k + 2 => (files[k]?.map File.bytes).getD []

theorem contents_root (files : List File) : contents files rootIno = rootData files := rfl

theorem contents_file (files : List File) (k : ℕ) :
    contents files (k + 2) = (files[k]?.map File.bytes).getD [] := rfl

theorem dirent_length (inum : ℕ) (name : List (BitVec 8)) :
    (dirent inum name).length = direntSize := by
  rw [dirent, length_map, length_range]

theorem entries_length (files : List File) : (entries files).length = files.length + 2 := by
  rw [entries, length_cons, length_cons, length_mapIdx]

theorem length_flatMap_dirent (l : List (ℕ × List (BitVec 8))) :
    (l.flatMap fun e => dirent e.1 e.2).length = direntSize * l.length := by
  induction l with
  | nil => rfl
  | cons e l ih => rw [flatMap_cons, length_append, dirent_length, ih,
      length_cons, Nat.mul_succ, Nat.add_comm]

theorem rootData_length (files : List File) :
    (rootData files).length = direntSize * (files.length + 2) := by
  rw [rootData, length_flatMap_dirent, entries_length]

theorem rootData_concat (files : List File) (f : File) :
    rootData (files ++ [f]) = rootData files ++ dirent (files.length + 2) f.name := by
  rw [rootData, entries, mapIdx_concat, ← cons_append, ← cons_append,
    flatMap_append, ← entries, ← rootData, flatMap_singleton]

theorem contents_nil :
    contents [] = update (update (fun _ => []) rootIno (dirent rootIno dot))
      rootIno (dirent rootIno dot ++ dirent rootIno dotdot) := by
  funext i
  match i with
  | 0 => rfl
  | 1 => rfl
  | k + 2 => rfl

theorem contents_concat (files : List File) (f : File) :
    contents (files ++ [f]) = update (update (contents files) rootIno
      (contents files rootIno ++ dirent (files.length + 2) f.name)) (files.length + 2) f.bytes := by
  funext i
  match i with
  | 0 => rfl
  | 1 => exact rootData_concat files f
  | k + 2 =>
    by_cases hk : k = files.length
    · rw [hk, update_self, contents_file, List.getElem?_concat_length]
      rfl
    · have hne : k + 2 ≠ rootIno := by simp [rootIno]
      rw [update_of_ne (by omega), update_of_ne hne, contents_file, contents_file]
      by_cases hlt : k < files.length
      · rw [List.getElem?_append_left hlt]
      · have hlen : (files ++ [f]).length ≤ k := by
          rw [length_append, length_singleton]
          omega
        rw [List.getElem?_eq_none hlen, List.getElem?_eq_none (Nat.le_of_not_lt hlt)]

section Start

variable {m : State}

theorem dinodeAt_zeroes (k : ℕ) : dinodeAt zeroes k = Dinode.fresh 0 := by
  ext1 <;> simp [dinodeAt, Dinode.fresh, u16At, u32At, byteAt, zeroes]

/-- The image before the first inode is allocated. -/
structure Blank (m : State) : Prop where
  sectors : m.sectors = fsSize
  sector : m.sector = update (fun _ => zeroes) 1 superBlock
  freeinode : m.freeinode = 1
  freeblock : m.freeblock = nmeta

theorem Blank.completed (h : Blank m) {b : ℕ} (hb : b ≠ 1) (hb' : b ≠ sb.bmapstart) :
    m.completed b = zeroes := by
  rw [completed_of_ne hb', h.sector, update_of_ne hb]

theorem target_fresh (block : ℕ → Block) (p : Place) :
    target sb (fun _ => Dinode.fresh 0) block p = none := by
  have hnone : ∀ i k, addrTarget sb (fun _ => Dinode.fresh 0) i k = none := by
    intro i k
    rw [addrTarget, Dinode.pointer_of_addrs rfl, ite_self]
  cases p with
  | addr i k => exact hnone i k
  | entry i j => rw [target, hnone, Option.bind_none]

theorem Blank.ledger (h : Blank m) : Ledger sb (fun _ => Dinode.fresh 0) ∅ m.completed := by
  have hfree : m.freeblock ≤ fsSize := by
    rw [h.freeblock]
    decide
  have hmarked : ∀ b < fsSize, marked sb m.completed b = decide (b < nmeta) := fun b hb => by
    rw [marked_completed hfree hb, h.freeblock]
  refine ⟨⟨fun p q b hp => ?_, fun b => ?_, fun b hb => absurd hb (Set.notMem_empty b)⟩,
    fun b hb => ?_⟩
  · rw [target_fresh] at hp
    cases hp
  · constructor
    · rintro ⟨hb, hmark⟩
      rw [hmarked b hb.2] at hmark
      exact absurd (of_decide_eq_true hmark) (Nat.not_lt.2 hb.1)
    · rintro (⟨p, hp⟩ | hb)
      · rw [target_fresh] at hp
        cases hp
      · exact absurd hb (Set.notMem_empty b)
  · have hlt : b < nmeta := hb
    rw [hmarked b (Nat.lt_trans hlt (by decide)), decide_eq_true hlt]

theorem Blank.built (h : Blank m) : Built m (fun _ => Dinode.fresh 0) fun _ => [] where
  sectors := h.sectors
  nmeta_le := Nat.le_of_eq h.freeblock.symm
  le_fsSize := by
    rw [h.freeblock]
    decide
  super := by rw [completed_of_ne (by decide), h.sector, update_self]
  ledger := h.ledger
  zero b hb := by
    have hge : nmeta ≤ b := h.freeblock ▸ hb
    have hsuper : 1 < nmeta := by decide
    have hbitmap : sb.bmapstart < nmeta := by decide
    exact h.completed (Nat.ne_of_gt (Nat.lt_of_lt_of_le hsuper hge))
      (Nat.ne_of_gt (Nat.lt_of_lt_of_le hbitmap hge))
  stored i _ := by
    have hnone : ∀ bn, blockTarget sb (fun _ => Dinode.fresh 0) m.completed i bn = none := by
      intro bn
      rw [blockTarget_eq_bind]
      cases placeOf i bn with
      | none => rfl
      | some p => exact target_fresh _ p
    refine ⟨fun bn => ?_, fun bn b hb => ?_⟩
    · have hzero : blocksFor [] = 0 := by decide
      rw [hnone, hzero]
      simp
    · rw [hnone] at hb
      cases hb
  disk i hi := by
    have hge : 32 ≤ sb.iblock i := Nat.le_add_left _ _
    rw [h.completed (by omega) (iblock_ne_bmapstart hi), dinodeAt_zeroes]
  size _ _ := rfl
  typed i _ hpos hlt := absurd (h.freeinode ▸ hlt) (Nat.not_lt.2 hpos)
  unused _ _ _ := rfl

theorem zeroImage_spec (n : ℕ) (hsectors : m.sectors = 0) (hsector : m.sector = fun _ => zeroes) :
    wp (zeroImage n) (fun _ m' => m'.sectors = n ∧ m'.sector = (fun _ => zeroes) ∧
        m'.freeinode = m.freeinode ∧ m'.freeblock = m.freeblock) (fun _ _ => False) m := by
  unfold zeroImage
  refine wp_forRange (I := fun i (m' : State) => m'.sectors = i ∧ m'.sector = (fun _ => zeroes) ∧
    m'.freeinode = m.freeinode ∧ m'.freeblock = m.freeblock) ⟨hsectors, hsector, rfl, rfl⟩ ?_
  rintro i m' - ⟨hsectors, hsector, hinode, hblock⟩
  refine ⟨?_, ?_, hinode, hblock⟩
  · show max m'.sectors (i + 1) = i + 1
    omega
  · show update m'.sector i zeroes = _
    rw [hsector, update_eq_self_iff]

end Start

section Files

variable {m : State} {d : ℕ → List (BitVec 8)} {inum n free : ℕ}

/-- The root directory comes first, and the inodes after it are files. -/
structure Types (T : Table) (n : ℕ) : Prop where
  root : (T rootIno).type = tDir
  file : ∀ i < nInodes, rootIno < i → i < n → (T i).type = tFile

theorem Types.congr {T T' : Table} (h : Types T n) (hT : ∀ i < nInodes, (T' i).type = (T i).type) :
    Types T' n :=
  ⟨(hT rootIno (by decide)).trans h.root,
    fun i hi hroot hn => (hT i hi).trans (h.file i hi hroot hn)⟩

/-- The image holds `d`, the next inode is `n`, and the blocks from `free` on are free. -/
structure Progress (m : State) (d : ℕ → List (BitVec 8)) (n free : ℕ) : Prop where
  built : ∃ T, Built m T d ∧ Types T n
  freeinode : m.freeinode = n
  freeblock : m.freeblock ≤ free

theorem Progress.iappend (h : Progress m d n free) (hi : inum < nInodes) (hpos : 1 ≤ inum)
    (hlt : inum < n) (p : List (BitVec 8)) :
    wp (iappend inum p) (fun _ m' => Progress m' (update d inum (d inum ++ p)) n
        (free + need (d inum).length p.length))
      (fun _ _ => ¬ ((d inum).length + p.length ≤ maxFile * bSize ∧
        free + need (d inum).length p.length ≤ fsSize)) m := by
  obtain ⟨⟨T, hbuilt, htypes⟩, hinode, hblock⟩ := h
  have htype := hbuilt.typed inum hi hpos (hinode ▸ hlt)
  refine wp_mono (iappend_spec hbuilt hi htype p) ?_ ?_
  · rintro _ m' ⟨⟨T', hbuilt', hsame⟩, hinode', hblock'⟩
    exact ⟨⟨T', hbuilt', htypes.congr fun i _ => hsame i⟩, hinode'.trans hinode, by omega⟩
  · rintro _ _ hfull ⟨hlen, hroom⟩
    exact hfull ⟨hlen, by omega⟩

theorem Progress.ialloc (h : Progress m d n free) (hn : n < nInodes) (hroot : rootIno < n) :
    wp (ialloc tFile) (fun inum m' => inum = n ∧ Progress m' d (n + 1) free)
      (fun _ _ => False) m := by
  obtain ⟨⟨T, hbuilt, htypes⟩, rfl, hblock⟩ := h
  refine wp_mono_post (ialloc_spec hbuilt hn (by decide)) ?_
  rintro _ m' ⟨rfl, hinode', hblock', hbuilt'⟩
  refine ⟨rfl, ⟨_, hbuilt', ?_, fun i hi hpos hlt => ?_⟩, hinode', hblock'.trans_le hblock⟩
  · rw [update_of_ne (Nat.ne_of_lt hroot), htypes.root]
  · by_cases hii : i = m.freeinode
    · rw [hii, update_self]
      rfl
    · rw [update_of_ne hii]
      exact htypes.file i hi hpos (by omega)

theorem Progress.copy (h : Progress m d n free) (hi : inum < nInodes) (hpos : 1 ≤ inum)
    (hlt : inum < n) (hempty : d inum = []) (chunks : List Chunk) :
    wp (forEach (fun c => Mkfs.iappend inum c.bytes) chunks)
      (fun _ m' => Progress m' (update d inum (chunks.flatMap Chunk.bytes)) n
        (free + fileBlocks (chunks.flatMap Chunk.bytes).length))
      (fun _ _ => ¬ ((chunks.flatMap Chunk.bytes).length ≤ maxFile * bSize ∧
        free + fileBlocks (chunks.flatMap Chunk.bytes).length ≤ fsSize)) m := by
  refine wp_forEach_done (I := fun done m' => Progress m'
    (update d inum (done.flatMap Chunk.bytes)) n
    (free + fileBlocks (done.flatMap Chunk.bytes).length)) ?_ ?_
  · rw [flatMap_nil, ← hempty, update_eq_self, hempty]
    exact h
  · intro done c rest hchunks m' h'
    have hstep := h'.iappend hi hpos hlt c.bytes
    rw [update_self, Nat.add_assoc, fileBlocks_add_need] at hstep
    refine wp_mono hstep (fun _ m'' h'' => ?_) fun _ _ hfull hroom => ?_
    · rw [update_idem] at h''
      rw [flatMap_append, flatMap_singleton, length_append]
      exact h''
    · rw [hchunks, flatMap_append, flatMap_cons, length_append, length_append] at hroom
      obtain ⟨hlen, hblocks⟩ := hroom
      refine hfull ⟨by omega, Nat.le_trans (Nat.add_le_add_left (fileBlocks_mono ?_) _) hblocks⟩
      omega

def File.cost (f : File) : ℕ := fileBlocks f.bytes.length

def usedBlocks (files : List File) : ℕ :=
  nmeta + fileBlocks (rootData files).length + (files.map File.cost).sum

theorem usedBlocks_concat (files : List File) (f : File) :
    usedBlocks (files ++ [f]) =
      usedBlocks files + need (rootData files).length direntSize + f.cost := by
  have hroot := fileBlocks_add_need (rootData files).length direntSize
  rw [usedBlocks, usedBlocks, rootData_concat, length_append, dirent_length, ← hroot,
    map_append, sum_append, map_singleton, sum_singleton]
  omega

theorem usedBlocks_append_le (files rest : List File) :
    usedBlocks files ≤ usedBlocks (files ++ rest) := by
  have hroot : fileBlocks (rootData files).length ≤
      fileBlocks (rootData (files ++ rest)).length := by
    refine fileBlocks_mono ?_
    rw [rootData_length, rootData_length, length_append]
    exact Nat.mul_le_mul_left _ (by omega)
  rw [usedBlocks, usedBlocks, map_append, sum_append]
  omega

/-- The file can be read, and there is room for it and its entry after the others. -/
structure Fits (files : List File) (f : File) : Prop where
  slash : 0x2f ∉ f.argv
  opens : f.chunks ≠ none
  short : f.bytes.length ≤ maxFile * bSize
  blocks : usedBlocks (files ++ [f]) ≤ fsSize

theorem Progress.addFile (h : Progress m (contents files) (files.length + 2) (usedBlocks files))
    (hn : files.length + 2 < nInodes) (f : File) :
    wp (addFile f) (fun _ m' => Progress m' (contents (files ++ [f])) (files.length + 3)
        (usedBlocks (files ++ [f])))
      (fun _ _ => ¬ Fits files f) m := by
  rw [Mkfs.addFile, wp_ite]
  refine ⟨fun hslash hfits => hfits.slash hslash, fun _ => ?_⟩
  cases hchunks : f.chunks with
  | none => exact fun hfits => hfits.opens hchunks
  | some chunks =>
    have hbytes : f.bytes = chunks.flatMap Chunk.bytes := by
      rw [File.bytes, hchunks, Option.getD_some]
    have hused := usedBlocks_concat files f
    rw [File.cost, hbytes] at hused
    have hne : files.length + 2 ≠ rootIno := by simp [rootIno]
    simp only [wp_bind]
    refine wp_mono_ok (h.ialloc hn (by simp [rootIno])) ?_
    rintro _ m₁ ⟨rfl, h₁⟩
    have hroot : rootIno < nInodes := by decide
    have hentry := h₁.iappend hroot (by decide) (by simp [rootIno])
      (dirent (files.length + 2) f.name)
    rw [contents_root, dirent_length] at hentry
    refine wp_mono hentry ?_ fun _ _ hfull hfits => ?_
    · intro _ m₂ h₂
      refine wp_mono (h₂.copy hn (by omega) (by omega) ?_ chunks) ?_ fun _ _ hfull hfits => ?_
      · rw [update_of_ne hne, contents_file, List.getElem?_eq_none (Nat.le_refl _)]
        rfl
      · intro _ m₃ h₃
        rw [contents_concat, hbytes, hused]
        exact h₃
      · obtain ⟨-, -, hshort, hblocks⟩ := hfits
        exact hfull ⟨hbytes ▸ hshort, hused ▸ hblocks⟩
    · have hblocks := hfits.blocks
      refine hfull ⟨?_, by omega⟩
      rw [rootData_length]
      simp only [nInodes, direntSize, dirSiz, maxFile, nDirect, nIndirect, bSize] at hn ⊢
      omega

/-- The files can all be read, and there is room for them on the disk. -/
structure Capacity (files : List File) : Prop where
  slash : ∀ f ∈ files, 0x2f ∉ f.argv
  opens : ∀ f ∈ files, f.chunks ≠ none
  short : ∀ f ∈ files, f.bytes.length ≤ maxFile * bSize
  blocks : usedBlocks files ≤ fsSize

theorem Capacity.fits {files done rest : List File} {f : File} (h : Capacity files)
    (hfiles : files = done ++ f :: rest) : Fits done f := by
  have hmem : f ∈ files := by
    rw [hfiles]
    exact mem_append_right _ mem_cons_self
  have hle := usedBlocks_append_le (done ++ [f]) rest
  rw [← append_cons, ← hfiles] at hle
  exact ⟨h.slash f hmem, h.opens f hmem, h.short f hmem, hle.trans h.blocks⟩

theorem addFiles_spec (h : Progress m (contents []) 2 (usedBlocks []))
    (hn : files.length + 2 ≤ nInodes) :
    wp (forEach addFile files)
      (fun _ m' => Progress m' (contents files) (files.length + 2) (usedBlocks files))
      (fun _ _ => ¬ Capacity files) m := by
  refine wp_forEach_done (I := fun done m' => Progress m' (contents done) (done.length + 2)
    (usedBlocks done)) h ?_
  intro done f rest hfiles m' h'
  have hlt : done.length + 2 < nInodes := by
    rw [hfiles, length_append, length_cons] at hn
    omega
  refine wp_mono (h'.addFile hlt f) (fun _ m'' h'' => ?_)
    fun _ _ hfull hcap => hfull (hcap.fits hfiles)
  rw [length_append, length_singleton]
  exact h''

end Files

section Main

variable {m : State}

/-- The image that `main` leaves when it exits with status 0. -/
structure Finished (files : List File) (m : State) (T : Table) : Prop where
  freeinode : m.freeinode = files.length + 2
  super : m.sector 1 = superBlock
  ledger : Ledger sb T ∅ m.sector
  disk : ∀ i < nInodes, dinodeAt (m.sector (sb.iblock i)) (i % ipb) = T i
  stored : ∀ i < nInodes, Stored T m.sector i (contents files i) (blocksFor (contents files i))
  size : ∀ i < nInodes, i ≠ rootIno → (T i).size.toNat = (contents files i).length
  rootSize : (T rootIno).size.toNat = ((rootData files).length / bSize + 1) * bSize
  types : Types T (files.length + 2)

theorem finish_spec {free : ℕ} {E : Exit → State → Prop}
    (h : Progress m (contents files) (files.length + 2) free) (hn : files.length + 2 ≤ nInodes) :
    wp (do
      let din ← rinode rootIno
      let off := (din.size.toNat / bSize + 1) * bSize
      winode rootIno { din with size := BitVec.ofNat 32 off }
      let used ← look fun m => m.freeblock
      balloc used) (fun _ m' => ∃ T, Finished files m' T) E m := by
  obtain ⟨⟨T, hbuilt, htypes⟩, hinode, -⟩ := h
  have hroot : rootIno < nInodes := by decide
  have hsize : (T rootIno).size.toNat = (rootData files).length := hbuilt.size rootIno hroot
  rw [wp_bind]
  refine hbuilt.rinode hroot ?_
  rw [hsize]
  generalize hoff : ((rootData files).length / bSize + 1) * bSize = off
  have hlt : off < 2 ^ 32 := by
    rw [rootData_length] at hoff
    simp only [nInodes, direntSize, dirSiz, bSize] at hn hoff
    omega
  have hlayout := hbuilt.writeInode hroot (x := { T rootIno with size := BitVec.ofNat 32 off })
    (addrTarget_update_of_addrs hroot rfl rfl)
    (setDinode (m.sector (sb.iblock rootIno)) (rootIno % ipb)
      { T rootIno with size := BitVec.ofNat 32 off })
  have hused : m.freeblock < bSize * 8 := Nat.lt_of_le_of_lt hbuilt.le_fsSize (by decide)
  rw [wp_bind]
  refine winode_spec hroot hbuilt.sectors ?_
  simp only [wp_bind, wp_look, balloc, wsect, wp_ite, wp_update, wp_stop]
  -- the sectors of the last state are the completed image of the one before it
  refine ⟨fun _ => ⟨_, hinode, hlayout.super, hlayout.ledger,
    disk_winode hroot _ hbuilt.disk, hlayout.stored, fun i hi hne => ?_, ?_, ?_⟩,
    fun hfull => absurd hused hfull⟩
  · rw [update_of_ne hne, hbuilt.size i hi]
  · rw [update_self, hoff]
    exact Nat.mod_eq_of_lt hlt
  · refine htypes.congr fun i _ => ?_
    by_cases hii : i = rootIno
    · rw [hii, update_self]
    · rw [update_of_ne hii]

/-- `main` builds the image, or the files do not fit. -/
theorem main_spec (hn : files.length + 2 ≤ nInodes) :
    wp (main files) (fun _ m => ∃ T, Finished files m T) (fun _ _ => ¬ Capacity files) start := by
  simp only [main, wp_bind, wp_update]
  refine wp_mono_ok (zeroImage_spec fsSize rfl rfl) ?_
  rintro _ m ⟨hsectors, hsector, hinode, hblock⟩
  have hblank : Blank (m.write 1 superBlock) := by
    refine ⟨(write_sectors (by rw [hsectors]; decide)).trans hsectors, ?_, hinode, hblock⟩
    show update m.sector 1 superBlock = _
    rw [hsector]
  have hfree : (m.write 1 superBlock).freeinode = 1 := hinode
  simp only [wsect, wp_update]
  refine wp_mono_ok (ialloc_spec hblank.built (by rw [hfree]; decide) (by decide)) ?_
  rintro rootino m₁ ⟨rfl, hinode₁, hblock₁, hbuilt₁⟩
  rw [hfree] at hinode₁ hbuilt₁ ⊢
  have h₁ : Progress m₁ (fun _ => []) 2 nmeta :=
    ⟨⟨_, hbuilt₁, by rw [update_self]; rfl,
      fun i _ hi hlt => absurd hlt (Nat.not_lt.2 hi)⟩, hinode₁, by rw [hblock₁, hblank.freeblock]⟩
  have hroot : rootIno < nInodes := by decide
  rw [wp_ite]
  refine ⟨fun _ => ?_, fun hne => absurd rfl hne⟩
  simp only [wp_bind]
  have hdot := h₁.iappend hroot (by decide) (by decide) (dirent rootIno dot)
  rw [dirent_length, nil_append, length_nil] at hdot
  refine wp_mono hdot ?_ fun _ _ hfull => absurd (by decide) hfull
  intro _ m₂ h₂
  have hdotdot := h₂.iappend hroot (by decide) (by decide) (dirent rootIno dotdot)
  rw [update_self, dirent_length, dirent_length, ← contents_nil] at hdotdot
  refine wp_mono hdotdot ?_ fun _ _ hfull => absurd (by decide) hfull
  intro _ m₃ h₃
  refine wp_mono_post (addFiles_spec h₃ hn) (fun _ m₄ h₄ => ?_)
  have hfinish := finish_spec (E := fun _ _ => ¬ Capacity files) h₄ hn
  simp only [wp_bind] at hfinish
  exact hfinish

end Main

section Counter

variable {α β : Type}

/-- A part of the program that allocates no inode. -/
structure KeepsInodes (x : MkfsM α) : Prop where
  freeinode : ∀ m, wp x (fun _ m' => m'.freeinode = m.freeinode) (fun _ _ => True) m

theorem KeepsInodes.bind {x : MkfsM α} {f : α → MkfsM β} (hx : KeepsInodes x)
    (hf : ∀ a, KeepsInodes (f a)) : KeepsInodes (x >>= f) := by
  refine ⟨fun m => ?_⟩
  rw [wp_bind]
  refine wp_mono_post (hx.freeinode m) (fun a m' h => ?_)
  exact wp_mono ((hf a).freeinode m') (fun _ _ h' => h'.trans h) fun _ _ h' => h'

theorem KeepsInodes.ite {x y : MkfsM α} {c : Prop} [Decidable c] (hx : KeepsInodes x)
    (hy : KeepsInodes y) : KeepsInodes (if c then x else y) := by
  refine ⟨fun m => ?_⟩
  rw [wp_ite]
  exact ⟨fun _ => hx.freeinode m, fun _ => hy.freeinode m⟩

theorem keepsInodes_pure (a : α) : KeepsInodes (pure a) := ⟨fun _ => rfl⟩

theorem keepsInodes_stop (e : Exit) : KeepsInodes (stop e : MkfsM α) := ⟨fun _ => trivial⟩

theorem keepsInodes_rsect (sec : ℕ) : KeepsInodes (rsect sec) := by
  refine ⟨fun m => ?_⟩
  rw [wp_rsect]
  exact ⟨fun _ => rfl, fun _ => trivial⟩

theorem keepsInodes_wsect (sec : ℕ) (buf : Block) : KeepsInodes (wsect sec buf) := ⟨fun _ => rfl⟩

theorem keepsInodes_nextBlock : KeepsInodes nextBlock := ⟨fun _ => rfl⟩

theorem keepsInodes_winode (inum : ℕ) (din : Dinode) : KeepsInodes (winode inum din) :=
  (keepsInodes_rsect _).bind fun _ => keepsInodes_wsect ..

theorem keepsInodes_rinode (inum : ℕ) : KeepsInodes (rinode inum) :=
  (keepsInodes_rsect _).bind fun _ => keepsInodes_pure _

theorem keepsInodes_addrOrNext (din : Dinode) (k : Fin (nDirect + 1)) :
    KeepsInodes (addrOrNext din k) :=
  (keepsInodes_nextBlock.bind fun _ => keepsInodes_pure _).ite (keepsInodes_pure _)

theorem keepsInodes_entryOrNext (addr j : ℕ) : KeepsInodes (entryOrNext addr j) :=
  (keepsInodes_rsect _).bind fun _ => (keepsInodes_nextBlock.bind fun _ =>
    (keepsInodes_wsect ..).bind fun _ => keepsInodes_pure _).ite (keepsInodes_pure _)

theorem keepsInodes_blockFor (din : Dinode) (fbn : ℕ) : KeepsInodes (blockFor din fbn) :=
  ((keepsInodes_addrOrNext ..).bind fun _ => keepsInodes_pure _).ite
    ((keepsInodes_addrOrNext ..).bind fun _ =>
      (keepsInodes_entryOrNext ..).bind fun _ => keepsInodes_pure _)

theorem keepsInodes_iappendLoop (rounds : ℕ) (din : Dinode) (off : ℕ) (p : List (BitVec 8)) :
    KeepsInodes (iappendLoop rounds din off p) := by
  induction rounds generalizing din off p with
  | zero => exact keepsInodes_pure _
  | succ rounds ih =>
    refine KeepsInodes.ite (KeepsInodes.ite ?_ (keepsInodes_stop _)) (keepsInodes_pure _)
    refine (keepsInodes_blockFor ..).bind fun r => (keepsInodes_rsect _).bind fun _ =>
      (keepsInodes_wsect ..).bind fun _ => ?_
    exact ih ..

theorem keepsInodes_iappend (inum : ℕ) (p : List (BitVec 8)) : KeepsInodes (iappend inum p) :=
  (keepsInodes_rinode _).bind fun _ => (keepsInodes_iappendLoop ..).bind fun _ =>
    keepsInodes_winode ..

theorem keepsInodes_forEach {f : α → MkfsM Unit} (hf : ∀ a, KeepsInodes (f a)) (l : List α) :
    KeepsInodes (forEach f l) := by
  induction l with
  | nil => exact keepsInodes_pure _
  | cons a l ih => exact (hf a).bind fun _ => ih

theorem ialloc_freeinode (type : BitVec 16) (m : State) :
    wp (ialloc type) (fun inum m' => inum = m.freeinode ∧ m'.freeinode = m.freeinode + 1)
      (fun _ _ => True) m := by
  simp only [ialloc, wp_bind, wp_look, wp_update, wp_pure]
  exact wp_mono_post ((keepsInodes_winode ..).freeinode _) (fun _ _ h => ⟨trivial, h⟩)

theorem addFile_freeinode (f : File) (m : State) :
    wp (addFile f) (fun _ m' => m'.freeinode = m.freeinode + 1) (fun _ _ => True) m := by
  rw [addFile, wp_ite]
  refine ⟨fun _ => trivial, fun _ => ?_⟩
  cases f.chunks with
  | none => trivial
  | some chunks =>
    rw [wp_bind]
    refine wp_mono_post (ialloc_freeinode _ _) ?_
    rintro inum m' ⟨-, hinode⟩
    have hkeeps : KeepsInodes (do
        iappend rootIno (dirent inum f.name)
        forEach (fun c => iappend inum c.bytes) chunks) :=
      (keepsInodes_iappend ..).bind fun _ =>
        keepsInodes_forEach (fun _ => keepsInodes_iappend ..) chunks
    refine wp_mono_post (hkeeps.freeinode m') (fun _ _ h => ?_)
    rw [h, hinode]

theorem main_freeinode (files : List File) :
    wp (main files) (fun _ m => m.freeinode = files.length + 2) (fun _ _ => True) start := by
  simp only [main, wp_bind, wp_update]
  refine wp_mono_ok (zeroImage_spec fsSize rfl rfl) ?_
  rintro _ m ⟨-, -, hinode, -⟩
  simp only [wsect, wp_update]
  refine wp_mono_post (ialloc_freeinode _ _) ?_
  rintro rootino m₁ ⟨-, hinode₁⟩
  have hfree : m₁.freeinode = 2 := hinode₁.trans (congrArg (· + 1) hinode)
  rw [wp_ite]
  refine ⟨fun _ => ?_, fun _ => trivial⟩
  simp only [wp_bind]
  refine wp_mono_post ((keepsInodes_iappend ..).freeinode _) (fun _ m₂ h₂ => ?_)
  refine wp_mono_post ((keepsInodes_iappend ..).freeinode _) (fun _ m₃ h₃ => ?_)
  have hthree : m₃.freeinode = 2 := (h₃.trans h₂).trans hfree
  refine wp_mono_post (wp_forEach_done (I := fun done m' => m'.freeinode = done.length + 2) hthree
    fun done f rest _ m' h' => ?_) (fun _ m₄ h₄ => ?_)
  · refine wp_mono_post (addFile_freeinode f m') (fun _ _ h => ?_)
    rw [h, h', length_append, length_singleton]
  · refine wp_mono_post ((keepsInodes_rinode _).freeinode _) (fun _ m₅ h₅ => ?_)
    refine wp_mono_post ((keepsInodes_winode ..).freeinode _) (fun _ m₆ h₆ => ?_)
    rw [wp_look]
    have hkeeps : KeepsInodes (balloc m₆.freeblock) :=
      (keepsInodes_wsect ..).ite (keepsInodes_stop _)
    refine wp_mono_post (hkeeps.freeinode m₆) (fun _ _ h => ?_)
    rw [h, h₆, h₅, h₄]

end Counter

end Xv6.Mkfs

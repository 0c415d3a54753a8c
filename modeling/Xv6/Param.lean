import Mathlib.Algebra.Ring.Nat

/-!
# Kernel parameters

The constants of `param.h` and of the on-disk format in `fs.h`, under the
source's names.
-/

namespace Xv6

abbrev rootDev : ℕ := 1

/-- The most blocks any file system operation writes. -/
abbrev maxOpBlocks : ℕ := 10

abbrev logSize : ℕ := maxOpBlocks * 3

abbrev nBuf : ℕ := maxOpBlocks * 3

instance neZeroNBuf : NeZero nBuf := ⟨by decide⟩

abbrev bSize : ℕ := 512

/-- The log blocks that `mkfs` lays out, its header block included. -/
abbrev nlog : ℕ := logSize

abbrev fsSize : ℕ := 1000

abbrev nProc : ℕ := 64

instance neZeroNProc : NeZero nProc := ⟨by decide⟩

abbrev maxArg : ℕ := 32

/-- The most pairs in the log of a process's system calls. -/
abbrev nLogPair : ℕ := 1024

abbrev nInode : ℕ := 50

instance neZeroNInode : NeZero nInode := ⟨by decide⟩

abbrev nOFile : ℕ := 16

abbrev nFile : ℕ := 100

abbrev nDev : ℕ := 10

/-- The i-number of the root directory. -/
abbrev rootIno : ℕ := 1

abbrev nDirect : ℕ := 12

abbrev nIndirect : ℕ := bSize / 4

/-- The most data blocks of a file. -/
abbrev maxFile : ℕ := nDirect + nIndirect

abbrev dinodeSize : ℕ := 64

abbrev ipb : ℕ := bSize / dinodeSize

abbrev bpb : ℕ := bSize * 8

abbrev dirSiz : ℕ := 14

abbrev direntSize : ℕ := 2 + dirSiz

end Xv6

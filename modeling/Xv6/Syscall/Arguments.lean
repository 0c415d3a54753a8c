import Xv6.Vm.Pte

/-!
# The arguments of a system call

`fetchint`, `fetchstr`, `argint`, `argptr` and `argstr` of `syscall.c`, and `sys_exec` up to the
call of `exec`. The kernel reads the memory of the current process at the addresses it is
given, and `Trace` records which bytes it has read and what it has stored in `argv`. Whatever
the stack pointer and the arguments are, it reads only below the size of the process, and so
does everything that a function has accepted lie.
-/

namespace Xv6.Syscall

open Routine

/-- The memory of the current process, its size, and `tf->esp`. -/
structure User where
  mem : BitVec 32 → BitVec 8
  sz : BitVec 32
  esp : BitVec 32

structure Trace where
  reads : List (BitVec 32)
  argv : List (BitVec 32)

abbrev Fetch := Routine Empty Trace

def maxArg : ℕ := 32

section Model

variable (u : User)

def readByte (a : BitVec 32) : Fetch (BitVec 8) := do
  update fun t => { t with reads := a :: t.reads }
  pure (u.mem a)

def readInt (a : BitVec 32) : Fetch (BitVec 32) := do
  let b₀ ← readByte u a
  let b₁ ← readByte u (a + 1)
  let b₂ ← readByte u (a + 2)
  let b₃ ← readByte u (a + 3)
  pure (b₃ ++ b₂ ++ b₁ ++ b₀)

def fetchint (addr : BitVec 32) : Fetch (Option (BitVec 32)) :=
  if u.sz ≤ addr ∨ u.sz < addr + 4 then
    pure none
  else do
    let i ← readInt u addr
    pure (some i)

/-- The loop of `fetchstr`, with the number of bytes from `s` to the end. -/
def findNul (addr : BitVec 32) : ℕ → BitVec 32 → Fetch (Option (BitVec 32))
  | 0, _ => pure none
  | n + 1, s => do
      let c ← readByte u s
      if c = 0 then pure (some (s - addr)) else findNul addr n (s + 1)

/-- `fetchstr`, where `store` assigns `*pp`. -/
def fetchstr (store : BitVec 32 → Fetch Unit) (addr : BitVec 32) : Fetch (Option (BitVec 32)) :=
  if u.sz ≤ addr then
    pure none
  else do
    store addr
    findNul u addr (u.sz.toNat - addr.toNat) addr

def argint (n : BitVec 32) : Fetch (Option (BitVec 32)) := fetchint u (u.esp + 4 + 4 * n)

def argptr (n size : BitVec 32) : Fetch (Option (BitVec 32)) := do
  match ← argint u n with
  | none => pure none
  | some i =>
    if size.slt 0 = true ∨ u.sz ≤ i ∨ u.sz < i + size then pure none else pure (some i)

/-- `argstr`: the string and its length. -/
def argstr (n : BitVec 32) : Fetch (Option (BitVec 32 × BitVec 32)) := do
  match ← argint u n with
  | none => pure none
  | some addr => do
      match ← fetchstr u (fun _ => pure ()) addr with
      | none => pure none
      | some len => pure (some (addr, len))

def storeArg (a : BitVec 32) : Fetch Unit := update fun t => { t with argv := t.argv ++ [a] }

/-- The loop of `sys_exec` from `argv[i]` on, with the number of entries from there; `false` if
`sys_exec` returns -1. -/
def argvLoop (uargv : BitVec 32) : ℕ → ℕ → Fetch Bool
  | 0, _ => pure false
  | n + 1, i => do
      match ← fetchint u (uargv + 4 * BitVec.ofNat 32 i) with
      | none => pure false
      | some uarg =>
        if uarg = 0 then do
          storeArg 0
          pure true
        else do
          match ← fetchstr u storeArg uarg with
          | none => pure false
          | some _ => argvLoop uargv n (i + 1)

/-- `sys_exec`: the path with which `exec` is called. -/
def sysExec : Fetch (Option (BitVec 32 × BitVec 32)) := do
  match ← argstr u 0 with
  | none => pure none
  | some path => do
      match ← argint u 1 with
      | none => pure none
      | some uargv => do
          let ok ← argvLoop u uargv maxArg 0
          if ok = true then pure (some path) else pure none

end Model

/-- The `n` bytes from `p` on are below the size. -/
def User.Has (u : User) (p : BitVec 32) (n : ℕ) : Prop := p.toNat + n ≤ u.sz.toNat

/-- A string with its `'\0'` at `p + len`. -/
structure User.HasString (u : User) (p len : BitVec 32) : Prop where
  has : u.Has p (len.toNat + 1)
  nul : u.mem (p + len) = 0
  chars : ∀ i < len.toNat, u.mem (p + BitVec.ofNat 32 i) ≠ 0

/-- All bytes read are below the size, and `n` entries of `argv` have been stored at most. -/
structure Confined (u : User) (n : ℕ) (t : Trace) : Prop where
  reads : ∀ a ∈ t.reads, a < u.sz
  argv : t.argv.length ≤ n

variable {u : User} {t : Trace} {k : ℕ} {a addr : BitVec 32}

theorem Confined.read (h : Confined u k t) (ha : a < u.sz) :
    Confined u k { t with reads := a :: t.reads } :=
  ⟨List.forall_mem_cons.2 ⟨ha, h.reads⟩, h.argv⟩

theorem fetchint_spec (hsz : u.sz < Vm.kernBase) (h : Confined u k t) (addr : BitVec 32) :
    wp (fetchint u addr) (fun r t' => Confined u k t' ∧ (r ≠ none → u.Has addr 4))
      (fun _ _ => False) t := by
  rw [BitVec.lt_def, Vm.toNat_kernBase] at hsz
  simp only [fetchint, readInt, readByte, wp_ite, wp_bind, wp_update, wp_pure]
  refine ⟨fun _ => ⟨h, fun hr => absurd rfl hr⟩, fun hin => ?_⟩
  rw [not_or, BitVec.not_le, BitVec.not_lt, BitVec.lt_def, BitVec.le_def, BitVec.toNat_add] at hin
  have hhas : addr.toNat + 4 ≤ u.sz.toNat := by
    simp at hin
    omega
  have hlt : ∀ i : BitVec 32, i.toNat < 4 → addr + i < u.sz := by
    intro i hi
    rw [BitVec.lt_def, BitVec.toNat_add]
    omega
  exact ⟨(((h.read hin.1).read (hlt 1 (by decide))).read (hlt 2 (by decide))).read
    (hlt 3 (by decide)), fun _ => hhas⟩

/-- By induction on the bytes that are left, after `j` that are not 0. -/
theorem findNul_spec (addr : BitVec 32) {n j : ℕ} (hn : addr.toNat + j + n = u.sz.toNat)
    (h : Confined u k t) (hchars : ∀ i < j, u.mem (addr + BitVec.ofNat 32 i) ≠ 0) :
    wp (findNul u addr n (addr + BitVec.ofNat 32 j)) (fun r t' => Confined u k t' ∧
      ∀ len, r = some len → u.HasString addr len) (fun _ _ => False) t := by
  induction n generalizing j t with
  | zero => exact ⟨h, fun len hlen => by cases hlen⟩
  | succ n ih =>
    have hj : (BitVec.ofNat 32 j).toNat = j := by
      rw [BitVec.toNat_ofNat, Nat.mod_eq_of_lt (by omega)]
    have hlt : addr + BitVec.ofNat 32 j < u.sz := by
      rw [BitVec.lt_def, BitVec.toNat_add, hj]
      omega
    simp only [findNul, readByte, wp_bind, wp_update, wp_pure, wp_ite]
    refine ⟨fun hzero => ⟨h.read hlt, fun len hlen => ?_⟩, fun hchar => ?_⟩
    · obtain rfl : BitVec.ofNat 32 j = len := by
        simpa [BitVec.add_comm addr, BitVec.add_sub_cancel] using hlen
      exact ⟨by rw [User.Has, hj]; omega, hzero, by rwa [hj]⟩
    · have hnext : addr + BitVec.ofNat 32 j + 1 = addr + BitVec.ofNat 32 (j + 1) := by
        rw [BitVec.ofNat_add, BitVec.add_assoc]
        rfl
      rw [hnext]
      refine ih (by omega) (h.read hlt) fun i hi => ?_
      rcases Nat.lt_succ_iff_lt_or_eq.1 hi with hi | rfl
      · exact hchars i hi
      · exact hchar

theorem fetchstr_spec {k' : ℕ} {store : BitVec 32 → Fetch Unit} (h : Confined u k t) (hk : k ≤ k')
    (hstore : wp (store addr) (fun _ t' => Confined u k' t') (fun _ _ => False) t) :
    wp (fetchstr u store addr) (fun r t' => Confined u k' t' ∧
      ∀ len, r = some len → u.HasString addr len) (fun _ _ => False) t := by
  rw [fetchstr, wp_ite, wp_bind]
  refine ⟨fun _ => ⟨⟨h.reads, h.argv.trans hk⟩, fun len hlen => by cases hlen⟩, fun hlt => ?_⟩
  have hnat := BitVec.lt_def.1 (BitVec.not_le.1 hlt)
  refine wp_mono_ok hstore fun _ t' ht' => ?_
  have hspec := findNul_spec addr (j := 0) (n := u.sz.toNat - addr.toNat) (by omega) ht'
    fun i hi => absurd hi (Nat.not_lt_zero i)
  rwa [BitVec.add_zero] at hspec

section Calls

variable (hsz : u.sz < Vm.kernBase)

include hsz

theorem argptr_spec (h : Confined u k t) (n size : BitVec 32) :
    wp (argptr u n size) (fun r t' => Confined u k t' ∧ ∀ p, r = some p →
      u.Has (u.esp + 4 + 4 * n) 4 ∧ 0 ≤ size.toInt ∧ u.Has p size.toNat) (fun _ _ => False) t := by
  rw [argptr, wp_bind]
  refine wp_mono_ok (fetchint_spec hsz h _) ?_
  rintro (_ | i) t' ⟨ht', hhas⟩
  · exact ⟨ht', fun p hp => by cases hp⟩
  · simp only [wp_ite, wp_pure]
    refine ⟨fun _ => ⟨ht', fun p hp => by cases hp⟩, fun hok => ⟨ht', ?_⟩⟩
    rintro p ⟨⟩
    obtain ⟨hsize, hp, hend⟩ := by simpa only [not_or, BitVec.not_le, BitVec.not_lt] using hok
    rw [BitVec.lt_def] at hp hsz
    rw [BitVec.le_def, BitVec.toNat_add] at hend
    rw [Vm.toNat_kernBase] at hsz
    have hint : 0 ≤ size.toInt := by simpa [BitVec.slt] using hsize
    have hsmall : size.toNat < 2 ^ 31 := by
      rw [BitVec.toInt_eq_toNat_cond] at hint
      split_ifs at hint <;> omega
    refine ⟨hhas (by simp), hint, ?_⟩
    rw [User.Has]
    omega

theorem argstr_spec (h : Confined u k t) (n : BitVec 32) :
    wp (argstr u n) (fun r t' => Confined u k t' ∧ ∀ p len, r = some (p, len) →
      u.Has (u.esp + 4 + 4 * n) 4 ∧ u.HasString p len) (fun _ _ => False) t := by
  rw [argstr, wp_bind]
  refine wp_mono_ok (fetchint_spec hsz h _) ?_
  rintro (_ | addr) t' ⟨ht', hhas⟩
  · exact ⟨ht', fun p len hp => by cases hp⟩
  · rw [wp_bind]
    refine wp_mono_ok (fetchstr_spec ht' le_rfl ht') ?_
    rintro (_ | len) t'' ⟨ht'', hstring⟩
    · exact ⟨ht'', fun p len hp => by cases hp⟩
    · refine ⟨ht'', ?_⟩
      rintro p len ⟨⟩
      exact ⟨hhas (by simp), hstring len rfl⟩

/-- By induction on the entries of `argv` that are left: an entry is stored in every round. -/
theorem argvLoop_spec (uargv : BitVec 32) {n i : ℕ} (h : Confined u i t) :
    wp (argvLoop u uargv n i) (fun _ t' => Confined u (i + n) t') (fun _ _ => False) t := by
  induction n generalizing i t with
  | zero => exact h
  | succ n ih =>
    rw [argvLoop, wp_bind]
    refine wp_mono_ok (fetchint_spec hsz h _) ?_
    rintro (_ | uarg) t' ⟨ht', -⟩
    · exact ⟨ht'.reads, ht'.argv.trans (Nat.le_add_right ..)⟩
    have hstore : ∀ a, Confined u (i + 1) { t' with argv := t'.argv ++ [a] } := by
      intro a
      refine ⟨ht'.reads, ?_⟩
      rw [List.length_append, List.length_singleton]
      exact Nat.succ_le_succ ht'.argv
    simp only [wp_ite, wp_bind]
    refine ⟨fun _ => ⟨(hstore 0).reads, (hstore 0).argv.trans (by omega)⟩, fun _ => ?_⟩
    refine wp_mono_ok (fetchstr_spec ht' (Nat.le_succ i) (hstore uarg)) ?_
    rintro (_ | len) t'' ⟨ht'', -⟩
    · exact ⟨ht''.reads, ht''.argv.trans (by omega)⟩
    · refine wp_mono_ok (ih ht'') fun _ t₃ ht₃ => ?_
      rwa [Nat.add_assoc, Nat.add_comm 1] at ht₃

theorem sysExec_spec (h : Confined u 0 t) :
    wp (sysExec u) (fun r t' => Confined u maxArg t' ∧ ∀ p len, r = some (p, len) →
      u.HasString p len) (fun _ _ => False) t := by
  rw [sysExec, wp_bind]
  refine wp_mono_ok (argstr_spec hsz h 0) ?_
  rintro (_ | path) t' ⟨ht', hpath⟩
  · exact ⟨⟨ht'.reads, ht'.argv.trans (by decide)⟩, fun p len hp => by cases hp⟩
  rw [wp_bind]
  refine wp_mono_ok (fetchint_spec hsz ht' _) ?_
  rintro (_ | uargv) t' ⟨ht', -⟩
  · exact ⟨⟨ht'.reads, ht'.argv.trans (by decide)⟩, fun p len hp => by cases hp⟩
  rw [wp_bind]
  refine wp_mono_ok (argvLoop_spec hsz uargv ht') ?_
  rintro ok t' ht'
  rw [wp_ite]
  refine ⟨fun _ => ⟨ht', fun p len hp => ?_⟩, fun _ => ⟨ht', fun p len hp => by cases hp⟩⟩
  exact (hpath p len hp).2

end Calls

/-- For every stack pointer, argument index, address and size, in a process whose size is below
`KERNBASE`: no function reads a byte that is not below the size, what a function has accepted
lies below the size, and `sys_exec` stores at most `MAXARG` pointers. -/
theorem arguments_confined (u : User) (hsz : u.sz < Vm.kernBase) :
    (∀ addr, wp (fetchint u addr) (fun r t => Confined u 0 t ∧ (r ≠ none → u.Has addr 4))
      (fun _ _ => False) ⟨[], []⟩) ∧
    (∀ n, wp (argint u n) (fun r t => Confined u 0 t ∧ (r ≠ none → u.Has (u.esp + 4 + 4 * n) 4))
      (fun _ _ => False) ⟨[], []⟩) ∧
    (∀ n size, wp (argptr u n size) (fun r t => Confined u 0 t ∧ ∀ p, r = some p →
      u.Has (u.esp + 4 + 4 * n) 4 ∧ 0 ≤ size.toInt ∧ u.Has p size.toNat)
      (fun _ _ => False) ⟨[], []⟩) ∧
    (∀ n, wp (argstr u n) (fun r t => Confined u 0 t ∧ ∀ p len, r = some (p, len) →
      u.Has (u.esp + 4 + 4 * n) 4 ∧ u.HasString p len) (fun _ _ => False) ⟨[], []⟩) ∧
    wp (sysExec u) (fun r t => Confined u maxArg t ∧ ∀ p len, r = some (p, len) →
      u.HasString p len) (fun _ _ => False) ⟨[], []⟩ := by
  have hstart : Confined u 0 ⟨[], []⟩ := ⟨List.forall_mem_nil _, le_rfl⟩
  exact ⟨fetchint_spec hsz hstart, fun n => fetchint_spec hsz hstart _, argptr_spec hsz hstart,
    argstr_spec hsz hstart, sysExec_spec hsz hstart⟩

/-- A call of `exec` with the path `ls`, which is `argv[0]` too. -/
def lsUser : User where
  mem a := [0, 0, 0, 0, 12, 0, 0, 0, 16, 0, 0, 0, 0x6c, 0x73, 0, 0, 12, 0, 0, 0].getD a.toNat 0
  sz := 4096
  esp := 0

theorem arguments_confined_ls :
    ∃ t, sysExec lsUser ⟨[], []⟩ = (.ok (some (12, 2)), t) ∧ t.argv = [12, 0] ∧
      Confined lsUser maxArg t ∧ lsUser.HasString 12 2 := by
  obtain ⟨-, -, -, -, hexec⟩ := arguments_confined lsUser (by decide)
  have hargv : (sysExec lsUser ⟨[], []⟩).2.argv = [12, 0] := by decide +kernel
  obtain ⟨t, hrun⟩ := ok_of_toOption (x := sysExec lsUser) (s := ⟨[], []⟩) (some (12, 2))
    (by decide +kernel)
  rw [wp, hrun] at hexec
  rw [hrun] at hargv
  exact ⟨t, hrun, hargv, hexec.1, hexec.2 12 2 rfl⟩

end Xv6.Syscall

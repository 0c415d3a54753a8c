import Xv6.OpenFiles.Counts
import Xv6.Process.Model
import Xv6.Vm.Isolation

/-!
# Rules for calls of processes

How a call on memory or on files acts on the whole kernel, and who owns the frames of a kernel
between two calls: the kernel and each process hold a directory, and kernel stacks and pipes
are other owners.
-/

namespace Xv6.Process

open Routine Vm
open PTable (Slot)

section Lift

variable {α : Type} {s : Kernel} {Q : α → Kernel → Prop} {E : Stop → Kernel → Prop} {p q : Slot}

@[simp] theorem wp_onMem {x : VmM α} : wp (onMem x) Q E s ↔
      wp x (fun a m => Q a (s.setMem m)) (fun e m => E (.vm e) (s.setMem m)) s.mem := by
  simp only [wp, onMem]
  rcases x s.mem with ⟨r, m⟩
  cases r <;> rfl

@[simp] theorem wp_onFiles {x : OpenFiles.KernelM Slot ℕ α} : wp (onFiles x) Q E s ↔
      wp x (fun a k => Q a (s.setFiles k)) (fun r k => E (.files r) (s.setFiles k)) s.files := by
  simp only [wp, onFiles]
  rcases x s.files with ⟨r, k⟩
  cases r <;> rfl

@[simp] theorem wp_getProc {Q : Proc → Kernel → Prop} :
    wp (getProc p) Q E s ↔ Q (s.proc p) s := Iff.rfl

@[simp] theorem wp_modify {f : Proc → Proc} {Q : Unit → Kernel → Prop} :
    wp (modify p f) Q E s ↔ Q () (s.modifyProc p f) := Iff.rfl

@[simp] theorem proc_setMem (s : Kernel) (m : Mem) : (s.setMem m).proc = s.proc := rfl

@[simp] theorem mem_setMem (s : Kernel) (m : Mem) : (s.setMem m).mem = m := rfl

@[simp] theorem mem_modifyProc (s : Kernel) (p : Slot) (f : Proc → Proc) :
    (s.modifyProc p f).mem = s.mem := rfl

@[simp] theorem proc_modifyProc_self (s : Kernel) (p : Slot) (f : Proc → Proc) :
    (s.modifyProc p f).proc p = f (s.proc p) := by
  simp only [Kernel.modifyProc, Function.update_self]

theorem proc_modifyProc_of_ne (s : Kernel) (f : Proc → Proc) (h : q ≠ p) :
    (s.modifyProc p f).proc q = s.proc q := Function.update_of_ne h _ s.proc

theorem wp_switchuvm {Q : Unit → Kernel → Prop} (hstack : (s.proc p).kstack ≠ none)
    (hdir : (s.proc p).pgdir ≠ none) (hpost : Q () s) : wp (switchuvm p) Q E s := by
  rw [switchuvm, wp_bind, wp_getProc, if_neg hstack, if_neg hdir]
  exact hpost

end Lift

def unusedProc : Proc :=
  ⟨0, none, none, .unused, 0, none, 0, 0, false, [], ⟨.pl1, 0, 0, 0, 0⟩⟩

def firstTree : Tree.Kernel Slot where
  inode := Tree.boot.inode
  cache := Tree.boot.cache
  locked := ∅
  file := Tree.boot.file
  proc := fun p => if p = 0 then some ⟨rootIno, fun _ => none⟩ else none

theorem firstTree_quiet : firstTree.Quiet := by
  refine ⟨{ Tree.boot_quiet.settled with }, rfl, fun i => ?_, Tree.boot_quiet.sane⟩
  by_cases hi : i = rootIno
  · subst hi
    decide +kernel
  · have hcwd : ¬ rootIno = i := fun h => hi h.symm
    simp [Tree.Kernel.ref, Tree.Kernel.cwds, Tree.Kernel.opens, firstTree, Tree.boot, Tree.File.On,
      hi, hcwd]

def firstFiles : OpenFiles.Kernel Slot ℕ := ⟨firstTree, fun _ => none, fun _ => none⟩

def blank (m : Mem) (files : OpenFiles.Kernel Slot ℕ) : Kernel where
  mem := m
  proc := fun _ => unusedProc
  beyond := []
  nextpid := 1
  ticks := 0
  files := files
  outstanding := 0

def oneProcess (m : Mem) (d kstack : ℕ) (sz : BitVec 32) : Kernel :=
  ((blank m firstFiles).embryo 0).modifyProc 0 fun x =>
    { x with pgdir := some d, kstack := some kstack, sz := sz, state := .runnable }

theorem proc_oneProcess (m : Mem) (d kstack : ℕ) (sz : BitVec 32) :
    (oneProcess m d kstack sz).proc 0 = ⟨sz, some d, some kstack, .runnable, 1, none, 0, 0, false,
      [], Sched.fresh 0⟩ := by
  rfl

end Xv6.Process

import Xv6.Param
import Xv6.Vm.PageTable

/-!
# Processes and their memory

The functions of `kernel/proc.c` and `kernel/sysproc.c` that allocate and free memory: `allocproc`,
`freeproc`, `kfork`, `growproc` and `sys_sbrk`.  A process is what these functions and `exec` read
and write of `struct proc`; the trapframe is a page of physical memory, and its registers are words
of that page.

The kernel also hands out pages for pipes, kernel stacks, the disk driver and its own page table.
These are the pages `other`.
-/

namespace Xv6
namespace Vm

open Bytes Program

/-- The fields of `struct proc` that have to do with memory. -/
structure Proc where
  /-- `p->state != UNUSED` -/
  used : Bool
  trapframe : ℕ
  pagetable : ℕ
  sz : ℕ
  /-- `char name[16]` -/
  name : Mem

/-- The state of the kernel: physical memory, the process table, and what `exec` does to the file
system. -/
structure Kern where
  phys : Phys
  proc : Fin NPROC → Proc
  /-- The pages of other owners in the kernel. -/
  other : Finset ℕ
  /-- `log.outstanding` -/
  outstanding : ℕ
  /-- `ip->ref`, by inode number -/
  ref : ℕ → ℕ
  /-- `ip->lock.locked`, by inode number -/
  locked : ℕ → Bool

/-- Programs of the kernel. -/
abbrev KernM := Prog Panic Kern

/-- Another physical memory. -/
def Kern.setPhys (k : Kern) (m : Phys) : Kern := { k with phys := m }

/-- A program on physical memory. -/
def onPhys {α : Type} (x : VmM α) : KernM α := zoom Kern.phys Kern.setPhys x

/-- The process table with another entry for process `i`. -/
def Kern.setProc (k : Kern) (i : Fin NPROC) (p : Proc) : Kern :=
  { k with proc := Function.update k.proc i p }

section Set

variable (k : Kern) (m m' : Phys) (i : Fin NPROC) (p q : Proc)

@[simp] theorem Kern.setPhys_phys : (k.setPhys m).phys = m := rfl
@[simp] theorem Kern.setPhys_proc : (k.setPhys m).proc = k.proc := rfl
@[simp] theorem Kern.setProc_phys : (k.setProc i p).phys = k.phys := rfl
@[simp] theorem Kern.setProc_proc : (k.setProc i p).proc = Function.update k.proc i p := rfl
@[simp] theorem Kern.setPhys_self (k : Kern) : k.setPhys k.phys = k := rfl

@[simp] theorem Kern.setPhys_setPhys : (k.setPhys m).setPhys m' = k.setPhys m' := rfl

@[simp] theorem Kern.setProc_setPhys :
    (k.setProc i p).setPhys m = (k.setPhys m).setProc i p := rfl

@[simp] theorem Kern.setProc_setProc : (k.setProc i p).setProc i q = k.setProc i q := by
  simp only [setProc, Function.update_idem]

@[simp] theorem Kern.setProc_self : k.setProc i (k.proc i) = k := by
  rw [setProc, Function.update_eq_self]

end Set

/-- `proc[i]`. -/
def getProc (i : Fin NPROC) : KernM Proc := do
  let k ← get
  return k.proc i

/-- Assignments to fields of `proc[i]`. -/
def modifyProc (i : Fin NPROC) (f : Proc → Proc) : KernM Unit :=
  modify fun k => k.setProc i (f (k.proc i))

/-! ## Registers in the trapframe -/

def EPC : ℕ := 24
def SP : ℕ := 48
def A0 : ℕ := 112
def A1 : ℕ := 120

/-- `sizeof(struct trapframe)` -/
def TRAPFRAME_SIZE : ℕ := 288

/-- `p->trapframe->reg = v`. -/
def setReg (trapframe reg v : ℕ) : VmM Unit :=
  modify fun m => m.setPage trapframe (store 8 (m.mem trapframe) reg v)

/-- `*(np->trapframe) = *(p->trapframe)`. -/
def copyTrapframe (dst src : ℕ) : VmM Unit :=
  modify fun m => m.setPage dst fun o => if o < TRAPFRAME_SIZE then m.mem src o else m.mem dst o

/-- The name after `safestrcpy(name, t, 16)`, for the string `t`: at most 15 of its characters, the
0 that ends it, and one more 0. -/
def safestrcpy (name : Mem) (t : List UInt8) : Mem := fun o =>
  if o < min (t.length + 1) 15 then t.getD o 0
  else if o = min (t.length + 1) 15 then 0
  else name o

/-- The string in a buffer of `n` bytes, up to the first 0. -/
def cString (buf : Mem) (n : ℕ) : List UInt8 := ((List.range n).map buf).takeWhile (· ≠ 0)

/-! ## `kernel/proc.c` -/

/-- `if(p->trapframe) kfree(p->trapframe)`. -/
def freeTrapframe (L : Layout) (trapframe : ℕ) : VmM Unit :=
  if trapframe ≠ 0 then kfree L trapframe else return ()

/-- `if(p->pagetable) proc_freepagetable(p->pagetable, p->sz)`. -/
def freePagetable (L : Layout) (pagetable sz : ℕ) : VmM Unit :=
  if pagetable ≠ 0 then procFreepagetable L pagetable sz else return ()

/-- Free a `proc` structure and the data hanging from it, including user pages. -/
def freeproc (L : Layout) (i : Fin NPROC) : KernM Unit := do
  let p ← getProc i
  onPhys (freeTrapframe L p.trapframe)
  modifyProc i fun p => { p with trapframe := 0 }
  onPhys (freePagetable L p.pagetable p.sz)
  modifyProc i fun p =>
    { p with used := false, pagetable := 0, sz := 0, name := Function.update p.name 0 0 }

/-- Look in the process table for an unused process; if there is one, give it a trapframe and a
page table. -/
def allocproc (L : Layout) : KernM (Option (Fin NPROC)) := do
  let k ← get
  match (List.finRange NPROC).find? fun i => !(k.proc i).used with
  | none => return none
  | some i =>
    modifyProc i fun p => { p with used := true }
    let trapframe ← onPhys kalloc
    modifyProc i fun p => { p with trapframe := trapframe }
    if trapframe = 0 then
      freeproc L i
      return none
    else
      let pagetable ← onPhys (procPagetable L trapframe)
      modifyProc i fun p => { p with pagetable := pagetable }
      if pagetable = 0 then
        freeproc L i
        return none
      else return some i

/-- Grow or shrink the memory of process `i` by `n` bytes. -/
def growproc (L : Layout) (i : Fin NPROC) (n : ℤ) : KernM ℤ := do
  let p ← getProc i
  if n > 0 then
    if u64 (p.sz + n.toNat) > TRAPFRAME then return -1
    else
      let sz ← onPhys (uvmalloc L p.pagetable p.sz (u64 (p.sz + n.toNat)) PTE_W)
      if sz = 0 then return -1
      else
        modifyProc i fun p => { p with sz := sz }
        return 0
  else if n < 0 then
    let sz ← onPhys (uvmdealloc L p.pagetable p.sz ((p.sz + n) % 2 ^ 64).toNat)
    modifyProc i fun p => { p with sz := sz }
    return 0
  else return 0

/-- Create a new process, copying process `i`.  The source returns the pid of the child, this
function its index. -/
def kfork (L : Layout) (i : Fin NPROC) : KernM (Option (Fin NPROC)) := do
  match ← allocproc L with
  | none => return none
  | some j =>
    let p ← getProc i
    let np ← getProc j
    let r ← onPhys (uvmcopy L p.pagetable np.pagetable p.sz)
    if r < 0 then
      freeproc L j
      return none
    else
      modifyProc j fun np => { np with sz := p.sz }
      onPhys (copyTrapframe np.trapframe p.trapframe)
      onPhys (setReg np.trapframe A0 0)
      modifyProc j fun np => { np with name := safestrcpy np.name (cString p.name 16) }
      return some j

/-- The page fault of process `i` at `va`, in `usertrap`. -/
def pageFault (L : Layout) (i : Fin NPROC) (va : ℕ) : KernM ℕ := do
  let p ← getProc i
  onPhys (vmfault L p.pagetable p.sz p.pagetable va)

/-! ## `kernel/sysproc.c` -/

/-- `SBRK_EAGER` of `kernel/vm.h`. -/
def SBRK_EAGER : ℤ := 1

/-- `sys_sbrk` with arguments `n` and `t`. -/
def sysSbrk (L : Layout) (i : Fin NPROC) (n t : ℤ) : KernM ℤ := do
  let p ← getProc i
  if t = SBRK_EAGER ∨ n < 0 then
    let r ← growproc L i n
    if r < 0 then return -1 else return p.sz
  else if u64 (p.sz + n.toNat) < p.sz then return -1
  else if u64 (p.sz + n.toNat) > TRAPFRAME then return -1
  else
    modifyProc i fun p => { p with sz := u64 (p.sz + n.toNat) }
    return p.sz

/-! ## Starting the kernel -/

/-- Physical memory holds anything, and there is no process. -/
def Kern.cold (mem : ℕ → Mem) : Kern where
  phys := ⟨mem, 0⟩
  proc := fun _ => ⟨false, 0, 0, 0, fun _ => 0⟩
  other := ∅
  outstanding := 0
  ref := fun _ => 0
  locked := fun _ => false

/-- What `main` does to the state before the first process: `kinit`. -/
def boot (L : Layout) : KernM Unit := onPhys (kinit L)

end Vm
end Xv6

import Xv6.Vm.Kalloc

/-!
# Page tables

The functions of `kernel/vm.c` on user page tables.  A page table is given by the address of its
root page; a page-table entry by the page it lies in and its index.

The loops that go through an address range page by page take the number of their turns.  The
source ends them by a comparison of addresses; the addresses are page-aligned and grow by
`PGSIZE`, so this is after that number of turns.
-/

namespace Xv6
namespace Vm

open Bytes Program

/-- `pagetable[i]`. -/
def pte (mem : ℕ → Mem) (t i : ℕ) : ℕ := load 8 (mem t) (8 * i)

/-- `*pte`. -/
def readPte (t i : ℕ) : VmM ℕ := do
  let m ← get
  return pte m.mem t i

/-- The memory after `*pte = v`. -/
def Phys.setPte (m : Phys) (t i v : ℕ) : Phys := m.setPage t (store 8 (m.mem t) (8 * i) v)

/-- `*pte = v`. -/
def writePte (t i v : ℕ) : VmM Unit := modify fun m => m.setPte t i v

/-- One level of `walk`: entry `i` of the table `t`. -/
def walkLevel (t i : ℕ) (alloc : Bool) : VmM (Option ℕ) := do
  let e ← readPte t i
  if isV e then return some (pte2pa e)
  else if !alloc then return none
  else
    let pagetable ← kalloc
    if pagetable = 0 then return none
    else
      memset pagetable 0
      writePte t i (pa2pte pagetable ||| PTE_V)
      return some pagetable

/-- The page-table entry for `va`. -/
def walk (pagetable va : ℕ) (alloc : Bool) : VmM (Option (ℕ × ℕ)) :=
  if va ≥ MAXVA then panic .walk
  else do
    match ← walkLevel pagetable (px 2 va) alloc with
    | none => return none
    | some t1 =>
      match ← walkLevel t1 (px 1 va) alloc with
      | none => return none
      | some t0 => return some (t0, px 0 va)

/-- Look up a user page; 0 if it is not mapped. -/
def walkaddr (pagetable va : ℕ) : VmM ℕ :=
  if va ≥ MAXVA then return 0
  else do
    match ← walk pagetable va false with
    | none => return 0
    | some (t, i) =>
      let e ← readPte t i
      if !isV e then return 0
      else if !isU e then return 0
      else return pte2pa e

/-- The turns of `mappages`, `n` of them. -/
def mappagesFrom (pagetable perm : ℕ) : ℕ → ℕ → ℕ → VmM ℤ
  | 0, _, _ => return 0
  | n + 1, a, pa => do
    match ← walk pagetable a true with
    | none => return -1
    | some (t, i) =>
      let e ← readPte t i
      if isV e then panic .mappagesRemap
      else
        writePte t i (mkPte pa perm)
        mappagesFrom pagetable perm n (u64 (a + 4096)) (u64 (pa + 4096))

/-- Create page-table entries for the addresses from `va` on. -/
def mappages (pagetable va size pa perm : ℕ) : VmM ℤ :=
  if va % 4096 ≠ 0 then panic .mappagesVaNotAligned
  else if size % 4096 ≠ 0 then panic .mappagesSizeNotAligned
  else if size = 0 then panic .mappagesSize
  else mappagesFrom pagetable perm (size / 4096) va pa

/-- Create an empty user page table; 0 if out of memory. -/
def uvmcreate : VmM ℕ := do
  let pagetable ← kalloc
  if pagetable = 0 then return 0
  else
    memset pagetable 0
    return pagetable

/-- `if(do_free) kfree(pa)`. -/
def freeIf (L : Layout) (doFree : Bool) (pa : ℕ) : VmM Unit :=
  if doFree then kfree L pa else return ()

/-- The turns of `uvmunmap`. -/
def uvmunmapFrom (L : Layout) (pagetable : ℕ) (doFree : Bool) : ℕ → ℕ → VmM Unit
  | 0, _ => return ()
  | n + 1, a => do
    match ← walk pagetable a false with
    | none => uvmunmapFrom L pagetable doFree n (a + 4096)
    | some (t, i) =>
      let e ← readPte t i
      if !isV e then uvmunmapFrom L pagetable doFree n (a + 4096)
      else
        freeIf L doFree (pte2pa e)
        writePte t i 0
        uvmunmapFrom L pagetable doFree n (a + 4096)

/-- Remove `npages` mappings from `va` on, and free the pages if `doFree`. -/
def uvmunmap (L : Layout) (pagetable va npages : ℕ) (doFree : Bool) : VmM Unit :=
  if va % 4096 ≠ 0 then panic .uvmunmapNotAligned
  else uvmunmapFrom L pagetable doFree ((u64 (va + u64 (npages * 4096)) - va) / 4096) va

/-- A page count that goes through an `int`. -/
def intToU64 (x : ℕ) : ℕ := (cInt x % 2 ^ 64).toNat

/-- Deallocate user pages to bring the process size from `oldsz` to `newsz`. -/
def uvmdealloc (L : Layout) (pagetable oldsz newsz : ℕ) : VmM ℕ :=
  if newsz ≥ oldsz then return oldsz
  else if pgRoundUp newsz < pgRoundUp oldsz then do
    uvmunmap L pagetable (pgRoundUp newsz)
      (intToU64 ((pgRoundUp oldsz - pgRoundUp newsz) / 4096)) true
    return newsz
  else return newsz

/-- The turns of `uvmalloc`. -/
def uvmallocFrom (L : Layout) (pagetable oldsz newsz xperm : ℕ) : ℕ → ℕ → VmM ℕ
  | 0, _ => return newsz
  | n + 1, a => do
    let mem ← kalloc
    if mem = 0 then
      let _ ← uvmdealloc L pagetable a oldsz
      return 0
    else
      memset mem 0
      let r ← mappages pagetable a 4096 mem (PTE_R ||| PTE_U ||| xperm)
      if r ≠ 0 then
        kfree L mem
        let _ ← uvmdealloc L pagetable a oldsz
        return 0
      else uvmallocFrom L pagetable oldsz newsz xperm n (a + 4096)

/-- Allocate memory to grow a process from `oldsz` to `newsz`; 0 on error. -/
def uvmalloc (L : Layout) (pagetable oldsz newsz xperm : ℕ) : VmM ℕ :=
  if newsz < oldsz then return oldsz
  else uvmallocFrom L pagetable (pgRoundUp oldsz) newsz xperm
    ((newsz - pgRoundUp oldsz + 4095) / 4096) (pgRoundUp oldsz)

/-- Recursively free page-table pages; `d` bounds the recursion. -/
def freewalk (L : Layout) : ℕ → ℕ → VmM Unit
  | 0, _ => panic .freewalkDepth
  | d + 1, pagetable => do
    let _ : Option Unit ← countUp (fun i => do
      let e ← readPte pagetable i
      if isV e && !(isR e || isW e || isX e) then
        freewalk L d (pte2pa e)
        writePte pagetable i 0
        return none
      else if isV e then panic .freewalkLeaf
      else return none) 0 512
    kfree L pagetable

/-- Free user memory pages, then free page-table pages. -/
def uvmfree (L : Layout) (pagetable sz : ℕ) : VmM Unit :=
  if sz > 0 then do
    uvmunmap L pagetable 0 (pgRoundUp sz / 4096) true
    freewalk L 3 pagetable
  else freewalk L 3 pagetable

/-- The turns of `uvmcopy`. -/
def uvmcopyFrom (L : Layout) (old new : ℕ) : ℕ → ℕ → VmM ℤ
  | 0, _ => return 0
  | n + 1, i => do
    match ← walk old i false with
    | none => uvmcopyFrom L old new n (i + 4096)
    | some (t, j) =>
      let e ← readPte t j
      if !isV e then uvmcopyFrom L old new n (i + 4096)
      else
        let mem ← kalloc
        if mem = 0 then
          uvmunmap L new 0 (i / 4096) true
          return -1
        else
          memmovePage mem (pte2pa e)
          let r ← mappages new i 4096 mem (pteFlags e)
          if r ≠ 0 then
            kfree L mem
            uvmunmap L new 0 (i / 4096) true
            return -1
          else uvmcopyFrom L old new n (i + 4096)

/-- Copy a parent's memory into a child's page table. -/
def uvmcopy (L : Layout) (old new sz : ℕ) : VmM ℤ :=
  uvmcopyFrom L old new ((sz + 4095) / 4096) 0

/-- Mark a page-table entry invalid for user access. -/
def uvmclear (pagetable va : ℕ) : VmM Unit := do
  match ← walk pagetable va false with
  | none => panic .uvmclear
  | some (t, i) =>
    let e ← readPte t i
    writePte t i (clearU e)

/-- Is `va` mapped? -/
def ismapped (pagetable va : ℕ) : VmM Bool := do
  match ← walk pagetable va false with
  | none => return false
  | some (t, i) =>
    let e ← readPte t i
    return isV e

/-- `vmfault`, for the process with page table `ppt` and size `psz`. -/
def vmfault (L : Layout) (ppt psz pagetable va : ℕ) : VmM ℕ :=
  if va ≥ psz then return 0
  else do
    let va := pgRoundDown va
    if ← ismapped pagetable va then return 0
    else
      let mem ← kalloc
      if mem = 0 then return 0
      else
        memset mem 0
        let r ← mappages ppt va 4096 mem (PTE_W ||| PTE_U ||| PTE_R)
        if r ≠ 0 then
          kfree L mem
          return 0
        else return mem

/-! ## Page tables of processes -/

/-- A user page table with no user memory, but with trampoline and trapframe. -/
def procPagetable (L : Layout) (trapframe : ℕ) : VmM ℕ := do
  let pagetable ← uvmcreate
  if pagetable = 0 then return 0
  else
    let r ← mappages pagetable TRAMPOLINE 4096 L.trampoline (PTE_R ||| PTE_X)
    if r < 0 then
      uvmfree L pagetable 0
      return 0
    else
      let r ← mappages pagetable TRAPFRAME 4096 trapframe (PTE_R ||| PTE_W)
      if r < 0 then
        uvmunmap L pagetable TRAMPOLINE 1 false
        uvmfree L pagetable 0
        return 0
      else return pagetable

/-- Free a process's page table, and the physical memory it refers to. -/
def procFreepagetable (L : Layout) (pagetable sz : ℕ) : VmM Unit := do
  uvmunmap L pagetable TRAMPOLINE 1 false
  uvmunmap L pagetable TRAPFRAME 1 false
  uvmfree L pagetable sz

end Vm
end Xv6

import Xv6.Lib.Program
import Xv6.Vm.Riscv

/-!
# The physical page allocator

`kernel/kalloc.c`.  Physical memory is a function from the address of a page to its bytes.  The
free list is threaded through the free pages: `kmem.freelist` holds the address of the first one,
and the first eight bytes of a free page hold the address of the next.

`FreeList L m free` says that the pages on the list are those of `free`, in order and each once.
It is all the rest of the development needs to know of the allocator: `kalloc` takes the first page
of the list, if there is one, and `kfree` puts a page back.
-/

namespace Xv6
namespace Vm

open Bytes Program

/-- What `kernel.ld` fixes: the address after the kernel, and the page of the trampoline, which is
part of the kernel's text. -/
structure Layout where
  kend : ℕ
  trampoline : ℕ
  trampoline_mod : trampoline % 4096 = 0
  trampoline_lt : trampoline + 4096 ≤ kend
  kernbase_le : KERNBASE ≤ trampoline
  kend_le : kend ≤ PHYSTOP

/-- A page of `[end, PHYSTOP)`. -/
def Layout.Page (L : Layout) (p : ℕ) : Prop := p % 4096 = 0 ∧ L.kend ≤ p ∧ p < PHYSTOP

variable {L : Layout}

theorem Layout.Page.ne_zero {p : ℕ} (h : L.Page p) : p ≠ 0 := by
  have := L.trampoline_lt
  have := h.2.1
  omega

theorem Layout.Page.lt {p : ℕ} (h : L.Page p) : p < 2 ^ 56 := by
  have := h.2.2
  rw [PHYSTOP_eq] at this
  omega

/-- Physical memory, page by page, and `kmem.freelist`. -/
structure Phys where
  mem : ℕ → Mem
  freelist : ℕ

/-- The panics of the virtual memory code and of `exec`. -/
inductive Panic where
  | kfree
  | walk
  | mappagesVaNotAligned
  | mappagesSizeNotAligned
  | mappagesSize
  | mappagesRemap
  | uvmunmapNotAligned
  | freewalkLeaf
  /-- `freewalk` recurses deeper than a page table has levels. -/
  | freewalkDepth
  | uvmclear
  | loadseg
  | ilock
  | iunlock
  /-- A kernel address that is not mapped is used. -/
  | kerneltrap
  deriving DecidableEq

/-- Programs on physical memory. -/
abbrev VmM := Prog Panic Phys

/-- The bytes of one page change. -/
def Phys.setPage (m : Phys) (p : ℕ) (v : Mem) : Phys := { m with mem := Function.update m.mem p v }

@[simp] theorem Phys.setPage_mem_self (m : Phys) (p : ℕ) (v : Mem) : (m.setPage p v).mem p = v :=
  Function.update_self ..

theorem Phys.setPage_mem_of_ne {m : Phys} {p q : ℕ} {v : Mem} (h : q ≠ p) :
    (m.setPage p v).mem q = m.mem q :=
  Function.update_of_ne h ..

/-- `memset(pa, c, PGSIZE)`. -/
def memset (pa : ℕ) (c : UInt8) : VmM Unit := modify fun m => m.setPage pa fun _ => c

/-- `memmove(dst, src, PGSIZE)`. -/
def memmovePage (dst src : ℕ) : VmM Unit := modify fun m => m.setPage dst (m.mem src)

/-- The page at `pa` is filled with junk, and put in front of the free list. -/
def Phys.push (m : Phys) (pa : ℕ) : Phys :=
  { m.setPage pa (store 8 (fun _ => 1) 0 m.freelist) with freelist := pa }

/-- Free the page of physical memory at `pa`. -/
def kfree (L : Layout) (pa : ℕ) : VmM Unit :=
  if pa % 4096 ≠ 0 ∨ pa < L.kend ∨ pa ≥ PHYSTOP then panic .kfree
  else modify fun m => m.push pa

/-- Allocate one page, or return 0. -/
def kalloc : VmM ℕ := do
  let m ← get
  let r := m.freelist
  if r ≠ 0 then
    set ({ m.setPage r (fun _ => 5) with freelist := load 8 (m.mem r) 0 } : Phys)
    return r
  else return r

/-- `freerange(end, PHYSTOP)`: the turns of its loop. -/
def freerange (L : Layout) : VmM (Option Unit) :=
  countUp (fun i => do kfree L (pgRoundUp L.kend + 4096 * i); return none) 0
    ((PHYSTOP - pgRoundUp L.kend) / 4096)

/-- `kinit`: free every page from `PGROUNDUP(end)` on. -/
def kinit (L : Layout) : VmM Unit := do
  let _ ← freerange L
  return ()

/-! ## The free list -/

/-- The list of pages that starts at `head`. -/
def Chain (mem : ℕ → Mem) : ℕ → List ℕ → Prop
  | head, [] => head = 0
  | head, p :: ps => head = p ∧ Chain mem (load 8 (mem p) 0) ps

theorem Chain.congr {mem mem' : ℕ → Mem} {head : ℕ} {ps : List ℕ} (h : Chain mem head ps)
    (hmem : ∀ p ∈ ps, mem' p = mem p) : Chain mem' head ps := by
  induction ps generalizing head with
  | nil => exact h
  | cons p ps ih =>
    refine ⟨h.1, ?_⟩
    rw [hmem p (List.mem_cons_self ..)]
    exact ih h.2 fun q hq => hmem q (List.mem_cons_of_mem _ hq)

/-- The pages on `kmem.freelist` are those of `free`, each once. -/
structure FreeList (L : Layout) (m : Phys) (free : List ℕ) : Prop where
  chain : Chain m.mem m.freelist free
  nodup : free.Nodup
  page : ∀ p ∈ free, L.Page p

variable {m : Phys} {free : List ℕ} {p : ℕ}

theorem FreeList.unique {free' : List ℕ} (h : FreeList L m free) (h' : FreeList L m free') :
    free = free' := by
  have hgen : ∀ (ps ps' : List ℕ) (head : ℕ), Chain m.mem head ps → Chain m.mem head ps' →
      (∀ p ∈ ps, L.Page p) → (∀ p ∈ ps', L.Page p) → ps = ps' := by
    intro ps
    induction ps with
    | nil =>
      intro ps' head hc hc' _ hps'
      cases ps' with
      | nil => rfl
      | cons p ps' => exact absurd (hc'.1.symm.trans hc) (hps' p (List.mem_cons_self ..)).ne_zero
    | cons p ps ih =>
      intro ps' head hc hc' hps hps'
      cases ps' with
      | nil => exact absurd (hc.1.symm.trans hc') (hps p (List.mem_cons_self ..)).ne_zero
      | cons p' ps' =>
        obtain rfl : p = p' := hc.1.symm.trans hc'.1
        rw [ih ps' _ hc.2 hc'.2 (fun q hq => hps q (List.mem_cons_of_mem _ hq))
          fun q hq => hps' q (List.mem_cons_of_mem _ hq)]
  exact hgen free free' m.freelist h.chain h'.chain h.page h'.page

theorem FreeList.setPage (h : FreeList L m free) (hp : p ∉ free) (v : Mem) :
    FreeList L (m.setPage p v) free where
  chain := h.chain.congr fun _ hq => Phys.setPage_mem_of_ne fun heq => hp (heq ▸ hq)
  nodup := h.nodup
  page := h.page

theorem FreeList.freelist_lt (h : FreeList L m free) : m.freelist < 2 ^ 64 := by
  cases free with
  | nil =>
    rw [show m.freelist = 0 from h.chain]
    decide
  | cons p ps =>
    have hlt := (h.page p (List.mem_cons_self ..)).lt
    rw [h.chain.1]
    omega

theorem kfree_run (hp : L.Page p) (m : Phys) : kfree L p m = .ok ((), m.push p) := by
  have hcheck : ¬ (p % 4096 ≠ 0 ∨ p < L.kend ∨ p ≥ PHYSTOP) := by
    obtain ⟨hmod, hlo, hhi⟩ := hp
    omega
  rw [kfree, if_neg hcheck]
  rfl

theorem Phys.push_mem_of_ne {q : ℕ} (h : q ≠ p) : (m.push p).mem q = m.mem q :=
  Phys.setPage_mem_of_ne h

theorem FreeList.push (h : FreeList L m free) (hp : L.Page p) (hnot : p ∉ free) :
    FreeList L (m.push p) (p :: free) := by
  refine ⟨⟨rfl, ?_⟩, List.nodup_cons.mpr ⟨hnot, h.nodup⟩, ?_⟩
  · have hnext : load 8 ((m.push p).mem p) 0 = m.freelist := by
      rw [Phys.push, Phys.setPage_mem_self]
      exact load_store_of_lt h.freelist_lt
    rw [hnext]
    exact (h.setPage hnot _).chain
  · intro q hq
    rcases List.mem_cons.mp hq with rfl | hq
    · exact hp
    · exact h.page q hq

theorem kfree_spec (h : FreeList L m free) (hp : L.Page p) (hnot : p ∉ free) :
    Ensures (kfree L p) m fun _ m' =>
      FreeList L m' (p :: free) ∧ ∀ q, q ≠ p → m'.mem q = m.mem q :=
  .of_eq (kfree_run hp m) ⟨h.push hp hnot, fun _ hq => Phys.push_mem_of_ne hq⟩

theorem kalloc_spec (h : FreeList L m free) :
    Ensures kalloc m fun r m' =>
      (r = 0 ∧ free = [] ∧ m' = m) ∨
        ∃ free', free = r :: free' ∧ FreeList L m' free' ∧ ∀ q, q ≠ r → m'.mem q = m.mem q := by
  rw [kalloc]
  refine .get_bind ?_
  cases free with
  | nil =>
    have hzero : m.freelist = 0 := h.chain
    refine .ite (fun hne => absurd hzero hne) fun _ => .pure (Or.inl ⟨hzero, rfl, rfl⟩)
  | cons p ps =>
    have hhead : m.freelist = p := h.chain.1
    have hnot : p ∉ ps := (List.nodup_cons.mp h.nodup).1
    refine .ite (fun _ => ?_) fun hne => ?_
    · refine .bind (.set (Q := fun _ m' => m' = _) rfl) ?_
      rintro - m' rfl
      refine .pure (Or.inr ⟨ps, by rw [hhead], ⟨?_, (List.nodup_cons.mp h.nodup).2,
        fun q hq => h.page q (List.mem_cons_of_mem _ hq)⟩, fun q hq => Phys.setPage_mem_of_ne hq⟩)
      rw [hhead]
      exact h.chain.2.congr fun q hq => Phys.setPage_mem_of_ne fun heq => hnot (heq ▸ hq)
    · rw [hhead, not_not] at hne
      exact absurd hne (h.page p (List.mem_cons_self ..)).ne_zero

theorem Layout.page_iff (L : Layout) (p : ℕ) :
    L.Page p ↔ p % 4096 = 0 ∧ pgRoundUp L.kend ≤ p ∧ p < PHYSTOP := by
  have hle := L.kend_le
  rw [PHYSTOP_eq] at hle
  rw [Layout.Page, PHYSTOP_eq, pgRoundUp_eq (by rw [MAXVA_eq]; omega)]
  omega

/-- **After `kinit` every page is on the free list.** -/
theorem kinit_spec (L : Layout) (mem : ℕ → Mem) :
    Ensures (kinit L) ⟨mem, 0⟩ fun _ m =>
      ∃ free, FreeList L m free ∧ ∀ p, L.Page p → p ∈ free := by
  have hmod := pgRoundUp_mod L.kend
  have hstop := PHYSTOP_eq
  -- after `i` turns the first `i` pages are on the list
  refine Ensures.bind (P := fun _ m => ∃ free, FreeList L m free ∧ ∀ p, L.Page p → p ∈ free)
    ((Ensures.countUp (R := fun _ _ => False) (I := fun i m => ∃ free, FreeList L m free ∧
      ∀ p, p ∈ free ↔ L.Page p ∧ p < pgRoundUp L.kend + 4096 * i) ?_ ?_).mono ?_)
    fun _ _ h => .pure h
  · refine ⟨[], ⟨rfl, List.nodup_nil, by simp⟩, fun p => ?_⟩
    rw [L.page_iff]
    simp only [List.not_mem_nil, false_iff]
    omega
  · rintro i m - hi ⟨free, hfree, hmem⟩
    have hpage : L.Page (pgRoundUp L.kend + 4096 * i) := by
      rw [L.page_iff]
      omega
    have hnot : pgRoundUp L.kend + 4096 * i ∉ free := fun h => by
      have := ((hmem _).mp h).2
      omega
    refine .bind (kfree_spec hfree hpage hnot) fun _ m' h => .pure ⟨_, h.1, fun p => ?_⟩
    rw [List.mem_cons, hmem]
    constructor
    · rintro (rfl | ⟨hp, hlt⟩)
      · exact ⟨hpage, by omega⟩
      · exact ⟨hp, by omega⟩
    · rintro ⟨hp, hlt⟩
      by_cases heq : p = pgRoundUp L.kend + 4096 * i
      · exact Or.inl heq
      · have := (L.page_iff p).mp hp
        exact Or.inr ⟨hp, by omega⟩
  · rintro (_ | _) m h
    · obtain ⟨free, hfree, hmem⟩ := h
      refine ⟨free, hfree, fun p hp => (hmem p).mpr ⟨hp, ?_⟩⟩
      have := (L.page_iff p).mp hp
      omega
    · exact absurd h id

/-- A machine with eight pages after the kernel. -/
def smallLayout : Layout where
  kend := PHYSTOP - 8 * 4096
  trampoline := KERNBASE
  trampoline_mod := by decide
  trampoline_lt := by decide
  kernbase_le := le_refl _
  kend_le := by decide

end Vm
end Xv6

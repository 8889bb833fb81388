import Xv6.Lib.Transition
import Xv6.Vm.Kexec

/-!
# Every page has one owner

The system of this file is the kernel as far as it concerns physical memory.  Its actions are the
calls that allocate and free pages, each of them a program of the previous files run to its end,
and what may happen to memory in between: user code stores to its pages, a trap saves registers in
the trapframe, and other parts of the kernel allocate, write and free pages of their own.

`Good` is the invariant: `Inv` of the processes, with the pages `other` for the rest of the kernel.
Each action keeps it and does not panic (`act_spec`), so it holds along every run.  What it says
about one page is read off at the end: there is exactly one `Use` of it.
-/

namespace Xv6
namespace Vm

open Bytes Program Slots Transition

/-! ## The system -/

/-- The calls, and what happens between them. -/
inductive Action where
  | allocproc
  | kfork (i : Fin NPROC)
  | sbrk (i : Fin NPROC) (n t : ℤ)
  | pageFault (i : Fin NPROC) (va : ℕ)
  | kexec (i : Fin NPROC) (namei : List UInt8 → Option File) (path : List UInt8) (argv : List ℕ)
  | sysExec (i : Fin NPROC) (namei : List UInt8 → Option File) (upath uargv : ℕ)
  | freeproc (i : Fin NPROC)
  /-- `uservec` saves the registers of the user program. -/
  | trap (i : Fin NPROC) (registers : Mem)
  /-- User code changes the page at `va`. -/
  | userStore (i : Fin NPROC) (va : ℕ) (page : Mem)
  | kernelAlloc
  | kernelFree (p : ℕ)
  | kernelStore (p : ℕ) (page : Mem)

/-- When an action can be taken: it is the action of a process there is, its arguments are strings,
user code has the right to store, and the kernel uses its own pages. -/
def Enabled (k : Kern) : Action → Prop
  | .allocproc | .kernelAlloc => True
  | .kfork i | .sbrk i _ _ | .pageFault i _ | .sysExec i _ _ _ | .freeproc i | .trap i _ =>
    (k.proc i).used
  | .kexec i _ _ argv => (k.proc i).used ∧
    ∀ a ∈ argv, a ∈ k.other ∧ (cString (k.phys.mem a) 4096).length < 4096
  | .userStore i va _ => (k.proc i).used ∧ va < MAXVA ∧
    isV (lookup k.phys.mem (k.proc i).pagetable va) ∧
    isU (lookup k.phys.mem (k.proc i).pagetable va) ∧
    isW (lookup k.phys.mem (k.proc i).pagetable va)
  | .kernelFree p | .kernelStore p _ => p ∈ k.other

instance (k : Kern) : (a : Action) → Decidable (Enabled k a)
  | .allocproc | .kernelAlloc => inferInstanceAs (Decidable True)
  | .kfork i | .sbrk i _ _ | .pageFault i _ | .sysExec i _ _ _ | .freeproc i | .trap i _ =>
    inferInstanceAs (Decidable ((k.proc i).used = true))
  | .kexec .. | .userStore .. => inferInstanceAs (Decidable (_ ∧ _))
  | .kernelFree p | .kernelStore p _ => inferInstanceAs (Decidable (p ∈ k.other))

/-- What an action does. -/
def act (L : Layout) : Action → KernM Unit
  | .allocproc => discard (allocproc L)
  | .kfork i => discard (kfork L i)
  | .sbrk i n t => discard (sysSbrk L i n t)
  | .pageFault i va => discard (pageFault L i va)
  | .kexec i namei path argv => discard (kexec L namei i path argv)
  | .sysExec i namei upath uargv => discard (sysExec L namei i upath uargv)
  | .freeproc i => freeproc L i
  | .trap i registers => modify fun k => k.setPhys (k.phys.setPage (k.proc i).trapframe registers)
  | .userStore i va page => modify fun k => k.setPhys
    (k.phys.setPage (pte2pa (lookup k.phys.mem (k.proc i).pagetable va)) page)
  | .kernelAlloc => do
    let p ← onPhys kalloc
    if p = 0 then return () else modify fun k => { k with other := insert p k.other }
  | .kernelFree p => do
    onPhys (kfree L p)
    modify fun k => { k with other := k.other.erase p }
  | .kernelStore p page => modify fun k => k.setPhys (k.phys.setPage p page)

/-- One action, with its panic if it has one. -/
def perform (L : Layout) (k : Kern) (a : Action) : Outcome Panic Kern :=
  if Enabled k a then
    match act L a k with
    | .ok (_, k') => .next k'
    | .error e => .panic e
  else .blocked

/-- The steps of the system. -/
def step (L : Layout) (k : Kern) (a : Action) : Option Kern := (perform L k a).next?

/-! ## Every action keeps the invariant -/

/-- The invariant between actions. -/
structure Good (L : Layout) (k : Kern) : Prop where
  inv : Inv L k.phys k.proc k.other
  unlocked : ∀ n, k.locked n = false

variable {L : Layout} {k k' : Kern} {i j : Fin NPROC} {p : ℕ}

theorem ProcStep.good (h : Good L k) (hstep : ProcStep L k.other i k k') : Good L k' := by
  obtain ⟨m', p, rfl, -, -, -, hinv, -⟩ := hstep
  exact ⟨hinv, h.unlocked⟩

theorem Inv.userStore {A : Set ℕ} {va : ℕ} (h : Inv L k.phys k.proc A) (hi : (k.proc i).used)
    (hV : isV (lookup k.phys.mem (k.proc i).pagetable va))
    (hU : isU (lookup k.phys.mem (k.proc i).pagetable va)) (page : Mem) :
    Inv L (k.phys.setPage (pte2pa (lookup k.phys.mem (k.proc i).pagetable va)) page) k.proc A := by
  obtain ⟨-, hpt, hmapped⟩ := h.live i hi
  have hroot := h.root_mem hi
  obtain ⟨hspace, hframe, hlookup⟩ := h.space.storeLeaf hroot hV (hmapped.owns_of_isU hU) page
  exact h.change hspace h.other hframe (fun va _ _ => hlookup _ hroot va) fun _ =>
    (h.below i hpt).congr fun va => hlookup _ hroot va

theorem Inv.freed {A H : Set ℕ} {m' : Phys} (h : Inv L k.phys k.proc A)
    (hcore : Core L m' (Function.update k.proc i (k.proc i).cleared) A)
    (hframe : Frame H (roots (Function.update k.proc i (k.proc i).cleared)) k.phys m') :
    Inv L m' (Function.update k.proc i (k.proc i).cleared) A := by
  rw [roots, pagetable_update] at hframe
  rw [show (k.proc i).cleared.pagetable = 0 from rfl, values_clear h.pagetable_distinct i] at hframe
  exact h.update hcore hframe (fun h' => absurd h' (by simp [Proc.cleared])) fun _ =>
    ⟨rfl, rfl, rfl⟩

/-- Only the pages of the kernel have changed. -/
def KernelStep (L : Layout) (k k' : Kern) : Prop :=
  Good L k' ∧ k'.proc = k.proc ∧ Frame (trapframes k.proc) (roots k.proc) k.phys k'.phys

theorem Good.ensures_kernelAlloc (h : Good L k) :
    Ensures (act L .kernelAlloc) k fun _ k' => KernelStep L k k' := by
  refine ensures_onPhys_bind h.inv.space.ensures_kalloc ?_
  rintro p m' (⟨rfl, rfl⟩ | ⟨hpage, hnot, hspace, hframe⟩)
  · exact .ite (fun _ => .pure ⟨h, rfl, Frame.refl _ _ _⟩) fun h0 => absurd rfl h0
  · refine .ite (fun h0 => absurd h0 hpage.ne_zero) fun _ => .modify ⟨⟨?_, h.unlocked⟩, rfl,
      hframe.mono Set.subset_union_right (le_refl _)⟩
    refine h.inv.reframe ?_ ?_ hframe
    · rw [Finset.coe_insert, Set.insert_union]
      exact hspace
    · intro q hq
      rcases Finset.mem_insert.mp (Finset.mem_coe.mp hq) with rfl | hq
      · exact fun htf => hnot (Or.inr htf)
      · exact h.inv.other q hq

theorem Good.ensures_kernelFree (h : Good L k) (hp : p ∈ k.other) :
    Ensures (act L (.kernelFree p)) k fun _ k' => KernelStep L k k' := by
  have hnot : p ∉ (↑(k.other.erase p) ∪ trapframes k.proc : Set ℕ) := by
    rintro (hmem | hmem)
    · exact Finset.notMem_erase p k.other hmem
    · exact h.inv.other p hp hmem
  have hspace := h.inv.space
  rw [← Finset.insert_erase hp, Finset.coe_insert, Set.insert_union] at hspace
  refine ensures_onPhys_bind (hspace.ensures_kfree hnot) ?_
  rintro - m' ⟨hspace', hframe⟩
  refine .modify ⟨⟨h.inv.reframe hspace' (fun q hq => ?_) hframe, h.unlocked⟩, rfl,
    hframe.mono Set.subset_union_right (le_refl _)⟩
  exact h.inv.other q (Finset.mem_of_mem_erase hq)

theorem Good.kernelStore (h : Good L k) (hp : p ∈ k.other) (page : Mem) :
    KernelStep L k (k.setPhys (k.phys.setPage p page)) := by
  obtain ⟨hspace, hframe⟩ := h.inv.space.setHeld (Or.inl hp) page
  refine ⟨⟨h.inv.reframe hspace h.inv.other hframe, h.unlocked⟩, rfl, hframe.mono ?_ (le_refl _)⟩
  exact fun q hq => ⟨Or.inr hq, fun heq => h.inv.other p hp (heq ▸ hq)⟩

/-- **Every action keeps the invariant, and none panics.** -/
theorem act_spec (h : Good L k) (a : Action) (ha : Enabled k a) :
    Ensures (act L a) k fun _ k' => Good L k' := by
  obtain ⟨hinv, hlock⟩ := h
  cases a with
  | allocproc =>
    refine Ensures.discard ((allocproc_spec hinv).mono ?_)
    rintro res _ ⟨m', proc', rfl, hinv', -⟩
    exact ⟨hinv', hlock⟩
  | kfork i =>
    refine Ensures.discard ((kfork_spec hinv ha).mono ?_)
    rintro res _ ⟨m', proc', rfl, hinv', -⟩
    exact ⟨hinv', hlock⟩
  | sbrk i n t =>
    exact Ensures.discard ((sysSbrk_spec hinv ha n t).mono fun _ _ hs => hs.good ⟨hinv, hlock⟩)
  | pageFault i va =>
    exact Ensures.discard ((pageFault_spec hinv ha va).mono fun _ _ hs => hs.good ⟨hinv, hlock⟩)
  | kexec i namei path argv =>
    obtain ⟨hused, hargv⟩ := ha
    refine Ensures.discard ((kexec_spec (fun a ha => (hargv a ha).1)
      (fun a ha => (hargv a ha).2) hinv hused namei path fun ip _ => hlock ip.inum).mono ?_)
    rintro res k' (⟨-, m', rfl, hspace, hframe⟩ | ⟨-, m', p, rfl, -, -, hinv', -⟩)
    · exact ⟨hinv.reframe hspace hinv.other hframe, hlock⟩
    · exact ⟨hinv', hlock⟩
  | sysExec i namei upath uargv =>
    refine Ensures.discard ((sysExec_spec hinv ha namei (fun _ ip _ => hlock ip.inum) upath
      uargv).mono ?_)
    rintro res k' (⟨-, m', rfl, hw⟩ | ⟨-, m', p, rfl, -, -, hinv', -⟩)
    · exact ⟨hinv.change hw.space hinv.other hw.frame hw.high fun _ => hw.below, hlock⟩
    · exact ⟨hinv', hlock⟩
  | freeproc i =>
    refine (freeproc_spec hinv.toCore i).mono ?_
    rintro - _ ⟨m', rfl, hcore, hframe⟩
    exact ⟨hinv.freed hcore hframe, hlock⟩
  | trap i registers => exact .modify ⟨hinv.setTrapframe ha registers, hlock⟩
  | userStore i va page => exact .modify ⟨hinv.userStore ha.1 ha.2.2.1 ha.2.2.2.1 page, hlock⟩
  | kernelAlloc => exact (Good.ensures_kernelAlloc ⟨hinv, hlock⟩).mono fun _ _ hk => hk.1
  | kernelFree p => exact (Good.ensures_kernelFree ⟨hinv, hlock⟩ ha).mono fun _ _ hk => hk.1
  | kernelStore p page => exact .modify (Good.kernelStore ⟨hinv, hlock⟩ ha page).1

/-! ## The use of a page -/

/-- What a page is used for. -/
inductive Use where
  /-- It is the `n`-th page of the free list. -/
  | free (n : ℕ)
  /-- It is the trapframe of process `i`. -/
  | trapframe (i : Fin NPROC)
  /-- It is the table at `π` of the page table of process `i`. -/
  | table (i : Fin NPROC) (π : Path)
  /-- Process `i` has it at the virtual address `va`. -/
  | leaf (i : Fin NPROC) (va : ℕ)
  /-- Another part of the kernel has it. -/
  | kernel

/-- Page `p` has use `u`, when `free` is the free list. -/
def Has (k : Kern) (free : List ℕ) (p : ℕ) : Use → Prop
  | .free n => free[n]? = some p
  | .trapframe i => (k.proc i).used ∧ (k.proc i).trapframe = p
  | .table i π => (k.proc i).used ∧ π.length ≤ 2 ∧ InTable π ∧
    node k.phys.mem (k.proc i).pagetable π = some p
  | .leaf i va => (k.proc i).used ∧ va % 4096 = 0 ∧ va < 2 ^ 39 ∧ Owns va ∧
    isV (lookup k.phys.mem (k.proc i).pagetable va) ∧
    pte2pa (lookup k.phys.mem (k.proc i).pagetable va) = p
  | .kernel => p ∈ k.other

/-- The process that has a page for this use. -/
def Use.process? : Use → Option (Fin NPROC)
  | .free _ | .kernel => none
  | .trapframe i | .table i _ | .leaf i _ => some i

/-- The place in the page tables. -/
def Use.place? : Use → Option Path
  | .free _ | .kernel | .trapframe _ => none
  | .table _ π => some π
  | .leaf _ va => some (path va)

section Use

variable {free : List ℕ} {u u' : Use} {π : Path}
  (h : Good L k) (ho : Owned L k.phys free (k.other ∪ trapframes k.proc) (roots k.proc))

theorem Has.uses (hi : u.process? = some i) (hπ : u.place? = some π) (hu : Has k free p u) :
    Uses k.phys.mem (k.proc i).pagetable π p := by
  cases u with
  | free | kernel | trapframe => exact absurd hπ (by simp [Use.place?])
  | table j ρ =>
    obtain rfl : j = i := by simpa [Use.process?] using hi
    obtain rfl : ρ = π := by simpa [Use.place?] using hπ
    exact .of_table hu.2.1 hu.2.2.1 hu.2.2.2
  | leaf j va =>
    obtain rfl : j = i := by simpa [Use.process?] using hi
    obtain rfl : path va = π := by simpa [Use.place?] using hπ
    exact uses_path_iff.mpr ⟨hu.2.2.2.1, hu.2.2.2.2.1, hu.2.2.2.2.2.symm⟩

theorem Has.used (hi : u.process? = some i) (hu : Has k free p u) : (k.proc i).used := by
  cases u with
  | free | kernel => exact absurd hi (by simp [Use.process?])
  | trapframe j | table j _ | leaf j _ =>
    obtain rfl : j = i := by simpa [Use.process?] using hi
    exact hu.1

theorem exists_use_of_uses (hi : (k.proc i).used)
    (hu : Uses k.phys.mem (k.proc i).pagetable π p) :
    ∃ u, Has k free p u ∧ u.process? = some i ∧ u.place? = some π := by
  by_cases hlen : π.length ≤ 2
  · exact ⟨.table i π, ⟨hi, hlen, hu.inTable, hu.node_eq⟩, rfl, rfl⟩
  · have hle := hu.length_le
    obtain ⟨i₂, i₁, i₀, rfl⟩ := List.length_eq_three.mp (show π.length = 3 by omega)
    obtain ⟨h₂, h₁, h₀⟩ : i₂ < 512 ∧ i₁ < 512 ∧ i₀ < 512 := by simpa [InTable] using hu.inTable
    obtain ⟨va, hva, hmod, hpath⟩ := exists_path h₂ h₁ h₀
    rw [← hpath, uses_path_iff] at hu
    exact ⟨.leaf i va, ⟨hi, hmod, hva, hu.1, hu.2.1, hu.2.2.symm⟩, rfl, congrArg some hpath⟩

include h

theorem Good.used_of_pagetable (hne : (k.proc i).pagetable ≠ 0) : (k.proc i).used := by
  by_contra hnot
  exact hne (h.inv.dead i (by simpa using hnot)).2.1

theorem Good.used_of_trapframe (hne : (k.proc i).trapframe ≠ 0) : (k.proc i).used := by
  by_contra hnot
  exact hne (h.inv.dead i (by simpa using hnot)).1

/-- Who has a page of a given use, for the invariant. -/
def Use.region (k : Kern) (free : List ℕ) : Use → ℕ → Prop
  | .free _ => fun p => p ∈ free
  | .trapframe _ | .kernel => fun p => p ∈ (k.other ∪ trapframes k.proc : Set ℕ)
  | .table .. | .leaf .. => fun p => ∃ r ∈ roots k.proc, ∃ π, Uses k.phys.mem r π p

theorem Has.region (hu : Has k free p u) : u.region k free p := by
  cases u with
  | free n => exact List.mem_of_getElem? hu
  | trapframe i =>
    obtain ⟨hi, rfl⟩ := hu
    exact Or.inr (mem_values (f := fun i => (k.proc i).trapframe) (h.inv.live i hi).1)
  | kernel => exact Or.inl hu
  | table i π => exact ⟨_, h.inv.root_mem hu.1, π, hu.uses rfl rfl⟩
  | leaf i va => exact ⟨_, h.inv.root_mem hu.1, path va, hu.uses rfl rfl⟩

include ho

theorem Has.page (hu : Has k free p u) : L.Page p := by
  have hregion := hu.region h
  cases u with
  | free => exact ho.freeList.page p hregion
  | trapframe | kernel => exact (ho.held p hregion).1
  | table | leaf =>
    obtain ⟨r, hr, π, huse⟩ := hregion
    exact (ho.uses r hr π p huse).1

theorem exists_has (hp : L.Page p) : ∃ u, Has k free p u := by
  rcases ho.total p hp with hfree | (hother | ⟨hp0, i, rfl⟩) | ⟨_, ⟨hr0, i, rfl⟩, π, huse⟩
  · obtain ⟨n, hn⟩ := List.mem_iff_getElem?.mp hfree
    exact ⟨.free n, hn⟩
  · exact ⟨.kernel, hother⟩
  · exact ⟨.trapframe i, h.used_of_trapframe hp0, rfl⟩
  · obtain ⟨u, hu, -⟩ := exists_use_of_uses (h.used_of_pagetable hr0) huse
    exact ⟨u, hu⟩

theorem Has.place_unique {π' : Path} (hu : Has k free p u) (hu' : Has k free p u')
    (hi : u.process? = some i) (hj : u'.process? = some j) (hπ : u.place? = some π)
    (hπ' : u'.place? = some π') : i = j ∧ π = π' := by
  have hroot := h.inv.root_mem (hu.used hi)
  have hroot' := h.inv.root_mem (hu'.used hj)
  obtain ⟨heq, rfl⟩ := ho.unique _ hroot _ hroot' π π' p (hu.uses hi hπ) (hu'.uses hj hπ')
  exact ⟨h.inv.pagetable_distinct i j heq (h.inv.live i (hu.used hi)).2.1, rfl⟩

/-- **A page has one use at most.** -/
theorem Has.unique (hu : Has k free p u) (hu' : Has k free p u') : u = u' := by
  have hfh : p ∈ free → p ∉ (k.other ∪ trapframes k.proc : Set ℕ) := fun h1 h2 => (ho.held p h2).2 h1
  have hft : p ∈ free → ¬ ∃ r ∈ roots k.proc, ∃ π, Uses k.phys.mem r π p := by
    rintro h1 ⟨r, hr, π, h2⟩
    exact (ho.uses r hr π p h2).2.1 h1
  have hht : p ∈ (k.other ∪ trapframes k.proc : Set ℕ) →
      ¬ ∃ r ∈ roots k.proc, ∃ π, Uses k.phys.mem r π p := by
    rintro h1 ⟨r, hr, π, h2⟩
    exact (ho.uses r hr π p h2).2.2 h1
  have hr := hu.region h
  have hr' := hu'.region h
  cases u with
  | free n =>
    cases u' with
    | free n' =>
      have hlt := (List.getElem?_eq_some_iff.mp hu).1
      rw [(List.getElem?_inj hlt ho.freeList.nodup).mp (hu.trans hu'.symm)]
    | trapframe | kernel => exact absurd hr' (hfh hr)
    | table | leaf => exact absurd hr' (hft hr)
  | trapframe i =>
    cases u' with
    | free => exact absurd hr (hfh hr')
    | trapframe j =>
      rw [h.inv.trapframe_distinct i j (hu.2.trans hu'.2.symm) (h.inv.live i hu.1).1]
    | kernel =>
      refine absurd ?_ (h.inv.other p hu')
      exact hu.2 ▸ mem_values (f := fun i => (k.proc i).trapframe) (h.inv.live i hu.1).1
    | table | leaf => exact absurd hr' (hht hr)
  | kernel =>
    cases u' with
    | free => exact absurd hr (hfh hr')
    | trapframe j =>
      refine absurd ?_ (h.inv.other p hu)
      exact hu'.2 ▸ mem_values (f := fun i => (k.proc i).trapframe) (h.inv.live j hu'.1).1
    | kernel => rfl
    | table | leaf => exact absurd hr' (hht hr)
  | table i π =>
    cases u' with
    | free => exact absurd hr (hft hr')
    | trapframe | kernel => exact absurd hr (hht hr')
    | table j ρ =>
      obtain ⟨rfl, rfl⟩ := hu.place_unique h ho hu' rfl rfl rfl rfl
      rfl
    | leaf j va =>
      obtain ⟨-, rfl⟩ := hu.place_unique h ho hu' rfl rfl rfl rfl
      exact absurd hu.2.1 (by simp [path])
  | leaf i va =>
    cases u' with
    | free => exact absurd hr (hft hr')
    | trapframe | kernel => exact absurd hr (hht hr')
    | table j ρ =>
      obtain ⟨-, rfl⟩ := hu.place_unique h ho hu' rfl rfl rfl rfl
      exact absurd hu'.2.1 (by simp [path])
    | leaf j va' =>
      obtain ⟨rfl, hpath⟩ := hu.place_unique h ho hu' rfl rfl rfl rfl
      rw [path_inj hu.2.2.1 hu'.2.2.1] at hpath
      have hmod := hu.2.1
      have hmod' := hu'.2.1
      rw [show va = va' by omega]

end Use

/-! ## Runs -/

theorem perform_ne_panic (h : Good L k) (a : Action) (e : Panic) : perform L k a ≠ .panic e := by
  rw [perform]
  split
  · rename_i ha
    obtain ⟨r, k', hrun, -⟩ := act_spec h a ha
    rw [hrun]
    simp
  · simp

theorem Good.step (h : Good L k) {a : Action} (hstep : step L k a = some k') : Good L k' := by
  have hnext := Outcome.next?_eq_some hstep
  rw [perform] at hnext
  split at hnext
  · rename_i ha
    obtain ⟨r, k₁, hrun, hgood⟩ := act_spec h a ha
    rw [hrun] at hnext
    exact Outcome.next.inj hnext ▸ hgood
  · exact absurd hnext (by simp)

/-- **`freeproc` gives back every page of the process.** -/
theorem freeproc_returns {free : List ℕ} (h : Good L k)
    (ho : Owned L k.phys free (k.other ∪ trapframes k.proc) (roots k.proc)) (i : Fin NPROC) :
    Ensures (freeproc L i) k fun _ k' => ∃ free', FreeList L k'.phys free' ∧
      ∀ p u, Has k free p u → u.process? = some i → p ∈ free' := by
  refine (freeproc_spec h.inv.toCore i).mono ?_
  rintro - _ ⟨m', rfl, hcore, hframe⟩
  obtain ⟨free', ho'⟩ := hcore.space
  refine ⟨free', ho'.freeList, fun p u hu hui => ?_⟩
  -- any other owner afterwards was an owner before
  have hother : ∀ u', Has k free p u' → u'.process? ≠ some i → False := fun u' hu' hne =>
    hne (hu'.unique h ho hu ▸ hui)
  rcases ho'.total p (hu.page h ho) with hp | (hp | ⟨hp0, j, hj⟩) | ⟨r, hr, π, huse⟩
  · exact hp
  · exact (hother .kernel hp (by simp [Use.process?])).elim
  · have hji : j ≠ i := by
      rintro rfl
      simp only [Kern.setProc_proc, Function.update_self] at hj
      exact hp0 hj.symm
    simp only [Kern.setProc_proc, Kern.setPhys_proc, Function.update_of_ne hji] at hj
    subst hj
    exact (hother (.trapframe j) ⟨h.used_of_trapframe hp0, rfl⟩
      (by simpa [Use.process?] using hji)).elim
  · rw [hframe.uses_iff hr] at huse
    obtain ⟨hr0, j, hj⟩ := hr
    have hji : j ≠ i := by
      rintro rfl
      simp only [Kern.setProc_proc, Function.update_self] at hj
      exact hr0 hj.symm
    simp only [Kern.setProc_proc, Kern.setPhys_proc, Function.update_of_ne hji] at hj
    subst hj
    obtain ⟨u', hu', hproc, -⟩ := exists_use_of_uses (h.used_of_pagetable hr0) huse
    exact (hother u' hu' (by rw [hproc]; simpa using hji)).elim

theorem Good.of_boot {mem : ℕ → Mem} (hboot : boot L (Kern.cold mem) = .ok ((), k)) : Good L k := by
  obtain ⟨hk, hinv⟩ := (boot_spec L mem).of_run hboot
  refine ⟨?_, fun n => hk ▸ rfl⟩
  have hother : k.other = ∅ := hk ▸ rfl
  rw [hother, Finset.coe_empty]
  exact hinv

/-- **Every page has one owner**, in every state that calls of the kernel lead to, those that run out
of memory included.  A page is on the free list once, or it has one use: a trapframe, a table of one
page table, a page of one process at one address, or a page of the rest of the kernel.  The pages of
a process are below its size, which is at most `TRAPFRAME`; the trampoline and the trapframe are
mapped, not for user code.  No call panics, and `freeproc` frees every page of the process. -/
theorem page_ownership {mem : ℕ → Mem} {k₀ : Kern} {h : List Action}
    (hboot : boot L (Kern.cold mem) = .ok ((), k₀)) (hrun : Run (ofStep (step L)) k₀ h k) :
    (∃ free, FreeList L k.phys free ∧ (∀ p u, Has k free p u → L.Page p) ∧
      (∀ p, L.Page p → ∃! u, Has k free p u) ∧
      ∀ i, (k.proc i).used → Ensures (freeproc L i) k fun _ k' => ∃ free', FreeList L k'.phys free' ∧
        ∀ p u, Has k free p u → u.process? = some i → p ∈ free') ∧
    (∀ i, (k.proc i).used → (k.proc i).sz ≤ TRAPFRAME ∧
      (∀ va < 2 ^ 39, Owns va → isV (lookup k.phys.mem (k.proc i).pagetable va) →
        va < pgRoundUp (k.proc i).sz) ∧
      lookup k.phys.mem (k.proc i).pagetable TRAMPOLINE = mkPte L.trampoline (PTE_R ||| PTE_X) ∧
      lookup k.phys.mem (k.proc i).pagetable TRAPFRAME =
        mkPte (k.proc i).trapframe (PTE_R ||| PTE_W)) ∧
    ∀ a e, perform L k a ≠ .panic e := by
  have hgood : Good L k := hrun.invariant (Good.of_boot hboot) fun _ _ _ hg _ hs => hg.step hs
  obtain ⟨free, ho⟩ := hgood.inv.space
  refine ⟨⟨free, ho.freeList, fun p u hu => hu.page hgood ho, fun p hp => ?_, fun i _ =>
    freeproc_returns hgood ho i⟩, fun i hi => ?_, perform_ne_panic hgood⟩
  · obtain ⟨u, hu⟩ := exists_has hgood ho hp
    exact ⟨u, hu, fun u' hu' => hu'.unique hgood ho hu⟩
  · obtain ⟨-, hpt, hmapped⟩ := hgood.inv.live i hi
    exact ⟨hgood.inv.sz_le i, hgood.inv.below i hpt, hmapped.trampoline, hmapped.trapframe⟩

/-- The first process grows, and there is no memory for a second one. -/
theorem page_ownership_of_first_process : ∃ k₀ k,
    boot smallLayout (Kern.cold fun _ _ => 0) = .ok ((), k₀) ∧
      Run (ofStep (step smallLayout)) k₀ [.kfork 0, .sbrk 0 4096 SBRK_EAGER, .allocproc] k ∧
      ∀ a e, perform smallLayout k a ≠ .panic e := by
  obtain ⟨_, k₀, hboot, -⟩ := boot_spec smallLayout fun _ _ => 0
  have heval : (match boot smallLayout (Kern.cold fun _ _ => 0) with
    | .ok (_, k) => (exec (step smallLayout) k
      [.allocproc, .sbrk 0 4096 SBRK_EAGER, .kfork 0]).isSome
    | .error _ => false) = true := by decide +kernel
  rw [hboot] at heval
  obtain ⟨k, hk⟩ := Option.isSome_iff_exists.mp heval
  have hrun := run_of_execWith hk
  exact ⟨k₀, k, hboot, hrun, (page_ownership hboot hrun).2.2⟩

end Vm
end Xv6

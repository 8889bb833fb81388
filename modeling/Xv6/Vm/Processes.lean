import Xv6.Lib.Slots
import Xv6.Vm.Lifecycle
import Xv6.Vm.Proc

/-!
# The process table and the owners of pages

`Core` connects the process table with the owners of physical pages: the kernel holds the
trapframes and the pages of its other parts (`A`), the roots of the trees are the page tables of
the processes, and the user memory of a process lies below its size.  It holds while a process is
being made or torn down.  `Inv` is what holds between system calls: a process that is in use has a
trapframe and a page table that maps it.

The operations of a process change its own tree only, so each of them is one use of `Core.step`:
what it does to that tree is said by the modules before, and the other processes keep theirs.
-/

namespace Xv6
namespace Vm

open Bytes Program Slots

variable {L : Layout} {m m' : Phys} {proc : Fin NPROC → Proc} {A : Set ℕ} {i j : Fin NPROC}
  {p : Proc}

/-- The trapframes. -/
def trapframes (proc : Fin NPROC → Proc) : Set ℕ := values fun i => (proc i).trapframe

/-- The page tables. -/
def roots (proc : Fin NPROC → Proc) : Set ℕ := values fun i => (proc i).pagetable

/-- Physical memory belongs to the processes, to the other parts `A` of the kernel, or is free. -/
structure Core (L : Layout) (m : Phys) (proc : Fin NPROC → Proc) (A : Set ℕ) : Prop where
  space : Space L m (A ∪ trapframes proc) (roots proc)
  trapframe_distinct : Distinct fun i => (proc i).trapframe
  pagetable_distinct : Distinct fun i => (proc i).pagetable
  other : ∀ p ∈ A, p ∉ trapframes proc
  sz_le : ∀ i, (proc i).sz ≤ TRAPFRAME
  below : ∀ i, (proc i).pagetable ≠ 0 → Below m (proc i).pagetable (pgRoundUp (proc i).sz)

/-- Between system calls a process is complete or unused. -/
structure Inv (L : Layout) (m : Phys) (proc : Fin NPROC → Proc) (A : Set ℕ) : Prop
    extends Core L m proc A where
  live : ∀ i, (proc i).used → (proc i).trapframe ≠ 0 ∧ (proc i).pagetable ≠ 0 ∧
    Mapped L m (proc i).pagetable (proc i).trapframe
  dead : ∀ i, (proc i).used = false →
    (proc i).trapframe = 0 ∧ (proc i).pagetable = 0 ∧ (proc i).sz = 0

/-- The trapframe of a process, its page table and the pages in it are as they were. -/
def Proc.Kept (p : Proc) (m m' : Phys) : Prop := Frame {p.trapframe} {p.pagetable} m m'

theorem Proc.Kept.trans {p : Proc} {m m' m'' : Phys} (h : p.Kept m m') (h' : p.Kept m' m'') :
    p.Kept m m'' :=
  Frame.trans h h'

/-! ## Changes of one process -/

theorem trapframe_update (proc : Fin NPROC → Proc) (i : Fin NPROC) (p : Proc) :
    (fun j => (Function.update proc i p j).trapframe) =
      Function.update (fun j => (proc j).trapframe) i p.trapframe :=
  funext fun j => Function.apply_update (fun _ => Proc.trapframe) proc i p j

theorem pagetable_update (proc : Fin NPROC → Proc) (i : Fin NPROC) (p : Proc) :
    (fun j => (Function.update proc i p j).pagetable) =
      Function.update (fun j => (proc j).pagetable) i p.pagetable :=
  funext fun j => Function.apply_update (fun _ => Proc.pagetable) proc i p j

theorem trapframes_update_of_eq (h : p.trapframe = (proc i).trapframe) :
    trapframes (Function.update proc i p) = trapframes proc := by
  rw [trapframes, trapframe_update, h, Function.update_eq_self, trapframes]

theorem roots_update_of_eq (h : p.pagetable = (proc i).pagetable) :
    roots (Function.update proc i p) = roots proc := by
  rw [roots, pagetable_update, h, Function.update_eq_self, roots]

theorem Core.root_ne (h : Core L m proc A) (hne : j ≠ i) (hj : (proc j).pagetable ≠ 0) :
    (proc j).pagetable ∈ roots proc \ {(proc i).pagetable} :=
  ⟨mem_values (f := fun i => (proc i).pagetable) hj,
    fun heq => hne (h.pagetable_distinct j i heq hj)⟩

theorem Inv.kept {H : Set ℕ} {m₁ m₂ : Phys} (h : Inv L m proc A) (hj : (proc j).used)
    (hH : trapframes proc ⊆ H) (hframe : Frame H (roots proc) m₁ m₂) : (proc j).Kept m₁ m₂ := by
  obtain ⟨htf, hpt, -⟩ := h.live j hj
  exact hframe.mono (Set.singleton_subset_iff.mpr (hH ⟨htf, j, rfl⟩))
    (Set.singleton_subset_iff.mpr ⟨hpt, j, rfl⟩)

/-- What process `i` does to its own memory does not concern another one. -/
theorem Inv.kept_of_ne {m₁ m₂ : Phys} (h : Inv L m proc A) (hj : (proc j).used) (hne : j ≠ i)
    (hframe : Frame (trapframes proc \ {(proc i).trapframe}) (roots proc \ {(proc i).pagetable})
      m₁ m₂) : (proc j).Kept m₁ m₂ := by
  obtain ⟨htf, hpt, -⟩ := h.live j hj
  refine hframe.mono (Set.singleton_subset_iff.mpr ⟨⟨htf, j, rfl⟩, fun heq => ?_⟩)
    (Set.singleton_subset_iff.mpr (h.root_ne hne hpt))
  exact hne (h.trapframe_distinct j i heq htf)

theorem distinct_update_of {f : Fin NPROC → ℕ} {q : ℕ} (h : Distinct f)
    (hq : q = f i ∨ q ∉ values f) : Distinct (Function.update f i q) := by
  rcases hq with rfl | hq
  · rw [Function.update_eq_self]
    exact h
  · exact h.update hq i

/-- **Process `i` changes, with its trapframe, its page table and its tree.** -/
theorem Core.update {H : Set ℕ} (h : Core L m proc A)
    (htf : p.trapframe = (proc i).trapframe ∨ p.trapframe ∉ A ∪ trapframes proc)
    (hpt : p.pagetable = (proc i).pagetable ∨ p.pagetable ∉ roots proc)
    (hspace : Space L m' (A ∪ trapframes (Function.update proc i p))
      (roots (Function.update proc i p)))
    (hframe : Frame H (roots proc \ {(proc i).pagetable}) m m') (hsz : p.sz ≤ TRAPFRAME)
    (hbelow : p.pagetable ≠ 0 → Below m' p.pagetable (pgRoundUp p.sz)) :
    Core L m' (Function.update proc i p) A where
  space := hspace
  trapframe_distinct := by
    rw [trapframe_update]
    exact distinct_update_of h.trapframe_distinct (htf.imp_right fun hnot hmem => hnot (Or.inr hmem))
  pagetable_distinct := by
    rw [pagetable_update]
    exact distinct_update_of h.pagetable_distinct hpt
  other := fun q hq hmem => by
    obtain ⟨hne, j, rfl⟩ := hmem
    by_cases hj : j = i
    · subst hj
      simp only [Function.update_self] at hq hne
      rcases htf with htf | hnot
      · exact h.other _ hq (htf ▸ ⟨htf ▸ hne, j, rfl⟩)
      · exact hnot (Or.inl hq)
    · simp only [Function.update_of_ne hj] at hq hne
      exact h.other _ hq ⟨hne, j, rfl⟩
  sz_le := fun j => by
    by_cases hj : j = i
    · subst hj
      rw [Function.update_self]
      exact hsz
    · rw [Function.update_of_ne hj]
      exact h.sz_le j
  below := fun j => by
    by_cases hj : j = i
    · subst hj
      rw [Function.update_self]
      exact hbelow
    · rw [Function.update_of_ne hj]
      exact fun hne => (h.below j hne).congr fun va => hframe.lookup_eq (h.root_ne hj hne) va

theorem Core.step {H : Set ℕ} (h : Core L m proc A) (htf : p.trapframe = (proc i).trapframe)
    (hpt : p.pagetable = (proc i).pagetable)
    (hspace : Space L m' (A ∪ trapframes proc) (roots proc))
    (hframe : Frame H (roots proc \ {(proc i).pagetable}) m m')
    (hsz : p.sz ≤ TRAPFRAME)
    (hbelow : p.pagetable ≠ 0 → Below m' p.pagetable (pgRoundUp p.sz)) :
    Core L m' (Function.update proc i p) A := by
  refine h.update (Or.inl htf) (Or.inl hpt) ?_ hframe hsz hbelow
  rw [trapframes_update_of_eq htf, roots_update_of_eq hpt]
  exact hspace

theorem Inv.update {H : Set ℕ} (h : Inv L m proc A) (hcore : Core L m' (Function.update proc i p) A)
    (hframe : Frame H (roots proc \ {(proc i).pagetable}) m m')
    (hlive : p.used → p.trapframe ≠ 0 ∧ p.pagetable ≠ 0 ∧ Mapped L m' p.pagetable p.trapframe)
    (hdead : p.used = false → p.trapframe = 0 ∧ p.pagetable = 0 ∧ p.sz = 0) :
    Inv L m' (Function.update proc i p) A where
  toCore := hcore
  live := fun j => by
    by_cases hj : j = i
    · subst hj
      rw [Function.update_self]
      exact hlive
    · rw [Function.update_of_ne hj]
      intro hu
      obtain ⟨h1, h2, h3⟩ := h.live j hu
      exact ⟨h1, h2, h3.congr (hframe.sameHigh (h.root_ne hj h2))⟩
  dead := fun j => by
    by_cases hj : j = i
    · subst hj
      rw [Function.update_self]
      exact hdead
    · rw [Function.update_of_ne hj]
      exact h.dead j

theorem Inv.step {H : Set ℕ} (h : Inv L m proc A) (hi : (proc i).used) (hused : p.used)
    (htf : p.trapframe = (proc i).trapframe) (hpt : p.pagetable = (proc i).pagetable)
    (hspace : Space L m' (A ∪ trapframes proc) (roots proc))
    (hframe : Frame H (roots proc \ {(proc i).pagetable}) m m')
    (hmapped : SameHigh (proc i).pagetable m m')
    (hsz : p.sz ≤ TRAPFRAME) (hbelow : Below m' (proc i).pagetable (pgRoundUp p.sz)) :
    Inv L m' (Function.update proc i p) A := by
  refine h.update (h.toCore.step htf hpt hspace hframe hsz fun _ => hpt ▸ hbelow) hframe
    (fun _ => ?_) fun h' => absurd (hused.symm.trans h') (by simp)
  obtain ⟨h1, h2, h3⟩ := h.live i hi
  rw [htf, hpt]
  exact ⟨h1, h2, h3.congr hmapped⟩

/-- Pages of the kernel come and go, and process `i` changes its own tree. -/
theorem Inv.change {A' H : Set ℕ} (h : Inv L m proc A)
    (hspace : Space L m' (A' ∪ trapframes proc) (roots proc))
    (hother : ∀ p ∈ A', p ∉ trapframes proc)
    (hframe : Frame H (roots proc \ {(proc i).pagetable}) m m')
    (hhigh : SameHigh (proc i).pagetable m m')
    (hbelow : (proc i).pagetable ≠ 0 → Below m' (proc i).pagetable (pgRoundUp (proc i).sz)) :
    Inv L m' proc A' where
  space := hspace
  trapframe_distinct := h.trapframe_distinct
  pagetable_distinct := h.pagetable_distinct
  other := hother
  sz_le := h.sz_le
  below := fun j hne => by
    by_cases hj : j = i
    · exact hj ▸ hbelow (hj ▸ hne)
    · exact (h.below j hne).congr fun va => hframe.lookup_eq (h.root_ne hj hne) va
  live := fun j hu => by
    obtain ⟨h1, h2, h3⟩ := h.live j hu
    by_cases hj : j = i
    · subst hj
      exact ⟨h1, h2, h3.congr hhigh⟩
    · exact ⟨h1, h2, h3.congr (hframe.sameHigh (h.root_ne hj h2))⟩
  dead := h.dead

theorem Inv.reframe {A' H : Set ℕ} (h : Inv L m proc A)
    (hspace : Space L m' (A' ∪ trapframes proc) (roots proc))
    (hother : ∀ p ∈ A', p ∉ trapframes proc) (hframe : Frame H (roots proc) m m') :
    Inv L m' proc A' where
  space := hspace
  trapframe_distinct := h.trapframe_distinct
  pagetable_distinct := h.pagetable_distinct
  other := hother
  sz_le := h.sz_le
  below := fun j hne => (h.below j hne).congr fun va =>
    hframe.lookup_eq (mem_values (f := fun i => (proc i).pagetable) hne) va
  live := fun j hu => by
    obtain ⟨h1, h2, h3⟩ := h.live j hu
    exact ⟨h1, h2, h3.congr
      (hframe.sameHigh (mem_values (f := fun i => (proc i).pagetable) h2))⟩
  dead := h.dead

/-! ## Programs on the process table -/

section Rules

variable {k : Kern} {α β : Type} {Q : β → Kern → Prop}

theorem ensures_getProc_bind {f : Proc → KernM β} (h : Ensures (f (k.proc i)) k Q) :
    Ensures (getProc i >>= f) k Q := by
  obtain ⟨b, k', hrun, hQ⟩ := h
  exact ⟨b, k', hrun, hQ⟩

theorem ensures_modifyProc_bind {g : Proc → Proc} {f : Unit → KernM β}
    (h : Ensures (f ()) (k.setProc i (g (k.proc i))) Q) : Ensures (modifyProc i g >>= f) k Q := by
  obtain ⟨b, k', hrun, hQ⟩ := h
  exact ⟨b, k', hrun, hQ⟩

theorem ensures_onPhys {x : VmM β} {P : β → Phys → Prop} (hx : Ensures x k.phys P)
    (hQ : ∀ a m', P a m' → Q a (k.setPhys m')) : Ensures (onPhys x) k Q := by
  refine hx.zoom.mono ?_
  rintro a _ ⟨m', rfl, hP⟩
  exact hQ a m' hP

theorem ensures_onPhys_bind {x : VmM α} {P : α → Phys → Prop} {f : α → KernM β}
    (hx : Ensures x k.phys P) (hf : ∀ a m', P a m' → Ensures (f a) (k.setPhys m') Q) :
    Ensures (onPhys x >>= f) k Q := by
  refine .bind hx.zoom ?_
  rintro a k' ⟨m', rfl, hP⟩
  exact hf a m' hP

end Rules

/-! ## `freeproc` -/

theorem Core.zero_notMem (h : Core L m proc A) : 0 ∉ A ∪ trapframes proc := fun h0 => by
  obtain ⟨free, hspace⟩ := h.space
  exact (hspace.held 0 h0).1.ne_zero rfl

theorem zero_notMem_roots : 0 ∉ roots proc := zero_notMem_values

theorem Core.ensures_freeTrapframe (h : Core L m proc A) (i : Fin NPROC) :
    Ensures (freeTrapframe L (proc i).trapframe) m fun _ m' =>
      Core L m' (Function.update proc i { proc i with trapframe := 0 }) A ∧
        Frame (A ∪ trapframes (Function.update proc i { proc i with trapframe := 0 }))
          (roots proc) m m' := by
  have hroots : roots (Function.update proc i { proc i with trapframe := 0 }) = roots proc :=
    roots_update_of_eq rfl
  have hclear : trapframes (Function.update proc i { proc i with trapframe := 0 }) =
      trapframes proc \ {(proc i).trapframe} := by
    rw [trapframes, trapframe_update]
    exact values_clear h.trapframe_distinct i
  have hcore : ∀ m', Space L m' (A ∪ (trapframes proc \ {(proc i).trapframe})) (roots proc) →
      Frame (A ∪ (trapframes proc \ {(proc i).trapframe})) (roots proc) m m' →
      Core L m' (Function.update proc i { proc i with trapframe := 0 }) A := fun m' hspace hframe =>
    h.update (Or.inr h.zero_notMem) (Or.inl rfl) (by rw [hclear, hroots]; exact hspace)
      (hframe.mono (le_refl _) Set.sdiff_subset) (h.sz_le i) fun hne =>
        (h.below i hne).congr fun va => hframe.lookup_eq (mem_values (f := fun i =>
          (proc i).pagetable) hne) va
  rw [hclear, freeTrapframe]
  refine .ite (fun hne => ?_) fun h0 => ?_
  · have hmem : (proc i).trapframe ∈ trapframes proc :=
      mem_values (f := fun i => (proc i).trapframe) hne
    have hsplit : A ∪ trapframes proc =
        insert (proc i).trapframe (A ∪ (trapframes proc \ {(proc i).trapframe})) := by
      rw [← Set.union_insert, Set.insert_sdiff_singleton, Set.insert_eq_of_mem hmem]
    have hnot : (proc i).trapframe ∉ A ∪ (trapframes proc \ {(proc i).trapframe}) := by
      rintro (hA | ⟨-, hne'⟩)
      · exact h.other _ hA hmem
      · exact hne' rfl
    have hspace := h.space
    rw [hsplit] at hspace
    refine (hspace.ensures_kfree hnot).mono ?_
    rintro - m' ⟨hspace', hframe⟩
    exact ⟨hcore m' hspace' hframe, hframe⟩
  · rw [not_not] at h0
    have hsame : trapframes proc \ {(proc i).trapframe} = trapframes proc := by
      rw [h0]
      exact Set.sdiff_singleton_eq_self zero_notMem_values
    rw [hsame] at hcore ⊢
    exact .pure ⟨hcore m h.space (Frame.refl _ _ m), Frame.refl _ _ m⟩

theorem Core.ensures_freePagetable (h : Core L m proc A) (i : Fin NPROC)
    (htf : p.trapframe = (proc i).trapframe) (hpt : p.pagetable = 0) (hsz : p.sz = 0) :
    Ensures (freePagetable L (proc i).pagetable (proc i).sz) m fun _ m' =>
      Core L m' (Function.update proc i p) A ∧
        Frame (A ∪ trapframes proc) (roots (Function.update proc i p)) m m' := by
  have hclear : roots (Function.update proc i p) = roots proc \ {(proc i).pagetable} := by
    rw [roots, pagetable_update, hpt]
    exact values_clear h.pagetable_distinct i
  have hcore : ∀ m', Space L m' (A ∪ trapframes proc) (roots proc \ {(proc i).pagetable}) →
      Frame (A ∪ trapframes proc) (roots proc \ {(proc i).pagetable}) m m' →
      Core L m' (Function.update proc i p) A := fun m' hspace hframe =>
    h.update (Or.inl htf) (Or.inr (hpt ▸ zero_notMem_roots))
      (by rw [trapframes_update_of_eq htf, hclear]; exact hspace) hframe
      (hsz ▸ Nat.zero_le _) fun hne => absurd hpt hne
  rw [hclear, freePagetable]
  refine .ite (fun hne => ?_) fun h0 => ?_
  · refine (procFreepagetable_spec h.space (mem_values (f := fun i => (proc i).pagetable) hne)
      (h.sz_le i) (h.below i hne)).mono ?_
    rintro - m' ⟨hspace, hframe⟩
    exact ⟨hcore m' hspace hframe, hframe⟩
  · rw [not_not] at h0
    have hsame : roots proc \ {(proc i).pagetable} = roots proc := by
      rw [h0]
      exact Set.sdiff_singleton_eq_self zero_notMem_roots
    rw [hsame] at hcore ⊢
    exact .pure ⟨hcore m h.space (Frame.refl _ _ m), Frame.refl _ _ m⟩

/-- What `freeproc` leaves of a process. -/
def Proc.cleared (p : Proc) : Proc :=
  { p with
    used := false, trapframe := 0, pagetable := 0, sz := 0, name := Function.update p.name 0 0 }

section Freeproc

variable {k : Kern}

/-- **`freeproc` does not panic**, and gives the trapframe and the tree of the process back. -/
theorem freeproc_spec (h : Core L k.phys k.proc A) (i : Fin NPROC) :
    Ensures (freeproc L i) k fun _ k' => ∃ m',
      k' = (k.setPhys m').setProc i (k.proc i).cleared ∧ Core L m' k'.proc A ∧
        Frame (A ∪ trapframes k'.proc) (roots k'.proc) k.phys m' := by
  have hroots : roots (Function.update k.proc i (k.proc i).cleared) =
      roots k.proc \ {(k.proc i).pagetable} := by
    rw [roots, pagetable_update]
    exact values_clear h.pagetable_distinct i
  have htf : trapframes (Function.update k.proc i { k.proc i with trapframe := 0 }) =
      trapframes (Function.update k.proc i (k.proc i).cleared) := by
    rw [trapframes, trapframes, trapframe_update, trapframe_update]
    rfl
  rw [freeproc]
  refine ensures_getProc_bind (ensures_onPhys_bind (h.ensures_freeTrapframe i) ?_)
  rintro - m₁ ⟨hcore₁, hframe₁⟩
  refine ensures_modifyProc_bind ?_
  have hfree := hcore₁.ensures_freePagetable i (p := (k.proc i).cleared)
    (by rw [Function.update_self]; rfl) rfl rfl
  rw [Function.update_self, Function.update_idem] at hfree
  refine ensures_onPhys_bind (k := (k.setPhys m₁).setProc i _) hfree ?_
  rintro - m₂ ⟨hcore₂, hframe₂⟩
  refine .modify ⟨m₂, ?_, ?_, ?_⟩
  · simp only [Kern.setProc, Kern.setPhys, Function.update_self, Function.update_idem,
      Proc.cleared]
  · simp only [Kern.setProc, Kern.setPhys, Function.update_self, Function.update_idem]
    exact hcore₂
  · simp only [Kern.setProc, Kern.setPhys, Function.update_self, Function.update_idem]
    rw [htf] at hframe₁ hframe₂
    exact (hframe₁.mono (le_refl _) (hroots.subset.trans Set.sdiff_subset)).trans hframe₂

end Freeproc

/-! ## `allocproc` -/

theorem Core.ensures_allocTrapframe (h : Core L m proc A) (h0 : (proc i).trapframe = 0) :
    Ensures kalloc m fun tf m' =>
      Core L m' (Function.update proc i { proc i with trapframe := tf }) A ∧
        Frame (A ∪ trapframes proc) (roots proc) m m' := by
  refine h.space.ensures_kalloc.mono ?_
  rintro tf m' (⟨rfl, rfl⟩ | ⟨hpage, hnot, hspace, hframe⟩)
  · have hself : ({ proc i with trapframe := 0 } : Proc) = proc i := by rw [← h0]
    rw [hself, Function.update_eq_self]
    exact ⟨h, Frame.refl _ _ _⟩
  · have hfill : trapframes (Function.update proc i { proc i with trapframe := tf }) =
        insert tf (trapframes proc) := by
      rw [trapframes, trapframe_update]
      exact values_fill h.trapframe_distinct h0 hpage.ne_zero fun hmem => hnot (Or.inr hmem)
    have hroots : roots (Function.update proc i { proc i with trapframe := tf }) = roots proc :=
      roots_update_of_eq rfl
    refine ⟨h.update (Or.inr hnot) (Or.inl rfl) ?_ (hframe.mono (le_refl _) Set.sdiff_subset)
      (h.sz_le i) fun hne => ?_, hframe⟩
    · rw [hfill, hroots, Set.union_insert]
      exact hspace
    · exact (h.below i hne).congr fun va =>
        hframe.lookup_eq (mem_values (f := fun i => (proc i).pagetable) hne) va

theorem Core.ensures_allocPagetable (h : Core L m proc A) (h0 : (proc i).pagetable = 0)
    (htf : (proc i).trapframe ≠ 0) :
    Ensures (procPagetable L (proc i).trapframe) m fun pt m' =>
      Core L m' (Function.update proc i { proc i with pagetable := pt }) A ∧
        Frame (A ∪ trapframes proc) (roots proc) m m' ∧
        (pt ≠ 0 → Mapped L m' pt (proc i).trapframe ∧ Below m' pt 0) := by
  have hlt : (proc i).trapframe < 2 ^ 64 := by
    obtain ⟨free, hspace⟩ := h.space
    have := (hspace.held _ (Or.inr (mem_values (f := fun i => (proc i).trapframe) htf))).1.lt
    omega
  refine (procPagetable_spec h.space hlt).mono ?_
  rintro pt m' (⟨rfl, hspace, hframe⟩ | ⟨hpage, hnot, hspace, hframe, hmapped, hbelow⟩)
  · refine ⟨h.step rfl h0.symm hspace (hframe.mono (le_refl _) Set.sdiff_subset) (h.sz_le i)
      fun hne => absurd rfl hne, hframe, fun hne => absurd rfl hne⟩
  · have hfill : roots (Function.update proc i { proc i with pagetable := pt }) =
        insert pt (roots proc) := by
      rw [roots, pagetable_update]
      exact values_fill h.pagetable_distinct h0 hpage.ne_zero hnot
    have htfs : trapframes (Function.update proc i { proc i with pagetable := pt }) =
        trapframes proc := trapframes_update_of_eq rfl
    refine ⟨h.update (Or.inl rfl) (Or.inr hnot) ?_ (hframe.mono (le_refl _) Set.sdiff_subset)
      (h.sz_le i) fun _ => hbelow.mono (Nat.zero_le _), hframe, fun _ => ⟨hmapped, hbelow⟩⟩
    rw [hfill, htfs]
    exact hspace

section Allocproc

variable {k : Kern}

/-- `allocproc` gives up: `freeproc` of a process that is not complete. -/
theorem freeproc_undo {k₁ : Kern} {m₁ : Phys} (h : Inv L k.phys k.proc A)
    (hi : (k.proc i).used = false)
    (hk₁ : k₁ = (k.setPhys m₁).setProc i p) (hcore : Core L m₁ (Function.update k.proc i p) A)
    (hframe : Frame (A ∪ trapframes k.proc) (roots k.proc) k.phys m₁) :
    Ensures (freeproc L i) k₁ fun _ k' => ∃ m' proc', k' = { k with phys := m', proc := proc' } ∧
      Inv L m' proc' A ∧ Frame (A ∪ trapframes k.proc) (roots k.proc) k.phys m' ∧
        ∀ j, (k.proc j).used → proc' j = k.proc j := by
  subst hk₁
  obtain ⟨htf, hpt, -⟩ := h.dead i hi
  refine (freeproc_spec (k := (k.setPhys m₁).setProc i p) hcore i).mono ?_
  rintro - k' ⟨m', rfl, hcore', hframe'⟩
  simp only [Kern.setProc, Kern.setPhys, Function.update_self, Function.update_idem]
    at hcore' hframe' ⊢
  rw [trapframes_update_of_eq htf.symm, roots_update_of_eq hpt.symm] at hframe'
  have hall := hframe.trans hframe'
  refine ⟨m', _, rfl, h.update hcore' (hall.mono (le_refl _) Set.sdiff_subset)
    (fun h' => absurd h' (by simp [Proc.cleared])) (fun _ => ⟨rfl, rfl, rfl⟩), hall, fun j hj => ?_⟩
  refine Function.update_of_ne ?_ ..
  rintro rfl
  exact absurd (hi.symm.trans hj) (by simp)

/-- **`allocproc`** gives an unused process a trapframe and a page table, or fails and has given
everything back. -/
theorem allocproc_spec (h : Inv L k.phys k.proc A) :
    Ensures (allocproc L) k fun res k' => ∃ m' proc', k' = { k with phys := m', proc := proc' } ∧
      Inv L m' proc' A ∧ Frame (A ∪ trapframes k.proc) (roots k.proc) k.phys m' ∧
      (∀ j, (k.proc j).used → proc' j = k.proc j) ∧
      ∀ i, res = some i → (k.proc i).used = false ∧ (proc' i).used ∧
        Below m' (proc' i).pagetable 0 := by
  rw [allocproc]
  refine .get_bind ?_
  cases hfind : (List.finRange NPROC).find? fun i => !(k.proc i).used with
  | none =>
    exact .pure ⟨k.phys, k.proc, rfl, h, Frame.refl _ _ _, fun _ _ => rfl, by simp⟩
  | some i =>
    have hi : (k.proc i).used = false := by simpa using List.find?_some hfind
    obtain ⟨htf, hpt, hsz⟩ := h.dead i hi
    refine ensures_modifyProc_bind ?_
    have hcore₁ : Core L k.phys (Function.update k.proc i { k.proc i with used := true }) A :=
      h.toCore.step rfl rfl h.space (Frame.refl ∅ _ _) (h.sz_le i) (h.below i)
    have htfs : trapframes (Function.update k.proc i { k.proc i with used := true }) =
        trapframes k.proc := trapframes_update_of_eq rfl
    have hroots : roots (Function.update k.proc i { k.proc i with used := true }) =
        roots k.proc := roots_update_of_eq rfl
    have halloc := hcore₁.ensures_allocTrapframe (i := i) (by rw [Function.update_self]; exact htf)
    simp only [Function.update_self, Function.update_idem, htfs, hroots] at halloc
    refine ensures_onPhys_bind (k := k.setProc i _) halloc ?_
    rintro tf m₁ ⟨hcore₂, hframe₂⟩
    refine ensures_modifyProc_bind ?_
    simp only [Kern.setProc_setPhys, Kern.setProc_proc, Function.update_self, Kern.setProc_setProc]
    refine .ite (fun _ => ?_) fun hne => ?_
    · refine .bind (freeproc_undo h hi rfl hcore₂ hframe₂) ?_
      rintro - k' ⟨m', proc', hk', hinv, hframe, hsame⟩
      exact .pure ⟨m', proc', hk', hinv, hframe, hsame, by simp⟩
    · have hmake := hcore₂.ensures_allocPagetable (i := i)
        (by rw [Function.update_self]; exact hpt) (by rw [Function.update_self]; exact hne)
      simp only [Function.update_self, Function.update_idem] at hmake
      refine ensures_onPhys_bind (k := (k.setPhys m₁).setProc i _) hmake ?_
      rintro pt m₂ ⟨hcore₃, hframe₃, hmapped⟩
      refine ensures_modifyProc_bind ?_
      simp only [Kern.setProc_setPhys, Kern.setProc_proc, Function.update_self,
        Kern.setProc_setProc, Kern.setPhys_setPhys]
      rw [roots_update_of_eq (by rfl)] at hframe₃
      have hall := hframe₂.trans (hframe₃.mono (Set.union_subset_union_right A ?_) (le_refl _))
      · refine .ite (fun _ => ?_) fun hne' => ?_
        · refine .bind (freeproc_undo h hi rfl hcore₃ hall) ?_
          rintro - k' ⟨m', proc', hk', hinv, hframe, hsame⟩
          exact .pure ⟨m', proc', hk', hinv, hframe, hsame, by simp⟩
        · obtain ⟨hmap, hbelow⟩ := hmapped hne'
          refine .pure ⟨m₂, _, rfl, h.update hcore₃ (hall.mono (le_refl _) Set.sdiff_subset)
            (fun _ => ⟨hne, hne', hmap⟩) (fun h' => absurd h' (by simp)), hall, fun j hj => ?_, ?_⟩
          · refine Function.update_of_ne ?_ ..
            rintro rfl
            exact absurd (hi.symm.trans hj) (by simp)
          · rintro j ⟨⟩
            rw [Function.update_self]
            exact ⟨hi, rfl, hbelow⟩
      · rw [trapframes, trapframes, trapframe_update]
        exact values_subset_update htf

end Allocproc

/-! ## The first process -/

/-- **When the kernel has started**, every page is free. -/
theorem boot_spec (L : Layout) (mem : ℕ → Mem) :
    Ensures (boot L) (Kern.cold mem) fun _ k =>
      k = (Kern.cold mem).setPhys k.phys ∧ Inv L k.phys k.proc ∅ := by
  refine ensures_onPhys (kinit_spec L mem) ?_
  rintro - m ⟨free, hfree, hall⟩
  have htfs : trapframes (Kern.cold mem).proc = ∅ := values_of_forall_zero fun _ => rfl
  have hroots : roots (Kern.cold mem).proc = ∅ := values_of_forall_zero fun _ => rfl
  refine ⟨rfl, ?_⟩
  exact
    { space := by
        rw [Kern.setPhys_proc, Kern.setPhys_phys, htfs, hroots, Set.union_self]
        exact ⟨free, hfree, by simp, by simp, by simp, fun p hp => Or.inl (hall p hp), by simp,
          by simp⟩
      trapframe_distinct := distinct_of_forall_zero fun _ => rfl
      pagetable_distinct := distinct_of_forall_zero fun _ => rfl
      other := by simp
      sz_le := fun _ => Nat.zero_le _
      below := fun _ h0 => absurd rfl h0
      live := fun _ h => absurd h (by simp [Kern.cold])
      dead := fun _ _ => ⟨rfl, rfl, rfl⟩ }

/-- The kernel starts and makes a process. -/
def firstProcess : KernM (Option (Fin NPROC)) := do
  boot smallLayout
  allocproc smallLayout

/-- Whether the first process passes `check`, to be evaluated. -/
def firstProcessIs (check : Fin NPROC → Kern → Bool) : Bool :=
  match firstProcess (Kern.cold fun _ _ => 0) with
  | .ok (some i, k) => check i k
  | _ => false

/-- There are states with a process, and what they are can be computed. -/
theorem exists_process_of {check : Fin NPROC → Kern → Bool} (h : firstProcessIs check) :
    ∃ k i, Inv smallLayout k.phys k.proc ∅ ∧ (k.proc i).used ∧ (∀ n, k.locked n = false) ∧
      check i k := by
  have hspec : Ensures firstProcess (Kern.cold fun _ _ => 0)
      fun res k => Inv smallLayout k.phys k.proc ∅ ∧ (∀ i, res = some i → (k.proc i).used) ∧
        ∀ n, k.locked n = false := by
    refine .bind (boot_spec smallLayout _) ?_
    rintro - k ⟨hk, hinv⟩
    refine (allocproc_spec hinv).mono ?_
    rintro res _ ⟨m', proc', rfl, hinv', -, -, hres⟩
    exact ⟨hinv', fun i hi => (hres i hi).2.1, fun n => hk ▸ rfl⟩
  obtain ⟨res, k, hrun, hinv, hused, hlocked⟩ := hspec
  rw [firstProcessIs, hrun] at h
  cases res with
  | none => exact nomatch h
  | some i => exact ⟨k, i, hinv, hused i rfl, hlocked, h⟩

theorem exists_process : ∃ (k : Kern) (i : Fin NPROC), Inv smallLayout k.phys k.proc ∅ ∧ (k.proc i).used ∧
    ∀ n, k.locked n = false := by
  have hcheck : firstProcessIs fun _ _ => true := by decide +kernel
  obtain ⟨k, i, hinv, hused, hlocked, -⟩ := exists_process_of hcheck
  exact ⟨k, i, hinv, hused, hlocked⟩

/-! ## Growing and shrinking a process -/

/-- From `k` to `k'` process `i` has changed its own memory and size. -/
def ProcStep (L : Layout) (A : Set ℕ) (i : Fin NPROC) (k k' : Kern) : Prop :=
  ∃ m' p, k' = (k.setPhys m').setProc i p ∧ p.used ∧ p.trapframe = (k.proc i).trapframe ∧
    p.pagetable = (k.proc i).pagetable ∧ Inv L m' (Function.update k.proc i p) A ∧
    Frame (A ∪ trapframes k.proc) (roots k.proc \ {(k.proc i).pagetable}) k.phys m'

section Grow

variable {k : Kern} (h : Inv L k.phys k.proc A) (hi : (k.proc i).used)

include h hi

theorem ProcStep.refl : ProcStep L A i k k := by
  refine ⟨k.phys, k.proc i, ?_, hi, rfl, rfl, ?_, Frame.refl _ _ _⟩
  · rw [Kern.setProc, Kern.setPhys, Function.update_eq_self]
  · rw [Function.update_eq_self]
    exact h

theorem Inv.root_mem : (k.proc i).pagetable ∈ roots k.proc :=
  mem_values (f := fun i => (k.proc i).pagetable) (h.live i hi).2.1

theorem Inv.procStep {sz : ℕ} (hsz : sz ≤ TRAPFRAME)
    (hw : Within L (A ∪ trapframes k.proc) (roots k.proc) (k.proc i).pagetable sz k.phys m') :
    ProcStep L A i k ((k.setPhys m').setProc i { k.proc i with sz := sz }) :=
  ⟨m', _, rfl, hi, rfl, rfl, h.step hi hi rfl rfl hw.space hw.frame hw.high hsz hw.below, hw.frame⟩

theorem Inv.physStep
    (hw : Within L (A ∪ trapframes k.proc) (roots k.proc) (k.proc i).pagetable (k.proc i).sz
      k.phys m') : ProcStep L A i k (k.setPhys m') := by
  have hstep := h.procStep hi (h.sz_le i) hw
  have hself : (k.setPhys m').setProc i { k.proc i with sz := (k.proc i).sz } = k.setPhys m' :=
    Kern.setProc_self (k.setPhys m') i
  rw [hself] at hstep
  exact hstep

theorem growproc_spec (n : ℤ) :
    Ensures (growproc L i n) k fun _ k' => ProcStep L A i k k' := by
  have hroot := h.root_mem hi
  have hsz := h.sz_le i
  have hbelow := h.below i (h.live i hi).2.1
  rw [growproc]
  refine ensures_getProc_bind (.ite (fun _ => ?_) fun _ => .ite (fun _ => ?_) fun _ => ?_)
  · refine .ite (fun _ => .pure (.refl h hi)) fun hle => ?_
    refine ensures_onPhys_bind (uvmalloc_of_le h.space hroot (by decide) hsz (by omega) hbelow) ?_
    rintro sz m' ⟨n, hn, hremap, hres⟩
    have hwithin : ∀ sz, Below m' (k.proc i).pagetable (pgRoundUp sz) → Within L _ _ _ sz _ m' :=
      fun sz => hremap.within (pgRoundUp_mod _) hn
    refine .ite (fun h0 => .pure (h.physStep hi (hwithin _ ?_))) fun hne => ?_
    · rcases hres with ⟨-, hbelow'⟩ | ⟨hmax, hbelow'⟩
      · exact hbelow'
      · rw [h0] at hmax hbelow'
        exact hbelow'.mono (pgRoundUp_mono (by omega) hsz)
    · rcases hres with ⟨h0, -⟩ | ⟨hmax, hbelow'⟩
      · exact absurd h0 hne
      · exact ensures_modifyProc_bind (.pure (h.procStep hi (by omega) (hwithin _ hbelow')))
  · refine ensures_onPhys_bind (uvmdealloc_below h.space hroot hsz hbelow) ?_
    rintro sz m' ⟨a, n, hmod, hn, hremap, hle, hbelow'⟩
    exact ensures_modifyProc_bind (.pure (h.procStep hi (by omega)
      (hremap.within hmod hn hbelow')))
  · exact .pure (.refl h hi)

/-- **`sys_sbrk`**, eager or lazy, growing or shrinking, keeps the owners of pages right. -/
theorem sysSbrk_spec (n t : ℤ) :
    Ensures (sysSbrk L i n t) k fun _ k' => ProcStep L A i k k' := by
  rw [sysSbrk]
  refine ensures_getProc_bind (.ite (fun _ => ?_) fun _ => ?_)
  · refine .bind (growproc_spec h hi n) fun r k' hstep => ?_
    exact .ite (fun _ => .pure hstep) fun _ => .pure hstep
  · refine .ite (fun _ => .pure (.refl h hi)) fun hge => .ite (fun _ => .pure (.refl h hi)) fun hle => ?_
    have hbelow := h.below i (h.live i hi).2.1
    refine ensures_modifyProc_bind (.pure ?_)
    exact h.procStep hi (by omega) (.refl h.space
      (hbelow.mono (pgRoundUp_mono (by omega) (by omega))))

/-- A page fault, in user mode or in the kernel's `copyin` and `copyout`. -/
theorem pageFault_spec (va : ℕ) :
    Ensures (pageFault L i va) k fun _ k' => ProcStep L A i k k' := by
  rw [pageFault]
  refine ensures_getProc_bind ?_
  exact ensures_onPhys (vmfault_within h.space (h.root_mem hi) (h.sz_le i)
    (h.below i (h.live i hi).2.1) va) fun _ _ hw => h.physStep hi hw.1

end Grow

/-! ## `kfork` -/

theorem Space.setHeld {H R : Set ℕ} {q : ℕ} (h : Space L m H R) (hq : q ∈ H) (v : Mem) :
    Space L (m.setPage q v) H R ∧ Frame (H \ {q}) R m (m.setPage q v) := by
  have hsplit : insert q (H \ {q}) = H := by
    rw [Set.insert_sdiff_singleton, Set.insert_eq_of_mem hq]
  rw [← hsplit] at h
  have hset := h.setPage (fun hmem => hmem.2 rfl) v
  rw [hsplit] at hset
  exact hset

theorem Inv.setTrapframe (h : Inv L m proc A) (hi : (proc i).used) (v : Mem) :
    Inv L (m.setPage (proc i).trapframe v) proc A := by
  obtain ⟨hspace, hframe⟩ := h.space.setHeld
    (Or.inr (mem_values (f := fun i => (proc i).trapframe) (h.live i hi).1)) v
  have hroot : (proc i).pagetable ∈ roots proc :=
    mem_values (f := fun i => (proc i).pagetable) (h.live i hi).2.1
  have hinv := h.step (p := proc i) hi hi rfl rfl hspace
    (hframe.mono (le_refl _) Set.sdiff_subset) (hframe.sameHigh hroot) (h.sz_le i)
    ((h.below i (h.live i hi).2.1).congr fun va => hframe.lookup_eq hroot va)
  rw [Function.update_eq_self] at hinv
  exact hinv

theorem Inv.kept_setTrapframe (h : Inv L m proc A) (hi : (proc i).used) (hj : (proc j).used)
    (hne : j ≠ i) (v : Mem) : (proc j).Kept m (m.setPage (proc i).trapframe v) := by
  obtain ⟨-, hframe⟩ := h.space.setHeld
    (Or.inr (mem_values (f := fun i => (proc i).trapframe) (h.live i hi).1)) v
  exact h.kept_of_ne hj hne (hframe.mono (Set.sdiff_subset_sdiff_left Set.subset_union_right)
    Set.sdiff_subset)

theorem ensures_copyTrapframe (m : Phys) (dst src : ℕ) :
    Ensures (copyTrapframe dst src) m fun _ m' => ∃ v, m' = m.setPage dst v :=
  .modify ⟨_, rfl⟩

theorem ensures_setReg (m : Phys) (tf reg v : ℕ) :
    Ensures (setReg tf reg v) m fun _ m' => ∃ w, m' = m.setPage tf w :=
  .modify ⟨_, rfl⟩

section Kfork

variable {k : Kern}

/-- **`kfork`** makes a complete process, or fails and has given everything back.  No process that
is there changes. -/
theorem kfork_spec (h : Inv L k.phys k.proc A) (hi : (k.proc i).used) :
    Ensures (kfork L i) k fun _ k' => ∃ m' proc', k' = { k with phys := m', proc := proc' } ∧
      Inv L m' proc' A ∧
      ∀ l, (k.proc l).used → proc' l = k.proc l ∧ (k.proc l).Kept k.phys m' := by
  rw [kfork]
  refine .bind (allocproc_spec h) ?_
  rintro (_ | j) _ ⟨m₁, proc₁, rfl, h₁, hframe₁, hsame, hnew⟩
  · exact .pure ⟨m₁, proc₁, rfl, h₁, fun l hl => ⟨hsame l hl, h.kept hl Set.subset_union_right hframe₁⟩⟩
  obtain ⟨hjold, hj, hbelow⟩ := hnew j rfl
  have hi₁ : (proc₁ i).used := by rw [hsame i hi]; exact hi
  obtain ⟨htf, hpt, hmapped⟩ := h₁.live j hj
  refine ensures_getProc_bind (ensures_getProc_bind ?_)
  have hroot : (proc₁ j).pagetable ∈ roots proc₁ :=
    mem_values (f := fun i => (proc₁ i).pagetable) hpt
  have hsz := h₁.sz_le i
  have hround := pgRoundUp_le hsz
  refine ensures_onPhys_bind (k := { k with phys := m₁, proc := proc₁ })
    (uvmcopy_spec h₁.space (mem_values (f := fun i => (proc₁ i).pagetable) (h₁.live i hi₁).2.1)
      hroot hbelow hsz) ?_
  rintro res m₂ ⟨n, hn, hremap, hres⟩
  have hn : 4096 * n ≤ pgRoundUp (proc₁ i).sz := hn
  have hother : ∀ l, (k.proc l).used → l ≠ j := by
    rintro l hl rfl
    exact absurd (hl.symm.trans hjold) (by simp)
  have hkept₂ : ∀ l, (k.proc l).used → (k.proc l).Kept k.phys m₂ := fun l hl => by
    have hl₁ := h₁.kept_of_ne (i := j) (by rw [hsame l hl]; exact hl) (hother l hl)
      (hremap.frame.mono (Set.sdiff_subset.trans Set.subset_union_right) (le_refl _))
    rw [hsame l hl] at hl₁
    exact (h.kept hl Set.subset_union_right hframe₁).trans hl₁
  have hhigh : SameHigh (proc₁ j).pagetable m₁ m₂ := hremap.sameHigh rfl (by omega)
  refine .ite (fun hneg => ?_) fun hok => ?_
  · rcases hres with ⟨-, hempty⟩ | rfl
    · have hbelow₂ := hremap.below_of_empty rfl (hbelow.mono (Nat.zero_le _)) hempty
      have hcore : Core L m₂ (Function.update proc₁ j (proc₁ j)) A :=
        h₁.toCore.step rfl rfl hremap.space hremap.frame (h₁.sz_le j) fun _ =>
          hbelow₂.mono (Nat.zero_le _)
      rw [Function.update_eq_self] at hcore
      refine .bind (freeproc_spec (k := { k with phys := m₂, proc := proc₁ }) hcore j) ?_
      rintro - _ ⟨m₃, rfl, hcore₃, hframe₃⟩
      refine .pure ⟨m₃, _, rfl, h₁.update hcore₃ (H := ∅) ?_
        (fun h' => absurd h' (by simp [Proc.cleared])) fun _ => ⟨rfl, rfl, rfl⟩, fun l hl => ?_⟩
      case refine_2 =>
        have hproc : Function.update proc₁ j (proc₁ j).cleared l = k.proc l :=
          (Function.update_of_ne (hother l hl) ..).trans (hsame l hl)
        obtain ⟨htfl, hptl, -⟩ := h.live l hl
        refine ⟨hproc, (hkept₂ l hl).trans (hframe₃.mono ?_ ?_)⟩
        · exact Set.singleton_subset_iff.mpr (Or.inr ⟨htfl, l, congrArg Proc.trapframe hproc⟩)
        · exact Set.singleton_subset_iff.mpr ⟨hptl, l, congrArg Proc.pagetable hproc⟩
      have hroots : roots (Function.update proc₁ j (proc₁ j).cleared) =
          roots proc₁ \ {(proc₁ j).pagetable} := by
        rw [roots, pagetable_update]
        exact values_clear h₁.pagetable_distinct j
      refine (hremap.frame.mono (Set.empty_subset _) (le_refl _)).trans
        (hframe₃.mono (Set.empty_subset _) hroots.superset)
    · exact absurd hneg (by decide)
  · have hbelow₂ : Below m₂ (proc₁ j).pagetable (pgRoundUp (proc₁ i).sz) :=
      (hremap.below rfl hbelow).mono (by omega)
    have h₂ : Inv L m₂ (Function.update proc₁ j { proc₁ j with sz := (proc₁ i).sz }) A :=
      h₁.step hj hj rfl rfl hremap.space hremap.frame hhigh hsz hbelow₂
    have hj₂ : (Function.update proc₁ j { proc₁ j with sz := (proc₁ i).sz } j).used := by
      rw [Function.update_self]
      exact hj
    have htf₂ : (Function.update proc₁ j { proc₁ j with sz := (proc₁ i).sz } j).trapframe =
        (proc₁ j).trapframe := by
      rw [Function.update_self]
    refine ensures_modifyProc_bind (ensures_onPhys_bind (ensures_copyTrapframe ..) ?_)
    rintro - _ ⟨v, rfl⟩
    refine ensures_onPhys_bind (ensures_setReg ..) ?_
    rintro - _ ⟨w, rfl⟩
    have h₃ := h₂.setTrapframe hj₂ v
    have h₄ := h₃.setTrapframe hj₂ w
    have hkept₄ : ∀ l, (k.proc l).used → (k.proc l).Kept k.phys
        ((m₂.setPage (proc₁ j).trapframe v).setPage (proc₁ j).trapframe w) := fun l hl => by
      have hl₂ : Function.update proc₁ j { proc₁ j with sz := (proc₁ i).sz } l = k.proc l :=
        (Function.update_of_ne (hother l hl) ..).trans (hsame l hl)
      have hused := hl
      rw [← hl₂] at hused
      have hkeep := (h₂.kept_setTrapframe hj₂ hused (hother l hl) v).trans
        (h₃.kept_setTrapframe hj₂ hused (hother l hl) w)
      rw [hl₂, htf₂] at hkeep
      exact (hkept₂ l hl).trans hkeep
    rw [htf₂] at h₄
    exact ensures_modifyProc_bind (.pure ⟨_, _, rfl, h₄.step hj₂ hj₂ rfl rfl h₄.space
      (Frame.refl ∅ _ _) (fun _ _ _ => rfl) (h₄.sz_le j) (h₄.below j (h₄.live j hj₂).2.1),
      fun l hl => ⟨by simp [Function.update_of_ne (hother l hl), hsame l hl], hkept₄ l hl⟩⟩)

end Kfork

end Vm
end Xv6

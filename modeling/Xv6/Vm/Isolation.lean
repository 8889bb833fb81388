import Xv6.Vm.Ownership
import Xv6.Vm.Uvmcopy

/-!
# A process is isolated

Whatever the other processes do, the system calls that fail included, and whatever the kernel does
with pages of its own, process `j` stays as it is: its slot, its trapframe, and the memory that it
sees.  One action is enough, since the conditions of a run say that it contains no action of `j`;
each specification has a frame, in which `j` is (`Proc.Kept`).
-/

namespace Xv6
namespace Vm

open Bytes Program Slots Transition

variable {L : Layout} {k k' : Kern} {i j : Fin NPROC} {a : Action}

/-- The process whose action it is. -/
def Action.process? : Action → Option (Fin NPROC)
  | .allocproc | .kernelAlloc | .kernelFree _ | .kernelStore .. => none
  | .kfork i | .sbrk i .. | .pageFault i _ | .kexec i .. | .sysExec i .. | .freeproc i | .trap i _
  | .userStore i .. => some i

/-- Process `j` sees no difference. -/
structure SameFor (j : Fin NPROC) (k k' : Kern) : Prop where
  proc : k'.proc j = k.proc j
  trapframe : k'.phys.mem (k.proc j).trapframe = k.phys.mem (k.proc j).trapframe
  userMem : userMem k'.phys (k.proc j).pagetable (k.proc j).sz =
    userMem k.phys (k.proc j).pagetable (k.proc j).sz

theorem SameFor.trans {k'' : Kern} (h : SameFor j k k') (h' : SameFor j k' k'') :
    SameFor j k k'' := by
  obtain ⟨hproc, htf, hmem⟩ := h'
  rw [h.proc] at hproc htf hmem
  exact ⟨hproc, htf.trans h.trapframe, hmem.trans h.userMem⟩

/-- An entry for the user that is valid is that of a page of the tree. -/
theorem Good.owns_of_isU (h : Good L k) (hj : (k.proc j).used) {va : ℕ}
    (hU : isU (lookup k.phys.mem (k.proc j).pagetable va)) : Owns va :=
  (h.inv.live j hj).2.2.owns_of_isU hU

theorem Proc.Kept.sameFor (h : Good L k) (hj : (k.proc j).used) (hproc : k'.proc j = k.proc j)
    (hkept : (k.proc j).Kept k.phys k'.phys) : SameFor j k k' := by
  have hlookup := hkept.lookup_eq (Set.mem_singleton (k.proc j).pagetable)
  refine ⟨hproc, hkept _ (Or.inl rfl), funext fun n => ?_⟩
  simp only [userMem, hlookup]
  split_ifs with hn hV
  · rw [userPage, userPage]
    split_ifs with hU
    · rw [hkept _ (Or.inr ⟨_, rfl, path (4096 * n),
        uses_path_iff.mpr ⟨h.owns_of_isU hj hU, hV, rfl⟩⟩)]
    · rfl
  all_goals rfl

theorem ProcStep.sameFor (h : Good L k) (hj : (k.proc j).used) (hne : j ≠ i)
    (hstep : ProcStep L k.other i k k') : SameFor j k k' := by
  obtain ⟨m', p, rfl, -, -, -, -, hframe⟩ := hstep
  exact Proc.Kept.sameFor h hj (Function.update_of_ne hne ..) (h.inv.kept_of_ne hj hne
    (hframe.mono (Set.sdiff_subset.trans Set.subset_union_right) (le_refl _)))

theorem Replaced.sameFor (h : Good L k) (hj : (k.proc j).used) (hne : j ≠ i)
    (hrep : Replaced L k.other i k k') : SameFor j k k' := by
  obtain ⟨m', p, rfl, -, -, -, hframe⟩ := hrep
  exact Proc.Kept.sameFor h hj (Function.update_of_ne hne ..) (h.inv.kept_of_ne hj hne
    (hframe.mono (Set.sdiff_subset_sdiff_left Set.subset_union_right) (le_refl _)))

theorem KernelStep.sameFor (h : Good L k) (hj : (k.proc j).used) (hstep : KernelStep L k k') :
    SameFor j k k' :=
  Proc.Kept.sameFor h hj (congrFun hstep.2.1 j) (h.inv.kept hj (le_refl _) hstep.2.2)

/-- An action of another process, or of the kernel. -/
theorem act_sameFor (h : Good L k) (ha : Enabled k a) (hj : (k.proc j).used)
    (hne : a.process? ≠ some j) : Ensures (act L a) k fun _ k' => SameFor j k k' := by
  obtain ⟨hinv, hlock⟩ := id h
  cases a with
  | allocproc =>
    refine Ensures.discard ((allocproc_spec hinv).mono ?_)
    rintro res _ ⟨m', proc', rfl, -, hframe, hsame, -⟩
    exact Proc.Kept.sameFor h hj (hsame j hj) (hinv.kept hj Set.subset_union_right hframe)
  | kfork i =>
    refine Ensures.discard ((kfork_spec hinv ha).mono ?_)
    rintro res _ ⟨m', proc', rfl, -, hsame⟩
    exact Proc.Kept.sameFor h hj (hsame j hj).1 (hsame j hj).2
  | sbrk i n t =>
    exact Ensures.discard ((sysSbrk_spec hinv ha n t).mono fun _ _ hs =>
      hs.sameFor h hj fun heq => hne (heq ▸ rfl))
  | pageFault i va =>
    exact Ensures.discard ((pageFault_spec hinv ha va).mono fun _ _ hs =>
      hs.sameFor h hj fun heq => hne (heq ▸ rfl))
  | kexec i namei path argv =>
    obtain ⟨hused, hargv⟩ := ha
    refine Ensures.discard ((kexec_spec (fun a ha => (hargv a ha).1)
      (fun a ha => (hargv a ha).2) hinv hused namei path fun ip _ => hlock ip.inum).mono ?_)
    rintro res k' (⟨-, m', rfl, -, hframe⟩ | ⟨-, hrep⟩)
    · exact Proc.Kept.sameFor h hj rfl (hinv.kept hj Set.subset_union_right hframe)
    · exact hrep.sameFor h hj fun heq => hne (heq ▸ rfl)
  | sysExec i namei upath uargv =>
    refine Ensures.discard ((sysExec_spec hinv ha namei (fun _ ip _ => hlock ip.inum) upath
      uargv).mono ?_)
    rintro res k' (⟨-, m', rfl, hw⟩ | ⟨-, hrep⟩)
    · exact (hinv.physStep ha hw).sameFor h hj fun heq => hne (heq ▸ rfl)
    · exact hrep.sameFor h hj fun heq => hne (heq ▸ rfl)
  | freeproc i =>
    refine (freeproc_spec hinv.toCore i).mono ?_
    rintro - _ ⟨m', rfl, -, hframe⟩
    have hji : j ≠ i := fun heq => hne (heq ▸ rfl)
    have hproc : Function.update k.proc i (k.proc i).cleared j = k.proc j :=
      Function.update_of_ne hji ..
    obtain ⟨htf, hpt, -⟩ := hinv.live j hj
    refine Proc.Kept.sameFor h hj hproc (hframe.mono ?_ ?_)
    · exact Set.singleton_subset_iff.mpr (Or.inr ⟨htf, j, congrArg Proc.trapframe hproc⟩)
    · exact Set.singleton_subset_iff.mpr ⟨hpt, j, congrArg Proc.pagetable hproc⟩
  | trap i registers =>
    exact .modify (Proc.Kept.sameFor h hj rfl
      (hinv.kept_setTrapframe ha hj (fun heq => hne (heq ▸ rfl)) registers))
  | userStore i va page =>
    obtain ⟨hi, -, hV, hU, -⟩ := ha
    obtain ⟨-, hframe, -⟩ := hinv.space.storeLeaf (hinv.root_mem hi) hV (h.owns_of_isU hi hU) page
    exact .modify (Proc.Kept.sameFor h hj rfl (hinv.kept_of_ne hj (fun heq => hne (heq ▸ rfl))
      (hframe.mono (Set.sdiff_subset.trans Set.subset_union_right) (le_refl _))))
  | kernelAlloc => exact h.ensures_kernelAlloc.mono fun _ _ hk => hk.sameFor h hj
  | kernelFree p => exact (h.ensures_kernelFree ha).mono fun _ _ hk => hk.sameFor h hj
  | kernelStore p page => exact .modify ((h.kernelStore ha page).sameFor h hj)

theorem Good.sameFor_step (h : Good L k) (hstep : Vm.step L k a = some k') (hj : (k.proc j).used)
    (hne : a.process? ≠ some j) : SameFor j k k' := by
  have hnext := Outcome.next?_eq_some hstep
  rw [perform] at hnext
  split at hnext
  · rename_i ha
    obtain ⟨r, k₁, hrun, hsame⟩ := act_sameFor h ha hj hne
    rw [hrun] at hnext
    exact Outcome.next.inj hnext ▸ hsame
  · exact absurd hnext (by simp)

/-- **A process is isolated.**  In every state that the kernel reaches, a run in which process `j`
takes no action and is not freed leaves its slot, its trapframe and the memory that it sees as they
are.  Other processes fork, exec, grow, shrink, fault, store to their memory and exit, the kernel
uses its own pages, and any of this may run out of memory. -/
theorem process_isolation {mem : ℕ → Mem} {k₀ : Kern} {h₀ h : List Action}
    (hboot : boot L (Kern.cold mem) = .ok ((), k₀)) (hrun₀ : Run (ofStep (step L)) k₀ h₀ k)
    (hj : (k.proc j).used)
    (hrun : RunWith (ofStep (step L)) (fun _ a => a.process? ≠ some j) k h k') :
    SameFor j k k' := by
  have hgood : Good L k := hrun₀.invariant (Good.of_boot hboot) fun _ _ _ hg _ hs => hg.step hs
  have hboth : Good L k' ∧ SameFor j k k' := by
    refine hrun.invariant (I := fun u => Good L u ∧ SameFor j k u) ⟨hgood, rfl, rfl, rfl⟩ ?_
    rintro u a v ⟨hu, hsame⟩ hne hstep
    refine ⟨hu.step hstep, hsame.trans (hu.sameFor_step hstep ?_ hne)⟩
    rw [hsame.proc]
    exact hj
  exact hboth.2

/-- The first process has a page when it forks; the child grows and changes its copy. -/
theorem process_isolation_fork : ∃ k k', (k.proc 0).sz = 4096 ∧
    RunWith (ofStep (step forkLayout)) (fun _ a => a.process? ≠ some 0) k
      [.userStore 1 0 fun _ => 7, .sbrk 1 4096 SBRK_EAGER] k' ∧ SameFor 0 k k' := by
  have heval : endsIn (fun _ k => (exec (step forkLayout) k [.allocproc, .sbrk 0 4096 SBRK_EAGER,
      .kfork 0]).any fun u => (u.proc 0).used && (u.proc 0).sz == 4096 &&
        (execWith (step forkLayout) (fun _ a => a.process? ≠ some 0) u
          [.sbrk 1 4096 SBRK_EAGER, .userStore 1 0 fun _ => 7]).isSome)
      (boot forkLayout) (Kern.cold fun _ _ => 0) := by
    decide +kernel
  obtain ⟨_, k₁, hboot, heval⟩ := exists_of_endsIn heval
  obtain ⟨k, hk, heval⟩ := (Option.any_eq_true ..).mp heval
  simp only [Bool.and_eq_true, beq_iff_eq] at heval
  obtain ⟨⟨hused, hsz⟩, hrun⟩ := heval
  obtain ⟨k', hk'⟩ := Option.isSome_iff_exists.mp hrun
  exact ⟨k, k', hsz, run_of_execWith hk',
    process_isolation hboot (run_of_execWith hk) hused (run_of_execWith hk')⟩

end Vm
end Xv6

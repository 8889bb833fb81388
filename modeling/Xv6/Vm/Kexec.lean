import Xv6.Vm.Arguments

/-!
# `exec` is all or nothing

`kexec` either fails and gives back what it has taken (the pages of the new image, the reference to
the executable and its lock, the transaction), or it replaces the memory of the process.  Until the
commit it only reads the process; a failure after the commit does not exist.

`sys_exec` adds the pages of the arguments, which it frees in every case.
-/

namespace Xv6
namespace Vm

open Bytes Program Slots

variable {L : Layout} {m m' m₀ : Phys} {A : Set ℕ} {i : Fin NPROC} {k : Kern} {ip : File}
  {pt sz : ℕ}

/-! ## The executable's inode and the transaction -/

/-- The state in which `kexec` reads the executable: it has a reference and the lock, and a
transaction is open. -/
def Kern.opened (k : Kern) (ip : File) : Kern :=
  { k with
    outstanding := k.outstanding + 1
    ref := Function.update k.ref ip.inum (k.ref ip.inum + 1)
    locked := Function.update k.locked ip.inum true }

theorem ensures_iget_ilock :
    Ensures (do iget ip; ilock ip) { k with outstanding := k.outstanding + 1 } fun _ k' =>
      k' = k.opened ip := by
  refine .modify_bind (.get_bind (.ite (fun h => ?_) fun _ => .set rfl))
  simp only [Function.update_self] at h
  omega

theorem ensures_iunlockput (hfree : k.locked ip.inum = false) :
    Ensures (iunlockput ip) (k.opened ip) fun _ k' =>
      k' = { k with outstanding := k.outstanding + 1 } := by
  rw [iunlockput, iunlock, bind_assoc]
  refine .get_bind ?_
  have hcheck : ¬ ((!(k.opened ip).locked ip.inum) = true ∨ (k.opened ip).ref ip.inum < 1) := by
    simp [Kern.opened]
  rw [if_neg hcheck]
  refine .bind (.set (Q := fun _ k' => k' = _) rfl) ?_
  rintro - _ rfl
  refine .modify ?_
  simp only [Kern.opened, Function.update_self, Function.update_idem, Nat.add_sub_cancel,
    Function.update_eq_self]
  rw [← hfree, Function.update_eq_self]

theorem ensures_release (hfree : k.locked ip.inum = false) :
    Ensures (release (some ip)) (k.opened ip) fun _ k' => k' = k := by
  rw [release]
  refine .bind (ensures_iunlockput hfree) ?_
  rintro - _ rfl
  exact .modify rfl

/-! ## The label `bad` -/

/-- `kexec` has failed: the state is as before, but for the pages that are free. -/
def Failed (L : Layout) (A : Set ℕ) (k : Kern) (res : ℤ) (k' : Kern) : Prop :=
  res = -1 ∧ ∃ m', k' = k.setPhys m' ∧
    Space L m' (A ∪ trapframes k.proc) (roots k.proc) ∧
    Frame (A ∪ trapframes k.proc) (roots k.proc) k.phys m'

theorem bad_of_zero (h : Space L m (A ∪ trapframes k.proc) (roots k.proc))
    (hframe : Frame (A ∪ trapframes k.proc) (roots k.proc) k.phys m)
    (hfree : k.locked ip.inum = false) :
    Ensures (bad L 0 0 (some ip)) ((k.opened ip).setPhys m) (Failed L A k) := by
  rw [bad]
  refine ensures_onPhys_bind (P := fun _ m' => m' = m) (.pure rfl) ?_
  rintro - m' rfl
  refine .bind (ensures_release (k := k.setPhys m') hfree) ?_
  rintro - _ rfl
  exact .pure ⟨rfl, m', rfl, h, hframe⟩

theorem bad_of_open {tf : ℕ}
    (h : Image L (A ∪ trapframes k.proc) (roots k.proc) pt tf sz k.phys m)
    (hfree : k.locked ip.inum = false) :
    Ensures (bad L pt sz (some ip)) ((k.opened ip).setPhys m) (Failed L A k) := by
  rw [bad]
  refine ensures_onPhys_bind (k := (k.opened ip).setPhys m) h.ensures_free ?_
  rintro - m' ⟨hspace, hframe⟩
  refine .bind (ensures_release (k := k.setPhys m') hfree) ?_
  rintro - _ rfl
  exact .pure ⟨rfl, m', rfl, hspace, hframe⟩

theorem bad_of_closed {tf : ℕ}
    (h : Image L (A ∪ trapframes k.proc) (roots k.proc) pt tf sz k.phys m) :
    Ensures (bad L pt sz none) (k.setPhys m) (Failed L A k) := by
  rw [bad]
  refine ensures_onPhys_bind (k := k.setPhys m) h.ensures_free ?_
  rintro - m' ⟨hspace, hframe⟩
  exact .pure ⟨rfl, m', rfl, hspace, hframe⟩

/-! ## The commit -/

/-- `kexec` has replaced the memory of process `i`. -/
def Replaced (L : Layout) (A : Set ℕ) (i : Fin NPROC) (k k' : Kern) : Prop :=
  ∃ m' p, k' = (k.setPhys m').setProc i p ∧ p.used ∧ p.trapframe = (k.proc i).trapframe ∧
    Inv L m' (Function.update k.proc i p) A ∧
    Frame ((A ∪ trapframes k.proc) \ {(k.proc i).trapframe})
      (roots k.proc \ {(k.proc i).pagetable}) k.phys m'

/-- The register `reg` in a trapframe. -/
def getReg (m : Phys) (trapframe reg : ℕ) : ℕ := load 8 (m.mem trapframe) reg

/-- The image at `pt` has become the memory of process `i`, and its stack pointer is `sp`. -/
structure Commits (i : Fin NPROC) (pt sz sp : ℕ) (m : Phys) (k' : Kern) : Prop where
  pagetable : (k'.proc i).pagetable = pt
  sz_eq : (k'.proc i).sz = sz
  frame : Frame ∅ {pt} m k'.phys
  a1 : getReg k'.phys (k'.proc i).trapframe A1 = sp
  sp_eq : getReg k'.phys (k'.proc i).trapframe SP = sp

theorem Space.setHeld_thrice {H R : Set ℕ} {q : ℕ} (h : Space L m H R) (hq : q ∈ H)
    (v₁ v₂ v₃ : Mem) :
    Space L (((m.setPage q v₁).setPage q v₂).setPage q v₃) H R ∧
      Frame (H \ {q}) R m (((m.setPage q v₁).setPage q v₂).setPage q v₃) := by
  obtain ⟨h₁, hf₁⟩ := h.setHeld hq v₁
  obtain ⟨h₂, hf₂⟩ := h₁.setHeld hq v₂
  obtain ⟨h₃, hf₃⟩ := h₂.setHeld hq v₃
  exact ⟨h₃, (hf₁.trans hf₂).trans hf₃⟩

theorem ensures_setReg_eq (m : Phys) (tf reg v : ℕ) :
    Ensures (setReg tf reg v) m fun _ m' => m' = m.setPage tf (store 8 (m.mem tf) reg v) :=
  .modify rfl

/-- **The commit does not fail**: the process gets the new image, and its old page table is given
back. -/
theorem commitImage_spec (h : Inv L k.phys k.proc A) (hi : (k.proc i).used)
    (himg : Image L (A ∪ trapframes k.proc) (roots k.proc) pt (k.proc i).trapframe sz k.phys m)
    (path : List UInt8) (entry sp : ℕ) (hsp : sp < 2 ^ 64) :
    Ensures (commitImage L i path pt sz entry sp) (k.setPhys m) fun _ k' =>
      Replaced L A i k k' ∧ Commits i pt sz sp m k' := by
  obtain ⟨htf, hpt, -⟩ := h.live i hi
  have htfmem : (k.proc i).trapframe ∈ A ∪ trapframes k.proc :=
    Or.inr (mem_values (f := fun i => (k.proc i).trapframe) htf)
  have hroot : (k.proc i).pagetable ∈ roots k.proc := h.root_mem hi
  have hne : (k.proc i).pagetable ≠ pt := fun heq => himg.notMem (heq ▸ hroot)
  rw [commitImage]
  refine ensures_getProc_bind (ensures_onPhys_bind (ensures_setReg_eq ..) ?_)
  rintro - _ rfl
  refine ensures_modifyProc_bind (ensures_modifyProc_bind (ensures_onPhys_bind
    (ensures_setReg_eq ..) ?_))
  rintro - _ rfl
  refine ensures_onPhys_bind (ensures_setReg_eq ..) ?_
  rintro - _ rfl
  simp only [Kern.setProc_setPhys, Kern.setPhys_setPhys, Kern.setPhys_proc, Kern.setProc_proc,
    Kern.setProc_setProc, Kern.setPhys_phys, Kern.setProc_phys, Function.update_self,
    Phys.setPage_mem_self]
  obtain ⟨hspace, hframe⟩ := himg.space.setHeld_thrice htfmem
    (store 8 (m.mem (k.proc i).trapframe) A1 sp)
    (store 8 (store 8 (m.mem (k.proc i).trapframe) A1 sp) EPC entry)
    (store 8 (store 8 (store 8 (m.mem (k.proc i).trapframe) A1 sp) EPC entry) SP sp)
  -- the old page table is as it was
  have hframe₀ := (himg.frame.mono Set.sdiff_subset (le_refl _)).trans
    (hframe.mono (le_refl _) (Set.subset_insert pt _))
  have hbelow : Below _ (k.proc i).pagetable (pgRoundUp (k.proc i).sz) :=
    (h.below i hpt).congr fun va => hframe₀.lookup_eq hroot va
  refine ensures_onPhys (k := (k.setPhys _).setProc i _)
    (procFreepagetable_spec hspace (Or.inr hroot) (h.sz_le i) hbelow) ?_
  rintro - m' ⟨hspace', hframe'⟩
  have hptmem : pt ∈ insert pt (roots k.proc) \ {(k.proc i).pagetable} :=
    ⟨Set.mem_insert pt _, fun heq => hne heq.symm⟩
  -- the new page table has not changed since the image was complete
  have hnew : Frame ∅ {pt} m m' :=
    (hframe.mono (Set.empty_subset _) (Set.singleton_subset_iff.mpr (Set.mem_insert pt _))).trans
      (hframe'.mono (Set.empty_subset _) (Set.singleton_subset_iff.mpr hptmem))
  have hlookup : ∀ va, lookup m'.mem pt va = lookup m.mem pt va := fun va =>
    hnew.lookup_eq (Set.mem_singleton pt) va
  have hall := (hframe₀.mono (le_refl _) Set.sdiff_subset).trans (hframe'.mono Set.sdiff_subset
    (Set.sdiff_subset_sdiff_left (Set.subset_insert pt (roots k.proc))))
  have hregs : m'.mem (k.proc i).trapframe =
      store 8 (store 8 (store 8 (m.mem (k.proc i).trapframe) A1 sp) EPC entry) SP sp := by
    rw [hframe' _ (Or.inl htfmem), Kern.setProc_phys, Kern.setPhys_phys, Phys.setPage_mem_self]
  set p : Proc := { k.proc i with
    pagetable := pt, sz := sz, name := safestrcpy (k.proc i).name (baseName path) } with hp
  have hroots : roots (Function.update k.proc i p) =
      insert pt (roots k.proc) \ {(k.proc i).pagetable} := by
    rw [roots, pagetable_update]
    exact values_replace h.pagetable_distinct himg.page.ne_zero himg.notMem
  have htfs : trapframes (Function.update k.proc i p) = trapframes k.proc :=
    trapframes_update_of_eq rfl
  have hk' : ((k.setPhys m').setProc i p).proc i = p := Function.update_self ..
  refine ⟨⟨m', p, ?_, hi, rfl, ?_, hall⟩, ?_⟩
  · simp only [Kern.setProc_setPhys, Kern.setPhys_setPhys, hp]
  · refine h.update (h.toCore.update (Or.inl rfl) (Or.inr himg.notMem) ?_ hall himg.sz_le fun _ =>
      himg.below.congr hlookup) hall (fun _ => ⟨htf, himg.page.ne_zero,
      himg.mapped.congr fun va _ _ => hlookup va⟩) fun h' => absurd (hi.symm.trans h') (by simp)
    rw [htfs, hroots]
    exact hspace'
  · change Commits i pt sz sp m ((k.setPhys m').setProc i p)
    refine ⟨by rw [hk'], by rw [hk'], hnew, ?_, ?_⟩
    · rw [hk', getReg, Kern.setProc_phys, Kern.setPhys_phys, hregs,
        load_store_of_disjoint (by decide), load_store_of_disjoint (by decide)]
      exact load_store_of_lt hsp
    · rw [hk', getReg, Kern.setProc_phys, Kern.setPhys_phys, hregs]
      exact load_store_of_lt hsp

/-! ## `kexec` -/

/-- What `kexec` ensures. -/
def AllOrNothing (L : Layout) (A : Set ℕ) (i : Fin NPROC) (k : Kern) (res : ℤ) (k' : Kern) : Prop :=
  Failed L A k res k' ∨ (0 ≤ res ∧ Replaced L A i k k')

/-- The image of process `i` has been replaced.  Its stack page is at `b`, above a page that is
closed to the user, and `P` holds of `b`, `sp`, the result and the contents of the stack. -/
def Started (L : Layout) (A : Set ℕ) (i : Fin NPROC) (P : ℕ → ℕ → ℕ → Mem → Prop) (k : Kern)
    (res : ℤ) (k' : Kern) : Prop :=
  ∃ pt b sp argc m, res = (argc : ℕ) ∧ 4096 ≤ b ∧ b % 4096 = 0 ∧ b + 4096 ≤ TRAPFRAME ∧
    P b sp argc (pageAt m pt b) ∧ StackPage m pt b ∧
    (isV (lookup m.mem pt (b - 4096)) ∧ isU (lookup m.mem pt (b - 4096)) = false) ∧
    Replaced L A i k k' ∧ Commits i pt (b + 4096) sp m k'

section Kexec

variable (h : Inv L k.phys k.proc A) (hi : (k.proc i).used) {push : Push}
  {P : ℕ → ℕ → ℕ → Mem → Prop}
  (hpush : ∀ ppt psz pt b m, b % 4096 = 0 → 4096 ≤ b → b + 4096 ≤ TRAPFRAME →
    Space L m (A ∪ trapframes k.proc) (insert pt (roots k.proc)) → StackPage m pt b →
    Frame (A ∪ trapframes k.proc) (roots k.proc) k.phys m →
    Ensures (push ppt psz pt (b + 4096)) m fun res m' =>
      Quiet L (A ∪ trapframes k.proc) (insert pt (roots k.proc)) pt m m' ∧
        ∀ sp argc, res = some (sp, argc) → sp < 2 ^ 64 ∧ P b sp argc (pageAt m' pt b))

include h hi hpush

theorem kexecStackWith_spec
    (himg : Image L (A ∪ trapframes k.proc) (roots k.proc) pt (k.proc i).trapframe sz k.phys m)
    (hfull : Full m pt (pgRoundUp sz)) (path : List UInt8) (entry : ℕ) :
    Ensures (kexecStackWith push L i path pt sz entry) (k.setPhys m) fun res k' =>
      Failed L A k res k' ∨ Started L A i P k res k' := by
  have hmod := pgRoundUp_mod sz
  rw [kexecStackWith]
  refine ensures_getProc_bind (ensures_onPhys_bind (himg.ensures_stack hfull) ?_)
  rintro sz₁ m₁ ⟨hfail, hok⟩
  refine .ite (fun h0 => (bad_of_closed (hfail h0)).mono fun _ _ => Or.inl) fun hne => ?_
  obtain ⟨hsz₁, himg₁, hperm⟩ := hok hne
  have hguard : sz₁ - (USERSTACK + 1) * 4096 = pgRoundUp sz := by
    rw [hsz₁, USERSTACK]
    omega
  rw [hguard]
  refine ensures_onPhys_bind (himg₁.ensures_guard hmod hsz₁ hperm) ?_
  rintro - m₂ ⟨himg₂, hstack, hclosed⟩
  have hle := himg₂.sz_le
  have hbase : sz₁ = pgRoundUp sz + 4096 + 4096 := by omega
  rw [hbase] at himg₂ ⊢
  refine ensures_onPhys_bind (hpush _ _ pt (pgRoundUp sz + 4096) m₂ (by omega) (by omega) (by omega)
    himg₂.space hstack himg₂.frame) ?_
  rintro (_ | ⟨sp, argc⟩) m₃ ⟨hquiet, hres⟩
  · exact (bad_of_closed (himg₂.quiet hquiet)).mono fun _ _ => Or.inl
  · obtain ⟨hsp, hP⟩ := hres sp argc rfl
    have hlookup := hquiet.lookup_eq pt (Set.mem_insert pt _)
    refine .bind (commitImage_spec h hi (himg₂.quiet hquiet) path entry sp hsp) ?_
    rintro - k' ⟨hrep, hcommits⟩
    refine .pure (Or.inr ⟨pt, pgRoundUp sz + 4096, sp, argc, m₃, rfl, by omega, by omega, by omega,
      hP, hstack.congr hlookup, ?_, hrep, hcommits⟩)
    rw [hlookup, Nat.add_sub_cancel]
    exact hclosed

/-- **`kexec` fails and gives everything back, or starts the new image**, whatever the file is and
however the arguments are copied. -/
theorem kexecWith_spec (namei : List UInt8 → Option File) (path : List UInt8)
    (hfree : ∀ ip, namei path = some ip → k.locked ip.inum = false) :
    Ensures (kexecWith push L namei i path) k fun res k' =>
      Failed L A k res k' ∨ Started L A i P k res k' := by
  obtain ⟨htf, hpt, -⟩ := h.live i hi
  have hlt : (k.proc i).trapframe < 2 ^ 64 := by
    obtain ⟨free, hspace⟩ := h.space
    have := (hspace.held _ (Or.inr (mem_values (f := fun i => (k.proc i).trapframe) htf))).1.lt
    omega
  rw [kexecWith]
  refine .modify_bind ?_
  cases hip : namei path with
  | none =>
    refine .modify_bind (.pure (Or.inl ⟨rfl, k.phys, rfl, h.space, Frame.refl _ _ _⟩))
  | some ip =>
    have hlock := hfree ip hip
    have hbad : Ensures (bad L 0 0 (some ip)) (k.opened ip) fun res k' =>
        Failed L A k res k' ∨ Started L A i P k res k' :=
      (bad_of_zero h.space (Frame.refl _ _ _) hlock).mono fun _ _ => Or.inl
    simp only
    rw [← bind_assoc]
    refine .bind ensures_iget_ilock ?_
    rintro - _ rfl
    refine .ite (fun _ => hbad) fun _ => .ite (fun _ => hbad) fun _ => ?_
    refine ensures_getProc_bind (ensures_onPhys_bind (procPagetable_spec h.space hlt) ?_)
    rintro pt m₁ (⟨rfl, hspace, hframe⟩ | ⟨hpage, hnot, hspace, hframe, hmapped, hbelow⟩)
    · refine .ite (fun _ => ?_) fun h0 => absurd rfl h0
      exact (bad_of_zero hspace hframe hlock).mono fun _ _ => Or.inl
    · refine .ite (fun h0 => absurd h0 hpage.ne_zero) fun _ => ?_
      have himg : Image L (A ∪ trapframes k.proc) (roots k.proc) pt (k.proc i).trapframe 0 k.phys
          m₁ := ⟨hpage, hnot, hspace, hframe, hmapped, Nat.zero_le _, hbelow.mono (Nat.zero_le _)⟩
      refine ensures_onPhys_bind (loadSegments_spec hspace (Set.mem_insert pt _) _ _ (Nat.zero_le _)
        himg.below fun va hva => absurd hva (by simp [pgRoundUp, u64])) ?_
      rintro ⟨ok, sz⟩ m₂ ⟨hsz, hw, hfull⟩
      have himg₂ := himg.within hsz hw
      refine .ite (fun _ => ?_) fun hok => ?_
      · exact (bad_of_open himg₂ hlock).mono fun _ _ => Or.inl
      · refine .bind (ensures_iunlockput (k := k.setPhys m₂) hlock) ?_
        rintro - _ rfl
        refine .modify_bind ?_
        exact kexecStackWith_spec h hi hpush himg₂ (hfull (by simpa using hok)) path _

end Kexec

/-- The arguments of `args` are in the stack page at `b`. -/
def ArgsAt (args : List (List UInt8)) (b sp argc : ℕ) (page : Mem) : Prop :=
  argc = args.length ∧ blockSize args ≤ 4096 ∧
    ∃ ustack, ArgumentBlock (stackByte b page) b (b + 4096) args sp ustack

section Arguments

variable {argv : List ℕ} (hargv : ∀ a ∈ argv, a ∈ A)
  (hnul : ∀ a ∈ argv, (cString (k.phys.mem a) 4096).length < 4096)

include hargv hnul

/-- What `kexec` finds in the pages of the arguments when it copies them. -/
theorem strings_of_frame {H R : Set ℕ} (hframe : Frame (A ∪ H) R k.phys m) :
    (∀ a ∈ argv, (cString (m.mem a) 4096).length < 4096) ∧
      argv.map (fun a => cString (m.mem a) 4096) =
        argv.map fun a => cString (k.phys.mem a) 4096 := by
  have hsame : ∀ a ∈ argv, m.mem a = k.phys.mem a := fun a ha => hframe a (Or.inl (Or.inl (hargv a ha)))
  refine ⟨fun a ha => ?_, List.map_congr_left fun a ha => by rw [hsame a ha]⟩
  rw [hsame a ha]
  exact hnul a ha

theorem pushArgv_args {pt b : ℕ} (ppt psz : ℕ) (hb : b % 4096 = 0) (hlo : 4096 ≤ b)
    (hhi : b + 4096 ≤ TRAPFRAME)
    (hspace : Space L m (A ∪ trapframes k.proc) (insert pt (roots k.proc)))
    (hstack : StackPage m pt b) (hframe : Frame (A ∪ trapframes k.proc) (roots k.proc) k.phys m) :
    Ensures (pushArgv L ppt psz pt (b + 4096) argv) m fun res m' =>
      Quiet L (A ∪ trapframes k.proc) (insert pt (roots k.proc)) pt m m' ∧
        ∀ sp argc, res = some (sp, argc) → sp < 2 ^ 64 ∧
          ArgsAt (argv.map fun a => cString (k.phys.mem a) 4096) b sp argc (pageAt m' pt b) := by
  obtain ⟨hnul', hargs⟩ := strings_of_frame hargv hnul hframe
  refine (pushArgv_spec (Set.mem_insert pt _) hb hlo hhi argv (fun a ha => Or.inl (hargv a ha))
    hnul' hspace hstack).mono ?_
  rintro res m' ⟨hquiet, hres⟩
  refine ⟨hquiet, fun sp argc heq => ?_⟩
  obtain ⟨rfl, hsize, ustack, hblock⟩ := hres sp argc heq
  have htop := (hblock.inside _ (List.mem_cons_self ..)).2
  have := TRAPFRAME_eq
  rw [hargs] at hsize hblock
  refine ⟨?_, by rw [List.length_map], hsize, ustack, hblock⟩
  dsimp only at htop
  omega

/-- **`kexec` is all or nothing**, whatever the file and the arguments are. -/
theorem kexec_spec (h : Inv L k.phys k.proc A) (hi : (k.proc i).used)
    (namei : List UInt8 → Option File) (path : List UInt8)
    (hfree : ∀ ip, namei path = some ip → k.locked ip.inum = false) :
    Ensures (kexec L namei i path argv) k (AllOrNothing L A i k) := by
  rw [kexec_eq]
  refine (kexecWith_spec h hi (fun ppt psz pt b m hb hlo hhi hspace hstack hframe =>
    pushArgv_args hargv hnul ppt psz hb hlo hhi hspace hstack hframe) namei path hfree).mono ?_
  rintro res k' (hfail | ⟨pt, b, sp, argc, m, rfl, -, -, -, -, -, -, hrep, -⟩)
  · exact Or.inl hfail
  · exact Or.inr ⟨Int.natCast_nonneg argc, hrep⟩

end Arguments

/-! ## The arguments of `sys_exec` -/

theorem cString_length_lt {buf : Mem} {n j : ℕ} (hj : j < n) (h0 : buf j = 0) :
    (cString buf n).length < n := by
  have hpre : cString buf n <+: (List.range n).map buf := List.takeWhile_prefix _
  have hlen : ((List.range n).map buf).length = n := by
    rw [List.length_map, List.length_range]
  refine lt_of_le_of_ne (hpre.length_le.trans_eq hlen) fun heq => ?_
  have hmem : (0 : UInt8) ∈ cString buf n := by
    rw [hpre.eq_of_length (heq.trans hlen.symm)]
    exact List.mem_map.mpr ⟨j, List.mem_range.mpr hj, h0⟩
  simpa using List.mem_takeWhile_imp hmem

theorem cString_overlay_lt {page : Mem} {s : List UInt8} (hlen : (s ++ [0]).length ≤ 4096) :
    (cString (overlay page 0 (s ++ [0])) 4096).length < 4096 := by
  rw [List.length_append, List.length_singleton] at hlen
  refine cString_length_lt (j := s.length) (by omega) ?_
  rw [overlay, if_pos ⟨Nat.zero_le _, by rw [List.length_append, List.length_singleton]; omega⟩]
  simp

section FetchArgs

variable {H R : Set ℕ} {r uargv : ℕ}

/-- The pages of a list. -/
def pagesOf (pages : List ℕ) : Set ℕ := {p | p ∈ pages}

theorem pagesOf_cons_union (p : ℕ) (pages : List ℕ) (H : Set ℕ) :
    pagesOf (p :: pages) ∪ H = insert p (pagesOf pages ∪ H) := by
  ext q
  rw [Set.mem_insert_iff, Set.mem_union, Set.mem_union, ← or_assoc]
  exact or_congr_left List.mem_cons

theorem pagesOf_nil_union (H : Set ℕ) : pagesOf [] ∪ H = H := by
  ext q
  simp [pagesOf]

/-- What the argument loop has done: it has allocated `pages`, and faulted in user memory. -/
structure Fetched (L : Layout) (H R : Set ℕ) (r sz : ℕ) (pages : List ℕ) (m m' : Phys) : Prop where
  space : Space L m' (pagesOf pages ∪ H) R
  frame : Frame H (R \ {r}) m m'
  high : SameHigh r m m'
  below : Below m' r (pgRoundUp sz)
  nodup : pages.Nodup
  fresh : ∀ p ∈ pages, p ∉ H

theorem Within.fetched_nil (h : Within L H R r sz m m') : Fetched L H R r sz [] m m' where
  space := by
    rw [pagesOf_nil_union]
    exact h.space
  frame := h.frame
  high := h.high
  below := h.below
  nodup := List.nodup_nil
  fresh := by simp

theorem fetchaddr_within (h : Space L m H R) (hr : r ∈ R) (hsz : sz ≤ TRAPFRAME)
    (hbelow : Below m r (pgRoundUp sz)) (addr : ℕ) :
    Ensures (fetchaddr L r sz addr) m fun _ m' => Within L H R r sz m m' := by
  rw [fetchaddr]
  refine .ite (fun _ => .pure (.refl h hbelow)) fun _ => ?_
  refine .bind (copyin_within h hr hsz hbelow addr 8) fun res m' hw => ?_
  cases res with
  | none => exact .pure hw
  | some bs => exact .pure hw

/-- **The argument loop**: every page it has allocated is in the list it returns, and holds a
string if it came to its end. -/
theorem fetchArgs_spec (h : Space L m H R) (hr : r ∈ R) (hsz : sz ≤ TRAPFRAME)
    (hbelow : Below m r (pgRoundUp sz)) (n i : ℕ) :
    Ensures (fetchArgs L r sz uargv n i) m fun res m' => Fetched L H R r sz res.2 m m' ∧
      (res.1 = true → ∀ p ∈ res.2, (cString (m'.mem p) 4096).length < 4096) := by
  induction n generalizing i m H with
  | zero => exact .pure ⟨(Within.refl h hbelow).fetched_nil, by simp⟩
  | succ n ih =>
    rw [fetchArgs]
    refine .bind (fetchaddr_within h hr hsz hbelow _) fun res m₁ hw₁ => ?_
    cases res with
    | none => exact .pure ⟨hw₁.fetched_nil, by simp⟩
    | some uarg =>
      refine .ite (fun _ => .pure ⟨hw₁.fetched_nil, by simp⟩) fun _ => ?_
      refine .bind hw₁.space.ensures_kalloc ?_
      rintro p m₂ (⟨rfl, rfl⟩ | ⟨hpage, hnot, hspace₂, hframe₂⟩)
      · exact .ite (fun _ => .pure ⟨hw₁.fetched_nil, by simp⟩) fun h0 => absurd rfl h0
      · refine .ite (fun h0 => absurd h0 hpage.ne_zero) fun _ => ?_
        refine .bind (copyinstr_spec uarg 4096) ?_
        rintro ⟨ok, s⟩ m₂' ⟨rfl, hlen, hstr⟩
        refine .modify_bind ?_
        obtain ⟨hspace₃, hframe₃⟩ := hspace₂.alloc_page hframe₂ hnot (overlay (m₂'.mem p) 0 s)
        -- up to here one page has gone to the kernel
        have hframe := hw₁.frame.trans (hframe₃.mono (le_refl _) Set.sdiff_subset)
        have hhigh : SameHigh r m _ := fun va hlo hhi =>
          (hframe₃.lookup_eq hr va).trans (hw₁.high va hlo hhi)
        have hbelow₃ := hw₁.below.congr fun va => hframe₃.lookup_eq hr va
        refine .ite (fun _ => .pure ⟨?_, by simp⟩) fun hok => ?_
        · exact ⟨by rwa [pagesOf_cons_union, pagesOf_nil_union], hframe, hhigh, hbelow₃,
            List.nodup_singleton p, by simpa using hnot⟩
        · refine .bind (ih hspace₃ hbelow₃ (i + 1)) ?_
          rintro ⟨ok', pages⟩ m₄ ⟨hfet, hstr₄⟩
          have hpnot : p ∉ pages := fun hmem => hfet.fresh p hmem (Set.mem_insert p H)
          refine .pure ⟨⟨?_, ?_, ?_, hfet.below, List.nodup_cons.mpr ⟨hpnot, hfet.nodup⟩, ?_⟩, ?_⟩
          · rw [pagesOf_cons_union]
            have hspace₄ := hfet.space
            rw [Set.union_insert] at hspace₄
            exact hspace₄
          · exact hframe.trans (hfet.frame.mono (Set.subset_insert p H) (le_refl _))
          · exact fun va hlo hhi => (hfet.high va hlo hhi).trans (hhigh va hlo hhi)
          · intro q hq
            rcases List.mem_cons.mp hq with rfl | hq
            · exact hnot
            · exact fun hH => hfet.fresh q hq (Or.inr hH)
          · intro hok' q hq
            rcases List.mem_cons.mp hq with rfl | hq
            · obtain ⟨s', rfl, -⟩ := hstr (by simpa using hok)
              rw [hfet.frame q (Or.inl (Set.mem_insert q H)), Phys.setPage_mem_self]
              exact cString_overlay_lt hlen
            · exact hstr₄ hok' q hq

/-- **The pages of the arguments are given back.** -/
theorem freeArgs_spec (pages : List ℕ) (h : Space L m (pagesOf pages ∪ H) R)
    (hnodup : pages.Nodup) (hfresh : ∀ p ∈ pages, p ∉ H) :
    Ensures (freeArgs L pages) m fun _ m' => Space L m' H R ∧ Frame H R m m' := by
  induction pages generalizing m with
  | nil =>
    rw [pagesOf_nil_union] at h
    exact .pure ⟨h, Frame.refl _ _ m⟩
  | cons p pages ih =>
    obtain ⟨hnot, hnodup⟩ := List.nodup_cons.mp hnodup
    rw [pagesOf_cons_union] at h
    have hp : p ∉ pagesOf pages ∪ H := by
      rintro (hmem | hmem)
      · exact hnot hmem
      · exact hfresh p (List.mem_cons_self ..) hmem
    rw [freeArgs]
    refine .bind (h.ensures_kfree hp) ?_
    rintro - m₁ ⟨hspace, hframe⟩
    refine (ih hspace hnodup fun q hq => hfresh q (List.mem_cons_of_mem _ hq)).mono ?_
    rintro - m₂ ⟨hspace₂, hframe₂⟩
    exact ⟨hspace₂, (hframe.mono Set.subset_union_right (le_refl _)).trans hframe₂⟩

end FetchArgs

/-! ## `sys_exec` -/

theorem Inv.fetched {proc : Fin NPROC → Proc} {pages : List ℕ} (h : Inv L m proc A)
    (hfet : Fetched L (A ∪ trapframes proc) (roots proc) (proc i).pagetable (proc i).sz pages m m') :
    Inv L m' proc (pagesOf pages ∪ A) := by
  refine h.change ?_ ?_ hfet.frame hfet.high fun _ => hfet.below
  · rw [Set.union_assoc]
    exact hfet.space
  · rintro p (hp | hp)
    · exact fun htf => hfet.fresh p hp (Or.inr htf)
    · exact h.other p hp

/-- `sys_exec` has failed: the process may have got pages that were missing below its size, and
nothing else has changed. -/
def Refused (L : Layout) (A : Set ℕ) (i : Fin NPROC) (k : Kern) (res : ℤ) (k' : Kern) : Prop :=
  res = -1 ∧ ∃ m', k' = k.setPhys m' ∧
    Within L (A ∪ trapframes k.proc) (roots k.proc) (k.proc i).pagetable (k.proc i).sz k.phys m'

/-- What `sys_exec` ensures. -/
def Executed (L : Layout) (A : Set ℕ) (i : Fin NPROC) (k : Kern) (res : ℤ) (k' : Kern) : Prop :=
  Refused L A i k res k' ∨ (0 ≤ res ∧ Replaced L A i k k')

section SysExec

variable (h : Inv L k.phys k.proc A) {argv : List ℕ}
  (hfet : Fetched L (A ∪ trapframes k.proc) (roots k.proc) (k.proc i).pagetable (k.proc i).sz argv
    k.phys m)

include h hfet

theorem freeArgs_failed (hi : (k.proc i).used)
    (hspace : Space L m' (pagesOf argv ∪ (A ∪ trapframes k.proc)) (roots k.proc))
    (hframe : Frame (A ∪ trapframes k.proc) (roots k.proc) m m') :
    Ensures (onPhys (freeArgs L argv)) (k.setPhys m') fun _ k' => Refused L A i k (-1) k' := by
  refine ensures_onPhys (freeArgs_spec argv hspace hfet.nodup hfet.fresh) ?_
  rintro - m'' ⟨hspace', hframe'⟩
  have hall := hframe.trans hframe'
  have hroot := h.root_mem hi
  exact ⟨rfl, m'', rfl, hspace', hfet.frame.trans (hall.mono (le_refl _) Set.sdiff_subset),
    fun va hlo hhi => (hall.lookup_eq hroot va).trans (hfet.high va hlo hhi),
    hfet.below.congr fun va => hall.lookup_eq hroot va⟩

theorem freeArgs_replaced {k' : Kern} (hrep : Replaced L (pagesOf argv ∪ A) i (k.setPhys m) k') :
    Ensures (onPhys (freeArgs L argv)) k' fun _ k'' => Replaced L A i k k'' := by
  obtain ⟨m', p, rfl, hused, htf, hinv, hframe⟩ := hrep
  simp only [Kern.setPhys_proc] at htf hinv hframe
  have htfs : trapframes (Function.update k.proc i p) = trapframes k.proc :=
    trapframes_update_of_eq htf
  have hspace := hinv.space
  rw [Set.union_assoc] at hspace
  refine ensures_onPhys (k := ((k.setPhys m).setPhys m').setProc i p)
    (freeArgs_spec argv hspace hfet.nodup (htfs ▸ hfet.fresh)) ?_
  rintro - m'' ⟨hspace', hframe'⟩
  refine ⟨m'', p, ?_, hused, htf, hinv.reframe hspace' (htfs ▸ h.other) hframe', ?_⟩
  · simp only [Kern.setProc_setPhys, Kern.setPhys_setPhys]
  · have hroots : roots k.proc \ {(k.proc i).pagetable} ⊆ roots (Function.update k.proc i p) := by
      rintro _ ⟨⟨hr0, j, rfl⟩, hne⟩
      have hji : j ≠ i := fun heq => hne (heq ▸ rfl)
      exact ⟨hr0, j, congrArg Proc.pagetable (Function.update_of_ne hji ..)⟩
    refine ((hfet.frame.mono Set.sdiff_subset (le_refl _)).trans (hframe.mono ?_ (le_refl _))).trans
      (hframe'.mono (htfs ▸ Set.sdiff_subset) hroots)
    exact Set.sdiff_subset_sdiff_left (Set.union_subset_union_left _ Set.subset_union_right)

end SysExec

/-- **`sys_exec` frees its arguments**, whatever user memory and the file hold. -/
theorem sysExec_spec (h : Inv L k.phys k.proc A) (hi : (k.proc i).used)
    (namei : List UInt8 → Option File)
    (hfree : ∀ path ip, namei path = some ip → k.locked ip.inum = false) (upath uargv : ℕ) :
    Ensures (sysExec L namei i upath uargv) k (Executed L A i k) := by
  have hroot := h.root_mem hi
  have hbelow := h.below i (h.live i hi).2.1
  rw [sysExec]
  refine ensures_getProc_bind (ensures_onPhys_bind (copyinstr_spec upath MAXPATH) ?_)
  rintro ⟨ok, path⟩ m₀ ⟨hm₀, -, -⟩
  rw [hm₀, Kern.setPhys_self]
  refine .ite (fun _ => .pure (Or.inl ⟨rfl, k.phys, (Kern.setPhys_self k).symm,
    .refl h.space hbelow⟩)) fun _ => ?_
  refine ensures_onPhys_bind (fetchArgs_spec h.space hroot (h.sz_le i) hbelow MAXARG 0) ?_
  rintro ⟨ok, argv⟩ m ⟨hfet, hstr⟩
  refine .ite (fun hok => ?_) fun _ => ?_
  · have hinv := h.fetched hfet
    refine .bind (kexec_spec (k := k.setPhys m) (A := pagesOf argv ∪ A) (fun a ha => Or.inl ha)
      (hstr hok) hinv hi namei path.dropLast (hfree _)) ?_
    rintro res k₁ (⟨rfl, m₁, rfl, hspace, hframe⟩ | ⟨hres, hrep⟩)
    · rw [Set.union_assoc] at hspace hframe
      refine .bind (freeArgs_failed h hfet hi hspace (hframe.mono Set.subset_union_right
        (le_refl _))) fun _ k' hk' => .pure (Or.inl hk')
    · exact .bind (freeArgs_replaced h hfet hrep) fun _ k' hk' => .pure (Or.inr ⟨hres, hk'⟩)
  · refine .bind (freeArgs_failed h hfet hi hfet.space (Frame.refl _ _ m)) fun _ k' hk' =>
      .pure (Or.inl hk')

/-! ## A failed `exec` -/

/-- The pages of the processes and of the kernel. -/
def InUse (k : Kern) (A : Set ℕ) (p : ℕ) : Prop :=
  p ∈ A ∨ ∃ j, (k.proc j).used ∧
    (p = (k.proc j).trapframe ∨ ∃ π, Uses k.phys.mem (k.proc j).pagetable π p)

/-- The process table, the references to inodes, their locks and the transactions are the same. -/
structure SameTables (k k' : Kern) : Prop where
  proc : k'.proc = k.proc
  ref : k'.ref = k.ref
  locked : k'.locked = k.locked
  outstanding : k'.outstanding = k.outstanding

/-- Nothing has changed but the order of the free list and what is in free pages. -/
structure Untouched (L : Layout) (A : Set ℕ) (k k' : Kern) : Prop extends SameTables k k' where
  memory : ∀ p, InUse k A p → k'.phys.mem p = k.phys.mem p
  free : ∃ free free', FreeList L k.phys free ∧ FreeList L k'.phys free' ∧ free'.Perm free

theorem Inv.mem_of_inUse {p : ℕ} (h : Inv L k.phys k.proc A) (hp : InUse k A p) :
    p ∈ A ∪ trapframes k.proc ∨ ∃ r ∈ roots k.proc, ∃ π, Uses k.phys.mem r π p := by
  rcases hp with hp | ⟨j, hj, rfl | ⟨π, hu⟩⟩
  · exact Or.inl (Or.inl hp)
  · exact Or.inl (Or.inr (mem_values (f := fun i => (k.proc i).trapframe) (h.live j hj).1))
  · exact Or.inr ⟨_, h.root_mem hj, π, hu⟩

theorem Failed.untouched {res : ℤ} {k' : Kern} (h : Inv L k.phys k.proc A)
    (hfail : Failed L A k res k') : Untouched L A k k' := by
  obtain ⟨-, m', rfl, ⟨free', hspace'⟩, hframe⟩ := hfail
  obtain ⟨free, hspace⟩ := h.space
  refine ⟨⟨rfl, rfl, rfl, rfl⟩, fun p hp => hframe p (h.mem_of_inUse hp), free, free',
    hspace.freeList, hspace'.freeList, ?_⟩
  exact (List.perm_ext_iff_of_nodup hspace'.freeList.nodup hspace.freeList.nodup).mpr fun p =>
    hspace.mem_free_congr hspace' hframe

/-- A page that was free, and is not free after a failed `sys_exec`, has gone to the process. -/
theorem Refused.free {res : ℤ} {k' : Kern} (h : Inv L k.phys k.proc A)
    (hrefused : Refused L A i k res k') : ∃ free free', FreeList L k.phys free ∧
      FreeList L k'.phys free' ∧ ∀ p ∈ free, p ∈ free' ∨
        ∃ π, Uses k'.phys.mem (k.proc i).pagetable π p := by
  obtain ⟨-, m', rfl, hw⟩ := hrefused
  obtain ⟨free, hspace⟩ := h.space
  obtain ⟨free', hspace'⟩ := hw.space
  refine ⟨free, free', hspace.freeList, hspace'.freeList, fun p hp => ?_⟩
  obtain ⟨hpage, hH, huses⟩ := hspace.mem_free_iff.mp hp
  rcases hspace'.total p hpage with hp' | hp' | ⟨r, hr, π, hu⟩
  · exact Or.inl hp'
  · exact absurd hp' hH
  · by_cases heq : r = (k.proc i).pagetable
    · exact Or.inr ⟨π, heq ▸ hu⟩
    · exact absurd ((hw.frame.uses_iff ⟨hr, heq⟩ π p).mp hu) (huses r hr π)

/-- **`exec` is all or nothing.**  Whatever bytes the file has and wherever reading it or allocating
memory fails, `kexec` does not panic, and if it returns -1 then everything is as before: the process
with its memory, the inode of the executable, the transactions, and the free pages.  `sys_exec` does
not panic either, and if it returns -1 then each page that was free is free again or has been mapped
by a page fault of the process.

The arguments are pages of the kernel that hold strings; the inode's lock is free when `kexec` has
got it. -/
theorem exec_all_or_nothing (h : Inv L k.phys k.proc A) (hi : (k.proc i).used)
    (namei : List UInt8 → Option File)
    (hunlocked : ∀ path ip, namei path = some ip → k.locked ip.inum = false) :
    (∀ path argv, (∀ a ∈ argv, a ∈ A ∧ (cString (k.phys.mem a) 4096).length < 4096) →
      Ensures (kexec L namei i path argv) k fun res k' => res = -1 → Untouched L A k k') ∧
    ∀ upath uargv, Ensures (sysExec L namei i upath uargv) k fun res k' => res = -1 →
      SameTables k k' ∧ ∃ free free', FreeList L k.phys free ∧ FreeList L k'.phys free' ∧
        ∀ p ∈ free, p ∈ free' ∨ ∃ π, Uses k'.phys.mem (k.proc i).pagetable π p := by
  constructor
  · intro path argv hargv
    refine (kexec_spec (fun a ha => (hargv a ha).1) (fun a ha => (hargv a ha).2) h hi namei path
      (hunlocked path)).mono ?_
    rintro res k' (hfail | ⟨hres, -⟩) hneg
    · exact hfail.untouched h
    · omega
  · intro upath uargv
    refine (sysExec_spec h hi namei hunlocked upath uargv).mono ?_
    rintro res k' (hrefused | ⟨hres, -⟩) hneg
    · obtain ⟨-, m', rfl, -⟩ := id hrefused
      exact ⟨⟨rfl, rfl, rfl, rfl⟩, hrefused.free h⟩
    · omega

/-- A process whose path names a file of four bytes. -/
theorem exec_of_a_short_file : ∃ (k : Kern) (i : Fin NPROC),
    Ensures (kexec smallLayout (fun _ => some ⟨1, 4, fun _ => some fun _ => 0⟩) i [47] []) k
      fun res k' => res = -1 → Untouched smallLayout ∅ k k' := by
  obtain ⟨k, i, hinv, hused, hlocked⟩ := exists_process
  exact ⟨k, i, (exec_all_or_nothing hinv hused _ fun _ ip _ => hlocked ip.inum).1 [47] [] (by simp)⟩

end Vm
end Xv6

import Xv6.Vm.Exec
import Xv6.Vm.Processes

/-!
# Building the image of a program

What `exec` does to the new page table before it commits.  The loader may be given any bytes as
program headers, so nothing is known of the addresses in them; but the memory of the new image has
no gaps (`Full`), hence it is bounded by physical memory and every page of a segment is there when
`loadseg` looks for it.
-/

namespace Xv6
namespace Vm

open Bytes Program Slots

variable {L : Layout} {m m' : Phys} {H R : Set ℕ} {r va sz : ℕ}

/-! ## Growing memory without gaps -/

theorem isU_perm (xperm : ℕ) : (PTE_R ||| PTE_U ||| xperm).testBit 4 = true := by
  rw [Nat.testBit_or]
  rfl

theorem Filled.full {a k xperm : ℕ} (h : Filled L m' r a k (PTE_R ||| PTE_U ||| xperm))
    (hremap : Remap L H R r a k m m') (hfull : Full m r a) (hmod : a % 4096 = 0)
    (hle : a + 4096 * k ≤ TRAPFRAME) : Full m' r (a + 4096 * k) := by
  have hframe := TRAPFRAME_eq
  intro va hva
  by_cases hlow : va < a
  · rw [hremap.outside va (by omega) fun hin => by have := hin.1; omega]
    exact hfull va hlow
  · obtain ⟨q, -, hlookup⟩ := h va (by omega) ⟨by omega, by omega⟩
    rw [hlookup, isV_mkPte, isU_mkPte]
    exact ⟨rfl, isU_perm xperm⟩

/-- **`uvmalloc` in `exec`**: the new size is not compared with anything, but memory without gaps
cannot grow beyond physical memory. -/
theorem uvmalloc_full {oldsz newsz xperm : ℕ} (h : Space L m H R) (hr : r ∈ R)
    (hx : xperm < 1024) (hold : oldsz ≤ TRAPFRAME) (hbelow : Below m r (pgRoundUp oldsz))
    (hfull : Full m r (pgRoundUp oldsz)) :
    Ensures (uvmalloc L r oldsz newsz xperm) m fun sz m' =>
      (sz = 0 → Within L H R r oldsz m m') ∧
      (sz ≠ 0 → sz = max oldsz newsz ∧ sz ≤ TRAPFRAME ∧ Within L H R r sz m m' ∧
        Full m' r (pgRoundUp sz) ∧ (oldsz ≤ newsz → ∀ va, pgRoundUp oldsz ≤ va →
          va < pgRoundUp sz → ∃ q, lookup m'.mem r va = mkPte q (PTE_R ||| PTE_U ||| xperm))) := by
  have hframe := TRAPFRAME_eq
  have hstop := PHYSTOP_eq
  have hmod := pgRoundUp_mod oldsz
  by_cases hlt : newsz < oldsz
  · rw [uvmalloc, if_pos hlt]
    refine .pure ⟨fun h0 => absurd h0 (by omega), fun _ => ⟨by omega, hold, .refl h hbelow, hfull,
      fun hle => absurd hle (by omega)⟩⟩
  · refine (uvmalloc_spec h hr hx hold (by omega) hbelow fun k m' _ hk hremap hfilled => ?_).mono ?_
    · have hfull' := hfilled.full hremap hfull hmod hk
      have := hremap.space.full_le hr hk (by omega) fun va hva => (hfull' va hva).1
      omega
    · rintro sz m' ⟨k, hk, hremap, ⟨rfl, hempty⟩ | ⟨rfl, hnew, hpages, hfilled⟩⟩
      · refine ⟨fun _ => hremap.within hmod hk ?_, fun hne => absurd rfl hne⟩
        exact hremap.below_of_empty hmod (hbelow.mono (by omega)) hempty
      · have hbelow' : Below m' r (pgRoundUp sz) := by
          rw [hpages]
          exact hremap.below hmod hbelow
        refine ⟨fun h0 => hremap.within hmod hk ?_, fun _ => ⟨by omega, hnew,
          hremap.within hmod hk hbelow', ?_, fun _ va hlo hhi => ?_⟩⟩
        · rw [h0] at hbelow'
          exact hbelow'.mono (pgRoundUp_mono (Nat.zero_le _) hold)
        · rw [hpages]
          exact hfilled.full hremap hfull hmod hk
        · rw [hpages] at hhi
          obtain ⟨q, -, hlookup⟩ := hfilled va (by omega) ⟨by omega, by omega⟩
          exact ⟨q, hlookup⟩

/-! ## Loading segments -/

/-- **`loadseg` finds every page**, if the segment lies in memory without gaps. -/
theorem loadsegFrom_spec {ip : File} {offset n a : ℕ} (h : Space L m H R) (hr : r ∈ R)
    (ha : a ≤ TRAPFRAME) (hfull : Full m r a) (turns i : ℕ)
    (hin : ∀ j < turns, va + i + 4096 * j < a) :
    Ensures (loadsegFrom r va ip offset n turns i) m fun _ m' => Quiet L H R r m m' := by
  have hframe := TRAPFRAME_eq
  have hmax := MAXVA_eq
  induction turns generalizing i m with
  | zero => exact .pure (.refl h)
  | succ turns ih =>
    have hlt : va + i < a := hin 0 (by omega)
    have hu64 : u64 (va + i) = va + i := u64_of_lt (by omega)
    obtain ⟨hV, hU⟩ := hfull (va + i) hlt
    have hpage := h.leaf_page hr (owns_of_lt (by omega)) hV
    rw [loadsegFrom, hu64]
    refine .bind (walkaddr_of_user (by omega) hV hU) ?_
    rintro pa m₁ ⟨rfl, rfl⟩
    refine .ite (fun h0 => absurd h0 hpage.ne_zero) fun _ => ?_
    refine .modify_bind ?_
    obtain ⟨hspace, hframe', hlookup⟩ := h.storeLeaf hr hV (owns_of_lt (by omega)) (overlay
      (m₁.mem (pte2pa (lookup m₁.mem r (va + i)))) 0 (readi ip (u32 (offset + i))
        (if n - i < 4096 then n - i else 4096)))
    have hquiet : Quiet L H R r m₁ _ := ⟨hspace, hframe', hlookup⟩
    refine .ite (fun _ => .pure hquiet) fun _ => ?_
    refine (ih hspace (hfull.congr fun va => hlookup r hr va) (i + 4096) fun j hj => ?_).mono
      fun _ m' h' => hquiet.trans h'
    have := hin (j + 1) (by omega)
    omega

theorem flags2perm_lt (flags : ℕ) : flags2perm flags < 1024 := by
  rw [flags2perm]
  split <;> split <;> decide

theorem field_lt (bs : List UInt8) (off : ℕ) : field bs off 8 < 2 ^ 64 := load_lt 8 _ off

theorem segment_end {vaddr memsz : ℕ} (hv : vaddr < 2 ^ 64) (hm : memsz < 2 ^ 64)
    (hwrap : ¬ u64 (vaddr + memsz) < vaddr) : u64 (vaddr + memsz) = vaddr + memsz := by
  rw [u64] at hwrap ⊢
  omega

/-- **The loader**: whatever the program headers are, the image has no gaps and its size is known
when the loader stops. -/
theorem loadSegments_spec {ip : File} (h : Space L m H R) (hr : r ∈ R) (n off : ℕ)
    (hsz : sz ≤ TRAPFRAME) (hbelow : Below m r (pgRoundUp sz)) (hfull : Full m r (pgRoundUp sz)) :
    Ensures (loadSegments L ip r n off sz) m fun res m' =>
      res.2 ≤ TRAPFRAME ∧ Within L H R r res.2 m m' ∧
        (res.1 = true → Full m' r (pgRoundUp res.2)) := by
  have hframe := TRAPFRAME_eq
  induction n generalizing off sz m with
  | zero => exact .pure ⟨hsz, .refl h hbelow, fun _ => hfull⟩
  | succ n ih =>
    have hstop : ∀ {m'}, Within L H R r sz m m' →
        Ensures (pure (false, sz) : VmM (Bool × ℕ)) m' fun res m'' =>
          res.2 ≤ TRAPFRAME ∧ Within L H R r res.2 m m'' ∧
            (res.1 = true → Full m'' r (pgRoundUp res.2)) := fun hw =>
      .pure ⟨hsz, hw, fun h' => absurd h' (by simp)⟩
    have hself := Within.refl h hbelow
    rw [loadSegments]
    refine .ite (fun _ => hstop hself) fun _ => .ite (fun _ => ih h _ hsz hbelow hfull) fun _ => ?_
    refine .ite (fun _ => hstop hself) fun hmem => .ite (fun _ => hstop hself) fun hwrap => ?_
    refine .ite (fun _ => hstop hself) fun _ => ?_
    set ph := Proghdr.decode (readi ip off PROGHDR_SIZE) with hph
    have hend := segment_end (field_lt _ _) (field_lt _ _) hwrap
    refine .bind (uvmalloc_full h hr (flags2perm_lt _) hsz hbelow hfull) fun sz₁ m₁ hres => ?_
    refine .ite (fun h0 => hstop (hres.1 h0)) fun hne => ?_
    obtain ⟨hmax, hsz₁, hw₁, hfull₁, -⟩ := hres.2 hne
    have hle := le_pgRoundUp hsz₁
    refine .bind (loadsegFrom_spec hw₁.space hr (pgRoundUp_le hsz₁) hfull₁ _ 0 fun j hj => ?_)
      fun res m₂ hquiet => ?_
    · have hfilesz : u32 ph.filesz ≤ ph.filesz := Nat.mod_le ..
      have hvaddr : u64 (ph.vaddr + ph.memsz) = ph.vaddr + ph.memsz := hend
      omega
    · have hw₂ := hw₁.trans (hquiet.within hr hw₁.below)
      refine .ite (fun _ => .pure ⟨hsz₁, hw₂, fun h' => absurd h' (by simp)⟩) fun _ => ?_
      refine (ih hw₂.space _ hsz₁ hw₂.below (hfull₁.congr fun va => hquiet.lookup_eq r hr va)).mono ?_
      rintro res' m₃ ⟨hsz₃, hw₃, hfull₃⟩
      exact ⟨hsz₃, hw₂.trans hw₃, hfull₃⟩

/-! ## The image on its way -/

/-- The page table `pt` of a new image of size `sz` stands beside the page tables `R`; since `m₀`
nothing of the kernel and of those has changed. -/
structure Image (L : Layout) (H R : Set ℕ) (pt tf sz : ℕ) (m₀ m : Phys) : Prop where
  page : L.Page pt
  notMem : pt ∉ R
  space : Space L m H (insert pt R)
  frame : Frame H R m₀ m
  mapped : Mapped L m pt tf
  sz_le : sz ≤ TRAPFRAME
  below : Below m pt (pgRoundUp sz)

section Image

variable {pt tf sz' : ℕ} {m₀ : Phys}

theorem insert_sdiff {pt : ℕ} (h : pt ∉ R) : insert pt R \ {pt} = R :=
  Set.insert_sdiff_self_of_notMem h

theorem Image.within (h : Image L H R pt tf sz m₀ m) (hsz : sz' ≤ TRAPFRAME)
    (hw : Within L H (insert pt R) pt sz' m m') : Image L H R pt tf sz' m₀ m' where
  page := h.page
  notMem := h.notMem
  space := hw.space
  frame := h.frame.trans (insert_sdiff h.notMem ▸ hw.frame)
  mapped := h.mapped.congr hw.high
  sz_le := hsz
  below := hw.below

theorem Image.quiet (h : Image L H R pt tf sz m₀ m) (hq : Quiet L H (insert pt R) pt m m') :
    Image L H R pt tf sz m₀ m' :=
  h.within h.sz_le (hq.within (Set.mem_insert pt R) h.below)

theorem Image.ensures_free (h : Image L H R pt tf sz m₀ m) :
    Ensures (freePagetable L pt sz) m fun _ m' => Space L m' H R ∧ Frame H R m₀ m' := by
  rw [freePagetable, if_pos h.page.ne_zero]
  refine (procFreepagetable_spec h.space (Set.mem_insert pt R) h.sz_le h.below).mono ?_
  rw [insert_sdiff h.notMem]
  rintro - m' ⟨hspace, hframe⟩
  exact ⟨hspace, h.frame.trans hframe⟩

/-- The page at `b` is mapped, and the user may read and write it. -/
def StackPage (m : Phys) (r b : ℕ) : Prop :=
  isV (lookup m.mem r b) ∧ isU (lookup m.mem r b) ∧ isW (lookup m.mem r b)

theorem StackPage.congr {r b : ℕ} (h : StackPage m r b)
    (hlookup : ∀ va, lookup m'.mem r va = lookup m.mem r va) : StackPage m' r b := by
  rw [StackPage, hlookup]
  exact h

/-- The stack: two pages more, of which the lower one is closed to the user. -/
theorem Image.ensures_stack (h : Image L H R pt tf sz m₀ m) (hfull : Full m pt (pgRoundUp sz)) :
    Ensures (uvmalloc L pt (pgRoundUp sz) (u64 (pgRoundUp sz + (USERSTACK + 1) * 4096)) PTE_W) m
      fun sz₁ m' =>
        (sz₁ = 0 → Image L H R pt tf (pgRoundUp sz) m₀ m') ∧
        (sz₁ ≠ 0 → sz₁ = pgRoundUp sz + 8192 ∧ Image L H R pt tf sz₁ m₀ m' ∧
          ∀ va, pgRoundUp sz ≤ va → va < pgRoundUp sz + 8192 →
            ∃ q, lookup m'.mem pt va = mkPte q (PTE_R ||| PTE_U ||| PTE_W)) := by
  have hframe := TRAPFRAME_eq
  have hmax := MAXVA_eq
  have hle := pgRoundUp_le h.sz_le
  have hmod := pgRoundUp_mod sz
  have hround : pgRoundUp (pgRoundUp sz) = pgRoundUp sz := by
    have heq : pgRoundUp (pgRoundUp sz) = (pgRoundUp sz + 4095) / 4096 * 4096 :=
      pgRoundUp_eq (by omega)
    omega
  have hnew : u64 (pgRoundUp sz + (USERSTACK + 1) * 4096) = pgRoundUp sz + 8192 :=
    u64_of_lt (by rw [USERSTACK]; omega)
  rw [hnew]
  refine (uvmalloc_full h.space (Set.mem_insert pt R) (by decide) hle (hround.symm ▸ h.below)
    (hround.symm ▸ hfull)).mono ?_
  rintro sz₁ m' ⟨hfail, hok⟩
  refine ⟨fun h0 => h.within hle (hfail h0), fun hne => ?_⟩
  obtain ⟨hsz₁, hle₁, hw, -, hperm⟩ := hok hne
  have hsz₁ : sz₁ = pgRoundUp sz + 8192 := by omega
  have hround₁ : pgRoundUp sz₁ = sz₁ := by
    rw [pgRoundUp_eq (by omega)]
    omega
  refine ⟨hsz₁, h.within hle₁ hw, fun va hlo hhi => hperm (by omega) va ?_ ?_⟩
  · rw [hround]
    exact hlo
  · rw [hround₁, hsz₁]
    exact hhi

theorem Image.ensures_guard {b : ℕ} (h : Image L H R pt tf sz m₀ m) (hb : b % 4096 = 0)
    (hsz : sz = b + 8192)
    (hperm : ∀ va, b ≤ va → va < b + 8192 →
      ∃ q, lookup m.mem pt va = mkPte q (PTE_R ||| PTE_U ||| PTE_W)) :
    Ensures (uvmclear pt b) m fun _ m' =>
      Image L H R pt tf sz m₀ m' ∧ StackPage m' pt (b + 4096) ∧
        isV (lookup m'.mem pt b) ∧ isU (lookup m'.mem pt b) = false := by
  have hframe := TRAPFRAME_eq
  have hmax := MAXVA_eq
  have hle := h.sz_le
  have hpt := Set.mem_insert pt R
  have hV : isV (lookup m.mem pt b) := by
    obtain ⟨q, hq⟩ := hperm b (le_refl b) (by omega)
    rw [hq, isV_mkPte]
  refine (uvmclear_spec h.space hpt (by omega) hV).mono ?_
  rintro - m' ⟨hspace, hset⟩
  have hremap := hset.remap hspace hpt (by omega)
  refine ⟨h.within hle (hremap.within hb (by omega) fun va hva hown hV' => ?_), ?_,
    ?_⟩
  · by_cases hin : InPages b 1 va
    · have := inPages_one.mp hin
      have := le_pgRoundUp hle
      omega
    · rw [hremap.outside va hva hin] at hV'
      exact h.below va hva hown hV'
  · obtain ⟨q, hq⟩ := hperm (b + 4096) (by omega) (by omega)
    rw [StackPage, hremap.outside (b + 4096) (by omega) fun hin => by
      have := inPages_one.mp hin
      omega, hq, isV_mkPte, isU_mkPte, isW_mkPte]
    decide
  · have hlt := lookup_lt m.mem pt b
    rw [hset.lookup_eq pt hpt b, if_pos ⟨rfl, rfl⟩, isV, testBit_clearU_of_ne hlt (by decide)]
    exact ⟨hV, isU_clearU hlt⟩

end Image

end Vm
end Xv6

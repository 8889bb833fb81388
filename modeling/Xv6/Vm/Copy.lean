import Xv6.Vm.Lifecycle

/-!
# Copying between the kernel and user memory

`copyin`, `copyinstr` and `copyout` of `kernel/vm.c`.  They go through user memory page by page;
each page is looked up with `walkaddr`, and `copyin` and `copyout` let `vmfault` allocate a page that
was only promised.  `vmfault` works on the page table of the current process, so the two functions
get that page table and the size of the process as well (`ppt`, `psz`).

A buffer in the kernel is a list of bytes: `copyin` and `copyinstr` return the bytes they have
written to it.
-/

namespace Xv6
namespace Vm

open Bytes Program

/-- The page after `bs` has been written at offset `off`. -/
def overlay (page : Mem) (off : ℕ) (bs : List UInt8) : Mem := fun o =>
  if off ≤ o ∧ o < off + bs.length then bs.getD (o - off) 0 else page o

@[simp] theorem overlay_nil (page : Mem) (off : ℕ) : overlay page off [] = page := by
  funext o
  rw [overlay, if_neg (by simp)]

/-- `memmove` of kernel bytes into a physical page. -/
def writeBytes (pa off : ℕ) (bs : List UInt8) : VmM Unit :=
  modify fun m => m.setPage pa (overlay (m.mem pa) off bs)

/-- `n` bytes of a page. -/
def bytesAt (page : Mem) (off n : ℕ) : List UInt8 := (List.range n).map fun j => page (off + j)

/-- `walkaddr`, and `vmfault` if there is no page. -/
def faultIn (L : Layout) (ppt psz pagetable va0 : ℕ) : VmM ℕ := do
  let pa0 ← walkaddr pagetable va0
  if pa0 = 0 then vmfault L ppt psz pagetable va0 else return pa0

/-- The turns of `copyin`.  Every turn copies a byte at least, so `fuel = len` is enough. -/
def copyinFrom (L : Layout) (ppt psz pagetable : ℕ) : ℕ → ℕ → ℕ → VmM (Option (List UInt8))
  | 0, _, _ => return some []
  | fuel + 1, srcva, len =>
    if len = 0 then return some []
    else do
      let va0 := pgRoundDown srcva
      let pa0 ← faultIn L ppt psz pagetable va0
      if pa0 = 0 then return none
      else
        let n := min (4096 - (srcva - va0)) len
        let m ← get
        match ← copyinFrom L ppt psz pagetable fuel (u64 (va0 + 4096)) (len - n) with
        | none => return none
        | some rest => return some (bytesAt (m.mem pa0) (srcva - va0) n ++ rest)

/-- Copy `len` bytes from user to kernel. -/
def copyin (L : Layout) (ppt psz pagetable srcva len : ℕ) : VmM (Option (List UInt8)) :=
  copyinFrom L ppt psz pagetable len srcva len

/-- The turns of `copyin`, with what it returns and the bytes that it has written to the buffer by
then; a call that fails may have written some. -/
def copyinIntoFrom (L : Layout) (ppt psz pagetable : ℕ) : ℕ → ℕ → ℕ → VmM (ℤ × List UInt8)
  | 0, _, _ => return (0, [])
  | fuel + 1, srcva, len =>
    if len = 0 then return (0, [])
    else do
      let va0 := pgRoundDown srcva
      let pa0 ← faultIn L ppt psz pagetable va0
      if pa0 = 0 then return (-1, [])
      else
        let n := min (4096 - (srcva - va0)) len
        let m ← get
        let (res, rest) ← copyinIntoFrom L ppt psz pagetable fuel (u64 (va0 + 4096)) (len - n)
        return (res, bytesAt (m.mem pa0) (srcva - va0) n ++ rest)

/-- `copyin`, with what it returns and the bytes that it has written. -/
def copyinInto (L : Layout) (ppt psz pagetable srcva len : ℕ) : VmM (ℤ × List UInt8) :=
  copyinIntoFrom L ppt psz pagetable len srcva len

/-- The inner loop of `copyinstr`: the bytes up to the first 0, at most `n`, and whether there was
a 0. -/
def takeString (page : Mem) : ℕ → ℕ → List UInt8 × Bool
  | _, 0 => ([], false)
  | off, n + 1 =>
    if page off = 0 then ([0], true)
    else
      let (bs, gotNull) := takeString page (off + 1) n
      (page off :: bs, gotNull)

/-- The turns of `copyinstr`. -/
def copyinstrFrom (pagetable : ℕ) : ℕ → ℕ → ℕ → VmM (Bool × List UInt8)
  | 0, _, _ => return (false, [])
  | fuel + 1, srcva, max =>
    if max = 0 then return (false, [])
    else do
      let va0 := pgRoundDown srcva
      let pa0 ← walkaddr pagetable va0
      if pa0 = 0 then return (false, [])
      else
        let n := min (4096 - (srcva - va0)) max
        let m ← get
        let (bs, gotNull) := takeString (m.mem pa0) (srcva - va0) n
        if gotNull then return (true, bs)
        else
          let (ok, rest) ← copyinstrFrom pagetable fuel (u64 (va0 + 4096)) (max - n)
          return (ok, bs ++ rest)

/-- Copy a null-terminated string from user to kernel: whether it ended within `max` bytes, and the
bytes. -/
def copyinstr (pagetable srcva max : ℕ) : VmM (Bool × List UInt8) :=
  copyinstrFrom pagetable max srcva max

/-- The turns of `copyout`. -/
def copyoutFrom (L : Layout) (ppt psz pagetable : ℕ) : ℕ → ℕ → List UInt8 → VmM ℤ
  | 0, _, _ => return 0
  | fuel + 1, dstva, src =>
    if src.length = 0 then return 0
    else
      let va0 := pgRoundDown dstva
      if va0 ≥ MAXVA then return -1
      else do
        let pa0 ← faultIn L ppt psz pagetable va0
        if pa0 = 0 then return -1
        else
          match ← walk pagetable va0 false with
          | none => panic .kerneltrap
          | some (t, i) =>
            let e ← readPte t i
            if !isW e then return -1
            else
              let n := min (4096 - (dstva - va0)) src.length
              writeBytes pa0 (dstva - va0) (src.take n)
              copyoutFrom L ppt psz pagetable fuel (u64 (va0 + 4096)) (src.drop n)

/-- Copy from kernel to user. -/
def copyout (L : Layout) (ppt psz pagetable dstva : ℕ) (src : List UInt8) : VmM ℤ :=
  copyoutFrom L ppt psz pagetable src.length dstva src

/-! ## What they do to the owners of pages -/

variable {L : Layout} {m m' : Phys} {H R : Set ℕ} {r va sz : ℕ}

/-- **`walkaddr`** finds the page of an address that is mapped for the user. -/
theorem walkaddr_spec :
    Ensures (walkaddr r va) m fun pa m' => m' = m ∧
      pa = if va < MAXVA ∧ isV (lookup m.mem r va) ∧ isU (lookup m.mem r va)
        then pte2pa (lookup m.mem r va) else 0 := by
  rw [walkaddr]
  refine .ite (fun h => .pure ⟨rfl, by rw [if_neg (by omega)]⟩) fun h => ?_
  refine ensures_walk_false_bind (by omega) (fun hn => ?_) fun t ht => ?_
  · refine .pure ⟨rfl, ?_⟩
    rw [lookup_of_node_none hn, isV_zero, if_neg (by simp)]
  · refine ensures_readPte_bind ?_
    rw [← lookup_of_node ht]
    refine .ite (fun hV => .pure ⟨rfl, ?_⟩) fun hV => .ite (fun hU => .pure ⟨rfl, ?_⟩) fun hU =>
      .pure ⟨rfl, ?_⟩
    · rw [if_neg]
      rintro ⟨-, hV', -⟩
      simp [hV'] at hV
    · rw [if_neg]
      rintro ⟨-, -, hU'⟩
      simp [hU'] at hU
    · rw [if_pos ⟨by omega, by simpa using hV, by simpa using hU⟩]

theorem faultIn_within (h : Space L m H R) (hr : r ∈ R) (hsz : sz ≤ TRAPFRAME)
    (hbelow : Below m r (pgRoundUp sz)) (va : ℕ) :
    Ensures (faultIn L r sz r va) m fun _ m' => Within L H R r sz m m' := by
  rw [faultIn]
  refine .bind walkaddr_spec ?_
  rintro pa _ ⟨rfl, -⟩
  refine .ite (fun _ => ?_) fun _ => .pure (.refl h hbelow)
  exact (vmfault_within h hr hsz hbelow va).mono fun _ _ h => h.1

/-- **`copyin`** changes the memory of the process only by the pages it faults in. -/
theorem copyin_within (h : Space L m H R) (hr : r ∈ R) (hsz : sz ≤ TRAPFRAME)
    (hbelow : Below m r (pgRoundUp sz)) (srcva len : ℕ) :
    Ensures (copyin L r sz r srcva len) m fun _ m' => Within L H R r sz m m' := by
  have hgen : ∀ fuel srcva len m, Space L m H R → Below m r (pgRoundUp sz) →
      Ensures (copyinFrom L r sz r fuel srcva len) m fun _ m' => Within L H R r sz m m' := by
    intro fuel
    induction fuel with
    | zero => exact fun _ _ m h hbelow => .pure (.refl h hbelow)
    | succ fuel ih =>
      intro srcva len m h hbelow
      rw [copyinFrom]
      refine .ite (fun _ => .pure (.refl h hbelow)) fun _ => ?_
      refine .bind (faultIn_within h hr hsz hbelow _) fun pa₀ m₁ hw => ?_
      refine .ite (fun _ => .pure hw) fun _ => .get_bind ?_
      refine .bind (ih _ _ m₁ hw.space hw.below) fun res m₂ hw' => ?_
      cases res with
      | none => exact .pure (hw.trans hw')
      | some rest => exact .pure (hw.trans hw')
  exact hgen _ _ _ m h hbelow

theorem takeString_spec (page : Mem) (off n : ℕ) :
    (takeString page off n).1.length ≤ n ∧
      ((takeString page off n).2 = true →
        ∃ s, (takeString page off n).1 = s ++ [0] ∧ ∀ c ∈ s, c ≠ 0) ∧
      ((takeString page off n).2 = false → ∀ c ∈ (takeString page off n).1, c ≠ 0) := by
  induction n generalizing off with
  | zero => simp [takeString]
  | succ n ih =>
    obtain ⟨hlen, hok, hno⟩ := ih (off + 1)
    rw [takeString]
    by_cases h0 : page off = 0
    · rw [if_pos h0]
      exact ⟨by simp, fun _ => ⟨[], rfl, by simp⟩, by simp⟩
    · rw [if_neg h0]
      refine ⟨by simpa using hlen, fun h => ?_, fun h c hc => ?_⟩
      · obtain ⟨s, hs, hne⟩ := hok h
        refine ⟨page off :: s, by simp [hs], fun c hc => ?_⟩
        rcases List.mem_cons.mp hc with rfl | hc
        · exact h0
        · exact hne c hc
      · rcases List.mem_cons.mp hc with rfl | hc
        · exact h0
        · exact hno h c hc

/-- **`copyinstr`** changes nothing, and a string that it has copied ends with its only 0, within
`max` bytes. -/
theorem copyinstr_spec (srcva max : ℕ) :
    Ensures (copyinstr r srcva max) m fun res m' => m' = m ∧ res.2.length ≤ max ∧
      (res.1 = true → ∃ s, res.2 = s ++ [0] ∧ ∀ c ∈ s, c ≠ 0) := by
  have hgen : ∀ fuel srcva max, Ensures (copyinstrFrom r fuel srcva max) m fun res m' => m' = m ∧
      res.2.length ≤ max ∧ (res.1 = true → ∃ s, res.2 = s ++ [0] ∧ ∀ c ∈ s, c ≠ 0) := by
    intro fuel
    induction fuel with
    | zero => exact fun _ _ => .pure ⟨rfl, by simp, by simp⟩
    | succ fuel ih =>
      intro srcva max
      rw [copyinstrFrom]
      refine .ite (fun _ => .pure ⟨rfl, by simp, by simp⟩) fun _ => ?_
      refine .bind walkaddr_spec ?_
      rintro pa m₁ ⟨rfl, -⟩
      refine .ite (fun _ => .pure ⟨rfl, by simp, by simp⟩) fun _ => .get_bind ?_
      set n := min (4096 - (srcva - pgRoundDown srcva)) max with hn
      obtain ⟨hlen, hok, hno⟩ := takeString_spec (m₁.mem pa) (srcva - pgRoundDown srcva) n
      have hle : n ≤ max := Nat.min_le_right ..
      refine .ite (fun hgot => .pure ⟨rfl, hlen.trans hle, fun _ => hok hgot⟩) fun hgot => ?_
      refine .bind (ih _ _) ?_
      rintro ⟨ok, rest⟩ _ ⟨rfl, hlen', hok'⟩
      refine .pure ⟨rfl, ?_, fun h => ?_⟩
      · rw [List.length_append]
        simp only at hlen'
        omega
      · obtain ⟨s, hs, hne⟩ := hok' h
        simp only at hs
        refine ⟨_ ++ s, by rw [hs, List.append_assoc], fun c hc => ?_⟩
        rcases List.mem_append.mp hc with hc | hc
        · exact hno (Bool.eq_false_iff.mpr hgot) c hc
        · exact hne c hc
  exact hgen _ _ _

theorem Space.leaf_page (h : Space L m H R) (hr : r ∈ R) (hown : Owns va)
    (hV : isV (lookup m.mem r va)) : L.Page (pte2pa (lookup m.mem r va)) := by
  obtain ⟨free, h⟩ := h
  exact (h.uses r hr _ _ (uses_path_iff.mpr ⟨hown, hV, rfl⟩)).1

theorem walkaddr_of_user (hva : va < MAXVA) (hV : isV (lookup m.mem r va))
    (hU : isU (lookup m.mem r va)) :
    Ensures (walkaddr r va) m fun pa m' => m' = m ∧ pa = pte2pa (lookup m.mem r va) := by
  refine walkaddr_spec.mono ?_
  rintro pa m' ⟨hm, hpa⟩
  rw [if_pos ⟨hva, hV, hU⟩] at hpa
  exact ⟨hm, hpa⟩

theorem copyoutFrom_nil {ppt psz : ℕ} (fuel dst : ℕ) :
    Ensures (copyoutFrom L ppt psz r fuel dst []) m fun res m' => res = 0 ∧ m' = m := by
  cases fuel with
  | zero => exact .pure ⟨rfl, rfl⟩
  | succ fuel =>
    rw [copyoutFrom]
    exact .ite (fun _ => .pure ⟨rfl, rfl⟩) fun h => absurd rfl h

/-- **`copyout` within one page** that the user may write. -/
theorem copyout_page {ppt psz dst : ℕ} {src : List UInt8} (h : Space L m H R) (hr : r ∈ R)
    (hva : pgRoundDown dst < TRAPFRAME) (hV : isV (lookup m.mem r (pgRoundDown dst)))
    (hU : isU (lookup m.mem r (pgRoundDown dst))) (hW : isW (lookup m.mem r (pgRoundDown dst)))
    (hlen : dst - pgRoundDown dst + src.length ≤ 4096) :
    Ensures (copyout L ppt psz r dst src) m fun res m' => res = 0 ∧ Quiet L H R r m m' ∧
      m'.mem (pte2pa (lookup m.mem r (pgRoundDown dst))) =
        overlay (m.mem (pte2pa (lookup m.mem r (pgRoundDown dst)))) (dst - pgRoundDown dst) src := by
  have hframe := TRAPFRAME_eq
  have hmax := MAXVA_eq
  have hpage := h.leaf_page hr (owns_of_lt hva) hV
  rw [copyout]
  cases hsrc : src.length with
  | zero =>
    obtain rfl := List.eq_nil_of_length_eq_zero hsrc
    exact .pure ⟨rfl, .refl h, (overlay_nil ..).symm⟩
  | succ fuel =>
    rw [copyoutFrom]
    refine .ite (fun h0 => absurd (hsrc.symm.trans h0) (by simp)) fun _ => ?_
    refine .ite (fun hge => absurd hge (by omega)) fun _ => ?_
    rw [faultIn, bind_assoc]
    refine .bind (walkaddr_of_user (by omega) hV hU) ?_
    rintro pa m₁ ⟨rfl, rfl⟩
    rw [if_neg hpage.ne_zero, pure_bind]
    refine .ite (fun h0 => absurd h0 hpage.ne_zero) fun _ => ?_
    refine ensures_walk_false_bind (by omega) (fun hn => ?_) fun t ht => ensures_readPte_bind ?_
    · rw [lookup_of_node_none hn, isV_zero] at hV
      exact absurd hV (by simp)
    · rw [← lookup_of_node ht]
      refine .ite (fun hW' => absurd hW' (by simp [hW])) fun _ => ?_
      have hn : min (4096 - (dst - pgRoundDown dst)) src.length = src.length := by omega
      simp only [hn, List.take_length, List.drop_length]
      obtain ⟨hspace, hframe', hlookup⟩ := h.storeLeaf hr hV (owns_of_lt hva)
        (overlay (m₁.mem (pte2pa (lookup m₁.mem r (pgRoundDown dst)))) (dst - pgRoundDown dst) src)
      refine .modify_bind ((copyoutFrom_nil _ _).mono ?_)
      rintro res _ ⟨rfl, rfl⟩
      exact ⟨rfl, ⟨hspace, hframe', hlookup⟩, Phys.setPage_mem_self ..⟩

end Vm
end Xv6

import Xv6.Vm.Kexec
import Xv6.Vm.UserMemory

/-!
# What a program finds when it starts

`kexec` returns `argc`, which goes to `a0`, and sets `a1` and `sp` to the array of pointers.  In the
memory of the new program the arguments are there, in the stack page, above a page that it cannot
use.  If they do not fit, `kexec` fails.
-/

namespace Xv6
namespace Vm

open Bytes Program

variable {L : Layout} {A : Set ℕ} {i : Fin NPROC} {k k' : Kern} {argv : List ℕ}
  {args : List (List UInt8)} {res : ℤ}

/-- Process `i` starts a program with the arguments `args`. -/
structure StartsWith (i : Fin NPROC) (args : List (List UInt8)) (res : ℤ) (k' : Kern) : Prop where
  argc : res = args.length
  a1 : getReg k'.phys (k'.proc i).trapframe A1 = getReg k'.phys (k'.proc i).trapframe SP
  /-- The guard page is not the program's. -/
  guard : userMem k'.phys (k'.proc i).pagetable (k'.proc i).sz
    ((k'.proc i).sz / 4096 - USERSTACK - 1) = none
  /-- The pages of the stack are there. -/
  stack : ∀ n < USERSTACK, ∃ bytes, userMem k'.phys (k'.proc i).pagetable (k'.proc i).sz
    ((k'.proc i).sz / 4096 - USERSTACK + n) = some ⟨true, true, bytes⟩
  block : ∃ ustack, ArgumentBlock (userMem k'.phys (k'.proc i).pagetable (k'.proc i).sz).byte
    ((k'.proc i).sz - USERSTACK * 4096) (k'.proc i).sz args
    (getReg k'.phys (k'.proc i).trapframe SP) ustack

theorem Frame.userMem_eq {m m' : Phys} {r sz va : ℕ} (h : Frame ∅ {r} m m') (hva : va < MAXVA)
    (hown : Owns va) (hV : isV (lookup m.mem r va)) :
    userMem m' r sz (va / 4096) = userPage m.mem (lookup m.mem r va) := by
  have hlookup := h.lookup_eq (Set.mem_singleton r) va
  have hpage : m'.mem (pte2pa (lookup m.mem r va)) = m.mem (pte2pa (lookup m.mem r va)) :=
    h _ (Or.inr ⟨r, Set.mem_singleton r, path va, uses_path_iff.mpr ⟨hown, hV, rfl⟩⟩)
  rw [userMem_of_isV hva (by rw [hlookup, hV]), hlookup, userPage, userPage, hpage]

theorem Started.startsWith (h : Started L A i (ArgsAt args) k res k') :
    StartsWith i args res k' ∧ blockSize args ≤ USERSTACK * 4096 := by
  have hframe := TRAPFRAME_eq
  have hmax := MAXVA_eq
  obtain ⟨pt, b, sp, argc, m, rfl, hlo, hmod, hhi, hargs, hstack, ⟨hguardV, hguardU⟩, hrep, hc⟩ := h
  obtain ⟨rfl, hsize, ustack, hblock⟩ := hargs
  obtain ⟨hV, hU, hW⟩ := hstack
  -- the page table is that of a process, so the stack page is readable
  have hR : isR (lookup m.mem pt b) := by
    obtain ⟨m', p, rfl, hused, -, hinv, -⟩ := hrep
    have hroot : pt ∈ roots (Function.update k.proc i p) := by
      have hmem := Inv.root_mem (k := (k.setPhys m').setProc i p) hinv
        (by rw [Kern.setProc_proc, Function.update_self]; exact hused)
      rwa [hc.pagetable] at hmem
    have hlookup : lookup m'.mem pt b = lookup m.mem pt b :=
      hc.frame.lookup_eq (Set.mem_singleton pt) b
    have hV' : isV (lookup m'.mem pt b) := by
      rw [hlookup]
      exact hV
    have hR := isR_of_isV hinv.space hroot hV'
    rwa [hlookup] at hR
  have hbase : (k'.proc i).sz - USERSTACK * 4096 = b := by
    rw [hc.sz_eq, USERSTACK]
    omega
  have hpage : userMem k'.phys pt (b + 4096) (b / 4096) = some ⟨true, true, pageAt m pt b⟩ := by
    rw [hc.frame.userMem_eq (by omega) (owns_of_lt (by omega)) hV, userPage, if_pos hU, hR, hW]
    rfl
  refine ⟨⟨rfl, by rw [hc.a1, hc.sp_eq], ?_, fun n hn => ⟨pageAt m pt b, ?_⟩, ustack, ?_⟩, ?_⟩
  · have hindex : (k'.proc i).sz / 4096 - USERSTACK - 1 = (b - 4096) / 4096 := by
      rw [hc.sz_eq, USERSTACK]
      omega
    rw [hindex, hc.pagetable, hc.sz_eq, hc.frame.userMem_eq (by omega) (owns_of_lt (by omega))
      hguardV, userPage, hguardU]
    rfl
  · have hindex : (k'.proc i).sz / 4096 - USERSTACK + n = b / 4096 := by
      have hn : n < 1 := hn
      rw [hc.sz_eq, USERSTACK]
      omega
    rw [hindex, hc.pagetable, hc.sz_eq, hpage]
  · rw [hbase, hc.pagetable, hc.sz_eq, hc.sp_eq]
    refine hblock.congr fun a ha hlt => ?_
    have hdiv : a / 4096 = b / 4096 := by omega
    rw [UserMem.byte, hdiv, hpage, stackByte, if_pos ⟨ha, hlt⟩, Option.map_some,
      show a % 4096 = a - b by omega]
  · rw [USERSTACK]
    omega

theorem Inv.exists_page {m : Phys} {proc : Fin NPROC → Proc} (h : Inv L m proc A)
    (hfree : returns (· ≠ 0) kalloc m) (w : Mem) :
    ∃ p m', Inv L m' proc (insert p A) ∧ m'.mem p = w := by
  obtain ⟨p, m₁, hne, hres⟩ := h.space.ensures_kalloc.of_returns hfree
  rcases hres with ⟨rfl, -⟩ | ⟨-, hnot, hspace, hframe⟩
  · exact absurd hne (by decide)
  · obtain ⟨hspace', hframe'⟩ := hspace.alloc_page hframe hnot w
    refine ⟨p, m₁.setPage p w, h.reframe ?_ ?_ hframe', Phys.setPage_mem_self ..⟩
    · rw [Set.insert_union]
      exact hspace'
    · rintro q (rfl | hq)
      · exact fun htf => hnot (Or.inr htf)
      · exact h.other q hq

end Vm
end Xv6

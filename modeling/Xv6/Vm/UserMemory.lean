import Xv6.Vm.Copy
import Xv6.Vm.Hang

/-!
# User memory as a process sees it

A page of user memory can be there, or it can only be promised: `sbrklazy` makes the process larger,
and the page comes with the first access.  `userMem m r sz` is the memory of the process with page
table `r` and size `sz` in which this makes no difference: a page that is promised is a page of
zeroes.
-/

namespace Xv6
namespace Vm

open Bytes Program

/-- A page of user memory. -/
structure UserPage where
  readable : Bool
  writable : Bool
  bytes : Mem

/-- User memory, by page number. -/
abbrev UserMem := ℕ → Option UserPage

/-- The byte at `va`, if there is one. -/
def UserMem.byte (u : UserMem) (va : ℕ) : Option UInt8 :=
  (u (va / 4096)).map fun page => page.bytes (va % 4096)

/-- A page of zeroes. -/
def UserPage.zero : UserPage := ⟨true, true, fun _ => 0⟩

/-- The page that an entry stands for. -/
def userPage (mem : ℕ → Mem) (e : ℕ) : Option UserPage :=
  if isU e then some ⟨isR e, isW e, mem (pte2pa e)⟩ else none

/-- What the process with page table `r` and size `sz` sees: the pages that are mapped for it, and a
page of zeroes for each that is promised. -/
def userMem (m : Phys) (r sz : ℕ) : UserMem := fun k =>
  if k < MAXVA / 4096 then
    if isV (lookup m.mem r (4096 * k)) then userPage m.mem (lookup m.mem r (4096 * k))
    else if 4096 * k < sz then some .zero
    else none
  else none

variable {L : Layout} {m m' : Phys} {free : List ℕ} {H R : Set ℕ} {r sz va p k : ℕ}

theorem userMem_of_isV (hva : va < MAXVA) (hV : isV (lookup m.mem r va) = true) :
    userMem m r sz (va / 4096) = userPage m.mem (lookup m.mem r va) := by
  have hlt : va / 4096 < MAXVA / 4096 := by
    rw [MAXVA_eq] at hva ⊢
    omega
  have hpage : lookup m.mem r (4096 * (va / 4096)) = lookup m.mem r va := lookup_congr (by omega)
  rw [userMem, if_pos hlt, hpage, if_pos hV]

theorem Owned.user_page (h : Owned L m free H R) (hr : r ∈ R) (hown : Owns va)
    (hV : isV (lookup m.mem r va)) : pte2pa (lookup m.mem r va) ∉ free ∧
      ∀ r' ∈ R, ∀ π, ¬ IsTable m.mem r' π (pte2pa (lookup m.mem r va)) := by
  have hu : Uses m.mem r (path va) (pte2pa (lookup m.mem r va)) :=
    uses_path_iff.mpr ⟨hown, hV, rfl⟩
  refine ⟨(h.uses r hr _ _ hu).2.1, fun r' hr' π ht => ?_⟩
  have heq := (h.unique r' hr' r hr π _ _ (.of_table ht.length_le ht.inTable ht.node_eq) hu).2
  have hlen := ht.length_le
  rw [heq] at hlen
  exact absurd hlen (by simp [path])

end Vm
end Xv6

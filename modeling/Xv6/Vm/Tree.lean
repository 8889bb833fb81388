import Xv6.Vm.PageTable

/-!
# Page tables as trees

A page table is a tree of pages.  A node is named by its path of indices from the root: the empty
path is the root table, a path of length two is a table of the last level, and a path of length
three a leaf, the page that an address is mapped to (`path va`).

`node mem r π` is the page at path `π`.  It depends only on the entries read on the way
(`node_congr`), so it is easy to say what one write to one entry changes: the nodes behind that
entry, and no other, since a page occurs in a tree only once.
-/

namespace Xv6
namespace Vm

open Bytes

/-- A path: indices into tables. -/
abbrev Path := List ℕ

variable {mem : ℕ → Mem} {t r va va' : ℕ} {π : Path}

/-- The table or page that entry `i` of table `t` points to. -/
def next (mem : ℕ → Mem) (t i : ℕ) : Option ℕ :=
  if isV (pte mem t i) then some (pte2pa (pte mem t i)) else none

theorem next_eq_none {i : ℕ} : next mem t i = none ↔ isV (pte mem t i) = false := by
  simp [next]

theorem next_eq_some {i u : ℕ} :
    next mem t i = some u ↔ isV (pte mem t i) = true ∧ pte2pa (pte mem t i) = u := by
  simp [next]

/-- The page at a path from table `t`. -/
def node (mem : ℕ → Mem) : ℕ → Path → Option ℕ
  | t, [] => some t
  | t, i :: π => (next mem t i).bind fun u => node mem u π

@[simp] theorem node_nil (mem : ℕ → Mem) (t : ℕ) : node mem t [] = some t := rfl

theorem node_cons (mem : ℕ → Mem) (t i : ℕ) (π : Path) :
    node mem t (i :: π) = (next mem t i).bind fun u => node mem u π := rfl

theorem node_append (mem : ℕ → Mem) (t : ℕ) (π ρ : Path) :
    node mem t (π ++ ρ) = (node mem t π).bind fun u => node mem u ρ := by
  induction π generalizing t with
  | nil => rfl
  | cons i π ih =>
    rw [List.cons_append, node_cons, node_cons, Option.bind_assoc]
    exact congrArg _ (funext fun u => ih u)

theorem node_snoc (h : node mem r π = some t) (i : ℕ) : node mem r (π ++ [i]) = next mem t i := by
  rw [node_append, h, Option.bind_some, node_cons]
  cases next mem t i <;> rfl

/-- **A node depends only on the entries on the way to it.** -/
theorem node_congr {mem' : ℕ → Mem}
    (h : ∀ ρ t i, ρ ++ [i] <+: π → node mem r ρ = some t → pte mem' t i = pte mem t i) :
    node mem' r π = node mem r π := by
  induction π generalizing r with
  | nil => rfl
  | cons i π ih =>
    have hpte : pte mem' r i = pte mem r i := h [] r i ⟨π, rfl⟩ rfl
    rw [node_cons, node_cons, next, next, hpte]
    split
    · rename_i hV
      refine ih fun ρ t j hpre hρ => h (i :: ρ) t j ?_ ?_
      · exact List.cons_prefix_cons.mpr ⟨rfl, hpre⟩
      · rw [node_cons, next, if_pos hV]
        exact hρ
    · rfl

/-- The path of a virtual address. -/
def path (va : ℕ) : Path := [px 2 va, px 1 va, px 0 va]

/-- The path of the table that holds the entry of a virtual address. -/
def dir (va : ℕ) : Path := [px 2 va, px 1 va]

theorem path_eq (va : ℕ) : path va = dir va ++ [px 0 va] := rfl

/-- The entry of a virtual address; 0 if its table does not exist. -/
def lookup (mem : ℕ → Mem) (r va : ℕ) : ℕ :=
  match node mem r (dir va) with
  | some t => pte mem t (px 0 va)
  | none => 0

theorem lookup_of_node (h : node mem r (dir va) = some t) :
    lookup mem r va = pte mem t (px 0 va) := by
  rw [lookup, h]

theorem lookup_of_node_none (h : node mem r (dir va) = none) : lookup mem r va = 0 := by
  rw [lookup, h]

theorem lookup_congr (h : va / 4096 = va' / 4096) : lookup mem r va = lookup mem r va' := by
  rw [lookup, lookup, dir, dir, px_congr 2 h, px_congr 1 h, px_congr 0 h]

theorem lookup_of_path (h : path va = path va') : lookup mem r va = lookup mem r va' := by
  obtain ⟨h₂, h₁, h₀⟩ : px 2 va = px 2 va' ∧ px 1 va = px 1 va' ∧ px 0 va = px 0 va' := by
    simpa [path] using h
  rw [lookup, lookup, dir, dir, h₂, h₁, h₀]

theorem isV_zero : isV 0 = false := Nat.zero_testBit 0

/-- The leaf of a virtual address is what its entry points to. -/
theorem node_path (mem : ℕ → Mem) (r va : ℕ) :
    node mem r (path va) =
      if isV (lookup mem r va) then some (pte2pa (lookup mem r va)) else none := by
  cases h : node mem r (dir va) with
  | none =>
    rw [path_eq, node_append, h, lookup_of_node_none h, isV_zero]
    rfl
  | some t => rw [path_eq, node_snoc h, lookup_of_node h, next]

theorem exists_path {i₂ i₁ i₀ : ℕ} (h₂ : i₂ < 512) (h₁ : i₁ < 512) (h₀ : i₀ < 512) :
    ∃ va < 2 ^ 39, va % 4096 = 0 ∧ path va = [i₂, i₁, i₀] := by
  refine ⟨((i₂ * 512 + i₁) * 512 + i₀) * 4096, by omega, by omega, ?_⟩
  simp only [path, px, Nat.shiftRight_eq_div_pow, Nat.reduceMul, Nat.reduceAdd, Nat.reducePow]
  congr 1
  · omega
  · congr 1
    · omega
    · congr 1
      omega

theorem path_inj (h : va < 2 ^ 39) (h' : va' < 2 ^ 39) :
    path va = path va' ↔ va / 4096 = va' / 4096 := by
  constructor
  · intro heq
    simp only [path, List.cons.injEq, and_true] at heq
    obtain ⟨h2, h1, h0⟩ := heq
    simp only [px, Nat.shiftRight_eq_div_pow, Nat.reduceMul, Nat.reduceAdd, Nat.reducePow]
      at h2 h1 h0
    omega
  · intro heq
    rw [path, path, px_congr 2 heq, px_congr 1 heq, px_congr 0 heq]

/-- A path inside a page table. -/
def InTable (π : Path) : Prop := ∀ i ∈ π, i < 512

theorem inTable_nil : InTable [] := fun _ h => absurd h List.not_mem_nil

theorem inTable_dir (va : ℕ) : InTable (dir va) := by
  intro i hi
  rcases List.mem_cons.mp hi with rfl | hi
  · exact px_lt ..
  · rw [List.mem_singleton.mp hi]
    exact px_lt ..

theorem inTable_path (va : ℕ) : InTable (path va) := by
  intro i hi
  rw [path_eq, List.mem_append] at hi
  rcases hi with hi | hi
  · exact inTable_dir va i hi
  · rw [List.mem_singleton.mp hi]
    exact px_lt ..

theorem InTable.append {ρ : Path} (h : InTable π) (h' : InTable ρ) : InTable (π ++ ρ) := by
  intro i hi
  rcases List.mem_append.mp hi with hi | hi
  · exact h i hi
  · exact h' i hi

theorem InTable.of_prefix {ρ : Path} (h : InTable π) (hpre : ρ <+: π) : InTable ρ :=
  fun i hi => h i (hpre.subset hi)

/-- Page `p` is used by the tree at `r`, as the table or the leaf at path `π`.  The trampoline and
the trapframe are mapped but do not belong to the tree. -/
structure Uses (mem : ℕ → Mem) (r : ℕ) (π : Path) (p : ℕ) : Prop where
  length_le : π.length ≤ 3
  inTable : InTable π
  ne_trampoline : π ≠ path TRAMPOLINE
  ne_trapframe : π ≠ path TRAPFRAME
  node_eq : node mem r π = some p

theorem Uses.of_table (hlen : π.length ≤ 2) (hπ : InTable π) (h : node mem r π = some t) :
    Uses mem r π t where
  length_le := by omega
  inTable := hπ
  ne_trampoline := fun heq => by rw [heq, path] at hlen; exact absurd hlen (by simp)
  ne_trapframe := fun heq => by rw [heq, path] at hlen; exact absurd hlen (by simp)
  node_eq := h

end Vm
end Xv6

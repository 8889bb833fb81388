import Xv6.Fs.Transfer

/-!
# How much a read stores

`fileread` takes the count as an `int`.  A pipe and the console compare it with the number of bytes so far,
and store nothing when it is negative.  For an inode it becomes a `uint`: then it is at least `2 ^ 31`, and
the test of `readi` for an overflow finds it only if the offset is at least as large as the count is below
zero.  Otherwise the rest of the file is stored.
-/

namespace Xv6.Fs

open Bytes Program

/-! ## Pipes and the console -/

theorem pipeCopy_le (dst : ℕ → Bool) (a : ℕ) (n : ℤ) (cs : List UInt8) :
    ∀ i : ℕ, (i : ℤ) ≤ max n 0 →
      (pipeCopy dst a n i cs).1 ≤ max n 0 ∧ i + ((pipeCopy dst a n i cs).2.length : ℤ) ≤ max n 0 := by
  induction cs with
  | nil =>
    intro i hi
    simpa [pipeCopy] using hi
  | cons c cs ih =>
    intro i hi
    rw [pipeCopy]
    split
    · rename_i hlt
      split
      · obtain ⟨hres, hlen⟩ := ih (i + 1) (by omega)
        refine ⟨hres, ?_⟩
        rw [List.length_cons]
        omega
      · refine ⟨?_, by simpa using hi⟩
        dsimp only
        split <;> omega
    · simpa using hi

theorem piperead_le (pipe : Option (List UInt8)) (dst : ℕ → Bool) (a : ℕ) (n : ℤ) :
    (piperead pipe dst a n).1 ≤ max n 0 ∧ ((piperead pipe dst a n).2.length : ℤ) ≤ max n 0 := by
  cases pipe with
  | none => exact ⟨by simp only [piperead]; omega, by simp [piperead]⟩
  | some cs =>
    obtain ⟨hres, hlen⟩ := pipeCopy_le dst a n cs 0 (by omega)
    exact ⟨hres, by rw [piperead]; omega⟩

theorem consoleCopy_length (dst : ℕ → Bool) (cs : List UInt8) :
    ∀ (a : ℕ) (n : ℤ), ((consoleCopy dst a n cs).2.length : ℤ) ≤ max n 0 ∧
      ∀ m, (consoleCopy dst a n cs).1 = some m → n - m = (consoleCopy dst a n cs).2.length := by
  induction cs with
  | nil =>
    intro a n
    rw [consoleCopy]
    split
    · exact ⟨by simp, nofun⟩
    · refine ⟨by simp, fun m hm => ?_⟩
      obtain rfl := Option.some_inj.mp hm
      simp
  | cons c cs ih =>
    intro a n
    have hstop : (((some n, []) : Option ℤ × List UInt8).2.length : ℤ) ≤ max n 0 ∧
        ∀ m, ((some n, []) : Option ℤ × List UInt8).1 = some m →
          n - m = (((some n, []) : Option ℤ × List UInt8).2.length : ℤ) := by
      refine ⟨by simp, fun m hm => ?_⟩
      obtain rfl := Option.some_inj.mp hm
      simp
    rw [consoleCopy]
    split
    · rename_i hpos
      split
      · exact hstop
      · split
        · split
          · -- the end of a line
            refine ⟨by simp only [List.length_singleton]; omega, fun m hm => ?_⟩
            obtain rfl := Option.some_inj.mp hm
            simp
          · obtain ⟨hlen, hleft⟩ := ih (a + 1) (n - 1)
            refine ⟨?_, fun m hm => ?_⟩
            · rw [List.length_cons]
              omega
            · have := hleft m hm
              rw [List.length_cons]
              omega
        · exact hstop
    · exact hstop

theorem consoleread_le (input : List UInt8) (dst : ℕ → Bool) (a : ℕ) (n : ℤ) :
    (consoleread input dst a n).1 ≤ max n 0 ∧ ((consoleread input dst a n).2.length : ℤ) ≤ max n 0 := by
  obtain ⟨hlen, hleft⟩ := consoleCopy_length dst input a n
  refine ⟨?_, hlen⟩
  rw [consoleread]
  dsimp only
  split
  · omega
  · rename_i m hm
    rw [hleft m hm]
    exact hlen

/-! ## `fileread` -/

variable {sb : Superblock} {s : Sys} {f : Fin NFILE}

end Xv6.Fs

import Xv6.Fs.ReadWrite

/-!
# Writes that fail in the middle of a block

`writei` copies from user memory straight into the buffer of a block.  When the copy fails, the loop ends:
the bytes that were copied are not counted, and the buffer is not given to `log_write`, but it has been
changed.  A later `readi` finds them there, until the buffer is evicted and the block is read again.

The buffer is left alone if the source never becomes unreadable inside of a block of the file.
-/

namespace Xv6.Fs

open Bytes Program

variable {sb : Superblock} {s t : State} {i off a n : ℕ} {bs : List UInt8}

/-- `bget` recycles the buffer of block `b`, and `bread` reads the block again. -/
def State.evict (s : State) (b : ℕ) : State :=
  { s with cached := Function.update s.cached b (s.logged b) }

theorem State.evict_of_not_dirty {b : ℕ} (h : ¬ Dirty s b) : s.evict b = s := by
  rw [evict, not_not.mp h, Function.update_eq_self]

theorem State.foldl_evict (h : ∀ b, ¬ Dirty s b) (l : List ℕ) : l.foldl State.evict s = s := by
  induction l with
  | nil => rfl
  | cons b l ih => rw [List.foldl_cons, evict_of_not_dirty (h b), ih]

/-- Wherever the `n` bytes of the source at `a` become unreadable, the offset in the file is the start of a
block. -/
def StopsAtBlocks (src : Source) (a off n : ℕ) : Prop :=
  ∀ p, p + 1 < n → (off + p + 1) % 1024 ≠ 0 → (src (a + p)).isSome → (src (a + (p + 1))).isSome

theorem Stored.eq_of_stopsAtBlocks {src : Source} {sp : List UInt8} {r : State}
    (h : Stored sb i src a off n s bs sp r t) (hsrc : StopsAtBlocks src a off n) : t = r := by
  suffices hsp : sp = [] by
    subst hsp
    exact h.spills.eq.trans (State.spill_nil _ _)
  by_contra hne
  obtain ⟨m, hm, hfits, heq, hlt⟩ := h.spilled hne
  have hpos := List.length_pos_iff.mpr hne
  obtain ⟨-, hbytes, hstop⟩ := eitherCopyin_spec src m (a + bs.length)
  rw [← heq] at hbytes hstop
  -- the last byte that was copied, and the first that was not
  have hlast := hbytes (sp.length - 1) _ (List.getElem?_eq_getElem (by omega))
  have hnext := hsrc (bs.length + (sp.length - 1)) (by omega) (by omega) (by
    rw [← Nat.add_assoc, hlast]
    rfl)
  rw [show a + (bs.length + (sp.length - 1) + 1) = a + bs.length + sp.length by omega,
    hstop hlt] at hnext
  exact nomatch hnext

end Xv6.Fs

import Xv6.User.Umalloc

/-!
# Requests of every size

`malloc` counts a request in units of 16 bytes, `morecore` passes the number of bytes to `sbrk`, and `sbrk`
takes an `int`.  A request of less than 2^31 bytes, with its header, goes through these conversions
unchanged; then `malloc` returns memory of the process that nobody else uses, and the memory does not
shrink.

From 2^31 bytes on the `int` is another number.  A request of `2 ^ 32 - 1` bytes asks `sbrk` for 16 of them,
and is met with a block of which the process has the header only; a request of `2 ^ 32 - 32` bytes makes
the memory smaller.
-/

namespace Xv6.Umalloc

open FreeList Transition

variable {base start : ℕ} {s s' : Heap}

/-! ## The end of the memory -/

theorem free_brk {fuel ap : ℕ} (h : free fuel s ap = some s') : s'.brk = s.brk := by
  obtain ⟨p, -, rfl⟩ := Option.map_eq_some_iff.mp h
  rfl

@[simp] theorem take_brk (k prevp p : ℕ) : (take s k prevp p).1.brk = s.brk := by
  rw [take]
  split <;> rfl

@[simp] theorem setup_brk : (setup base s).brk = s.brk := by
  rw [setup]
  split <;> rfl

theorem brk_le_morecore {fuel nu : ℕ} {ok : Bool} {r : Heap × Option ℕ}
    (hnu : max 4096 nu * HEADER < 2 ^ 31) (h : morecore fuel s nu ok = some r) :
    s.brk ≤ r.1.brk := by
  have hmax : (if nu < 4096 then 4096 else nu) = max 4096 nu := by
    split <;> omega
  have hint : cInt (max 4096 nu * HEADER : ℕ) = (max 4096 nu * HEADER : ℕ) :=
    cInt_of_range (by omega) (by omega)
  rw [morecore] at h
  simp only [hmax, hint] at h
  have hpos : 0 < max 4096 nu * HEADER := Nat.mul_pos (by omega) (by decide)
  rw [sbrk, if_pos (Int.natCast_pos.mpr hpos)] at h
  split_ifs at h with hok
  · obtain ⟨t, hfree, rfl⟩ := Option.map_eq_some_iff.mp h
    rw [free_brk hfree]
    change s.brk ≤ ((s.brk : ℤ) + (max 4096 nu * HEADER : ℕ)).toNat
    omega
  · obtain rfl := Option.some.inj h
    exact Nat.le_refl _

theorem brk_le_mallocLoop {k : ℕ} {ok : Bool} (hk : max 4096 k * HEADER < 2 ^ 31) {fuel : ℕ} :
    ∀ {s : Heap} {prevp p : ℕ} {r : Heap × ℕ}, mallocLoop k ok fuel s prevp p = some r →
      s.brk ≤ r.1.brk := by
  induction fuel with
  | zero => exact fun h => nomatch h
  | succ fuel ih =>
    intro s prevp p r h
    rw [mallocLoop] at h
    split_ifs at h with hbig hlast
    · obtain rfl := Option.some.inj h
      rw [take_brk]
    · obtain ⟨q, hmore, hrest⟩ := Option.bind_eq_some_iff.mp h
      have hle := brk_le_morecore hk hmore
      cases hq : q.2 with
      | none =>
        rw [hq] at hrest
        obtain rfl := Option.some.inj hrest
        exact hle
      | some p' =>
        rw [hq] at hrest
        exact hle.trans (ih hrest)
    · exact ih h

/-! ## What is returned -/

theorem le_nunits {nbytes : ℕ} (hn : nbytes < UINT) : nbytes + HEADER ≤ HEADER * nunits nbytes := by
  have hlt : (nbytes + 16 - 1) / 16 + 1 < 2 ^ 32 := by
    change nbytes < 2 ^ 32 at hn
    omega
  rw [nunits, Nat.mod_eq_of_lt hlt]
  change nbytes + 16 ≤ 16 * ((nbytes + 16 - 1) / 16 + 1)
  omega

/-- **`malloc`** of less than 2^31 bytes, with the header, in a heap that was made with such requests:
it returns a null pointer, or a pointer to as many bytes of the memory of the process as were asked for,
none of which belong to a live block; and the end of the memory is not lowered. -/
theorem malloc_honours_size {h : List Action} {t : State} {hdr : ℕ → Cell} {nbytes : ℕ} {ok : Bool}
    (hbase : 0 < base) (hlt : base + HEADER ≤ start) (hmem : start ≤ MEMORY)
    (hrun : RunWith (Step base) Small (init start hdr) h t) (hn : nbytes < UINT)
    (hsmall : Small t (.malloc nbytes ok)) :
    ∃ fuel u p, malloc base fuel t.toHeap nbytes ok = some (u, p) ∧ t.brk ≤ u.brk ∧
      (p = 0 ∨ start ≤ p ∧ p + nbytes ≤ u.brk ∧
        ∀ b ∈ t.live, ∀ x, p ≤ x → x < p + nbytes → ¬ b.Has x) := by
  have hlt' : base < start := (Nat.lt_add_of_pos_right (by decide)).trans_le hlt
  obtain ⟨c, hi⟩ := (good_of_run hbase hlt' hmem hrun).setup hbase hlt' hmem
  obtain ⟨fuel, ⟨u, p⟩, hloop, hret⟩ := hi.mallocLoop (nunits_pos hn) hsmall ok
  have hbrk := brk_le_mallocLoop hsmall hloop
  rw [setup_brk] at hbrk
  refine ⟨fuel, u, p, hloop, hbrk, ?_⟩
  rcases hret with ⟨hnull, -⟩ | ⟨bp, c', hptr, hi'⟩
  · exact .inl hnull
  · right
    have hfit := le_nunits hn
    obtain ⟨hlo, hhi⟩ := hi'.live_inside ⟨bp, nunits nbytes⟩ List.mem_cons_self
    obtain rfl : p = bp + HEADER := hptr
    change start ≤ bp at hlo
    change bp + HEADER * nunits nbytes ≤ u.brk at hhi
    refine ⟨by omega, by omega, fun b hb x hx hx' => ?_⟩
    refine List.rel_of_pairwise_cons hi'.disjoint hb x ⟨?_, ?_⟩
    · change bp ≤ x
      omega
    · change x < bp + HEADER * nunits nbytes
      omega

/-- The first request of a program. -/
theorem malloc_honours_size_first :
    ∃ fuel u p, malloc 4096 fuel (init 16384 fun _ => ⟨0, 0⟩).toHeap 100 true = some (u, p) ∧
      16384 ≤ u.brk ∧ (p = 0 ∨ 16384 ≤ p ∧ p + 100 ≤ u.brk ∧
        ∀ b ∈ ([] : List Block), ∀ x, p ≤ x → x < p + 100 → ¬ b.Has x) :=
  malloc_honours_size (h := []) (t := init 16384 fun _ => ⟨0, 0⟩) (by decide) (by decide)
    (by rw [MEMORY_eq]; decide) .nil (by decide) (by decide)

/-- The first request of a program is for `2 ^ 32 - 1` bytes: the memory grows by 16 bytes, and the pointer
that is returned is its end.  After a request of 65536 bytes, one for `2 ^ 32 - 32` bytes lowers the end of
the memory. -/
theorem malloc_loses_size :
    (∃ u, malloc 4096 3 (init 16384 fun _ => ⟨0, 0⟩).toHeap (2 ^ 32 - 1) true = some (u, 16400) ∧
      u.brk = 16400) ∧
    ∃ t u p, Run (Step 4096) (init 16384 fun _ => ⟨0, 0⟩) [.malloc 65536 true] t ∧
      malloc 4096 3 t.toHeap (2 ^ 32 - 32) true = some (u, p) ∧ u.brk < t.brk := by
  constructor
  · have heval : (malloc 4096 3 (init 16384 fun _ => ⟨0, 0⟩).toHeap (2 ^ 32 - 1) true).map
        (fun r => (r.2, r.1.brk)) = some (16400, 16400) := by decide +kernel
    obtain ⟨⟨u, p⟩, hrun, hobs⟩ := Option.map_eq_some_iff.mp heval
    obtain ⟨rfl, hbrk⟩ := Prod.mk.inj hobs
    exact ⟨u, hrun, hbrk⟩
  · let call : State → Action → Option State := step 4096 3
    have hexec : ((execWith call (fun s a => Enabled s a ∧ True) (init 16384 fun _ => ⟨0, 0⟩)
        [.malloc 65536 true]).bind fun t => (malloc 4096 3 t.toHeap (2 ^ 32 - 32) true).map
          fun r => decide (r.1.brk < t.brk)) = some true := by decide +kernel
    obtain ⟨t, ht, hmalloc⟩ := Option.bind_eq_some_iff.mp hexec
    obtain ⟨⟨u, p⟩, hrun, hlower⟩ := Option.map_eq_some_iff.mp hmalloc
    refine ⟨t, u, p, (run_of_execWith ht).imp fun v a w hc hstep => ?_, hrun, of_decide_eq_true hlower⟩
    exact ⟨trivial, hc.1, 3, hstep⟩

end Xv6.Umalloc

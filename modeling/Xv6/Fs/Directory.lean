import Xv6.Fs.Dir
import Xv6.Fs.Content

/-!
# A directory is a finite map

The content of a directory is an array of entries of 16 bytes.  An entry whose inode number is 0 is empty.
What the code looks at in a name is `nameOf`: the bytes before the first zero, and at most `DIRSIZ`.
`namecmp` compares these, `strncpy` keeps them, and `skipelem` cuts an element of a path down to them.

`find` is the search of `dirlookup`.  In a directory in which no name stands twice (`DirOk`), it does not
depend on the order of the entries (`DirOk.find_eq_some_iff`), and storing an entry changes it for the name
of that entry only.
-/

namespace Xv6.Fs

open Bytes Program

/-! ## Names -/

/-- The bytes of `p` from `k` on before the first zero, at most `n`. -/
def nameFrom (p : Mem) : ℕ → ℕ → List UInt8
  | 0, _ => []
  | n + 1, k => if p k = 0 then [] else p k :: nameFrom p n (k + 1)

/-- The name that a pointer stands for. -/
def nameOf (p : Mem) : List UInt8 := nameFrom p 14 0

theorem strncmpFrom_eq_zero_iff (p q : Mem) (n : ℕ) :
    ∀ k, strncmpFrom p q n k = 0 ↔ nameFrom p n k = nameFrom q n k := by
  induction n with
  | zero => exact fun k => iff_of_true rfl rfl
  | succ n ih =>
    intro k
    rw [strncmpFrom, nameFrom, nameFrom]
    by_cases heq : p k = q k
    · by_cases h0 : q k = 0
      · rw [if_neg fun h => h.1 (heq.trans h0), heq, if_pos h0, if_pos h0]
        exact iff_of_true (Int.sub_self _) rfl
      · rw [heq, if_pos ⟨h0, rfl⟩, if_neg h0, if_neg h0, ih (k + 1), List.cons_inj_right]
    · rw [if_neg fun h => heq h.2]
      have hne : ((p k).toNat : ℤ) - (q k).toNat ≠ 0 := by
        intro h
        exact heq (UInt8.toNat_inj.mp (by omega))
      refine iff_of_false hne ?_
      split <;> split
      · rename_i hp hq
        exact absurd (hp.trans hq.symm) heq
      · exact nofun
      · exact nofun
      · exact fun h => heq (List.cons.inj h).1

/-- **`namecmp`** compares names. -/
theorem namecmp_eq_zero_iff (p q : Mem) : namecmp p q = 0 ↔ nameOf p = nameOf q :=
  strncmpFrom_eq_zero_iff p q 14 0

@[simp] theorem length_strncpyFrom (t : Mem) (n : ℕ) : ∀ k, (strncpyFrom t n k).length = n := by
  induction n with
  | zero => exact fun k => rfl
  | succ n ih =>
    intro k
    rw [strncpyFrom]
    split
    · exact List.length_replicate
    · rw [List.length_cons, ih]

/-- What `strncpy` has stored is read back as the same name. -/
theorem nameFrom_strncpyFrom (t m : Mem) (n : ℕ) :
    ∀ k l, (∀ j < n, m (l + j) = (strncpyFrom t n k).getD j 0) → nameFrom m n l = nameFrom t n k := by
  induction n with
  | zero => exact fun k l _ => rfl
  | succ n ih =>
    intro k l h
    have hfirst := h 0 (Nat.succ_pos n)
    rw [strncpyFrom, Nat.add_zero] at hfirst
    rw [nameFrom, nameFrom, hfirst]
    by_cases h0 : t k = 0
    · rw [if_pos h0, if_pos h0]
      exact if_pos rfl
    · rw [if_neg h0, if_neg h0, List.getD_cons_zero, if_neg h0, ih (k + 1) (l + 1) fun j hj => ?_]
      have hj := h (j + 1) (by omega)
      rwa [strncpyFrom, if_neg h0, List.getD_cons_succ, ← Nat.add_assoc, Nat.add_right_comm] at hj

/-! ## Entries -/

@[simp] theorem length_direntBytes (name : Mem) (inum : UInt16) :
    (direntBytes name inum).length = 16 := by
  rw [direntBytes, List.length_cons, List.length_cons, length_strncpyFrom]

@[simp] theorem decode_direntBytes_inum (name : Mem) (inum : UInt16) :
    (Dirent.decode (direntBytes name inum)).inum = inum := by
  have hlt : inum.toNat < 65536 := inum.toNat_lt
  refine UInt16.toNat_inj.mp ?_
  change (UInt16.ofNat ((UInt8.ofNat (inum.toNat % 256)).toNat +
    256 * (UInt8.ofNat (inum.toNat / 256)).toNat)).toNat = _
  rw [UInt8.toNat_ofNat_of_lt' (show inum.toNat % 256 < 256 by omega),
    UInt8.toNat_ofNat_of_lt' (show inum.toNat / 256 < 256 by omega),
    UInt16.toNat_ofNat_of_lt' (show _ < 65536 by omega)]
  omega

@[simp] theorem decode_direntBytes_name (name : Mem) (inum : UInt16) :
    nameOf (Dirent.decode (direntBytes name inum)).name = nameOf name := by
  refine nameFrom_strncpyFrom name _ 14 0 0 fun j _ => ?_
  change (direntBytes name inum).getD (2 + (0 + j)) 0 = _
  rw [direntBytes, Nat.zero_add, Nat.add_comm, List.getD_cons_succ, List.getD_cons_succ]

/-- The bytes that `memset` leaves are those of an empty entry. -/
theorem decode_replicate_inum : (Dirent.decode (List.replicate 16 0)).inum = 0 := rfl

/-- The `k`-th entry of a directory. -/
def entry (c : List UInt8) (k : ℕ) : Dirent := .decode ((c.drop (16 * k)).take 16)

/-- The number of entries. -/
def numEntries (c : List UInt8) : ℕ := c.length / 16

theorem numEntries_direntBytes (name : Mem) (inum : UInt16) : numEntries (direntBytes name inum) = 1 := by
  rw [numEntries, length_direntBytes]

theorem entry_direntBytes (name : Mem) (inum : UInt16) :
    entry (direntBytes name inum) 0 = .decode (direntBytes name inum) := by
  rw [entry, Nat.mul_zero, List.drop_zero, List.take_of_length_le (length_direntBytes name inum).le]

/-- Whether the `k`-th entry is one for the name `n`: the inode number and the offset of the entry. -/
def matchAt (c n : List UInt8) (k : ℕ) : Option (ℕ × ℕ) :=
  if (entry c k).inum = 0 then none
  else if n = nameOf (entry c k).name then some ((entry c k).inum.toNat, 16 * k)
  else none

/-- The first entry for the name `n`. -/
def find (c n : List UInt8) : Option (ℕ × ℕ) :=
  (List.range' 0 (numEntries c)).findSome? (matchAt c n)

/-- A directory: a whole number of entries, for inodes that there are, and no name stands twice. -/
structure DirOk (ninodes : ℕ) (c : List UInt8) : Prop where
  aligned : c.length % 16 = 0
  range : ∀ k < numEntries c, (entry c k).inum.toNat < ninodes
  unique : ∀ k < numEntries c, ∀ l < numEntries c, (entry c k).inum ≠ 0 → (entry c l).inum ≠ 0 →
    nameOf (entry c k).name = nameOf (entry c l).name → k = l

/-- The `k`-th entry says that `n` is the name of inode `i`. -/
structure Names (c : List UInt8) (k : ℕ) (n : List UInt8) (i : ℕ) : Prop where
  lt : k < numEntries c
  ne_zero : (entry c k).inum ≠ 0
  name : nameOf (entry c k).name = n
  inum : (entry c k).inum.toNat = i

section Find

variable {c bs n : List UInt8} {k l i ninodes : ℕ}

theorem matchAt_eq_some_iff {x : ℕ × ℕ} :
    matchAt c n k = some x ↔ (entry c k).inum ≠ 0 ∧ nameOf (entry c k).name = n ∧
      x = ((entry c k).inum.toNat, 16 * k) := by
  rw [matchAt]
  split
  · rename_i h0
    exact iff_of_false nofun fun h => h.1 h0
  · rename_i h0
    split
    · rename_i hn
      rw [Option.some_inj]
      exact ⟨fun h => ⟨h0, hn.symm, h.symm⟩, fun h => h.2.2.symm⟩
    · rename_i hn
      exact iff_of_false nofun fun h => hn h.2.1.symm

theorem Names.of_find (h : find c n = some (i, l)) : ∃ k, l = 16 * k ∧ Names c k n i := by
  obtain ⟨k, hk, hmatch⟩ := List.exists_of_findSome?_eq_some h
  obtain ⟨h0, hname, hx⟩ := matchAt_eq_some_iff.mp hmatch
  obtain ⟨hi, hl⟩ := Prod.mk.inj hx
  refine ⟨k, hl, ?_, h0, hname, hi.symm⟩
  have := (List.mem_range'_1.mp hk).2
  omega

theorem not_names_of_find (h : find c n = none) (k i : ℕ) : ¬ Names c k n i := by
  intro hk
  have hnone := List.findSome?_eq_none_iff.mp h k (List.mem_range'_1.mpr ⟨Nat.zero_le k, by
    have := hk.lt
    omega⟩)
  have hsome : matchAt c n k = some ((entry c k).inum.toNat, 16 * k) :=
    matchAt_eq_some_iff.mpr ⟨hk.ne_zero, hk.name, rfl⟩
  rw [hsome] at hnone
  exact nomatch hnone

theorem DirOk.find_eq_some_iff (h : DirOk ninodes c) :
    find c n = some (i, 16 * k) ↔ Names c k n i := by
  constructor
  · intro hfind
    obtain ⟨l, hl, hk⟩ := Names.of_find hfind
    obtain rfl : k = l := by omega
    exact hk
  · intro hk
    cases hfind : find c n with
    | none => exact absurd hk (not_names_of_find hfind k i)
    | some x =>
      obtain ⟨l, hl, hx⟩ := Names.of_find (i := x.1) (l := x.2) hfind
      obtain rfl := h.unique k hk.lt l hx.lt hk.ne_zero hx.ne_zero (hk.name.trans hx.name.symm)
      have hi : x.1 = i := hx.inum.symm.trans hk.inum
      rw [← hi, ← hl]

theorem find_eq_none_iff : find c n = none ↔ ∀ k i, ¬ Names c k n i := by
  refine ⟨not_names_of_find, fun hnone => ?_⟩
  cases hfind : find c n with
  | none => rfl
  | some x =>
    obtain ⟨k, -, hk⟩ := Names.of_find (i := x.1) (l := x.2) hfind
    exact absurd hk (hnone k _)

/-- **A directory as a map** from names to inode numbers. -/
def dirMap (c n : List UInt8) : Option ℕ := (find c n).map Prod.fst

theorem DirOk.dirMap_eq_some_iff (h : DirOk ninodes c) : dirMap c n = some i ↔ ∃ k, Names c k n i := by
  rw [dirMap, Option.map_eq_some_iff]
  constructor
  · rintro ⟨⟨j, l⟩, hfind, rfl⟩
    obtain ⟨k, -, hk⟩ := Names.of_find hfind
    exact ⟨k, hk⟩
  · rintro ⟨k, hk⟩
    exact ⟨(i, 16 * k), h.find_eq_some_iff.mpr hk, rfl⟩

theorem DirOk.names_lt (h : DirOk ninodes c) (hk : Names c k n i) : i < ninodes :=
  hk.inum ▸ h.range k hk.lt

/-! ## Storing an entry -/

section Store

variable (hc : c.length % 16 = 0) (hbs : bs.length = 16) (hk : k ≤ numEntries c)

include hc hbs hk

theorem length_store : (overwrite c (16 * k) bs).length = max c.length (16 * k + 16) := by
  rw [numEntries] at hk
  rw [length_overwrite (by omega), hbs]

theorem numEntries_store : numEntries (overwrite c (16 * k) bs) = max (numEntries c) (k + 1) := by
  rw [numEntries, length_store hc hbs hk, numEntries]
  omega

theorem entry_store (l : ℕ) :
    entry (overwrite c (16 * k) bs) l = if l = k then .decode bs else entry c l := by
  rw [numEntries] at hk
  have hget (p : ℕ) : (overwrite c (16 * k) bs)[p]? = _ := getElem?_overwrite (by omega) p
  split
  · rename_i hl
    subst hl
    rw [entry]
    congr 1
    refine List.ext_getElem? fun p => ?_
    rw [List.getElem?_take, List.getElem?_drop, hget]
    by_cases hp : p < 16
    · rw [if_pos hp, if_neg (by omega), if_pos (by omega), Nat.add_sub_cancel_left]
    · rw [if_neg hp, List.getElem?_eq_none (by omega)]
  · rename_i hl
    rw [entry, entry]
    congr 1
    refine List.ext_getElem? fun p => ?_
    rw [List.getElem?_take, List.getElem?_take, List.getElem?_drop, List.getElem?_drop, hget]
    by_cases hp : p < 16
    · rw [if_pos hp, if_pos hp]
      split
      · rfl
      · rw [if_neg (by omega)]
    · rw [if_neg hp, if_neg hp]

theorem names_store_of_ne (hl : l ≠ k) : Names (overwrite c (16 * k) bs) l n i ↔ Names c l n i := by
  have hentry := entry_store hc hbs hk l
  rw [if_neg hl] at hentry
  have hnum := numEntries_store hc hbs hk
  constructor
  · rintro ⟨hlt, h0, hname, hi⟩
    rw [hentry] at h0 hname hi
    exact ⟨by omega, h0, hname, hi⟩
  · rintro ⟨hlt, h0, hname, hi⟩
    rw [← hentry] at h0 hname hi
    exact ⟨by omega, h0, hname, hi⟩

theorem names_store_self :
    Names (overwrite c (16 * k) bs) k n i ↔
      (Dirent.decode bs).inum ≠ 0 ∧ nameOf (Dirent.decode bs).name = n ∧
        (Dirent.decode bs).inum.toNat = i := by
  have hentry := entry_store hc hbs hk k
  rw [if_pos rfl] at hentry
  have hnum := numEntries_store hc hbs hk
  constructor
  · rintro ⟨-, h0, hname, hi⟩
    rw [hentry] at h0 hname hi
    exact ⟨h0, hname, hi⟩
  · rintro ⟨h0, hname, hi⟩
    rw [← hentry] at h0 hname hi
    exact ⟨by omega, h0, hname, hi⟩

/-- An entry is stored that is empty, or whose name does not stand in another one. -/
theorem DirOk.store (h : DirOk ninodes c) (hlt : (Dirent.decode bs).inum.toNat < ninodes)
    (hnew : (Dirent.decode bs).inum ≠ 0 →
      ∀ l i, l ≠ k → ¬ Names c l (nameOf (Dirent.decode bs).name) i) :
    DirOk ninodes (overwrite c (16 * k) bs) := by
  have hentry := entry_store hc hbs hk
  have hnum := numEntries_store hc hbs hk
  have hother : ∀ l < numEntries (overwrite c (16 * k) bs), l ≠ k → l < numEntries c := by
    intro l hl hne
    omega
  refine ⟨?_, fun l hl => ?_, fun l hl m hm hl0 hm0 hname => ?_⟩
  · rw [length_store hc hbs hk]
    omega
  · rw [hentry]
    split
    · exact hlt
    · rename_i hne
      exact h.range l (hother l hl hne)
  · rw [hentry] at hl0 hname
    rw [hentry] at hm0 hname
    by_cases hlk : l = k
    · by_cases hmk : m = k
      · exact hlk.trans hmk.symm
      · rw [if_pos hlk] at hl0 hname
        rw [if_neg hmk] at hm0 hname
        exact absurd ⟨hother m hm hmk, hm0, hname.symm, rfl⟩ (hnew hl0 m _ hmk)
    · by_cases hmk : m = k
      · rw [if_neg hlk] at hl0 hname
        rw [if_pos hmk] at hm0 hname
        exact absurd ⟨hother l hl hlk, hl0, hname, rfl⟩ (hnew hm0 l _ hlk)
      · rw [if_neg hlk] at hl0 hname
        rw [if_neg hmk] at hm0 hname
        exact h.unique l (hother l hl hlk) m (hother m hm hmk) hl0 hm0 hname

end Store

/-- **A new entry** in the place of an empty one, or behind the last, binds its name. -/
theorem DirOk.dirMap_insert (h : DirOk ninodes c) (hk : k ≤ numEntries c)
    (hempty : k < numEntries c → (entry c k).inum = 0) {name : Mem} {inum : UInt16}
    (habsent : dirMap c (nameOf name) = none) (h0 : inum ≠ 0) (hlt : inum.toNat < ninodes) :
    DirOk ninodes (overwrite c (16 * k) (direntBytes name inum)) ∧
      dirMap (overwrite c (16 * k) (direntBytes name inum)) =
        Function.update (dirMap c) (nameOf name) (some inum.toNat) := by
  have hlen := length_direntBytes name inum
  have hnone : ∀ l i, ¬ Names c l (nameOf name) i := by
    rw [dirMap, Option.map_eq_none_iff] at habsent
    exact find_eq_none_iff.mp habsent
  have hok : DirOk ninodes (overwrite c (16 * k) (direntBytes name inum)) := by
    refine h.store h.aligned hlen hk ?_ fun _ l i _ => ?_
    · rw [decode_direntBytes_inum]
      exact hlt
    · rw [decode_direntBytes_name]
      exact hnone l i
  have hnot : ∀ n i, ¬ Names c k n i := fun n i hcon => hcon.ne_zero (hempty hcon.lt)
  refine ⟨hok, funext fun n => Option.ext fun i => ?_⟩
  rw [Function.update_apply, hok.dirMap_eq_some_iff]
  split
  · rename_i hn
    subst hn
    constructor
    · rintro ⟨l, hl⟩
      by_cases hlk : l = k
      · subst hlk
        rw [names_store_self h.aligned hlen hk, decode_direntBytes_inum] at hl
        rw [hl.2.2]
      · exact absurd ((names_store_of_ne h.aligned hlen hk hlk).mp hl) (hnone l i)
    · intro hi
      refine ⟨k, (names_store_self h.aligned hlen hk).mpr ?_⟩
      rw [decode_direntBytes_inum, decode_direntBytes_name]
      exact ⟨h0, rfl, Option.some_inj.mp hi⟩
  · rename_i hn
    rw [h.dirMap_eq_some_iff]
    refine exists_congr fun l => ?_
    by_cases hlk : l = k
    · subst hlk
      rw [names_store_self h.aligned hlen hk, decode_direntBytes_name]
      exact iff_of_false (fun hcon => hn hcon.2.1.symm) (hnot n i)
    · exact names_store_of_ne h.aligned hlen hk hlk

/-- **An entry is emptied**, and its name is no longer bound. -/
theorem DirOk.dirMap_erase (h : DirOk ninodes c) (hn : 0 < ninodes) (hk : Names c k n i) :
    DirOk ninodes (overwrite c (16 * k) (List.replicate 16 0)) ∧
      dirMap (overwrite c (16 * k) (List.replicate 16 0)) = Function.update (dirMap c) n none := by
  have hlen : (List.replicate 16 (0 : UInt8)).length = 16 := List.length_replicate
  have hle := hk.lt.le
  have hok : DirOk ninodes (overwrite c (16 * k) (List.replicate 16 0)) :=
    h.store h.aligned hlen hle hn fun hcon => absurd decode_replicate_inum hcon
  refine ⟨hok, funext fun m => Option.ext fun j => ?_⟩
  rw [Function.update_apply, hok.dirMap_eq_some_iff]
  have hself : ∀ m j, ¬ Names (overwrite c (16 * k) (List.replicate 16 0)) k m j := by
    intro m j hcon
    exact ((names_store_self h.aligned hlen hle).mp hcon).1 decode_replicate_inum
  split
  · rename_i hm
    subst hm
    refine iff_of_false (fun ⟨l, hl⟩ => ?_) nofun
    by_cases hlk : l = k
    · exact hself _ _ (hlk ▸ hl)
    · have hl := (names_store_of_ne h.aligned hlen hle hlk).mp hl
      exact hlk (h.unique l hl.lt k hk.lt hl.ne_zero hk.ne_zero (hl.name.trans hk.name.symm))
  · rename_i hm
    rw [h.dirMap_eq_some_iff]
    refine exists_congr fun l => ?_
    by_cases hlk : l = k
    · subst hlk
      exact iff_of_false (hself m j) fun hcon => hm (hcon.name.symm.trans hk.name)
    · exact names_store_of_ne h.aligned hlen hle hlk

theorem dirOk_nil (ninodes : ℕ) : DirOk ninodes [] :=
  ⟨rfl, fun _ hk => (Nat.not_lt_zero _ hk).elim, fun _ hk => (Nat.not_lt_zero _ hk).elim⟩

end Find

end Xv6.Fs

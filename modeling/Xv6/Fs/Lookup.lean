import Xv6.Fs.Table

/-!
# Looking up and entering names

What `dirlookup`, `dirlink` and `isdirempty` do, with the invariant of `Table`: the first returns what the
directory binds the name to (`find`), with a reference to the inode; the second binds a name that was not
bound, or changes no file.

An entry lies in one block, so `writei` stores all of it or nothing.
-/

namespace Xv6.Fs

open Bytes Program Slots

variable {sb : Superblock} {R : Multiset ℕ} {L : Set ℕ} {s t : State} {dp k : ℕ} {x : Node}
  {E : Panic → Prop}

/-- What is at `dp` is a directory, and the call has locked it. -/
structure OpenDir (sb : Superblock) (R : Multiset ℕ) (L : Set ℕ) (s : State) (dp : ℕ) (x : Node) :
    Prop where
  inv : Inv sb R L s
  mem : dp ∈ L
  file : files sb s dp = some x
  type : x.type = .ofNat T_DIR

namespace OpenDir

theorem dirOk (h : OpenDir sb R L s dp x) : DirOk sb.ninodes x.content :=
  h.inv.sound.dir dp x h.file h.type

theorem whole (h : OpenDir sb R L s dp x) : (view sb s).Whole dp :=
  h.inv.sound.whole dp (View.type_ne_zero h.file)

theorem length_content (h : OpenDir sb R L s dp x) : x.content.length = (view sb s).size dp := by
  rw [← View.content_of_node h.file, View.length_content]

theorem length_le (h : OpenDir sb R L s dp x) : x.content.length ≤ 268 * 1024 :=
  h.length_content ▸ h.whole.size_le

theorem turnsOf_eq (h : OpenDir sb R L s dp x) : turnsOf (s.inode dp).d = numEntries x.content := by
  have hsize : (s.inode dp).d.size.toNat = x.content.length := by
    rw [← h.inv.dinode_of_locked h.mem, h.length_content, View.size]
  have := h.dirOk.aligned
  rw [turnsOf, hsize, numEntries]
  omega

/-! ## Reading -/

section Read

variable (hsb : sb.Ok) (h : OpenDir sb R L s dp x)

include hsb h

theorem readDirent_spec (e : Panic) (hk : k < numEntries x.content) :
    Ensures (readDirent sb e dp (16 * k)) s fun de t => t = s ∧ de = entry x.content k := by
  have hmax := h.length_le
  have huint : UINT = 4294967296 := rfl
  rw [numEntries] at hk
  refine .bind (readi_spec hsb (h.inv.lt_of_locked h.mem) h.inv.sound.ok (h.inv.valid dp h.mem)
    (View.type_ne_zero h.file) h.whole kernelDest (by omega) (by omega)) ?_
  rintro ⟨r, bs⟩ t ⟨rfl, -, hread⟩
  have hread := hread fun _ _ => rfl
  rw [View.content_of_node h.file, readResult, if_pos ⟨by omega, by omega⟩] at hread
  obtain ⟨rfl, rfl⟩ := Prod.mk.inj hread
  refine .ite (fun hcon => absurd hcon ?_) fun _ => .pure ⟨rfl, rfl⟩
  rw [show min 16 (x.content.length - 16 * k) = 16 by omega]
  exact fun hne => hne rfl

theorem dirlookupTurn_spec (name : Mem) (hk : k < numEntries x.content) :
    Ensures (dirlookupTurn sb dp name k) s fun r t => t = s ∧ r = matchAt x.content (nameOf name) k := by
  refine .bind (h.readDirent_spec hsb .dirlookupRead hk) ?_
  rintro de t ⟨rfl, rfl⟩
  rw [matchAt]
  refine .ite (fun h0 => .pure ⟨rfl, (if_pos h0).symm⟩) fun h0 => ?_
  rw [if_neg h0]
  refine .ite (fun hn => .pure ⟨rfl, ?_⟩) fun hn => .pure ⟨rfl, ?_⟩
  · rw [if_pos ((namecmp_eq_zero_iff _ _).mp hn)]
  · rw [if_neg fun hcon => hn ((namecmp_eq_zero_iff _ _).mpr hcon)]

/-- **`dirlookup`** finds what the name is bound to. -/
theorem dirlookup_spec (name : Mem) (hE : E .igetNoInodes) :
    Yields E (dirlookup sb dp name) s fun r t => r = find x.content (nameOf name) ∧
      match r with
      | none => t = s
      | some (i, _) => Inv sb (i ::ₘ R) L t ∧ Quiet sb R s t ∧ (i ∉ R → (t.inode i).valid = false) := by
  have htype : (s.inode dp).d.type = .ofNat T_DIR := by
    rw [← h.inv.dinode_of_locked h.mem, View.type_of_node h.file, h.type]
  refine .bind (P := fun d t => d = (s.inode dp).d ∧ t = s)
    (Ensures.yields (ensures_getInode_bind (.pure ⟨rfl, rfl⟩))) ?_
  rintro d t ⟨rfl, rfl⟩
  refine .ite (fun hcon => absurd htype hcon) fun _ => ?_
  rw [h.turnsOf_eq]
  refine .bind (Ensures.countUp_eq fun k _ hk =>
    h.dirlookupTurn_spec hsb name (by omega)).yields ?_
  rintro r u ⟨rfl, hr⟩
  have hfind : r = find x.content (nameOf name) := hr
  cases r with
  | none => exact .pure ⟨hfind, rfl⟩
  | some y =>
    obtain ⟨k, -, hk⟩ := Names.of_find (i := y.1) (l := y.2) hfind.symm
    refine .bind (iget_spec h.inv (h.dirOk.names_lt hk) hE) ?_
    rintro ip u ⟨rfl, hinv⟩
    exact .pure ⟨hfind, hinv⟩

/-- **`isdirempty`** looks at the entries behind the first two. -/
theorem isdirempty_spec :
    Ensures (isdirempty sb dp) s fun r t => t = s ∧
      (r = true ↔ ∀ k, 2 ≤ k → k < numEntries x.content → (entry x.content k).inum = 0) := by
  refine ensures_getInode_bind ?_
  rw [h.turnsOf_eq]
  refine .bind (Ensures.countUp_eq
    (f := fun k => if (entry x.content k).inum ≠ 0 then some () else none) fun k _ hk => ?_) ?_
  · refine .bind (h.readDirent_spec hsb .isdiremptyReadi (by omega)) ?_
    rintro de t ⟨rfl, rfl⟩
    exact .ite (fun h0 => .pure ⟨rfl, (if_pos h0).symm⟩) fun h0 => .pure ⟨rfl, (if_neg h0).symm⟩
  · rintro r t ⟨rfl, rfl⟩
    refine .pure ⟨rfl, ?_⟩
    rw [Option.isNone_iff_eq_none, List.findSome?_eq_none_iff]
    refine forall_congr' fun k => ?_
    rw [List.mem_range'_1]
    constructor
    · intro hnone h2 hlt
      have := hnone ⟨h2, by omega⟩
      by_contra hne
      rw [if_pos hne] at this
      exact nomatch this
    · rintro hall ⟨h2, hlt⟩
      exact if_neg fun hne => hne (hall h2 (by omega))

end Read

/-! ## Writing -/

section Write

variable (hsb : sb.Ok) (h : OpenDir sb R L s dp x)

include hsb h

/-- An entry is written as a whole or not at all, and if there is a block for it, it is written. -/
theorem writeiFrom_entry {off : ℕ} (hoff : off % 16 = 0) (hmax : off < 268 * 1024) (bs : List UInt8) :
    Ensures (writeiFrom sb dp (kernelSource bs) 16 0 off 16) s fun tot _ =>
      (tot = 0 ∨ tot = 16) ∧ (off < x.content.length → tot = 16) := by
  have hin := h.length_content
  have hlen : ∀ n a, (eitherCopyin (kernelSource bs) a n).length = n := by
    intro n
    induction n with
    | zero => exact fun a => rfl
    | succ n ih => exact fun a => congrArg (· + 1) (ih (a + 1))
  rw [writeiFrom]
  refine .ite (fun hcon => absurd hcon (by decide)) fun _ => ?_
  refine .bind (bmap_spec hsb (h.inv.lt_of_locked h.mem) h.inv.sound.ok (h.inv.valid dp h.mem)
    (View.type_ne_zero h.file) (by omega)) ?_
  rintro addr t ⟨-, -, rfl, -, hsame, -⟩
  refine .ite (fun h0 => .pure ⟨Or.inl rfl, fun hlt => ?_⟩) fun _ => ?_
  · have hne := h.whole.block_ne (p := off) (by omega)
    rw [hsame hne] at h0
    exact absurd h0 hne
  rw [show min 16 (1024 - off % 1024) = 16 by omega]
  refine .modify_bind ?_
  dsimp only
  rw [hlen, if_neg (Nat.lt_irrefl 16)]
  refine .modify_bind ?_
  rw [writeiFrom, if_pos (Nat.sub_self 16)]
  exact .pure ⟨Or.inr rfl, fun _ => rfl⟩

theorem writei_entry (hk : 16 * k ≤ x.content.length) (hmax : 16 * k + 16 ≤ 268 * 1024)
    (bs : List UInt8) :
    Ends (writei sb dp (kernelSource bs) 0 (16 * k) 16) s fun r _ =>
      (r = 0 ∨ r = 16) ∧ (16 * k < x.content.length → r = 16) := by
  have hsize : (s.inode dp).d.size.toNat = x.content.length := by
    rw [← h.inv.dinode_of_locked h.mem, h.length_content, View.size]
  have huint : UINT = 4294967296 := rfl
  have hmaxfile : MAXFILE * BSIZE = 268 * 1024 := rfl
  refine .bind (P := fun d t => d = (s.inode dp).d ∧ t = s)
    (Ensures.ends (ensures_getInode_bind (.pure ⟨rfl, rfl⟩))) ?_
  rintro d t ⟨rfl, rfl⟩
  rw [hsize, Nat.mod_eq_of_lt (by omega)]
  refine .ite (fun hcon => by omega) fun _ => .ite (fun hcon => by omega) fun _ => ?_
  refine .bind (h.writeiFrom_entry hsb (by omega) (by omega) bs).ends ?_
  rintro tot u ⟨htot, hfull⟩
  -- the result is the number of bytes, whatever happens to the inode
  refine .bind (P := fun _ _ => True) (fun _ _ _ => trivial) fun _ _ _ => ?_
  refine .bind (P := fun _ _ => True) (fun _ _ _ => trivial) fun _ _ _ => ?_
  refine (Ensures.pure ⟨?_, fun hlt => ?_⟩).ends
  · exact htot.imp (congrArg Nat.cast) (congrArg Nat.cast)
  · exact congrArg Nat.cast (hfull hlt)

/-- **An entry is stored**, or there was no room for another one. -/
theorem writeDirent_spec {bs : List UInt8} (hbs : bs.length = 16) (hk : k ≤ numEntries x.content)
    (hok : DirOk sb.ninodes (overwrite x.content (16 * k) bs)) :
    Ensures (writei sb dp (kernelSource bs) 0 (16 * k) 16) s fun r t => Inv sb R L t ∧
      (∀ j, (t.inode j).valid = (s.inode j).valid) ∧
      (r = 16 ∧ files sb t = Function.update (files sb s) dp
          (some { x with content := overwrite x.content (16 * k) bs }) ∨
        r ≠ 16 ∧ numEntries x.content ≤ k ∧ files sb t = files sb s) := by
  have hlt := h.inv.lt_of_locked h.mem
  have hv := h.inv.valid dp h.mem
  have ha := View.type_ne_zero h.file
  have hlen := h.length_content
  have hle := h.length_le
  have haligned := h.dirOk.aligned
  have hcontent : (view sb s).content dp = x.content := View.content_of_node h.file
  rw [numEntries] at hk
  have hwrite : Ensures (writei sb dp (kernelSource bs) 0 (16 * k) 16) s _ :=
    writei_spec hsb hlt h.inv.sound.ok hv ha h.whole (kernelSource bs) (by decide)
  by_cases hroom : 16 * k + 16 ≤ 268 * 1024
  · refine (hwrite.and_ends (h.writei_entry hsb (by omega) hroom bs)).mono ?_
    rintro r t ⟨hw, hr, hfull⟩
    rw [if_pos ⟨by omega, hroom⟩] at hw
    obtain ⟨bs', sp, u, rfl, hstored⟩ := hw
    obtain ⟨rfl, hbytes⟩ := hstored.of_readable fun _ _ => rfl
    have hupdates := hstored.updates
    rw [hcontent] at hupdates
    have hlogged := hstored.logged h.inv.logged
    rcases hr with h0 | h16
    · obtain rfl : bs' = [] := List.length_eq_zero_iff.mp (by omega)
      rw [overwrite_nil] at hupdates
      obtain ⟨hinv, hfiles⟩ := h.inv.updates hstored.steady hlogged hupdates h.file fun _ => h.dirOk
      refine ⟨hinv, hstored.steady.valid, Or.inr ⟨by decide, ?_, ?_⟩⟩
      · by_contra hcon
        rw [numEntries] at hcon
        cases hfull (by omega)
      · rw [hfiles]
        exact Function.update_eq_self_iff.mpr h.file.symm
    · obtain rfl := eq_of_kernelSource (by omega) hbytes
      obtain ⟨hinv, hfiles⟩ := h.inv.updates hstored.steady hlogged hupdates h.file fun _ => hok
      exact ⟨hinv, hstored.steady.valid, Or.inl ⟨h16, hfiles⟩⟩
  · refine hwrite.mono fun r t hw => ?_
    rw [if_neg fun hcon => hroom hcon.2] at hw
    obtain ⟨rfl, rfl⟩ := hw
    refine ⟨h.inv, fun _ => rfl, Or.inr ⟨by decide, ?_, rfl⟩⟩
    rw [numEntries]
    omega

/-! ## `dirlink` -/

/-- The place that `dirlink` takes: the first empty entry, or the one behind the last. -/
theorem firstEmpty_spec :
    Ensures (countUp (dirlinkTurn sb dp) 0 (turnsOf (s.inode dp).d)) s fun r t => t = s ∧
      ∃ k, k ≤ numEntries x.content ∧ (k < numEntries x.content → (entry x.content k).inum = 0) ∧
        r.getD (16 * turnsOf (s.inode dp).d) = 16 * k := by
  rw [h.turnsOf_eq]
  refine (Ensures.countUp_eq
    (f := fun k => if (entry x.content k).inum = 0 then some (16 * k) else none) fun k _ hk => ?_).mono ?_
  · refine .bind (h.readDirent_spec hsb .dirlinkRead (by omega)) ?_
    rintro de t ⟨rfl, rfl⟩
    exact .ite (fun h0 => .pure ⟨rfl, (if_pos h0).symm⟩) fun h0 => .pure ⟨rfl, (if_neg h0).symm⟩
  · rintro r t ⟨rfl, hr⟩
    refine ⟨rfl, ?_⟩
    cases r with
    | none => exact ⟨numEntries x.content, le_refl _, fun hcon => absurd hcon (lt_irrefl _), rfl⟩
    | some off =>
      obtain ⟨k, hk, hoff⟩ := List.exists_of_findSome?_eq_some hr.symm
      have hlt := (List.mem_range'_1.mp hk).2
      split at hoff
      · rename_i h0
        exact ⟨k, by omega, fun _ => h0, (Option.some_inj.mp hoff).symm⟩
      · exact nomatch hoff

/-- **`dirlink`** binds a name that is not bound, or changes no file. -/
theorem dirlink_spec (name : Mem) {i : ℕ} (hi : 0 < i) (hlt : i < sb.ninodes) (hE : E .igetNoInodes) :
    Yields E (dirlink sb dp name i) s fun r t => Inv sb R L t ∧
      (∀ j ∈ R, (s.inode j).valid → (t.inode j).valid) ∧
      (r = 0 ∧ dirMap x.content (nameOf name) = none ∧
          (∃ k, k ≤ numEntries x.content ∧ (k < numEntries x.content → (entry x.content k).inum = 0) ∧
            files sb t = Function.update (files sb s) dp (some { x with
              content := overwrite x.content (16 * k) (direntBytes name (.ofNat i)) })) ∨
        r = -1 ∧ files sb t = files sb s) := by
  have hninodes := hsb.ninodes_le
  refine .bind (h.dirlookup_spec hsb name hE) ?_
  rintro r t ⟨hfind, hr⟩
  cases r with
  | some y =>
    obtain ⟨hinv, hquiet, hnew⟩ := hr
    refine .bind (iput_spec hinv h.inv.mem_of_locked fun hnot hv => ?_).yields ?_
    · rw [hnew hnot] at hv
      exact nomatch hv
    · rintro - u ⟨hinv', hquiet'⟩
      have hall := hquiet.trans hquiet'
      exact .pure ⟨hinv', hall.valid, Or.inr ⟨rfl, hall.files⟩⟩
  | none =>
    obtain rfl : t = s := hr
    have habsent : dirMap x.content (nameOf name) = none := by
      rw [dirMap, ← hfind]
      rfl
    refine .bind (P := fun d u => d = (t.inode dp).d ∧ u = t)
      (Ensures.yields (ensures_getInode_bind (.pure ⟨rfl, rfl⟩))) ?_
    rintro d u ⟨rfl, rfl⟩
    refine .bind (h.firstEmpty_spec hsb).yields ?_
    rintro e v ⟨rfl, k, hk, hempty, hoff⟩
    have hinum : (UInt16.ofNat i).toNat = i := UInt16.toNat_ofNat_of_lt' (show i < 65536 by omega)
    have hne : UInt16.ofNat i ≠ 0 := by
      intro hcon
      rw [hcon] at hinum
      exact absurd hinum.symm hi.ne'
    obtain ⟨hok, -⟩ := h.dirOk.dirMap_insert hk hempty habsent hne (hinum.symm ▸ hlt)
    dsimp only
    rw [hoff]
    refine .bind (h.writeDirent_spec hsb (length_direntBytes _ _) hk hok).yields ?_
    rintro r w ⟨hinv, hvalid, hstored⟩
    have hkeep : ∀ j ∈ R, (v.inode j).valid → (w.inode j).valid := by
      intro j _ hv
      rw [hvalid]
      exact hv
    rcases hstored with ⟨rfl, hfiles⟩ | ⟨hr, -, hfiles⟩
    · refine .ite (fun hcon => absurd rfl hcon) fun _ => ?_
      exact .pure ⟨hinv, hkeep, Or.inl ⟨rfl, habsent, k, hk, hempty, hfiles⟩⟩
    · refine .ite (fun _ => ?_) fun hcon => absurd hr hcon
      exact .pure ⟨hinv, hkeep, Or.inr ⟨rfl, hfiles⟩⟩

end Write

end OpenDir

end Xv6.Fs

import Xv6.Log.Disk

/-!
# Crash atomicity of the log

A disk *stands for* the contents `X` of the home blocks (`Stands`) when following its header gives
`X`: a block named by the header is in the log, and every other block at home.  This is all that
recovery reads.

Every disk write of `commit` and of `recover_from_log` but one leaves what the disk stands for as
it is.  A write to the log does, because the header on disk is empty then; a write to a home block
does, because the header names it; erasing the header does, because everything has been installed.
The one exception is the header's first write in `commit`, by which the disk comes to stand for
the contents after the transaction.  So at every crash point the disk stands for the contents
after the committed transactions, with or without the one that is being committed, and it still
does so after any number of crashed recoveries.
-/

namespace Xv6
namespace Log

open AtomicWrites Bytes Machine

/-! ## The header block -/

section Header

variable {lh : LogHeader} {hb : Block} {i : ℕ}

theorem load_encodeHead_zero (lh : LogHeader) (hb : Block) :
    load 4 (encodeHead lh hb) 0 = (lh.n % 2 ^ 32).toNat := by
  refine Loop.foldl_range (I := fun _ hb => load 4 hb 0 = (lh.n % 2 ^ 32).toNat) ?_ ?_
  · exact load_store_of_lt (by omega)
  · intro i _ hb ih
    rw [load_store_of_disjoint (by omega), ih]

theorem headN_encodeHead (h0 : 0 ≤ lh.n) (hn : lh.n ≤ LOGBLOCKS) :
    headN (encodeHead lh hb) = lh.n := by
  have hn' : lh.n ≤ 30 := hn
  rw [headN, load_encodeHead_zero, Int.toNat_of_nonneg (by omega),
    Int.emod_eq_of_lt h0 (by omega), cInt_of_range (by omega) (by omega)]

theorem headBlock_encodeHead (hi : i < lh.n.toNat) (hb32 : lh.block i < 2 ^ 32) :
    headBlock (encodeHead lh hb) i = lh.block i := by
  -- entry `i` is right from the turn that fills it in
  refine Loop.foldl_range (n := lh.n.toNat)
    (I := fun k hb => i < k → load 4 hb (4 + 4 * i) = lh.block i) (by simp) ?_ hi
  intro k _ hb ih hk
  rcases Nat.lt_succ_iff_lt_or_eq.mp hk with hlt | rfl
  · rw [load_store_of_disjoint (by omega), ih hlt]
  · exact load_store_of_lt (by omega)

end Header

/-! ## What a disk stands for -/

/-- A block outside the log area: the header and `LOGBLOCKS` blocks behind it. -/
def Home (start b : ℕ) : Prop := b < start ∨ start + LOGBLOCKS < b

/-- Block `b` is not named by the header block `hb`. -/
def Unnamed (hb : Block) (b : ℕ) : Prop := ∀ i < (headN hb).toNat, headBlock hb i ≠ b

/-- Disk `d`, with the log at `start`, stands for the contents `X` of the home blocks. -/
structure Stands (start : ℕ) (X d : Disk) : Prop where
  short : (headN (d start)).toNat ≤ LOGBLOCKS
  home : ∀ i < (headN (d start)).toNat, Home start (headBlock (d start) i)
  logged : ∀ i < (headN (d start)).toNat, d (start + i + 1) = X (headBlock (d start) i)
  rest : ∀ b, Home start b → Unnamed (d start) b → d b = X b

variable {start : ℕ} {X X' d : Disk}

theorem Home.ne_start {b : ℕ} (h : Home start b) : b ≠ start := by
  rcases h with h | h <;> omega

theorem Home.ne_log {b i : ℕ} (h : Home start b) (hi : i < LOGBLOCKS) : b ≠ start + i + 1 := by
  rcases h with h | h <;> omega

theorem Stands.of_empty (h0 : (headN (d start)).toNat = 0) (h : ∀ b, Home start b → d b = X b) :
    Stands start X d where
  short := by omega
  home := fun i hi => absurd hi (by omega)
  logged := fun i hi => absurd hi (by omega)
  rest := fun b hb _ => h b hb

theorem Stands.of_headN_eq_zero (hs : Stands start X d) (h0 : (headN (d start)).toNat = 0) {b : ℕ}
    (hb : Home start b) : d b = X b :=
  hs.rest b hb fun i hi => absurd hi (by omega)

theorem Stands.write_log (hs : Stands start X d) (h0 : (headN (d start)).toNat = 0) {i : ℕ}
    (hi : i < LOGBLOCKS) (v : Block) :
    Stands start X (Function.update d (start + i + 1) v) := by
  refine .of_empty ?_ fun b hb => ?_
  · rw [Function.update_of_ne (by omega), h0]
  · rw [Function.update_of_ne (hb.ne_log hi), hs.of_headN_eq_zero h0 hb]

theorem Stands.write_home (hs : Stands start X d) {i : ℕ} (hi : i < (headN (d start)).toNat) :
    Stands start X (Function.update d (headBlock (d start) i) (d (start + i + 1))) := by
  have hhome := hs.home i hi
  have hhead : Function.update d (headBlock (d start) i) (d (start + i + 1)) start = d start :=
    Function.update_of_ne hhome.ne_start.symm _ _
  refine ⟨?_, ?_, ?_, ?_⟩ <;> rw [hhead]
  · exact hs.short
  · exact hs.home
  · intro k hk
    have hlog : k < LOGBLOCKS := lt_of_lt_of_le hk hs.short
    rw [Function.update_of_ne (hhome.ne_log hlog).symm, hs.logged k hk]
  · intro b hb hun
    rw [Function.update_of_ne (hun i hi).symm, hs.rest b hb hun]

theorem Stands.write_head {hb : Block} (hn : (headN hb).toNat ≤ LOGBLOCKS)
    (hhome : ∀ i < (headN hb).toNat, Home start (headBlock hb i))
    (hlogged : ∀ i < (headN hb).toNat, d (start + i + 1) = X (headBlock hb i))
    (hrest : ∀ b, Home start b → Unnamed hb b → d b = X b) :
    Stands start X (Function.update d start hb) := by
  refine ⟨?_, ?_, ?_, ?_⟩ <;> rw [Function.update_self]
  · exact hn
  · exact hhome
  · intro i hi
    rw [Function.update_of_ne (by omega), hlogged i hi]
  · intro b hb' hun
    rw [Function.update_of_ne hb'.ne_start, hrest b hb' hun]

/-! ## The loops -/

/-- The buffer of block `b` holds what the disk holds. -/
def Machine.Synced (m : Machine) (b : ℕ) : Prop := m.buf b = m.dev.disk b

variable {m : Machine}

theorem Machine.synced_bwrite {b c : ℕ} {v : Block} (h : b = c ∨ m.Synced b) :
    (m.bwrite c v).Synced b := by
  rw [Synced, bwrite, Device.write]
  dsimp only
  by_cases hbc : b = c
  · rw [hbc, Function.update_self, Function.update_self]
  · rw [Function.update_of_ne hbc, Function.update_of_ne hbc]
    exact h.resolve_left hbc

/-- The in-memory header is the one on disk, and only blocks it names are modified. -/
structure HeadRead (m : Machine) : Prop where
  n_eq : m.lh.n.toNat = (headN (m.dev.disk m.start)).toNat
  block_eq : ∀ i < m.lh.n.toNat, m.lh.block i = headBlock (m.dev.disk m.start) i
  synced : ∀ b, (∀ i < m.lh.n.toNat, m.lh.block i ≠ b) → m.Synced b

/-- What `install_trans` has done after `k` turns. -/
structure Installing (m₀ : Machine) (X : Disk) (k : ℕ) (m : Machine) : Prop where
  start_eq : m.start = m₀.start
  lh_eq : m.lh = m₀.lh
  passes : Passes (Stands m₀.start X) m₀.dev m.dev
  head_eq : m.dev.disk m₀.start = m₀.dev.disk m₀.start
  installed : ∀ i < k, m.dev.disk (m₀.lh.block i) = X (m₀.lh.block i)
  synced : ∀ b, (∀ i < m₀.lh.n.toNat, k ≤ i → m₀.lh.block i ≠ b) → m.Synced b

/-- **Installing.**  Every write home leaves what the disk stands for as it is. -/
theorem installing_installTrans (hs : Stands m.start X m.dev.disk) (hread : HeadRead m) :
    Installing m X m.lh.n.toNat m.installTrans := by
  refine Loop.foldl_range ⟨rfl, rfl, .refl hs, rfl, by simp,
    fun b hb => hread.synced b fun i hi => hb i hi (Nat.zero_le _)⟩ ?_
  intro k hk m' ih
  have hstands := ih.passes.last
  have hk' : k < (headN (m'.dev.disk m.start)).toNat := by rw [ih.head_eq, ← hread.n_eq]; exact hk
  have hblock : m.lh.block k = headBlock (m'.dev.disk m.start) k := by
    rw [ih.head_eq, hread.block_eq k hk]
  have hhome : Home m.start (m.lh.block k) := hblock ▸ hstands.home k hk'
  -- the log block is read from the disk, and holds the new contents
  have hlog : m'.buf (m.start + k + 1) = m'.dev.disk (m.start + k + 1) := by
    refine ih.synced _ fun i hi _ => ?_
    rw [hread.block_eq i hi]
    exact (hs.home i (hread.n_eq ▸ hi)).ne_log (lt_of_lt_of_le hk' hstands.short)
  have hdata : m'.dev.disk (m.start + k + 1) = X (m.lh.block k) := by
    rw [hblock]
    exact hstands.logged k hk'
  rw [ih.lh_eq, ih.start_eq, hlog]
  refine ⟨ih.start_eq, ih.lh_eq, ih.passes.snoc ?_, ?_, fun i hi => ?_, fun b hb => ?_⟩
  · rw [hblock]
    exact hstands.write_home hk'
  · exact (Function.update_of_ne hhome.ne_start.symm _ _).trans ih.head_eq
  · by_cases heq : m.lh.block i = m.lh.block k
    · rw [heq]
      exact (Function.update_self ..).trans hdata
    · refine (Function.update_of_ne heq _ _).trans (ih.installed i ?_)
      rcases Nat.lt_succ_iff_lt_or_eq.mp hi with hlt | rfl
      · exact hlt
      · exact absurd rfl heq
  · refine synced_bwrite ?_
    by_cases hbk : b = m.lh.block k
    · exact Or.inl hbk
    · refine Or.inr (ih.synced b fun i hi hki => ?_)
      rcases Nat.eq_or_lt_of_le hki with rfl | hlt
      · exact fun h => hbk h.symm
      · exact hb i hi hlt

theorem Installing.at_home (hread : HeadRead m) {m' : Machine}
    (h : Installing m X m.lh.n.toNat m') {b : ℕ} (hb : Home m.start b) : m'.dev.disk b = X b := by
  by_cases hnamed : ∃ i < m.lh.n.toNat, m.lh.block i = b
  · obtain ⟨i, hi, rfl⟩ := hnamed
    exact h.installed i hi
  · refine h.passes.last.rest b hb fun i hi heq => hnamed ?_
    rw [h.head_eq, ← hread.n_eq] at hi
    exact ⟨i, hi, by rw [hread.block_eq i hi, ← h.head_eq, heq]⟩

/-! ## The header's writes -/

/-- Between two transactions: the log is empty, in memory and on disk, nothing is modified, and
the home blocks hold `X`. -/
structure Clean (X : Disk) (m : Machine) : Prop where
  n_eq : m.lh.n = 0
  empty : (headN (m.dev.disk m.start)).toNat = 0
  synced : ∀ b, m.Synced b
  home : ∀ b, Home m.start b → m.dev.disk b = X b

theorem Clean.stands (h : Clean X m) : Stands m.start X m.dev.disk := .of_empty h.empty h.home

theorem erase (hs : Stands m.start X m.dev.disk) (hsync : ∀ b, m.Synced b)
    (hhome : ∀ b, Home m.start b → m.dev.disk b = X b) :
    Passes (Stands m.start X) m.dev m.clear.writeHead.dev ∧ Clean X m.clear.writeHead := by
  have hclean : Clean X m.clear.writeHead := by
    refine ⟨rfl, ?_, fun b => synced_bwrite (Or.inr (hsync b)), fun b hb => ?_⟩
    · have hn : headN (encodeHead m.clear.lh (m.clear.buf m.clear.start)) = 0 :=
        headN_encodeHead (Int.le_refl 0) (Int.natCast_nonneg _)
      have hhead : m.clear.writeHead.dev.disk m.clear.writeHead.start
          = encodeHead m.clear.lh (m.clear.buf m.clear.start) := m.clear.writeHead_head
      rw [hhead, hn, Int.toNat_zero]
    · exact (Function.update_of_ne hb.ne_start _ _).trans (hhome b hb)
  exact ⟨.write hs hclean.stands, hclean⟩

/-- The common part of `commit` and `recover_from_log`: install, and erase the header. -/
theorem install_and_erase (hs : Stands m.start X m.dev.disk) (hread : HeadRead m) :
    Passes (Stands m.start X) m.dev m.installTrans.clear.writeHead.dev ∧
      Clean X m.installTrans.clear.writeHead := by
  have hinst := installing_installTrans hs hread
  have hlast : Stands m.installTrans.start X m.installTrans.dev.disk := by
    rw [hinst.start_eq]
    exact hinst.passes.last
  have herase := erase hlast (fun b => hinst.synced b fun i hi hni => absurd hi (by omega))
    (fun b hb => hinst.at_home hread (hinst.start_eq ▸ hb))
  rw [hinst.start_eq] at herase
  exact ⟨hinst.passes.trans herase.1, herase.2⟩

/-- **Recovery.**  What the disk stands for stays, and is at home when recovery completes. -/
theorem recover_spec {d : Disk} (hs : Stands start X d) :
    Passes (Stands start X) (boot start d).dev (boot start d).recoverFromLog.dev ∧
      Clean X (boot start d).recoverFromLog := by
  refine install_and_erase (m := (boot start d).readHead) hs ⟨?_, fun i hi => ?_, fun b _ => rfl⟩
  · simp only [readHead, boot]
  · simp only [readHead, boot] at hi ⊢
    exact if_pos hi

/-! ## A transaction -/

/-- Before `commit`: the log on disk is empty, and the modified blocks are home blocks that the
in-memory header names. -/
structure Ready (m : Machine) : Prop where
  n_nonneg : 0 ≤ m.lh.n
  n_le : m.lh.n ≤ LOGBLOCKS
  home : ∀ i < m.lh.n.toNat, Home m.start (m.lh.block i)
  lt : ∀ i < m.lh.n.toNat, m.lh.block i < 2 ^ 32
  empty : (headN (m.dev.disk m.start)).toNat = 0
  synced : ∀ b, (∀ i < m.lh.n.toNat, m.lh.block i ≠ b) → m.Synced b

/-- What `write_log` has done after `k` turns. -/
structure Logging (m₀ : Machine) (X : Disk) (k : ℕ) (m : Machine) : Prop where
  start_eq : m.start = m₀.start
  lh_eq : m.lh = m₀.lh
  passes : Passes (Stands m₀.start X) m₀.dev m.dev
  head_eq : m.dev.disk m₀.start = m₀.dev.disk m₀.start
  buf_eq : ∀ b, Home m₀.start b → m.buf b = m₀.buf b
  disk_eq : ∀ b, Home m₀.start b → m.dev.disk b = m₀.dev.disk b
  logged : ∀ i < k, m.dev.disk (m₀.start + i + 1) = m₀.buf (m₀.lh.block i)
  synced : ∀ b, m₀.Synced b → m.Synced b

/-- **Logging.**  The header on disk is empty, so the log does not matter. -/
theorem logging_writeLog (hs : Stands m.start X m.dev.disk) (hready : Ready m) :
    Logging m X m.lh.n.toNat m.writeLog := by
  refine Loop.foldl_range ⟨rfl, rfl, .refl hs, rfl, fun _ _ => rfl, fun _ _ => rfl, by simp,
    fun _ h => h⟩ ?_
  intro k hk m' ih
  have hlt : k < LOGBLOCKS := by
    have := hready.n_le
    omega
  have hempty : (headN (m'.dev.disk m.start)).toNat = 0 := by rw [ih.head_eq, hready.empty]
  rw [ih.lh_eq, ih.start_eq, ih.buf_eq _ (hready.home k hk)]
  refine ⟨ih.start_eq, ih.lh_eq, ih.passes.snoc (ih.passes.last.write_log hempty hlt _), ?_,
    fun b hb => ?_, fun b hb => ?_, fun i hi => ?_, fun b hb => synced_bwrite (Or.inr (ih.synced b hb))⟩
  · exact (Function.update_of_ne (by omega) _ _).trans ih.head_eq
  · exact (Function.update_of_ne (hb.ne_log hlt) _ _).trans (ih.buf_eq b hb)
  · exact (Function.update_of_ne (hb.ne_log hlt) _ _).trans (ih.disk_eq b hb)
  · rcases Nat.lt_succ_iff_lt_or_eq.mp hi with hik | rfl
    · exact (Function.update_of_ne (by omega) _ _).trans (ih.logged i hik)
    · exact Function.update_self ..

/-- **The commit point.**  The header's write makes the disk stand for what is in the buffers. -/
theorem commit_point (hready : Ready m) {m' : Machine} (h : Logging m X m.lh.n.toNat m') :
    Stands m.start m.buf m'.writeHead.dev.disk ∧ HeadRead m'.writeHead := by
  have hn : headN (encodeHead m'.lh (m'.buf m'.start)) = m.lh.n := by
    rw [h.lh_eq, headN_encodeHead hready.n_nonneg hready.n_le]
  have hblock : ∀ i < m.lh.n.toNat,
      headBlock (encodeHead m'.lh (m'.buf m'.start)) i = m.lh.block i := fun i hi => by
    rw [h.lh_eq, headBlock_encodeHead hi (hready.lt i hi)]
  have hhead : m'.writeHead.dev.disk m'.writeHead.start
      = encodeHead m'.lh (m'.buf m'.start) := m'.writeHead_head
  have hle : m.lh.n.toNat ≤ LOGBLOCKS := by
    have := hready.n_le
    omega
  constructor
  · have hstands : Stands m.start m.buf
        (Function.update m'.dev.disk m.start (encodeHead m'.lh (m'.buf m'.start))) := by
      refine .write_head ?_ ?_ ?_ fun b hb hun => ?_
      · rw [hn]
        exact hle
      · rw [hn]
        intro i hi
        rw [hblock i hi]
        exact hready.home i hi
      · rw [hn]
        intro i hi
        rw [hblock i hi, h.logged i hi]
      · -- a block the header does not name has not been modified
        rw [Unnamed, hn] at hun
        rw [h.disk_eq b hb]
        exact (hready.synced b fun i hi => hblock i hi ▸ hun i hi).symm
    rw [writeHead, bwrite_disk, h.start_eq]
    rw [h.start_eq] at hstands
    exact hstands
  · refine ⟨?_, fun i hi => ?_, fun b hb => ?_⟩
    · rw [hhead, hn]
      exact congrArg (fun lh => lh.n.toNat) h.lh_eq
    · have hi' : i < m.lh.n.toNat := h.lh_eq ▸ hi
      have hlh : m'.writeHead.lh.block i = m.lh.block i := congrArg (fun lh => lh.block i) h.lh_eq
      rw [hhead, hblock i hi', hlh]
    · refine synced_bwrite (Or.inr (h.synced b (hready.synced b ?_)))
      exact fun i hi => h.lh_eq ▸ hb i (h.lh_eq ▸ hi)

/-- **One commit.**  Throughout, the disk stands for the old contents or for what is in the
buffers; at the end, for the latter. -/
theorem commit_spec (hs : Stands m.start X m.dev.disk) (hready : Ready m) :
    Passes (fun d => Stands m.start X d ∨ Stands m.start m.buf d) m.dev m.commit.dev ∧
      Clean m.buf m.commit := by
  rw [commit]
  split
  · have hlog := logging_writeLog hs hready
    obtain ⟨hstands, hread⟩ := commit_point hready hlog
    have hstart : m.writeLog.writeHead.start = m.start := hlog.start_eq
    have hinst := install_and_erase (m := m.writeLog.writeHead) (X := m.buf)
      (by rw [hstart]; exact hstands) hread
    rw [hstart] at hinst
    refine ⟨?_, hinst.2⟩
    have hhead : Passes (fun d => Stands m.start X d ∨ Stands m.start m.buf d)
        m.dev m.writeLog.writeHead.dev :=
      (hlog.passes.mono fun _ => Or.inl).snoc (Or.inr hstands)
    exact hhead.trans (hinst.1.mono fun _ => Or.inr)
  · rename_i hn
    -- nothing has been logged, so nothing is modified
    have hn0 : m.lh.n = 0 := by
      have := hready.n_nonneg
      omega
    have hsync : ∀ b, m.Synced b := fun b => hready.synced b fun i hi => by
      rw [hn0] at hi
      exact absurd hi (Nat.not_lt_zero i)
    exact ⟨.refl (Or.inl hs), hn0, hready.empty, hsync, fun b _ => (hsync b).symm⟩

theorem logIndex_cases (lh : LogHeader) (b : ℕ) :
    (∃ i < lh.n.toNat, lh.block i = b ∧ logIndex lh b = i) ∨
      (∀ i < lh.n.toNat, lh.block i ≠ b) ∧ logIndex lh b = lh.n.toNat := by
  rw [logIndex]
  cases hfind : (List.range lh.n.toNat).find? fun i => lh.block i = b with
  | none =>
    rw [List.find?_eq_none] at hfind
    exact Or.inr ⟨fun i hi h => hfind i (List.mem_range.mpr hi) (by simpa using h), rfl⟩
  | some i =>
    have hmem := List.mem_of_find?_eq_some hfind
    exact Or.inl ⟨i, List.mem_range.mp hmem, by simpa using List.find?_some hfind, rfl⟩

/-- A block is named by the header `lh`. -/
def LogHeader.Names (lh : LogHeader) (b : ℕ) : Prop := ∃ i < lh.n.toNat, lh.block i = b

theorem logWrite_lh {b : ℕ} (v : Block) (h0 : 0 ≤ m.lh.n) :
    0 ≤ (m.logWrite b v).lh.n ∧ (m.logWrite b v).lh.n ≤ m.lh.n + 1 ∧
      ∀ c, (m.logWrite b v).lh.Names c ↔ m.lh.Names c ∨ c = b := by
  rcases logIndex_cases m.lh b with ⟨i, hi, hib, hidx⟩ | ⟨hnone, hidx⟩
  · -- absorption: the header stays
    have hlh : (m.logWrite b v).lh = m.lh := by
      rw [Machine.logWrite]
      dsimp only
      rw [hidx, if_neg (by omega), ← hib, Function.update_eq_self]
    rw [hlh]
    refine ⟨h0, by omega, fun c => ⟨Or.inl, ?_⟩⟩
    rintro (h | rfl)
    · exact h
    · exact ⟨i, hi, hib⟩
  · have hlh : (m.logWrite b v).lh =
        ⟨m.lh.n + 1, Function.update m.lh.block m.lh.n.toNat b⟩ := by
      rw [Machine.logWrite]
      dsimp only
      rw [hidx, if_pos rfl]
    rw [hlh]
    have hn : (m.lh.n + 1).toNat = m.lh.n.toNat + 1 := by omega
    refine ⟨by dsimp only; omega, Int.le_refl _, fun c => ⟨?_, ?_⟩⟩
    · rintro ⟨i, hi, rfl⟩
      by_cases hin : i = m.lh.n.toNat
      · exact Or.inr (hin ▸ Function.update_self ..)
      · refine Or.inl ⟨i, ?_, (Function.update_of_ne hin _ _).symm⟩
        dsimp only at hi
        omega
    · rintro (⟨i, hi, rfl⟩ | rfl)
      · exact ⟨i, by dsimp only; omega, Function.update_of_ne (by omega) _ _⟩
      · exact ⟨m.lh.n.toNat, by dsimp only; omega, Function.update_self ..⟩

theorem Ready.logWrite (h : Ready m) {b : ℕ} (hn : m.lh.n < LOGBLOCKS) (hb : Home m.start b)
    (hlt : b < 2 ^ 32) (v : Block) : Ready (m.logWrite b v) := by
  obtain ⟨h0, hle, hnames⟩ := logWrite_lh (b := b) v h.n_nonneg
  have hold : ∀ i < (m.logWrite b v).lh.n.toNat,
      m.lh.Names ((m.logWrite b v).lh.block i) ∨ (m.logWrite b v).lh.block i = b :=
    fun i hi => (hnames _).mp ⟨i, hi, rfl⟩
  refine ⟨h0, by omega, fun i hi => ?_, fun i hi => ?_, h.empty, fun c hc => ?_⟩
  · rcases hold i hi with ⟨j, hj, heq⟩ | heq
    · rw [← heq]
      exact h.home j hj
    · rw [heq]
      exact hb
  · rcases hold i hi with ⟨j, hj, heq⟩ | heq
    · rw [← heq]
      exact h.lt j hj
    · rw [heq]
      exact hlt
  · have hnot : ¬ (m.lh.Names c ∨ c = b) := fun hor => by
      obtain ⟨i, hi, heq⟩ := (hnames c).mpr hor
      exact hc i hi heq
    refine (Function.update_of_ne (fun h => hnot (Or.inr h)) _ _).trans (h.synced c ?_)
    exact fun i hi heq => hnot (Or.inl ⟨i, hi, heq⟩)

/-- A transaction: at most `LOGBLOCKS` blocks, outside the log area, with 32-bit numbers. -/
structure Admissible (start : ℕ) (t : List (ℕ × Block)) : Prop where
  length_le : t.length ≤ LOGBLOCKS
  home : ∀ w ∈ t, Home start w.1
  lt : ∀ w ∈ t, w.1 < 2 ^ 32

theorem Ready.logWrites {t : List (ℕ × Block)} (h : Ready m)
    (hn : m.lh.n + t.length ≤ LOGBLOCKS) (hhome : ∀ w ∈ t, Home m.start w.1)
    (hlt : ∀ w ∈ t, w.1 < 2 ^ 32) :
    Ready (t.foldl (fun m w => m.logWrite w.1 w.2) m) ∧
      (t.foldl (fun m w => m.logWrite w.1 w.2) m).buf = apply m.buf t ∧
      (t.foldl (fun m w => m.logWrite w.1 w.2) m).dev = m.dev ∧
      (t.foldl (fun m w => m.logWrite w.1 w.2) m).start = m.start := by
  induction t generalizing m with
  | nil => exact ⟨h, rfl, rfl, rfl⟩
  | cons w t ih =>
    rw [List.length_cons, Nat.cast_succ] at hn
    obtain ⟨h0, hle, -⟩ := logWrite_lh (b := w.1) w.2 h.n_nonneg
    have hready := h.logWrite (by omega) (hhome w (List.mem_cons_self ..))
      (hlt w (List.mem_cons_self ..)) w.2
    have hn' : (m.logWrite w.1 w.2).lh.n + t.length ≤ LOGBLOCKS := by omega
    exact ih hready hn' (fun w' hw' => hhome w' (List.mem_cons_of_mem _ hw'))
      fun w' hw' => hlt w' (List.mem_cons_of_mem _ hw')

theorem Clean.ready (h : Clean X m) : Ready m := by
  refine ⟨by rw [h.n_eq], by rw [h.n_eq]; exact Int.natCast_nonneg _, fun i hi => ?_, fun i hi => ?_,
    h.empty, fun b _ => h.synced b⟩ <;>
  · rw [h.n_eq] at hi
    exact absurd hi (Nat.not_lt_zero i)

theorem Stands.congr (hs : Stands start X d) (h : ∀ b, Home start b → X b = X' b) :
    Stands start X' d where
  short := hs.short
  home := hs.home
  logged := fun i hi => (hs.logged i hi).trans (h _ (hs.home i hi))
  rest := fun b hb hun => (hs.rest b hb hun).trans (h b hb)

theorem transact_spec (h : Clean X m) {t : List (ℕ × Block)} (ht : Admissible m.start t) :
    (m.transact t).start = m.start ∧ Clean (apply X t) (m.transact t) ∧
      Passes (fun d => Stands m.start X d ∨ Stands m.start (apply X t) d) m.dev
        (m.transact t).dev := by
  obtain ⟨hready, hbuf, hdev, hstart⟩ := h.ready.logWrites (t := t)
    (by rw [h.n_eq, Int.zero_add]; exact Int.ofNat_le.mpr ht.length_le) ht.home ht.lt
  have hstart' : (m.transact t).start = m.start := (commit_start _).trans hstart
  have hcommit := commit_spec (X := X) (by rw [hdev, hstart]; exact h.stands) hready
  rw [hbuf, hdev, hstart] at hcommit
  -- the buffers held `X` before the transaction
  have heq : ∀ b, Home m.start b → apply m.buf t b = apply X t b := fun b hb =>
    apply_congr t ((h.synced b).trans (h.home b hb))
  refine ⟨hstart', ⟨hcommit.2.n_eq, hcommit.2.empty, hcommit.2.synced, fun b hb => ?_⟩,
    hcommit.1.mono fun d => Or.imp_right fun hs => hs.congr heq⟩
  exact (hcommit.2.home b hb).trans (heq b (hstart' ▸ hb))

/-! ## Every crash -/

/-- The contents after a list of transactions. -/
def contents (X : Disk) (ts : List (List (ℕ × Block))) : Disk := ts.foldl apply X

theorem transacts_spec (ts : List (List (ℕ × Block))) (h : Clean X m)
    (hts : ∀ t ∈ ts, Admissible m.start t) :
    ∃ ws, (ts.foldl transact m).dev.trace = m.dev.trace ++ ws := by
  induction ts generalizing m X with
  | nil => exact ⟨[], (List.append_nil _).symm⟩
  | cons t ts ih =>
    obtain ⟨hstart, hclean, ws₁, htrace, -, -⟩ := transact_spec h (hts t (List.mem_cons_self ..))
    obtain ⟨ws₂, htrace₂⟩ := ih hclean fun t' ht' =>
      hstart ▸ hts t' (List.mem_cons_of_mem _ ht')
    exact ⟨ws₁ ++ ws₂, by rw [List.foldl_cons, htrace₂, htrace, List.append_assoc]⟩

/-- **Every crash point.**  After any first part of the disk writes the disk stands for the
contents after some first part of the transactions, and all of those that have returned are in
it. -/
theorem stands_of_prefix {ts : List (List (ℕ × Block))} (h : Clean X m)
    (hts : ∀ t ∈ ts, Admissible m.start t) {ws : List (ℕ × Block)}
    (hws : m.dev.trace ++ ws <+: (ts.foldl transact m).dev.trace) :
    ∃ j ≤ ts.length, Stands m.start (contents X (ts.take j)) (apply m.dev.disk ws) ∧
      ∀ i ≤ ts.length, ((ts.take i).foldl transact m).dev.trace <+: m.dev.trace ++ ws → i ≤ j := by
  induction ts generalizing m X ws with
  | nil =>
    have hnil : ws = [] := by
      have := hws.length_le
      rw [List.foldl_nil, List.length_append] at this
      exact List.length_eq_zero_iff.mp (by omega)
    rw [hnil]
    exact ⟨0, le_refl _, h.stands, fun i hi _ => hi⟩
  | cons t ts ih =>
    have ht := hts t (List.mem_cons_self ..)
    obtain ⟨hstart, hclean, ws₁, htrace, hdisk, hall⟩ := transact_spec h ht
    have hts' : ∀ t' ∈ ts, Admissible (m.transact t).start t' := fun t' ht' =>
      hstart ▸ hts t' (List.mem_cons_of_mem _ ht')
    obtain ⟨ws₂, htrace₂⟩ := transacts_spec _ hclean hts'
    have hws' : ws <+: ws₁ ++ ws₂ := by
      rw [List.foldl_cons, htrace₂, htrace, List.append_assoc] at hws
      exact (List.prefix_append_right_inj _).mp hws
    by_cases hfull : ws₁ <+: ws
    · -- the first transaction has returned
      obtain ⟨ws', rfl⟩ := hfull
      have happ : m.dev.trace ++ (ws₁ ++ ws') = (m.transact t).dev.trace ++ ws' := by
        rw [htrace, List.append_assoc]
      rw [happ] at hws
      obtain ⟨j, hj, hstands, hret⟩ := ih hclean hts' hws
      refine ⟨j + 1, Nat.succ_le_succ hj, ?_, fun i hi hpre => ?_⟩
      · rw [apply_append, ← hdisk, ← hstart]
        exact hstands
      · cases i with
        | zero => exact Nat.zero_le _
        | succ i =>
          rw [happ] at hpre
          exact Nat.succ_le_succ (hret i (Nat.le_of_succ_le_succ hi) hpre)
    · -- the crash is inside the first transaction
      have hpart : ws <+: ws₁ := by
        rcases prefix_append_cases hws' with hle | ⟨ws', rfl, -⟩
        · exact hle
        · exact absurd (List.prefix_append ws₁ ws') hfull
      have hret : ∀ j i, ((List.take i (t :: ts)).foldl transact m).dev.trace <+: m.dev.trace ++ ws →
          i ≤ j := by
        intro j i hpre
        cases i with
        | zero => exact Nat.zero_le _
        | succ i =>
          obtain ⟨ws₃, htrace₃⟩ := transacts_spec (ts.take i) hclean fun t' ht' =>
            hts' t' (List.mem_of_mem_take ht')
          rw [List.take_succ_cons, List.foldl_cons, htrace₃, htrace, List.append_assoc,
            List.prefix_append_right_inj] at hpre
          exact absurd ((List.prefix_append ws₁ ws₃).trans hpre) hfull
      rcases hall ws hpart with hstands | hstands
      · exact ⟨0, Nat.zero_le _, hstands, fun i _ => hret 0 i⟩
      · exact ⟨1, Nat.succ_le_succ (Nat.zero_le _), hstands, fun i _ => hret 1 i⟩

/-- The disks that any number of crashes inside `recover_from_log` can make of `d`. -/
inductive Crashes (start : ℕ) (d : Disk) : Disk → Prop
  | none : Crashes start d d
  | again {d' : Disk} {ws : List (ℕ × Block)} : Crashes start d d' →
      ws <+: (boot start d').recoverFromLog.dev.trace → Crashes start d (apply d' ws)

theorem Stands.of_crashes {d' : Disk} (hs : Stands start X d) (h : Crashes start d d') :
    Stands start X d' := by
  induction h with
  | none => exact hs
  | again _ hws ih =>
    obtain ⟨ws₁, htrace, -, hall⟩ := (recover_spec ih).1
    rw [htrace] at hws
    exact hall _ hws

/-- **Crash atomicity.**  The header on disk is empty, and after `initlog` any transactions are
committed.  The machine stops after any first part `ws` of the disk writes, any number of
recoveries crash, and one completes.  Then the home blocks hold the contents after some first part
of the transactions, and every transaction whose `commit` had returned is in it. -/
theorem crash_atomic {start : ℕ} {d : Disk} {ts : List (List (ℕ × Block))}
    (hempty : headN (d start) = 0) (hts : ∀ t ∈ ts, Admissible start t)
    {ws : List (ℕ × Block)} (hws : ws <+: (life start d ts).dev.trace) {d' : Disk}
    (hd' : Crashes start (apply d ws) d') :
    ∃ j ≤ ts.length,
      (∀ i ≤ ts.length, (life start d (ts.take i)).dev.trace <+: ws → i ≤ j) ∧
        ∀ b, Home start b →
          (boot start d').recoverFromLog.dev.disk b = contents d (ts.take j) b := by
  have hs : Stands start d d := .of_empty (by rw [hempty, Int.toNat_zero]) fun _ _ => rfl
  suffices h : ∃ j ≤ ts.length, Stands start (contents d (ts.take j)) (apply d ws) ∧
      ∀ i ≤ ts.length, (life start d (ts.take i)).dev.trace <+: ws → i ≤ j by
    obtain ⟨j, hj, hstands, hret⟩ := h
    refine ⟨j, hj, hret, fun b hb => (recover_spec (hstands.of_crashes hd')).2.home b ?_⟩
    rw [recoverFromLog_start]
    exact hb
  obtain ⟨⟨ws₀, htrace, hdisk, hall⟩, hclean⟩ := recover_spec hs
  have hstart : (boot start d).recoverFromLog.start = start := recoverFromLog_start _
  have hts' : ∀ t ∈ ts, Admissible (boot start d).recoverFromLog.start t := by rwa [hstart]
  rw [show (boot start d).dev.trace = [] from rfl, List.nil_append] at htrace
  by_cases hfull : ws₀ <+: ws
  · obtain ⟨ws', rfl⟩ := hfull
    rw [← htrace] at hws ⊢
    obtain ⟨j, hj, hstands, hret⟩ := stands_of_prefix hclean hts' hws
    refine ⟨j, hj, ?_, hret⟩
    rw [htrace, apply_append]
    rw [hstart, hdisk] at hstands
    exact hstands
  · -- the crash is inside `initlog`
    have hext : ∀ ts' : List (List (ℕ × Block)), (∀ t ∈ ts', Admissible start t) →
        ∃ ws', (life start d ts').dev.trace = ws₀ ++ ws' := fun ts' hts' => by
      obtain ⟨ws', hws'⟩ := transacts_spec ts' hclean (by rwa [hstart])
      exact ⟨ws', by rw [life, hws', htrace]⟩
    obtain ⟨ws', hws'⟩ := hext ts hts
    rw [hws'] at hws
    have hpart : ws <+: ws₀ := by
      rcases prefix_append_cases hws with hle | ⟨ws'', rfl, -⟩
      · exact hle
      · exact absurd (List.prefix_append ws₀ ws'') hfull
    refine ⟨0, Nat.zero_le _, hall ws hpart, fun i _ hpre => absurd ?_ hfull⟩
    obtain ⟨ws'', hws''⟩ := hext (ts.take i) fun t ht => hts t (List.mem_of_mem_take ht)
    rw [hws''] at hpre
    exact (List.prefix_append ws₀ ws'').trans hpre

/-- The machine stops right after the header of the first transaction has been written, and the
first recovery stops after one write. -/
theorem crash_atomic_after_header :
    let d : Disk := fun _ _ => 0
    let ts : List (List (ℕ × Block)) := [[(46, fun _ => 7)]]
    let d₁ := apply d ((life 2 d ts).dev.trace.take 3)
    let d₂ := apply d₁ ((boot 2 d₁).recoverFromLog.dev.trace.take 1)
    ∃ j ≤ ts.length,
      (∀ i ≤ ts.length, (life 2 d (ts.take i)).dev.trace <+: (life 2 d ts).dev.trace.take 3 →
        i ≤ j) ∧
      ∀ b, Home 2 b → (boot 2 d₂).recoverFromLog.dev.disk b = contents d (ts.take j) b := by
  intro d ts d₁ d₂
  have hempty : headN (d 2) = 0 := by decide +kernel
  have hts : ∀ t ∈ ts, Admissible 2 t := by
    intro t ht
    rw [List.mem_singleton.mp ht]
    exact ⟨by decide, by simp [Home, LOGBLOCKS, MAXOPBLOCKS], by simp⟩
  exact crash_atomic hempty hts (List.take_prefix 3 _) (.again .none (List.take_prefix 1 _))

end Log
end Xv6

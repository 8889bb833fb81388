import Xv6.Sched.Proc
import Xv6.Vm.Proc
import Xv6.Vm.UserMemory

/-!
# What `getpinfo` copies out

`struct pstat` of `kernel/pstat.h` is seven arrays with an entry for each slot of the process table.
`sys_getpinfo` has one on its stack, fills it slot by slot, and copies all of it out.  Only bytes of
slot `i` are written in the turn for `i` (`InSlot`), so what the turns do can be told slot by slot.

The structure is not cleared before.  All bytes of the `int` fields are written, but `safestrcpy`
stops at the end of the name, and of the name of a free slot only the first byte is set.  What
follows is what the stack held before the call, and it is copied out as well.
-/

namespace Xv6
namespace Pinfo

open Bytes Program Vm
open Sched (ProcState Slot)

/-- What `sys_getpinfo` reads of `struct proc`. -/
structure Info where
  state : ProcState
  pid : ℤ
  parent : Option Slot
  /-- `char name[16]` -/
  name : Mem
  priority : ℤ
  sz : ℕ

/-! ## `struct pstat` -/

/-- The offsets of the arrays. -/
def ISUSED : ℕ := 0
@[inherit_doc ISUSED] def PID : ℕ := 256
@[inherit_doc ISUSED] def PPID : ℕ := 512
@[inherit_doc ISUSED] def PNAME : ℕ := 768
@[inherit_doc ISUSED] def PRIORITY : ℕ := 1792
@[inherit_doc ISUSED] def PSTATE : ℕ := 2048
@[inherit_doc ISUSED] def MEMSIZE : ℕ := 2304

/-- `sizeof(struct pstat)` -/
def PSTAT_SIZE : ℕ := 2560

/-- An entry of an array of `int`. -/
def setInt (ps : Mem) (array : ℕ) (i : Slot) (v : ℤ) : Mem :=
  store 4 ps (array + 4 * i) (v % 2 ^ 32).toNat

/-- `safestrcpy(ps.pname[i], name, 16)`. -/
def setName (ps : Mem) (i : Slot) (name : Mem) : Mem := fun o =>
  if PNAME + 16 * i ≤ o ∧ o < PNAME + 16 * i + 16 then
    safestrcpy (fun j => ps (PNAME + 16 * i + j)) (cString name 16) (o - (PNAME + 16 * i))
  else ps o

/-- The number of an `enum procstate`. -/
def stateCode : ProcState → ℤ
  | .unused => 0
  | .used => 1
  | .sleeping => 2
  | .runnable => 3
  | .running => 4
  | .zombie => 5

/-- `p->parent->pid`, or 0 without a parent. -/
def parentPid (t : Slot → Info) (p : Info) : ℤ :=
  match p.parent with
  | some q => (t q).pid
  | none => 0

/-- One turn of the loop of `sys_getpinfo`. -/
def fillSlot (t : Slot → Info) (ps : Mem) (i : Slot) : Mem :=
  let p := t i
  if p.state ≠ .unused then
    let ps := setInt ps ISUSED i 1
    let ps := setInt ps PID i p.pid
    let ps := setInt ps PPID i (parentPid t p)
    let ps := setName ps i p.name
    let ps := setInt ps PRIORITY i p.priority
    let ps := setInt ps PSTATE i (stateCode p.state)
    setInt ps MEMSIZE i p.sz
  else
    let ps := setInt ps ISUSED i 0
    let ps := setInt ps PID i 0
    let ps := setInt ps PPID i 0
    let ps := Function.update ps (PNAME + 16 * i) 0
    let ps := setInt ps PRIORITY i 0
    let ps := setInt ps PSTATE i 0
    setInt ps MEMSIZE i 0

/-- The structure that `sys_getpinfo` copies out, where the stack held `stack` before. -/
def fill (t : Slot → Info) (stack : Mem) : Mem :=
  let ps := (List.finRange NPROC).foldl (fun ps i => setInt ps ISUSED i 0) stack
  (List.finRange NPROC).foldl (fillSlot t) ps

/-- The bytes that `sys_getpinfo` copies out. -/
def pstatBytes (t : Slot → Info) (stack : Mem) : List UInt8 := bytesAt (fill t stack) 0 PSTAT_SIZE

/-- `sys_getpinfo`, by the process with page table `ppt` and size `psz`. -/
def sysGetpinfo (L : Layout) (ppt psz : ℕ) (t : Slot → Info) (stack : Mem) (addr : ℕ) : VmM ℤ := do
  let r ← copyout L ppt psz ppt addr (pstatBytes t stack)
  if r < 0 then return -1 else return 0

/-! ## The bytes of a slot -/

/-- The byte at offset `o` belongs to slot `i`. -/
def InSlot (i : Slot) (o : ℕ) : Prop :=
  o < PNAME ∧ o % 256 / 4 = i ∨ PNAME ≤ o ∧ o < PRIORITY ∧ (o - PNAME) / 16 = i ∨
    PRIORITY ≤ o ∧ o < PSTAT_SIZE ∧ o % 256 / 4 = i

variable {t : Slot → Info} {ps ps' stack : Mem} {i j : Slot} {o array array' : ℕ} {v : ℤ}
  {name : Mem}

theorem slot_lt (i : Slot) : (i : ℕ) < 64 := i.isLt

theorem exists_inSlot (ho : o < PSTAT_SIZE) : ∃ i, InSlot i o := by
  unfold PSTAT_SIZE at ho
  by_cases h1 : o < PNAME
  · exact ⟨⟨o % 256 / 4, show _ < 64 by omega⟩, Or.inl ⟨h1, rfl⟩⟩
  · by_cases h2 : o < PRIORITY
    · refine ⟨⟨(o - PNAME) / 16, show _ < 64 from ?_⟩, Or.inr (Or.inl ⟨by omega, h2, rfl⟩)⟩
      unfold PNAME PRIORITY at *
      omega
    · exact ⟨⟨o % 256 / 4, show _ < 64 by omega⟩, Or.inr (Or.inr ⟨by omega, ho, rfl⟩)⟩

theorem InSlot.unique (h : InSlot i o) (h' : InSlot j o) : i = j := by
  refine Fin.ext ?_
  unfold InSlot PNAME PRIORITY at h h'
  omega

theorem setInt_outside (h : o < array + 4 * i ∨ array + 4 * i + 4 ≤ o) :
    setInt ps array i v o = ps o := store_outside h

/-- A byte of the entry does not depend on what was there, and another byte is kept. -/
theorem setInt_or {X : Prop} (h : X ∨ ps o = ps' o) :
    X ∧ ¬ (array + 4 * i ≤ o ∧ o < array + 4 * i + 4) ∨
      setInt ps array i v o = setInt ps' array i v o := by
  by_cases hin : array + 4 * i ≤ o ∧ o < array + 4 * i + 4
  · exact Or.inr (store_congr (Or.inl hin))
  · exact h.imp (fun hX => ⟨hX, hin⟩) fun heq => store_congr (Or.inr heq)

/-- Where `safestrcpy` writes its last 0. -/
def nameEnd (name : Mem) : ℕ := min ((cString name 16).length + 1) 15

theorem setName_outside (h : o < PNAME + 16 * i ∨ PNAME + 16 * i + nameEnd name < o) :
    setName ps i name o = ps o := by
  unfold nameEnd at h
  rw [setName]
  split
  · rw [safestrcpy, if_neg (by omega), if_neg (by omega)]
    congr 1
    omega
  · rfl

theorem setName_or {X : Prop} (h : X ∨ ps o = ps' o) :
    X ∧ ¬ (PNAME + 16 * i ≤ o ∧ o ≤ PNAME + 16 * i + nameEnd name) ∨
      setName ps i name o = setName ps' i name o := by
  by_cases hin : PNAME + 16 * i ≤ o ∧ o ≤ PNAME + 16 * i + nameEnd name
  · refine Or.inr ?_
    unfold nameEnd at hin
    rw [setName, setName, if_pos ⟨hin.1, by omega⟩, if_pos ⟨hin.1, by omega⟩, safestrcpy,
      safestrcpy]
    split
    · rfl
    · rw [if_pos (by omega), if_pos (by omega)]
  · refine h.imp (fun hX => ⟨hX, hin⟩) fun heq => ?_
    rw [setName, setName]
    split
    · have hoff : PNAME + 16 * (i : ℕ) + (o - (PNAME + 16 * i)) = o := by omega
      rw [safestrcpy, safestrcpy, hoff, heq]
    · exact heq

theorem update_or {X : Prop} {a : ℕ} {b : UInt8} (h : X ∨ ps o = ps' o) :
    X ∧ o ≠ a ∨ Function.update ps a b o = Function.update ps' a b o := by
  by_cases heq : o = a
  · subst heq
    exact Or.inr (by rw [Function.update_self, Function.update_self])
  · rw [Function.update_of_ne heq, Function.update_of_ne heq]
    exact h.imp_left fun hX => ⟨hX, heq⟩

/-- The last byte of the name that is written in the turn for `p`. -/
def Info.nameEnd (p : Info) : ℕ := if p.state ≠ .unused then Pinfo.nameEnd p.name else 0

/-- The byte is written in the turn for slot `i`. -/
def Written (t : Slot → Info) (i : Slot) (o : ℕ) : Prop :=
  PNAME ≤ o → o < PRIORITY → o ≤ PNAME + 16 * i + (t i).nameEnd

/-- A byte of the slot that is written does not depend on what was there, and another byte only on
what was there. -/
theorem fillSlot_congr (hin : InSlot i o) (h : Written t i o ∨ ps o = ps' o) :
    fillSlot t ps i o = fillSlot t ps' i o := by
  have hi := slot_lt i
  unfold InSlot Written Info.nameEnd at *
  rw [fillSlot, fillSlot]
  split
  · rename_i hused
    rw [if_pos hused] at h
    refine (setInt_or (setInt_or (setInt_or (setName_or (setInt_or (setInt_or
      (setInt_or h))))))).resolve_left ?_
    unfold ISUSED PID PPID PNAME PRIORITY PSTATE MEMSIZE PSTAT_SIZE at *
    omega
  · rename_i hused
    rw [if_neg hused] at h
    refine (setInt_or (setInt_or (setInt_or (update_or (setInt_or (setInt_or
      (setInt_or h))))))).resolve_left ?_
    unfold ISUSED PID PPID PNAME PRIORITY PSTATE MEMSIZE PSTAT_SIZE at *
    omega

theorem fillSlot_outside (h : InSlot i o → ¬ Written t i o) : fillSlot t ps i o = ps o := by
  have hi := slot_lt i
  unfold InSlot Written Info.nameEnd at h
  have hint : ∀ array ∈ [ISUSED, PID, PPID, PRIORITY, PSTATE, MEMSIZE],
      o < array + 4 * i ∨ array + 4 * i + 4 ≤ o := by
    unfold ISUSED PID PPID PRIORITY PSTATE MEMSIZE PNAME PSTAT_SIZE at *
    intro array harray
    simp only [List.mem_cons, List.not_mem_nil, or_false] at harray
    omega
  rw [fillSlot]
  split
  · rename_i hused
    rw [if_pos hused] at h
    have hname : o < PNAME + 16 * i ∨ PNAME + 16 * i + nameEnd (t i).name < o := by
      unfold nameEnd PNAME PRIORITY PSTAT_SIZE at *
      omega
    rw [setInt_outside (hint _ (by simp)), setInt_outside (hint _ (by simp)),
      setInt_outside (hint _ (by simp)), setName_outside hname, setInt_outside (hint _ (by simp)),
      setInt_outside (hint _ (by simp)), setInt_outside (hint _ (by simp))]
  · rename_i hused
    rw [if_neg hused] at h
    have hname : o ≠ PNAME + 16 * i := by
      unfold PNAME PRIORITY PSTAT_SIZE at *
      omega
    rw [setInt_outside (hint _ (by simp)), setInt_outside (hint _ (by simp)),
      setInt_outside (hint _ (by simp)), Function.update_of_ne hname,
      setInt_outside (hint _ (by simp)), setInt_outside (hint _ (by simp)),
      setInt_outside (hint _ (by simp))]

/-! ## The loop -/

/-- A loop whose turn for `i` is the only one to write the byte at `o`. -/
theorem foldl_apply {ι : Type} {f : Mem → ι → Mem} {l : List ι} {i : ι} (hi : i ∈ l) (hl : l.Nodup)
    (hother : ∀ ps j, j ≠ i → f ps j o = ps o)
    (hself : ∀ ps ps', ps o = ps' o → f ps i o = f ps' i o) : l.foldl f ps o = f ps i o := by
  have hkept : ∀ (l : List ι) (ps : Mem), i ∉ l → l.foldl f ps o = ps o := by
    intro l
    induction l with
    | nil => exact fun _ _ => rfl
    | cons j l ih =>
      intro ps hnot
      rw [List.mem_cons, not_or] at hnot
      rw [List.foldl_cons, ih _ hnot.2, hother _ _ (Ne.symm hnot.1)]
  induction l generalizing ps with
  | nil => exact absurd hi (by simp)
  | cons j l ih =>
    rw [List.nodup_cons] at hl
    rw [List.foldl_cons]
    by_cases heq : i = j
    · subst heq
      exact hkept l _ hl.1
    · have hmem : i ∈ l := (List.mem_cons.mp hi).resolve_left heq
      rw [ih hmem hl.2]
      exact hself _ _ (hother _ _ (Ne.symm heq))

/-- The stack after the first loop. -/
def cleared (stack : Mem) : Mem := (List.finRange NPROC).foldl (fun ps i => setInt ps ISUSED i 0) stack

theorem fill_apply (hin : InSlot i o) : fill t stack o = fillSlot t (cleared stack) i o :=
  foldl_apply (List.mem_finRange i) (List.nodup_finRange NPROC)
    (fun _ _ hne => fillSlot_outside fun hin' => absurd (hin'.unique hin) hne)
    fun _ _ heq => fillSlot_congr hin (Or.inr heq)

theorem cleared_of_le (ho : PID ≤ o) : cleared stack o = stack o := by
  have hgen : ∀ (l : List Slot) (ps : Mem),
      l.foldl (fun ps i => setInt ps ISUSED i 0) ps o = ps o := by
    intro l
    induction l with
    | nil => exact fun _ => rfl
    | cons j l ih =>
      intro ps
      have hj := slot_lt j
      rw [List.foldl_cons, ih]
      refine setInt_outside (Or.inr ?_)
      unfold ISUSED PID at *
      omega
  exact hgen _ _

/-! ## The stack shows through -/

/-- **A byte that is written is the same whatever the stack held**, -/
theorem fill_of_written {stack' : Mem} (hin : InSlot i o) (hw : Written t i o) :
    fill t stack o = fill t stack' o := by
  rw [fill_apply hin, fill_apply hin]
  exact fillSlot_congr hin (Or.inl hw)

/-- **and any other byte is the stack's.** -/
theorem fill_of_not_written (hin : InSlot i o) (hw : ¬ Written t i o) :
    fill t stack o = stack o := by
  have hle : PID ≤ o := by
    unfold Written PNAME at hw
    unfold PID
    omega
  rw [fill_apply hin, fillSlot_outside fun _ => hw, cleared_of_le hle]

theorem getElem?_bytesAt {page : Mem} {off n j : ℕ} (hj : j < n) :
    (bytesAt page off n)[j]? = some (page (off + j)) := by
  rw [bytesAt, List.getElem?_map, List.getElem?_range hj, Option.map_some]

/-- A table in which every slot is in use and has a name of 14 characters. -/
def fullTable : Slot → Info := fun _ =>
  { state := .runnable, pid := 1, parent := none, name := fun o => if o < 14 then 97 else 0,
    priority := 0, sz := 0 }

/-- A table with one process, `init`. -/
def initTable : Slot → Info := fun i =>
  if i = 0 then
    { state := .running, pid := 1, parent := none,
      name := fun o => [105, 110, 105, 116].getD o 0, priority := 0, sz := 4096 }
  else { state := .unused, pid := 0, parent := none, name := fun _ => 0, priority := 0, sz := 0 }

end Pinfo
end Xv6

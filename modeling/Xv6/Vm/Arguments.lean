import Xv6.Vm.Image

/-!
# The arguments of `exec`

`kexec` copies the argument strings to the top of the new stack, one below the other, and then the
array `ustack` of pointers to them.  It computes `sp` in 64 bits and compares it with `stackbase`
after each subtraction.

`Pushed` is what the stack page holds after some of the strings, and `ArgumentBlock` is the whole.
The array `ustack` has `MAXARG` elements; here it is a list, and nothing is said about its bound.
`pushArgvChecked` is the same code with a check at every access to `ustack` and at every subtraction
from `sp`, and `kexecWith` is `kexec` with the code that copies the arguments left open, to be filled
in with or without the checks.
-/

namespace Xv6
namespace Vm

open Bytes Program

/-! ## The same code, with checks -/

section Checked

variable (fault : Panic)

/-- `sp -= n; sp -= sp % 16`, where `n > sp` is a fault. -/
def lowerSp (sp n : ℕ) : VmM ℕ := if n ≤ sp then return pushDown sp n else panic fault

/-- `ustack[argc] = v`, where `argc >= MAXARG` is a fault. -/
def setUstack (ustack : List ℕ) (v : ℕ) : VmM (List ℕ) :=
  if ustack.length < MAXARG then return ustack ++ [v] else panic fault

/-- `pushArgs`, with checks. -/
def pushArgsChecked (L : Layout) (ppt psz pagetable stackbase : ℕ) :
    List ℕ → ℕ → List ℕ → VmM (Option (ℕ × List ℕ))
  | [], sp, ustack => return some (sp, ustack)
  | arg :: argv, sp, ustack =>
    if ustack.length ≥ MAXARG then return none
    else do
      let m ← get
      let s := cString (m.mem arg) 4096
      let sp ← lowerSp fault sp (s.length + 1)
      if sp < stackbase then return none
      else
        let r ← copyout L ppt psz pagetable sp (s ++ [0])
        if r < 0 then return none
        else
          let ustack ← setUstack fault ustack sp
          pushArgsChecked L ppt psz pagetable stackbase argv sp ustack

/-- `pushArgv`, with checks. -/
def pushArgvChecked (L : Layout) (ppt psz pagetable sz : ℕ) (argv : List ℕ) :
    VmM (Option (ℕ × ℕ)) := do
  let stackbase := sz - USERSTACK * 4096
  match ← pushArgsChecked fault L ppt psz pagetable stackbase argv sz [] with
  | none => return none
  | some (sp, ustack) =>
    let pointers ← setUstack fault ustack 0
    let sp ← lowerSp fault sp ((ustack.length + 1) * 8)
    if sp < stackbase then return none
    else
      let r ← copyout L ppt psz pagetable sp (pointers.flatMap wordBytes)
      if r < 0 then return none
      else return some (sp, ustack.length)

end Checked

/-- Code that copies the arguments: what it is given are the page table and the size of the process,
and those of the new image. -/
abbrev Push := ℕ → ℕ → ℕ → ℕ → VmM (Option (ℕ × ℕ))

/-- `kexecStack`, with `push` for the arguments. -/
def kexecStackWith (push : Push) (L : Layout) (i : Fin NPROC) (path : List UInt8)
    (pagetable sz entry : ℕ) : KernM ℤ := do
  let p ← getProc i
  let sz := pgRoundUp sz
  let sz1 ← onPhys (uvmalloc L pagetable sz (u64 (sz + (USERSTACK + 1) * 4096)) PTE_W)
  if sz1 = 0 then bad L pagetable sz none
  else
    onPhys (uvmclear pagetable (sz1 - (USERSTACK + 1) * 4096))
    match ← onPhys (push p.pagetable p.sz pagetable sz1) with
    | none => bad L pagetable sz1 none
    | some (sp, argc) =>
      commitImage L i path pagetable sz1 entry sp
      return argc

/-- `kexec`, with `push` for the arguments. -/
def kexecWith (push : Push) (L : Layout) (namei : List UInt8 → Option File) (i : Fin NPROC)
    (path : List UInt8) : KernM ℤ := do
  beginOp
  match namei path with
  | none =>
    endOp
    return -1
  | some ip =>
    iget ip
    ilock ip
    let bs := readi ip 0 ELFHDR_SIZE
    let elf := Elfhdr.decode bs
    if bs.length ≠ ELFHDR_SIZE then bad L 0 0 (some ip)
    else if elf.magic ≠ ELF_MAGIC then bad L 0 0 (some ip)
    else
      let p ← getProc i
      let pagetable ← onPhys (procPagetable L p.trapframe)
      if pagetable = 0 then bad L 0 0 (some ip)
      else
        let (ok, sz) ← onPhys (loadSegments L ip pagetable elf.phnum (u32 elf.phoff) 0)
        if !ok then bad L pagetable sz (some ip)
        else
          iunlockput ip
          endOp
          kexecStackWith push L i path pagetable sz elf.entry

variable {L : Layout} {namei : List UInt8 → Option File} {i : Fin NPROC} {path : List UInt8}
  {argv : List ℕ}

theorem kexec_eq : kexec L namei i path argv =
    kexecWith (fun ppt psz pt sz => pushArgv L ppt psz pt sz argv) L namei i path := rfl

/-- `kexec`, with checks. -/
def kexecChecked (fault : Panic) (L : Layout) (namei : List UInt8 → Option File) (i : Fin NPROC)
    (path : List UInt8) (argv : List ℕ) : KernM ℤ :=
  kexecWith (fun ppt psz pt sz => pushArgvChecked fault L ppt psz pt sz argv) L namei i path

variable {m m' : Phys} {H R : Set ℕ} {r : ℕ}

/-! ## Bytes of the stack -/

/-- The bytes `bs` are at `va`. -/
def HasBytes (byte : ℕ → Option UInt8) (va : ℕ) (bs : List UInt8) : Prop :=
  ∀ j < bs.length, byte (va + j) = bs[j]?

/-- The bytes of a page at `b`, by their virtual address. -/
def stackByte (b : ℕ) (page : Mem) (va : ℕ) : Option UInt8 :=
  if b ≤ va ∧ va < b + 4096 then some (page (va - b)) else none

section HasBytes

variable {byte byte' : ℕ → Option UInt8} {b va dst : ℕ} {page : Mem} {bs bs' : List UInt8}

theorem HasBytes.congr (h : HasBytes byte va bs)
    (hbyte : ∀ a, va ≤ a → a < va + bs.length → byte' a = byte a) : HasBytes byte' va bs := by
  intro j hj
  rw [hbyte (va + j) (by omega) (by omega)]
  exact h j hj

theorem hasBytes_overlay (hlo : b ≤ dst) (hhi : dst + bs.length ≤ b + 4096) :
    HasBytes (stackByte b (overlay page (dst - b) bs)) dst bs := by
  intro j hj
  rw [stackByte, if_pos (by omega), overlay, if_pos (by omega), List.getD_eq_getElem?_getD,
    show dst + j - b - (dst - b) = j by omega, List.getElem?_eq_getElem hj, Option.getD_some]

theorem HasBytes.kept (h : HasBytes (stackByte b page) va bs) (hlo : b ≤ dst)
    (habove : dst + bs'.length ≤ va) :
    HasBytes (stackByte b (overlay page (dst - b) bs')) va bs := by
  refine h.congr fun a ha _ => ?_
  rw [stackByte, stackByte, overlay]
  split
  · rw [if_neg (by omega)]
  · rfl

end HasBytes

theorem length_wordBytes (v : ℕ) : (wordBytes v).length = 8 := by
  rw [wordBytes, List.length_map, List.length_range]

theorem length_flatMap_wordBytes (l : List ℕ) : (l.flatMap wordBytes).length = 8 * l.length := by
  induction l with
  | nil => rfl
  | cons v l ih =>
    rw [List.flatMap_cons, List.length_append, length_wordBytes, ih, List.length_cons]
    omega

theorem HasBytes.word {byte : ℕ → Option UInt8} {va j v : ℕ} {l : List ℕ}
    (h : HasBytes byte va (l.flatMap wordBytes)) (hv : l[j]? = some v) :
    HasBytes byte (va + 8 * j) (wordBytes v) := by
  induction l generalizing va j with
  | nil => simp at hv
  | cons w l ih =>
    have hlen := length_wordBytes w
    rw [List.flatMap_cons] at h
    cases j with
    | zero =>
      obtain rfl : w = v := by simpa using hv
      intro o ho
      rw [Nat.mul_zero, Nat.add_zero, h o (by rw [List.length_append]; omega),
        List.getElem?_append_left ho]
    | succ j =>
      have htail : HasBytes byte (va + 8) (l.flatMap wordBytes) := by
        intro o ho
        have hbyte := h (8 + o) (by rw [List.length_append]; omega)
        rw [List.getElem?_append_right (by omega), hlen, Nat.add_sub_cancel_left, ← Nat.add_assoc]
          at hbyte
        exact hbyte
      have hword := ih htail (by simpa using hv)
      rw [Nat.mul_succ, Nat.add_comm (8 * j) 8, ← Nat.add_assoc]
      exact hword

/-! ## Going down -/

/-- The next multiple of 16. -/
def align16 (n : ℕ) : ℕ := (n + 15) / 16 * 16

/-- From an aligned `sp`, `sp` goes down to the next place that is aligned. -/
theorem pushDown_eq {sp n : ℕ} (hsp : sp < 2 ^ 64) (hmod : sp % 16 = 0) (hn : n ≤ sp) :
    pushDown sp n = sp - align16 n := by
  have hu64 : u64 (sp + 2 ^ 64 - n) = sp - n := by
    rw [u64]
    omega
  rw [pushDown, hu64, align16]
  omega

theorem le_align16 (n : ℕ) : n ≤ align16 n := by
  rw [align16]
  omega

theorem align16_mod (n : ℕ) : align16 n % 16 = 0 := Nat.mul_mod_left ..

theorem align16_le {sp n : ℕ} (hmod : sp % 16 = 0) (hn : n ≤ sp) : align16 n ≤ sp := by
  rw [align16]
  omega

/-- The room that strings take. -/
def stringRoom (args : List (List UInt8)) : ℕ := (args.map fun s => align16 (s.length + 1)).sum

/-- The room that the strings and the array of pointers take. -/
def blockSize (args : List (List UInt8)) : ℕ := stringRoom args + align16 (8 * (args.length + 1))

theorem stringRoom_append (args : List (List UInt8)) (s : List UInt8) :
    stringRoom (args ++ [s]) = stringRoom args + align16 (s.length + 1) := by
  simp [stringRoom]

/-! ## The strings -/

/-- Where the strings are, and how long: addresses and lengths. -/
def stringRanges (ustack : List ℕ) (args : List (List UInt8)) : List (ℕ × ℕ) :=
  List.zipWith (fun p s => (p, s.length + 1)) ustack args

/-- The strings `args` are in the page at `b`, at the addresses `ustack`, one below the other from
the top of the page down to `sp`. -/
structure Pushed (b : ℕ) (page : Mem) (sp : ℕ) (ustack : List ℕ) (args : List (List UInt8)) : Prop
    where
  room : sp + stringRoom args = b + 4096
  lower : b ≤ sp
  aligned : sp % 16 = 0
  strings : List.Forall₂ (fun p s => HasBytes (stackByte b page) p (s ++ [0])) ustack args
  within : ∀ x ∈ stringRanges ustack args, sp ≤ x.1 ∧ x.1 + x.2 ≤ b + 4096
  apart : (stringRanges ustack args).Pairwise fun x y => y.1 + y.2 ≤ x.1

section Pushed

variable {b sp dst : ℕ} {page : Mem} {ustack : List ℕ} {args : List (List UInt8)}

theorem Pushed.nil (hb : b % 4096 = 0) : Pushed b page (b + 4096) [] [] where
  room := rfl
  lower := by omega
  aligned := by omega
  strings := .nil
  within := by simp [stringRanges]
  apart := .nil

theorem Pushed.length_eq (h : Pushed b page sp ustack args) : ustack.length = args.length :=
  h.strings.length_eq

theorem stringRanges_append {p : ℕ} {s : List UInt8} (h : ustack.length = args.length) :
    stringRanges (ustack ++ [p]) (args ++ [s]) = stringRanges ustack args ++ [(p, s.length + 1)] :=
  List.zipWith_append h

theorem Pushed.kept {bs : List UInt8} (h : Pushed b page sp ustack args) (hlo : b ≤ dst)
    (hsp : dst + bs.length ≤ sp) :
    List.Forall₂ (fun p s => HasBytes (stackByte b (overlay page (dst - b) bs)) p (s ++ [0]))
      ustack args := by
  have hall : ∀ x ∈ ustack.zip args, HasBytes (stackByte b page) x.1 (x.2 ++ [0]) ∧ sp ≤ x.1 := by
    intro x hx
    refine ⟨(List.forall₂_iff_zip.mp h.strings).2 hx, (h.within (x.1, x.2.length + 1) ?_).1⟩
    rw [stringRanges, ← List.map_uncurry_zip_eq_zipWith]
    exact List.mem_map_of_mem hx
  refine List.forall₂_iff_zip.mpr ⟨h.length_eq, fun {p s} hps => ?_⟩
  obtain ⟨hbytes, hle⟩ := hall (p, s) hps
  exact hbytes.kept hlo (le_trans hsp hle)

theorem Pushed.snoc {s : List UInt8} (h : Pushed b page sp ustack args) (hsp : sp < 2 ^ 64)
    (hn : s.length + 1 ≤ sp) (hroom : b ≤ pushDown sp (s.length + 1)) :
    Pushed b (overlay page (pushDown sp (s.length + 1) - b) (s ++ [0]))
      (pushDown sp (s.length + 1)) (ustack ++ [pushDown sp (s.length + 1)]) (args ++ [s]) := by
  have hlen := h.length_eq
  have hdown := pushDown_eq hsp h.aligned hn
  have hle := le_align16 (s.length + 1)
  have hge := align16_le h.aligned hn
  have hmod := align16_mod (s.length + 1)
  have haligned := h.aligned
  have htop := h.room
  have hlast : (s ++ [0]).length = s.length + 1 := by simp
  set dst := pushDown sp (s.length + 1) with hdst
  refine ⟨?_, hroom, by omega, ?_, ?_, ?_⟩
  · rw [stringRoom_append]
    omega
  · refine List.rel_append (h.kept hroom (by omega)) (.cons ?_ .nil)
    exact hasBytes_overlay hroom (by omega)
  · intro x hx
    rw [stringRanges_append hlen, List.mem_append, List.mem_singleton] at hx
    rcases hx with hx | rfl
    · have := h.within x hx
      omega
    · exact ⟨le_refl _, by dsimp only; omega⟩
  · rw [stringRanges_append hlen]
    refine List.pairwise_append.mpr ⟨h.apart, List.pairwise_singleton .., fun x hx y hy => ?_⟩
    obtain rfl := List.mem_singleton.mp hy
    have := (h.within x hx).1
    dsimp only
    omega

end Pushed

/-! ## The block -/

/-- The addresses and lengths of the array of pointers and of the strings. -/
def blockRanges (sp : ℕ) (ustack : List ℕ) (args : List (List UInt8)) : List (ℕ × ℕ) :=
  (sp, 8 * (args.length + 1)) :: stringRanges ustack args

/-- The arguments `args` as `main` finds them at `sp`: the array of pointers, with a null pointer at
its end, and the strings they point to, all apart and between `stackbase` and `top`. -/
structure ArgumentBlock (byte : ℕ → Option UInt8) (stackbase top : ℕ) (args : List (List UInt8))
    (sp : ℕ) (ustack : List ℕ) : Prop where
  aligned : sp % 16 = 0
  pointers : ∀ j p, (ustack ++ [0])[j]? = some p → HasBytes byte (sp + 8 * j) (wordBytes p)
  strings : List.Forall₂ (fun p s => HasBytes byte p (s ++ [0])) ustack args
  apart : (blockRanges sp ustack args).Pairwise fun x y =>
    Disjoint (Set.Ico x.1 (x.1 + x.2)) (Set.Ico y.1 (y.1 + y.2))
  inside : ∀ x ∈ blockRanges sp ustack args, stackbase ≤ x.1 ∧ x.1 + x.2 ≤ top

theorem disjoint_Ico_of_le {x y : ℕ × ℕ} (h : y.1 + y.2 ≤ x.1 ∨ x.1 + x.2 ≤ y.1) :
    Disjoint (Set.Ico x.1 (x.1 + x.2)) (Set.Ico y.1 (y.1 + y.2)) := by
  refine Set.disjoint_left.mpr fun a hx hy => ?_
  obtain ⟨hx₁, hx₂⟩ := hx
  obtain ⟨hy₁, hy₂⟩ := hy
  omega

section Block

variable {b sp : ℕ} {page : Mem} {ustack : List ℕ} {args : List (List UInt8)}

/-- **The array of pointers goes below the strings**, and they have fitted. -/
theorem Pushed.block (h : Pushed b page sp ustack args) (hsp : sp < 2 ^ 64)
    (hn : (ustack.length + 1) * 8 ≤ sp) (hroom : b ≤ pushDown sp ((ustack.length + 1) * 8)) :
    ArgumentBlock (stackByte b (overlay page (pushDown sp ((ustack.length + 1) * 8) - b)
      ((ustack ++ [0]).flatMap wordBytes))) b (b + 4096) args
      (pushDown sp ((ustack.length + 1) * 8)) ustack ∧ blockSize args ≤ 4096 := by
  have hlen := h.length_eq
  have hdown := pushDown_eq hsp h.aligned hn
  have hle := le_align16 ((ustack.length + 1) * 8)
  have hge := align16_le h.aligned hn
  have hmod := align16_mod ((ustack.length + 1) * 8)
  have haligned := h.aligned
  have htop := h.room
  have hbytes : ((ustack ++ [0]).flatMap wordBytes).length = 8 * (args.length + 1) := by
    rw [length_flatMap_wordBytes, List.length_append, List.length_singleton, hlen]
  set dst := pushDown sp ((ustack.length + 1) * 8) with hdst
  refine ⟨⟨by omega, fun j p hp => ?_, h.kept hroom (by omega), ?_, ?_⟩, ?_⟩
  · exact (hasBytes_overlay hroom (by omega)).word hp
  · refine List.pairwise_cons.mpr ⟨fun x hx => disjoint_Ico_of_le (Or.inr ?_),
      h.apart.imp fun hxy => disjoint_Ico_of_le (Or.inl hxy)⟩
    have := (h.within x hx).1
    dsimp only
    omega
  · intro x hx
    rcases List.mem_cons.mp hx with rfl | hx
    · exact ⟨hroom, by dsimp only; omega⟩
    · have := h.within x hx
      omega
  · rw [blockSize, ← hlen, Nat.mul_comm 8]
    omega

theorem ArgumentBlock.congr {byte byte' : ℕ → Option UInt8} {stackbase top : ℕ}
    (h : ArgumentBlock byte stackbase top args sp ustack)
    (hbyte : ∀ a, stackbase ≤ a → a < top → byte' a = byte a) :
    ArgumentBlock byte' stackbase top args sp ustack where
  aligned := h.aligned
  pointers := by
    intro j p hp
    refine (h.pointers j p hp).congr fun a ha hlt => ?_
    have harray := h.inside _ (List.mem_cons_self ..)
    have hj : j < ustack.length + 1 := by
      have := (List.getElem?_eq_some_iff.mp hp).1
      rwa [List.length_append, List.length_singleton] at this
    have hlen := h.strings.length_eq
    rw [length_wordBytes] at hlt
    dsimp only at harray
    exact hbyte a (by omega) (by omega)
  strings := by
    refine List.forall₂_iff_zip.mpr ⟨h.strings.length_eq, fun {p s} hps => ?_⟩
    refine ((List.forall₂_iff_zip.mp h.strings).2 hps).congr fun a ha hlt => ?_
    have hrange : (p, s.length + 1) ∈ blockRanges sp ustack args := by
      refine List.mem_cons_of_mem _ ?_
      rw [stringRanges, ← List.map_uncurry_zip_eq_zipWith]
      exact List.mem_map_of_mem hps
    have hin := h.inside _ hrange
    rw [List.length_append, List.length_singleton] at hlt
    dsimp only at hin
    exact hbyte a (by omega) (by omega)
  apart := h.apart
  inside := h.inside

end Block

/-! ## Copying the arguments -/

/-- What is in the page at `b`. -/
def pageAt (m : Phys) (r b : ℕ) : Mem := m.mem (pte2pa (lookup m.mem r b))

theorem pushDown_le {sp n : ℕ} (hsp : sp < 2 ^ 64) (hn : n ≤ sp) : pushDown sp n + n ≤ sp := by
  have hu64 : u64 (sp + 2 ^ 64 - n) = sp - n := by
    rw [u64]
    omega
  rw [pushDown, hu64]
  omega

section Push

variable {b ppt psz : ℕ} (hr : r ∈ R) (hmod : b % 4096 = 0) (hlo : 4096 ≤ b)
  (hhi : b + 4096 ≤ TRAPFRAME)

include hr hmod hlo hhi

theorem copyout_stack {sp n : ℕ} {src : List UInt8} (h : Space L m H R) (hstack : StackPage m r b)
    (hsp : sp ≤ b + 4096) (hge : b ≤ sp) (hn : n ≤ 4096) (hpos : 0 < n) (hsrc : src.length ≤ n)
    (hroom : b ≤ pushDown sp n) :
    Ensures (copyout L ppt psz r (pushDown sp n) src) m fun res m' =>
      res = 0 ∧ Quiet L H R r m m' ∧
        pageAt m' r b = overlay (pageAt m r b) (pushDown sp n - b) src := by
  have hframe := TRAPFRAME_eq
  have hdown : pushDown sp n + n ≤ sp := pushDown_le (by omega) (by omega)
  have hpage : pgRoundDown (pushDown sp n) = b := by
    rw [pgRoundDown]
    omega
  obtain ⟨hV, hU, hW⟩ := hstack
  rw [← hpage] at hV hU hW
  refine (copyout_page h hr (by omega) hV hU hW (by omega)).mono fun res m' hres => ?_
  rw [hpage] at hres
  obtain ⟨rfl, hquiet, hbytes⟩ := hres
  refine ⟨rfl, hquiet, ?_⟩
  rw [pageAt, hquiet.lookup_eq r hr b]
  exact hbytes

/-- **The argument strings** go to the stack page, as long as there is room. -/
theorem pushArgs_spec (argv : List ℕ) (hargv : ∀ a ∈ argv, a ∈ H)
    (hnul : ∀ a ∈ argv, (cString (m.mem a) 4096).length < 4096) {sp : ℕ} (ustack : List ℕ)
    (args : List (List UInt8)) (h : Space L m H R) (hstack : StackPage m r b)
    (hpushed : Pushed b (pageAt m r b) sp ustack args) (hlen : ustack.length ≤ MAXARG) :
    Ensures (pushArgs L ppt psz r b argv sp ustack) m fun res m' => Quiet L H R r m m' ∧
      ∀ sp' ustack', res = some (sp', ustack') → ustack'.length ≤ MAXARG ∧
        Pushed b (pageAt m' r b) sp' ustack'
          (args ++ argv.map fun a => cString (m.mem a) 4096) := by
  have hframe := TRAPFRAME_eq
  induction argv generalizing sp ustack args m with
  | nil =>
    refine .pure ⟨.refl h, ?_⟩
    rintro sp' ustack' ⟨⟩
    rw [List.map_nil, List.append_nil]
    exact ⟨hlen, hpushed⟩
  | cons a argv ih =>
    have hroom₀ := hpushed.room
    have hge := hpushed.lower
    have hs : (cString (m.mem a) 4096).length < 4096 := hnul a (List.mem_cons_self ..)
    rw [pushArgs]
    refine .ite (fun _ => .pure ⟨.refl h, by simp⟩) fun hmax => .get_bind ?_
    set s := cString (m.mem a) 4096 with hsdef
    have hdown : pushDown sp (s.length + 1) + (s.length + 1) ≤ sp :=
      pushDown_le (by omega) (by omega)
    refine .ite (fun _ => .pure ⟨.refl h, by simp⟩) fun hroom => ?_
    refine .bind (copyout_stack hr hmod hlo hhi h hstack (by omega) hge (n := s.length + 1)
      (by omega) (by omega) (by simp) (by omega)) ?_
    rintro res m₁ ⟨rfl, hquiet, hbytes⟩
    refine .ite (fun h0 => absurd h0 (by decide)) fun _ => ?_
    have hpushed₁ := hpushed.snoc (s := s) (by omega) (by omega) (by omega)
    rw [← hbytes] at hpushed₁
    -- the pages of the remaining arguments have not been touched
    have hkeep : ∀ a' ∈ argv, m₁.mem a' = m.mem a' := fun a' ha' =>
      hquiet.frame a' (Or.inl (hargv a' (List.mem_cons_of_mem _ ha')))
    have hsame : argv.map (fun a => cString (m₁.mem a) 4096) =
        argv.map fun a => cString (m.mem a) 4096 :=
      List.map_congr_left fun a' ha' => by rw [hkeep a' ha']
    refine (ih (fun a' ha' => hargv a' (List.mem_cons_of_mem _ ha')) (fun a' ha' => ?_) _ _
      hquiet.space (hstack.congr fun va => hquiet.lookup_eq r hr va) hpushed₁ ?_).mono ?_
    · rw [hkeep a' ha']
      exact hnul a' (List.mem_cons_of_mem _ ha')
    · rw [List.length_append, List.length_singleton]
      omega
    · rintro res m₂ ⟨hquiet₂, hres⟩
      rw [hsame, List.append_assoc] at hres
      exact ⟨hquiet.trans hquiet₂, hres⟩

/-- **The arguments** go to the stack page, or there is no room for them. -/
theorem pushArgv_spec (argv : List ℕ) (hargv : ∀ a ∈ argv, a ∈ H)
    (hnul : ∀ a ∈ argv, (cString (m.mem a) 4096).length < 4096) (h : Space L m H R)
    (hstack : StackPage m r b) :
    Ensures (pushArgv L ppt psz r (b + 4096) argv) m fun res m' => Quiet L H R r m m' ∧
      ∀ sp argc, res = some (sp, argc) → argc = argv.length ∧
        blockSize (argv.map fun a => cString (m.mem a) 4096) ≤ 4096 ∧
        ∃ ustack, ArgumentBlock (stackByte b (pageAt m' r b)) b (b + 4096)
          (argv.map fun a => cString (m.mem a) 4096) sp ustack := by
  have hframe := TRAPFRAME_eq
  have hbase : b + 4096 - USERSTACK * 4096 = b := by
    rw [USERSTACK]
    omega
  rw [pushArgv, hbase]
  refine .bind (pushArgs_spec hr hmod hlo hhi argv hargv hnul [] [] h hstack (.nil hmod)
    (by simp)) ?_
  rintro (_ | ⟨sp, ustack⟩) m₁ ⟨hquiet, hres⟩
  · exact .pure ⟨hquiet, by simp⟩
  · obtain ⟨hlen, hpushed⟩ := hres sp ustack rfl
    have hlen : ustack.length ≤ 32 := hlen
    have hroom₀ := hpushed.room
    have hge := hpushed.lower
    refine .ite (fun _ => .pure ⟨hquiet, by simp⟩) fun hroom => ?_
    refine .bind (copyout_stack hr hmod hlo hhi hquiet.space
      (hstack.congr fun va => hquiet.lookup_eq r hr va) (by omega) hge (by omega) (by omega) ?_
      (by omega)) ?_
    · rw [length_flatMap_wordBytes, List.length_append, List.length_singleton]
      omega
    · rintro res m₂ ⟨rfl, hquiet₂, hbytes⟩
      refine .ite (fun _ => .pure ⟨hquiet.trans hquiet₂, by simp⟩) fun _ =>
        .pure ⟨hquiet.trans hquiet₂, ?_⟩
      rintro sp' argc ⟨⟩
      obtain ⟨hblock, hsize⟩ := hpushed.block (by omega) (by omega) (by omega)
      rw [← hbytes] at hblock
      refine ⟨?_, hsize, ustack, hblock⟩
      rw [hpushed.length_eq, List.nil_append, List.length_map]

/-! ## The checks never fail -/

variable {fault : Panic}

/-- **The checks of the loop**: with fewer than `MAXARG` arguments no access is outside of `ustack`,
and `sp`, which is in the stack page before every push, is larger than a string. -/
theorem pushArgsChecked_eq (argv : List ℕ) (hargv : ∀ a ∈ argv, a ∈ H)
    (hnul : ∀ a ∈ argv, (cString (m.mem a) 4096).length < 4096) {sp : ℕ} (ustack : List ℕ)
    (h : Space L m H R) (hstack : StackPage m r b) (hsp : sp ≤ b + 4096) (hge : b ≤ sp)
    (hlen : ustack.length + argv.length < MAXARG) :
    pushArgsChecked fault L ppt psz r b argv sp ustack m = pushArgs L ppt psz r b argv sp ustack m
    := by
  have hframe := TRAPFRAME_eq
  induction argv generalizing sp ustack m with
  | nil => rfl
  | cons a argv ih =>
    rw [List.length_cons] at hlen
    have hs : (cString (m.mem a) 4096).length < 4096 := hnul a (List.mem_cons_self ..)
    rw [pushArgsChecked, pushArgs, if_neg (by omega), if_neg (by omega)]
    refine Ensures.bind_congr (P := fun a m' => a = m ∧ m' = m) (.get ⟨rfl, rfl⟩) ?_
    intro x m' hx
    rw [hx.1, hx.2]
    set s := cString (m.mem a) 4096 with hsdef
    have hdown : pushDown sp (s.length + 1) + (s.length + 1) ≤ sp :=
      pushDown_le (by omega) (by omega)
    rw [lowerSp, if_pos (by omega), pure_bind]
    split
    · rfl
    · refine Ensures.bind_congr (copyout_stack hr hmod hlo hhi h hstack hsp hge
        (n := s.length + 1) (by omega) (by omega) (by simp) (by omega)) ?_
      rintro res m₁ ⟨rfl, hquiet, -⟩
      have hkeep : ∀ a' ∈ argv, m₁.mem a' = m.mem a' := fun a' ha' =>
        hquiet.frame a' (Or.inl (hargv a' (List.mem_cons_of_mem _ ha')))
      rw [if_neg (by decide), if_neg (by decide), setUstack, if_pos (by omega), pure_bind]
      refine ih (fun a' ha' => hargv a' (List.mem_cons_of_mem _ ha')) (fun a' ha' => ?_) _
        hquiet.space (hstack.congr fun va => hquiet.lookup_eq r hr va) (by omega) (by omega) ?_
      · rw [hkeep a' ha']
        exact hnul a' (List.mem_cons_of_mem _ ha')
      · rw [List.length_append, List.length_singleton]
        omega

theorem pushArgvChecked_eq (argv : List ℕ) (hargv : ∀ a ∈ argv, a ∈ H)
    (hnul : ∀ a ∈ argv, (cString (m.mem a) 4096).length < 4096) (h : Space L m H R)
    (hstack : StackPage m r b) (hlen : argv.length < MAXARG) :
    pushArgvChecked fault L ppt psz r (b + 4096) argv m = pushArgv L ppt psz r (b + 4096) argv m
    := by
  have hframe := TRAPFRAME_eq
  have hbase : b + 4096 - USERSTACK * 4096 = b := by
    rw [USERSTACK]
    omega
  have hloop : ∀ f : Option (ℕ × List ℕ) → VmM (Option (ℕ × ℕ)),
      (pushArgsChecked fault L ppt psz r b argv (b + 4096) [] >>= f) m =
        (pushArgs L ppt psz r b argv (b + 4096) [] >>= f) m := by
    intro f
    change (pushArgsChecked fault L ppt psz r b argv (b + 4096) [] m >>= fun p => f p.1 p.2) = _
    rw [pushArgsChecked_eq hr hmod hlo hhi argv hargv hnul [] h hstack (le_refl _) (by omega)
      (by simpa using hlen)]
    rfl
  rw [pushArgvChecked, pushArgv, hbase, hloop]
  refine Ensures.bind_congr (pushArgs_spec hr hmod hlo hhi argv hargv hnul [] [] h hstack
    (.nil hmod) (by simp)) ?_
  rintro (_ | ⟨sp, ustack⟩) m₁ ⟨-, hres⟩
  · rfl
  · obtain ⟨-, hpushed⟩ := hres sp ustack rfl
    have hcount : ustack.length = argv.length := by
      rw [hpushed.length_eq, List.nil_append, List.length_map]
    have hcount' : argv.length < 32 := hlen
    have hge := hpushed.lower
    dsimp only
    rw [setUstack, if_pos (by omega), pure_bind, lowerSp, if_pos (by omega), pure_bind]

end Push

end Vm
end Xv6

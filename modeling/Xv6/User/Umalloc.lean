import Xv6.Lib.FreeList
import Xv6.Lib.Transition
import Xv6.Param
import Xv6.Vm.Riscv

/-!
# The user heap

`malloc`, `free` and `morecore` of `user/umalloc.c`: free blocks are on a circular list in the order of
their addresses, which begins with the static header `base`; `free` puts a block in its place and joins it
with its neighbours, and `malloc` takes the first block that is large enough, from its tail.

The memory of the process is seen as headers: `hdr a` is the header at address `a`.  Both searches follow
pointers, so they have fuel; that there is always enough of it is part of what is proved.

A heap is `Inv` for a list of live blocks if these and the free blocks are apart and make up what was
obtained from `sbrk`.  Memory that `sbrk` has just returned is a live block that `morecore` frees at once.
-/

namespace Xv6.Umalloc

open FreeList Transition

variable {a p n q nu m k : ℕ} {t : State}

/-! ## The allocator -/

/-- `sizeof(Header)` -/
abbrev HEADER : ℕ := 16

/-- No process has more memory than the machine. -/
abbrev MEMORY : ℕ := Vm.PHYSTOP - Vm.KERNBASE

theorem MEMORY_eq : MEMORY = 134217728 := rfl

/-- The memory of a process as the allocator sees it, `freep`, and the end of the memory. -/
structure Heap where
  hdr : ℕ → Cell
  freep : ℕ
  brk : ℕ

/-- The header of `a` in front of the block `b`: the sizes, which are `uint`s, are added if the blocks
touch. -/
def coalesce (h : ℕ → Cell) (a b : ℕ) : Cell :=
  if a + HEADER * (h a).size = b then ⟨(h b).ptr, ((h a).size + (h b).size) % UINT⟩
  else ⟨b, (h a).size⟩

/-- The two joins of `free`, of the block `bp` behind `p`. -/
def splice (h : ℕ → Cell) (p bp : ℕ) : ℕ → Cell :=
  let h := Function.update h bp (coalesce h bp (h p).ptr)
  Function.update h p (coalesce h p bp)

/-- `free(ap)` -/
def free (fuel : ℕ) (s : Heap) (ap : ℕ) : Option Heap :=
  let bp := ap - HEADER
  (seek s.hdr (isGap s.hdr bp) fuel s.freep).map fun p =>
    { s with hdr := splice s.hdr p bp, freep := p }

/-- `sbrk(n)`: the old end of the memory.  The pages are allocated at once, so that there must be memory
for them; `ok` is whether the kernel has it now.  With a negative `n` the memory shrinks, unless that would
be by more than there is: the size then wraps around, and `uvmdealloc` does nothing. -/
def sbrk (s : Heap) (n : ℤ) (ok : Bool) : Option (ℕ × Heap) :=
  if 0 < n then
    if ok ∧ s.brk + n ≤ MEMORY then some (s.brk, { s with brk := (s.brk + n).toNat }) else none
  else some (s.brk, if 0 ≤ s.brk + n then { s with brk := (s.brk + n).toNat } else s)

/-- `morecore(nu)`, which returns `freep`, or a null pointer -/
def morecore (fuel : ℕ) (s : Heap) (nu : ℕ) (ok : Bool) : Option (Heap × Option ℕ) :=
  let nu := if nu < 4096 then 4096 else nu
  match sbrk s (cInt (nu * HEADER : ℕ)) ok with
  | none => some (s, none)
  | some (p, s) =>
    let s := { s with hdr := Function.update s.hdr p { s.hdr p with size := nu } }
    (free fuel s (p + HEADER)).map fun s => (s, some s.freep)

/-- `malloc` has found the block `p`, which is behind `prevp`: a block of the right size leaves the list,
and a larger one gives up its tail. -/
def take (s : Heap) (nunits prevp p : ℕ) : Heap × ℕ :=
  if (s.hdr p).size = nunits then
    ({ s with hdr := Function.update s.hdr prevp { s.hdr prevp with ptr := (s.hdr p).ptr },
              freep := prevp }, p + HEADER)
  else
    let size := (s.hdr p).size - nunits
    let h := Function.update s.hdr p { s.hdr p with size := size }
    let p := p + HEADER * size
    ({ s with hdr := Function.update h p { h p with size := nunits }, freep := prevp }, p + HEADER)

/-- The loop of `malloc`. -/
def mallocLoop (nunits : ℕ) (ok : Bool) : ℕ → Heap → ℕ → ℕ → Option (Heap × ℕ)
  | 0, _, _, _ => none
  | fuel + 1, s, prevp, p =>
    if nunits ≤ (s.hdr p).size then some (take s nunits prevp p)
    else if p = s.freep then
      (morecore fuel s nunits ok).bind fun r =>
        match r.2 with
        | none => some (r.1, 0)
        | some p => mallocLoop nunits ok fuel r.1 p (r.1.hdr p).ptr
    else mallocLoop nunits ok fuel s p (s.hdr p).ptr

/-- The number of units of a request, with the header. -/
def nunits (nbytes : ℕ) : ℕ := ((nbytes + HEADER - 1) / HEADER + 1) % UINT

/-- The first call makes a list of `base` alone. -/
def setup (base : ℕ) (s : Heap) : Heap :=
  if s.freep = 0 then { s with hdr := Function.update s.hdr base ⟨base, 0⟩, freep := base } else s

/-- `malloc(nbytes)` -/
def malloc (base fuel : ℕ) (s : Heap) (nbytes : ℕ) (ok : Bool) : Option (Heap × ℕ) :=
  let s := setup base s
  mallocLoop (nunits nbytes) ok fuel s s.freep (s.hdr s.freep).ptr

/-! ## Programs that use it -/

/-- A block, with its header. -/
structure Block where
  addr : ℕ
  units : ℕ
  deriving DecidableEq

def Block.stop (b : Block) : ℕ := b.addr + HEADER * b.units

def Block.Has (b : Block) (x : ℕ) : Prop := b.addr ≤ x ∧ x < b.stop

instance (b : Block) (x : ℕ) : Decidable (b.Has x) := inferInstanceAs (Decidable (_ ∧ _))

/-- The heap and the blocks that `malloc` has returned and that have not been freed. -/
structure State extends Heap where
  live : List Block

inductive Action where
  /-- `malloc(nbytes)`; `ok` is whether the kernel has memory -/
  | malloc (nbytes : ℕ) (ok : Bool)
  /-- `free` of what `malloc` has returned for the block `b` -/
  | free (b : Block)
  /-- the program writes into memory that it has allocated -/
  | write (a : ℕ) (c : Cell)

/-- `malloc` takes a `uint`, a block is freed once, and a program writes behind the headers of its
blocks. -/
def Enabled (s : State) : Action → Prop
  | .malloc nbytes _ => nbytes < UINT
  | .free b => b ∈ s.live
  | .write a _ => ∃ b ∈ s.live, b.addr ≠ a ∧ b.Has a

instance (s : State) : (a : Action) → Decidable (Enabled s a)
  | .malloc nbytes _ => inferInstanceAs (Decidable (nbytes < UINT))
  | .free b => inferInstanceAs (Decidable (b ∈ s.live))
  | .write a _ => inferInstanceAs (Decidable (∃ b ∈ s.live, b.addr ≠ a ∧ b.Has a))

/-- What a program does with the heap. -/
def step (base fuel : ℕ) (s : State) : Action → Option State
  | .malloc nbytes ok =>
    (malloc base fuel s.toHeap nbytes ok).map fun r =>
      ⟨r.1, if r.2 = 0 then s.live else ⟨r.2 - HEADER, nunits nbytes⟩ :: s.live⟩
  | .free b => (free fuel s.toHeap (b.addr + HEADER)).map fun h => ⟨h, s.live.erase b⟩
  | .write a c => some { s with hdr := Function.update s.hdr a c }

/-- A call that returns. -/
def Step (base : ℕ) (s : State) (a : Action) (s' : State) : Prop :=
  Enabled s a ∧ ∃ fuel, step base fuel s a = some s'

/-- A request that `malloc` passes on to `morecore` is for less than 2^31 bytes. -/
def Small (_ : State) : Action → Prop
  | .malloc nbytes _ => max 4096 (nunits nbytes) * HEADER < 2 ^ 31
  | _ => True

instance (s : State) : (a : Action) → Decidable (Small s a)
  | .malloc nbytes _ => inferInstanceAs (Decidable (max 4096 (nunits nbytes) * HEADER < 2 ^ 31))
  | .free _ | .write _ _ => inferInstanceAs (Decidable True)

/-! ## The free list -/

/-- The free blocks: a circle in the order of the addresses, in which `base` is the only block without
memory. -/
structure Pool (base : ℕ) (s : Heap) (c : List ℕ) : Prop where
  ring : Ring HEADER s.hdr base c
  base_size : (s.hdr base).size = 0
  pos : ∀ a ∈ c, a ≠ base → 0 < (s.hdr a).size
  freep : s.freep ∈ c

variable {base start : ℕ} {s s' : Heap} {c c' : List ℕ} {b : Block} {live : List Block}

theorem Pool.covers_self (hp : Pool base s c) (ha : a ∈ c) (hne : a ≠ base) :
    Covers HEADER s.hdr c a :=
  ⟨a, ha, Nat.le_refl a, lt_stop (by decide) (hp.pos a ha hne)⟩

theorem Pool.base_mem (hp : Pool base s c) : base ∈ c := List.mem_of_mem_head? hp.ring.head

theorem Pool.not_covers_base (hp : Pool base s c) : ¬ Covers HEADER s.hdr c base := by
  rintro ⟨a, ha, hle, hlt⟩
  obtain rfl : a = base := Nat.le_antisymm hle (hp.ring.base_le ha)
  rw [FreeList.stop, hp.base_size] at hlt
  exact Nat.lt_irrefl _ hlt

theorem size_le_units {h : ℕ → Cell} (ha : a ∈ c) : (h a).size ≤ units h c :=
  List.le_sum_of_mem (List.mem_map_of_mem ha)

theorem splice_eq {h : ℕ → Cell} {bp : ℕ} (hp : (h p).size ≤ n) (hbp : (h bp).size ≤ n)
    (hnext : (h (h p).ptr).size ≤ n) (hn : 4 * n < UINT) :
    splice h p bp = FreeList.insert HEADER h p bp := by
  have hco : ∀ (g : ℕ → Cell) (a b : ℕ), (g a).size + (g b).size < UINT →
      coalesce g a b = join HEADER g a b := by
    intro g a b hlt
    rw [coalesce, join, stop, Nat.mod_eq_of_lt hlt]
  have h₁ : coalesce h bp (h p).ptr = join HEADER h bp (h p).ptr := hco _ _ _ (by omega)
  have hsize : (join HEADER h bp (h p).ptr).size ≤ 2 * n := by
    rw [join]
    split_ifs
    · exact (Nat.add_le_add hbp hnext).trans (by omega)
    · exact hbp.trans (by omega)
  rw [splice, FreeList.insert, h₁]
  refine congrArg _ (hco _ _ _ ?_)
  rw [Function.update_self, Function.update_apply]
  split_ifs <;> omega

/-- `free` of a block outside of the list: it is now free, and other headers are what they were. -/
structure Freed (base : ℕ) (s : Heap) (c : List ℕ) (b : Block) (s' : Heap) (c' : List ℕ) : Prop where
  pool : Pool base s' c'
  covers : ∀ x, Covers HEADER s'.hdr c' x ↔ Covers HEADER s.hdr c x ∨ b.Has x
  units : units s'.hdr c' = units s.hdr c + b.units
  same : ∀ a, a ∉ c → a ≠ b.addr → s'.hdr a = s.hdr a
  brk : s'.brk = s.brk

theorem Pool.free (hp : Pool base s c) (hbase : base < b.addr) (hpos : 0 < b.units)
    (hsize : (s.hdr b.addr).size = b.units) (hout : ∀ x, b.Has x → ¬ Covers HEADER s.hdr c x)
    (hbound : 4 * (units s.hdr c + b.units) < UINT) :
    ∃ s' c', free c.length s (b.addr + HEADER) = some s' ∧ Freed base s c b s' c' := by
  have hstop : FreeList.stop HEADER s.hdr b.addr = b.stop := by
    rw [FreeList.stop, hsize, Block.stop]
  have hself : b.Has b.addr := ⟨Nat.le_refl _, by
    rw [← hstop]
    exact lt_stop (by decide) (hsize ▸ hpos)⟩
  have hnew : b.addr ∉ c := fun hmem =>
    hout _ hself (hp.covers_self hmem (Nat.ne_of_gt hbase))
  obtain ⟨pre, p, post, rfl, hlt, hgt⟩ := hp.ring.exists_place hbase hnew
  have hseek := hp.ring.seek_isGap hbase hlt hgt hp.freep (Nat.le_refl _)
  -- blocks in front end before the block begins, and blocks behind begin after it has ended
  have hpre : ∀ a ∈ pre ++ [p], FreeList.stop HEADER s.hdr a ≤ b.addr := by
    intro a ha
    refine Nat.le_of_not_lt fun hcov => ?_
    have hap : a ≤ p := by
      rcases List.mem_append.mp ha with ha | ha
      · exact (le_stop HEADER s.hdr a).trans (hp.ring.lt_of_append.1 a ha).le
      · exact (List.mem_singleton.mp ha).le
    have hmem : a ∈ pre ++ p :: post := by
      rw [List.append_cons]
      exact List.mem_append_left post ha
    exact hout _ hself ⟨a, hmem, hap.trans hlt.le, hcov⟩
  have hpost : ∀ a ∈ post, FreeList.stop HEADER s.hdr b.addr ≤ a := by
    intro a ha
    refine Nat.le_of_not_lt fun hcov => ?_
    rw [hstop] at hcov
    have hmem : a ∈ pre ++ p :: post := by simp [ha]
    exact hout a ⟨(hgt a ha).le, hcov⟩
      (hp.covers_self hmem (Nat.ne_of_gt (hbase.trans (hgt a ha))))
  obtain ⟨c', hins, hpc'⟩ := hp.ring.insert hbase hpre hpost hnew
  have hp_mem : p ∈ pre ++ p :: post := by simp
  have hnext_mem : (s.hdr p).ptr ∈ pre ++ p :: post := by
    rw [hp.ring.ptr_eq]
    cases post with
    | nil => exact List.mem_of_mem_head? hp.ring.head
    | cons a post => simp
  have hsplice : splice s.hdr p b.addr = FreeList.insert HEADER s.hdr p b.addr := by
    refine splice_eq ((size_le_units hp_mem).trans (Nat.le_add_right _ b.units)) ?_
      ((size_le_units hnext_mem).trans (Nat.le_add_right _ b.units)) hbound
    rw [hsize]
    exact Nat.le_add_left ..
  refine ⟨⟨FreeList.insert HEADER s.hdr p b.addr, p, s.brk⟩, c', ?_,
    ⟨hins.ring, ?_, ?_, hpc'⟩, ?_, ?_, hins.same, rfl⟩
  · rw [Umalloc.free, Nat.add_sub_cancel, hseek, Option.map_some, hsplice]
  · refine Nat.eq_zero_of_not_pos fun hgrown => ?_
    have hcov := (hins.covers base).mp
      ⟨base, List.mem_of_mem_head? hins.ring.head, Nat.le_refl _, lt_stop (by decide) hgrown⟩
    rcases hcov with hcov | hcov
    · exact hp.not_covers_base hcov
    · exact Nat.not_lt_of_le hcov.1 hbase
  · intro a ha hne
    refine Nat.lt_of_lt_of_le ?_ (hins.size_le a ha)
    rcases hins.mem a ha with rfl | hmem
    · rw [hsize]
      exact hpos
    · exact hp.pos a hmem hne
  · intro x
    rw [hins.covers, hstop]
    rfl
  · rw [hins.units, hsize]

/-- `malloc` has taken a block from the list. -/
structure Taken (base : ℕ) (s : Heap) (c : List ℕ) (b : Block) (s' : Heap) (c' : List ℕ) : Prop where
  pool : Pool base s' c'
  covers : ∀ x, Covers HEADER s.hdr c x ↔ Covers HEADER s'.hdr c' x ∨ b.Has x
  out : ∀ x, b.Has x → ¬ Covers HEADER s'.hdr c' x
  units : FreeList.units s.hdr c = FreeList.units s'.hdr c' + b.units
  size : (s'.hdr b.addr).size = b.units
  same : ∀ a, a ∉ c → a ≠ b.addr → s'.hdr a = s.hdr a
  brk : s'.brk = s.brk

theorem Pool.exists_behind (hp : Pool base s c) (hq : q ∈ c) (hptr : (s.hdr q).ptr = p)
    (hne : p ≠ base) : ∃ pre post, c = pre ++ q :: p :: post := by
  obtain ⟨pre, post, rfl⟩ := List.append_of_mem hq
  have hhead := hp.ring.ptr_eq
  cases post with
  | nil => exact absurd (hptr.symm.trans hhead) hne
  | cons a post =>
    obtain rfl : p = a := hptr.symm.trans hhead
    exact ⟨pre, post, rfl⟩

theorem Pool.unlink {pre post : List ℕ} (hp : Pool base s (pre ++ q :: p :: post))
    (hsize : (s.hdr p).size = n) :
    Taken base s (pre ++ q :: p :: post) ⟨p, n⟩ (take s n q p).1 (pre ++ q :: post) := by
  obtain ⟨hring, hcov, hunits⟩ := hp.ring.remove
  have hqp : q < p := (le_stop HEADER s.hdr q).trans_lt (hp.ring.lt_of_append.2 p List.mem_cons_self)
  have htake : (take s n q p).1 =
      ⟨Function.update s.hdr q ⟨(s.hdr p).ptr, (s.hdr q).size⟩, q, s.brk⟩ := by
    rw [take, if_pos hsize]
  have hsizes : ∀ a, (Function.update s.hdr q ⟨(s.hdr p).ptr, (s.hdr q).size⟩ a).size =
      (s.hdr a).size := by
    intro a
    rw [Function.update_apply]
    split_ifs with heq
    · rw [heq]
    · rfl
  have hsub : ∀ a ∈ pre ++ q :: post, a ∈ pre ++ q :: p :: post := by
    intro a ha
    simp only [List.mem_append, List.mem_cons] at ha ⊢
    tauto
  rw [htake]
  refine ⟨⟨hring, (hsizes base).trans hp.base_size, fun a ha hne => ?_, by simp⟩, ?_, ?_, ?_, ?_, ?_, rfl⟩
  · exact (hsizes a).symm ▸ hp.pos a (hsub a ha) hne
  · intro x
    rw [hcov, FreeList.stop, hsize]
    rfl
  · intro x hx hcov'
    rw [covers_congr fun a _ => hsizes a, List.append_cons] at hcov'
    have hring' : Ring HEADER s.hdr base ((pre ++ [q]) ++ p :: post) := by
      rw [← List.append_cons]
      exact hp.ring
    refine hring'.not_covers ?_ hcov'
    rw [FreeList.stop, hsize]
    exact hx
  · exact hunits.trans (by rw [hsize])
  · exact (hsizes p).trans hsize
  · intro a ha _
    exact Function.update_of_ne (fun heq => ha (by simp [heq])) ..

theorem Pool.split {pre post : List ℕ} (hp : Pool base s (pre ++ p :: post))
    (hq : q ∈ pre ++ p :: post) (hpos : 0 < n) (hsize : n < (s.hdr p).size) (hne : p ≠ base) :
    Taken base s (pre ++ p :: post) ⟨p + HEADER * ((s.hdr p).size - n), n⟩ (take s n q p).1
      (pre ++ p :: post) := by
  obtain ⟨hring, hcov, hunits⟩ := hp.ring.shrink hsize.le
  generalize hh : Function.update s.hdr p ⟨(s.hdr p).ptr, (s.hdr p).size - n⟩ = h
    at hring hcov hunits
  generalize hbp : p + HEADER * ((s.hdr p).size - n) = bp at hcov
  have htake : (take s n q p).1 = ⟨Function.update h bp { h bp with size := n }, q, s.brk⟩ := by
    rw [take, if_neg hsize.ne']
    simp only [hh, hbp]
  have hp_lt : p < bp := by
    rw [← hbp]
    exact Nat.lt_add_of_pos_right (Nat.mul_pos (by decide) (Nat.sub_pos_of_lt hsize))
  have hstop : bp + HEADER * n = FreeList.stop HEADER s.hdr p := by
    rw [FreeList.stop, ← hbp, Nat.add_assoc, ← Nat.mul_add, Nat.sub_add_cancel hsize.le]
  have hself : h p = ⟨(s.hdr p).ptr, (s.hdr p).size - n⟩ := by
    rw [← hh, Function.update_self]
  have hother : ∀ a, a ≠ p → h a = s.hdr a := by
    intro a ha
    rw [← hh, Function.update_of_ne ha]
  -- the tail is not covered by what is left of the block, and not by others
  have hout : ∀ x, bp ≤ x → x < FreeList.stop HEADER s.hdr p →
      ¬ Covers HEADER h (pre ++ p :: post) x := by
    intro x hle hlt hcov'
    obtain ⟨a, ha, hax, hxa⟩ := hcov'
    by_cases hap : a = p
    · rw [hap, FreeList.stop, hself, hbp] at hxa
      exact Nat.not_lt_of_le hle hxa
    · refine hp.ring.not_covers ⟨hp_lt.le.trans hle, hlt⟩ ⟨a, ?_, hax, ?_⟩
      · simp only [List.mem_append, List.mem_cons] at ha ⊢
        tauto
      · rw [FreeList.stop, ← hother a hap]
        exact hxa
  have hbp_lt : bp < FreeList.stop HEADER s.hdr p := by
    rw [← hstop]
    exact Nat.lt_add_of_pos_right (Nat.mul_pos (by decide) hpos)
  have hpos' : ∀ a ∈ pre ++ p :: post, a ≠ base → 0 < (h a).size := by
    intro a ha hane
    by_cases hap : a = p
    · rw [hap, hself]
      exact Nat.sub_pos_of_lt hsize
    · rw [hother a hap]
      exact hp.pos a ha hane
  have hbase_lt : base < bp :=
    (hp.ring.base_le (List.mem_append_right pre List.mem_cons_self)).trans_lt hp_lt
  have hbp_mem : bp ∉ pre ++ p :: post := fun hmem =>
    hout bp (Nat.le_refl bp) hbp_lt
      ⟨bp, hmem, Nat.le_refl bp, lt_stop (by decide) (hpos' bp hmem (Nat.ne_of_gt hbase_lt))⟩
  have hcongr : ∀ a ∈ pre ++ p :: post, Function.update h bp { h bp with size := n } a = h a := by
    intro a ha
    have hane : a ≠ bp := fun heq => hbp_mem (heq ▸ ha)
    exact Function.update_of_ne hane ..
  have hsizes : ∀ a ∈ pre ++ p :: post,
      (Function.update h bp { h bp with size := n } a).size = (h a).size :=
    fun a ha => by rw [hcongr a ha]
  rw [htake]
  refine ⟨⟨hring.congr hcongr, ?_, fun a ha hane => ?_, hq⟩, fun x => ?_, fun x hx => ?_, ?_, ?_, ?_, rfl⟩
  · rw [hsizes base hp.base_mem, hother base hne.symm]
    exact hp.base_size
  · exact (hsizes a ha).symm ▸ hpos' a ha hane
  · rw [hcov, covers_congr hsizes, ← hstop]
    rfl
  · rw [covers_congr hsizes]
    exact hout x hx.1 (hstop ▸ hx.2)
  · rw [units_congr hsizes]
    exact hunits
  · change (Function.update h bp _ bp).size = n
    rw [Function.update_self]
  · intro a ha hane
    have hap : a ≠ p := fun heq => ha (heq ▸ List.mem_append_right pre List.mem_cons_self)
    exact (Function.update_of_ne hane ..).trans (hother a hap)

/-- `malloc` takes a block of `n` units out of one that is large enough. -/
theorem Pool.take (hp : Pool base s c) (hq : q ∈ c) (hptr : (s.hdr q).ptr = p) (hpos : 0 < n)
    (hle : n ≤ (s.hdr p).size) :
    ∃ bp c', (take s n q p).2 = bp + HEADER ∧ Taken base s c ⟨bp, n⟩ (take s n q p).1 c' := by
  have hne : p ≠ base := by
    rintro rfl
    rw [hp.base_size] at hle
    exact Nat.not_lt_of_le hle hpos
  obtain ⟨pre, post, rfl⟩ := hp.exists_behind hq hptr hne
  rcases hle.eq_or_lt with heq | hlt
  · refine ⟨p, pre ++ q :: post, ?_, hp.unlink heq.symm⟩
    rw [Umalloc.take, if_pos heq.symm]
  · rw [List.append_cons] at hp hq ⊢
    refine ⟨p + HEADER * ((s.hdr p).size - n), _, ?_, hp.split hq hpos hlt hne⟩
    rw [Umalloc.take, if_neg hlt.ne']

/-! ## The heap -/

/-- The number of units of some blocks. -/
def total (l : List Block) : ℕ := (l.map Block.units).sum

/-- Two blocks have no memory in common. -/
def Block.Disjoint (b b' : Block) : Prop := ∀ x, b.Has x → ¬ b'.Has x

/-- The free blocks and the live blocks are what was obtained from `sbrk`. -/
structure Inv (base start : ℕ) (s : Heap) (live : List Block) (c : List ℕ) : Prop where
  pool : Pool base s c
  size : ∀ b ∈ live, (s.hdr b.addr).size = b.units
  pos : ∀ b ∈ live, 0 < b.units
  disjoint : live.Pairwise Block.Disjoint
  out : ∀ b ∈ live, ∀ x, b.Has x → ¬ Covers HEADER s.hdr c x
  free_inside : ∀ x, Covers HEADER s.hdr c x → start ≤ x ∧ x < s.brk
  live_inside : ∀ b ∈ live, start ≤ b.addr ∧ b.stop ≤ s.brk
  conserved : start + HEADER * (units s.hdr c + total live) = s.brk
  base_lt : base < start
  brk_le : s.brk ≤ MEMORY

theorem Block.has_addr (hpos : 0 < b.units) : b.Has b.addr :=
  ⟨Nat.le_refl _, Nat.lt_add_of_pos_right (Nat.mul_pos (by decide) hpos)⟩

theorem Inv.base_lt_addr (hi : Inv base start s live c) (hb : b ∈ live) : base < b.addr :=
  hi.base_lt.trans_le (hi.live_inside b hb).1

theorem Inv.addr_notMem (hi : Inv base start s live c) (hb : b ∈ live) : b.addr ∉ c := fun hmem =>
  hi.out b hb b.addr (Block.has_addr (hi.pos b hb))
    (hi.pool.covers_self hmem (Nat.ne_of_gt (hi.base_lt_addr hb)))

instance : Std.Symm Block.Disjoint := ⟨fun _ _ hdis x hx' hx => hdis x hx hx'⟩

theorem Inv.perm {live' : List Block} (hi : Inv base start s live c) (hperm : live.Perm live') :
    Inv base start s live' c where
  pool := hi.pool
  size := fun b hb => hi.size b (hperm.mem_iff.mpr hb)
  pos := fun b hb => hi.pos b (hperm.mem_iff.mpr hb)
  disjoint := (hperm.pairwise_iff fun h => Std.Symm.symm _ _ h).mp hi.disjoint
  out := fun b hb => hi.out b (hperm.mem_iff.mpr hb)
  free_inside := hi.free_inside
  live_inside := fun b hb => hi.live_inside b (hperm.mem_iff.mpr hb)
  conserved := by
    rw [← hi.conserved, total, total, (hperm.map Block.units).sum_eq]
  base_lt := hi.base_lt
  brk_le := hi.brk_le

theorem Inv.addr_ne {b' : Block} (hi : Inv base start s (b :: live) c) (hb' : b' ∈ live) :
    b'.addr ≠ b.addr := by
  intro heq
  refine List.rel_of_pairwise_cons hi.disjoint hb' b.addr
    (Block.has_addr (hi.pos b List.mem_cons_self)) ?_
  rw [← heq]
  exact Block.has_addr (hi.pos b' (List.mem_cons_of_mem b hb'))

theorem Inv.inside_of_covers (hi : Inv base start s live c) (hpos : 0 < b.units)
    (hin : ∀ x, b.Has x → Covers HEADER s.hdr c x) : start ≤ b.addr ∧ b.stop ≤ s.brk := by
  have hself := Block.has_addr hpos
  have hlast : b.Has (b.stop - 1) :=
    ⟨Nat.le_sub_one_of_lt hself.2, Nat.sub_one_lt_of_lt hself.2⟩
  exact ⟨(hi.free_inside _ (hin _ hself)).1, Nat.le_of_pred_lt (hi.free_inside _ (hin _ hlast)).2⟩

theorem Inv.bound (hi : Inv base start s live c) : 4 * (units s.hdr c + total live) < UINT := by
  have hcons := hi.conserved
  have hbrk := hi.brk_le
  rw [MEMORY_eq] at hbrk
  change start + 16 * _ = _ at hcons
  change _ < 2 ^ 32
  omega

/-- **`free`**: a live block becomes free. -/
theorem Inv.free (hi : Inv base start s (b :: live) c) :
    ∃ s' c', free c.length s (b.addr + HEADER) = some s' ∧ Freed base s c b s' c' ∧
      Inv base start s' live c' := by
  have hb : b ∈ b :: live := List.mem_cons_self
  have htotal : total (b :: live) = b.units + total live := by
    rw [total, List.map_cons, List.sum_cons, total]
  have hbound := hi.bound
  rw [htotal] at hbound
  obtain ⟨s', c', hfree, hf⟩ := hi.pool.free (hi.base_lt_addr hb) (hi.pos b hb) (hi.size b hb)
    (hi.out b hb) (by omega)
  refine ⟨s', c', hfree, hf, hf.pool, ?_, ?_, ?_, ?_, ?_, ?_, ?_, hi.base_lt, ?_⟩
  · intro b' hb'
    rw [hf.same _ (hi.addr_notMem (List.mem_cons_of_mem b hb')) (hi.addr_ne hb')]
    exact hi.size b' (List.mem_cons_of_mem b hb')
  · exact fun b' hb' => hi.pos b' (List.mem_cons_of_mem b hb')
  · exact (List.pairwise_cons.mp hi.disjoint).2
  · intro b' hb' x hx hcov
    rcases (hf.covers x).mp hcov with hcov | hcov
    · exact hi.out b' (List.mem_cons_of_mem b hb') x hx hcov
    · exact List.rel_of_pairwise_cons hi.disjoint hb' x hcov hx
  · intro x hcov
    rw [hf.brk]
    rcases (hf.covers x).mp hcov with hcov | hcov
    · exact hi.free_inside x hcov
    · exact ⟨(hi.live_inside b hb).1.trans hcov.1, hcov.2.trans_le (hi.live_inside b hb).2⟩
  · intro b' hb'
    rw [hf.brk]
    exact hi.live_inside b' (List.mem_cons_of_mem b hb')
  · rw [hf.units, hf.brk, ← hi.conserved, htotal, Nat.add_assoc]
  · rw [hf.brk]
    exact hi.brk_le

theorem Inv.taken (hi : Inv base start s live c) (hpos : 0 < b.units) (ht : Taken base s c b s' c') :
    Inv base start s' (b :: live) c' := by
  have hin : ∀ x, b.Has x → Covers HEADER s.hdr c x := fun x hx => (ht.covers x).mpr (.inr hx)
  have hne : ∀ b' ∈ live, b'.addr ≠ b.addr := by
    intro b' hb' heq
    exact hi.out b' hb' b'.addr (Block.has_addr (hi.pos b' hb')) (heq ▸ hin _ (Block.has_addr hpos))
  refine ⟨ht.pool, ?_, ?_, ?_, ?_, ?_, ?_, ?_, hi.base_lt, ?_⟩
  · intro b' hb'
    rcases List.mem_cons.mp hb' with rfl | hb'
    · exact ht.size
    · rw [ht.same _ (hi.addr_notMem hb') (hne b' hb')]
      exact hi.size b' hb'
  · intro b' hb'
    rcases List.mem_cons.mp hb' with rfl | hb'
    · exact hpos
    · exact hi.pos b' hb'
  · exact List.pairwise_cons.mpr
      ⟨fun b' hb' x hx hx' => hi.out b' hb' x hx' (hin x hx), hi.disjoint⟩
  · intro b' hb' x hx hcov
    rcases List.mem_cons.mp hb' with rfl | hb'
    · exact ht.out x hx hcov
    · exact hi.out b' hb' x hx ((ht.covers x).mpr (.inl hcov))
  · intro x hcov
    rw [ht.brk]
    exact hi.free_inside x ((ht.covers x).mpr (.inl hcov))
  · intro b' hb'
    rw [ht.brk]
    rcases List.mem_cons.mp hb' with rfl | hb'
    · exact hi.inside_of_covers hpos hin
    · exact hi.live_inside b' hb'
  · rw [ht.brk, ← hi.conserved, ht.units, total, List.map_cons, List.sum_cons, total, Nat.add_assoc]
  · rw [ht.brk]
    exact hi.brk_le

/-- `sbrk` has returned a block, which `morecore` has given a header. -/
theorem Inv.extend (hi : Inv base start s live c) (hpos : 0 < nu)
    (hle : s.brk + nu * HEADER ≤ MEMORY) :
    Inv base start ⟨Function.update s.hdr s.brk { s.hdr s.brk with size := nu }, s.freep,
      s.brk + nu * HEADER⟩ (⟨s.brk, nu⟩ :: live) c := by
  have hbase : base < s.brk := by
    rw [← hi.conserved]
    exact hi.base_lt.trans_le (Nat.le_add_right ..)
  have hnew : s.brk ∉ c := fun hmem =>
    Nat.lt_irrefl _ (hi.free_inside _ (hi.pool.covers_self hmem (Nat.ne_of_gt hbase))).2
  have hcongr : ∀ a ∈ c, Function.update s.hdr s.brk { s.hdr s.brk with size := nu } a = s.hdr a := by
    intro a ha
    have hane : a ≠ s.brk := fun heq => hnew (heq ▸ ha)
    exact Function.update_of_ne hane ..
  have hsizes : ∀ a ∈ c,
      (Function.update s.hdr s.brk { s.hdr s.brk with size := nu } a).size = (s.hdr a).size :=
    fun a ha => by rw [hcongr a ha]
  have hlt : ∀ b ∈ live, b.addr < s.brk := fun b hb =>
    (Block.has_addr (hi.pos b hb)).2.trans_le (hi.live_inside b hb).2
  refine ⟨⟨hi.pool.ring.congr hcongr, ?_, ?_, hi.pool.freep⟩, ?_, ?_, ?_, ?_, ?_, ?_, ?_, hi.base_lt, hle⟩
  · exact (hsizes base hi.pool.base_mem).trans hi.pool.base_size
  · exact fun a ha hne => (hsizes a ha).symm ▸ hi.pool.pos a ha hne
  · intro b hb
    rcases List.mem_cons.mp hb with rfl | hb
    · change (Function.update s.hdr s.brk _ s.brk).size = nu
      rw [Function.update_self]
    · exact (congrArg Cell.size (Function.update_of_ne (hlt b hb).ne ..)).trans (hi.size b hb)
  · intro b hb
    rcases List.mem_cons.mp hb with rfl | hb
    · exact hpos
    · exact hi.pos b hb
  · refine List.pairwise_cons.mpr ⟨fun b hb x hx hx' => ?_, hi.disjoint⟩
    exact Nat.not_lt_of_le hx.1 (hx'.2.trans_le (hi.live_inside b hb).2)
  · intro b hb x hx hcov
    rw [covers_congr hsizes] at hcov
    rcases List.mem_cons.mp hb with rfl | hb
    · exact Nat.not_lt_of_le hx.1 (hi.free_inside x hcov).2
    · exact hi.out b hb x hx hcov
  · intro x hcov
    rw [covers_congr hsizes] at hcov
    exact ⟨(hi.free_inside x hcov).1, (hi.free_inside x hcov).2.trans_le (Nat.le_add_right ..)⟩
  · intro b hb
    rcases List.mem_cons.mp hb with rfl | hb
    · refine ⟨?_, Nat.le_of_eq (congrArg _ (Nat.mul_comm ..))⟩
      rw [← hi.conserved]
      exact Nat.le_add_right ..
    · exact ⟨(hi.live_inside b hb).1, (hi.live_inside b hb).2.trans (Nat.le_add_right ..)⟩
  · have hcons := hi.conserved
    rw [units_congr hsizes, total, List.map_cons, List.sum_cons, ← total]
    simp only [HEADER] at hcons ⊢
    omega

/-- **`morecore`** returns; it has changed nothing, or the free list has a block of the size asked for. -/
theorem Inv.morecore (hi : Inv base start s live c) (hnu : max 4096 nu * HEADER < 2 ^ 31)
    (ok : Bool) : morecore c.length s nu ok = some (s, none) ∨
      ∃ s' c', morecore c.length s nu ok = some (s', some s'.freep) ∧ Inv base start s' live c' ∧
        ∃ a ∈ c', nu ≤ (s'.hdr a).size := by
  have hmax : (if nu < 4096 then 4096 else nu) = max 4096 nu := by
    split_ifs with hlt
    · exact (max_eq_left hlt.le).symm
    · exact (max_eq_right (Nat.le_of_not_lt hlt)).symm
  have hint : cInt (max 4096 nu * HEADER : ℕ) = (max 4096 nu * HEADER : ℕ) :=
    cInt_of_range (by omega) (by omega)
  rw [Umalloc.morecore]
  simp only [hmax, hint]
  have hnonneg : 0 < max 4096 nu := by omega
  rw [sbrk, if_pos (Int.natCast_pos.mpr (Nat.mul_pos hnonneg (by decide)))]
  split_ifs with hok
  · right
    have hle : s.brk + max 4096 nu * HEADER ≤ MEMORY := by exact_mod_cast hok.2
    have htoNat : ((s.brk : ℤ) + (max 4096 nu * HEADER : ℕ)).toNat = s.brk + max 4096 nu * HEADER := by
      omega
    obtain ⟨s', c', hfree, hf, hi'⟩ := (hi.extend hnonneg hle).free
    refine ⟨s', c', ?_, hi', ?_⟩
    · simp only [htoNat]
      rw [hfree]
      rfl
    · -- the new block is part of a free block
      obtain ⟨a, ha, hle', hstop⟩ := hi'.pool.ring.exists_block
        (Block.has_addr (b := ⟨s.brk, max 4096 nu⟩) hnonneg).2
        fun x hx hx' => (hf.covers x).mpr (.inr ⟨hx, hx'⟩)
      refine ⟨a, ha, ?_⟩
      simp only [Block.stop, FreeList.stop, HEADER] at hle' hstop
      omega
  · exact .inl rfl

/-! ## `malloc` -/

theorem free_mono {ap : ℕ} (hf : free n s ap = some s') (hle : n ≤ m) : free m s ap = some s' := by
  rw [free] at hf ⊢
  obtain ⟨p, hp, hs'⟩ := Option.map_eq_some_iff.mp hf
  exact Option.map_eq_some_iff.mpr ⟨p, seek_mono hp hle, hs'⟩

theorem morecore_mono {ok : Bool} {r : Heap × Option ℕ} (hm : morecore n s nu ok = some r)
    (hle : n ≤ m) : morecore m s nu ok = some r := by
  rw [morecore] at hm ⊢
  cases hsbrk : sbrk s (cInt ((if nu < 4096 then 4096 else nu) * HEADER : ℕ)) ok with
  | none =>
    simp only [hsbrk] at hm ⊢
    exact hm
  | some q =>
    simp only [hsbrk] at hm ⊢
    obtain ⟨t, ht, hr⟩ := Option.map_eq_some_iff.mp hm
    exact Option.map_eq_some_iff.mpr ⟨t, free_mono ht hle, hr⟩

theorem mallocLoop_mono {prevp : ℕ} {ok : Bool} {r : Heap × ℕ}
    (hl : mallocLoop k ok n s prevp p = some r) (hle : n ≤ m) :
    mallocLoop k ok m s prevp p = some r := by
  induction n generalizing m s prevp p with
  | zero => exact nomatch hl
  | succ n ih =>
    obtain ⟨m, rfl⟩ := Nat.exists_eq_add_of_le' (Nat.lt_of_lt_of_le n.succ_pos hle)
    have hle' : n ≤ m := Nat.le_of_succ_le_succ hle
    rw [mallocLoop] at hl ⊢
    split_ifs at hl ⊢ with hbig hlast
    · exact hl
    · obtain ⟨q, hq, hr⟩ := Option.bind_eq_some_iff.mp hl
      rw [morecore_mono hq hle', Option.bind_some]
      cases hq₂ : q.2 with
      | none =>
        rw [hq₂] at hr
        exact hr
      | some p' =>
        rw [hq₂] at hr
        exact ih hr hle'
    · exact ih hl hle'

/-- The search goes through the list until it finds a block that is large enough. -/
theorem mallocLoop_walk {z prevp : ℕ} (ok : Bool) {l : List ℕ} (n : ℕ)
    (hl : Linked s.hdr (prevp :: l) z) (hne : ∀ a ∈ l, a ≠ s.freep) :
    (∃ q ∈ prevp :: l, k ≤ (s.hdr (s.hdr q).ptr).size ∧
      mallocLoop k ok (l.length + n) s prevp (s.hdr prevp).ptr =
        some (take s k q (s.hdr q).ptr)) ∨
    (∀ a ∈ l, (s.hdr a).size < k) ∧ ∃ q ∈ prevp :: l, (s.hdr q).ptr = z ∧
      mallocLoop k ok (l.length + n) s prevp (s.hdr prevp).ptr = mallocLoop k ok n s q z := by
  induction l generalizing prevp with
  | nil =>
    refine .inr ⟨by simp, prevp, List.mem_cons_self, hl.1, ?_⟩
    rw [List.length_nil, Nat.zero_add, hl.1]
    rfl
  | cons a l ih =>
    have hptr : (s.hdr prevp).ptr = a := hl.1
    rw [List.length_cons, Nat.add_right_comm, hptr, mallocLoop]
    by_cases hbig : k ≤ (s.hdr a).size
    · refine .inl ⟨prevp, List.mem_cons_self, ?_, ?_⟩
      · rw [hptr]
        exact hbig
      · rw [if_pos hbig, hptr]
    · rw [if_neg hbig, if_neg (hne a List.mem_cons_self)]
      rcases ih hl.2 fun b hb => hne b (List.mem_cons_of_mem a hb) with
        ⟨q, hq, hfound⟩ | ⟨hsmall, q, hq, hend⟩
      · exact .inl ⟨q, List.mem_cons_of_mem _ hq, hfound⟩
      · refine .inr ⟨fun b hb => ?_, q, List.mem_cons_of_mem _ hq, hend⟩
        rcases List.mem_cons.mp hb with rfl | hb
        · exact Nat.lt_of_not_le hbig
        · exact hsmall b hb

/-- One turn of the search: a block is found, or all blocks are too small and `morecore` is asked. -/
theorem Pool.search (hp : Pool base s c) (k : ℕ) (ok : Bool) (n : ℕ) :
    (∃ q ∈ c, k ≤ (s.hdr (s.hdr q).ptr).size ∧
      mallocLoop k ok (c.length + n) s s.freep (s.hdr s.freep).ptr =
        some (Umalloc.take s k q (s.hdr q).ptr)) ∨
    (∀ a ∈ c, (s.hdr a).size < k) ∧
      mallocLoop k ok (c.length + n) s s.freep (s.hdr s.freep).ptr =
        (morecore n s k ok).bind fun r =>
          match r.2 with
          | none => some (r.1, 0)
          | some p => mallocLoop k ok n r.1 p (r.1.hdr p).ptr := by
  obtain ⟨pre, post, hc⟩ := List.append_of_mem hp.freep
  have hring := hp.ring
  rw [hc] at hring
  have hhead : (pre ++ s.freep :: post).headD base = base := by
    rw [List.headD_eq_head?_getD, hring.head, Option.getD_some]
  have hrot : Linked s.hdr (s.freep :: (post ++ pre)) s.freep := hring.linked.rotate hhead
  have hmem : ∀ a, a ∈ s.freep :: (post ++ pre) ↔ a ∈ c := by
    intro a
    rw [hc]
    simp only [List.mem_append, List.mem_cons]
    tauto
  have hnodup : (s.freep :: (post ++ pre)).Nodup := by
    have hperm : (pre ++ s.freep :: post).Perm (s.freep :: (post ++ pre)) := List.perm_append_comm
    exact hperm.nodup hring.apart.nodup
  have hne : ∀ a ∈ post ++ pre, a ≠ s.freep := by
    intro a ha heq
    exact (List.nodup_cons.mp hnodup).1 (heq ▸ ha)
  have hlen : c.length = (post ++ pre).length + 1 := by
    rw [hc]
    simp only [List.length_append, List.length_cons]
    omega
  rw [hlen, Nat.add_assoc, Nat.add_comm 1 n]
  rcases mallocLoop_walk (k := k) ok (n + 1) hrot hne with ⟨q, hq, hfound⟩ | ⟨hsmall, q, hq, hptr, hend⟩
  · exact .inl ⟨q, (hmem q).mp hq, hfound⟩
  · rw [hend, mallocLoop]
    -- the search has come back to `freep`
    by_cases hbig : k ≤ (s.hdr s.freep).size
    · refine .inl ⟨q, (hmem q).mp hq, ?_, ?_⟩
      · rw [hptr]
        exact hbig
      · rw [if_pos hbig, hptr]
    · refine .inr ⟨fun a ha => ?_, ?_⟩
      · rcases List.mem_cons.mp ((hmem a).mpr ha) with rfl | ha
        · exact Nat.lt_of_not_le hbig
        · exact hsmall a ha
      · rw [if_neg hbig, if_pos rfl]

/-- `malloc` returns a null pointer, or a new live block. -/
def Returned (base start : ℕ) (live : List Block) (k : ℕ) (r : Heap × ℕ) : Prop :=
  (r.2 = 0 ∧ ∃ c', Inv base start r.1 live c') ∨
    ∃ bp c', r.2 = bp + HEADER ∧ Inv base start r.1 (⟨bp, k⟩ :: live) c'

/-- **The loop of `malloc`** returns. -/
theorem Inv.mallocLoop (hi : Inv base start s live c) (hpos : 0 < k)
    (hk : max 4096 k * HEADER < 2 ^ 31) (ok : Bool) :
    ∃ n r, mallocLoop k ok n s s.freep (s.hdr s.freep).ptr = some r ∧
      Returned base start live k r := by
  have hfound : ∀ {s c}, Inv base start s live c → ∀ q ∈ c, k ≤ (s.hdr (s.hdr q).ptr).size →
      Returned base start live k (take s k q (s.hdr q).ptr) := by
    intro s c hi q hq hle
    obtain ⟨bp, c', hret, ht⟩ := hi.pool.take hq rfl hpos hle
    exact .inr ⟨bp, c', hret, hi.taken hpos ht⟩
  rcases hi.morecore hk ok with hfail | ⟨s', c', hmore, hi', a, ha, hbig⟩
  · rcases hi.pool.search k ok c.length with ⟨q, hq, hle, hloop⟩ | ⟨-, hloop⟩
    · exact ⟨_, _, hloop, hfound hi q hq hle⟩
    · have hnull : Umalloc.mallocLoop k ok (c.length + c.length) s s.freep (s.hdr s.freep).ptr =
          some (s, 0) := by
        rw [hloop, hfail]
        rfl
      exact ⟨_, (s, 0), hnull, .inl ⟨rfl, c, hi⟩⟩
  · rcases hi.pool.search k ok (c.length + c'.length) with ⟨q, hq, hle, hloop⟩ | ⟨-, hloop⟩
    · exact ⟨_, _, hloop, hfound hi q hq hle⟩
    · -- the second turn finds the block that `morecore` has added
      rcases hi'.pool.search k ok 0 with ⟨q, hq, hle, hloop'⟩ | ⟨hsmall, -⟩
      · refine ⟨_, _, hloop.trans ?_, hfound hi' q hq hle⟩
        rw [morecore_mono hmore (Nat.le_add_right ..), Option.bind_some]
        exact mallocLoop_mono hloop' (Nat.le_add_left ..)
      · exact absurd hbig (Nat.not_le_of_lt (hsmall a ha))

/-! ## Programs -/

theorem nunits_pos {nbytes : ℕ} (hn : nbytes < UINT) : 0 < nunits nbytes := by
  have hlt : (nbytes + 16 - 1) / 16 + 1 < 2 ^ 32 := by
    change nbytes < 2 ^ 32 at hn
    omega
  rw [nunits, Nat.mod_eq_of_lt hlt]
  exact Nat.succ_pos _

/-- Nothing was allocated yet. -/
structure Untouched (start : ℕ) (s : State) : Prop where
  freep : s.freep = 0
  live : s.live = []
  brk : s.brk = start

/-- Nothing was allocated yet, or the heap is as it should be. -/
def Good (base start : ℕ) (s : State) : Prop :=
  Untouched start s ∨ ∃ c, Inv base start s.toHeap s.live c

theorem inv_setup (hbase : base < start) (hmem : start ≤ MEMORY) (hu : Untouched start t) :
    Inv base start (setup base t.toHeap) t.live [base] := by
  have hsetup : setup base t.toHeap = ⟨Function.update t.hdr base ⟨base, 0⟩, base, start⟩ := by
    rw [setup, if_pos hu.freep, ← hu.brk]
  have hself : Function.update t.hdr base ⟨base, 0⟩ base = ⟨base, 0⟩ := Function.update_self ..
  have hcov : ∀ x, ¬ Covers HEADER (Function.update t.hdr base ⟨base, 0⟩) [base] x := by
    rintro x ⟨a, ha, hle, hlt⟩
    rw [List.mem_singleton.mp ha] at hle hlt
    rw [FreeList.stop, hself] at hlt
    exact Nat.not_lt_of_le hle hlt
  rw [hsetup, hu.live]
  refine ⟨⟨⟨rfl, ⟨?_, trivial⟩, List.pairwise_singleton ..⟩, ?_, ?_, List.mem_singleton_self base⟩,
    by simp, by simp, .nil, by simp, fun x hx => absurd hx (hcov x), by simp, ?_, hbase, hmem⟩
  · exact congrArg Cell.ptr hself
  · exact congrArg Cell.size hself
  · exact fun a ha hne => absurd (List.mem_singleton.mp ha) hne
  · have hunits : units (Function.update t.hdr base ⟨base, 0⟩) [base] = 0 := by
      rw [units_cons, hself]
      rfl
    change start + HEADER * (units (Function.update t.hdr base ⟨base, 0⟩) [base] + 0) = start
    rw [hunits, Nat.mul_zero, Nat.add_zero]

theorem Inv.freep_ne_zero (hi : Inv base start s live c) (hbase : 0 < base) : s.freep ≠ 0 :=
  Nat.ne_of_gt (hbase.trans_le (hi.pool.ring.base_le hi.pool.freep))

theorem Good.setup (hbase : 0 < base) (hlt : base < start) (hmem : start ≤ MEMORY)
    (hg : Good base start t) : ∃ c, Inv base start (setup base t.toHeap) t.live c := by
  rcases hg with hu | ⟨c, hi⟩
  · exact ⟨[base], inv_setup hlt hmem hu⟩
  · refine ⟨c, ?_⟩
    rw [Umalloc.setup, if_neg (hi.freep_ne_zero hbase)]
    exact hi

theorem Inv.write (hi : Inv base start s live c) (hb : b ∈ live) (hne : b.addr ≠ a) (ha : b.Has a)
    (x : Cell) : Inv base start { s with hdr := Function.update s.hdr a x } live c := by
  have hbase : base < a := (hi.base_lt_addr hb).trans_le ha.1
  have hfree : a ∉ c := fun hmem =>
    hi.out b hb a ha (hi.pool.covers_self hmem (Nat.ne_of_gt hbase))
  have hcongr : ∀ d ∈ c, Function.update s.hdr a x d = s.hdr d := by
    intro d hd
    have hda : d ≠ a := fun heq => hfree (heq ▸ hd)
    exact Function.update_of_ne hda ..
  have hsizes : ∀ d ∈ c, (Function.update s.hdr a x d).size = (s.hdr d).size :=
    fun d hd => by rw [hcongr d hd]
  have hlive : ∀ b' ∈ live, b'.addr ≠ a := by
    intro b' hb' heq
    by_cases hbb : b = b'
    · exact hne (hbb ▸ heq)
    · refine hi.disjoint.forall hb hb' hbb a ha ?_
      rw [← heq]
      exact Block.has_addr (hi.pos b' hb')
  refine ⟨⟨hi.pool.ring.congr hcongr, ?_, ?_, hi.pool.freep⟩, ?_, hi.pos, hi.disjoint, ?_, ?_,
    hi.live_inside, ?_, hi.base_lt, hi.brk_le⟩
  · exact (hsizes base hi.pool.base_mem).trans hi.pool.base_size
  · exact fun d hd hdb => (hsizes d hd).symm ▸ hi.pool.pos d hd hdb
  · exact fun b' hb' =>
      (congrArg Cell.size (Function.update_of_ne (hlive b' hb') ..)).trans (hi.size b' hb')
  · intro b' hb' y hy hcov
    rw [covers_congr hsizes] at hcov
    exact hi.out b' hb' y hy hcov
  · intro y hcov
    rw [covers_congr hsizes] at hcov
    exact hi.free_inside y hcov
  · rw [units_congr hsizes]
    exact hi.conserved

/-- **Every call returns, and the heap is as it should be again.** -/
theorem Good.step {a : Action} (hbase : 0 < base) (hlt : base < start) (hmem : start ≤ MEMORY)
    (hg : Good base start t) (ha : Enabled t a) (hs : Small t a) :
    ∃ fuel t', step base fuel t a = some t' ∧ Good base start t' := by
  cases a with
  | malloc nbytes ok =>
    obtain ⟨c, hi⟩ := hg.setup hbase hlt hmem
    obtain ⟨n, r, hloop, hret⟩ := hi.mallocLoop (nunits_pos ha) hs ok
    refine ⟨n, ⟨r.1, if r.2 = 0 then t.live else ⟨r.2 - HEADER, nunits nbytes⟩ :: t.live⟩, ?_, ?_⟩
    · rw [Umalloc.step, malloc, hloop]
      rfl
    · rcases hret with ⟨hnull, c', hi'⟩ | ⟨bp, c', hptr, hi'⟩
      · rw [if_pos hnull]
        exact .inr ⟨c', hi'⟩
      · have hne : bp + HEADER ≠ 0 := Nat.succ_ne_zero (bp + 15)
        rw [hptr, if_neg hne, Nat.add_sub_cancel]
        exact .inr ⟨c', hi'⟩
  | free b =>
    rcases hg with hu | ⟨c, hi⟩
    · rw [Enabled, hu.live] at ha
      exact nomatch ha
    · obtain ⟨s', c', hfree, -, hi'⟩ := (hi.perm (List.perm_cons_erase ha)).free
      refine ⟨c.length, ⟨s', t.live.erase b⟩, ?_, .inr ⟨c', hi'⟩⟩
      rw [Umalloc.step, hfree]
      rfl
  | write a x =>
    obtain ⟨b, hb, hne, hhas⟩ := ha
    rcases hg with hu | ⟨c, hi⟩
    · rw [hu.live] at hb
      exact nomatch hb
    · exact ⟨0, _, rfl, .inr ⟨c, hi.write hb hne hhas x⟩⟩

theorem step_mono {t' : State} {a : Action} (hs : step base n t a = some t') (hle : n ≤ m) :
    step base m t a = some t' := by
  cases a with
  | malloc nbytes ok =>
    obtain ⟨r, hr, ht'⟩ := Option.map_eq_some_iff.mp hs
    exact Option.map_eq_some_iff.mpr ⟨r, mallocLoop_mono hr hle, ht'⟩
  | free b =>
    obtain ⟨r, hr, ht'⟩ := Option.map_eq_some_iff.mp hs
    exact Option.map_eq_some_iff.mpr ⟨r, free_mono hr hle, ht'⟩
  | write a x => exact hs

theorem step_det {t₁ t₂ : State} {a : Action} (h₁ : step base n t a = some t₁)
    (h₂ : step base m t a = some t₂) : t₁ = t₂ := by
  have h₁' := step_mono h₁ (Nat.le_max_left n m)
  have h₂' := step_mono h₂ (Nat.le_max_right n m)
  exact Option.some.inj (h₁'.symm.trans h₂')

/-! ## The heap in every run -/

/-- A program begins with an empty list and no memory of its own. -/
def init (start : ℕ) (hdr : ℕ → Cell) : State := ⟨⟨hdr, 0, start⟩, []⟩

/-- The free blocks at some addresses. -/
def freeBlocks (s : State) (l : List ℕ) : List Block := l.map fun a => ⟨a, (s.hdr a).size⟩

/-- The free list is `base` and then `l`. -/
structure Sound (base start : ℕ) (s : State) (l : List ℕ) : Prop where
  /-- The list is circular, and addresses increase but at its end. -/
  circular : Linked s.hdr (base :: l) base
  ascending : (base :: l).Pairwise (· < ·)
  freep : s.freep ∈ base :: l
  disjoint : (freeBlocks s l ++ s.live).Pairwise Block.Disjoint
  inside : ∀ b ∈ freeBlocks s l ++ s.live, start ≤ b.addr ∧ b.stop ≤ s.brk
  not_adjacent : ∀ b ∈ freeBlocks s l, ∀ b' ∈ freeBlocks s l, b.stop ≠ b'.addr
  /-- No unit is lost or duplicated. -/
  conserved : start + HEADER * total (freeBlocks s l ++ s.live) = s.brk

theorem trichotomous_of_pairwise {α : Type*} {R : α → α → Prop} {l : List α} {x y : α}
    (hl : l.Pairwise R) (hx : x ∈ l) (hy : y ∈ l) : x = y ∨ R x y ∨ R y x := by
  obtain ⟨pre, post, rfl⟩ := List.append_of_mem hx
  obtain ⟨-, hpost, hpre⟩ := List.pairwise_append.mp hl
  rcases List.mem_append.mp hy with hy | hy
  · exact .inr (.inr (hpre y hy x List.mem_cons_self))
  · rcases List.mem_cons.mp hy with rfl | hy
    · exact .inl rfl
    · exact .inr (.inl (List.rel_of_pairwise_cons hpost hy))

theorem Inv.sound (hi : Inv base start t.toHeap t.live c) : ∃ l, Sound base start t l := by
  have hhead := hi.pool.ring.head
  cases c with
  | nil => exact nomatch hhead
  | cons a l =>
    obtain rfl : a = base := Option.some.inj hhead
    have hring := hi.pool.ring
    have hapart : Apart HEADER t.hdr l := (List.pairwise_cons.mp hring.apart).2
    have hblock : ∀ b ∈ freeBlocks t l, b.addr ∈ l ∧ b.units = (t.hdr b.addr).size := by
      intro b hb
      obtain ⟨d, hd, rfl⟩ := List.mem_map.mp hb
      exact ⟨hd, rfl⟩
    have hpos : ∀ b ∈ freeBlocks t l, 0 < b.units := by
      intro b hb
      obtain ⟨hd, hsize⟩ := hblock b hb
      rw [hsize]
      exact hi.pool.pos _ (List.mem_cons_of_mem a hd)
        (Nat.ne_of_gt ((le_stop HEADER t.hdr a).trans_lt (hring.apart.lt hd)))
    have hcov : ∀ b ∈ freeBlocks t l, ∀ x, b.Has x → Covers HEADER t.hdr (a :: l) x := by
      intro b hb x hx
      obtain ⟨hd, hsize⟩ := hblock b hb
      refine ⟨b.addr, List.mem_cons_of_mem a hd, hx.1, ?_⟩
      rw [FreeList.stop, ← hsize]
      exact hx.2
    have hbefore : (freeBlocks t l).Pairwise fun b b' => b.stop < b'.addr := List.pairwise_map.mpr hapart
    refine ⟨l, hring.linked, ?_, hi.pool.freep, ?_, ?_, ?_, ?_⟩
    · exact hring.apart.imp fun hlt => (le_stop HEADER t.hdr _).trans_lt hlt
    · refine List.pairwise_append.mpr ⟨hbefore.imp fun hlt x hx hx' => ?_, hi.disjoint, ?_⟩
      · exact Nat.lt_irrefl x (hx.2.trans (hlt.trans_le hx'.1))
      · exact fun b hb b' hb' x hx hx' => hi.out b' hb' x hx' (hcov b hb x hx)
    · intro b hb
      rcases List.mem_append.mp hb with hb | hb
      · exact hi.inside_of_covers (hpos b hb) (hcov b hb)
      · exact hi.live_inside b hb
    · intro b hb b' hb' heq
      have hlt := (Block.has_addr (hpos b hb)).2
      have hlt' := (Block.has_addr (hpos b' hb')).2
      rcases trichotomous_of_pairwise hbefore hb hb' with rfl | hb | hb
      · exact Nat.ne_of_gt hlt heq
      · exact Nat.ne_of_lt hb heq
      · omega
    · have hcons := hi.conserved
      have htotal : total (freeBlocks t l ++ t.live) = units t.hdr l + total t.live := by
        rw [total, List.map_append, List.sum_append, freeBlocks, List.map_map]
        rfl
      rw [units_cons, hi.pool.base_size, Nat.zero_add] at hcons
      rw [htotal]
      exact hcons

theorem good_of_run {h : List Action} {hdr : ℕ → Cell} (hbase : 0 < base) (hlt : base < start)
    (hmem : start ≤ MEMORY) (hrun : RunWith (Step base) Small (init start hdr) h t) :
    Good base start t := by
  refine hrun.invariant (I := Good base start) (.inl ⟨rfl, rfl, rfl⟩) ?_
  rintro u a v hg hs ⟨ha, fuel, hstep⟩
  obtain ⟨fuel', v', hstep', hg'⟩ := hg.step hbase hlt hmem ha hs
  rw [step_det hstep hstep']
  exact hg'

/-- **The user heap.**  However a program calls `malloc` and `free`, freeing each block once, the free
list is a circle in the order of the addresses, free blocks do not touch, and free and live blocks are
apart and make up what was obtained from `sbrk`; and every call returns. -/
theorem heap_invariant {h : List Action} {t : State} {hdr : ℕ → Cell} (hbase : 0 < base)
    (hlt : base + HEADER ≤ start) (hmem : start ≤ MEMORY)
    (hrun : RunWith (Step base) Small (init start hdr) h t) :
    (Untouched start t ∨ ∃ l, Sound base start t l) ∧
      ∀ a, Enabled t a → Small t a → ∃ t', Step base t a t' := by
  have hlt' : base < start := (Nat.lt_add_of_pos_right (by decide)).trans_le hlt
  have hgood := good_of_run hbase hlt' hmem hrun
  refine ⟨hgood.imp_right fun ⟨c, hi⟩ => hi.sound, fun a ha hs => ?_⟩
  obtain ⟨fuel, t', hstep, -⟩ := hgood.step hbase hlt' hmem ha hs
  exact ⟨t', ha, fuel, hstep⟩

/-- Two blocks are allocated, the second from the block that the first one was taken from, and the first
one is freed: it is behind the second and stays apart. -/
theorem heap_invariant_two :
    ∃ h t, RunWith (Step 4096) Small (init 16384 fun _ => ⟨0, 0⟩) h t ∧
      (t.live = [⟨16768, 4064⟩] ∧ t.freep = 16384 ∧ t.brk = 81920) ∧
      (Untouched 16384 t ∨ ∃ l, Sound 4096 16384 t l) ∧
      ∀ a, Enabled t a → Small t a → ∃ t', Step 4096 t a t' := by
  let as : List Action := [.malloc 100 true, .malloc 65000 true, .free ⟨81792, 8⟩]
  let call : State → Action → Option State := step 4096 3
  have hexec : (execWith call (fun s a => Enabled s a ∧ Small s a) (init 16384 fun _ => ⟨0, 0⟩) as).map
      (fun t => (t.live, t.freep, t.brk)) = some ([⟨16768, 4064⟩], 16384, 81920) := by
    decide +kernel
  obtain ⟨t, ht, hobs⟩ := Option.map_eq_some_iff.mp hexec
  have hrun : RunWith (Step 4096) Small (init 16384 fun _ => ⟨0, 0⟩) as.reverse t :=
    (run_of_execWith ht).imp fun u a v hc hstep => ⟨hc.2, hc.1, 3, hstep⟩
  exact ⟨_, t, hrun, by simpa [Prod.ext_iff] using hobs,
    heap_invariant (by decide) (by decide) (by rw [MEMORY_eq]; decide) hrun⟩

end Xv6.Umalloc

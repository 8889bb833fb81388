import Xv6.Sync.Family

/-!
# Exit and wait

A process sleeps in `kwait` only while it has no `ZOMBIE` child.  It has found none when it goes to
sleep, and from then on a child can come to it in two ways.  A child that exits has called
`wakeup(p->parent)` before it becomes a `ZOMBIE`, under the same `wait_lock`, so its parent is not
asleep any more (`Loc.kin`).  A `ZOMBIE` that `reparent` gives to the first process comes first and
the `wakeup` after it, but `wait_lock` is not released in between (`OwesInit`).

The record of exits and waits (`Record`) says that every `ZOMBIE` stands for one exit that has not
been waited for yet, so no exit is returned twice.
-/

namespace Xv6
namespace Sync

open Sched Transition

variable {p c pp : Slot} {i : Input} {status : ℤ} {addr : Bool}

variable {s s' : KState} {a : KLabel}

/-! ## No sleeping parent of a zombie -/

/-- Process `q` has given the first process a child and not yet called `wakeup`. -/
def OwesInit (s : KState) (p q : Slot) : Prop :=
  p = initproc ∧ ∃ status pp, s.pc (.proc q) = .code (.exit status (.wakeInit pp))

/-- Who is asleep in `kwait` has no `ZOMBIE` child, or will be woken. -/
def ParentsWait (s : KState) : Prop :=
  ∀ p, Dormant s p (procChan p) .wait → NoZombie p s.proc NPROC ∨
    ∃ q, q ≠ p ∧ (OwesInit s p q ∨ Scans s (procChan p) .wait p q)

theorem SleepPlace.of_wait {chan : ℕ} {x : Loc} (h : SleepPlace p chan .wait x) :
    chan = procChan p ∧ ∃ addr, x = .wait addr (.scan 0 false) := by
  cases h with
  | wait addr => exact ⟨rfl, addr, rfl⟩

/-- `kwait` has looked at all children when it goes to sleep. -/
theorem Tree.noZombie_of_sleep (ht : Tree s) (hs : Base s) {x : Loc}
    (hpc : s.pc (.proc p) = .sleepLocked (procChan p) .wait x)
    (h : Sync.step kernel s (.run (.proc p) i) = some s') : NoZombie p s'.proc NPROC := by
  obtain ⟨-, addr, rfl⟩ := (hs.sleeps p _ _ x (by rw [hpc]; exact ⟨rfl, rfl, rfl⟩)).of_wait
  have hkin := ht.kin p
  rw [hpc] at hkin
  obtain ⟨pc, act, pc', s₁, -, hpc', hnext, hacted, rfl⟩ := step_run h
  rw [hpc] at hpc'
  subst hpc'
  cases hnext with
  | sleepLocked =>
    cases hacted with
    | release => exact hkin.1

theorem proc_of_exit (hpc : s.pc (.proc p) = .code (.exit status .zombie))
    (h : Sync.step kernel s (.run (.proc p) i) = some s') :
    s'.proc p = Proc.zombie status (s.proc p) := by
  rw [(step_assigns hpc rfl h).proc]
  exact Function.update_self ..

/-- A process that becomes a `ZOMBIE` has the parent it had, which is not asleep in `kwait`. -/
theorem Tree.parent_of_exit (ht : Tree s) (hpc : s.pc (.proc c) = .code (.exit status .zombie))
    (h : Sync.step kernel s (.run (.proc c) i) = some s') (hc : (s'.proc c).parent = some p) :
    ¬ Dormant s p (procChan p) .wait := by
  have hparent : (s'.proc c).parent = (s.proc c).parent := by
    rw [proc_of_exit hpc h]
    rfl
  have hkin := ht.kin c
  rw [hpc] at hkin
  intro hd
  exact hkin.2.2 p (hparent.symm.trans hc) ⟨(hd.not_code hpc).symm, hd⟩

/-- A new `ZOMBIE` child of a process that is asleep in `kwait` comes from `reparent`. -/
theorem Tree.owesInit_of_zombie (ht : Tree s) (hs : Base s) (h : Sync.step kernel s a = some s')
    (hd : Dormant s p (procChan p) .wait)
    (hold : (s.proc c).parent = some p → (s.proc c).state ≠ .zombie)
    (hparent : (s'.proc c).parent = some p) (hzombie : (s'.proc c).state = .zombie) :
    ∃ q, q ≠ p ∧ OwesInit s' p q := by
  have hmove := hs.state_move h c
  rw [hzombie] at hmove
  generalize hst : (s.proc c).state = st at hmove
  cases hmove with
  | exit i status ha hpc =>
    subst ha
    exact absurd hd (ht.parent_of_exit hpc h hparent)
  | same =>
    -- it was a `ZOMBIE` before, so its parent is new
    have hmove := hs.family_move h
    have hparent' : family s'.proc c = some p := hparent
    generalize family s'.proc = fam at hmove hparent'
    cases hmove with
    | same => exact absurd hst (hold hparent')
    | fork q i np _ hpc =>
      rw [Function.update_apply] at hparent'
      split at hparent'
      · subst c
        exact nomatch (hs.expects q _ _ .used hpc rfl).symm.trans hst
      · exact absurd hst (hold hparent')
    | adopt q i status pp ha hpc =>
      rw [Function.update_apply] at hparent'
      split at hparent'
      · subst ha
        have has := step_assigns hpc rfl h
        refine ⟨q, hd.not_code hpc, (Option.some.inj hparent').symm, status, pp, ?_⟩
        rw [has.next, State.goto_pc_self]
      · exact absurd hst (hold hparent')
    | alloc | free =>
      rw [Function.update_apply] at hparent'
      split at hparent'
      · exact nomatch hparent'
      · exact absurd hst (hold hparent')

theorem ParentsWait.step (hw : ParentsWait s) (hs : Base s) (ht : Tree s)
    (h : Sync.step kernel s a = some s') : ParentsWait s' := by
  intro p
  refine signal_step hs h ?_ ?_ ?_ (hw p)
  · rintro i x rfl hpc
    exact ht.noZombie_of_sleep hs hpc h
  · intro hd₀ hok
    by_cases hok' : NoZombie p s'.proc NPROC
    · exact Or.inl hok'
    · unfold NoZombie at hok'
      push Not at hok'
      obtain ⟨c, hc, hparent, hzombie⟩ := hok'
      exact Or.inr (ht.owesInit_of_zombie hs h hd₀ (hok c hc) hparent hzombie)
  · intro q hqp _ hq
    obtain ⟨hp, status, pp, hpc⟩ := hq
    right
    by_cases ha : ∃ i, a = .run (.proc q) i
    · obtain ⟨i, rfl⟩ := ha
      right
      rw [step_wakeup hpc rfl h, Scans, State.goto_pc_self, hp]
      exact ⟨⟨rfl, Nat.zero_le _⟩, _, rfl, rfl⟩
    · exact Or.inl ⟨hp, status, pp, hs.code_kept h (fun i hi => ha ⟨i, hi⟩) hpc⟩

theorem boot_parentsWait (data : ℕ → ℕ → UInt8) : ParentsWait (boot data) := by
  intro p hd
  rcases hd with ⟨x, hx⟩ | ⟨⟨x, hx⟩, -⟩
  · exact nomatch hx
  · exact nomatch hx

/-! ## The record of exits and waits -/

theorem record_kept (h : Sync.step kernel s a = some s') :
    (s'.exits = s.exits ∧ s'.waits = s.waits ∧ s'.tag = s.tag) ∨
      ∃ p x op y, Assigns s a s' p x op y := by
  cases a with
  | run t i =>
    obtain ⟨pc, act, pc', s₁, -, hpc, hnext, hacted, rfl⟩ := step_run h
    cases hacted with
    | table op =>
      cases hnext with
      | table x op y hx =>
        obtain ⟨p, rfl, hplace⟩ := tablePlace_of_instr hx
        exact Or.inr ⟨p, x, op, y, ⟨i, rfl⟩, hpc, hplace, rfl⟩
    | _ => exact Or.inl ⟨rfl, rfl, rfl⟩
  | dispatch r =>
    obtain ⟨pc, -, -, -, rfl⟩ := step_dispatch h
    exact Or.inl ⟨rfl, rfl, rfl⟩
  | settle r =>
    obtain ⟨-, rfl⟩ := step_settle h
    exact Or.inl ⟨rfl, rfl, rfl⟩

/-- How a step changes the record. -/
inductive RecordMove (s : KState) (a : KLabel) (s' : KState) : Prop
  | same : s'.exits = s.exits → s'.waits = s.waits → s'.tag = s.tag → RecordMove s a s'
  | exit (p : Slot) (i : Input) (status : ℤ) : a = .run (.proc p) i →
      s.pc (.proc p) = .code (.exit status .zombie) →
      s'.exits = s.exits ++ [⟨p, (s.proc p).pid, status⟩] → s'.waits = s.waits →
      s'.tag = Function.update s.tag p s.exits.length → RecordMove s a s'
  | free (p : Slot) (i : Input) (addr : Bool) (pp : Slot) : a = .run (.proc p) i →
      s.pc (.proc p) = .code (.wait addr (.free pp)) → s'.exits = s.exits →
      s'.waits = s.waits ++ [⟨.proc p, (s.proc pp).parent, exitOf s.proc pp, s.tag pp⟩] →
      s'.tag = s.tag → RecordMove s a s'

theorem record_move (h : Sync.step kernel s a = some s') : RecordMove s a s' := by
  rcases record_kept h with ⟨hexits, hwaits, htag⟩ | ⟨p, x, op, y, ⟨i, ha⟩, hpc, hplace, hnext⟩
  · exact .same hexits hwaits htag
  · subst hnext
    cases hplace with
    | zombie status => exact .exit p i status ha hpc rfl rfl rfl
    | free addr pp => exact .free p i addr pp ha hpc rfl rfl rfl
    | _ => exact .same rfl rfl rfl

/-- A `ZOMBIE` was one before, with the same pid and status, or has just exited. -/
theorem Base.zombie_before (hs : Base s) (h : Sync.step kernel s a = some s')
    (hc : (s'.proc c).state = .zombie) :
    ((s.proc c).state = .zombie ∧ exitOf s'.proc c = exitOf s.proc c) ∨
      ∃ i status, a = .run (.proc c) i ∧ s.pc (.proc c) = .code (.exit status .zombie) := by
  have hmove := hs.state_move h c
  rw [hc] at hmove
  generalize hst : (s.proc c).state = st at hmove
  cases hmove with
  | exit i status ha hpc => exact Or.inr ⟨i, status, ha, hpc⟩
  | same =>
    refine Or.inl ⟨rfl, ?_⟩
    rcases (stable_of_fields fun pid _ xstate => (⟨c, pid, xstate⟩ : Exit)).step h with
      hkept | ⟨p, x, op, y, has⟩
    · exact hkept c
    · have hpc := has.pc
      have hexpects := hs.expects p x c
      rw [has.proc] at hc ⊢
      rcases s.editTable_apply (.proc p) op c with heq | ⟨f, hf, heq⟩
      · rw [exitOf, heq]
        rfl
      · rw [exitOf, heq]
        rw [heq] at hc
        cases has.place with
        | alloc np | allocFail np =>
          obtain ⟨rfl, -⟩ := Prod.mk.inj (Option.some.inj hf)
          exact nomatch (hexpects .unused hpc rfl).symm.trans hst
        | free addr pp =>
          obtain ⟨rfl, rfl⟩ := Prod.mk.inj (Option.some.inj hf)
          exact nomatch hc
        | zombie status =>
          obtain ⟨rfl, -⟩ := Prod.mk.inj (Option.some.inj hf)
          have hfits := hs.fits p
          rw [hpc] at hfits
          exact nomatch hfits.symm.trans hst
        | _ =>
          obtain ⟨rfl, rfl⟩ := Prod.mk.inj (Option.some.inj hf)
          rfl

/-- The record agrees with the table: every `ZOMBIE` stands for an exit of its own that nobody has
waited for, and every successful `kwait` was for an exit of its own, by the parent. -/
structure Record (s : KState) : Prop where
  exit : ∀ c, (s.proc c).state = .zombie → s.exits[s.tag c]? = some (exitOf s.proc c)
  distinct : ∀ c d, (s.proc c).state = .zombie → (s.proc d).state = .zombie →
    s.tag c = s.tag d → c = d
  fresh : ∀ c, (s.proc c).state = .zombie → s.tag c ∉ s.waits.map Wait.tag
  nodup : (s.waits.map Wait.tag).Nodup
  wait : ∀ w ∈ s.waits, s.exits[w.tag]? = some w.exit ∧
    ∃ p, w.caller = .proc p ∧ w.parent = some p

theorem Record.tag_lt (hr : Record s) (hc : (s.proc c).state = .zombie) :
    s.tag c < s.exits.length :=
  (List.getElem?_eq_some_iff.mp (hr.exit c hc)).1

theorem Record.wait_tag_lt (hr : Record s) {n : ℕ} (hn : n ∈ s.waits.map Wait.tag) :
    n < s.exits.length := by
  obtain ⟨w, hw, rfl⟩ := List.mem_map.mp hn
  exact (List.getElem?_eq_some_iff.mp (hr.wait w hw).1).1

theorem Base.zombie_kept (hs : Base s) (h : Sync.step kernel s a = some s')
    (hc : (s'.proc c).state = .zombie)
    (hno : ∀ i status, a = .run (.proc c) i → s.pc (.proc c) ≠ .code (.exit status .zombie)) :
    (s.proc c).state = .zombie ∧ exitOf s'.proc c = exitOf s.proc c := by
  rcases hs.zombie_before h hc with hold | ⟨i, status, ha, hpc⟩
  · exact hold
  · exact absurd hpc (hno i status ha)

theorem Record.step_exit (hr : Record s) (hs : Base s)
    (hpc : s.pc (.proc p) = .code (.exit status .zombie))
    (h : Sync.step kernel s (.run (.proc p) i) = some s')
    (hexits : s'.exits = s.exits ++ [⟨p, (s.proc p).pid, status⟩]) (hwaits : s'.waits = s.waits)
    (htag : s'.tag = Function.update s.tag p s.exits.length) : Record s' := by
  have hkept : ∀ {c}, c ≠ p → (s'.proc c).state = .zombie →
      (s.proc c).state = .zombie ∧ exitOf s'.proc c = exitOf s.proc c ∧ s'.tag c = s.tag c := by
    intro c hcp hc
    obtain ⟨hold, hexit⟩ := hs.zombie_kept h hc (by rintro j _ ⟨⟩; exact absurd rfl hcp)
    exact ⟨hold, hexit, by rw [htag, Function.update_of_ne hcp]⟩
  have htagp : s'.tag p = s.exits.length := by rw [htag, Function.update_self]
  have hexitp : exitOf s'.proc p = ⟨p, (s.proc p).pid, status⟩ := by
    rw [exitOf, proc_of_exit hpc h]
    rfl
  have hlt : ∀ {c}, c ≠ p → (s'.proc c).state = .zombie → s'.tag c < s.exits.length := by
    intro c hcp hc
    obtain ⟨hold, -, htagc⟩ := hkept hcp hc
    rw [htagc]
    exact hr.tag_lt hold
  refine ⟨fun c hc => ?_, fun c d hc hd hcd => ?_, fun c hc => ?_, ?_, ?_⟩
  · by_cases hcp : c = p
    · subst hcp
      rw [hexits, htagp, hexitp, List.getElem?_append_right le_rfl, Nat.sub_self]
      rfl
    · obtain ⟨hold, hexit, htagc⟩ := hkept hcp hc
      rw [hexits, htagc, hexit, List.getElem?_append_left (hr.tag_lt hold)]
      exact hr.exit c hold
  · -- the new tag is larger than all others
    by_cases hcp : c = p
    · by_cases hdp : d = p
      · rw [hcp, hdp]
      · subst hcp
        have := hlt hdp hd
        omega
    · by_cases hdp : d = p
      · subst hdp
        have := hlt hcp hc
        omega
      · obtain ⟨hoc, -, htc⟩ := hkept hcp hc
        obtain ⟨hod, -, htd⟩ := hkept hdp hd
        exact hr.distinct c d hoc hod (htc.symm.trans (hcd.trans htd))
  · rw [hwaits]
    by_cases hcp : c = p
    · subst hcp
      rw [htagp]
      exact fun hmem => absurd (hr.wait_tag_lt hmem) (lt_irrefl _)
    · obtain ⟨hold, -, htagc⟩ := hkept hcp hc
      rw [htagc]
      exact hr.fresh c hold
  · rw [hwaits]
    exact hr.nodup
  · intro w hw
    rw [hwaits] at hw
    obtain ⟨hexit, hparent⟩ := hr.wait w hw
    rw [hexits, List.getElem?_append_left (List.getElem?_eq_some_iff.mp hexit).1]
    exact ⟨hexit, hparent⟩

theorem Record.step_free (hr : Record s) (hs : Base s) (ht : Tree s)
    (hpc : s.pc (.proc p) = .code (.wait addr (.free pp)))
    (h : Sync.step kernel s (.run (.proc p) i) = some s') (hexits : s'.exits = s.exits)
    (hwaits : s'.waits = s.waits ++ [⟨.proc p, (s.proc pp).parent, exitOf s.proc pp, s.tag pp⟩])
    (htag : s'.tag = s.tag) : Record s' := by
  have hzombie : (s.proc pp).state = .zombie := hs.expects p _ pp .zombie hpc rfl
  have hkept : ∀ {c}, (s'.proc c).state = .zombie →
      c ≠ pp ∧ (s.proc c).state = .zombie ∧ exitOf s'.proc c = exitOf s.proc c := by
    intro c hc
    refine ⟨?_, hs.zombie_kept h hc ?_⟩
    · rintro rfl
      rw [proc_of_free hpc h] at hc
      exact nomatch hc
    · rintro j status ⟨⟩
      exact fun hpc' => nomatch hpc.symm.trans hpc'
  have hparent : (s.proc pp).parent = some p := by
    have hkin := ht.kin p
    rwa [hpc] at hkin
  refine ⟨fun c hc => ?_, fun c d hc hd hcd => ?_, fun c hc => ?_, ?_, ?_⟩
  · obtain ⟨-, hold, hexit⟩ := hkept hc
    rw [hexits, htag, hexit]
    exact hr.exit c hold
  · rw [htag] at hcd
    exact hr.distinct c d (hkept hc).2.1 (hkept hd).2.1 hcd
  · obtain ⟨hne, hold, -⟩ := hkept hc
    rw [htag, hwaits, List.map_append, List.mem_append, not_or]
    refine ⟨hr.fresh c hold, fun hmem => hne ?_⟩
    exact hr.distinct c pp hold hzombie (List.mem_singleton.mp hmem)
  · rw [hwaits, List.map_append]
    refine List.nodup_append.mpr ⟨hr.nodup, List.pairwise_singleton .., ?_⟩
    rintro n hn m hm rfl
    rw [List.mem_singleton.mp hm] at hn
    exact hr.fresh pp hzombie hn
  · intro w hw
    rw [hwaits] at hw
    rw [hexits]
    rcases List.mem_append.mp hw with hw | hw
    · exact hr.wait w hw
    · rw [List.mem_singleton.mp hw]
      exact ⟨hr.exit pp hzombie, p, rfl, hparent⟩

theorem Record.step (hr : Record s) (hs : Base s) (ht : Tree s)
    (h : Sync.step kernel s a = some s') : Record s' := by
  cases record_move h with
  | same hexits hwaits htag =>
    have hkept : ∀ {c}, (s'.proc c).state = .zombie →
        (s.proc c).state = .zombie ∧ exitOf s'.proc c = exitOf s.proc c := by
      intro c hc
      refine hs.zombie_kept h hc ?_
      rintro i status rfl hpc
      -- an exit would be recorded
      have hlen := congrArg (fun u : KState => u.exits.length) (step_assigns hpc rfl h).next
      simp [hexits, State.goto, State.table, Thread.myproc] at hlen
    refine ⟨fun c hc => ?_, fun c d hc hd => ?_, fun c hc => ?_, hwaits ▸ hr.nodup, ?_⟩
    · rw [hexits, htag, (hkept hc).2]
      exact hr.exit c (hkept hc).1
    · rw [htag]
      exact hr.distinct c d (hkept hc).1 (hkept hd).1
    · rw [htag, hwaits]
      exact hr.fresh c (hkept hc).1
    · rw [hwaits, hexits]
      exact hr.wait
  | exit p i status ha hpc hexits hwaits htag =>
    subst ha
    exact hr.step_exit hs hpc h hexits hwaits htag
  | free p i addr pp ha hpc hexits hwaits htag =>
    subst ha
    exact hr.step_free hs ht hpc h hexits hwaits htag

theorem boot_record (data : ℕ → ℕ → UInt8) : Record (boot data) := by
  have hno : ∀ c, ((boot data).proc c).state ≠ .zombie := by
    intro c
    show (bootTable c).state ≠ .zombie
    unfold bootTable
    split <;> simp [Proc.init]
  exact ⟨fun c hc => absurd hc (hno c), fun c _ hc => absurd hc (hno c),
    fun c hc => absurd hc (hno c), List.nodup_nil, fun _ hw => absurd hw List.not_mem_nil⟩

/-! ## When `copyout` fails -/

/-- `kwait` has found the zombie `pp` and failed to copy its status out; it releases its locks and
returns -1. -/
def Failing (s : KState) (p pp : Slot) (addr : Bool) : Prop :=
  s.pc (.proc p) = .code (.wait addr (.fail pp)) ∨ s.pc (.proc p) = .code (.wait addr .releaseWait)

theorem Failing.lock (hf : Failing s p pp addr) (hs : Base s) :
    s.lock (.cond .wait) = some (.proc p) := by
  rcases hf with hpc | hpc
  · exact hs.holds.lock (.proc p) _ (by simp) (hpc ▸ Or.inl rfl)
  · exact hs.holds.lock (.proc p) _ (by simp) (hpc ▸ rfl)

theorem Failing.zombie_kept (hf : Failing s p pp addr) (hs : Base s)
    (h : Sync.step kernel s a = some s') (hpp : (s.proc pp).state = .zombie) :
    (s'.proc pp).state = .zombie ∧ exitOf s'.proc pp = exitOf s.proc pp := by
  have hstate : (s'.proc pp).state = .zombie := by
    have hmove := hs.state_move h pp
    rw [hpp] at hmove
    generalize (s'.proc pp).state = st at hmove ⊢
    cases hmove with
    | same => rfl
    | free q i _ _ hpc =>
      -- `freeproc` needs `wait_lock`
      obtain rfl := hs.eq_of_wait (hf.lock hs) hpc (Or.inl rfl)
      rcases hf with hpc' | hpc'
      · exact nomatch hpc.symm.trans hpc'
      · exact nomatch hpc.symm.trans hpc'
  refine ⟨hstate, (hs.zombie_kept h hstate fun _ status _ hpc => ?_).2⟩
  have hfits := hs.fits pp
  rw [hpc, hpp] at hfits
  exact nomatch hfits

theorem Base.zombie_of_failing (hs : Base s) {hist : List KLabel} {t : KState}
    (hrun : RunWith KSteps (fun u _ => Failing u p pp addr) s hist t)
    (hpp : (s.proc pp).state = .zombie) :
    (t.proc pp).state = .zombie ∧ exitOf t.proc pp = exitOf s.proc pp := by
  have hinv := hrun.invariant
    (I := fun u => Base u ∧ (u.proc pp).state = .zombie ∧ exitOf u.proc pp = exitOf s.proc pp)
    ⟨hs, hpp, rfl⟩ fun u b v hu hf hstep => by
      obtain ⟨hbase, hstate, hexit⟩ := hu
      obtain ⟨hstate', hexit'⟩ := hf.zombie_kept hbase hstep hstate
      exact ⟨hbase.step hstep, hstate', hexit'.trans hexit⟩
  exact hinv.2

/-! ## The main result -/

theorem Reachable.waits (hs : Reachable s) : ParentsWait s ∧ Record s := by
  obtain ⟨data, h, hrun⟩ := hs
  have hinv := hrun.invariant
    (I := fun s => Base s ∧ Tree s ∧ ParentsWait s ∧ Record s)
    ⟨boot_base data, boot_tree data, boot_parentsWait data, boot_record data⟩
    fun _ _ _ ht _ hstep =>
      ⟨ht.1.step hstep, ht.2.1.step ht.1 hstep, ht.2.2.1.step ht.1 ht.2.1 hstep,
        ht.2.2.2.step ht.1 ht.2.1 hstep⟩
  exact hinv.2.2

/-- When `wait_lock` is free, nobody sleeps in `kwait` with a `ZOMBIE` child. -/
theorem Reachable.noZombie (hs : Reachable s) (hlock : s.lock (.cond .wait) = none)
    (hp : (s.proc p).state = .sleeping) {chan : ℕ} {lk : CondLock} {x : Waiting}
    (hpc : s.pc (.proc p) = .asleep chan lk (.wait addr x)) : NoZombie p s.proc NPROC := by
  have hbase := hs.base
  have hplace := hbase.sleeps p chan lk _ (by rw [hpc]; exact ⟨rfl, rfl, rfl⟩)
  cases hplace
  rcases hs.waits.1 p (Or.inr ⟨⟨_, hpc⟩, hp⟩) with hok | ⟨q, -, ⟨-, status, pp, hq⟩ | hq⟩
  · exact hok
  · have hlock' := hbase.holds.lock (.proc q) (.cond .wait) (by simp) (hq ▸ rfl)
    exact nomatch hlock.symm.trans hlock'
  · exact nomatch hlock.symm.trans (hq.lock hbase)

/-- **Exit and wait.**  When `wait_lock` is free, nobody sleeps in `kwait` with a `ZOMBIE` child.
Every successful `kwait` returned pid and status of an exit, to the parent at that time, and no two
returned the same exit.  A `kwait` that fails to copy the status out has found a zombie child, and
until it has returned the zombie keeps its state, pid and status. -/
theorem exit_and_wait (hs : Reachable s) :
    (s.lock (.cond .wait) = none → ∀ p chan lk addr x, (s.proc p).state = .sleeping →
      s.pc (.proc p) = .asleep chan lk (.wait addr x) →
      ∀ c, (s.proc c).parent = some p → (s.proc c).state ≠ .zombie) ∧
    ((s.waits.map Wait.tag).Nodup ∧ ∀ w ∈ s.waits, s.exits[w.tag]? = some w.exit ∧
      ∃ p, w.caller = .proc p ∧ w.parent = some p) ∧
    ∀ p pp addr, s.pc (.proc p) = .code (.wait addr (.fail pp)) →
      (s.proc pp).parent = some p ∧ (s.proc pp).state = .zombie ∧
      ∀ hist t, RunWith KSteps (fun u _ => Failing u p pp addr) s hist t →
        (t.proc pp).state = .zombie ∧ (t.proc pp).pid = (s.proc pp).pid ∧
          (t.proc pp).xstate = (s.proc pp).xstate := by
  have hbase := hs.base
  have hrecord := hs.waits.2
  refine ⟨fun hlock p _ _ _ _ hp hpc c => ?_, ⟨hrecord.nodup, hrecord.wait⟩, ?_⟩
  · exact hs.noZombie hlock hp hpc c c.isLt
  · intro p pp addr hpc
    have hzombie := hbase.expects p _ pp .zombie hpc rfl
    have hkin := hs.tree.kin p
    rw [hpc] at hkin
    refine ⟨hkin, hzombie, fun hist t hrun => ?_⟩
    obtain ⟨hstate, hexit⟩ := hbase.zombie_of_failing hrun hzombie
    obtain ⟨-, hpid, hxstate⟩ := Exit.mk.inj hexit
    exact ⟨hstate, hpid, hxstate⟩

/-- The first process forks twice, its first child exits with status 3, and the first process waits
twice; it sleeps in the second `kwait`. -/
def waitActs : List KLabel :=
  [.dispatch 0] ++ acts 0 .fork 40 ++ [.dispatch 1] ++ acts 1 (.exit 3) 206 ++ [.settle 1] ++
    acts 0 (.wait false) 90

theorem exit_and_wait_twice :
    ∃ s, Reachable s ∧ (s.proc 0).state = .sleeping ∧ (s.proc 2).parent = some 0 ∧
      (s.proc 2).state ≠ .zombie ∧ s.waits = [⟨.proc 0, some 0, ⟨1, 2, 3⟩, 0⟩] ∧
      s.exits[0]? = some ⟨1, 2, 3⟩ := by
  have hexec : ((exec (Sync.step kernel) boot₀ waitActs).map fun s =>
      ((s.lock (.cond .wait), (s.proc 0).state, (s.proc 2).parent), s.pc (.proc 0), s.waits)) =
      some ((none, .sleeping, some 0), .asleep 1 .wait (.wait false (.scan 0 false)),
        [⟨.proc 0, some 0, ⟨1, 2, 3⟩, 0⟩]) := by
    decide +kernel
  obtain ⟨s, hs, hfields⟩ := Option.map_eq_some_iff.mp hexec
  simp only [Prod.mk.injEq] at hfields
  obtain ⟨⟨hlock, hstate, hparent⟩, hpc, hwaits⟩ := hfields
  have hreach := reachable_of_exec hs
  obtain ⟨hsleep, ⟨-, hrecord⟩, -⟩ := exit_and_wait hreach
  refine ⟨s, hreach, hstate, hparent, hsleep hlock 0 _ _ _ _ hstate hpc 2 hparent, hwaits, ?_⟩
  exact (hrecord ⟨.proc 0, some 0, ⟨1, 2, 3⟩, 0⟩ (by rw [hwaits]; exact List.mem_singleton_self _)).1

end Sync
end Xv6

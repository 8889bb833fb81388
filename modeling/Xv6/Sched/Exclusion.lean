import Xv6.Sched.Smp

/-!
# No process on two CPUs

The selection scan of `scheduler()` releases the lock of the process it has found, and the
dispatch acquires it again without looking at `p->state` a second time.  Between the two, another
CPU can find and dispatch the same process.

As long as every pick is fresh this does not happen (`dispatch_exclusive_iff_fresh`).  The invariant
is a statement of ownership.  A CPU owns the process it runs, the process it has picked and the child
it is forking, each in a state of its own (`Owns`).  While ownership is exclusive, no step of one CPU
changes the state of a slot that another CPU owns.
-/

namespace Xv6
namespace Sched

open Transition

variable {c : Cpu} {p : Slot} {new : Slot → Prop} {f : Proc → Proc}

/-! ## The property -/

/-- Every dispatch that can come next finds its process `RUNNABLE` and on no other CPU. -/
def SafeDispatch (s : State) : Prop :=
  ∀ j p, (s.cpu j).pc = .dispatch p →
    (s.proc p).state = .runnable ∧ ∀ k, k ≠ j → (s.cpu k).proc ≠ some p

/-- No process is the current process of two CPUs. -/
def Exclusive (s : State) : Prop :=
  ∀ j k p, (s.cpu j).proc = some p → (s.cpu k).proc = some p → j = k

/-! ## The condition -/

/-- The process the selection scan of CPU `j` picks at its next section, if any. -/
def picks (s : State) (j : CpuId) : Option Slot :=
  match (s.cpu j).pc with
  | .select q checked =>
    let idx := slotAt ((s.cpu j).lastQueuedProc q + checked)
    if (s.proc idx).eligible q then some idx else none
  | _ => none

/-- No other CPU has picked `p` and not yet dispatched it. -/
def Unclaimed (s : State) (j : CpuId) (p : Slot) : Prop :=
  ∀ k, k ≠ j → (s.cpu k).pc ≠ .dispatch p

/-- The step does not pick a process that another CPU has picked already.  A CPU about to pick
has no other step to take, so this is a condition on selections. -/
def Fresh (s : State) (l : Label) : Prop :=
  ∀ p, picks s l.cpu = some p → Unclaimed s l.cpu p

instance (s : State) (j : CpuId) (p : Slot) : Decidable (Unclaimed s j p) :=
  inferInstanceAs (Decidable (∀ k, k ≠ j → (s.cpu k).pc ≠ .dispatch p))

instance (s : State) (l : Label) : Decidable (Fresh s l) :=
  match h : picks s l.cpu with
  | none => isTrue fun p hp => absurd (h.symm.trans hp) (by simp)
  | some q => decidable_of_iff (Unclaimed s l.cpu q)
      ⟨fun hq _ hp => Option.some.inj (h.symm.trans hp) ▸ hq, fun hall => hall q h⟩

/-! ## Ownership -/

/-- What a CPU owns, and the state it relies on: the process it runs, the process it has picked,
the child it is forking. -/
inductive Owns (c : Cpu) : Slot → ProcState → Prop
  | running {p : Slot} : c.proc = some p → Owns c p .running
  | chosen {p : Slot} : c.pc = .dispatch p → Owns c p .runnable
  | forking {p : Slot} : c.thread = .forked p ∨ c.thread = .linked p → Owns c p .used

/-- Ownership is exclusive, and every slot is in the state its owner relies on. -/
structure Owned (s : State) : Prop where
  state : ∀ j p st, Owns (s.cpu j) p st → (s.proc p).state = st
  exclusive : ∀ j k p st, Owns (s.cpu j) p st → Owns (s.cpu k) p st → j = k

theorem Owned.safeDispatch {s : State} (hs : Owned s) : SafeDispatch s := by
  intro j p hj
  have hrunnable := hs.state j p _ (.chosen hj)
  refine ⟨hrunnable, fun k _ hk => ?_⟩
  have hrunning := hs.state k p _ (.running hk)
  rw [hrunnable] at hrunning
  exact absurd hrunning (by decide)

theorem Owned.exclusive_proc {s : State} (hs : Owned s) : Exclusive s :=
  fun j k p hj hk => hs.exclusive j k p _ (.running hj) (.running hk)

/-- The states no CPU relies on. -/
def Unowned (st : ProcState) : Prop := st = .unused ∨ st = .sleeping ∨ st = .zombie

theorem Owns.not_unowned {st : ProcState} (h : Owns c p st) : ¬ Unowned st := by
  cases h <;> simp [Unowned]

/-- What a step of CPU `j` may do to ownership: it leaves the other CPUs alone, changes the
state only of slots that it owns or that nobody can own, and what it owns afterwards is in
order; `new` lists what it may own afterwards though the slot was already in that state. -/
structure Keeps (s : State) (j : CpuId) (new : Slot → Prop) (s' : State) : Prop where
  frame : ∀ k, k ≠ j → s'.cpu k = s.cpu k
  change : ∀ p, (s'.proc p).state = (s.proc p).state ∨
    Owns (s.cpu j) p (s.proc p).state ∨ Unowned (s.proc p).state
  gain : ∀ p st, Owns (s'.cpu j) p st → (s'.proc p).state = st ∧
    (Owns (s.cpu j) p st ∨ (s.proc p).state ≠ st ∨ st = .runnable ∧ new p)

/-- **Ownership is kept** by a step that claims nothing another CPU has claimed. -/
theorem Owned.of_keeps {s s' : State} {j : CpuId} (hs : Owned s) (hk : Keeps s j new s')
    (hnew : ∀ p, new p → Unclaimed s j p) : Owned s' := by
  -- another CPU's slot keeps its state: `j` does not own it, and it is not an unowned state
  have hother : ∀ k p st, k ≠ j → Owns (s.cpu k) p st → (s'.proc p).state = st := by
    intro k p st hkj hown
    have hst := hs.state k p st hown
    rcases hk.change p with h | h | h
    · rw [h, hst]
    · rw [hst] at h
      exact absurd (hs.exclusive k j p st hown h) hkj
    · rw [hst] at h
      exact absurd h hown.not_unowned
  -- and `j` does not come to own a slot of another CPU
  have hdisj : ∀ k p st, k ≠ j → Owns (s.cpu k) p st → ¬ Owns (s'.cpu j) p st := by
    intro k p st hkj hown hown'
    rcases (hk.gain p st hown').2 with h | h | ⟨rfl, h⟩
    · exact hkj (hs.exclusive k j p st hown h)
    · exact h (hs.state k p st hown)
    · cases hown with
      | chosen hpc => exact hnew p h k hkj hpc
  constructor
  · intro k p st hown
    by_cases hkj : k = j
    · subst hkj
      exact (hk.gain p st hown).1
    · rw [hk.frame k hkj] at hown
      exact hother k p st hkj hown
  · intro k l p st hown hown'
    by_cases hkj : k = j <;> by_cases hlj : l = j
    · rw [hkj, hlj]
    · subst hkj
      rw [hk.frame l hlj] at hown'
      exact absurd hown (hdisj l p st hlj hown')
    · subst hlj
      rw [hk.frame k hkj] at hown
      exact absurd hown' (hdisj k p st hkj hown)
    · rw [hk.frame k hkj] at hown
      rw [hk.frame l hlj] at hown'
      exact hs.exclusive k l p st hown hown'

/-! ## What each section does to ownership -/

/-- What a CPU owns does not depend on where it is in the loop, as long as it has not picked
a process. -/
theorem Owns.of_pc {c' : Cpu} {st : ProcState} (h : Owns c' p st) (hproc : c'.proc = c.proc)
    (hthread : c'.thread = c.thread) (hpc : ∀ q, c'.pc ≠ .dispatch q) : Owns c p st := by
  cases h with
  | running h => exact .running (hproc ▸ h)
  | chosen h => exact absurd h (hpc p)
  | forking h => exact .forking (hthread ▸ h)

theorem not_owns_descheduled (c : Cpu) (p : Slot) (st : ProcState) :
    ¬ Owns c.descheduled p st := by
  intro h
  cases h with
  | running h => exact absurd h (by simp [Cpu.descheduled])
  | chosen h => exact absurd h (by simp [Cpu.descheduled])
  | forking h => exact absurd h (by simp [Cpu.descheduled])

theorem nextPromote_ne_dispatch (i q : Slot) : nextPromote i ≠ .dispatch q := by
  unfold nextPromote
  split <;> simp

theorem nextSelect_ne_dispatch (q checked : ℕ) (p : Slot) : nextSelect q checked ≠ .dispatch p := by
  unfold nextSelect
  split
  · simp
  · split <;> simp

variable {s s' : State} {j : CpuId}

/-- A step that changes no state and through which `j` comes to own nothing new. -/
theorem Owned.keeps_of_state (hs : Owned s) (new : Slot → Prop)
    (hframe : ∀ k, k ≠ j → s'.cpu k = s.cpu k)
    (hstate : ∀ p, (s'.proc p).state = (s.proc p).state)
    (hown : ∀ p st, Owns (s'.cpu j) p st → Owns (s.cpu j) p st) : Keeps s j new s' where
  frame := hframe
  change := fun p => Or.inl (hstate p)
  gain := fun p st h => by
    have h' := hown p st h
    exact ⟨(hstate p).trans (hs.state j p st h'), Or.inl h'⟩

theorem keeps_upd {g : Cpu → Cpu}
    (hp : (f (s.proc p)).state = (s.proc p).state ∨ Owns (s.cpu j) p (s.proc p).state ∨
      Unowned (s.proc p).state)
    (hgain : ∀ q st, Owns (g (s.cpu j)) q st → ((s.updProc p f).proc q).state = st ∧
      (Owns (s.cpu j) q st ∨ (s.proc q).state ≠ st ∨ st = .runnable ∧ new q)) :
    Keeps s j new ((s.updProc p f).updCpu j g) where
  frame := fun k hk => by rw [State.updCpu_cpu_of_ne _ _ hk, State.updProc_cpu]
  change := fun q => by
    rw [State.updCpu_proc]
    by_cases hq : q = p
    · subst hq
      rw [State.updProc_proc_self]
      exact hp
    · rw [State.updProc_proc_of_ne _ _ hq]
      exact Or.inl rfl
  gain := fun q st h => by
    rw [State.updCpu_cpu_self, State.updProc_cpu] at h
    rw [State.updCpu_proc]
    exact hgain q st h

theorem Owned.keeps_updProc (hs : Owned s) (new : Slot → Prop)
    (hp : (f (s.proc p)).state = (s.proc p).state ∨ Unowned (s.proc p).state) :
    Keeps s j new (s.updProc p f) where
  frame := fun k _ => by rw [State.updProc_cpu]
  change := fun q => by
    by_cases hq : q = p
    · subst hq
      rw [State.updProc_proc_self]
      exact hp.imp_right Or.inr
    · rw [State.updProc_proc_of_ne _ _ hq]
      exact Or.inl rfl
  gain := fun q st h => by
    rw [State.updProc_cpu] at h
    have hst := hs.state j q st h
    refine ⟨?_, Or.inl h⟩
    by_cases hq : q = p
    · subst hq
      rw [State.updProc_proc_self]
      rcases hp with hp | hp
      · rw [hp, hst]
      · rw [hst] at hp
        exact absurd hp h.not_unowned
    · rw [State.updProc_proc_of_ne _ _ hq, hst]

/-- What the selection scan of CPU `j` may newly own: the process it picks. -/
abbrev Picked (s : State) (j : CpuId) (p : Slot) : Prop := picks s j = some p

theorem keeps_promote (hs : Owned s) (h : stepPromote s j = some s') :
    Keeps s j (Picked s j) s' := by
  unfold stepPromote at h
  split at h
  · rename_i i hpc
    rw [← Option.some.inj h]
    refine hs.keeps_of_state _ (fun k hk => ?_) (fun p => ?_) (fun p st hown => ?_)
    · rw [State.updCpu_cpu_of_ne _ _ hk, State.updProc_cpu]
    · rw [State.updCpu_proc]
      by_cases hp : p = i
      · subst hp
        rw [State.updProc_proc_self, Proc.promote_state]
      · rw [State.updProc_proc_of_ne _ _ hp]
    · rw [State.updCpu_cpu_self, State.updProc_cpu] at hown
      exact hown.of_pc rfl rfl (nextPromote_ne_dispatch i)
  · exact absurd h (by simp)

theorem keeps_select (hs : Owned s) (h : stepSelect s j = some s') :
    Keeps s j (Picked s j) s' := by
  unfold stepSelect at h
  split at h
  · rename_i q checked hpc
    dsimp only at h
    split at h
    · rename_i helig
      rw [← Option.some.inj h]
      have hrunnable : (s.proc (slotAt ((s.cpu j).lastQueuedProc q + checked))).state =
          .runnable := by
        rw [Proc.eligible, decide_eq_true_eq] at helig
        exact helig.1
      have hpick : picks s j = some (slotAt ((s.cpu j).lastQueuedProc q + checked)) := by
        rw [picks, hpc]
        exact if_pos helig
      refine ⟨fun k hk => State.updCpu_cpu_of_ne _ _ hk, fun p => Or.inl rfl, fun p st hown => ?_⟩
      rw [State.updCpu_cpu_self] at hown
      rw [State.updCpu_proc]
      cases hown with
      | running hp => exact ⟨hs.state j p _ (.running hp), Or.inl (.running hp)⟩
      | chosen hp =>
        injection hp with hp
        subst hp
        exact ⟨hrunnable, Or.inr (Or.inr ⟨rfl, hpick⟩)⟩
      | forking hp => exact ⟨hs.state j p _ (.forking hp), Or.inl (.forking hp)⟩
    · rw [← Option.some.inj h]
      refine hs.keeps_of_state _ (fun k hk => State.updCpu_cpu_of_ne _ _ hk) (fun p => rfl)
        (fun p st hown => ?_)
      rw [State.updCpu_cpu_self] at hown
      exact hown.of_pc rfl rfl (nextSelect_ne_dispatch q checked)
  · exact absurd h (by simp)

theorem keeps_dispatch (hs : Owned s) (h : stepDispatch s j = some s') :
    Keeps s j (Picked s j) s' := by
  unfold stepDispatch at h
  split at h
  · rename_i p hpc
    rw [← Option.some.inj h]
    have hrunnable := hs.state j p _ (.chosen hpc)
    refine keeps_upd (Or.inr (Or.inl (hrunnable ▸ .chosen hpc))) (fun q st hown => ?_)
    cases hown with
    | running hq =>
      have hqp : p = q := Option.some.inj hq
      subst hqp
      rw [State.updProc_proc_self]
      exact ⟨rfl, Or.inr (Or.inl (by rw [hrunnable]; decide))⟩
    | chosen hq => exact absurd hq (by simp)
    | forking hq => exact absurd hq (by simp)
  · exact absurd h (by simp)

theorem Cpu.proc_of_running {t : Thread} (h : c.running t = some p) :
    c.proc = some p ∧ c.pc = .swtch ∧ c.thread = t := by
  unfold Cpu.running at h
  split at h
  · rename_i hc
    exact ⟨h, hc⟩
  · exact absurd h (by simp)

theorem keeps_giveUp (hs : Owned s) {t : Thread} (new : Slot → Prop)
    (h : stepGiveUp s j t f = some s') : Keeps s j new s' := by
  obtain ⟨p, hp, rfl⟩ := Option.map_eq_some_iff.mp h
  have hproc := (Cpu.proc_of_running hp).1
  have hrunning := hs.state j p _ (.running hproc)
  refine keeps_upd (Or.inr (Or.inl (hrunning ▸ .running hproc))) (fun q st hown => ?_)
  exact absurd hown (not_owns_descheduled _ q st)

theorem Keeps.of_clockintr (h : Keeps (s.clockintr j) j new s') : Keeps s j new s' where
  frame := fun k hk => by rw [h.frame k hk, State.clockintr_cpu]
  change := fun p => by simpa using h.change p
  gain := fun p st hown => by simpa using h.gain p st hown

theorem Owned.clockintr (hs : Owned s) (j : CpuId) : Owned (s.clockintr j) where
  state := by simpa using hs.state
  exclusive := by simpa using hs.exclusive

theorem keeps_kforkAlloc (hs : Owned s) {np : Slot} {ok : Bool}
    (h : stepKforkAlloc s j np ok = some s') : Keeps s j (Picked s j) s' := by
  unfold stepKforkAlloc at h
  split at h
  · rename_i p hp
    dsimp only at h
    obtain ⟨hproc, hpc, -⟩ := Cpu.proc_of_running hp
    split at h
    · rename_i hunused
      have hs' : Owned { s with nextpid := cInt (s.nextpid + 1) } := ⟨hs.state, hs.exclusive⟩
      have hun : Unowned (s.proc np).state := Or.inl hunused
      split at h
      · rw [← Option.some.inj h]
        have hk : Keeps { s with nextpid := cInt (s.nextpid + 1) } j (Picked s j)
            (({ s with nextpid := cInt (s.nextpid + 1) }.updProc np
              fun x => (x.allocproc s.nextpid).inherit (s.proc p)).updCpu j
                fun c => { c with thread := .forked np }) := by
          refine keeps_upd (Or.inr (Or.inr hun)) (fun q st hown => ?_)
          cases hown with
          | running hq =>
            have hst := hs.state j q _ (.running hq)
            have hne : q ≠ np := by
              rintro rfl
              rw [hunused] at hst
              exact absurd hst (by decide)
            rw [State.updProc_proc_of_ne _ _ hne]
            exact ⟨hst, Or.inl (.running hq)⟩
          | chosen hq => exact absurd (hpc.symm.trans hq) (by simp)
          | forking hq =>
            have hq' : np = q := by simpa using hq
            subst hq'
            rw [State.updProc_proc_self]
            exact ⟨rfl, Or.inr (Or.inl (by show (s.proc np).state ≠ _; rw [hunused]; decide))⟩
        exact ⟨hk.frame, hk.change, hk.gain⟩
      · rw [← Option.some.inj h]
        have hk := hs'.keeps_updProc (j := j) (f := fun x => (x.allocproc s.nextpid).freeproc)
          (p := np) (Picked s j) (Or.inr hun)
        exact ⟨hk.frame, hk.change, hk.gain⟩
    · exact absurd h (by simp)
  · exact absurd h (by simp)

theorem keeps_kforkParent (hs : Owned s) (h : stepKforkParent s j = some s') :
    Keeps s j (Picked s j) s' := by
  unfold stepKforkParent at h
  split at h
  · rename_i p np hpc hp hth
    rw [← Option.some.inj h]
    refine hs.keeps_of_state _ (fun k hk => ?_) (fun q => ?_) (fun q st hown => ?_)
    · rw [State.updCpu_cpu_of_ne _ _ hk, State.updProc_cpu]
    · rw [State.updCpu_proc]
      by_cases hq : q = np
      · subst hq
        rw [State.updProc_proc_self]
      · rw [State.updProc_proc_of_ne _ _ hq]
    · rw [State.updCpu_cpu_self, State.updProc_cpu] at hown
      cases hown with
      | running hq => exact .running hq
      | chosen hq => exact .chosen hq
      | forking hq =>
        have hq' : np = q := by simpa using hq
        exact .forking (Or.inl (hq' ▸ hth))
  · exact absurd h (by simp)

theorem keeps_kforkRunnable (hs : Owned s) (h : stepKforkRunnable s j = some s') :
    Keeps s j (Picked s j) s' := by
  unfold stepKforkRunnable at h
  split at h
  · rename_i np hpc hth
    rw [← Option.some.inj h]
    have hused := hs.state j np _ (.forking (Or.inr hth))
    refine keeps_upd (Or.inr (Or.inl (hused ▸ .forking (Or.inr hth)))) (fun q st hown => ?_)
    cases hown with
    | running hq =>
      have hst := hs.state j q _ (.running hq)
      have hne : q ≠ np := by
        rintro rfl
        rw [hused] at hst
        exact absurd hst (by decide)
      rw [State.updProc_proc_of_ne _ _ hne]
      exact ⟨hst, Or.inl (.running hq)⟩
    | chosen hq => exact absurd (hpc.symm.trans hq) (by simp)
    | forking hq => exact absurd hq (by simp)
  · exact absurd h (by simp)

theorem keeps_kerneltrap (hs : Owned s) (h : stepKerneltrap s j = some s') :
    Keeps s j (Picked s j) s' := by
  unfold stepKerneltrap at h
  split at h
  · split at h
    · rename_i p hp
      rw [← Option.some.inj h]
      exact Keeps.of_clockintr ((hs.clockintr j).keeps_updProc _ (Or.inl (Proc.tick_state _)))
    · rw [← Option.some.inj h]
      exact hs.keeps_of_state _ (fun k _ => by rw [State.clockintr_cpu])
        (fun p => by rw [State.clockintr_proc]) (fun p st hown => by simpa using hown)
  · exact absurd h (by simp)

theorem keeps_kexitReparent (hs : Owned s) (h : stepKexitReparent s j = some s') :
    Keeps s j (Picked s j) s' := by
  unfold stepKexitReparent at h
  split at h
  · rename_i p hp
    obtain ⟨-, hpc, -⟩ := Cpu.proc_of_running hp
    split at h
    · exact absurd h (by simp)
    · rw [← Option.some.inj h]
      refine hs.keeps_of_state _ (fun k hk => State.updCpu_cpu_of_ne _ _ hk) (fun q => ?_)
        (fun q st hown => ?_)
      · rw [State.updCpu_proc]
        unfold State.reparent
        dsimp only
        split <;> rfl
      · rw [State.updCpu_cpu_self] at hown
        cases hown with
        | running hq => exact .running hq
        | chosen hq => exact absurd (hpc.symm.trans hq) (by simp)
        | forking hq => exact absurd hq (by simp)
  · exact absurd h (by simp)

theorem keeps_kwaitFree (hs : Owned s) {pp : Slot} (h : stepKwaitFree s j pp = some s') :
    Keeps s j (Picked s j) s' := by
  unfold stepKwaitFree at h
  split at h
  · split at h
    · rename_i hz
      rw [← Option.some.inj h]
      exact hs.keeps_updProc _ (Or.inr (Or.inr (Or.inr hz.2)))
    · exact absurd h (by simp)
  · exact absurd h (by simp)

theorem keeps_wakeup (hs : Owned s) {chan : ℕ} (h : stepWakeup s j p chan = some s') :
    Keeps s j (Picked s j) s' := by
  unfold stepWakeup at h
  split at h
  · rw [← Option.some.inj h]
    refine hs.keeps_updProc _ ?_
    exact (Proc.wakeup_state (s.proc p) chan).imp_right fun hst => Or.inr (Or.inl hst.1)
  · exact absurd h (by simp)

theorem keeps_kkill (hs : Owned s) {pid : ℤ} (h : stepKkill s j p pid = some s') :
    Keeps s j (Picked s j) s' := by
  unfold stepKkill at h
  split at h
  · rw [← Option.some.inj h]
    refine hs.keeps_updProc _ ?_
    exact (Proc.kkill_state (s.proc p) pid).imp_right fun hst => Or.inr (Or.inl hst.1)
  · exact absurd h (by simp)

theorem keeps_setkilled (hs : Owned s) (h : stepSetkilled s j = some s') :
    Keeps s j (Picked s j) s' := by
  unfold stepSetkilled at h
  split at h
  · rw [← Option.some.inj h]
    exact hs.keeps_updProc _ (Or.inl rfl)
  · exact absurd h (by simp)

/-- Every section keeps ownership in order, up to the process a selection picks. -/
theorem keeps_step {l : Label} (hs : Owned s) (h : step s l = some s') :
    Keeps s l.cpu (Picked s l.cpu) s' := by
  obtain ⟨j, a⟩ := l
  cases a with
  | promote => exact keeps_promote hs h
  | select => exact keeps_select hs h
  | dispatch => exact keeps_dispatch hs h
  | kerneltrap => exact keeps_kerneltrap hs h
  | yield => exact Keeps.of_clockintr (keeps_giveUp (hs.clockintr j) _ h)
  | sleep chan => exact keeps_giveUp hs _ h
  | kforkAlloc np ok => exact keeps_kforkAlloc hs h
  | kforkParent => exact keeps_kforkParent hs h
  | kforkRunnable => exact keeps_kforkRunnable hs h
  | kexitReparent => exact keeps_kexitReparent hs h
  | kexitZombie status => exact keeps_giveUp hs _ h
  | kwaitFree pp => exact keeps_kwaitFree hs h
  | wakeup p chan => exact keeps_wakeup hs h
  | kkill p pid => exact keeps_kkill hs h
  | setkilled => exact keeps_setkilled hs h

/-! ## Runs -/

theorem owned_boot : Owned boot := by
  have hnone : ∀ j p st, ¬ Owns (boot.cpu j) p st := by
    intro j p st h
    cases h with
    | running h => exact absurd h (by simp [boot, Cpu.boot])
    | chosen h => exact absurd h (by simp [boot, Cpu.boot])
    | forking h => exact absurd h (by simp [boot, Cpu.boot])
  exact ⟨fun j p st h => absurd h (hnone j p st), fun j k p st h => absurd h (hnone j p st)⟩

theorem Owned.of_step {l : Label} (hs : Owned s) (hfresh : Fresh s l) (h : step s l = some s') :
    Owned s' :=
  hs.of_keeps (keeps_step hs h) hfresh

theorem owned_of_run {h : List Label} (hrun : RunWith Steps Fresh boot h s) : Owned s :=
  hrun.invariant owned_boot fun _ _ _ ht hfresh hstep => ht.of_step hfresh hstep

/-- A dispatch of a process that another CPU has picked as well: that CPU's dispatch is no
longer safe. -/
theorem not_safeDispatch_of_claimed {k : CpuId} (hjk : j ≠ k) (hj : (s.cpu j).pc = .dispatch p)
    (hk : (s.cpu k).pc = .dispatch p) :
    ∃ s', step s ⟨k, .dispatch⟩ = some s' ∧ ¬ SafeDispatch s' := by
  refine ⟨_, by rw [step, stepDispatch, hk], fun hsafe => ?_⟩
  have hpc := (hsafe j p (by rw [State.updCpu_cpu_of_ne _ _ hjk, State.updProc_cpu, hj])).1
  rw [State.updCpu_proc, State.updProc_proc_self] at hpc
  exact absurd hpc (by simp [Proc.dispatch])

theorem step_select_of_picks (h : picks s j = some p) :
    ∃ s', step s ⟨j, .select⟩ = some s' ∧ (s'.cpu j).pc = .dispatch p ∧
      ∀ k, k ≠ j → s'.cpu k = s.cpu k := by
  unfold picks at h
  split at h
  · rename_i q checked hpc
    dsimp only at h
    split at h
    · rename_i helig
      have hp := Option.some.inj h
      have hstep : stepSelect s j = some (s.updCpu j fun c =>
          { c with
            pc := .dispatch p
            lastQueuedProc := Function.update c.lastQueuedProc q ((p.val + 1) % NPROC) }) := by
        rw [stepSelect, hpc, ← hp]
        exact if_pos helig
      refine ⟨_, hstep, ?_, fun k hk => State.updCpu_cpu_of_ne _ _ hk⟩
      rw [State.updCpu_cpu_self]
    · exact absurd h (by simp)
  · exact absurd h (by simp)

theorem picks_eq_none_of_dispatch (h : stepDispatch s j = some s') : picks s j = none := by
  unfold stepDispatch at h
  split at h
  · rename_i hpc
    rw [picks, hpc]
  · exact absurd h (by simp)

/-- **No process on two CPUs, exactly as long as every pick is fresh.**  In a run in which no
scan picks a process that another CPU has picked and not yet dispatched, every dispatch finds
its process `RUNNABLE` and current on no other CPU, and no process is current on two CPUs.  The
first pick that breaks the condition can be followed by a dispatch after which the next dispatch
is not safe, and no other pick can. -/
theorem dispatch_exclusive_iff_fresh {h : List Label} (hrun : RunWith Steps Fresh boot h s) :
    SafeDispatch s ∧ Exclusive s ∧
      ∀ j p, picks s j = some p →
        (Unclaimed s j p ↔ ∀ t, step s ⟨j, .select⟩ = some t →
          ∀ k u, step t ⟨k, .dispatch⟩ = some u → SafeDispatch u) := by
  have hs := owned_of_run hrun
  refine ⟨hs.safeDispatch, hs.exclusive_proc, fun j p hpick => ⟨fun hun t ht k u hu => ?_, ?_⟩⟩
  · have hfresh : Fresh s ⟨j, .select⟩ := fun q hq => by
      rw [hpick, Option.some.injEq] at hq
      exact hq ▸ hun
    have hts := hs.of_step hfresh ht
    refine (hts.of_step (fun q hq => ?_) hu).safeDispatch
    have hnone : picks t k = none := picks_eq_none_of_dispatch hu
    exact absurd (hnone.symm.trans hq) (by simp)
  · intro hall k hkj hk
    obtain ⟨t, ht, hpc, hframe⟩ := step_select_of_picks hpick
    obtain ⟨u, hu, hbad⟩ := not_safeDispatch_of_claimed hkj.symm hpc
      (by rw [hframe k hkj]; exact hk)
    exact hbad (hall t ht k u hu)

/-! ## Two CPUs after boot -/

/-- CPU `j` scans the table and picks a process of level 0 at its first try. -/
def scanActs (j : CpuId) : List Label :=
  List.replicate NPROC ⟨j, .promote⟩ ++ [⟨j, .select⟩]

/-- CPU 0 runs the first process, which forks; CPU 1 picks the child. -/
def forkActs : List Label :=
  scanActs 0 ++ [⟨0, .dispatch⟩, ⟨0, .kforkAlloc 1 true⟩, ⟨0, .kforkParent⟩,
    ⟨0, .kforkRunnable⟩] ++ scanActs 1 ++ [⟨1, .select⟩]

theorem dispatch_exclusive_iff_fresh_fork :
    ∃ h s, RunWith Steps Fresh boot h s ∧ (s.cpu 0).proc = some 0 ∧
      (s.cpu 1).pc = .dispatch 1 ∧ SafeDispatch s ∧ Exclusive s := by
  have hexec : ((execWith step Fresh boot forkActs).map fun s =>
      ((s.cpu 0).proc, (s.cpu 1).pc)) = some (some 0, .dispatch 1) := by
    decide +kernel
  obtain ⟨s, hs, hfields⟩ := Option.map_eq_some_iff.mp hexec
  obtain ⟨hproc, hpc⟩ := Prod.mk.inj hfields
  have hrun := run_of_execWith hs
  obtain ⟨hsafe, hexcl, -⟩ := dispatch_exclusive_iff_fresh hrun
  exact ⟨_, s, hrun, hproc, hpc, hsafe, hexcl⟩

/-- CPUs 0 and 1 scan, and both pick the first process; CPU 0 dispatches it. -/
def raceActs : List Label := scanActs 0 ++ scanActs 1 ++ [⟨0, .dispatch⟩]

/-- **The race after boot.**  CPU 1 is about to dispatch the first process, which is `RUNNING`
on CPU 0; one step later both run it. -/
theorem not_dispatch_exclusive :
    (¬ ∀ h s, Run Steps boot h s → SafeDispatch s) ∧
      ¬ ∀ h s, Run Steps boot h s → Exclusive s := by
  constructor
  · intro hall
    have hexec : ((exec step boot raceActs).map fun s => ((s.cpu 1).pc, (s.proc 0).state)) =
        some (.dispatch 0, .running) := by
      decide +kernel
    obtain ⟨s, hs, hfields⟩ := Option.map_eq_some_iff.mp hexec
    obtain ⟨hpc, hstate⟩ := Prod.mk.inj hfields
    have hrunnable := (hall _ s (run_of_execWith hs) 1 0 hpc).1
    exact absurd (hstate.symm.trans hrunnable) (by decide)
  · intro hall
    have hexec : ((exec step boot (raceActs ++ [⟨1, .dispatch⟩])).map fun s =>
        ((s.cpu 0).proc, (s.cpu 1).proc)) = some (some 0, some 0) := by
      decide +kernel
    obtain ⟨s, hs, hfields⟩ := Option.map_eq_some_iff.mp hexec
    obtain ⟨h0, h1⟩ := Prod.mk.inj hfields
    exact absurd (hall _ s (run_of_execWith hs) 0 1 0 h0 h1) (by decide)

end Sched
end Xv6

import Networking.Sched.Signals

/-!
# The handler and the lock

The handler of SIGCHLD signals an event for each child that has terminated, and for that it locks
`_lock` like any other code. When the thread that it interrupts has the lock, neither goes on.
-/

namespace Networking.Sched.Signals

open Transition

variable {φ : Type} {s s' : State φ} {a : Action φ} {child k : ℕ} {h : Handler}

/-- The program points between locking and unlocking. -/
def Pc.Critical : Pc φ → Prop
  | .push stage _ _ | .enter stage | .take stage | .leave stage => stage ≠ .lock
  | .pop | .undefined => True
  | .outside | .parked | .notified | .running => False

/-- The handler waits for the lock. -/
def Handler.Waits : Handler → Prop
  | .log locked _ _ | .signal locked _ _ => locked = false
  | .waitpid => False

def Handler.Locked : Handler → Prop
  | .log locked _ _ | .signal locked _ _ => locked = true
  | .waitpid => False

/-- `handle_chld` waits for the lock, and the thread that it has interrupted holds it. -/
def State.Deadlocked (s : State φ) : Prop :=
  s.lock = some .loop ∧ ∃ h, s.handler = some h ∧ h.Waits

/-- No child is found while the event-loop thread is in a critical section. -/
def Action.Safe (s : State φ) : Action φ → Prop
  | .handle _ => s.handler = some .waitpid → s.children ≠ [] → ¬s.pc.Critical
  | _ => True

structure Invariant (s : State φ) : Prop where
  loop : s.lock = some .loop ↔ s.pc.Critical
  handler : s.lock = some .handler ↔ ∃ h, s.handler = some h ∧ h.Locked

theorem invariant_init (verbose : Bool) : Invariant (State.init verbose : State φ) where
  loop := iff_of_false nofun id
  handler := iff_of_false nofun nofun

theorem critical_pushBack (s : State φ) (e : Event (Call φ)) :
    (pushBack s e).pc.Critical ↔ s.pc.Critical := by
  unfold pushBack
  cases s.pc <;> rfl

/-- What the event-loop thread does with the lock in one step: it takes it, gives it back, or stays
on its side of it. -/
structure LoopStep (s s' : State φ) : Prop where
  handler : s'.handler = s.handler
  lock : s.lock = none ∧ s'.lock = some .loop ∧ s'.pc.Critical
    ∨ s.pc.Critical ∧ s'.lock = none ∧ ¬s'.pc.Critical
    ∨ s'.lock = s.lock ∧ (s'.pc.Critical ↔ s.pc.Critical)

theorem LoopStep.acquire {pc : Pc φ} (hacquire : Signals.acquire s pc = some s')
    (hpc : pc.Critical) : LoopStep s s' := by
  rw [Signals.acquire, Option.ite_none_right_eq_some] at hacquire
  obtain ⟨hfree, hacquire⟩ := hacquire
  cases hacquire
  exact ⟨rfl, .inl ⟨hfree, rfl, hpc⟩⟩

theorem LoopStep.release {pc : Pc φ} (hrelease : Signals.release s pc = some s')
    (hcritical : s.pc.Critical) (hpc : ¬pc.Critical) : LoopStep s s' := by
  cases hrelease
  exact ⟨rfl, .inr (.inl ⟨hcritical, rfl, hpc⟩)⟩

theorem LoopStep.stay (hhandler : s'.handler = s.handler) (hlock : s'.lock = s.lock)
    (hpc : s'.pc.Critical ↔ s.pc.Critical) : LoopStep s s' :=
  ⟨hhandler, .inr (.inr ⟨hlock, hpc⟩)⟩

theorem LoopStep.of_run (hrun : run s = some s') : LoopStep s s' := by
  unfold run at hrun
  split at hrun
  case h_1 => exact .acquire hrun nofun
  case h_2 e inside hpc =>
    cases hrun
    exact .stay rfl rfl (iff_of_true nofun (hpc ▸ nofun))
  case h_3 e inside hpc =>
    refine .release hrun (hpc ▸ nofun) ?_
    cases inside <;> exact id
  case h_4 => exact .acquire hrun nofun
  case h_5 hpc =>
    cases hrun
    exact .stay rfl rfl (iff_of_true nofun (hpc ▸ nofun))
  case h_6 hpc => exact .release hrun (hpc ▸ nofun) fun h => h rfl
  case h_7 => exact .acquire hrun nofun
  case h_8 hpc =>
    split_ifs at hrun
    · exact .release hrun (hpc ▸ nofun) id
    · cases hrun
      exact .stay rfl rfl (iff_of_true trivial (hpc ▸ nofun))
  case h_9 => exact .acquire hrun trivial
  case h_10 hpc =>
    split at hrun <;> cases hrun
    · exact .stay rfl rfl (iff_of_true trivial (hpc ▸ trivial))
    · exact .stay rfl rfl (iff_of_true nofun (hpc ▸ trivial))
  case h_11 hpc => exact .release hrun (hpc ▸ nofun) id
  case h_12 => exact .acquire hrun nofun
  case h_13 hpc =>
    cases hrun
    exact .stay rfl rfl (iff_of_true nofun (hpc ▸ nofun))
  case h_14 hpc => exact .release hrun (hpc ▸ nofun) id
  case h_15 => cases hrun

theorem Handler.Waits.not_locked (hwaits : h.Waits) : ¬h.Locked := by
  cases h with
  | waitpid => exact hwaits.elim
  | log locked | signal locked =>
      obtain rfl : locked = false := hwaits
      exact nofun

/-- The handler finds no child, finds one, takes the lock, or gives it back. -/
inductive HandlerStep (s : State φ) (h : Handler) (s' : State φ) : Prop
  | done (hh : h = .waitpid) (hnone : s.children = []) (hlock : s'.lock = s.lock)
      (hpc : s'.pc = s.pc) (hhandler : s'.handler = none)
  | found (hh : h = .waitpid) (hsome : s.children ≠ []) (hlock : s'.lock = s.lock)
      (hpc : s'.pc = s.pc) (hhandler : ∃ h', s'.handler = some h' ∧ h'.Waits)
  | lock (hh : h.Waits) (hfree : s.lock = none) (hlock : s'.lock = some .handler)
      (hpc : s'.pc = s.pc) (hhandler : ∃ h', s'.handler = some h' ∧ h'.Locked)
  | unlock (hh : h.Locked) (hlock : s'.lock = none) (hpc : s'.pc.Critical ↔ s.pc.Critical)
      (hhandler : ∃ h', s'.handler = some h' ∧ ¬h'.Locked)

theorem HandlerStep.of_handle (hhandle : handle s child h = some s') : HandlerStep s h s' := by
  unfold handle at hhandle
  split at hhandle
  case h_1 =>
    by_cases hchildren : s.children = []
    · rw [if_pos hchildren] at hhandle
      cases hhandle
      exact .done rfl hchildren rfl rfl rfl
    · rw [if_neg hchildren] at hhandle
      obtain ⟨⟨pid, status⟩, -, rfl⟩ := Option.map_eq_some_iff.mp hhandle
      refine .found rfl hchildren rfl rfl ⟨_, rfl, ?_⟩
      split_ifs <;> rfl
  case h_2 | h_4 =>
    rw [Option.ite_none_right_eq_some] at hhandle
    obtain ⟨hfree, hhandle⟩ := hhandle
    cases hhandle
    exact .lock rfl hfree rfl rfl ⟨_, rfl, rfl⟩
  case h_3 =>
    cases hhandle
    exact .unlock rfl rfl (critical_pushBack s ⟨noName, .endl⟩) ⟨_, rfl, nofun⟩
  case h_5 pid status =>
    cases hhandle
    exact .unlock rfl rfl (critical_pushBack s ⟨"&Agent::death", .death pid status⟩)
      ⟨_, rfl, nofun⟩

/-- A step of the event-loop thread, of its handler, or of the rest of the world, which leaves both
where they are. -/
inductive StepCases (s : State φ) (a : Action φ) (s' : State φ) : Prop
  | loop (hnone : s.handler = none) (ha : ∀ child, a ≠ .handle child) (hloop : LoopStep s s')
  | handle (child : ℕ) (ha : a = .handle child) (h : Handler) (hh : s.handler = some h)
      (hstep : HandlerStep s h s')
  | deliver (ha : a = .deliver) (hnone : s.handler = none) (hlock : s'.lock = s.lock)
      (hpc : s'.pc = s.pc) (hhandler : s'.handler = some .waitpid)
  | world (ha : ∀ child, a ≠ .handle child) (hhandler : s'.handler = s.handler)
      (hpc : s'.pc.Critical ↔ s.pc.Critical)
      (hlock : s'.lock = s.lock ∨ s.lock = none ∧ (∃ i, s'.lock = some (.thread i))
        ∨ (∃ i, s.lock = some (.thread i)) ∧ s'.lock = none)

theorem ofLoop_cases {result : Option (State φ)} (hresult : ofLoop s result = some s') :
    s.handler = none ∧ result = some s' := by
  rwa [ofLoop, Option.ite_none_right_eq_some] at hresult

theorem StepCases.of_step (hstep : step s a = some s') : StepCases s a s' := by
  cases a with
  | push e =>
      obtain ⟨hnone, hstep⟩ := ofLoop_cases hstep
      split at hstep
      case h_1 hpc | h_2 hpc =>
        cases hstep
        exact .loop hnone nofun (.stay rfl rfl (iff_of_false (fun h => h rfl) (hpc ▸ id)))
      case h_3 => cases hstep
  | enter =>
      obtain ⟨hnone, hstep⟩ := ofLoop_cases hstep
      split at hstep
      case h_1 hpc =>
        cases hstep
        exact .loop hnone nofun (.stay rfl rfl (iff_of_false (fun h => h rfl) (hpc ▸ id)))
      case h_2 => cases hstep
  | run =>
      obtain ⟨hnone, hstep⟩ := ofLoop_cases hstep
      exact .loop hnone nofun (.of_run hstep)
  | finish terminates =>
      obtain ⟨hnone, hstep⟩ := ofLoop_cases hstep
      split at hstep
      case h_1 hpc =>
        cases hstep
        refine .loop hnone nofun (.stay rfl rfl (iff_of_false ?_ (hpc ▸ id)))
        cases terminates <;> exact fun h => h rfl
      case h_2 => cases hstep
  | spurious =>
      simp only [step] at hstep
      split at hstep
      case h_1 hpc =>
        cases hstep
        exact .world nofun rfl (iff_of_false id (hpc ▸ id)) (.inl rfl)
      case h_2 => cases hstep
  | exit pid status =>
      cases hstep
      exact .world nofun rfl .rfl (.inl rfl)
  | deliver =>
      rw [step, Option.ite_none_right_eq_some] at hstep
      obtain ⟨⟨hnone, -⟩, hstep⟩ := hstep
      cases hstep
      exact .deliver rfl hnone rfl rfl rfl
  | handle child =>
      obtain ⟨h, hh, hhandle⟩ := Option.bind_eq_some_iff.mp hstep
      exact .handle child rfl h hh (.of_handle hhandle)
  | threadLock i =>
      rw [step, Option.ite_none_right_eq_some] at hstep
      obtain ⟨hfree, hstep⟩ := hstep
      cases hstep
      exact .world nofun rfl .rfl (.inr (.inl ⟨hfree, i, rfl⟩))
  | threadPush i e =>
      rw [step, Option.ite_none_right_eq_some] at hstep
      obtain ⟨hlock, hstep⟩ := hstep
      cases hstep
      exact .world nofun rfl (critical_pushBack s e) (.inr (.inr ⟨⟨i, hlock⟩, rfl⟩))

/-! ### Every run -/

theorem Invariant.not_locked (hs : Invariant s) (hnone : s.handler = none) :
    s.lock ≠ some .handler := by
  intro hlock
  obtain ⟨h, hh, -⟩ := hs.handler.mp hlock
  rw [hnone] at hh
  cases hh

theorem Invariant.not_critical (hs : Invariant s) (hlock : s.lock ≠ some .loop) :
    ¬s.pc.Critical :=
  fun hcritical => hlock (hs.loop.mpr hcritical)

theorem Invariant.of_loopStep (hs : Invariant s) (hnone : s.handler = none)
    (hstep : LoopStep s s') : Invariant s' := by
  have hno : ¬∃ h, s'.handler = some h ∧ h.Locked := by
    rw [hstep.handler, hnone]
    rintro ⟨h, hh, -⟩
    cases hh
  rcases hstep.lock with ⟨-, hlock, hpc⟩ | ⟨-, hlock, hpc⟩ | ⟨hlock, hpc⟩
  · exact ⟨iff_of_true hlock hpc, iff_of_false (by simp [hlock]) hno⟩
  · exact ⟨iff_of_false (by simp [hlock]) hpc, iff_of_false (by simp [hlock]) hno⟩
  · exact ⟨by rw [hlock, hs.loop, hpc], iff_of_false (hlock ▸ hs.not_locked hnone) hno⟩

theorem Invariant.of_handlerStep (hs : Invariant s) (hh : s.handler = some h)
    (hstep : HandlerStep s h s') : Invariant s' := by
  have hlocked : s.lock = some .handler ↔ h.Locked := by
    rw [hs.handler, hh]
    simp
  cases hstep with
  | done hw hnone hlock hpc hhandler =>
      rw [hw] at hlocked
      refine ⟨by rw [hlock, hpc, hs.loop], iff_of_false (hlock ▸ hlocked.not.mpr id) ?_⟩
      simp [hhandler]
  | found hw hsome hlock hpc hhandler =>
      rw [hw] at hlocked
      obtain ⟨h', hh', hwaits⟩ := hhandler
      refine ⟨by rw [hlock, hpc, hs.loop], iff_of_false (hlock ▸ hlocked.not.mpr id) ?_⟩
      simpa [hh'] using hwaits.not_locked
  | lock hwaits hfree hlock hpc hhandler =>
      have hcritical := hs.not_critical (by simp [hfree])
      exact ⟨iff_of_false (by simp [hlock]) (hpc ▸ hcritical), iff_of_true hlock hhandler⟩
  | unlock hl hlock hpc hhandler =>
      have hcritical := hs.not_critical (by simp [hlocked.mpr hl])
      obtain ⟨h', hh', hnot⟩ := hhandler
      exact ⟨iff_of_false (by simp [hlock]) (hpc.not.mpr hcritical),
        iff_of_false (by simp [hlock]) (by simpa [hh'] using hnot)⟩

theorem Invariant.step (hs : Invariant s) (hstep : Signals.step s a = some s') : Invariant s' := by
  cases StepCases.of_step hstep with
  | loop hnone ha hloopStep => exact hs.of_loopStep hnone hloopStep
  | handle child ha h hh hhandlerStep => exact hs.of_handlerStep hh hhandlerStep
  | deliver ha hnone hlock hpc hhandler =>
      refine ⟨by rw [hlock, hpc, hs.loop], iff_of_false (hlock ▸ hs.not_locked hnone) ?_⟩
      simp [hhandler, Handler.Locked]
  | world ha hhandler hpc hlock =>
      obtain ⟨hloop, hhandler'⟩ := hs
      rcases hlock with hlock | ⟨hfree, i, hlock⟩ | ⟨⟨i, hheld⟩, hlock⟩
      · exact ⟨by rw [hlock, hpc, hloop], by rw [hlock, hhandler, hhandler']⟩
      · rw [hfree] at hloop hhandler'
        exact ⟨by simpa [hlock, hpc] using hloop, by simpa [hlock, hhandler] using hhandler'⟩
      · rw [hheld] at hloop hhandler'
        exact ⟨by simpa [hlock, hpc] using hloop, by simpa [hlock, hhandler] using hhandler'⟩

theorem safe_of_ne (ha : ∀ child, a ≠ .handle child) : a.Safe s := by
  cases a with
  | handle child => exact absurd rfl (ha child)
  | push | enter | run | finish | spurious | exit | deliver | threadLock | threadPush => trivial

theorem deadlocked_iff (hs : Invariant s) (hfine : ¬s.Deadlocked)
    (hstep : step s a = some s') : ¬s'.Deadlocked ↔ a.Safe s := by
  cases StepCases.of_step hstep with
  | loop hnone ha hloopStep =>
      refine iff_of_true ?_ (safe_of_ne ha)
      rintro ⟨-, h, hh, -⟩
      rw [hloopStep.handler, hnone] at hh
      cases hh
  | handle child ha h hh hhandlerStep =>
      subst ha
      cases hhandlerStep with
      | done hw hnone hlock hpc hhandler =>
          refine iff_of_true ?_ fun _ hsome => absurd hnone hsome
          rintro ⟨-, h', hh', -⟩
          rw [hhandler] at hh'
          cases hh'
      | found hw hsome hlock hpc hhandler =>
          rw [State.Deadlocked, and_iff_left hhandler, hlock, hs.loop, Action.Safe, hh, hw]
          simp [hsome]
      | lock hwaits hfree hlock hpc hhandler =>
          refine iff_of_true (fun hdead => nomatch hlock.symm.trans hdead.1) fun hw => ?_
          rw [hh] at hw
          cases hw
          exact hwaits.elim
      | unlock hlocked hlock hpc hhandler =>
          refine iff_of_true (fun hdead => nomatch hlock.symm.trans hdead.1) fun hw => ?_
          rw [hh] at hw
          cases hw
          exact hlocked.elim
  | deliver ha hnone hlock hpc hhandler =>
      refine iff_of_true ?_ (ha ▸ trivial)
      rintro ⟨-, h, hh, hwaits⟩
      rw [hhandler] at hh
      cases hh
      exact hwaits
  | world ha hhandler hpc hlock =>
      refine iff_of_true ?_ (safe_of_ne ha)
      rintro ⟨hloop, hwaiting⟩
      rw [hhandler] at hwaiting
      rcases hlock with hlock | ⟨-, i, hlock⟩ | ⟨-, hlock⟩ <;> rw [hlock] at hloop
      · exact hfine ⟨hloop, hwaiting⟩
      · cases hloop
      · cases hloop

/-- The thread does not go on, since its handler has not returned, and nobody else unlocks. -/
theorem deadlocked_stays (hdead : s.Deadlocked) (hstep : step s a = some s') : s'.Deadlocked := by
  obtain ⟨hloop, h, hh, hwaits⟩ := hdead
  cases StepCases.of_step hstep with
  | loop hnone ha hloopStep =>
      rw [hnone] at hh
      cases hh
  | handle child ha h' hh' hhandlerStep =>
      obtain rfl : h = h' := Option.some.inj (hh.symm.trans hh')
      cases hhandlerStep with
      | done hw | found hw =>
          rw [hw] at hwaits
          exact hwaits.elim
      | lock _ hfree =>
          rw [hloop] at hfree
          cases hfree
      | unlock hlocked => exact absurd hlocked hwaits.not_locked
  | deliver ha hnone =>
      rw [hnone] at hh
      cases hh
  | world ha hhandler hpc hlock =>
      rcases hlock with hlock | ⟨hfree, -⟩ | ⟨⟨i, hheld⟩, -⟩
      · exact ⟨hlock.trans hloop, h, hhandler.trans hh, hwaits⟩
      · rw [hloop] at hfree
        cases hfree
      · rw [hloop] at hheld
        cases hheld

/-- **The handler and the lock.** In every run, `handle_chld` does not wait for a lock that the
interrupted thread holds exactly when it has found no child in a critical section of that thread. -/
theorem not_deadlocked_iff_safe {verbose : Bool} {input : ℕ → Action φ}
    (hk : along step (State.init verbose) input k = some s) :
    ¬s.Deadlocked ↔ ∀ j < k, ∀ u, along step (State.init verbose) input j = some u →
      (input j).Safe u := by
  refine along_iff Invariant _ (fun u a => a.Safe u) (invariant_init verbose)
    (fun _ _ _ hs hstep => hs.step hstep) ?_ (fun _ _ _ hs hfine hstep =>
      deadlocked_iff hs hfine hstep) (fun _ _ _ _ hdead hstep => ?_) hk
  · exact fun hdead => nomatch hdead.1
  · exact not_not.mpr (deadlocked_stays (not_not.mp hdead) hstep)

/-- A child terminates, and SIGCHLD arrives while the thread is in `push` with the lock. -/
def interruptedPush : List (Action ℕ) :=
  [.push ⟨"logHeader", .endl⟩, .run, .exit 7 0, .deliver, .handle 0]

/-- Until `waitpid` finds the child all is well, and with that step it is not. -/
theorem not_deadlocked_iff_safe_sample :
    (∃ s : State ℕ,
      along step (State.init false) (fun j => interruptedPush.getD j .run) 4 = some s
        ∧ ¬s.Deadlocked)
    ∧ ∃ s : State ℕ,
      along step (State.init false) (fun j => interruptedPush.getD j .run) 5 = some s
        ∧ s.Deadlocked := by
  have hbefore : along step (State.init false : State ℕ) (fun j => interruptedPush.getD j .run) 4
    = some _ := rfl
  have hrun : along step (State.init false : State ℕ) (fun j => interruptedPush.getD j .run) 5
    = some _ := rfl
  refine ⟨⟨_, hbefore, (not_deadlocked_iff_safe hbefore).mpr ?_⟩, _, hrun, ?_⟩
  · intro j hj u hu
    have hcases : j = 0 ∨ j = 1 ∨ j = 2 ∨ j = 3 := by omega
    rcases hcases with rfl | rfl | rfl | rfl <;> trivial
  · by_contra hfine
    have hsafe := (not_deadlocked_iff_safe hrun).mp hfine 4 (by decide) _ rfl
    exact hsafe rfl (List.cons_ne_nil _ _) (by decide : Stage.held ≠ Stage.lock)

/-- The handler waits in `event_signal` for the lock of the thread below it. -/
theorem deadlocked_interruptedPush :
    ¬∀ s : State ℕ, Reaches step (fun _ _ => True) (State.init false) s →
      ¬(s.lock = some .loop ∧ ∃ pid status, s.handler = some (.signal false pid status)) := by
  intro hfine
  have hrun : along step (State.init false) (fun j => interruptedPush.getD j .run) 5
    = some _ := rfl
  exact hfine _ (reaches_of_along _ (fun _ _ => trivial) hrun) ⟨rfl, 7, 0, rfl⟩

end Networking.Sched.Signals

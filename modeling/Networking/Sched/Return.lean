import Networking.Sched.Startup

/-!
# The end of the scheduler

Each step of the program of `Networking.Sched.Startup` brings it closer to its end, when only so
many children can exit: the events of the handler come from children, the other events from the
constructor, and each is called once. It comes to rest where the constructor has returned, or where
the handler waits for the lock that its own thread holds.
-/

namespace Networking.Sched.Signals.Startup

open Transition

variable {n : ℕ} {p p' : Program} {s s' : State Func} {a : Action} {verbose : Bool} {o : Options}

def Action.IsExit : Action → Prop
  | .exit _ _ => True
  | _ => False

instance : DecidablePred Action.IsExit
  | .exit _ _ => .isTrue trivial
  | .call | .run | .finish | .spurious | .deliver | .handle _ => .isFalse id

/-- At most `n` children exit. -/
def Bounded (n : ℕ) (p : Program) (a : Action) : Prop := a.IsExit → p.record.exited.length < n

instance (p : Program) (a : Action) : Decidable (Bounded n p a) :=
  inferInstanceAs (Decidable (a.IsExit → p.record.exited.length < n))

/-! ### The rank -/

/-- What is left to do before the handler returns, with the events that it pushes on the way. -/
def handlerRank : Option Handler → ℕ
  | none => 0
  | some .waitpid => 1
  | some (.signal true _ _) => 8
  | some (.signal false _ _) => 9
  | some (.log true _ _) => 16
  | some (.log false _ _) => 17

/-- What the thread has left to do before its next statement or event. -/
def pcRank : Pc Func → ℕ
  | .push .lock _ _ => 9
  | .push .held _ _ => 8
  | .push .unlock _ _ => 1
  | .enter .lock => 6
  | .enter .held => 5
  | .enter .unlock => 4
  | .take .lock => 3
  | .take .held => 2
  | .pop => 1
  | .take .unlock => 6
  | .running => 5
  | .leave .lock => 3
  | .leave .held => 2
  | .leave .unlock => 1
  | .outside | .parked | .notified | .undefined => 0

def stateRank (s : State Func) : ℕ :=
  17 * s.children.length + 2 * s.pending.toNat + handlerRank s.handler
    + 6 * s.queue.length + pcRank s.pc

def rank (n : ℕ) (p : Program) : ℕ :=
  20 * (n - p.record.exited.length) + 10 * p.rest.length + stateRank p.record.state

/-- A step of the thread that leaves the queue alone. -/
theorem stateRank_lt {pc : Pc Func} (h : pcRank pc < pcRank s.pc) (registered : Bool)
    (lock : Option Owner) :
    stateRank { s with pc := pc, registered := registered, lock := lock } < stateRank s :=
  Nat.add_lt_add_left h _

theorem stateRank_pushBack (s : State Func) (e : Event (Call Func)) (hpc : s.pc ≠ .parked) :
    stateRank (pushBack s e) = stateRank s + 6 := by
  have hqueue : (pushBack s e).queue.length = s.queue.length + 1 := List.length_append
  rw [stateRank, stateRank, hqueue, pushBack_pc s e hpc]
  change 17 * s.children.length + 2 * s.pending.toNat + handlerRank s.handler + _ + _ = _
  omega

/-- A step of the handler. -/
theorem stateRank_handler (s : State Func) (lock : Option Owner) (handler : Option Handler) :
    stateRank { s with lock := lock, handler := handler } + handlerRank s.handler
      = stateRank s + handlerRank handler := by
  simp only [stateRank]
  omega

theorem stateRank_of_run (h : Ordered p) (hrun : Signals.run p.record.state = some s') :
    stateRank s' < stateRank p.record.state := by
  unfold Signals.run at hrun
  split at hrun
  case h_1 e inside hpc =>
    obtain ⟨-, hrun⟩ := Option.ite_none_right_eq_some.mp hrun
    cases hrun
    exact stateRank_lt (by rw [hpc]; exact Nat.lt_succ_self 8) _ _
  case h_2 e inside hpc =>
    cases hrun
    have hnot : (Pc.push .unlock e inside : Pc Func) ≠ .parked := nofun
    rw [stateRank_pushBack _ e hnot, stateRank, stateRank, hpc]
    exact Nat.add_lt_add_left (show 1 + 6 < 8 by decide) _
  case h_3 e inside hpc =>
    cases hrun
    refine stateRank_lt ?_ _ _
    have hpoint := h.point
    rw [hpc] at hpoint
    rw [hpc, hpoint.1]
    exact Nat.zero_lt_one
  case h_4 hpc | h_7 hpc | h_12 hpc =>
    obtain ⟨-, hrun⟩ := Option.ite_none_right_eq_some.mp hrun
    cases hrun
    exact stateRank_lt (by rw [hpc]; decide) _ _
  case h_5 hpc | h_6 hpc | h_11 hpc | h_13 hpc | h_14 hpc =>
    cases hrun
    exact stateRank_lt (by rw [hpc]; decide) _ _
  case h_8 hpc =>
    split_ifs at hrun
    · cases hrun
      exact stateRank_lt (by rw [hpc]; decide) _ _
    · cases hrun
      exact stateRank_lt (by rw [hpc]; decide) _ _
  case h_9 hpc =>
    have hpoint := h.point
    rw [hpc] at hpoint
    exact hpoint.elim
  case h_10 hpc =>
    split at hrun
    case h_1 hnil =>
      cases hrun
      exact stateRank_lt (by rw [hpc]; decide) _ _
    case h_2 e queue hqueue =>
      cases hrun
      rw [stateRank, stateRank, hqueue, hpc, List.length_cons, Nat.mul_succ, ← Nat.add_assoc,
        Nat.add_assoc _ 6]
      exact Nat.add_lt_add_left (show 6 < 6 + 1 by decide) _
  case h_15 => cases hrun

theorem stateRank_of_handle (hpc : s.pc ≠ .parked) {child : ℕ} {handler : Handler}
    (hhandler : s.handler = some handler) (hhandle : Signals.handle s child handler = some s') :
    stateRank s' < stateRank s := by
  unfold Signals.handle at hhandle
  split at hhandle
  case h_1 =>
    by_cases hnone : s.children = []
    · rw [if_pos hnone] at hhandle
      cases hhandle
      simp only [stateRank, hhandler, handlerRank]
      omega
    · rw [if_neg hnone] at hhandle
      obtain ⟨⟨pid, status⟩, hc, rfl⟩ := Option.map_eq_some_iff.mp hhandle
      obtain ⟨hlt, -⟩ := List.getElem?_eq_some_iff.mp hc
      have hle : handlerRank (some (if s.verbose ∧ ¬s.registered then
          .log false pid status else .signal false pid status)) ≤ 17 := by
        split_ifs
        · exact le_rfl
        · exact Nat.le_add_left 9 8
      simp only [stateRank, hhandler, List.length_eraseIdx_of_lt hlt]
      have : handlerRank (some .waitpid) = 1 := rfl
      omega
  case h_2 pid status | h_4 pid status =>
    obtain ⟨-, hhandle⟩ := Option.ite_none_right_eq_some.mp hhandle
    cases hhandle
    simp only [stateRank, hhandler, handlerRank]
    omega
  case h_3 pid status =>
    cases hhandle
    have hrank := stateRank_handler (pushBack s ⟨noName, .endl⟩) none
      (some (.signal false pid status))
    have hsame : (pushBack s ⟨noName, .endl⟩).handler = some (.log true pid status) := hhandler
    rw [stateRank_pushBack s _ hpc, hsame] at hrank
    exact Nat.lt_of_add_lt_add_right
      (hrank.trans_lt (show stateRank s + 6 + 9 < stateRank s + 16 by omega))
  case h_5 pid status =>
    cases hhandle
    have hrank := stateRank_handler (pushBack s ⟨"&Agent::death", .death pid status⟩) none
      (some .waitpid)
    have hsame : (pushBack s ⟨"&Agent::death", .death pid status⟩).handler
        = some (.signal true pid status) := hhandler
    rw [stateRank_pushBack s _ hpc, hsame] at hrank
    exact Nat.lt_of_add_lt_add_right
      (hrank.trans_lt (show stateRank s + 6 + 1 < stateRank s + 8 by omega))

theorem stateRank_of_call {statement : Statement}
    (hstep : Signals.step s statement.action = some s') : stateRank s' ≤ stateRank s + 9 := by
  cases statement with
  | signal e =>
      obtain ⟨-, hstep⟩ := ofLoop_eq_some hstep
      split at hstep
      case h_1 hpc =>
        cases hstep
        rw [stateRank, stateRank, hpc]
        exact le_rfl
      case h_2 hpc =>
        cases hstep
        rw [stateRank, stateRank, hpc, Nat.add_assoc]
        exact Nat.add_le_add_left (show 9 ≤ 5 + 9 by decide) _
      case h_3 => cases hstep
  | enter =>
      obtain ⟨-, hstep⟩ := ofLoop_eq_some hstep
      split at hstep
      case h_1 hpc =>
        cases hstep
        rw [stateRank, stateRank, hpc, Nat.add_assoc]
        exact Nat.add_le_add_left (show 6 ≤ 0 + 9 by decide) _
      case h_2 => cases hstep

/-- **Every step brings the program closer to its end.** -/
theorem rank_lt_of_step (h : Ordered p) (hbounded : Bounded n p a) (hstep : step p a = some p') :
    rank n p' < rank n p := by
  cases a with
  | call =>
      rw [step] at hstep
      split at hstep
      case h_1 => cases hstep
      case h_2 statement rest hrest =>
        obtain ⟨s', hs, rfl⟩ := through_eq_some hstep
        have hle : stateRank s' ≤ stateRank p.record.state + 9 := stateRank_of_call hs
        have hnone : statement.action.exited = [] := by cases statement <;> rfl
        simp only [rank, hnone, hrest, List.append_nil, List.length_cons]
        omega
  | run =>
      obtain ⟨s', hs, rfl⟩ := through_eq_some (a := .run) hstep
      have hlt := stateRank_of_run h (ofLoop_eq_some hs).2
      simp only [rank, Signals.Action.exited, List.append_nil]
      omega
  | finish =>
      obtain ⟨s', hs, rfl⟩ := through_eq_some hstep
      obtain ⟨-, hs⟩ := ofLoop_eq_some hs
      split at hs
      case h_1 hpc =>
        cases hs
        have hlt : pcRank (if p.taken.getLast?.any throws then .leave .lock else .take .lock)
            < pcRank p.record.state.pc := by
          rw [hpc]
          split_ifs <;> exact Nat.lt_add_of_pos_right (show 0 < 2 by decide)
        simp only [rank, stateRank, Signals.Action.exited, List.append_nil]
        omega
      case h_2 => cases hs
  | spurious =>
      obtain ⟨s', hs, rfl⟩ := through_eq_some hstep
      rw [Signals.step] at hs
      split at hs
      case h_1 hparked => exact absurd hparked h.not_parked
      case h_2 => cases hs
  | exit pid status =>
      obtain ⟨s', hs, rfl⟩ := through_eq_some hstep
      cases hs
      have hlt := hbounded trivial
      have hone := Bool.toNat_le p.record.state.pending
      simp only [rank, stateRank, Signals.Action.exited, List.length_append, List.length_singleton,
        Bool.toNat_true]
      omega
  | deliver =>
      obtain ⟨s', hs, rfl⟩ := through_eq_some hstep
      obtain ⟨⟨hnone, hpending⟩, hs⟩ := Option.ite_none_right_eq_some.mp hs
      cases hs
      simp only [rank, stateRank, Signals.Action.exited, List.append_nil, hnone, hpending,
        handlerRank, Bool.toNat_true, Bool.toNat_false]
      omega
  | handle child =>
      obtain ⟨s', hs, rfl⟩ := through_eq_some hstep
      obtain ⟨handler, hhandler, hhandle⟩ := Option.bind_eq_some_iff.mp hs
      have hlt := stateRank_of_handle h.not_parked hhandler hhandle
      simp only [rank, Signals.Action.exited, List.append_nil]
      omega

/-! ### What the program can do -/

theorem through_of_step {act : Signals.Action Func}
    (hs : Signals.step p.record.state act = some s') : ∃ p', p.through act = some p' := by
  rw [Program.through, recordStep, hs]
  exact ⟨_, rfl⟩

theorem exists_run (h : Inv o p) (hhandler : p.record.state.handler = none)
    (hpc : p.record.state.pc ≠ .outside) (hrunning : p.record.state.pc ≠ .running) :
    ∃ s', Signals.run p.record.state = some s' := by
  -- before a critical section the lock is free: the thread does not hold it, and nobody else runs
  have hfree : ¬p.record.state.pc.Critical → p.record.state.lock = none := by
    intro hcritical
    cases hlock : p.record.state.lock with
    | none => rfl
    | some owner =>
        cases owner with
        | loop => exact absurd (h.lock.loop.mp hlock) hcritical
        | handler => exact absurd hlock (h.lock.not_locked hhandler)
        | thread i => exact absurd hlock (h.free i)
  have hacquire : ∀ pc : Pc Func, ¬p.record.state.pc.Critical →
      ∃ s', acquire p.record.state pc = some s' := fun pc hcritical => ⟨_, if_pos (hfree hcritical)⟩
  have hpoint := h.ordered.point
  rw [Signals.run]
  cases hstage : p.record.state.pc with
  | outside => exact absurd hstage hpc
  | running => exact absurd hstage hrunning
  | parked | notified | undefined =>
      rw [hstage] at hpoint
      exact hpoint.elim
  | pop =>
      cases hqueue : p.record.state.queue with
      | nil => exact ⟨_, rfl⟩
      | cons e queue => exact ⟨_, rfl⟩
  | push stage e inside =>
      cases stage with
      | lock => exact hacquire _ (hstage ▸ fun hne => hne rfl)
      | held | unlock => exact ⟨_, rfl⟩
  | enter stage | leave stage =>
      cases stage with
      | lock => exact hacquire _ (hstage ▸ fun hne => hne rfl)
      | held | unlock => exact ⟨_, rfl⟩
  | take stage =>
      cases stage with
      | lock => exact hacquire _ (hstage ▸ fun hne => hne rfl)
      | unlock => exact ⟨_, rfl⟩
      | held =>
          dsimp only
          split_ifs
          · exact ⟨_, rfl⟩
          · exact ⟨_, rfl⟩

theorem exists_handle (h : Inv o p) {handler : Handler}
    (hhandler : p.record.state.handler = some handler) (hfine : ¬p.record.state.Deadlocked) :
    ∃ s', Signals.handle p.record.state 0 handler = some s' := by
  have hfree : handler.Waits → p.record.state.lock = none := by
    intro hwaits
    cases hlock : p.record.state.lock with
    | none => rfl
    | some owner =>
        cases owner with
        | loop => exact absurd ⟨hlock, handler, hhandler, hwaits⟩ hfine
        | handler =>
            obtain ⟨handler', hsome, hlocked⟩ := h.lock.handler.mp hlock
            obtain rfl : handler = handler' := Option.some.inj (hhandler.symm.trans hsome)
            exact absurd hlocked hwaits.not_locked
        | thread i => exact absurd hlock (h.free i)
  cases handler with
  | waitpid =>
      rw [Signals.handle]
      cases hchildren : p.record.state.children with
      | nil => exact ⟨_, if_pos rfl⟩
      | cons c children => exact ⟨_, if_neg (List.cons_ne_nil _ _)⟩
  | log locked pid status | signal locked pid status =>
      cases locked with
      | true => exact ⟨_, rfl⟩
      | false => exact ⟨_, if_pos (hfree rfl)⟩

/-- The program goes on until the constructor has returned, unless its handler waits for it. -/
theorem exists_step (h : Inv o p) (hnot : ¬p.Returned) (hfine : ¬p.record.state.Deadlocked) :
    ∃ a p', ¬a.IsExit ∧ step p a = some p' := by
  cases hhandler : p.record.state.handler with
  | some handler =>
      obtain ⟨s', hs⟩ := exists_handle h hhandler hfine
      have hstep : Signals.step p.record.state (.handle 0) = some s' := by
        rw [Signals.step, hhandler, Option.bind_some, hs]
      obtain ⟨p', hp⟩ := through_of_step hstep
      exact ⟨.handle 0, p', id, hp⟩
  | none =>
      have hloop : ∀ next : Option (State Func), ofLoop p.record.state next = next :=
        fun _ => if_pos hhandler
      by_cases houtside : p.record.state.pc = .outside
      · cases hrest : p.rest with
        | nil => exact absurd ⟨hrest, houtside⟩ hnot
        | cons statement rest =>
            have hstep : ∃ s', Signals.step p.record.state statement.action = some s' := by
              cases statement <;> exact ⟨_, by rw [Statement.action, Signals.step, hloop, houtside]⟩
            obtain ⟨s', hs⟩ := hstep
            obtain ⟨p', hp⟩ := through_of_step (p := { p with rest := rest }) hs
            refine ⟨.call, p', id, ?_⟩
            rw [step, hrest]
            exact hp
      · by_cases hrunning : p.record.state.pc = .running
        · have hstep : ∃ s', Signals.step p.record.state
              (.finish (p.taken.getLast?.any throws)) = some s' :=
            ⟨_, by rw [Signals.step, hloop, hrunning]⟩
          obtain ⟨s', hs⟩ := hstep
          obtain ⟨p', hp⟩ := through_of_step hs
          exact ⟨.finish, p', id, hp⟩
        · obtain ⟨s', hs⟩ := exists_run h hhandler houtside hrunning
          have hstep : Signals.step p.record.state .run = some s' := by
            rw [Signals.step, hloop, hs]
          obtain ⟨p', hp⟩ := through_of_step
            (p := { p with taken := p.taken ++ popped p.record.state }) hstep
          exact ⟨.run, p', id, hp⟩

/-! ### Where the program comes to rest -/

theorem handle_pc (hpc : s.pc ≠ .parked) {child : ℕ} {handler : Handler}
    (hhandle : Signals.handle s child handler = some s') : s'.pc = s.pc := by
  unfold Signals.handle at hhandle
  split at hhandle
  case h_1 =>
    by_cases hnone : s.children = []
    · rw [if_pos hnone] at hhandle
      cases hhandle
      rfl
    · rw [if_neg hnone] at hhandle
      obtain ⟨c, -, rfl⟩ := Option.map_eq_some_iff.mp hhandle
      rfl
  case h_2 | h_4 =>
    obtain ⟨-, hhandle⟩ := Option.ite_none_right_eq_some.mp hhandle
    cases hhandle
    rfl
  case h_3 =>
    cases hhandle
    exact pushBack_pc s ⟨noName, .endl⟩ hpc
  case h_5 pid status =>
    cases hhandle
    exact pushBack_pc s ⟨"&Agent::death", .death pid status⟩ hpc

theorem returned_step (h : Ordered p) (hreturned : p.Returned) (hstep : step p a = some p') :
    p'.Returned := by
  obtain ⟨hrest, hpc⟩ := hreturned
  obtain ⟨hsuffix, act, hsignals, hrecord⟩ := recordStep_of_step hstep
  obtain ⟨s', hs, hr⟩ := Option.map_eq_some_iff.mp hrecord
  rw [hrest] at hsuffix
  refine ⟨List.suffix_nil.mp hsuffix, ?_⟩
  rw [← hr]
  cases a with
  | call =>
      rw [Action.signals, hrest] at hsignals
      cases hsignals
  | run =>
      cases hsignals
      have hrun := (ofLoop_eq_some hs).2
      rw [Signals.run, hpc] at hrun
      cases hrun
  | finish =>
      cases hsignals
      obtain ⟨-, hs⟩ := ofLoop_eq_some hs
      rw [hpc] at hs
      cases hs
  | spurious =>
      cases hsignals
      rw [Signals.step, hpc] at hs
      cases hs
  | exit pid status =>
      cases hsignals
      cases hs
      exact hpc
  | deliver =>
      cases hsignals
      obtain ⟨-, hs⟩ := Option.ite_none_right_eq_some.mp hs
      cases hs
      exact hpc
  | handle child =>
      cases hsignals
      obtain ⟨handler, -, hhandle⟩ := Option.bind_eq_some_iff.mp hs
      exact (handle_pc h.not_parked hhandle).trans hpc

/-! ### Fair runs -/

variable {p₀ : Program}

/-- In the end the constructor has returned, or its handler waits for it. -/
theorem comes_to_end (hstart : Program.start verbose o = some p₀) (run : Run step (Bounded n) p₀)
    (hfair : run.Fair fun a => ¬a.IsExit) :
    ∃ k, (run.state k).Returned ∨ (run.state k).record.state.Deadlocked := by
  have hleads : run.LeadsTo (Inv o) fun p => p.Returned ∨ p.record.state.Deadlocked := by
    refine hfair.leadsTo _ _ (rank n) ?_ ?_
    · intro p h hnot
      rw [not_or] at hnot
      obtain ⟨a, p', hexit, hstep⟩ := exists_step h hnot.1 hnot.2
      exact ⟨a, p', hexit, fun h => absurd h hexit, hstep⟩
    · intro p a p' h _ hbounded hstep
      have hlt := rank_lt_of_step h.ordered hbounded hstep
      exact .inr ⟨h.step hstep, hlt.le, fun _ => hlt⟩
  obtain ⟨k, -, hk⟩ := hleads 0 (by rw [run.start]; exact inv_start hstart)
  exact ⟨k, hk⟩

/-- The handler, at `waitpid`, does not find a child while its thread holds the lock. -/
def Action.Safe (p : Program) (a : Action) : Prop :=
  ∀ child, a = .handle child → (Signals.Action.handle child : Signals.Action Func).Safe
    p.record.state

theorem safe_of_signals {act : Signals.Action Func} (h : a.signals p = some act) :
    act.Safe p.record.state ↔ a.Safe p := by
  cases a with
  | handle child =>
      cases h
      exact ⟨fun hsafe _ heq => by cases heq; exact hsafe, fun hsafe => hsafe child rfl⟩
  | call =>
      obtain ⟨statement, -, rfl⟩ := Option.map_eq_some_iff.mp h
      refine iff_of_true ?_ nofun
      cases statement <;> trivial
  | run | finish | spurious | exit pid status | deliver =>
      cases h
      exact iff_of_true trivial nofun

theorem deadlocked_step (h : Inv o p) (hstep : step p a = some p') :
    p'.record.state.Deadlocked ↔ p.record.state.Deadlocked ∨ ¬a.Safe p := by
  obtain ⟨-, act, hsignals, hrecord⟩ := recordStep_of_step hstep
  obtain ⟨s', hs, hr⟩ := Option.map_eq_some_iff.mp hrecord
  rw [← hr]
  by_cases hdead : p.record.state.Deadlocked
  · exact iff_of_true (deadlocked_stays hdead hs) (.inl hdead)
  · rw [or_iff_right hdead, ← safe_of_signals hsignals, ← deadlocked_iff h.lock hdead hs, not_not]

/-- **When the scheduler ends.** Take a run of the program in which finitely many children exit and
the program goes on as long as it can. Its constructor returns exactly if the handler never finds a
child while its own thread holds the lock. -/
theorem returns_iff (hstart : Program.start verbose o = some p₀) (run : Run step (Bounded n) p₀)
    (hfair : run.Fair fun a => ¬a.IsExit) :
    (∃ k, (run.state k).Returned)
      ↔ ∀ k a, run.input k = some a → a.Safe (run.state k) := by
  have hinv : ∀ k, Inv o (run.state k) := fun k => reaches_inv hstart (run.reaches k)
  constructor
  · rintro ⟨j, hj⟩ k a hinput
    by_contra hunsafe
    obtain ⟨-, hstep⟩ := run.next k a hinput
    have hdead := (deadlocked_step (hinv k) hstep).mpr (.inr hunsafe)
    -- both last for ever, and a constructor that has returned does not hold the lock
    obtain ⟨-, hrest, hpc⟩ := run.always (I := fun p => Inv o p ∧ p.Returned)
      (fun p a p' h _ hstep => ⟨h.1.step hstep, returned_step h.1.ordered h.2 hstep⟩)
      (le_max_left j (k + 1)) ⟨hinv j, hj⟩
    obtain ⟨-, hlock, -⟩ := run.always (I := fun p => Inv o p ∧ p.record.state.Deadlocked)
      (fun p a p' h _ hstep => ⟨h.1.step hstep, (deadlocked_step h.1 hstep).mpr (.inl h.2)⟩)
      (le_max_right j (k + 1)) ⟨hinv (k + 1), hdead⟩
    have hcritical := (hinv _).lock.loop.mp hlock
    rw [hpc] at hcritical
    exact hcritical
  · intro hsafe
    have hfine : ∀ k, ¬(run.state k).record.state.Deadlocked := by
      intro k
      induction k with
      | zero =>
          rw [run.start, start_eq_some hstart]
          exact fun hdead => nomatch hdead.1
      | succ k ih =>
          cases hinput : run.input k with
          | none => rwa [run.idle k hinput]
          | some a =>
              obtain ⟨-, hstep⟩ := run.next k a hinput
              rw [deadlocked_step (hinv k) hstep, not_or, not_not]
              exact ⟨ih, hsafe k a hinput⟩
    obtain ⟨k, hreturned | hdead⟩ := comes_to_end hstart run hfair
    · exact ⟨k, hreturned⟩
    · exact absurd hdead (hfine k)

theorem twoExits_returns :
    ∃ p, follow step (Bounded 2) ⟨.start false, statements ⟨false, false, false, false⟩, []⟩
        twoExits = some p
      ∧ p.Returned ∧ ∀ a : Action, ¬a.IsExit → step p a = none := by
  refine ⟨_, rfl, ⟨rfl, rfl⟩, fun a ha => ?_⟩
  cases a with
  | exit pid status => exact absurd trivial ha
  | call | run | finish | spurious | deliver | handle child => rfl

theorem returns_iff_sample :
    ∃ p₀, Program.start false ⟨false, false, false, false⟩ = some p₀
      ∧ ∃ run : Run step (Bounded 2) p₀, (∃ k, (run.state k).Returned)
        ∧ ((∃ k, (run.state k).Returned)
          ↔ ∀ k a, run.input k = some a → a.Safe (run.state k)) := by
  obtain ⟨p, hfollow, hreturned, hrest⟩ := twoExits_returns
  have hlast := after_length_of_follow hfollow
  have hfair : (Run.ofList twoExits (after_of_follow hfollow)).Fair fun a => ¬a.IsExit := by
    apply Run.ofList_fair
    intro a ha
    rw [hlast]
    exact hrest a ha
  refine ⟨_, rfl, .ofList twoExits (after_of_follow hfollow), ⟨twoExits.length, ?_⟩,
    returns_iff (o := ⟨false, false, false, false⟩) rfl _ hfair⟩
  rw [Run.ofList_state, hlast]
  exact hreturned

end Networking.Sched.Signals.Startup

import Mathlib.Data.List.Perm.Subperm
import Networking.Sched.Signals

/-!
# One event for each child

Signals are not queued: any number of exits leave one pending SIGCHLD. A run of the handler waits
for children until it finds none, and an exit behind that is pending again. So each child is, at any
time, in one place: not waited for yet, in the hands of the handler, or in an event that has been
pushed.
-/

namespace Networking.Sched.Signals

open Transition
open scoped List

variable {φ : Type}

/-- What has happened: the children that have exited, with their status, and all events that have
been pushed. -/
structure Record (φ : Type) where
  state : State φ
  exited : List (ℕ × ℤ)
  pushed : List (Event (Call φ))

def Record.start (verbose : Bool) : Record φ := ⟨.init verbose, [], []⟩

def Action.exited : Action φ → List (ℕ × ℤ)
  | .exit pid status => [(pid, status)]
  | _ => []

/-- The events that a step puts at the end of the queue. -/
def appended (s s' : State φ) : List (Event (Call φ)) := s'.queue.drop s.queue.length

def recordStep (r : Record φ) (a : Action φ) : Option (Record φ) :=
  (step r.state a).map fun s =>
    { state := s
      exited := r.exited ++ a.exited
      pushed := r.pushed ++ appended r.state s }

/-- `Agent::death` of the agent of a child, with its status. -/
def death : Event (Call φ) → Option (ℕ × ℤ)
  | ⟨_, .death pid status⟩ => some (pid, status)
  | _ => none

def Record.deaths (r : Record φ) : List (ℕ × ℤ) := r.pushed.filterMap death

/-- Only `handle_chld` signals `Agent::death`. -/
def Action.Ordinary : Action φ → Prop
  | .push e | .threadPush _ e => death e = none
  | _ => True

variable {s s' : State φ} {r r' : Record φ} {a : Action φ} {e : Event (Call φ)}

/-- The child that the handler has waited for and not signalled yet. -/
def Handler.child : Handler → List (ℕ × ℤ)
  | .waitpid => []
  | .log _ pid status | .signal _ pid status => [(pid, status)]

def State.inHand (s : State φ) : List (ℕ × ℤ) := s.handler.elim [] Handler.child

structure Record.Accounted (r : Record φ) : Prop where
  exited : r.exited ~ r.deaths ++ r.state.inHand ++ r.state.children
  /-- A child that is not waited for will be. -/
  awaited : r.state.children ≠ [] → r.state.pending = true ∨ r.state.handler ≠ none
  ordinary : ∀ stage e inside, r.state.pc = .push stage e inside → death e = none

/-! ### What a step does to the queue -/

theorem appended_of_length_le (hle : s'.queue.length ≤ s.queue.length) : appended s s' = [] :=
  List.drop_eq_nil_of_le hle

theorem appended_pushBack (h : s'.queue = s.queue ++ [e]) : appended s s' = [e] := by
  rw [appended, h, List.drop_left]

/-- A step of the event-loop thread leaves the children alone and pushes at most the event that it
is about to push. -/
structure Quiet (s s' : State φ) : Prop where
  children : s'.children = s.children
  handler : s'.handler = s.handler
  pending : s'.pending = s.pending
  queue : appended s s' = [] ∨ ∃ stage e inside, s.pc = .push stage e inside
    ∧ appended s s' = [e]
  pc : ∀ stage e inside, s'.pc = .push stage e inside → ∃ stage', s.pc = .push stage' e inside

theorem Quiet.of_pc {pc : Pc φ} {lock : Option Owner} {registered : Bool}
    (hpc : ∀ stage e inside, pc = .push stage e inside → ∃ stage', s.pc = .push stage' e inside) :
    Quiet s { s with pc := pc, lock := lock, registered := registered } :=
  ⟨rfl, rfl, rfl, .inl (appended_of_length_le le_rfl), hpc⟩

theorem Quiet.of_acquire {pc : Pc φ} (hacquire : acquire s pc = some s')
    (hpc : ∀ stage e inside, pc = .push stage e inside → ∃ stage', s.pc = .push stage' e inside) :
    Quiet s s' := by
  obtain ⟨-, hacquire⟩ := Option.ite_none_right_eq_some.mp hacquire
  cases hacquire
  exact .of_pc hpc

theorem Quiet.of_release {pc : Pc φ} (hrelease : release s pc = some s')
    (hpc : ∀ stage e inside, pc = .push stage e inside → ∃ stage', s.pc = .push stage' e inside) :
    Quiet s s' := by
  cases hrelease
  exact .of_pc hpc

theorem Quiet.of_run (hrun : run s = some s') : Quiet s s' := by
  unfold run at hrun
  split at hrun
  case h_1 e inside hpc =>
    refine .of_acquire hrun ?_
    rintro _ _ _ ⟨⟩
    exact ⟨_, hpc⟩
  case h_2 e inside hpc =>
    cases hrun
    refine ⟨rfl, rfl, rfl, .inr ⟨_, e, inside, hpc, appended_pushBack rfl⟩, ?_⟩
    rintro _ _ _ ⟨⟩
    exact ⟨_, hpc⟩
  case h_3 e inside hpc =>
    refine .of_release hrun ?_
    cases inside <;> nofun
  case h_4 => exact .of_acquire hrun nofun
  case h_5 =>
    cases hrun
    exact .of_pc nofun
  case h_6 => exact .of_release hrun nofun
  case h_7 => exact .of_acquire hrun nofun
  case h_8 =>
    split_ifs at hrun
    · exact .of_release hrun nofun
    · cases hrun
      exact .of_pc nofun
  case h_9 => exact .of_acquire hrun nofun
  case h_10 =>
    split at hrun <;> cases hrun
    · exact .of_pc nofun
    case h_2 e queue hqueue =>
      refine ⟨rfl, rfl, rfl, .inl (appended_of_length_le ?_), nofun⟩
      rw [hqueue]
      exact Nat.le_succ _
  case h_11 => exact .of_release hrun nofun
  case h_12 => exact .of_acquire hrun nofun
  case h_13 =>
    cases hrun
    exact .of_pc nofun
  case h_14 => exact .of_release hrun nofun
  case h_15 => cases hrun

theorem deaths_of_queue_eq (h : s'.queue = s.queue) : (appended s s').filterMap death = [] := by
  rw [appended_of_length_le (by rw [h]), List.filterMap_nil]

theorem ofLoop_eq_some {next : Option (State φ)} (h : ofLoop s next = some s') :
    s.handler = none ∧ next = some s' :=
  Option.ite_none_right_eq_some.mp h

/-! ### The books -/

theorem Record.Accounted.next {exited : List (ℕ × ℤ)} (deaths : List (ℕ × ℤ))
    (hdeaths : (appended r.state s').filterMap death = deaths)
    (hexited : r.exited ++ exited ~ r.deaths ++ deaths ++ s'.inHand ++ s'.children)
    (hawaited : s'.children ≠ [] → s'.pending = true ∨ s'.handler ≠ none)
    (hordinary : ∀ stage e inside, s'.pc = .push stage e inside → death e = none) :
    Record.Accounted ⟨s', r.exited ++ exited, r.pushed ++ appended r.state s'⟩ := by
  refine ⟨?_, hawaited, hordinary⟩
  rw [Record.deaths, List.filterMap_append, hdeaths]
  exact hexited

/-- A child that goes from one place to the next without an event stays accounted for. -/
theorem Record.Accounted.moved (hr : r.Accounted) (hqueue : s'.queue = r.state.queue)
    (hmoved : s'.inHand ++ s'.children ~ r.state.inHand ++ r.state.children)
    (hawaited : s'.children ≠ [] → s'.pending = true ∨ s'.handler ≠ none)
    (hordinary : ∀ stage e inside, s'.pc = .push stage e inside → death e = none) :
    Record.Accounted ⟨s', r.exited ++ [], r.pushed ++ appended r.state s'⟩ := by
  have hexited := hr.exited
  rw [List.append_assoc] at hexited
  refine .next [] (deaths_of_queue_eq hqueue) ?_ hawaited hordinary
  rw [List.append_nil, List.append_nil, List.append_assoc]
  exact hexited.trans (hmoved.symm.append_left r.deaths)

theorem Record.Accounted.quiet (hr : r.Accounted) (hquiet : Quiet r.state s') :
    Record.Accounted ⟨s', r.exited ++ [], r.pushed ++ appended r.state s'⟩ := by
  have hnone : (appended r.state s').filterMap death = [] := by
    rcases hquiet.queue with hsame | ⟨stage, e, inside, hpc, hpush⟩
    · rw [hsame, List.filterMap_nil]
    · rw [hpush, List.filterMap_cons_none (hr.ordinary stage e inside hpc), List.filterMap_nil]
  refine .next [] hnone ?_ (fun hchildren => ?_) fun stage e inside hpc => ?_
  · rw [List.append_nil, List.append_nil, State.inHand, hquiet.handler, hquiet.children]
    exact hr.exited
  · rw [hquiet.pending, hquiet.handler]
    exact hr.awaited (hquiet.children ▸ hchildren)
  · obtain ⟨stage', hbefore⟩ := hquiet.pc stage e inside hpc
    exact hr.ordinary stage' e inside hbefore

theorem push_of_pushBack (e : Event (Call φ)) {stage : Stage} {e' : Event (Call φ)} {inside : Bool}
    (hpc : (pushBack s e).pc = .push stage e' inside) : s.pc = .push stage e' inside := by
  unfold pushBack at hpc
  cases hs : s.pc <;> rw [hs] at hpc <;> first | exact hpc | cases hpc

/-- The handler takes the lock, with its child still in hand. -/
theorem Record.Accounted.takeLock (hr : r.Accounted) {h h' : Handler}
    (hh : r.state.handler = some h) (hchild : h'.child = h.child) :
    Record.Accounted ⟨{ r.state with lock := some .handler, handler := some h' }, r.exited ++ [],
      r.pushed ++ appended r.state { r.state with lock := some .handler, handler := some h' }⟩ := by
  refine hr.moved rfl ?_ (fun _ => .inr (Option.some_ne_none _)) hr.ordinary
  rw [State.inHand, State.inHand, hh, Option.elim_some, Option.elim_some, hchild]

/-- The handler pushes an event, which takes the child out of its hands if it is of its death. -/
theorem Record.Accounted.pushBack (hr : r.Accounted) {h h' : Handler} (e : Event (Call φ))
    (hh : r.state.handler = some h) (hchild : (death e).toList ++ h'.child = h.child) :
    Record.Accounted ⟨{ Signals.pushBack r.state e with lock := none, handler := some h' },
      r.exited ++ [], r.pushed ++ appended r.state
        { Signals.pushBack r.state e with lock := none, handler := some h' }⟩ := by
  have hdeaths : (appended r.state { Signals.pushBack r.state e with
      lock := none, handler := some h' }).filterMap death = (death e).toList := by
    rw [appended_pushBack rfl, List.filterMap_cons, List.filterMap_nil]
    cases death e <;> rfl
  have hexited := hr.exited
  rw [State.inHand, hh, Option.elim_some, ← hchild, ← List.append_assoc] at hexited
  refine .next (death e).toList hdeaths ?_ (fun _ => .inr (Option.some_ne_none _))
    fun stage e' inside hpc => hr.ordinary stage e' inside (push_of_pushBack e hpc)
  rw [List.append_nil, State.inHand, Option.elim_some]
  exact hexited

/-- The handler finds no child or takes one, and pushes a line of the log or the event of its
child. -/
theorem Record.Accounted.handle (hr : r.Accounted) {h : Handler} {child : ℕ}
    (hh : r.state.handler = some h) (hhandle : Signals.handle r.state child h = some s') :
    Record.Accounted ⟨s', r.exited ++ [], r.pushed ++ appended r.state s'⟩ := by
  have hhand : r.state.inHand = h.child := by
    rw [State.inHand, hh, Option.elim_some]
  cases h with
  | waitpid =>
      rw [Signals.handle] at hhandle
      by_cases hnone : r.state.children = []
      · rw [if_pos hnone] at hhandle
        cases hhandle
        refine hr.moved rfl ?_ (fun hchildren => absurd hnone hchildren) hr.ordinary
        rw [hhand]
        exact .refl _
      · rw [if_neg hnone] at hhandle
        obtain ⟨⟨pid, status⟩, hfound, rfl⟩ := Option.map_eq_some_iff.mp hhandle
        have hhand' : State.inHand { r.state with
            children := r.state.children.eraseIdx child
            handler := some (if r.state.verbose ∧ ¬r.state.registered then
              .log false pid status else .signal false pid status) } = [(pid, status)] := by
          rw [State.inHand, Option.elim_some]
          split_ifs <;> rfl
        refine hr.moved rfl ?_ (fun _ => .inr (Option.some_ne_none _)) hr.ordinary
        rw [hhand', hhand]
        -- the child goes from those who have exited into the hands of the handler
        obtain ⟨hlt, hget⟩ := List.getElem?_eq_some_iff.mp hfound
        have hmove := List.getElem_cons_eraseIdx_perm hlt
        rw [hget] at hmove
        exact hmove
  | log locked pid status =>
      cases locked with
      | false =>
          obtain ⟨-, hhandle⟩ := Option.ite_none_right_eq_some.mp hhandle
          cases hhandle
          exact hr.takeLock hh rfl
      | true =>
          cases hhandle
          exact hr.pushBack ⟨noName, .endl⟩ hh rfl
  | signal locked pid status =>
      cases locked with
      | false =>
          obtain ⟨-, hhandle⟩ := Option.ite_none_right_eq_some.mp hhandle
          cases hhandle
          exact hr.takeLock hh rfl
      | true =>
          cases hhandle
          exact hr.pushBack ⟨"&Agent::death", .death pid status⟩ hh rfl

theorem Record.Accounted.step (hr : r.Accounted) (ha : a.Ordinary)
    (hstep : recordStep r a = some r') : r'.Accounted := by
  obtain ⟨s', hnext, rfl⟩ := Option.map_eq_some_iff.mp hstep
  cases a with
  | push e =>
      obtain ⟨-, hnext⟩ := ofLoop_eq_some hnext
      have hpush : ∀ inside, Record.Accounted
          ⟨{ r.state with pc := .push .lock e inside }, r.exited ++ [],
            r.pushed ++ appended r.state { r.state with pc := .push .lock e inside }⟩ := by
        intro inside
        refine hr.moved rfl (.refl _) hr.awaited ?_
        rintro _ _ _ ⟨⟩
        exact ha
      split at hnext <;> cases hnext
      · exact hpush false
      · exact hpush true
  | enter =>
      obtain ⟨-, hnext⟩ := ofLoop_eq_some hnext
      split at hnext <;> cases hnext
      exact hr.quiet (.of_pc nofun)
  | run => exact hr.quiet (.of_run (ofLoop_eq_some hnext).2)
  | finish terminates =>
      obtain ⟨-, hnext⟩ := ofLoop_eq_some hnext
      split at hnext <;> cases hnext
      refine hr.quiet (.of_pc ?_)
      cases terminates <;> nofun
  | spurious =>
      rw [Signals.step] at hnext
      split at hnext <;> cases hnext
      exact hr.quiet (.of_pc nofun)
  | exit pid status =>
      cases hnext
      refine .next [] (deaths_of_queue_eq rfl) ?_ (fun _ => .inl rfl) hr.ordinary
      rw [List.append_nil, ← List.append_assoc]
      exact hr.exited.append_right [(pid, status)]
  | deliver =>
      obtain ⟨⟨hfree, -⟩, hnext⟩ := Option.ite_none_right_eq_some.mp hnext
      cases hnext
      refine hr.moved rfl ?_ (fun _ => .inr (Option.some_ne_none _)) hr.ordinary
      have hhand : r.state.inHand = [] := by
        rw [State.inHand, hfree, Option.elim_none]
      rw [hhand]
      exact .refl _
  | handle child =>
      obtain ⟨h, hh, hhandle⟩ := Option.bind_eq_some_iff.mp hnext
      exact hr.handle hh hhandle
  | threadLock i =>
      obtain ⟨-, hnext⟩ := Option.ite_none_right_eq_some.mp hnext
      cases hnext
      exact hr.quiet (.of_pc fun stage e inside hpc => ⟨stage, hpc⟩)
  | threadPush i e =>
      obtain ⟨-, hnext⟩ := Option.ite_none_right_eq_some.mp hnext
      cases hnext
      have hdeath : death e = none := ha
      have hnil : (Action.threadPush i e).exited = [] := rfl
      refine .next [] ?_ ?_ hr.awaited
        fun stage e' inside hpc => hr.ordinary stage e' inside (push_of_pushBack e hpc)
      · rw [appended_pushBack rfl, List.filterMap_cons_none hdeath, List.filterMap_nil]
      · rw [hnil, List.append_nil, List.append_nil]
        exact hr.exited

theorem accounted_start (verbose : Bool) : (Record.start verbose : Record φ).Accounted where
  exited := .refl _
  awaited h := absurd rfl h
  ordinary _ _ _ h := by cases h

/-- **Every child gets one event.** At any time, the events of `Agent::death` that have been pushed
belong to different exits, with the child and the status of each; and when no SIGCHLD is pending and
the handler does not run, every exit has one. -/
theorem deaths_of_reaches (verbose : Bool)
    (hreach : Reaches recordStep (fun _ a => a.Ordinary) (.start verbose : Record φ) r) :
    r.deaths <+~ r.exited
      ∧ (r.state.pending = false → r.state.handler = none → r.deaths ~ r.exited) := by
  have hr : r.Accounted :=
    hreach.invariant (accounted_start verbose) fun _ _ _ ht ha hstep => ht.step ha hstep
  constructor
  · refine List.Subperm.trans ?_ hr.exited.symm.subperm
    rw [List.append_assoc]
    exact (List.sublist_append_left _ _).subperm
  · intro hpending hhandler
    have hnone : r.state.children = [] := by
      by_contra hchildren
      rcases hr.awaited hchildren with h | h
      · rw [hpending] at h
        cases h
      · exact h hhandler
    have hexited := hr.exited
    rw [hnone, State.inHand, hhandler, Option.elim_none, List.append_nil, List.append_nil]
      at hexited
    exact hexited.symm

/-- Two children exit before the handler runs, which then finds both. -/
theorem deaths_of_reaches_collapsed :
    ∃ r : Record ℕ, r.exited = [(11, 0), (12, 1)] ∧ r.deaths = [(12, 1), (11, 0)]
      ∧ r.deaths ~ r.exited := by
  have hfirst : Reaches recordStep (fun _ a => a.Ordinary) (.start false : Record ℕ) _ :=
    .tail (a := .handle 1) (.tail (a := .deliver) (.tail (a := .exit 12 1)
      (.tail (a := .exit 11 0) .refl trivial rfl) trivial rfl) trivial rfl) trivial rfl
  have hsecond : Reaches recordStep (fun _ a => a.Ordinary) (.start false : Record ℕ) _ :=
    .tail (a := .handle 0) (.tail (a := .handle 0) (.tail (a := .handle 0) hfirst trivial rfl)
      trivial rfl) trivial rfl
  have hdone : Reaches recordStep (fun _ a => a.Ordinary) (.start false : Record ℕ) _ :=
    .tail (a := .handle 0) (.tail (a := .handle 0) (.tail (a := .handle 0) hsecond trivial rfl)
      trivial rfl) trivial rfl
  exact ⟨_, rfl, rfl, (deaths_of_reaches false hdone).2 rfl rfl⟩

end Networking.Sched.Signals

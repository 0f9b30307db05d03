import Networking.Lib.Transition

/-!
# Fair runs

What a system does in the end is a property of its infinite runs. At each time one enabled input is
read, or nothing happens. A run is fair to an agent, given by its inputs, when the agent cannot be
able to act from some time on and never act. The rule for `LeadsTo` follows one agent that is always
able to act and comes closer to the goal whenever it does, while the others do not get in its way.
-/

namespace Transition

variable {σ α : Type*} {step : σ → α → Option σ} {allowed : σ → α → Prop} {s : σ}

structure Run (step : σ → α → Option σ) (allowed : σ → α → Prop) (s : σ) where
  state : ℕ → σ
  input : ℕ → Option α
  start : state 0 = s
  idle : ∀ k, input k = none → state (k + 1) = state k
  next : ∀ k a, input k = some a → allowed (state k) a ∧ step (state k) a = some (state (k + 1))

variable {run : Run step allowed s} {P Q I : σ → Prop} {mine : α → Prop}

theorem Run.reaches (run : Run step allowed s) (k : ℕ) :
    Reaches step allowed s (run.state k) := by
  induction k with
  | zero =>
      rw [run.start]
      exact .refl
  | succ k ih =>
      cases hinput : run.input k with
      | none =>
          rw [run.idle k hinput]
          exact ih
      | some a =>
          obtain ⟨hallowed, hstep⟩ := run.next k a hinput
          exact .tail ih hallowed hstep

/-- What every allowed step keeps holds from the time on at which it first holds. -/
theorem Run.always (run : Run step allowed s)
    (hkeeps : ∀ t a u, I t → allowed t a → step t a = some u → I u) {j k : ℕ} (hjk : j ≤ k)
    (hj : I (run.state j)) : I (run.state k) := by
  induction k, hjk using Nat.le_induction with
  | base => exact hj
  | succ k _ ih =>
      cases hinput : run.input k with
      | none =>
          rw [run.idle k hinput]
          exact ih
      | some a =>
          obtain ⟨hallowed, hstep⟩ := run.next k a hinput
          exact hkeeps _ a _ ih hallowed hstep

/-- A run is fair to the agent with the inputs `mine` when the agent acts again and again, unless it
is again and again unable to. -/
def Run.Fair (run : Run step allowed s) (mine : α → Prop) : Prop :=
  ∀ k, (∀ j ≥ k, ∃ a u, mine a ∧ allowed (run.state j) a ∧ step (run.state j) a = some u) →
    ∃ j ≥ k, ∃ a, mine a ∧ run.input j = some a

/-- Whenever `P` holds, `Q` holds then or later. -/
def Run.LeadsTo (run : Run step allowed s) (P Q : σ → Prop) : Prop :=
  ∀ k, P (run.state k) → ∃ j ≥ k, Q (run.state j)

/-- **The rule of the helpful agent.** From `P` on, an agent is able to act until `Q` holds; its
steps lower the rank, and the other steps do not raise it. -/
theorem Run.Fair.leadsTo (hfair : run.Fair mine) (P Q : σ → Prop) (rank : σ → ℕ)
    (hable : ∀ t, P t → ¬Q t → ∃ a u, mine a ∧ allowed t a ∧ step t a = some u)
    (hstep : ∀ t a u, P t → ¬Q t → allowed t a → step t a = some u →
      Q u ∨ P u ∧ rank u ≤ rank t ∧ (mine a → rank u < rank t)) : run.LeadsTo P Q := by
  intro k hk
  induction hr : rank (run.state k) using Nat.strong_induction_on generalizing k with
  | _ r ih =>
      by_contra hnever
      push Not at hnever
      -- as long as the goal is not reached, `P` stays and the rank does not grow
      have hstays : ∀ j ≥ k, P (run.state j) ∧ rank (run.state j) ≤ r := by
        intro j hj
        induction j, hj using Nat.le_induction with
        | base => exact ⟨hk, hr.le⟩
        | succ j hj hind =>
            cases hinput : run.input j with
            | none =>
                rw [run.idle j hinput]
                exact hind
            | some a =>
                obtain ⟨hallowed, hnext⟩ := run.next j a hinput
                rcases hstep _ a _ hind.1 (hnever j hj) hallowed hnext with hQ | ⟨hP, hle, -⟩
                · exact absurd hQ (hnever (j + 1) (by omega))
                · exact ⟨hP, hle.trans hind.2⟩
      obtain ⟨j, hj, a, hmine, hinput⟩ :=
        hfair k fun j hj => hable _ (hstays j hj).1 (hnever j hj)
      obtain ⟨hallowed, hnext⟩ := run.next j a hinput
      rcases hstep _ a _ (hstays j hj).1 (hnever j hj) hallowed hnext with hQ | ⟨hP, -, hlt⟩
      · exact hnever (j + 1) (by omega) hQ
      · obtain ⟨i, hi, hQ⟩ := ih _ ((hlt hmine).trans_le (hstays j hj).2) (j + 1) hP rfl
        exact hnever i (by omega) hQ

/-- **The rule of rounds.** When each round ends with the goal or with a smaller measure, the goal
is reached. -/
theorem Run.leadsTo_of_rounds (P Q : σ → Prop) (measure : σ → ℕ)
    (hround : ∀ m, run.LeadsTo (fun t => P t ∧ measure t = m)
      fun t => Q t ∨ P t ∧ measure t < m) : run.LeadsTo P Q := by
  intro k hk
  induction hm : measure (run.state k) using Nat.strong_induction_on generalizing k with
  | _ m ih =>
      obtain ⟨j, hj, hQ | ⟨hP, hlt⟩⟩ := hround m k ⟨hk, hm⟩
      · exact ⟨j, hj, hQ⟩
      · obtain ⟨i, hi, hQ⟩ := ih _ hlt j hP rfl
        exact ⟨i, hj.trans hi, hQ⟩

/-! ### A run that comes to rest -/

/-- The state after `k` of the inputs, and after all of them from then on. -/
def after (step : σ → α → Option σ) (s : σ) (inputs : List α) (k : ℕ) : σ :=
  (inputs.take k).foldl (fun t a => (step t a).getD t) s

theorem after_cons {t : σ} {a : α} (hstep : step s a = some t) (inputs : List α) (k : ℕ) :
    after step s (a :: inputs) (k + 1) = after step t inputs k := by
  rw [after, List.take_succ_cons, List.foldl_cons, hstep, Option.getD_some, after]

theorem after_of_follow [∀ s a, Decidable (allowed s a)] {t : σ} {inputs : List α}
    (h : follow step allowed s inputs = some t) :
    ∀ k a, inputs[k]? = some a → allowed (after step s inputs k) a
      ∧ step (after step s inputs k) a = some (after step s inputs (k + 1)) := by
  induction inputs generalizing s with
  | nil => nofun
  | cons b inputs ih =>
      rw [follow] at h
      split_ifs at h with hallowed
      obtain ⟨u, hstep, hrest⟩ := Option.bind_eq_some_iff.mp h
      intro k a ha
      cases k with
      | zero =>
          obtain rfl : b = a := Option.some.inj ha
          rw [after_cons hstep]
          exact ⟨hallowed, hstep⟩
      | succ k =>
          rw [after_cons hstep, after_cons hstep]
          exact ih hrest k a ha

theorem after_length_of_follow [∀ s a, Decidable (allowed s a)] {t : σ} {inputs : List α}
    (h : follow step allowed s inputs = some t) : after step s inputs inputs.length = t := by
  induction inputs generalizing s with
  | nil => exact Option.some.inj h
  | cons b inputs ih =>
      rw [follow] at h
      split_ifs at h
      obtain ⟨u, hstep, hrest⟩ := Option.bind_eq_some_iff.mp h
      rw [List.length_cons, after_cons hstep]
      exact ih hrest

/-- The run that reads the inputs of a list and nothing more. -/
def Run.ofList (inputs : List α)
    (h : ∀ k a, inputs[k]? = some a → allowed (after step s inputs k) a
      ∧ step (after step s inputs k) a = some (after step s inputs (k + 1))) :
    Run step allowed s where
  state := after step s inputs
  input k := inputs[k]?
  start := rfl
  idle k hk := by
    have hlength := List.getElem?_eq_none_iff.mp hk
    rw [after, after, List.take_of_length_le hlength, List.take_of_length_le (by omega)]
  next := h

theorem Run.ofList_state {inputs : List α}
    (h : ∀ k a, inputs[k]? = some a → allowed (after step s inputs k) a
      ∧ step (after step s inputs k) a = some (after step s inputs (k + 1))) :
    (Run.ofList inputs h).state = after step s inputs := rfl

/-- It is fair to an agent that cannot act in the state where the run comes to rest. -/
theorem Run.ofList_fair {inputs : List α}
    (h : ∀ k a, inputs[k]? = some a → allowed (after step s inputs k) a
      ∧ step (after step s inputs k) a = some (after step s inputs (k + 1)))
    (hrest : ∀ a, mine a → step (after step s inputs inputs.length) a = none) :
    (Run.ofList inputs h).Fair mine := by
  intro k hable
  obtain ⟨a, u, hmine, -, hstep⟩ := hable (max k inputs.length) (le_max_left _ _)
  have hsame : after step s inputs (max k inputs.length) = after step s inputs inputs.length := by
    rw [after, after, List.take_of_length_le (le_max_right _ _), List.take_length]
  rw [show (Run.ofList inputs h).state (max k inputs.length) = _ from hsame,
    hrest a hmine] at hstep
  cases hstep

end Transition

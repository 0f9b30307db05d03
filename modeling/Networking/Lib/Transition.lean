import Mathlib.Order.WellFounded

/-!
# Transition systems

A program that acts in steps is a partial function `step : σ → α → Option σ`: the action `a` is
enabled in `s` when `step s a` is a state. A safety result is an invariant of `Reaches`, the states
reached by allowed steps from a start; a result about termination follows one stream of inputs with
`along` and finds the state where the next input is no longer enabled.
-/

namespace Transition

variable {σ α : Type*} {step : σ → α → Option σ} {allowed : σ → α → Prop} {s t u : σ} {a : α}

/-- `t` is reached from `s` by enabled steps, each of them allowed where it is taken. -/
inductive Reaches (step : σ → α → Option σ) (allowed : σ → α → Prop) (s : σ) : σ → Prop
  | refl : Reaches step allowed s s
  | tail {t u : σ} {a : α} (hreach : Reaches step allowed s t) (hallowed : allowed t a)
      (hstep : step t a = some u) : Reaches step allowed s u

/-- **The invariant rule.** A property of the start that every allowed step keeps holds in every
state reached. -/
theorem Reaches.invariant {P : σ → Prop} (hreach : Reaches step allowed s t) (hstart : P s)
    (hstep : ∀ t a u, P t → allowed t a → step t a = some u → P u) : P t := by
  induction hreach with
  | refl => exact hstart
  | tail _ hallowed hnext ih => exact hstep _ _ _ ih hallowed hnext

theorem Reaches.trans (hst : Reaches step allowed s t) (htu : Reaches step allowed t u) :
    Reaches step allowed s u := by
  induction htu with
  | refl => exact hst
  | tail _ hallowed hnext ih => exact .tail ih hallowed hnext

/-- The state after the first `k` inputs of a stream, if each is enabled where it is read. -/
def along (step : σ → α → Option σ) (s : σ) (input : ℕ → α) : ℕ → Option σ
  | 0 => some s
  | k + 1 => (along step s input k).bind fun t => step t (input k)

@[simp]
theorem along_zero (s : σ) (input : ℕ → α) : along step s input 0 = some s := rfl

theorem along_succ {input : ℕ → α} {k : ℕ} (hk : along step s input k = some t) :
    along step s input (k + 1) = step t (input k) := by
  rw [along, hk, Option.bind_some]

theorem along_succ' {input : ℕ → α} (hstep : step s (input 0) = some t) (k : ℕ) :
    along step s input (k + 1) = along step t (fun i => input (i + 1)) k := by
  induction k with
  | zero => rw [along_succ (along_zero s input), hstep, along_zero]
  | succ k ih => rw [along, ih, along]

theorem reaches_of_along (allowed : σ → α → Prop) {input : ℕ → α}
    (hallowed : ∀ t k, allowed t (input k)) {k : ℕ}
    (hk : along step s input k = some t) : Reaches step allowed s t := by
  induction k generalizing t with
  | zero =>
      cases hk
      exact .refl
  | succ k ih =>
      obtain ⟨r, hr, hstep⟩ := Option.bind_eq_some_iff.mp hk
      exact .tail (ih hr) (hallowed r k) hstep

/-- **The variant rule.** When every step from a state that satisfies the invariant keeps it and
goes down in a well-founded order, the run along any stream of proper inputs comes to a halt. -/
theorem exists_halt (step : σ → α → Option σ) {r : σ → σ → Prop} (hwf : WellFounded r)
    (P : σ → Prop) (proper : α → Prop) (hstart : P s)
    (hstep : ∀ t a u, P t → proper a → step t a = some u → P u ∧ r u t)
    (input : ℕ → α) (hinput : ∀ k, proper (input k)) :
    ∃ k t, along step s input k = some t ∧ P t ∧ step t (input k) = none := by
  induction s using hwf.induction generalizing input with
  | _ s ih =>
      cases hnext : step s (input 0) with
      | none => exact ⟨0, s, rfl, hstart, hnext⟩
      | some t =>
          obtain ⟨hinv, hlt⟩ := hstep s _ t hstart (hinput 0) hnext
          obtain ⟨k, u, halong, hu, hhalt⟩ :=
            ih t hlt hinv (fun i => input (i + 1)) fun k => hinput (k + 1)
          exact ⟨k + 1, u, by rw [along_succ' hnext, halong], hu, hhalt⟩

theorem along_invariant {P : σ → Prop} (hstart : P s)
    (hstep : ∀ t a u, P t → step t a = some u → P u) {input : ℕ → α} {k : ℕ}
    (hk : along step s input k = some t) : P t :=
  (reaches_of_along (fun _ _ => True) (fun _ _ => trivial) hk).invariant hstart
    fun t a u ht _ hnext => hstep t a u ht hnext

/-- **The fault rule.** A fault, once there, stays. When a step without one runs into it exactly
under some condition, a run is free of it exactly when no step has met the condition. The rule is
used under an invariant `I` of all runs. -/
theorem along_iff (I P : σ → Prop) (safe : σ → α → Prop) (hI : I s)
    (hkeeps : ∀ t a u, I t → step t a = some u → I u) (hstart : P s)
    (hexact : ∀ t a u, I t → P t → step t a = some u → (P u ↔ safe t a))
    (hstays : ∀ t a u, I t → ¬P t → step t a = some u → ¬P u) {input : ℕ → α} {k : ℕ}
    (hk : along step s input k = some t) :
    P t ↔ ∀ j < k, ∀ u, along step s input j = some u → safe u (input j) := by
  induction k generalizing t with
  | zero =>
      cases hk
      exact iff_of_true hstart fun j hj => absurd hj (Nat.not_lt_zero j)
  | succ k ih =>
      obtain ⟨r, hr, hstep⟩ := Option.bind_eq_some_iff.mp hk
      have hIr : I r := along_invariant hI hkeeps hr
      constructor
      · intro ht j hj u hu
        have hPr : P r := by
          by_contra hnot
          exact hstays r _ t hIr hnot hstep ht
        rcases Nat.lt_succ_iff_lt_or_eq.mp hj with hlt | rfl
        · exact (ih hr).mp hPr j hlt u hu
        · obtain rfl : r = u := Option.some.inj (hr.symm.trans hu)
          exact (hexact r _ t hIr hPr hstep).mp ht
      · intro hall
        have hPr : P r := (ih hr).mpr fun j hj => hall j (Nat.lt_succ_of_lt hj)
        exact (hexact r _ t hIr hPr hstep).mpr (hall k (Nat.lt_succ_self k) r hr)

/-- The fault rule, from one statement about a step. -/
theorem along_iff_of_step (I P : σ → Prop) (safe : σ → α → Prop) (hI : I s) (hP : P s)
    (hstep : ∀ t a u, I t → step t a = some u → I u ∧ (P u ↔ P t ∧ safe t a))
    {input : ℕ → α} {k : ℕ} (hk : along step s input k = some t) :
    P t ↔ ∀ j < k, ∀ u, along step s input j = some u → safe u (input j) := by
  apply along_iff I P safe hI (fun t a u ht hnext => (hstep t a u ht hnext).1) hP _ _ hk
  · intro t a u ht htP hnext
    exact (hstep t a u ht hnext).2.trans (and_iff_right htP)
  · intro t a u ht hnot hnext hu
    exact hnot ((hstep t a u ht hnext).2.mp hu).1

theorem along_of_halt {input : ℕ → α} {k m : ℕ} (hk : along step s input k = some t)
    (hhalt : step t (input k) = none) (hlt : k < m) : along step s input m = none := by
  induction m, hlt using Nat.le_induction with
  | base => rw [along_succ hk, hhalt]
  | succ m _ ih => rw [along, ih, Option.bind_none]

theorem exists_along_of_le {input : ℕ → α} {j k : ℕ} (hk : along step s input k = some t)
    (hj : j ≤ k) : ∃ u, along step s input j = some u := by
  induction k generalizing t with
  | zero => exact ⟨t, by rwa [Nat.le_zero.mp hj]⟩
  | succ k ih =>
      rcases Nat.le_succ_iff.mp hj with hle | rfl
      · obtain ⟨u, hu, -⟩ := Option.bind_eq_some_iff.mp hk
        exact ih hu hle
      · exact ⟨t, hk⟩

/-- **The step rule.** When a step from a good state leads to a good one exactly if it is safe, all
states of a run are good exactly if all its steps are safe. -/
theorem along_forall_iff (P : σ → Prop) (safe : σ → α → Prop) (hP : P s)
    (hstep : ∀ t a u, P t → step t a = some u → (P u ↔ safe t a)) {input : ℕ → α} {k : ℕ}
    (hk : along step s input k = some t) :
    (∀ j ≤ k, ∀ u, along step s input j = some u → P u)
      ↔ ∀ j < k, ∀ u, along step s input j = some u → safe u (input j) := by
  constructor
  · intro hgood j hj u hu
    obtain ⟨v, hv⟩ := exists_along_of_le hk (Nat.succ_le_of_lt hj)
    exact (hstep u (input j) v (hgood j hj.le u hu) ((along_succ hu).symm.trans hv)).mp
      (hgood (j + 1) hj v hv)
  · intro hsafe j hj
    induction j with
    | zero =>
        intro u hu
        obtain rfl : s = u := Option.some.inj hu
        exact hP
    | succ j ih =>
        intro u hu
        obtain ⟨v, hv⟩ := exists_along_of_le hk (Nat.le_of_succ_le hj)
        exact (hstep v (input j) u (ih (Nat.le_of_succ_le hj) v hv)
          ((along_succ hv).symm.trans hu)).mpr (hsafe j hj v hv)

theorem along_congr {input input' : ℕ → α} {k : ℕ} (h : ∀ i < k, input i = input' i) :
    along step s input k = along step s input' k := by
  induction k with
  | zero => rfl
  | succ k ih => rw [along, along, ih fun i hi => h i (by omega), h k (by omega)]

/-- What holds of one state of a run, and is kept by every step, holds from then on. -/
theorem along_invariant_from {P : σ → Prop} {input : ℕ → α} {j k : ℕ}
    (hj : along step s input j = some t) (ht : P t)
    (hstep : ∀ t i u, P t → step t (input i) = some u → P u) (hle : j ≤ k)
    (hk : along step s input k = some u) : P u := by
  induction k, hle using Nat.le_induction generalizing u with
  | base =>
      obtain rfl : t = u := Option.some.inj (hj.symm.trans hk)
      exact ht
  | succ k _ ih =>
      obtain ⟨r, hr, hnext⟩ := Option.bind_eq_some_iff.mp hk
      exact hstep r k u (ih hr) hnext

/-- **The refinement rule.** When each step, seen through `view`, is a step of another system, then
so is each run. The rule is used under an invariant `I` of the run. -/
theorem map_along {τ β : Type*} {step' : τ → β → Option τ} (view : σ → τ) (I : σ → Prop) (hI : I s)
    {input : ℕ → α} {input' : ℕ → β}
    (hview : ∀ t i, I t → (step t (input i)).map view = step' (view t) (input' i))
    (hkeeps : ∀ t i u, I t → step t (input i) = some u → I u) (k : ℕ) :
    (along step s input k).map view = along step' (view s) input' k := by
  induction k with
  | zero => rfl
  | succ k ih =>
      rw [along, along, ← ih]
      cases hk : along step s input k with
      | none => rfl
      | some t =>
          have hreach := reaches_of_along (fun _ a => ∃ i, a = input i) (fun _ i => ⟨i, rfl⟩) hk
          refine hview t k (hreach.invariant hI ?_)
          rintro t _ u ht ⟨i, rfl⟩ hnext
          exact hkeeps t i u ht hnext

/-- A state reached by allowed steps is reached along some stream of inputs. Behind its end the
stream may go on with any input that is always allowed. -/
theorem Reaches.exists_along (proper : α → Prop)
    (hreach : Reaches step (fun _ a => proper a) s t) {rest : α} (hrest : proper rest) :
    ∃ input : ℕ → α, (∀ k, proper (input k)) ∧ ∃ k, along step s input k = some t := by
  induction hreach with
  | refl => exact ⟨fun _ => rest, fun _ => hrest, 0, rfl⟩
  | @tail t u a _ hallowed hstep ih =>
      obtain ⟨input, hproper, k, hk⟩ := ih
      refine ⟨fun i => if i < k then input i else a, fun i => ?_, k + 1, ?_⟩
      · dsimp only
        split_ifs
        · exact hproper i
        · exact hallowed
      · have hsame : along step s (fun i => if i < k then input i else a) k = some t := by
          rw [← hk]
          exact along_congr fun i hi => if_pos hi
        rw [along_succ hsame, if_neg (lt_irrefl k), hstep]

/-- The state that a list of inputs leads to, if each is allowed and enabled where it is read. -/
def follow (step : σ → α → Option σ) (allowed : σ → α → Prop) [∀ s a, Decidable (allowed s a)] :
    σ → List α → Option σ
  | s, [] => some s
  | s, a :: inputs =>
      if allowed s a then (step s a).bind fun t => follow step allowed t inputs else none

theorem reaches_of_follow [∀ s a, Decidable (allowed s a)] (inputs : List α)
    (h : follow step allowed s inputs = some t) : Reaches step allowed s t := by
  induction inputs generalizing s with
  | nil =>
      cases h
      exact .refl
  | cons a inputs ih =>
      rw [follow] at h
      split_ifs at h with hallowed
      obtain ⟨u, hstep, hrest⟩ := Option.bind_eq_some_iff.mp h
      exact (Reaches.tail .refl hallowed hstep).trans (ih hrest)

end Transition

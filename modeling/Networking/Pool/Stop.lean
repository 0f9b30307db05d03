import Networking.Pool.Threadpool

/-!
# After `stop`

`stop` wakes every worker, and from then on none goes to sleep again, since `_running` is tested
before the wait. A worker that has passed the test of its own loop takes one more task at most. So
the joins wait for what each worker still has to do, and nothing else.
-/

namespace Networking.Pool

open Condition Transition

variable {τ : Type} {n : BitVec 8} {p p' : Threadpool τ} {a : Action τ} {i : ℕ} {pc pc' : Pc τ}

/-- A pool, with what each worker has done since `stop`: the tasks it took and its steps. -/
structure Watched (τ : Type) where
  pool : Threadpool τ
  taken : ℕ → ℕ
  moved : ℕ → ℕ

def Watched.init (n : BitVec 8) : Watched τ := ⟨.init n, fun _ => 0, fun _ => 0⟩

def Action.worker : Action τ → Option ℕ
  | .run i => some i
  | _ => none

def watch (w : Watched τ) (a : Action τ) : Option (Watched τ) :=
  (step w.pool a).map fun p =>
    { pool := p
      taken := fun i =>
        w.taken i + if w.pool.running = false ∧ a.worker = some i then
          p.handed.length - w.pool.handed.length else 0
      moved := fun i =>
        w.moved i + if w.pool.running = false ∧ a.worker = some i then 1 else 0 }

/-! ### What a worker may still do -/

/-- The tasks that a worker may still take. -/
def Pc.tasks : Pc τ → ℕ
  | .take => 1
  | _ => 0

/-- The steps after which a worker has returned, at most. -/
def Pc.steps : Pc τ → ℕ
  | .take => 3
  | .exec _ | .notified => 2
  | .loop => 1
  | .parked | .returned => 0

theorem Pc.tasks_le (pc : Pc τ) : pc.tasks ≤ 1 := by
  cases pc <;> simp [Pc.tasks]

theorem Pc.steps_le (pc : Pc τ) : pc.steps ≤ 3 := by
  cases pc <;> simp [Pc.steps]

/-- A step of a worker, with the number of tasks it takes. -/
structure Finishing (pc pc' : Pc τ) (new : ℕ) : Prop where
  awake : pc' ≠ .parked
  tasks : new + pc'.tasks ≤ pc.tasks
  steps : 1 + pc'.steps ≤ pc.steps

theorem exists_finishing (hstop : p.running = false) (hstep : step p (.run i) = some p') :
    p'.running = false ∧ ∃ pc pc', p.threads[i]? = some pc ∧ p'.threads = p.threads.set i pc'
      ∧ Finishing pc pc' (p'.handed.length - p.handed.length) := by
  simp only [step] at hstep
  split at hstep
  case h_1 hpc =>
    cases hstep
    refine ⟨hstop, _, _, hpc, rfl, ?_⟩
    simp only [hstop, Bool.false_eq_true, if_false, Nat.sub_self]
    exact ⟨nofun, le_rfl, le_rfl⟩
  case h_2 hpc =>
    cases hstep
    unfold take
    split
    case h_1 hqueue =>
      rw [if_neg (by simp [hstop])]
      refine ⟨hstop, _, _, hpc, rfl, ?_⟩
      simp only [Nat.sub_self]
      exact ⟨nofun, Nat.zero_le _, Nat.le_succ 2⟩
    case h_2 task queue hqueue =>
      refine ⟨hstop, _, _, hpc, rfl, ?_⟩
      simp only [List.length_append, List.length_singleton, Nat.add_sub_cancel_left]
      exact ⟨nofun, le_rfl, le_rfl⟩
  case h_3 hpc =>
    rw [if_neg (by simp [hstop])] at hstep
    cases hstep
    refine ⟨hstop, _, _, hpc, rfl, ?_⟩
    simp only [Nat.sub_self]
    exact ⟨nofun, le_rfl, le_rfl⟩
  case h_4 hpc =>
    cases hstep
    refine ⟨hstop, _, _, hpc, rfl, ?_⟩
    simp only [Nat.sub_self]
    exact ⟨nofun, le_rfl, le_rfl⟩
  case h_5 => cases hstep

/-- A worker that has not returned is never kept from its next step. -/
theorem exists_step_of_awake (hpc : p.threads[i]? = some pc) (hawake : pc ≠ .parked)
    (halive : pc ≠ .returned) : ∃ p', step p (.run i) = some p' := by
  cases pc with
  | parked => exact absurd rfl hawake
  | returned => exact absurd rfl halive
  | loop | take | notified | exec =>
      simp only [step, hpc]
      exact ⟨_, rfl⟩

/-! ### Every run -/

structure Stopping (w : Watched τ) : Prop where
  awake : ∀ pc ∈ w.pool.threads, pc ≠ .parked
  worker : ∀ i pc, w.pool.threads[i]? = some pc →
    w.taken i + pc.tasks ≤ 1 ∧ w.moved i + pc.steps ≤ 3
  absent : ∀ i, w.pool.threads[i]? = none → w.taken i = 0 ∧ w.moved i = 0

def Watched.Counted (w : Watched τ) : Prop :=
  if w.pool.running then (∀ i, w.taken i = 0) ∧ ∀ i, w.moved i = 0 else Stopping w

theorem running_take (p : Threadpool τ) (i : ℕ) : (take p i).running = p.running := by
  unfold take
  split
  · split_ifs <;> rfl
  · rfl

theorem running_of_step (ha : a ≠ .stop) (hstep : step p a = some p') : p'.running = p.running := by
  cases a with
  | put task woken =>
      obtain ⟨threads, -, rfl⟩ := Option.map_eq_some_iff.mp hstep
      rfl
  | run i =>
      simp only [step] at hstep
      split at hstep <;> cases hstep
      · rfl
      · exact running_take p i
      · split_ifs
        · exact running_take _ i
        · rfl
      · rfl
  | spurious i =>
      simp only [step] at hstep
      split at hstep <;> cases hstep
      rfl
  | stop => exact absurd rfl ha

theorem Stopping.of_stop {w : Watched τ} (htaken : ∀ i, w.taken i = 0)
    (hmoved : ∀ i, w.moved i = 0) :
    Stopping { w with pool := { w.pool with
      running := false
      threads := notifyAll Pc.Parked (fun _ => .notified) w.pool.threads } } := by
  refine ⟨fun pc hpc => ?_, fun i pc _ => ?_, fun i _ => ⟨htaken i, hmoved i⟩⟩
  · obtain ⟨q, -, rfl⟩ := List.mem_map.mp hpc
    split_ifs with hparked
    · exact nofun
    · rintro rfl
      exact hparked trivial
  · rw [htaken, hmoved, Nat.zero_add, Nat.zero_add]
    exact ⟨pc.tasks_le, pc.steps_le⟩

theorem Stopping.not_parked {w : Watched τ} (hw : Stopping w) (hpc : pc ∈ w.pool.threads) :
    ¬pc.Parked := by
  intro hparked
  cases pc with
  | parked => exact hw.awake _ hpc rfl
  | loop | take | notified | exec | returned => exact hparked

/-- A `put` after `stop` may start a worker, and wakes none. -/
theorem Stopping.put {w : Watched τ} {task : τ} {woken : Option ℕ} (hw : Stopping w)
    (hput : Pool.put w.pool task woken = some p') : Stopping { w with pool := p' } := by
  obtain ⟨threads, hnotify, rfl⟩ := Option.map_eq_some_iff.mp hput
  have hthreads : threads = w.pool.threads ∨ threads = w.pool.threads ++ [.loop] := by
    rcases notifyOne_cases hnotify with ⟨rfl, -⟩ | ⟨j, pc, hpc, hparked, -⟩
    · split_ifs
      · exact .inr rfl
      · exact .inl rfl
    · have hmem := List.mem_of_getElem? hpc
      split_ifs at hmem
      · rcases List.mem_append.mp hmem with hold | hnew
        · exact absurd hparked (hw.not_parked hold)
        · rw [List.mem_singleton.mp hnew] at hparked
          exact hparked.elim
      · exact absurd hparked (hw.not_parked hmem)
  rcases hthreads with rfl | rfl
  · exact ⟨hw.awake, hw.worker, hw.absent⟩
  · constructor
    · intro pc hpc
      rcases List.mem_append.mp hpc with hold | hnew
      · exact hw.awake pc hold
      · rw [List.mem_singleton.mp hnew]
        exact nofun
    · intro i pc hpc
      dsimp only at hpc
      rw [List.getElem?_append] at hpc
      split_ifs at hpc with hlt
      · exact hw.worker i pc hpc
      · obtain ⟨htaken, hmoved⟩ := hw.absent i (List.getElem?_eq_none_iff.mpr (by omega))
        rw [htaken, hmoved, Nat.zero_add, Nat.zero_add]
        exact ⟨pc.tasks_le, pc.steps_le⟩
    · intro i hi
      rw [List.getElem?_eq_none_iff, List.length_append] at hi
      exact hw.absent i (List.getElem?_eq_none_iff.mpr (by omega))

theorem Stopping.run {w w' : Watched τ} (hw : Stopping w) (hstop : w.pool.running = false)
    (hstep : watch w (.run i) = some w') : Stopping w' := by
  obtain ⟨p', hp, rfl⟩ := Option.map_eq_some_iff.mp hstep
  obtain ⟨-, pc, pc', hpc, hthreads, hfinish⟩ := exists_finishing hstop hp
  have hlt := (List.getElem?_eq_some_iff.mp hpc).1
  simp only [hstop, true_and, Action.worker, Option.some.injEq]
  constructor
  · intro q hq
    rw [hthreads] at hq
    rcases List.mem_or_eq_of_mem_set hq with hold | rfl
    · exact hw.awake q hold
    · exact hfinish.awake
  · intro j q hq
    rw [hthreads] at hq
    by_cases hij : i = j
    · obtain rfl : pc' = q := by
        rw [← hij, List.getElem?_set_self hlt] at hq
        exact Option.some.inj hq
      obtain ⟨htaken, hmoved⟩ := hw.worker i pc hpc
      have htasks := hfinish.tasks
      have hsteps := hfinish.steps
      dsimp only
      rw [if_pos hij, if_pos hij, ← hij]
      omega
    · rw [List.getElem?_set_ne hij] at hq
      dsimp only
      rw [if_neg hij, if_neg hij]
      exact hw.worker j q hq
  · intro j hj
    rw [hthreads, List.getElem?_eq_none_iff, List.length_set] at hj
    have hij : i ≠ j := by omega
    dsimp only
    rw [if_neg hij, if_neg hij]
    exact hw.absent j (List.getElem?_eq_none_iff.mpr hj)

theorem Stopping.step {w w' : Watched τ} (hw : Stopping w) (hstop : w.pool.running = false)
    (hstep : watch w a = some w') : Stopping w' := by
  cases a with
  | put task woken =>
      obtain ⟨p', hp, rfl⟩ := Option.map_eq_some_iff.mp hstep
      simpa only [Action.worker, reduceCtorEq, and_false, if_false, Nat.add_zero] using hw.put hp
  | run i => exact hw.run hstop hstep
  | spurious i =>
      obtain ⟨p', hp, rfl⟩ := Option.map_eq_some_iff.mp hstep
      simp only [Pool.step] at hp
      split at hp
      case h_1 hpc => exact absurd rfl (hw.awake _ (List.mem_of_getElem? hpc))
      case h_2 => cases hp
  | stop =>
      obtain ⟨p', hp, rfl⟩ := Option.map_eq_some_iff.mp hstep
      cases hp
      have hsame : notifyAll Pc.Parked (fun _ => .notified) w.pool.threads = w.pool.threads :=
        calc notifyAll Pc.Parked (fun _ => .notified) w.pool.threads = w.pool.threads.map id :=
              List.map_congr_left fun pc hpc => if_neg (hw.not_parked hpc)
          _ = w.pool.threads := List.map_id _
      rw [hsame]
      simp only [Action.worker, reduceCtorEq, and_false, if_false, Nat.add_zero]
      exact ⟨hw.awake, hw.worker, hw.absent⟩

theorem Watched.Counted.step {w w' : Watched τ} (hw : w.Counted) (hstep : watch w a = some w') :
    w'.Counted := by
  unfold Watched.Counted at hw
  split_ifs at hw with hrun
  · obtain ⟨p', hp, rfl⟩ := Option.map_eq_some_iff.mp hstep
    by_cases ha : a = .stop
    · subst ha
      cases hp
      simp only [Watched.Counted, Bool.false_eq_true, if_false, Action.worker, reduceCtorEq,
        and_false, Nat.add_zero]
      exact .of_stop hw.1 hw.2
    · rw [Watched.Counted, running_of_step ha hp]
      simp [hrun, hw.1, hw.2]
  · have hstop : w.pool.running = false := Bool.eq_false_of_not_eq_true hrun
    have hstill : w'.pool.running = false := by
      obtain ⟨p', hp, rfl⟩ := Option.map_eq_some_iff.mp hstep
      by_cases ha : a = .stop
      · subst ha
        cases hp
        rfl
      · exact (running_of_step ha hp).trans hstop
    rw [Watched.Counted, if_neg (by simp [hstill])]
    exact hw.step hstop hstep

/-- **After `stop`.** In every state reached behind `stop`, no worker is parked, each has taken one
more task at most and made three steps at most, and each that has not returned can make its next
step. -/
theorem stopping_of_reaches {w : Watched τ}
    (hreach : Reaches watch (fun _ _ => True) (Watched.init n) w) (hstop : w.pool.running = false) :
    (∀ pc ∈ w.pool.threads, pc ≠ .parked) ∧ (∀ i, w.taken i ≤ 1) ∧ (∀ i, w.moved i ≤ 3)
      ∧ ∀ i pc, w.pool.threads[i]? = some pc → pc ≠ .returned →
        ∃ p, Pool.step w.pool (.run i) = some p := by
  have hcounted : w.Counted := hreach.invariant ⟨fun _ => rfl, fun _ => rfl⟩
    fun _ _ _ hw _ hstep => hw.step hstep
  rw [Watched.Counted, if_neg (by simp [hstop])] at hcounted
  refine ⟨hcounted.awake, fun i => ?_, fun i => ?_, fun i pc hpc halive =>
    exists_step_of_awake hpc (hcounted.awake pc (List.mem_of_getElem? hpc)) halive⟩
  · cases hi : w.pool.threads[i]? with
    | none =>
        rw [(hcounted.absent i hi).1]
        exact Nat.zero_le 1
    | some pc =>
        calc w.taken i ≤ w.taken i + pc.tasks := Nat.le_add_right _ _
          _ ≤ 1 := (hcounted.worker i pc hi).1
  · cases hi : w.pool.threads[i]? with
    | none =>
        rw [(hcounted.absent i hi).2]
        exact Nat.zero_le 3
    | some pc =>
        calc w.moved i ≤ w.moved i + pc.steps := Nat.le_add_right _ _
          _ ≤ 3 := (hcounted.worker i pc hi).2

/-- Two tasks are put, and the only worker comes for the second right before `stop`. -/
theorem stopping_of_reaches_sample :
    ∃ w : Watched ℕ, (w.pool.running = false ∧ w.pool.threads = [.exec 8] ∧ w.taken 0 = 1)
      ∧ (∀ pc ∈ w.pool.threads, pc ≠ .parked) ∧ (∀ i, w.taken i ≤ 1) ∧ (∀ i, w.moved i ≤ 3)
      ∧ ∀ i pc, w.pool.threads[i]? = some pc → pc ≠ .returned →
        ∃ p, Pool.step w.pool (.run i) = some p := by
  have hput : Reaches watch (fun _ _ => True) (Watched.init 1 : Watched ℕ) _ :=
    .tail (a := .put 8 none) (.tail (a := .put 7 none) .refl trivial rfl) trivial rfl
  have hexec : Reaches watch (fun _ _ => True) (Watched.init 1 : Watched ℕ) _ :=
    .tail (a := .run 0) (.tail (a := .run 0) hput trivial rfl) trivial rfl
  have hback : Reaches watch (fun _ _ => True) (Watched.init 1 : Watched ℕ) _ :=
    .tail (a := .run 0) (.tail (a := .run 0) hexec trivial rfl) trivial rfl
  have hstop : Reaches watch (fun _ _ => True) (Watched.init 1 : Watched ℕ) _ :=
    .tail (a := .run 0) (.tail (a := .stop) hback trivial rfl) trivial rfl
  exact ⟨_, ⟨rfl, rfl, rfl⟩, stopping_of_reaches hstop rfl⟩

end Networking.Pool

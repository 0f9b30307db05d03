import Networking.Pool.Stop

/-!
# The joins of `stop`

After its critical section `stop` goes over `_threads` without the lock and joins what it finds
there. `put` does not look at `_running`, so it may still start a worker. The loop has its end from
when it was entered, and a worker that is started later is not joined.
-/

namespace Networking.Pool

open Condition Transition

variable {τ : Type} {n : BitVec 8} {p p' : Threadpool τ} {a : Action τ}

/-- Where the thread that calls `stop` stands: before the critical section, behind it, in the loop
with the index of the next thread and the end of the range, or done. -/
inductive StopPc
  | before
  | cleared
  | joining (next last : ℕ)
  | returned
  deriving DecidableEq

/-- A pool and one call of `stop`. For the record, the threads joined and the number of those
started since `_running` is false. -/
structure Stopped (τ : Type) where
  pool : Threadpool τ
  stop : StopPc
  joined : List ℕ
  late : ℕ

def Stopped.init (n : BitVec 8) : Stopped τ := ⟨.init n, .before, [], 0⟩

inductive Move (τ : Type)
  | pool (a : Action τ)
  | stop

/-- The next step of `stop`. A join waits for its thread to return. The index stands for the
iterator of the loop, which is valid as long as no thread is added to `_threads` behind its start.
-/
def stopStep (s : Stopped τ) : Option (Stopped τ) :=
  match s.stop with
  | .before => (step s.pool .stop).map fun pool => { s with pool := pool, stop := .cleared }
  | .cleared => some { s with stop := .joining 0 s.pool.threads.length }
  | .joining next last =>
      if next = last then
        some { s with stop := .returned }
      else
        match s.pool.threads[next]? with
        | some .returned =>
            some { s with stop := .joining (next + 1) last, joined := s.joined ++ [next] }
        | _ => none
  | .returned => none

def move (s : Stopped τ) : Move τ → Option (Stopped τ)
  | .pool .stop => none
  | .pool a => (step s.pool a).map fun pool =>
      { s with
        pool := pool
        late := s.late + if s.pool.running then 0 else pool.threads.length - s.pool.threads.length }
  | .stop => stopStep s

/-- The test in `put` that a worker is started for. -/
def Threadpool.Starts (p : Threadpool τ) : Prop :=
  p.waiting = 0 ∧ p.threads.length < p.nthreads.toNat

/-- No `put` that would start a worker finds `_running` false. -/
def Move.Safe (s : Stopped τ) : Move τ → Prop
  | .pool (.put _ _) => s.pool.running = false → ¬s.pool.Starts
  | _ => True

/-- No worker was started since `_running` is false, and when `stop` has returned every thread in
`_threads` has been joined. -/
structure Stopped.Joined (s : Stopped τ) : Prop where
  late : s.late = 0
  all : s.stop = .returned → ∀ i < s.pool.threads.length, i ∈ s.joined

/-! ### What a step does to `_threads` -/

/-- `_threads` grows by the worker that `put` starts. -/
theorem length_of_put {task : τ} {woken : Option ℕ} (hput : put p task woken = some p') :
    (p.Starts ∧ p'.threads.length = p.threads.length + 1)
      ∨ ¬p.Starts ∧ p'.threads.length = p.threads.length := by
  obtain ⟨threads, hnotify, rfl⟩ := Option.map_eq_some_iff.mp hput
  have hlength := length_notifyOne hnotify
  split_ifs at hlength with hstarts
  · rw [List.length_append, List.length_singleton] at hlength
    exact .inl ⟨hstarts, hlength⟩
  · exact .inr ⟨hstarts, hlength⟩

theorem length_take (p : Threadpool τ) (i : ℕ) :
    (take p i).threads.length = p.threads.length := by
  unfold take
  split
  · split_ifs <;> exact List.length_set
  · exact List.length_set

/-- Nothing else changes the number of the threads. -/
theorem length_of_step (ha : ∀ task woken, a ≠ .put task woken) (hstep : step p a = some p') :
    p'.threads.length = p.threads.length := by
  cases a with
  | put task woken => exact absurd rfl (ha task woken)
  | run i =>
      simp only [step] at hstep
      split at hstep <;> cases hstep
      · exact List.length_set
      · exact length_take p i
      · split_ifs
        · exact length_take _ i
        · exact List.length_set
      · exact List.length_set
  | spurious i =>
      simp only [step] at hstep
      split at hstep <;> cases hstep
      exact List.length_set
  | stop =>
      cases hstep
      exact List.length_map _

/-! ### Every run -/

variable {s t : Stopped τ} {m : Move τ}

/-- The loop covers the threads that were there when it was entered. -/
def Stopped.Covered (s : Stopped τ) : Prop :=
  match s.stop with
  | .before => s.pool.running = true ∧ s.late = 0 ∧ s.joined = []
  | .cleared => s.pool.running = false ∧ s.joined = []
  | .joining next last => s.pool.running = false ∧ s.joined = List.range next ∧ next ≤ last
      ∧ s.pool.threads.length ≤ last + s.late
  | .returned => s.pool.running = false
      ∧ ∃ last, s.joined = List.range last ∧ s.pool.threads.length ≤ last + s.late

theorem Stopped.Covered.joined_iff (hs : s.Covered) : s.Joined ↔ s.late = 0 := by
  refine ⟨fun h => h.late, fun hlate => ⟨hlate, fun hstop i hi => ?_⟩⟩
  rw [Stopped.Covered, hstop] at hs
  obtain ⟨-, last, hjoined, hlength⟩ := hs
  rw [hjoined, List.mem_range]
  omega

/-- A step of the pool may start threads, but none goes away. -/
theorem Stopped.Covered.pool (hs : s.Covered)
    (hlength : s.pool.threads.length ≤ p.threads.length)
    (hrunning : p.running = s.pool.running) :
    Stopped.Covered { s with
      pool := p
      late := s.late
        + if s.pool.running then 0 else p.threads.length - s.pool.threads.length } := by
  unfold Stopped.Covered at hs ⊢
  cases hstop : s.stop with
  | before =>
      rw [hstop] at hs
      dsimp only at hs ⊢
      rw [hrunning, if_pos hs.1]
      exact hs
  | cleared =>
      rw [hstop] at hs
      dsimp only at hs ⊢
      rwa [hrunning]
  | joining next last =>
      rw [hstop] at hs
      dsimp only at hs ⊢
      obtain ⟨hfalse, hjoined, hnext, hle⟩ := hs
      refine ⟨hrunning.trans hfalse, hjoined, hnext, ?_⟩
      rw [hfalse, if_neg Bool.false_ne_true]
      omega
  | returned =>
      rw [hstop] at hs
      dsimp only at hs ⊢
      obtain ⟨hfalse, last, hjoined, hle⟩ := hs
      refine ⟨hrunning.trans hfalse, last, hjoined, ?_⟩
      rw [hfalse, if_neg Bool.false_ne_true]
      omega

theorem Stopped.Covered.stopStep (hs : s.Covered) (hstep : Pool.stopStep s = some t) :
    t.Covered ∧ t.late = s.late := by
  unfold Pool.stopStep at hstep
  unfold Stopped.Covered at hs
  cases hstop : s.stop with
  | before =>
      rw [hstop] at hs hstep
      cases hstep
      exact ⟨⟨rfl, hs.2.2⟩, rfl⟩
  | cleared =>
      rw [hstop] at hs hstep
      cases hstep
      exact ⟨⟨hs.1, hs.2, Nat.zero_le _, Nat.le_add_right _ _⟩, rfl⟩
  | joining next last =>
      rw [hstop] at hs hstep
      dsimp only at hs hstep
      obtain ⟨hfalse, hjoined, hnext, hle⟩ := hs
      split_ifs at hstep with hdone
      · cases hstep
        exact ⟨⟨hfalse, last, hdone ▸ hjoined, hle⟩, rfl⟩
      · split at hstep
        · cases hstep
          refine ⟨⟨hfalse, ?_, by omega, hle⟩, rfl⟩
          rw [hjoined, List.range_succ]
        · cases hstep
  | returned =>
      rw [hstop] at hstep
      cases hstep

/-- A `put` goes wrong where it starts a worker after `_running` has been cleared. -/
theorem late_put_iff {task : τ} {woken : Option ℕ} (hput : put s.pool task woken = some p) :
    s.late + (if s.pool.running then 0 else p.threads.length - s.pool.threads.length) = 0
      ↔ s.late = 0 ∧ (s.pool.running = false → ¬s.pool.Starts) := by
  cases s.pool.running with
  | true => simp
  | false =>
      rcases length_of_put hput with ⟨hstarts, hlength⟩ | ⟨hstarts, hlength⟩
      · simp [hstarts, hlength]
      · simp [hstarts, hlength]

/-- **One step** keeps what has been joined complete exactly when it is safe. -/
theorem Stopped.Covered.move (hs : s.Covered) (hstep : Pool.move s m = some t) :
    t.Covered ∧ (t.Joined ↔ s.Joined ∧ m.Safe s) := by
  cases m with
  | stop =>
      obtain ⟨ht, hlate⟩ := hs.stopStep hstep
      refine ⟨ht, ?_⟩
      rw [ht.joined_iff, hs.joined_iff, hlate]
      exact (and_iff_left trivial).symm
  | pool a =>
      cases a with
      | stop => cases hstep
      | put task woken =>
          obtain ⟨p, hp, rfl⟩ := Option.map_eq_some_iff.mp hstep
          have hlength : s.pool.threads.length ≤ p.threads.length := by
            rcases length_of_put hp with ⟨-, hmore⟩ | ⟨-, hsame⟩ <;> omega
          have ht := hs.pool hlength (running_of_step (by simp) hp)
          refine ⟨ht, ?_⟩
          rw [ht.joined_iff, hs.joined_iff]
          exact late_put_iff hp
      | run i | spurious i =>
          obtain ⟨p, hp, rfl⟩ := Option.map_eq_some_iff.mp hstep
          have hlength := length_of_step (by simp) hp
          have ht := hs.pool hlength.ge (running_of_step (by simp) hp)
          refine ⟨ht, ?_⟩
          rw [ht.joined_iff, hs.joined_iff, hlength, Nat.sub_self, ite_self]
          exact (and_iff_left trivial).symm

/-- **All threads are joined**, and none is started after `stop` has cleared `_running`, exactly in
the runs where no `put` finds `_running` false, nobody waiting and room for a thread. -/
theorem joined_iff_along {moves : ℕ → Move τ} {k : ℕ}
    (hk : along move (Stopped.init n) moves k = some s) :
    s.Joined ↔ ∀ j < k, ∀ t, along move (Stopped.init n) moves j = some t → (moves j).Safe t := by
  apply along_iff_of_step Stopped.Covered Stopped.Joined (fun s m => m.Safe s) _ _ _ hk
  · exact ⟨rfl, rfl, rfl⟩
  · exact ⟨rfl, by simp [Stopped.init]⟩
  · intro s m t hs hstep
    exact hs.move hstep

/-- A task is put while `stop` is in its loop, which had no thread to join. -/
def lateMoves : ℕ → Move ℕ
  | 2 => .pool (.put 7 none)
  | _ => .stop

/-- The worker started for it is there when `stop` returns, and is not joined. -/
theorem not_joined :
    ∃ s, along move (Stopped.init 1) lateMoves 4 = some s ∧ s.stop = .returned
      ∧ s.pool.threads = [.loop] ∧ s.joined = [] ∧ ¬s.Joined := by
  refine ⟨_, rfl, rfl, rfl, rfl, fun h => ?_⟩
  cases h.late

/-- Up to the task everything is fine, and with it no more. -/
theorem joined_iff_along_late :
    (∃ s, along move (Stopped.init 1) lateMoves 2 = some s ∧ s.Joined)
      ∧ ∃ s, along move (Stopped.init 1) lateMoves 3 = some s ∧ ¬s.Joined := by
  have hbefore : along move (Stopped.init 1) lateMoves 2 = some _ := rfl
  have hlate : along move (Stopped.init 1) lateMoves 3 = some _ := rfl
  refine ⟨⟨_, hbefore, (joined_iff_along hbefore).mpr ?_⟩, _, hlate, fun hjoined => ?_⟩
  · intro j hj t ht
    have hcases : j = 0 ∨ j = 1 := by omega
    rcases hcases with rfl | rfl <;> trivial
  · have hsafe := (joined_iff_along hlate).mp hjoined 2 (by decide) _ rfl
    exact hsafe rfl ⟨rfl, by decide⟩

end Networking.Pool

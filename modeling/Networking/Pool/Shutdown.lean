import Networking.Pool.Progress
import Networking.Pool.Joins

/-!
# The end of the pool

`stop` waits for the workers, and a worker may be late because of the task it executes. In a run
that is fair to the workers and to the thread that calls `stop`, the call returns all the same,
however many tasks are put meanwhile, and each worker returns, also one that is not joined. Only a
worker that is started while `stop` goes over `_threads` is left out: the loop holds iterators.
-/

namespace Networking.Pool

open Condition Transition

variable {τ : Type} {n : BitVec 8} {p p' : Threadpool τ} {a : Action τ} {i next last : ℕ}
  {pc : Pc τ} {s t : Stopped τ} {m : Move τ}

/-! ### Workers go down -/

/-- A pool behind the critical section of `stop`. -/
structure Down (p : Threadpool τ) : Prop where
  running : p.running = false
  awake : ∀ pc ∈ p.threads, pc ≠ .parked

theorem not_parked_of_ne (h : pc ≠ .parked) : ¬pc.Parked := by
  intro hparked
  cases pc with
  | parked => exact h rfl
  | loop | take | notified | exec | returned => exact hparked

theorem Down.step (h : Down p) (ha : a ≠ .stop) (hstep : Pool.step p a = some p') : Down p' := by
  refine ⟨(running_of_step ha hstep).trans h.running, ?_⟩
  have hstopping : Stopping (⟨p, fun _ => 0, fun _ => 0⟩ : Watched τ) := by
    refine ⟨h.awake, fun i pc _ => ⟨?_, ?_⟩, fun i _ => ⟨rfl, rfl⟩⟩
    · rw [Nat.zero_add]
      exact pc.tasks_le
    · rw [Nat.zero_add]
      exact pc.steps_le
  cases hwatch : watch (⟨p, fun _ => 0, fun _ => 0⟩ : Watched τ) a with
  | none =>
      rw [watch, hstep] at hwatch
      cases hwatch
  | some w =>
      have hawake := (hstopping.step h.running hwatch).awake
      rw [watch, hstep] at hwatch
      cases hwatch
      exact hawake

/-- No step sends a worker back, and each of its own brings it closer to its end. -/
theorem Down.worker (h : Down p) (ha : a ≠ .stop) (hstep : Pool.step p a = some p')
    (hi : p.threads[i]? = some pc) :
    ∃ pc', p'.threads[i]? = some pc' ∧ pc'.steps ≤ pc.steps
      ∧ (a = .run i → pc'.steps < pc.steps) := by
  by_cases hrun : a = .run i
  · subst hrun
    obtain ⟨-, q, q', hq, hthreads, hfinish⟩ := exists_finishing h.running hstep
    obtain rfl : q = pc := Option.some.inj (hq.symm.trans hi)
    have hsteps := hfinish.steps
    refine ⟨q', ?_, by omega, fun _ => by omega⟩
    rw [hthreads, List.getElem?_set_self (List.getElem?_eq_some_iff.mp hi).1]
  · have hup := not_parked_of_ne (h.awake pc (List.mem_of_getElem? hi))
    exact ⟨pc, getElem?_of_other ha hrun hstep hi hup, le_rfl, fun h => absurd h hrun⟩

theorem Down.returned (h : Down p) (ha : a ≠ .stop) (hstep : Pool.step p a = some p')
    (hi : p.threads[i]? = some .returned) : p'.threads[i]? = some .returned := by
  obtain ⟨pc', hi', hle, -⟩ := h.worker ha hstep hi
  have hawake := (h.step ha hstep).awake pc' (List.mem_of_getElem? hi')
  cases pc' with
  | returned => exact hi'
  | parked => exact absurd rfl hawake
  | loop | take | notified | exec => exact absurd hle (by simp [Pc.steps])

/-! ### The call of `stop` -/

/-- The pool is down when `_running` has been cleared, and the loop of `stop` goes over threads that
exist. -/
def Stopped.Sound (s : Stopped τ) : Prop :=
  match s.stop with
  | .before => True
  | .cleared | .returned => Down s.pool
  | .joining next last => Down s.pool ∧ next ≤ last ∧ last ≤ s.pool.threads.length

theorem Stopped.Sound.down (h : s.Sound) (hstop : s.stop ≠ .before) : Down s.pool := by
  unfold Stopped.Sound at h
  cases hs : s.stop with
  | before => exact absurd hs hstop
  | cleared | returned =>
      rw [hs] at h
      exact h
  | joining next last =>
      rw [hs] at h
      exact h.1

theorem down_of_stop (hstep : step p .stop = some p') : Down p' := by
  cases hstep
  refine ⟨rfl, fun pc hpc => ?_⟩
  obtain ⟨q, -, rfl⟩ := List.mem_map.mp hpc
  split_ifs with hparked
  · exact nofun
  · rintro rfl
    exact hparked trivial

/-- A step of the pool, with `stop` as it is. -/
theorem move_pool (hstep : move s (.pool a) = some t) :
    a ≠ .stop ∧ step s.pool a = some t.pool ∧ t.stop = s.stop := by
  cases a with
  | stop => cases hstep
  | put task woken =>
      obtain ⟨p, hp, rfl⟩ := Option.map_eq_some_iff.mp hstep
      exact ⟨nofun, hp, rfl⟩
  | run i | spurious i =>
      obtain ⟨p, hp, rfl⟩ := Option.map_eq_some_iff.mp hstep
      exact ⟨nofun, hp, rfl⟩

theorem length_le_of_step (ha : a ≠ .stop) (hstep : step p a = some p') :
    p.threads.length ≤ p'.threads.length := by
  cases a with
  | put task woken =>
      rcases length_of_put hstep with ⟨-, hmore⟩ | ⟨-, hsame⟩ <;> omega
  | run i | spurious i => exact (length_of_step (by simp) hstep).ge
  | stop => exact absurd rfl ha

theorem Stopped.Sound.move (h : s.Sound) (hstep : Pool.move s m = some t) : t.Sound := by
  cases m with
  | pool a =>
      obtain ⟨ha, hpool, hsame⟩ := move_pool hstep
      unfold Stopped.Sound at h ⊢
      rw [hsame]
      cases hs : s.stop with
      | before => trivial
      | cleared | returned =>
          rw [hs] at h
          exact h.step ha hpool
      | joining next last =>
          rw [hs] at h
          exact ⟨h.1.step ha hpool, h.2.1, h.2.2.trans (length_le_of_step ha hpool)⟩
  | stop =>
      simp only [Pool.move, stopStep] at hstep
      unfold Stopped.Sound at h
      split at hstep
      case h_1 hs =>
        obtain ⟨p, hp, rfl⟩ := Option.map_eq_some_iff.mp hstep
        exact down_of_stop hp
      case h_2 hs =>
        cases hstep
        rw [hs] at h
        exact ⟨h, Nat.zero_le _, le_rfl⟩
      case h_3 next last hs =>
        rw [hs] at h
        split_ifs at hstep with hdone
        · cases hstep
          exact h.1
        · split at hstep
          · cases hstep
            have hle := h.2.1
            exact ⟨h.1, by omega, h.2.2⟩
          · cases hstep
      case h_4 => cases hstep

/-- The loop of `stop` does not touch the pool. -/
theorem pool_of_stop (hstop : s.stop ≠ .before) (hstep : move s .stop = some t) :
    t.pool = s.pool := by
  simp only [move, stopStep] at hstep
  split at hstep
  case h_1 hs => exact absurd hs hstop
  case h_2 =>
    cases hstep
    rfl
  case h_3 =>
    split_ifs at hstep
    · cases hstep
      rfl
    · split at hstep <;> cases hstep
      rfl
  case h_4 => cases hstep

theorem stop_ne_before (hstop : s.stop ≠ .before) (hstep : move s m = some t) :
    t.stop ≠ .before := by
  cases m with
  | pool a =>
      rw [(move_pool hstep).2.2]
      exact hstop
  | stop =>
      simp only [move, stopStep] at hstep
      split at hstep
      case h_1 hs => exact absurd hs hstop
      case h_2 =>
        cases hstep
        exact nofun
      case h_3 =>
        split_ifs at hstep
        · cases hstep
          exact nofun
        · split at hstep <;> cases hstep
          exact nofun
      case h_4 => cases hstep

/-- From `joining next last` on, the loop only goes on. -/
def Stopped.Joins (last next : ℕ) (s : Stopped τ) : Prop :=
  s.stop = .returned ∨ ∃ m ≥ next, s.stop = .joining m last

theorem Stopped.Joins.move (h : s.Joins last next) (hstep : Pool.move s m = some t) :
    t.Joins last next := by
  cases m with
  | pool a =>
      rw [Stopped.Joins, (move_pool hstep).2.2]
      exact h
  | stop =>
      rcases h with hs | ⟨m, hm, hs⟩
      · simp only [Pool.move, stopStep, hs] at hstep
        cases hstep
      · simp only [Pool.move, stopStep, hs] at hstep
        split_ifs at hstep
        · cases hstep
          exact .inl rfl
        · split at hstep <;> cases hstep
          exact .inr ⟨m + 1, by omega, rfl⟩

/-! ### Every fair run -/

def StopPc.isJoining : StopPc → Bool
  | .joining _ _ => true
  | .before | .cleared | .returned => false

/-- No `put` starts a worker while `stop` is in its loop, whose iterators the new element of
`_threads` would leave dangling. -/
def Move.Apart (s : Stopped τ) : Move τ → Prop
  | .pool (.put _ _) => s.stop.isJoining → ¬s.pool.Starts
  | _ => True

instance (s : Stopped τ) : DecidablePred (Move.Apart s)
  | .pool (.put _ _) => inferInstanceAs (Decidable (_ → ¬(_ ∧ _)))
  | .pool .stop | .pool (.run _) | .pool (.spurious _) | .stop => .isTrue trivial

variable {run : Run move Move.Apart (Stopped.init n : Stopped τ)}

theorem sound_state (run : Run move Move.Apart (Stopped.init n : Stopped τ)) (k : ℕ) :
    (run.state k).Sound :=
  (run.reaches k).invariant trivial fun _ _ _ h _ hstep => h.move hstep

/-- A worker that exists behind `stop` returns. -/
theorem worker_leadsTo (hworkers : ∀ i, run.Fair (· = .pool (.run i))) (i : ℕ) :
    run.LeadsTo (fun s => s.Sound ∧ s.stop ≠ .before ∧ i < s.pool.threads.length)
      fun s => s.pool.threads[i]? = some .returned := by
  rintro k ⟨hsound, hstop, hi⟩
  refine (hworkers i).leadsTo
    (fun s => s.Sound ∧ s.stop ≠ .before ∧ ∃ pc, s.pool.threads[i]? = some pc)
    (fun s => s.pool.threads[i]? = some .returned)
    (fun s => (s.pool.threads[i]?.map Pc.steps).getD 0) ?_ ?_ k
    ⟨hsound, hstop, _, List.getElem?_eq_getElem hi⟩
  · rintro s ⟨hsound, hstop, pc, hi⟩ hopen
    obtain ⟨p, hp⟩ := exists_step_of_awake hi
      ((hsound.down hstop).awake pc (List.mem_of_getElem? hi))
      (by rintro rfl; exact hopen hi)
    exact ⟨_, _, rfl, trivial, congrArg (Option.map _) hp⟩
  · rintro s m t ⟨hsound, hstop, pc, hi⟩ - - hstep
    right
    have hnext := hsound.move hstep
    have hlater := stop_ne_before hstop hstep
    cases m with
    | pool a =>
        obtain ⟨ha, hpool, -⟩ := move_pool hstep
        obtain ⟨pc', hi', hle, hlt⟩ := (hsound.down hstop).worker ha hpool hi
        refine ⟨⟨hnext, hlater, pc', hi'⟩, by simpa [hi, hi'] using hle, fun hmine => ?_⟩
        obtain rfl : a = .run i := by injection hmine
        simpa [hi, hi'] using hlt rfl
    | stop =>
        rw [pool_of_stop hstop hstep]
        exact ⟨⟨hnext, hlater, pc, hi⟩, le_rfl, nofun⟩

/-- **One join.** The loop of `stop` gets past a thread that has returned, and past its end. -/
theorem join_leadsTo (hcaller : run.Fair (· = .stop)) (next last : ℕ) :
    run.LeadsTo (fun s => s.Sound ∧ s.stop = .joining next last
        ∧ (next = last ∨ s.pool.threads[next]? = some .returned))
      fun s => s.stop = .returned ∨ s.stop = .joining (next + 1) last := by
  apply hcaller.leadsTo _ _ fun _ => 0
  · rintro s ⟨-, hs, hready⟩ -
    by_cases hdone : next = last
    · exact ⟨.stop, _, rfl, trivial, by
        simp only [move, stopStep, hs, hdone, if_true]
        rfl⟩
    · have hreturned := hready.resolve_left hdone
      exact ⟨.stop, _, rfl, trivial,
        by
          simp only [move, stopStep, hs, hdone, hreturned, if_false]
          rfl⟩
  · rintro s m t ⟨hsound, hs, hready⟩ - - hstep
    cases m with
    | pool a =>
        obtain ⟨ha, hpool, hsame⟩ := move_pool hstep
        right
        refine ⟨⟨hsound.move hstep, hsame.trans hs, hready.imp_right fun hreturned => ?_⟩, le_rfl,
          nofun⟩
        exact (hsound.down (by rw [hs]; exact nofun)).returned ha hpool hreturned
    | stop =>
        left
        simp only [move, stopStep, hs] at hstep
        split_ifs at hstep
        · cases hstep
          exact .inl rfl
        · split at hstep <;> cases hstep
          exact .inr rfl

/-- Behind `stop`, worker `i` has returned. -/
structure Stopped.Gone (i : ℕ) (s : Stopped τ) : Prop where
  sound : s.Sound
  behind : s.stop ≠ .before
  returned : s.pool.threads[i]? = some .returned

theorem Stopped.Gone.move (h : s.Gone i) (hstep : Pool.move s m = some t) : t.Gone i := by
  refine ⟨h.sound.move hstep, stop_ne_before h.behind hstep, ?_⟩
  cases m with
  | pool a =>
      obtain ⟨ha, hpool, -⟩ := move_pool hstep
      exact (h.sound.down h.behind).returned ha hpool h.returned
  | stop =>
      rw [pool_of_stop h.behind hstep]
      exact h.returned

/-- What the loop of `stop` has before it. -/
def Stopped.ahead (s : Stopped τ) : ℕ :=
  match s.stop with
  | .joining next last => last + 1 - next
  | _ => 0

theorem joining_leadsTo (hworkers : ∀ i, run.Fair (· = .pool (.run i)))
    (hcaller : run.Fair (· = .stop)) (last : ℕ) :
    run.LeadsTo (Stopped.Joins last 0) fun s => s.stop = .returned := by
  apply Run.leadsTo_of_rounds _ _ Stopped.ahead
  rintro c k ⟨hjoins, hc⟩
  rcases hjoins with hdone | ⟨next, -, hs⟩
  · exact ⟨k, le_rfl, .inl hdone⟩
  have hsound := sound_state run k
  rw [Stopped.Sound, hs] at hsound
  -- first the thread has to return, then the loop has to look at it
  obtain ⟨j, hj, hready⟩ : ∃ j ≥ k, next = last
      ∨ (run.state j).pool.threads[next]? = some .returned := by
    by_cases hlast : next = last
    · exact ⟨k, le_rfl, .inl hlast⟩
    · have hlt : next < (run.state k).pool.threads.length := by omega
      obtain ⟨j, hj, hreturned⟩ := worker_leadsTo hworkers next k
        ⟨sound_state run k, by rw [hs]; exact nofun, hlt⟩
      exact ⟨j, hj, .inr hreturned⟩
  have hahead : (run.state k).ahead = last + 1 - next := by rw [Stopped.ahead, hs]
  have hlater : (run.state j).Joins last next :=
    run.always (fun _ _ _ h _ hstep => h.move hstep) hj (.inr ⟨next, le_rfl, hs⟩)
  rcases hlater with hdone | ⟨m, hm, hjm⟩
  · exact ⟨j, hj, .inl hdone⟩
  rcases hm.eq_or_lt' with hsame | hmore
  · obtain rfl : m = next := hsame
    obtain ⟨l, hl, hdone | hnext⟩ :=
      join_leadsTo hcaller m last j ⟨sound_state run j, hjm, hready⟩
    · exact ⟨l, hl.trans' hj, .inl hdone⟩
    · refine ⟨l, hl.trans' hj, .inr ⟨.inr ⟨_, Nat.zero_le _, hnext⟩, ?_⟩⟩
      rw [Stopped.ahead, hnext]
      dsimp only
      omega
  · refine ⟨j, hj, .inr ⟨.inr ⟨m, Nat.zero_le _, hjm⟩, ?_⟩⟩
    rw [Stopped.ahead, hjm]
    dsimp only
    omega

theorem before_leadsTo (hcaller : run.Fair (· = .stop)) :
    run.LeadsTo (fun s => s.stop = .before) fun s => s.stop = .cleared := by
  apply hcaller.leadsTo _ _ fun _ => 0
  · intro s hs _
    exact ⟨.stop, _, rfl, trivial, by simp only [move, stopStep, hs]; rfl⟩
  · intro s m t hs _ _ hstep
    cases m with
    | pool a => exact .inr ⟨(move_pool hstep).2.2.trans hs, le_rfl, nofun⟩
    | stop =>
        simp only [move, stopStep, hs] at hstep
        obtain ⟨p, -, rfl⟩ := Option.map_eq_some_iff.mp hstep
        exact .inl rfl

theorem cleared_leadsTo (hcaller : run.Fair (· = .stop)) :
    run.LeadsTo (fun s => s.stop = .cleared) fun s => ∃ last, s.stop = .joining 0 last := by
  apply hcaller.leadsTo _ _ fun _ => 0
  · intro s hs _
    exact ⟨.stop, _, rfl, trivial, by simp only [move, stopStep, hs]; rfl⟩
  · intro s m t hs _ _ hstep
    cases m with
    | pool a => exact .inr ⟨(move_pool hstep).2.2.trans hs, le_rfl, nofun⟩
    | stop =>
        simp only [move, stopStep, hs] at hstep
        cases hstep
        exact .inl ⟨_, rfl⟩

/-- **`stop` returns.** In every run that is fair to the workers and to the caller of `stop`, and in
which no worker is started while `stop` is in its loop, the call returns, whatever else is put
meanwhile; and each worker that exists at some time behind `stop`, be it joined or not, has returned
for good at a later time. -/
theorem stop_returns_of_fair (hworkers : ∀ i, run.Fair (· = .pool (.run i)))
    (hcaller : run.Fair (· = .stop)) :
    (∃ k, (run.state k).stop = .returned)
      ∧ ∀ k i, (run.state k).stop ≠ .before → i < (run.state k).pool.threads.length →
        ∃ j ≥ k, ∀ l ≥ j, (run.state l).pool.threads[i]? = some .returned := by
  constructor
  · obtain ⟨j, -, hcleared⟩ := before_leadsTo hcaller 0 (by rw [run.start]; rfl)
    obtain ⟨l, -, last, hjoining⟩ := cleared_leadsTo hcaller j hcleared
    obtain ⟨k, -, hdone⟩ :=
      joining_leadsTo hworkers hcaller last l (.inr ⟨0, le_rfl, hjoining⟩)
    exact ⟨k, hdone⟩
  · intro k i hstop hi
    obtain ⟨j, hj, hreturned⟩ := worker_leadsTo hworkers i k ⟨sound_state run k, hstop, hi⟩
    have hbehind : (run.state j).stop ≠ .before :=
      run.always (fun _ _ _ h _ hstep => stop_ne_before h hstep) hj hstop
    refine ⟨j, hj, fun l hl => ?_⟩
    exact (run.always (fun _ _ _ h _ hstep => h.move hstep) hl
      (⟨sound_state run j, hbehind, hreturned⟩ : (run.state j).Gone i)).returned

/-- `stop` is called while the only worker executes a task, and waits for it. -/
def stopInTask : List (Move ℕ) :=
  [.pool (.put 7 none), .pool (.run 0), .pool (.run 0), .stop, .stop, .pool (.run 0),
    .pool (.run 0), .stop, .stop]

theorem stop_returns_of_fair_in_task :
    ∃ run : Run move Move.Apart (Stopped.init 1 : Stopped ℕ),
      (∀ i, run.Fair (· = .pool (.run i))) ∧ run.Fair (· = .stop)
        ∧ (run.state 5).pool.threads = [.exec 7]
        ∧ (∃ k, (run.state k).stop = .returned)
        ∧ ∀ k i, (run.state k).stop ≠ .before → i < (run.state k).pool.threads.length →
          ∃ j ≥ k, ∀ l ≥ j, (run.state l).pool.threads[i]? = some .returned := by
  have hfollow : follow move Move.Apart (Stopped.init 1 : Stopped ℕ) stopInTask
    = some _ := rfl
  let run : Run move Move.Apart (Stopped.init 1 : Stopped ℕ) :=
    .ofList stopInTask (after_of_follow hfollow)
  have hworkers : ∀ i, run.Fair (· = .pool (.run i)) := by
    intro i
    apply Run.ofList_fair
    rintro _ rfl
    cases i with
    | zero => rfl
    | succ i => rfl
  have hcaller : run.Fair (· = .stop) := by
    apply Run.ofList_fair
    rintro _ rfl
    rfl
  exact ⟨run, hworkers, hcaller, rfl, stop_returns_of_fair hworkers hcaller⟩

end Networking.Pool

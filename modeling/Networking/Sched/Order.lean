import Networking.Sched.EventQueue

/-!
# The order of events

With one thread at a time in `enter`, and a condition variable that wakes only on a notification,
events are executed once each and in the order in which they were pushed. Whoever leaves the loop
leaves the events behind the terminating one to the next.
-/

namespace Networking.Sched

open Condition Transition

variable {φ : Type} {q q' : EventQueue φ} {threads : List (Thread φ)} {t t' : Thread φ} {i : ℕ}
  {pc : Pc φ} {e : Event φ} {history : List (Event φ × Bool)}

/-! ### The record of the loop -/

/-- The event that has been taken from the queue and not been executed yet. -/
def Pc.inHand : Pc φ → List (Event φ)
  | .taken e => [e]
  | _ => []

def Pc.unfinished : Pc φ → List (Note φ)
  | .executing e => [.began e]
  | .updating e => [.began e, .returned e]
  | _ => []

def Note.began? : Note φ → Option (Event φ)
  | .began e => some e
  | _ => none

def EventQueue.executed (q : EventQueue φ) : List (Event φ) := q.notes.filterMap Note.began?

def EventQueue.inHand (q : EventQueue φ) : List (Event φ) := q.threads.flatMap fun t => t.pc.inHand

def EventQueue.unfinished (q : EventQueue φ) : List (Note φ) :=
  q.threads.flatMap fun t => t.pc.unfinished

/-- The notes of an event that is over: the update functor has run once if the event returned, and
not at all if it terminated the loop. -/
def block : Event φ × Bool → List (Note φ)
  | (e, false) => [.began e, .returned e, .updated]
  | (e, true) => [.began e, .terminated e]

theorem began_block (x : Event φ × Bool) : (block x).filterMap Note.began? = [x.1] := by
  obtain ⟨e, terminates⟩ := x
  cases terminates <;> rfl

theorem began_blocks (history : List (Event φ × Bool)) :
    (history.flatMap block).filterMap Note.began? = history.map Prod.fst := by
  induction history with
  | nil => rfl
  | cons x history ih =>
      rw [List.flatMap_cons, List.filterMap_append, began_block, ih]
      rfl

/-! ### The thread inside -/

/-- Every thread but the one at index `i` is outside. -/
def Alone (threads : List (Thread φ)) (i : ℕ) : Prop :=
  ∀ j t, threads[j]? = some t → j ≠ i → t.pc = .outside

/-- Where the one thread in `enter` stands, if there is one. -/
inductive Inside (threads : List (Thread φ)) : Pc φ → Prop
  | nobody (hall : ∀ t ∈ threads, t.pc = .outside) : Inside threads .outside
  | one {i : ℕ} {t : Thread φ} (hi : threads[i]? = some t) (hactive : t.pc ≠ .outside)
      (halone : Alone threads i) : Inside threads t.pc

theorem Alone.set (h : Alone threads i) (t : Thread φ) : Alone (threads.set i t) i :=
  fun j u hj hne => h j u (by rwa [List.getElem?_set_ne hne.symm] at hj) hne

theorem Inside.set (h : Inside threads pc) (hi : threads[i]? = some t) (hactive : t.pc ≠ .outside)
    (t' : Thread φ) : pc = t.pc ∧ Inside (threads.set i t') t'.pc := by
  cases h with
  | nobody hall => exact absurd (hall t (List.mem_of_getElem? hi)) hactive
  | @one j u hj _ halone =>
      obtain rfl : i = j := by
        by_contra hne
        exact hactive (halone i t hi hne)
      obtain rfl : t = u := Option.some_injective _ (hi.symm.trans hj)
      refine ⟨rfl, ?_⟩
      have hself : (threads.set i t')[i]? = some t' :=
        List.getElem?_set_self (List.getElem?_eq_some_iff.mp hi).1
      by_cases hout : t'.pc = .outside
      · rw [hout]
        apply Inside.nobody
        intro u hu
        obtain ⟨j, hj⟩ := List.getElem?_of_mem hu
        by_cases hji : j = i
        · rw [hji, hself] at hj
          rwa [← Option.some_injective _ hj]
        · exact halone.set t' j u hj hji
      · exact .one hself hout (halone.set t')

theorem Inside.flatMap {β : Type} {f : Pc φ → List β} (hf : f .outside = [])
    (h : Inside threads pc) : threads.flatMap (fun t => f t.pc) = f pc := by
  cases h with
  | nobody hall =>
      rw [hf]
      exact List.flatMap_eq_nil_iff.mpr fun t ht => by rw [hall t ht, hf]
  | @one i t hi _ halone =>
      obtain ⟨hlt, rfl⟩ := List.getElem?_eq_some_iff.mp hi
      have hbefore : (threads.take i).flatMap (fun t => f t.pc) = [] := by
        apply List.flatMap_eq_nil_iff.mpr
        intro t ht
        obtain ⟨j, hj, rfl⟩ := List.mem_take_iff_getElem.mp ht
        rw [halone j _ (List.getElem?_eq_getElem (by omega)) (by omega), hf]
      have hbehind : (threads.drop (i + 1)).flatMap (fun t => f t.pc) = [] := by
        apply List.flatMap_eq_nil_iff.mpr
        intro t ht
        obtain ⟨j, hj⟩ := List.getElem?_of_mem ht
        rw [List.getElem?_drop] at hj
        rw [halone _ t hj (by omega), hf]
      conv_lhs => rw [← List.take_append_drop i threads, List.drop_eq_getElem_cons hlt]
      rw [List.flatMap_append, List.flatMap_cons, hbefore, hbehind, List.append_nil,
        List.nil_append]

def Pc.woken (pc : Pc φ) : Pc φ := if pc.Parked then .notified else pc

theorem Inside.notifyAll (h : Inside threads pc) :
    Inside (Condition.notifyAll (fun t => t.pc.Parked) Thread.wake threads) pc.woken := by
  have hpc : ∀ t : Thread φ, (if t.pc.Parked then t.wake else t).pc = t.pc.woken := by
    intro t
    rw [Pc.woken]
    split_ifs <;> rfl
  have houtside : ∀ pc : Pc φ, pc = .outside → pc.woken = .outside := by
    rintro _ rfl
    rfl
  cases h with
  | nobody hall =>
      apply Inside.nobody
      intro t ht
      obtain ⟨u, hu, rfl⟩ := List.mem_map.mp ht
      rw [hpc]
      exact houtside _ (hall u hu)
  | @one i t hi hactive halone =>
      rw [← hpc]
      refine .one (i := i) ?_ ?_ fun j u hj hne => ?_
      · rw [Condition.notifyAll, List.getElem?_map, hi, Option.map_some]
      · rw [hpc, Pc.woken]
        split_ifs
        · exact nofun
        · exact hactive
      · rw [Condition.notifyAll, List.getElem?_map] at hj
        obtain ⟨v, hv, rfl⟩ := Option.map_eq_some_iff.mp hj
        rw [hpc]
        exact houtside _ (halone j v hv hne)

/-! ### What holds at all times -/

/-- The last event that is over, if any is, has terminated the loop. -/
def Ended (history : List (Event φ × Bool)) : Prop :=
  ∀ x, history.getLast? = some x → x.2 = true

/-- What holds while the one thread inside stands at `pc`, when the events of `history` are over. -/
structure Holds (history : List (Event φ × Bool)) (q : EventQueue φ) (pc : Pc φ) : Prop where
  order : q.executed ++ pc.inHand ++ q.queue = q.pushed
  notes : q.notes = history.flatMap block ++ pc.unfinished
  parked : pc = .parked → q.queue = []
  notified : pc = .notified → q.queue ≠ []
  defined : pc ≠ .undefined
  thread : pc = .outside → q.thread = none
  ended : pc = .outside ∨ pc = .leaving → Ended history

/-- No more than one thread is inside, and all is in order. -/
def Orderly (q : EventQueue φ) : Prop :=
  ∃ history pc, Inside q.threads pc ∧ Holds history q pc

/-- Enter only when no thread is inside, and wake only on a notification. The update functor does
not throw. -/
def OneInside (q : EventQueue φ) : Action φ → Prop
  | .enter _ _ => ∀ t ∈ q.threads, t.pc = .outside
  | .spurious _ | .terminate _ => False
  | _ => True

theorem orderly_init (n : ℕ) : Orderly (EventQueue.init n : EventQueue φ) := by
  refine ⟨[], .outside, .nobody fun t ht => ?_, rfl, rfl, nofun, nofun, nofun, fun _ => rfl, ?_⟩
  · rw [(List.mem_replicate.mp ht).2]
  · intro _ x hx
    cases hx

theorem ended_of_inside (hout : pc ≠ .outside) (hleave : pc ≠ .leaving) :
    pc = .outside ∨ pc = .leaving → Ended history := by
  rintro (h | h)
  · exact absurd h hout
  · exact absurd h hleave

theorem ended_concat (history : List (Event φ × Bool)) (e : Event φ) :
    Ended (history ++ [(e, true)]) := by
  intro x hx
  rw [List.getLast?_concat] at hx
  rw [← Option.some_injective _ hx]

theorem executed_append {notes : List (Note φ)} {n : Note φ} (hnotes : q'.notes = notes ++ [n])
    (hsame : q.notes = notes) : q'.executed = q.executed ++ n.began?.toList := by
  rw [EventQueue.executed, EventQueue.executed, hnotes, hsame, List.filterMap_append]
  cases hn : n.began? <;> simp [hn]

theorem Orderly.push (h : Orderly q) (hstep : step q (.push e) = some q') : Orderly q' := by
  obtain ⟨history, pc, hinside, hholds⟩ := h
  cases hstep
  refine ⟨history, pc.woken, hinside.notifyAll, ?_⟩
  have hcases : pc.woken = pc ∧ pc ≠ .parked ∨ pc = .parked ∧ pc.woken = .notified := by
    cases pc <;> first | exact .inr ⟨rfl, rfl⟩ | exact .inl ⟨rfl, nofun⟩
  rcases hcases with ⟨hsame, hnot⟩ | ⟨rfl, hwoken⟩
  · rw [hsame]
    refine ⟨?_, hholds.notes, fun hparked => absurd hparked hnot, fun _ => by simp,
      hholds.defined, hholds.thread, hholds.ended⟩
    change q.executed ++ pc.inHand ++ (q.queue ++ [e]) = q.pushed ++ [e]
    rw [← List.append_assoc, hholds.order]
  · rw [hwoken]
    refine ⟨?_, hholds.notes, nofun, fun _ => by simp, nofun, nofun,
      ended_of_inside nofun nofun⟩
    change q.executed ++ [] ++ (q.queue ++ [e]) = q.pushed ++ [e]
    rw [← List.append_assoc, ← hholds.order]
    rfl

theorem Orderly.enter {logging : Bool} (h : Orderly q) (hall : ∀ t ∈ q.threads, t.pc = .outside)
    (hstep : step q (.enter i logging) = some q') : Orderly q' := by
  obtain ⟨history, pc, hinside, hholds⟩ := h
  obtain ⟨t, hi, hstep⟩ := Option.bind_eq_some_iff.mp hstep
  have hout := hall t (List.mem_of_getElem? hi)
  simp only [hout] at hstep
  cases hstep
  obtain rfl : pc = .outside := by
    cases hinside with
    | nobody => rfl
    | one hj hactive _ => exact absurd (hall _ (List.mem_of_getElem? hj)) hactive
  have halone : Alone q.threads i := fun j u hj _ => hall u (List.mem_of_getElem? hj)
  have hself : (q.threads.set i ⟨.entering, logging⟩)[i]? = some ⟨.entering, logging⟩ :=
    List.getElem?_set_self (List.getElem?_eq_some_iff.mp hi).1
  exact ⟨history, .entering, .one hself nofun (halone.set _), hholds.order, hholds.notes, nofun,
    nofun, nofun, nofun, ended_of_inside nofun nofun⟩

theorem Orderly.pop (hinside : Inside q.threads t.pc) (hholds : Holds history q t.pc)
    (hi : q.threads[i]? = some t) (hactive : t.pc ≠ .outside) (hidle : t.pc.inHand = [])
    (hquiet : t.pc.unfinished = []) (hqueue : q.queue ≠ []) : Orderly (Sched.pop q i t) := by
  unfold Sched.pop
  split
  case h_1 hempty => exact absurd hempty hqueue
  case h_2 e queue hcons =>
    refine ⟨history, .taken e, (hinside.set hi hactive _).2, ?_, ?_, nofun, nofun, nofun, nofun,
      ended_of_inside nofun nofun⟩
    · have horder := hholds.order
      rw [hidle, hcons, List.append_nil] at horder
      rw [← horder, List.append_assoc]
      rfl
    · have hnotes := hholds.notes
      rw [hquiet] at hnotes
      exact hnotes

/-- **A step of the thread inside.** -/
theorem Orderly.run {verbEvent : Bool} (h : Orderly q)
    (hstep : step q (.run i verbEvent) = some q') : Orderly q' := by
  obtain ⟨history, pc, hinside, hholds⟩ := h
  obtain ⟨t, hi, hrun⟩ := Option.bind_eq_some_iff.mp hstep
  have hactive : t.pc ≠ .outside := by
    intro hout
    rw [Sched.run, hout] at hrun
    cases hrun
  obtain ⟨rfl, hset⟩ := hinside.set hi hactive ⟨.looping, t.logging⟩
  have hmove := fun t' => (hinside.set hi hactive t').2
  unfold Sched.run at hrun
  split at hrun
  case h_1 hpc =>
    cases hrun
    rw [hpc] at hholds
    exact ⟨history, .looping, hmove _, hholds.order, hholds.notes, nofun, nofun, nofun, nofun,
      ended_of_inside nofun nofun⟩
  -- the loop waits only when it has found the queue empty with the lock held
  case h_2 hpc =>
    split_ifs at hrun with hempty
    · cases hrun
      rw [hpc] at hholds
      exact ⟨history, .parked, hmove _, hholds.order, hholds.notes,
        fun _ => List.eq_nil_of_length_eq_zero hempty, nofun, nofun, nofun,
        ended_of_inside nofun nofun⟩
    · cases hrun
      exact Orderly.pop hinside hholds hi hactive (by rw [hpc]; rfl) (by rw [hpc]; rfl)
        fun hnil => hempty (by rw [hnil]; rfl)
  -- between the notification and the lock, nobody else takes from the queue
  case h_3 hpc =>
    cases hrun
    exact Orderly.pop hinside hholds hi hactive (by rw [hpc]; rfl) (by rw [hpc]; rfl)
      (hholds.notified hpc)
  case h_4 e hpc =>
    cases hrun
    rw [hpc] at hholds
    have hnotes : q.notes = history.flatMap block := hholds.notes.trans (List.append_nil _)
    refine ⟨history, .executing e, hmove _, ?_, ?_, nofun, nofun, nofun, nofun,
      ended_of_inside nofun nofun⟩
    · rw [executed_append rfl rfl]
      change q.executed ++ [e] ++ [] ++ q.queue = q.pushed
      rw [List.append_nil]
      exact hholds.order
    · change q.notes ++ [.began e] = history.flatMap block ++ [.began e]
      rw [hnotes]
  case h_5 e hpc =>
    cases hrun
    rw [hpc] at hholds
    refine ⟨history ++ [(e, false)], .looping, hmove _, ?_, ?_, nofun, nofun, nofun, nofun,
      ended_of_inside nofun nofun⟩
    · rw [executed_append rfl rfl]
      change q.executed ++ [] ++ [] ++ q.queue = q.pushed
      rw [List.append_nil]
      exact hholds.order
    · change q.notes ++ [.updated] = (history ++ [(e, false)]).flatMap block ++ []
      rw [hholds.notes, List.flatMap_append, List.append_nil, List.append_assoc]
      rfl
  case h_6 hpc =>
    cases hrun
    rw [hpc] at hholds
    exact ⟨history, .outside, hmove _, hholds.order, hholds.notes, nofun, nofun, nofun,
      fun _ => rfl, fun _ => hholds.ended (.inr rfl)⟩
  case h_7 => cases hrun

theorem Orderly.finish {terminates : Bool} (h : Orderly q)
    (hstep : step q (.finish i terminates) = some q') : Orderly q' := by
  obtain ⟨history, pc, hinside, hholds⟩ := h
  obtain ⟨t, hi, hfinish⟩ := Option.bind_eq_some_iff.mp hstep
  unfold Sched.finish at hfinish
  split at hfinish
  case h_2 => cases hfinish
  case h_1 e hpc =>
    cases hfinish
    have hactive : t.pc ≠ .outside := by
      rw [hpc]
      exact nofun
    obtain ⟨rfl, hmove⟩ :=
      hinside.set hi hactive ⟨if terminates then .leaving else .updating e, false⟩
    rw [hpc] at hholds
    have horder : q.executed ++ [] ++ [] ++ q.queue = q.pushed := by
      rw [List.append_nil]
      exact hholds.order
    cases terminates with
    | false =>
        refine ⟨history, .updating e, hmove, ?_, ?_, nofun, nofun, nofun, nofun,
          ended_of_inside nofun nofun⟩
        · rw [executed_append rfl rfl]
          exact horder
        · change q.notes ++ [.returned e] = history.flatMap block ++ [.began e, .returned e]
          rw [hholds.notes, List.append_assoc]
          rfl
    | true =>
        refine ⟨history ++ [(e, true)], .leaving, hmove, ?_, ?_, nofun, nofun, nofun, nofun,
          fun _ => ended_concat history e⟩
        · rw [executed_append rfl rfl]
          exact horder
        · change q.notes ++ [.terminated e] = (history ++ [(e, true)]).flatMap block ++ []
          rw [hholds.notes, List.flatMap_append, List.append_nil, List.append_assoc]
          rfl

theorem Orderly.step {a : Action φ} (h : Orderly q) (ha : OneInside q a)
    (hstep : Sched.step q a = some q') : Orderly q' := by
  cases a with
  | push e => exact h.push hstep
  | enter i logging => exact h.enter ha hstep
  | run i verbEvent => exact h.run hstep
  | finish i terminates => exact h.finish hstep
  | spurious i | terminate i => exact absurd ha id

/-! ### Every run -/

/-- **The loop is orderly.** In every state reached: the events executed, the one in hand and those
queued are the events pushed, in order; the notes of the loop are those of the events that are over,
each updated once if it returned and not if it terminated, and of the one that is not; no thread
waits while an event is queued; and when nobody is inside, `_thread` is reset and the last event
executed is the one that terminated the loop. -/
theorem enter_orderly {n : ℕ}
    (hreach : Reaches step OneInside (EventQueue.init n : EventQueue φ) q) :
    ∃ history : List (Event φ × Bool),
      q.executed ++ q.inHand ++ q.queue = q.pushed
        ∧ q.notes = history.flatMap block ++ q.unfinished
        ∧ (q.queue ≠ [] → ∀ t ∈ q.threads, t.pc ≠ .parked)
        ∧ (∀ t ∈ q.threads, t.pc ≠ .undefined)
        ∧ ((∀ t ∈ q.threads, t.pc = .outside) → q.thread = none
            ∧ q.executed ++ q.queue = q.pushed ∧ q.executed = history.map Prod.fst
            ∧ Ended history) := by
  obtain ⟨history, pc, hinside, hholds⟩ : Orderly q :=
    hreach.invariant (orderly_init n) fun _ _ _ h ha hstep => h.step ha hstep
  have hhand : q.inHand = pc.inHand := hinside.flatMap rfl
  have hopen : q.unfinished = pc.unfinished := hinside.flatMap rfl
  have hwhere : ∀ t ∈ q.threads, t.pc = .outside ∨ t.pc = pc := by
    intro t ht
    cases hinside with
    | nobody hall => exact .inl (hall t ht)
    | @one i u hi _ halone =>
        obtain ⟨j, hj⟩ := List.getElem?_of_mem ht
        by_cases hji : j = i
        · rw [hji, hi] at hj
          exact .inr (congrArg Thread.pc (Option.some_injective _ hj)).symm
        · exact .inl (halone j t hj hji)
  refine ⟨history, hhand ▸ hholds.order, hopen ▸ hholds.notes, fun hqueue t ht hparked => ?_,
    fun t ht hundefined => ?_, fun hall => ?_⟩
  · rcases hwhere t ht with hout | hpc
    · rw [hparked] at hout
      cases hout
    · exact hqueue (hholds.parked (hpc ▸ hparked))
  · rcases hwhere t ht with hout | hpc
    · rw [hundefined] at hout
      cases hout
    · exact hholds.defined (hpc ▸ hundefined)
  · obtain rfl : pc = .outside := by
      cases hinside with
      | nobody => rfl
      | one hi hactive _ => exact absurd (hall _ (List.mem_of_getElem? hi)) hactive
    refine ⟨hholds.thread rfl, ?_, ?_, hholds.ended (.inl rfl)⟩
    · have horder : q.executed ++ [] ++ q.queue = q.pushed := hholds.order
      rwa [List.append_nil] at horder
    · have hnotes : q.notes = history.flatMap block := hholds.notes.trans (List.append_nil _)
      rw [EventQueue.executed, hnotes, began_blocks]

/-- An event terminates the loop, and another, pushed before the thread has left, stays queued. -/
theorem enter_orderly_sample :
    ∃ q : EventQueue ℕ, q.queue = [⟨"next", 1⟩] ∧ ∃ history : List (Event ℕ × Bool),
      q.executed ++ q.inHand ++ q.queue = q.pushed
        ∧ q.notes = history.flatMap block ++ q.unfinished
        ∧ (q.queue ≠ [] → ∀ t ∈ q.threads, t.pc ≠ .parked)
        ∧ (∀ t ∈ q.threads, t.pc ≠ .undefined)
        ∧ ((∀ t ∈ q.threads, t.pc = .outside) → q.thread = none
            ∧ q.executed ++ q.queue = q.pushed ∧ q.executed = history.map Prod.fst
            ∧ Ended history) := by
  have hempty : ∀ t ∈ (EventQueue.init 1 : EventQueue ℕ).threads, t.pc = .outside := by
    intro t ht
    rw [List.mem_singleton.mp ht]
  have hinside : Reaches step OneInside (EventQueue.init 1 : EventQueue ℕ) _ :=
    .tail (a := .run 0 true) (.tail (a := .enter 0 false) .refl hempty rfl) trivial rfl
  have htaken : Reaches step OneInside (EventQueue.init 1 : EventQueue ℕ) _ :=
    .tail (a := .run 0 true) (.tail (a := .push ⟨noName, 0⟩) hinside trivial rfl) trivial rfl
  have hended : Reaches step OneInside (EventQueue.init 1 : EventQueue ℕ) _ :=
    .tail (a := .finish 0 true) (.tail (a := .run 0 true) htaken trivial rfl) trivial rfl
  have hleft : Reaches step OneInside (EventQueue.init 1 : EventQueue ℕ) _ :=
    .tail (a := .run 0 true) (.tail (a := .push ⟨"next", 1⟩) hended trivial rfl) trivial rfl
  exact ⟨_, rfl, enter_orderly hleft⟩

end Networking.Sched

import Mathlib.Data.List.Basic

/-!
# Condition variables

The states of the threads of a program form a list. Some of them are parked at a condition variable;
a notification wakes one of these or all. Which one is woken is a choice.
-/

namespace Condition

variable {ρ : Type*} {parked : ρ → Prop} [DecidablePred parked] {wake : ρ → ρ}
  {threads threads' : List ρ} {choice : Option ℕ}

/-- `notify_one`: the thread chosen has to be parked, and none is chosen only when no thread is. -/
def notifyOne (parked : ρ → Prop) [DecidablePred parked] (wake : ρ → ρ) (threads : List ρ) :
    Option ℕ → Option (List ρ)
  | none => if ∃ t ∈ threads, parked t then none else some threads
  | some i => threads[i]?.bind fun t =>
      if parked t then some (threads.set i (wake t)) else none

def notifyAll (parked : ρ → Prop) [DecidablePred parked] (wake : ρ → ρ) (threads : List ρ) :
    List ρ :=
  threads.map fun t => if parked t then wake t else t

theorem notifyOne_cases (h : notifyOne parked wake threads choice = some threads') :
    (threads' = threads ∧ ∀ t ∈ threads, ¬parked t)
      ∨ ∃ i t, threads[i]? = some t ∧ parked t ∧ threads' = threads.set i (wake t) := by
  cases choice with
  | none =>
      rw [notifyOne] at h
      split_ifs at h with hparked
      cases h
      exact .inl ⟨rfl, fun t ht hp => hparked ⟨t, ht, hp⟩⟩
  | some i =>
      obtain ⟨t, ht, h⟩ := Option.bind_eq_some_iff.mp h
      split_ifs at h with hparked
      cases h
      exact .inr ⟨i, t, ht, hparked, rfl⟩

theorem length_notifyOne (h : notifyOne parked wake threads choice = some threads') :
    threads'.length = threads.length := by
  rcases notifyOne_cases h with ⟨rfl, -⟩ | ⟨i, t, -, -, rfl⟩
  · rfl
  · exact List.length_set

/-- After a notification, some thread is not parked, if there is any thread at all. -/
theorem exists_not_parked_of_notifyOne (hwake : ∀ t, ¬parked (wake t)) (hne : threads ≠ [])
    (h : notifyOne parked wake threads choice = some threads') :
    ∃ t ∈ threads', ¬parked t := by
  rcases notifyOne_cases h with ⟨rfl, hnone⟩ | ⟨i, t, ht, -, rfl⟩
  · obtain ⟨t, l, rfl⟩ := List.exists_cons_of_ne_nil hne
    exact ⟨t, .head l, hnone t (.head l)⟩
  · exact ⟨wake t, List.mem_set (List.getElem?_eq_some_iff.mp ht).1 _, hwake t⟩

/-- One thread goes from one state to another. -/
theorem countP_set_add (f : ρ → Bool) {i : ℕ} {t : ρ} (ht : threads[i]? = some t) (t' : ρ) :
    (threads.set i t').countP f + (if f t then 1 else 0)
      = threads.countP f + if f t' then 1 else 0 := by
  obtain ⟨hlt, rfl⟩ := List.getElem?_eq_some_iff.mp ht
  have hle : (if f threads[i] then 1 else 0) ≤ threads.countP f := by
    split_ifs with h
    · exact List.countP_pos_iff.mpr ⟨_, List.getElem_mem hlt, h⟩
    · exact Nat.zero_le _
  rw [List.countP_set hlt]
  omega

end Condition

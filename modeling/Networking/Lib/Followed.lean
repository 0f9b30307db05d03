import Mathlib.Data.List.Chain

/-!
# Elements that need an answer

In a sequence, every element of some kind must be followed at once by an element of another. Such
sequences can be put together from parts, as long as no part ends in an element that still waits for
its answer.
-/

namespace Followed

variable {α : Type*} {opens answers : α → Prop} {l l₁ l₂ : List α} {a b : α}

/-- No element at the end waits for an answer. -/
def Closed (opens : α → Prop) (l : List α) : Prop := ∀ a ∈ l.getLast?, ¬opens a

/-- Every element that opens is followed by one that answers. -/
def Answered (opens answers : α → Prop) (l : List α) : Prop :=
  l.IsChain (fun a b => opens a → answers b) ∧ Closed opens l

theorem closed_nil : Closed opens ([] : List α) := by simp [Closed]

theorem Closed.append (h₁ : Closed opens l₁) (h₂ : Closed opens l₂) : Closed opens (l₁ ++ l₂) := by
  intro a ha
  rw [List.getLast?_append, Option.mem_def, Option.or_eq_some_iff] at ha
  rcases ha with ha | ⟨-, ha⟩
  · exact h₂ a ha
  · exact h₁ a ha

theorem closed_concat (h : ¬opens a) : Closed opens (l ++ [a]) := by
  intro b hb
  rw [List.getLast?_concat, Option.mem_some_iff] at hb
  rwa [← hb]

/-- **Putting parts together.** -/
theorem answered_append_iff (h : Closed opens l₁) :
    Answered opens answers (l₁ ++ l₂)
      ↔ Answered opens answers l₁ ∧ Answered opens answers l₂ := by
  unfold Answered
  rw [List.isChain_append]
  constructor
  · rintro ⟨⟨h₁, h₂, -⟩, hclosed⟩
    refine ⟨⟨h₁, h⟩, h₂, fun a ha => hclosed a ?_⟩
    rw [List.getLast?_append, Option.mem_def] at *
    rw [ha, Option.some_or]
  · rintro ⟨⟨h₁, -⟩, h₂, hclosed⟩
    exact ⟨⟨h₁, h₂, fun a ha b _ hopens => absurd hopens (h a ha)⟩, h.append hclosed⟩

theorem answered_nil : Answered opens answers ([] : List α) := ⟨.nil, closed_nil⟩

theorem answered_of_forall (h : ∀ a ∈ l, ¬opens a) : Answered opens answers l := by
  induction l with
  | nil => exact answered_nil
  | cons a l ih =>
      rw [List.forall_mem_cons] at h
      have hone : Answered opens answers [a] := ⟨.singleton a, closed_concat (l := []) h.1⟩
      exact (answered_append_iff hone.2).mpr ⟨hone, ih h.2⟩

/-- An element with its answer. -/
theorem answered_pair (hanswers : answers b) (h : ¬opens b) : Answered opens answers [a, b] := by
  refine ⟨?_, closed_concat (l := [a]) h⟩
  rw [List.isChain_cons_cons]
  exact ⟨fun _ => hanswers, .singleton b⟩

/-- An element that opens is answered by the next. -/
theorem Answered.next (h : Answered opens answers (l₁ ++ a :: b :: l₂)) (ha : opens a) :
    answers b := by
  have hchain := (List.isChain_append_cons_cons.mp h.1).2.1
  exact hchain ha

end Followed

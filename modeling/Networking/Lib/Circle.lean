import Mathlib.Data.Set.Finite.Basic
import Mathlib.Data.Fintype.Card
import Mathlib.Logic.Relation

/-!
# Walks without end

A walk that can visit only finitely many elements comes to an end exactly when it leads into no
circle. The end is accessibility, so what recurses along the walk can be shown to end by induction.
-/

namespace Circle

open Relation

variable {α : Type*} {r : α → α → Prop} {a b : α}

/-- From `a`, one can walk to an element that lies on a circle. -/
def Leads (r : α → α → Prop) (a : α) : Prop := ∃ b, ReflTransGen r a b ∧ TransGen r b b

theorem not_leads_of_acc (h : Acc (fun b a => r a b) a) : ¬Leads r a := by
  induction h with
  | intro a _ ih =>
      rintro ⟨b, hab, hbb⟩
      rcases hab.cases_head with rfl | ⟨c, hac, hcb⟩
      -- on the circle, the next element is on it too
      · obtain ⟨c, hac, hca⟩ := TransGen.head'_iff.mp hbb
        exact ih c hac ⟨a, hca, hbb⟩
      · exact ih c hac ⟨b, hcb, hbb⟩

/-- **Walks end** exactly when they lead into no circle. -/
theorem acc_iff_not_leads (hfinite : {b | ReflTransGen r a b}.Finite) :
    Acc (fun b a => r a b) a ↔ ¬Leads r a := by
  refine ⟨not_leads_of_acc, fun hnot => ?_⟩
  have : Finite {b | ReflTransGen r a b} := hfinite
  -- on what is reached, coming later is a strict order
  let later : {b | ReflTransGen r a b} → {b | ReflTransGen r a b} → Prop :=
    fun c b => TransGen r b.1 c.1
  have : IsTrans _ later := ⟨fun _ _ _ hdc hcb => hcb.trans hdc⟩
  have : Std.Irrefl later := ⟨fun b hbb => hnot ⟨b.1, b.2, hbb⟩⟩
  have hwf : WellFounded later := Finite.wellFounded_of_trans_of_irrefl later
  suffices h : ∀ b : {b | ReflTransGen r a b}, Acc (fun b a => r a b) b.1 from h ⟨a, .refl⟩
  intro b
  induction b using hwf.induction with
  | _ b ih =>
      apply Acc.intro
      intro c hbc
      exact ih ⟨c, b.2.tail hbc⟩ (.single hbc)

end Circle

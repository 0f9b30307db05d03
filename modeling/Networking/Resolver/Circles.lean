import Networking.Lib.Circle
import Networking.Resolver.Bounds

/-!
# Compression pointers in a circle

`recParse` follows labels and pointers wherever they lead and remembers nothing of where it has
been. A message has finitely many offsets, so the recursion ends exactly when the name does not lead
back to an offset that it has passed.
-/

namespace Networking.Resolver

open Wire Fuel Relation

variable {msg : Bytes} {off off' : ℕ} {first : Bool}

/-- `recParse` on `off` calls itself on `off'`. -/
def Calls (msg : Bytes) (off off' : ℕ) : Prop := Inside msg off ∧ linked msg off = some off'

/-- The name at `off` leads back to an offset on its way. -/
def InCircle (msg : Bytes) (off : ℕ) : Prop := Circle.Leads (Calls msg) off

theorem Calls.le (h : Calls msg off off') : off' ≤ max 63 (msg.length + 1) := by
  obtain ⟨hin, hlink⟩ := h
  unfold Inside at hin
  unfold linked at hlink
  split_ifs at hin hlink with hzero hpointer
  · cases hlink
    exact le_max_of_le_left Nat.and_le_right
  · cases hlink
    exact le_max_of_le_right (by omega)

theorem finite_calls (msg : Bytes) (off : ℕ) : {i | ReflTransGen (Calls msg) off i}.Finite := by
  apply (Set.finite_le_nat (max off (max 63 (msg.length + 1)))).subset
  intro i hi
  rw [Set.mem_ofPred_eq]
  rcases hi.cases_tail with rfl | ⟨j, -, hcall⟩
  · exact le_max_left _ _
  · exact hcall.le.trans (le_max_right _ _)

theorem acc_iff_not_inCircle (msg : Bytes) (off : ℕ) :
    Acc (fun j i => Calls msg i j) off ↔ ¬InCircle msg off :=
  Circle.acc_iff_not_leads (finite_calls msg off)

theorem acc_of_ends (h : Ends .depth fun fuel => recParse msg fuel off first) :
    Acc (fun j i => Calls msg i j) off := by
  obtain ⟨fuel, hfuel⟩ := h
  induction fuel generalizing off first with
  | zero => exact absurd rfl hfuel
  | succ fuel ih =>
      apply Acc.intro
      rintro off' ⟨hin, hlink⟩
      obtain ⟨first', text, hcall⟩ := recParse_of_linked hin hlink first
      apply ih
      intro he
      apply hfuel
      dsimp only at he ⊢
      rw [hcall, he, error_bind]

theorem ends_of_acc (h : Acc (fun j i => Calls msg i j) off) (first : Bool) :
    Ends .depth fun fuel => recParse msg fuel off first := by
  induction h generalizing first with
  | intro off _ ih =>
      by_cases hin : Inside msg off
      · cases hlink : linked msg off with
        | none => exact ends_of_ok fun fuel => recParse_of_linked_none hin hlink fuel first
        | some off' =>
            obtain ⟨first', text, hcall⟩ := recParse_of_linked hin hlink first
            exact ((ends_map_iff _).mpr (ih off' ⟨hin, hlink⟩ first')).succ hcall
      · obtain ⟨e, hne, he⟩ := exists_error_of_not_inside hin first
        exact ends_of_error hne he

theorem ends_iff_acc (msg : Bytes) (off : ℕ) (first : Bool) :
    Ends .depth (fun fuel => recParse msg fuel off first)
      ↔ Acc (fun j i => Calls msg i j) off :=
  ⟨acc_of_ends, fun h => ends_of_acc h first⟩

/-- **The recursion of `recParse`.** On every byte string and from every location, it ends exactly
when no label and no pointer on the way leads back to where the name has been. -/
theorem recParse_ends_iff (records : Bytes) (location : ℕ) (first : Bool) :
    Ends .depth (fun fuel => recParse records fuel location first)
      ↔ ¬InCircle records location := by
  rw [ends_iff_acc, acc_iff_not_inCircle]

/-- The pointer to offset 0 at offset 0. -/
theorem not_recParse_ends :
    ¬∀ (records : Bytes) (location : ℕ), location ≤ records.length →
      Ends .depth fun fuel => recParse records fuel location true := by
  intro h
  have hcall : Calls [192, 0] 0 0 := by
    constructor
    · change 0 + 1 ≤ 2
      omega
    · decide
  exact Circle.not_leads_of_acc (acc_of_ends (h [192, 0] 0 (Nat.zero_le 2)))
    ⟨0, .refl, .single hcall⟩

end Networking.Resolver

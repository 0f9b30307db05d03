import Mathlib.Data.List.Perm.Basic

/-!
# Drawing without replacement

From a list, one item after another is drawn and taken out. The `i`-th draw takes the item at the
position `pick i`, modulo the number of items left.
-/

namespace Drawing

variable {α β : Type*}

/-- The items left after `k` draws. -/
def left (pick : ℕ → ℕ) (l : List α) : ℕ → List α
  | 0 => l
  | k + 1 => (left pick l k).eraseIdx (pick k % (left pick l k).length)

def drawn (pick : ℕ → ℕ) (l : List α) (k : ℕ) : Option α :=
  (left pick l k)[pick k % (left pick l k).length]?

variable {pick : ℕ → ℕ} {l : List α} {k : ℕ}

theorem length_left (pick : ℕ → ℕ) (l : List α) (k : ℕ) :
    (left pick l k).length = l.length - k := by
  induction k with
  | zero => rfl
  | succ k ih =>
      rw [left, List.length_eraseIdx]
      split_ifs with hlt
      · omega
      · have hzero : (left pick l k).length = 0 := by
          by_contra hne
          exact hlt (Nat.mod_lt _ (Nat.pos_of_ne_zero hne))
        omega

theorem pick_lt (hk : k < l.length) : pick k % (left pick l k).length < (left pick l k).length :=
  Nat.mod_lt _ (by rw [length_left]; omega)

theorem left_map (f : α → β) (pick : ℕ → ℕ) (l : List α) (k : ℕ) :
    left pick (l.map f) k = (left pick l k).map f := by
  induction k with
  | zero => rfl
  | succ k ih => rw [left, left, ih, List.length_map, List.eraseIdx_map]

theorem drawn_map (f : α → β) (pick : ℕ → ℕ) (l : List α) (k : ℕ) :
    drawn pick (l.map f) k = (drawn pick l k).map f := by
  rw [drawn, drawn, left_map, List.length_map, List.getElem?_map]

theorem exists_drawn (pick : ℕ → ℕ) (hk : k < l.length) : ∃ a, drawn pick l k = some a :=
  ⟨_, List.getElem?_eq_getElem (pick_lt hk)⟩

theorem left_perm {a : α} (ha : drawn pick l k = some a) :
    (left pick l k).Perm (a :: left pick l (k + 1)) := by
  obtain ⟨hlt, rfl⟩ := List.getElem?_eq_some_iff.mp ha
  exact (List.getElem_cons_eraseIdx_perm hlt).symm

theorem left_sublist (pick : ℕ → ℕ) (l : List α) (k : ℕ) : (left pick l k).Sublist l := by
  induction k with
  | zero => exact .refl l
  | succ k ih => exact (List.eraseIdx_sublist _ _).trans ih

theorem mem_of_mem_left {a : α} (ha : a ∈ left pick l k) : a ∈ l := by
  induction k with
  | zero => exact ha
  | succ k ih => exact ih (List.mem_of_mem_eraseIdx ha)

/-- The items of the first `k` draws, in order. -/
def draws (pick : ℕ → ℕ) (l : List α) (k : ℕ) : List α := (List.range k).filterMap (drawn pick l)

theorem draws_succ {a : α} (ha : drawn pick l k = some a) :
    draws pick l (k + 1) = draws pick l k ++ [a] := by
  rw [draws, List.range_succ, List.filterMap_append, List.filterMap_cons, ha]
  rfl

theorem draws_perm_left (pick : ℕ → ℕ) (hk : k ≤ l.length) :
    (draws pick l k ++ left pick l k).Perm l := by
  induction k with
  | zero => exact List.Perm.refl l
  | succ k ih =>
      obtain ⟨a, ha⟩ := exists_drawn pick (Nat.lt_of_succ_le hk)
      rw [draws_succ ha, List.append_assoc, List.singleton_append]
      exact ((left_perm ha).symm.append_left _).trans (ih (by omega))

theorem getElem?_draws {i : ℕ} (hi : i < k) (hk : k ≤ l.length) :
    (draws pick l k)[i]? = drawn pick l i := by
  induction k with
  | zero => omega
  | succ k ih =>
      obtain ⟨a, ha⟩ := exists_drawn pick (Nat.lt_of_succ_le hk)
      have hlen : (draws pick l k).length = k := by
        have hperm := (draws_perm_left pick (Nat.le_of_succ_le hk)).length_eq
        rw [List.length_append, length_left] at hperm
        omega
      rw [draws_succ ha]
      rcases Nat.lt_succ_iff_lt_or_eq.mp hi with hlt | rfl
      · rw [List.getElem?_append_left (by omega), ih hlt (by omega)]
      · rw [List.getElem?_append_right (Nat.le_of_eq hlen), hlen, Nat.sub_self, ha]
        rfl

/-- **Every item is drawn once.** -/
theorem draws_perm (pick : ℕ → ℕ) (l : List α) : (draws pick l l.length).Perm l := by
  have hempty : left pick l l.length = [] :=
    List.eq_nil_of_length_eq_zero (by rw [length_left, Nat.sub_self])
  have hperm := draws_perm_left pick (Nat.le_refl l.length)
  rwa [hempty, List.append_nil] at hperm

theorem exists_drawn_range {a : α} (ha : drawn pick l k = some a) :
    ∃ j, drawn pick (List.range l.length) k = some j ∧ l[j]? = some a := by
  have hfst : l = l.zipIdx.map Prod.fst := (List.zipIdx_map_fst 0 l).symm
  have hsnd : List.range l.length = l.zipIdx.map Prod.snd := by
    rw [List.zipIdx_map_snd, List.range_eq_range']
  rw [hfst, drawn_map] at ha
  obtain ⟨⟨b, j⟩, hdrawn, rfl⟩ := Option.map_eq_some_iff.mp ha
  have hmem : (b, j) ∈ left pick l.zipIdx k := List.mem_of_getElem? hdrawn
  refine ⟨j, ?_, ?_⟩
  · rw [hsnd, drawn_map, hdrawn, Option.map_some]
  · exact List.mem_zipIdx_iff_getElem?.mp (mem_of_mem_left hmem)

end Drawing

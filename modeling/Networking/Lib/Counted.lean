import Mathlib.Data.List.Basic
import Mathlib.Data.Option.Basic
import Mathlib.Order.Nat
import Mathlib.Tactic.SplitIfs

/-!
# Counted references

Objects share resources. Each resource has a counter in memory, and each object that refers to the
resource holds the address of its counter. An object that gives up its reference decrements the
counter, and whoever finds it at zero deletes it and releases the resource.

The objects form a list of slots: a slot that refers to nothing is `none`, any other holds the
address of a counter and the resource. A resource may consist of several things, which are told
apart by their keys.
-/

namespace Counted

variable {ρ κ : Type*} {slots : List (Option (ℕ × ρ))} {counters : List (Option ℕ)}
  {key : ρ → Option κ} {c i : ℕ} {r : ρ} {k : κ} {x : ℕ × ρ} {s s' : Option (ℕ × ρ)}

/-! ### Counters in memory -/

/-- One more reference. There is no result when the counter has been deleted. -/
def retain (counters : List (Option ℕ)) (c : ℕ) : Option (List (Option ℕ)) :=
  counters[c]?.join.map fun n => counters.set c (some (n + 1))

/-- One reference less. The counter is deleted at zero, and the flag says so. -/
def release (counters : List (Option ℕ)) (c : ℕ) : Option (List (Option ℕ) × Bool) :=
  counters[c]?.join.map fun n =>
    if n - 1 = 0 then (counters.set c none, true) else (counters.set c (some (n - 1)), false)

def holders (slots : List (Option (ℕ × ρ))) (c : ℕ) : ℕ :=
  slots.countP fun s => s.map Prod.fst = some c

/-- Every counter in memory is the number of the slots that hold it, and it is there as long as some
slot does. Slots with the same counter hold the same resource. -/
structure Owned (counters : List (Option ℕ)) (slots : List (Option (ℕ × ρ))) : Prop where
  exact : ∀ c, counters[c]?.join =
    if holders slots c = 0 then none else some (holders slots c)
  same : ∀ {c r r'}, some (c, r) ∈ slots → some (c, r') ∈ slots → r = r'

def InUse (key : ρ → Option κ) (slots : List (Option (ℕ × ρ))) (k : κ) : Prop :=
  ∃ c r, some (c, r) ∈ slots ∧ key r = some k

/-- What a key names belongs to one counter. -/
def Exclusive (key : ρ → Option κ) (slots : List (Option (ℕ × ρ))) : Prop :=
  ∀ ⦃c r c' r' k⦄, some (c, r) ∈ slots → some (c', r') ∈ slots → key r = some k → key r' = some k →
    c = c'

/-! ### Changing a slot -/

theorem holders_pos (hmem : some (c, r) ∈ slots) : 0 < holders slots c :=
  List.countP_pos_iff.mpr ⟨_, hmem, by simp⟩

theorem exists_of_holders_pos (h : 0 < holders slots c) : ∃ r, some (c, r) ∈ slots := by
  obtain ⟨s, hs, hc⟩ := List.countP_pos_iff.mp h
  obtain ⟨⟨c', r⟩, rfl, rfl⟩ := Option.map_eq_some_iff.mp (of_decide_eq_true hc)
  exact ⟨r, hs⟩

theorem holders_set (hi : slots[i]? = some s) (s' : Option (ℕ × ρ)) (c : ℕ) :
    holders (slots.set i s') c + (if s.map Prod.fst = some c then 1 else 0)
      = holders slots c + if s'.map Prod.fst = some c then 1 else 0 := by
  obtain ⟨hlt, rfl⟩ := List.getElem?_eq_some_iff.mp hi
  have hle : (if slots[i].map Prod.fst = some c then 1 else 0) ≤ holders slots c := by
    split_ifs with hc
    · exact List.countP_pos_iff.mpr ⟨_, List.getElem_mem hlt, decide_eq_true hc⟩
    · exact Nat.zero_le _
  rw [holders, holders, List.countP_set hlt]
  simp only [decide_eq_true_eq]
  rw [holders] at hle
  omega

theorem mem_of_mem_set_none (hx : some x ∈ slots.set i none) : some x ∈ slots :=
  (List.mem_or_eq_of_mem_set hx).resolve_right nofun

theorem mem_set_some_iff (hi : slots[i]? = some none) {y : ℕ × ρ} :
    some x ∈ slots.set i (some y) ↔ some x ∈ slots ∨ x = y := by
  obtain ⟨hlt, hget⟩ := List.getElem?_eq_some_iff.mp hi
  refine ⟨fun hx => (List.mem_or_eq_of_mem_set hx).imp_right Option.some.inj, ?_⟩
  rintro (hx | rfl)
  · obtain ⟨j, hj⟩ := List.getElem?_of_mem hx
    have hne : i ≠ j := by
      rintro rfl
      cases hi.symm.trans hj
    exact List.mem_of_getElem? ((List.getElem?_set_ne hne).trans hj)
  · exact List.mem_set hlt _

theorem Owned.counter (h : Owned counters slots) (hmem : some (c, r) ∈ slots) :
    counters[c]?.join = some (holders slots c) := by
  rw [h.exact c, if_neg (holders_pos hmem).ne']

theorem Owned.lt_length (h : Owned counters slots) (hmem : some (c, r) ∈ slots) :
    c < counters.length := by
  by_contra hge
  have hcounter := h.counter hmem
  rw [List.getElem?_eq_none (by omega)] at hcounter
  cases hcounter

/-! ### Giving a reference up -/

theorem Owned.release (h : Owned counters slots) (hi : slots[i]? = some (some (c, r))) :
    ∃ counters', Counted.release counters c
        = some (counters', decide (holders (slots.set i none) c = 0))
      ∧ Owned counters' (slots.set i none) := by
  have hmem := List.mem_of_getElem? hi
  have hpos := holders_pos hmem
  have hlt := h.lt_length hmem
  have hcount := holders_set hi none
  have hself := hcount c
  simp only [Option.map_some, Option.map_none, if_true, reduceCtorEq, if_false] at hself
  have hother : ∀ c' ≠ c, holders (slots.set i none) c' = holders slots c' := by
    intro c' hne
    have := hcount c'
    simpa [hne.symm] using this
  have hsame : ∀ {c r r'}, some (c, r) ∈ slots.set i none → some (c, r') ∈ slots.set i none →
      r = r' :=
    fun hr hr' => h.same (mem_of_mem_set_none hr) (mem_of_mem_set_none hr')
  rw [Counted.release, h.counter hmem, Option.map_some]
  by_cases hlast : holders slots c - 1 = 0
  · rw [if_pos hlast, decide_eq_true (by omega)]
    refine ⟨_, rfl, fun c' => ?_, hsame⟩
    by_cases hc : c' = c
    · rw [hc, List.getElem?_set_self hlt, if_pos (by omega)]
      rfl
    · rw [List.getElem?_set_ne (Ne.symm hc), hother c' hc, h.exact]
  · rw [if_neg hlast, decide_eq_false (by omega)]
    refine ⟨_, rfl, fun c' => ?_, hsame⟩
    by_cases hc : c' = c
    · rw [hc, List.getElem?_set_self hlt, if_neg (by omega), Option.join_some]
      congr 1
      omega
    · rw [List.getElem?_set_ne (Ne.symm hc), hother c' hc, h.exact]

theorem Exclusive.release (h : Exclusive key slots) : Exclusive key (slots.set i none) :=
  fun _ _ _ _ _ hr hr' => h (mem_of_mem_set_none hr) (mem_of_mem_set_none hr')

/-- What is no longer in use is what the last holder of a counter gave up. -/
theorem inUse_release (h : Owned counters slots) (hexclusive : Exclusive key slots)
    (hi : slots[i]? = some (some (c, r))) :
    InUse key (slots.set i none) k
      ↔ InUse key slots k ∧ ¬(key r = some k ∧ holders (slots.set i none) c = 0) := by
  have hmem : some (c, r) ∈ slots := List.mem_of_getElem? hi
  constructor
  · rintro ⟨c', r', hr', hk⟩
    have hold := mem_of_mem_set_none hr'
    refine ⟨⟨c', r', hold, hk⟩, ?_⟩
    rintro ⟨hkey, hlast⟩
    obtain rfl := hexclusive hold hmem hk hkey
    exact (holders_pos hr').ne' hlast
  · rintro ⟨⟨c', r', hr', hk⟩, hnot⟩
    obtain ⟨j, hj⟩ := List.getElem?_of_mem hr'
    by_cases hji : i = j
    · subst hji
      obtain ⟨rfl, rfl⟩ : c = c' ∧ r = r' := by
        simpa using hi.symm.trans hj
      obtain ⟨r'', hr''⟩ := exists_of_holders_pos (Nat.pos_of_ne_zero fun hlast => hnot ⟨hk, hlast⟩)
      obtain rfl := h.same hr' (mem_of_mem_set_none hr'')
      exact ⟨c, r, hr'', hk⟩
    · exact ⟨c', r', List.mem_of_getElem? ((List.getElem?_set_ne hji).trans hj), hk⟩

/-! ### Sharing a reference -/

theorem Owned.share (h : Owned counters slots) (hi : slots[i]? = some none)
    (hmem : some (c, r) ∈ slots) :
    ∃ counters', retain counters c = some counters'
      ∧ Owned counters' (slots.set i (some (c, r))) := by
  have hpos := holders_pos hmem
  have hcount := holders_set hi (some (c, r))
  simp only [Option.map_some, Option.map_none, reduceCtorEq, if_false, Nat.add_zero] at hcount
  have hlt := h.lt_length hmem
  rw [retain, h.counter hmem, Option.map_some]
  refine ⟨_, rfl, fun c' => ?_, fun {c' r₁ r₂} h₁ h₂ => ?_⟩
  · rw [hcount c']
    by_cases hc : c' = c
    · rw [hc, List.getElem?_set_self hlt, if_pos rfl, if_neg (by omega), Option.join_some]
    · rw [List.getElem?_set_ne (Ne.symm hc), if_neg fun heq => hc (Option.some.inj heq).symm,
        Nat.add_zero, h.exact]
  · have hold : ∀ r', some (c', r') ∈ slots.set i (some (c, r)) → some (c', r') ∈ slots := by
      intro r' hr'
      rcases (mem_set_some_iff hi).mp hr' with hr' | heq
      · exact hr'
      · rwa [heq]
    exact h.same (hold _ h₁) (hold _ h₂)

theorem mem_share_iff (hi : slots[i]? = some none) {y : ℕ × ρ} (hy : some y ∈ slots) :
    some x ∈ slots.set i (some y) ↔ some x ∈ slots := by
  rw [mem_set_some_iff hi, or_iff_left_of_imp]
  rintro rfl
  exact hy

theorem Exclusive.share (h : Exclusive key slots) (hi : slots[i]? = some none) {y : ℕ × ρ}
    (hy : some y ∈ slots) : Exclusive key (slots.set i (some y)) :=
  fun _ _ _ _ _ hr hr' => h ((mem_share_iff hi hy).mp hr) ((mem_share_iff hi hy).mp hr')

theorem inUse_share (hi : slots[i]? = some none) {y : ℕ × ρ} (hy : some y ∈ slots) :
    InUse key (slots.set i (some y)) k ↔ InUse key slots k := by
  simp only [InUse, mem_share_iff hi hy]

/-! ### A new resource -/

theorem Owned.not_mem_length (h : Owned counters slots) : some (counters.length, r) ∉ slots :=
  fun hmem => (h.lt_length hmem).false

theorem Owned.create (h : Owned counters slots) (hi : slots[i]? = some none) (r : ρ) :
    Owned (counters ++ [some 1]) (slots.set i (some (counters.length, r))) := by
  have hcount := holders_set hi (some (counters.length, r))
  simp only [Option.map_some, Option.map_none, reduceCtorEq, if_false, Nat.add_zero] at hcount
  constructor
  · intro c
    rw [hcount c]
    by_cases hc : c = counters.length
    · have hnone : holders slots c = 0 := by
        by_contra hpos
        obtain ⟨r', hr'⟩ := exists_of_holders_pos (Nat.pos_of_ne_zero hpos)
        exact h.not_mem_length (hc ▸ hr')
      rw [hnone, hc, List.getElem?_concat_length, if_pos rfl]
      rfl
    · rw [if_neg fun heq => hc (Option.some.inj heq).symm, Nat.add_zero, ← h.exact]
      by_cases hlt : c < counters.length
      · rw [List.getElem?_append_left hlt]
      · rw [List.getElem?_eq_none (by simp; omega), List.getElem?_eq_none (by omega)]
  · intro c r₁ r₂ h₁ h₂
    rcases (mem_set_some_iff hi).mp h₁ with h₁ | heq₁ <;>
      rcases (mem_set_some_iff hi).mp h₂ with h₂ | heq₂
    · exact h.same h₁ h₂
    · cases heq₂
      exact absurd h₁ h.not_mem_length
    · cases heq₁
      exact absurd h₂ h.not_mem_length
    · cases heq₁
      cases heq₂
      rfl

theorem Exclusive.create (h : Exclusive key slots) (hi : slots[i]? = some none)
    (hfresh : ∀ k, key r = some k → ¬InUse key slots k) :
    Exclusive key (slots.set i (some (c, r))) := by
  intro c₁ r₁ c₂ r₂ k h₁ h₂ hk₁ hk₂
  rcases (mem_set_some_iff hi).mp h₁ with h₁ | heq₁ <;>
    rcases (mem_set_some_iff hi).mp h₂ with h₂ | heq₂
  · exact h h₁ h₂ hk₁ hk₂
  · cases heq₂
    exact absurd ⟨c₁, r₁, h₁, hk₁⟩ (hfresh k hk₂)
  · cases heq₁
    exact absurd ⟨c₂, r₂, h₂, hk₂⟩ (hfresh k hk₁)
  · cases heq₁
    cases heq₂
    rfl

theorem inUse_create (hi : slots[i]? = some none) :
    InUse key (slots.set i (some (c, r))) k ↔ InUse key slots k ∨ key r = some k := by
  constructor
  · rintro ⟨c', r', hr', hk⟩
    rcases (mem_set_some_iff hi).mp hr' with hr' | heq
    · exact .inl ⟨c', r', hr', hk⟩
    · cases heq
      exact .inr hk
  · rintro (⟨c', r', hr', hk⟩ | hk)
    · exact ⟨c', r', (mem_set_some_iff hi).mpr (.inl hr'), hk⟩
    · exact ⟨c, r, (mem_set_some_iff hi).mpr (.inr rfl), hk⟩

theorem Owned.append_deleted (h : Owned counters slots) : Owned (counters ++ [none]) slots := by
  refine ⟨fun c => ?_, h.same⟩
  rw [← h.exact]
  rcases Nat.lt_trichotomy c counters.length with hlt | rfl | hgt
  · rw [List.getElem?_append_left hlt]
  · rw [List.getElem?_concat_length, List.getElem?_eq_none le_rfl]
    rfl
  · rw [List.getElem?_eq_none (by simp; omega), List.getElem?_eq_none (by omega)]

/-! ### An object that refers to nothing -/

theorem mem_append_none_iff : some x ∈ slots ++ [none] ↔ some x ∈ slots := by
  simp

theorem Owned.append_none (h : Owned counters slots) : Owned counters (slots ++ [none]) := by
  have hcount : ∀ c, holders (slots ++ [none]) c = holders slots c := by
    intro c
    simp [holders, List.countP_append]
  refine ⟨fun c => ?_,
    fun hr hr' => h.same (mem_append_none_iff.mp hr) (mem_append_none_iff.mp hr')⟩
  rw [hcount, h.exact]

theorem Exclusive.append_none (h : Exclusive key slots) : Exclusive key (slots ++ [none]) :=
  fun _ _ _ _ _ hr hr' => h (mem_append_none_iff.mp hr) (mem_append_none_iff.mp hr')

theorem inUse_append_none : InUse key (slots ++ [none]) k ↔ InUse key slots k := by
  simp only [InUse, mem_append_none_iff]

/-! ### Objects and their slots -/

section

variable {η : Type*} {hold : η → Option (ℕ × ρ)} {objects : List (Option η)} {s : Option η}

/-- The slots of objects, `none` once they are destroyed, of which `hold` says what they hold. -/
def slotsOf (hold : η → Option (ℕ × ρ)) (objects : List (Option η)) : List (Option (ℕ × ρ)) :=
  objects.map fun s => s.bind hold

theorem slotsOf_set (s : Option η) :
    slotsOf hold (objects.set i s) = (slotsOf hold objects).set i (s.bind hold) :=
  List.map_set

theorem slotsOf_append (s : Option η) :
    slotsOf hold (objects ++ [s]) = slotsOf hold objects ++ [s.bind hold] :=
  List.map_append

theorem getElem?_slotsOf (hi : objects[i]? = some s) :
    (slotsOf hold objects)[i]? = some (s.bind hold) := by
  rw [slotsOf, List.getElem?_map, hi]
  rfl

theorem mem_slotsOf_iff :
    some x ∈ slotsOf hold objects ↔ ∃ o, some o ∈ objects ∧ hold o = some x := by
  constructor
  · intro hx
    obtain ⟨s, hs, hbind⟩ := List.mem_map.mp hx
    obtain ⟨o, rfl, ho⟩ := Option.bind_eq_some_iff.mp hbind
    exact ⟨o, hs, ho⟩
  · rintro ⟨o, hs, ho⟩
    exact List.mem_map.mpr ⟨_, hs, ho⟩

/-- No counter is greater than the number of the objects that are there. -/
theorem Owned.le_live {n : ℕ} (h : Owned counters (slotsOf hold objects))
    (hc : counters[c]?.join = some n) : n ≤ objects.countP Option.isSome := by
  rw [h.exact] at hc
  split_ifs at hc
  obtain rfl : holders (slotsOf hold objects) c = n := Option.some.inj hc
  rw [holders, slotsOf, List.countP_map]
  apply List.countP_mono_left
  intro s _ hs
  cases s with
  | none => simp at hs
  | some o => rfl

theorem mem_slotsOf_set (hx : some x ∈ slotsOf hold (objects.set i s)) :
    some x ∈ slotsOf hold objects ∨ s.bind hold = some x := by
  rw [slotsOf_set] at hx
  exact (List.mem_or_eq_of_mem_set hx).imp_right Eq.symm

end

/-! ### The record of what is opened and closed -/

section

variable [DecidableEq κ] {opened closed opened' closed' : List κ} {P Q : κ → Prop}

/-- How many slots hold what a key names. -/
def users (key : ρ → Option κ) (slots : List (Option (ℕ × ρ))) (k : κ) : ℕ :=
  slots.countP fun s => s.any fun x => key x.2 = some k

theorem users_eq_zero_iff : users key slots k = 0 ↔ ¬InUse key slots k := by
  rw [users, List.countP_eq_zero]
  constructor
  · rintro h ⟨c, r, hmem, hk⟩
    exact h _ hmem (by simp [hk])
  · intro h s hs hany
    obtain ⟨⟨c, r⟩, rfl, hk⟩ := (Option.any_eq_true _ _).mp hany
    exact h ⟨c, r, hs, of_decide_eq_true hk⟩

theorem users_eq_holders (h : Owned counters slots) (hexclusive : Exclusive key slots)
    (hmem : some (c, r) ∈ slots) (hk : key r = some k) :
    users key slots k = holders slots c := by
  rw [users, holders]
  apply List.countP_congr
  intro s hs
  rcases s with - | ⟨c', r'⟩
  · simp
  · simp only [Option.any_some, Option.map_some, decide_eq_true_eq, Option.some.injEq]
    constructor
    · intro hk'
      exact hexclusive hs hmem hk' hk
    · rintro rfl
      rw [h.same hs hmem, hk]

/-- What is in use has been opened once more than closed, and everything else equally often. -/
structure Balanced (opened closed : List κ) (P : κ → Prop) : Prop where
  used : ∀ k, P k → opened.count k = closed.count k + 1
  unused : ∀ k, ¬P k → opened.count k = closed.count k

theorem Balanced.not_used (h : Balanced opened closed P) (hk : opened.count k = closed.count k) :
    ¬P k := by
  intro hused
  have hcount := h.used k hused
  omega

theorem Balanced.count (h : Balanced opened closed P) {n : ℕ} (hn : n = 0 ↔ ¬P k) :
    opened.count k = closed.count k + if n = 0 then 0 else 1 := by
  split_ifs with hzero
  · exact h.unused k (hn.mp hzero)
  · exact h.used k (not_not.mp fun hunused => hzero (hn.mpr hunused))

theorem Balanced.congr (h : Balanced opened closed P) (hQ : ∀ k, Q k ↔ P k) :
    Balanced opened closed Q :=
  ⟨fun k hk => h.used k ((hQ k).mp hk), fun k hk => h.unused k fun hP => hk ((hQ k).mpr hP)⟩

theorem Balanced.close (h : Balanced opened closed P) (hk : P k)
    (hQ : ∀ j, Q j ↔ P j ∧ k ≠ j) : Balanced opened (closed ++ [k]) Q := by
  have hcount : ∀ j, (closed ++ [k]).count j = closed.count j + if k = j then 1 else 0 := by
    intro j
    rw [List.count_append, List.count_singleton]
    simp only [beq_iff_eq]
  constructor
  · intro j hj
    obtain ⟨hP, hne⟩ := (hQ j).mp hj
    rw [hcount, if_neg hne]
    exact h.used j hP
  · intro j hj
    rw [hcount]
    by_cases hkj : k = j
    · rw [if_pos hkj, ← hkj]
      exact h.used k hk
    · rw [if_neg hkj]
      exact h.unused j fun hP => hj ((hQ j).mpr ⟨hP, hkj⟩)

theorem Balanced.open (h : Balanced opened closed P) (hk : opened.count k = closed.count k)
    (hQ : ∀ j, Q j ↔ P j ∨ k = j) : Balanced (opened ++ [k]) closed Q := by
  have hcount : ∀ j, (opened ++ [k]).count j = opened.count j + if k = j then 1 else 0 := by
    intro j
    rw [List.count_append, List.count_singleton]
    simp only [beq_iff_eq]
  constructor
  · intro j hj
    rw [hcount]
    rcases (hQ j).mp hj with hP | rfl
    · rw [if_neg, h.used j hP]
      rintro rfl
      exact h.not_used hk hP
    · rw [if_pos rfl, hk]
  · intro j hj
    rw [hcount, if_neg fun hkj => hj ((hQ j).mpr (.inr hkj))]
    exact h.unused j fun hP => hj ((hQ j).mpr (.inl hP))

theorem Balanced.append (h : Balanced opened closed P) (tried : List κ) :
    Balanced (opened ++ tried) (closed ++ tried) P := by
  constructor
  · intro k hk
    have hcount := h.used k hk
    simp only [List.count_append]
    omega
  · intro k hk
    have hcount := h.unused k hk
    simp only [List.count_append]
    omega

theorem Balanced.closed_count (h : Balanced opened closed P) (h' : Balanced opened' closed' Q)
    (hopened : opened <+: opened') (hclosed : closed <+: closed')
    (honce : opened' = opened ∨ closed' = closed) {n n' : ℕ} (hn : n = 0 ↔ ¬P k)
    (hn' : n' = 0 ↔ ¬Q k) :
    closed'.count k = closed.count k + if n ≠ 0 ∧ n' = 0 then 1 else 0 := by
  have hbefore := h.count hn
  have hafter := h'.count hn'
  have hopened := hopened.sublist.count_le k
  have hclosed := hclosed.sublist.count_le k
  have honce : opened'.count k = opened.count k ∨ closed'.count k = closed.count k :=
    honce.imp (congrArg (List.count k)) (congrArg (List.count k))
  split_ifs at hbefore hafter ⊢ <;> omega

end

end Counted

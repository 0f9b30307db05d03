import Mathlib.Order.Nat
import Mathlib.Data.List.Basic

/-!
# Streams cut into pieces

A stream transport delivers what was sent, in order, but a call to receive stores only as much as
has arrived, and a call to send may take only a part. How far each call gets is a parameter: the
results hold for every way in which the stream is cut.
-/

namespace Segment

/-- How far one call gets. -/
inductive Progress
  | failed
  | upTo (count : ℕ)
  | whole

/-- The number of items moved out of `most`, unless the call fails. -/
def Progress.moved : Progress → ℕ → Option ℕ
  | .failed, _ => none
  | .upTo count, most => some (min (max count 1) most)
  | .whole, most => some most

variable {β : Type*} {p : Progress} {asked : ℕ} {stream got rest items taken : List β}

/-- The items that a call stores which asks for `asked`, and those still to come. At the end of the
stream it stores none. -/
def recv (p : Progress) (asked : ℕ) (stream : List β) : Option (List β × List β) :=
  (p.moved (min asked stream.length)).map fun count => (stream.take count, stream.drop count)

/-- The items that a call takes. -/
def send (p : Progress) (items : List β) : Option (List β) :=
  (p.moved items.length).map fun count => items.take count

theorem Progress.exists_moved (hp : p ≠ .failed) (most : ℕ) :
    ∃ count, p.moved most = some count := by
  cases p with
  | failed => exact absurd rfl hp
  | upTo count => exact ⟨_, rfl⟩
  | whole => exact ⟨_, rfl⟩

theorem Progress.moved_le {most count : ℕ} (h : p.moved most = some count) : count ≤ most := by
  cases p with
  | failed => cases h
  | upTo k =>
      cases h
      exact min_le_right _ _
  | whole =>
      cases h
      exact le_rfl

theorem Progress.moved_pos {most count : ℕ} (h : p.moved most = some count) (hmost : 0 < most) :
    0 < count := by
  cases p with
  | failed => cases h
  | upTo k =>
      cases h
      exact lt_min (lt_of_lt_of_le Nat.zero_lt_one (le_max_right k 1)) hmost
  | whole =>
      cases h
      exact hmost

theorem exists_recv (hp : p ≠ .failed) (asked : ℕ) (stream : List β) :
    ∃ got rest, recv p asked stream = some (got, rest) := by
  obtain ⟨count, hcount⟩ := Progress.exists_moved hp (min asked stream.length)
  exact ⟨_, _, by rw [recv, hcount, Option.map_some]⟩

/-- A call that asks for something moves a prefix of the stream, empty only at its end. -/
theorem recv_spec (h : recv p asked stream = some (got, rest)) :
    got ++ rest = stream ∧ got.length ≤ asked ∧ (0 < asked → stream ≠ [] → 0 < got.length) := by
  obtain ⟨count, hcount, heq⟩ := Option.map_eq_some_iff.mp h
  cases heq
  have hle := Progress.moved_le hcount
  have hlen : (stream.take count).length = count := by
    rw [List.length_take]
    omega
  refine ⟨List.take_append_drop _ _, by omega, fun hasked hstream => ?_⟩
  have := List.length_pos_iff.mpr hstream
  have := Progress.moved_pos hcount (by omega)
  omega

/-- At the end of the stream a call stores nothing, and does not fail for it. -/
theorem recv_closed (hp : p ≠ .failed) (asked : ℕ) :
    recv p asked ([] : List β) = some ([], []) := by
  obtain ⟨items, rest, hrecv⟩ := exists_recv hp asked ([] : List β)
  obtain ⟨rfl, rfl⟩ := List.append_eq_nil_iff.mp (recv_spec hrecv).1
  exact hrecv

theorem length_of_recv_upTo {count : ℕ} (h : recv (.upTo count) asked stream = some (got, rest)) :
    got.length = min (max count 1) (min asked stream.length) := by
  obtain ⟨moved, hmoved, heq⟩ := Option.map_eq_some_iff.mp h
  cases heq
  cases hmoved
  rw [List.length_take]
  omega

theorem recv_whole (hlen : got.length = asked) :
    recv .whole asked (got ++ rest) = some (got, rest) := by
  have hmin : min asked (got ++ rest).length = got.length := by
    rw [List.length_append]
    omega
  rw [recv, Progress.moved, Option.map_some, hmin, List.take_left, List.drop_left]

theorem recv_upTo_of_le {count : ℕ} (hle : asked ≤ count) (hasked : 0 < asked) :
    recv (.upTo count) asked stream = recv .whole asked stream := by
  have hmin : min (max count 1) (min asked stream.length) = min asked stream.length := by
    omega
  rw [recv, recv, Progress.moved, hmin, Progress.moved]

theorem recv_upTo_of_lt {count : ℕ} (hlt : count < asked) (hone : 1 < asked)
    (hlen : asked ≤ stream.length) :
    recv (.upTo count) asked stream
      = some (stream.take (max count 1), stream.drop (max count 1)) := by
  have hmin : min (max count 1) (min asked stream.length) = max count 1 := by
    omega
  rw [recv, Progress.moved, Option.map_some, hmin]

theorem recv_upTo {count : ℕ} (hpos : 0 < count) (hasked : count ≤ asked)
    (hlen : count ≤ stream.length) :
    recv (.upTo count) asked stream = some (stream.take count, stream.drop count) := by
  have hmin : min (max count 1) (min asked stream.length) = count := by
    omega
  rw [recv, Progress.moved, Option.map_some, hmin]

theorem send_whole (items : List β) : send .whole items = some items := by
  rw [send, Progress.moved, Option.map_some, List.take_length]

theorem exists_send (hp : p ≠ .failed) (items : List β) : ∃ taken, send p items = some taken := by
  obtain ⟨count, hcount⟩ := Progress.exists_moved hp items.length
  exact ⟨_, by rw [send, hcount, Option.map_some]⟩

theorem send_spec (h : send p items = some taken) :
    taken <+: items ∧ (items ≠ [] → 0 < taken.length) := by
  obtain ⟨count, hcount, heq⟩ := Option.map_eq_some_iff.mp h
  cases heq
  refine ⟨List.take_prefix _ _, fun hitems => ?_⟩
  have := Progress.moved_pos hcount (List.length_pos_iff.mpr hitems)
  have := Progress.moved_le hcount
  rw [List.length_take]
  omega

end Segment

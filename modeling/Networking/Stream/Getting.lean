import Networking.Stream.Tags

/-!
# How `Get` ends

The tag and the content come from the peer, the class asked for from the caller. The lookup inserts
an empty function for a tag that is not there, a cast to a class that the object does not have gives
a null pointer, and what is read of a stream that has ended is waited for.
-/

namespace Networking.Stream

open Wire

variable {ι : Type} {K : Classes ι} {r : Registry K} {isA : ι → Bool} {call : ℕ} {src : Bytes}

/-- What a call of `Get` comes to. -/
inductive Outcome (K : Classes ι)
  /-- `std::bad_function_call`. -/
  | thrown (r : Registry K)
  | nullPointer (r : Registry K)
  | waiting
  | returned (r : Registry K) (msg : Message K) (src : Bytes)

/-- The call of the function found, the cast of what it builds and `operator>>`. -/
def callEntry (r : Registry K) (isA : ι → Bool) (call : ℕ) (src : Bytes) :
    Option (Factory K) → Outcome K
  | none => .thrown r
  | some fact =>
      let msg := fact.build call
      if isA msg.id then
        match receive msg src with
        | none => .waiting
        | some (msg, src) => .returned r msg src
      else
        .nullPointer r

def getOutcome (r : Registry K) (isA : ι → Bool) (call : ℕ) (src : Bytes) : Outcome K :=
  match readUnsignedShort src with
  | none => .waiting
  | some (type, src) =>
      let (fact, factMap) := index r.factMap type none
      callEntry { r with factMap := factMap } isA call src fact

/-- `Get` fails with an exception and leaves `_fact_map` as it was, or returns an object of the
class. -/
def Outcome.Sound (r : Registry K) (isA : ι → Bool) : Outcome K → Prop
  | .thrown r' => r'.factMap = r.factMap
  | .returned _ msg _ => isA msg.id = true
  | .nullPointer _ | .waiting => False

/-- The object that `get` gives is the one returned, and there is none if `Get` does not return. -/
theorem get_eq_getOutcome (r : Registry K) (isA : ι → Bool) (call : ℕ) (src : Bytes) :
    ((get r isA call src).bind Prod.snd) = match getOutcome r isA call src with
      | .returned _ msg src => some (msg, src)
      | .thrown _ | .nullPointer _ | .waiting => none := by
  rw [get, getOutcome]
  cases readUnsignedShort src with
  | none => rfl
  | some read =>
      obtain ⟨type, payload⟩ := read
      dsimp only [index, Option.bind_eq_bind, Option.bind_some]
      cases (r.factMap type).getD none with
      | none => rfl
      | some fact =>
          dsimp only [Option.bind_some, callEntry]
          split_ifs
          · cases receive (fact.build call) payload <;> rfl
          · rfl

theorem getOutcome_of_some {type : BitVec 16} {payload : Bytes} {entry : Option (Factory K)}
    (hread : readUnsignedShort src = some (type, payload)) (hentry : r.factMap type = some entry) :
    getOutcome r isA call src = callEntry r isA call payload entry := by
  rw [getOutcome, hread]
  simp only [index_of_some hentry]

theorem id_of_receive {msg msg' : Message K} {payload : Bytes}
    (hreceive : receive msg payload = some (msg', src)) : msg'.id = msg.id := by
  obtain ⟨_, -, heq⟩ := Option.map_eq_some_iff.mp hreceive
  cases heq
  rfl

/-- A function that is called builds an object to be read into, or one that the cast rejects. -/
theorem sound_callEntry_iff (r r' : Registry K) (fact : Factory K) (payload : Bytes) :
    (callEntry r' isA call payload (some fact)).Sound r isA
      ↔ isA fact.id = true ∧ (receive (fact.build call) payload).isSome = true := by
  rw [callEntry, fact.builds]
  split_ifs with hisA
  · rw [and_iff_right hisA]
    cases hreceive : receive (fact.build call) payload with
    | none => exact iff_of_false id nofun
    | some built =>
        have hbuilt : isA built.1.id = true := by
          rw [id_of_receive hreceive, fact.builds, hisA]
        exact iff_of_true hbuilt rfl
  · exact iff_of_false id fun h => hisA h.1

/-- The lookup of an unknown tag has put an empty function there by the time the call throws. -/
theorem not_sound_of_unknown {type : BitVec 16} {payload : Bytes}
    (hread : readUnsignedShort src = some (type, payload)) (hentry : r.factMap type = none) :
    ¬(getOutcome r isA call src).Sound r isA := by
  have hthrown : getOutcome r isA call src
      = .thrown { r with factMap := (index r.factMap type none).2 } := by
    rw [getOutcome, hread]
    simp only [index, hentry, Option.getD_none, callEntry]
  rw [hthrown]
  intro heq
  have htype := congrFun heq type
  simp [index, hentry] at htype

/-- **`Get` is sound** exactly if the stream has a whole tag, and the tag either has an empty
function already or belongs to a class that is one of those asked for and finds its content. -/
theorem sound_getOutcome_iff (r : Registry K) (isA : ι → Bool) (call : ℕ) (src : Bytes) :
    (getOutcome r isA call src).Sound r isA ↔ ∃ type payload,
      readUnsignedShort src = some (type, payload) ∧ (r.factMap type = some none
        ∨ ∃ fact, r.factMap type = some (some fact) ∧ isA fact.id = true
          ∧ (receive (fact.build call) payload).isSome = true) := by
  constructor
  · intro h
    cases hread : readUnsignedShort src with
    | none =>
        rw [getOutcome, hread] at h
        exact h.elim
    | some read =>
        obtain ⟨type, payload⟩ := read
        refine ⟨type, payload, rfl, ?_⟩
        cases hentry : r.factMap type with
        | none => exact absurd h (not_sound_of_unknown hread hentry)
        | some entry =>
            cases entry with
            | none => exact .inl rfl
            | some fact =>
                rw [getOutcome_of_some hread hentry, sound_callEntry_iff] at h
                exact .inr ⟨fact, rfl, h⟩
  · rintro ⟨type, payload, hread, hempty | ⟨fact, hentry, hfact⟩⟩
    · -- nothing is inserted, and the call of the empty function throws
      rw [getOutcome_of_some hread hempty]
      simp only [Outcome.Sound, callEntry]
    · rw [getOutcome_of_some hread hentry]
      exact (sound_callEntry_iff r r fact payload).mpr hfact

/-- Class 1 is registered and class 2 is asked for. An unknown tag changes `_fact_map`, and the tag
of class 1 leads to a null pointer. -/
theorem not_sound_getOutcome :
    let r := register (Registry.init : Registry byteMessages) (byteFactory 1) 0
    ¬(getOutcome r (· = 2) 0 [5, 0, 7]).Sound r (· = 2)
      ∧ getOutcome r (· = 2) 0 [0, 0, 7] = .nullPointer r := by
  intro r
  constructor
  · intro h
    have htype : (some none : Option (Option (Factory byteMessages))) = none :=
      congrFun (show Function.update r.factMap 5 (some none) = r.factMap from h) 5
    cases htype
  · have hentry : r.factMap 0 = some (some (byteFactory 1)) := rfl
    exact getOutcome_of_some rfl hentry

end Networking.Stream

import Networking.Stream.Message

/-!
# The tags of messages

The tags are given out by a counter of 16 bits, and a class that is not in `_type_map` gets the tag
0 by being looked up. A tag belongs to the class that was registered last under it. So as long as
the tags do not run out, the tag in `_type_map` of a registered class leads to a function that
builds objects of the class, and so does every tag the class has had before.
-/

namespace Networking.Stream

open Transition Wire

variable {ι : Type} [DecidableEq ι] {K : Classes ι} {r r' : Registry K} {id : ι} {k m : ℕ}

/-- Tags given out within one round of the counter are different. -/
theorem ofNat_ne_ofNat (hkm : k < m) (hmk : m < k + 2 ^ 16) :
    BitVec.ofNat 16 k ≠ BitVec.ofNat 16 m := by
  intro heq
  have htoNat := congrArg BitVec.toNat heq
  rw [BitVec.toNat_ofNat, BitVec.toNat_ofNat] at htoNat
  omega

section

variable {κ ν : Type} [DecidableEq κ] {f : κ → Option ν} {a b : κ} {v : ν}

theorem index_of_some (hv : f a = some v) (default : ν) : index f a default = (v, f) := by
  rw [index, hv, Option.getD_some, ← hv, Function.update_eq_self]

theorem index_snd_of_some (hv : f a = some v) (b : κ) (default : ν) :
    (index f b default).2 a = some v := by
  by_cases hab : a = b
  · rw [← hab, index_of_some hv]
    exact hv
  · exact (Function.update_of_ne hab _ _).trans hv

omit [DecidableEq κ] in
theorem getElem?_concat_cases {l : List κ} {n : ℕ} (h : (l ++ [b])[n]? = some a) :
    l[n]? = some a ∨ n = l.length ∧ b = a := by
  rw [List.getElem?_append] at h
  split_ifs at h with hlt
  · exact .inl h
  · obtain ⟨hn, heq⟩ := List.getElem?_eq_some_iff.mp h
    rw [List.length_singleton] at hn
    exact .inr ⟨by omega, (List.getElem_singleton hn).symm.trans heq⟩

end

/-- The tags, however many classes are registered. -/
structure Registry.Tagged (r : Registry K) : Prop where
  typeGen : r.typeGen = BitVec.ofNat 16 r.registered.length
  facts : ∀ k id, r.registered[k]? = some id → r.registered.length ≤ k + 2 ^ 16 →
    ∃ fact, r.factMap (BitVec.ofNat 16 k) = some (some fact) ∧ fact.id = id
  nobody : r.registered = [] → ∀ type fact, r.factMap type ≠ some (some fact)
  /-- A class has the tag of its last registration. -/
  types : ∀ id ∈ r.registered, ∃ k, r.registered[k]? = some id
    ∧ (∀ m, k < m → r.registered[m]? ≠ some id) ∧ r.typeMap id = some (BitVec.ofNat 16 k)
  others : ∀ id, id ∉ r.registered → ∀ type, r.typeMap id = some type → type = 0

omit [DecidableEq ι] in
theorem tagged_init : (Registry.init : Registry K).Tagged where
  typeGen := rfl
  facts k id hk := by cases hk
  nobody _ type fact h := by cases h
  types id hid := by cases hid
  others id _ type h := by cases h

theorem Registry.Tagged.register (hr : r.Tagged) (fact : Factory K) (call : ℕ) :
    (Stream.register r fact call).Tagged where
  typeGen := by
    simp only [Stream.register, List.length_append, List.length_singleton]
    rw [hr.typeGen, BitVec.ofNat_add]
    rfl
  facts k id hk hlast := by
    simp only [Stream.register, hr.typeGen, List.length_append, List.length_singleton] at hk hlast ⊢
    rcases getElem?_concat_cases hk with hold | ⟨rfl, rfl⟩
    · have hlt := (List.getElem?_eq_some_iff.mp hold).1
      rw [Function.update_of_ne (ofNat_ne_ofNat hlt (by omega))]
      exact hr.facts k id hold (by omega)
    · exact ⟨fact, Function.update_self .., (fact.builds call).symm⟩
  nobody h := by
    simp [Stream.register] at h
  types id hid := by
    simp only [Stream.register, hr.typeGen] at hid ⊢
    by_cases hself : id = (fact.build call).id
    · refine ⟨r.registered.length, ?_, fun m hm => ?_, ?_⟩
      · rw [List.getElem?_concat_length, hself]
      · rw [List.getElem?_eq_none (by rw [List.length_append, List.length_singleton]; omega)]
        exact (Option.some_ne_none id).symm
      · rw [hself, Function.update_self]
    · have hold : id ∈ r.registered :=
        (List.mem_append.mp hid).resolve_right fun h => hself (List.mem_singleton.mp h)
      obtain ⟨k, hk, hlast, htype⟩ := hr.types id hold
      refine ⟨k, List.getElem?_append_left (List.getElem?_eq_some_iff.mp hk).1 ▸ hk,
        fun m hm hget => ?_, ?_⟩
      · rcases getElem?_concat_cases hget with hbefore | ⟨-, heq⟩
        · exact hlast m hm hbefore
        · exact hself heq.symm
      · rw [Function.update_of_ne hself, htype]
  others id hid type htype := by
    simp only [Stream.register, List.mem_append, List.mem_singleton, not_or] at hid htype
    rw [Function.update_of_ne hid.2] at htype
    exact hr.others id hid.1 type htype

/-- Sending inserts the tag 0 for a class that has none. -/
theorem Registry.Tagged.send (hr : r.Tagged) (msg : Message K) : (Stream.send r msg).2.Tagged where
  typeGen := hr.typeGen
  facts := hr.facts
  nobody := hr.nobody
  types id hid := by
    obtain ⟨k, hk, hlast, htype⟩ := hr.types id hid
    exact ⟨k, hk, hlast, index_snd_of_some htype msg.id 0⟩
  others id hid type htype := by
    by_cases heq : id = msg.id
    · rw [heq] at hid htype
      simp only [Stream.send, index, Function.update_self] at htype
      cases hold : r.typeMap msg.id with
      | none =>
          rw [hold] at htype
          exact (Option.some.inj htype).symm
      | some type' =>
          rw [hold, Option.getD_some, Option.some_inj] at htype
          rw [← htype]
          exact hr.others _ hid _ hold
    · simp only [Stream.send, index, Function.update_of_ne heq] at htype
      exact hr.others id hid type htype

omit [DecidableEq ι] in
theorem Registry.Tagged.get (hr : r.Tagged) {isA : ι → Bool} {call : ℕ} {src : Bytes}
    {msg : Option (Message K × Bytes)} (hget : Stream.get r isA call src = some (r', msg)) :
    r'.Tagged := by
  obtain ⟨⟨type, src'⟩, -, hresult⟩ := Option.bind_eq_some_iff.mp hget
  cases hresult
  refine ⟨hr.typeGen, fun k id hk hlast => ?_, fun hnone type' fact hfact => ?_, hr.types,
    hr.others⟩
  · obtain ⟨fact, hfact, hid⟩ := hr.facts k id hk hlast
    exact ⟨fact, index_snd_of_some hfact type none, hid⟩
  · by_cases heq : type' = type
    · rw [heq] at hfact
      simp only [Function.update_self] at hfact
      cases hold : r.factMap type with
      | none =>
          rw [hold] at hfact
          cases hfact
      | some entry =>
          rw [hold] at hfact
          obtain rfl : entry = some fact := Option.some.inj hfact
          exact hr.nobody hnone type fact hold
    · simp only [Function.update_of_ne heq] at hfact
      exact hr.nobody hnone type' fact hfact

theorem Registry.Tagged.operate (hr : r.Tagged) {op : Operation K}
    (hstep : Stream.operate r op = some r') : r'.Tagged := by
  cases op with
  | register fact call =>
      cases hstep
      exact hr.register fact call
  | send msg =>
      cases hstep
      exact hr.send msg
  | get isA call src =>
      obtain ⟨⟨r₁, msg⟩, hget, rfl⟩ := Option.map_eq_some_iff.mp hstep
      exact hr.get hget

theorem registered_operate {op : Operation K} (hstep : Stream.operate r op = some r') :
    r.registered <+: r'.registered ∧ (op.Allowed r → r.registered.length ≤ 2 ^ 16 →
      r'.registered.length ≤ 2 ^ 16) := by
  cases op with
  | register fact call =>
      cases hstep
      refine ⟨List.prefix_append _ _, fun hop _ => ?_⟩
      rw [Stream.register, List.length_append]
      exact hop
  | send msg =>
      cases hstep
      exact ⟨List.prefix_rfl, fun _ hsize => hsize⟩
  | get isA call src =>
      obtain ⟨⟨r₁, msg⟩, hget, rfl⟩ := Option.map_eq_some_iff.mp hstep
      obtain ⟨⟨type, src'⟩, -, hresult⟩ := Option.bind_eq_some_iff.mp hget
      cases hresult
      exact ⟨List.prefix_rfl, fun _ hsize => hsize⟩

theorem Registry.Tagged.reaches (hr : r.Tagged) (hsize : r.registered.length ≤ 2 ^ 16)
    (hreach : Reaches Stream.operate (fun r op => op.Allowed r) r r') :
    r'.Tagged ∧ r'.registered.length ≤ 2 ^ 16 ∧ r.registered <+: r'.registered := by
  refine hreach.invariant (P := fun r' => r'.Tagged ∧ r'.registered.length ≤ 2 ^ 16
    ∧ r.registered <+: r'.registered) ⟨hr, hsize, List.prefix_rfl⟩ ?_
  rintro t op u ⟨ht, hsize, hprefix⟩ hop hstep
  obtain ⟨hgrow, hfits⟩ := registered_operate hstep
  exact ⟨ht.operate hstep, hfits hop hsize, hprefix.trans hgrow⟩

end Networking.Stream

import Networking.Stream.Registry

/-!
# Whose tag a message is sent behind

A message is sent behind a tag of its own class only if the class has one that nobody has taken
since. Once the counter has come round, somebody has, and a class that has never been registered is
sent behind the tag 0.
-/

namespace Networking.Stream

open Transition Wire

variable {ι : Type} [DecidableEq ι] {K : Classes ι} {r r' : Registry K} {id : ι} {k m n : ℕ}

/-- The tag on the wire leads to no other class. -/
def OwnTag (r : Registry K) (msg : Message K) : Prop :=
  ∀ type payload fact, readUnsignedShort (send r msg).1 = some (type, payload) →
    (send r msg).2.factMap type = some (some fact) → fact.id = msg.id

/-- The classes whose tags have not been given out again. -/
def Registry.current (r : Registry K) : List ι := r.registered.drop (r.registered.length - 2 ^ 16)

theorem ownTag_iff_index {msg : Message K} : OwnTag r msg ↔
    ∀ fact, r.factMap (index r.typeMap msg.id 0).1 = some (some fact) → fact.id = msg.id := by
  have hread := readUnsignedShort_writeUnsignedShort (index r.typeMap msg.id 0).1
    (K.serialize msg.id msg.state)
  constructor
  · exact fun h fact hfact => h _ _ fact hread hfact
  · intro h type payload fact htype hfact
    obtain ⟨rfl, -⟩ := Prod.mk.inj (Option.some.inj (hread.symm.trans htype))
    exact h fact hfact

omit [DecidableEq ι] in
theorem mem_current_iff : id ∈ r.current
    ↔ ∃ k, r.registered[k]? = some id ∧ r.registered.length ≤ k + 2 ^ 16 := by
  rw [Registry.current, List.mem_iff_getElem?]
  constructor
  · rintro ⟨i, hi⟩
    rw [List.getElem?_drop] at hi
    exact ⟨_, hi, by omega⟩
  · rintro ⟨k, hk, hlast⟩
    refine ⟨k - (r.registered.length - 2 ^ 16), ?_⟩
    rw [List.getElem?_drop]
    rwa [Nat.add_sub_cancel' (by omega)]

omit [DecidableEq ι] in
/-- The tag of an old registration has been given out again. -/
theorem Registry.Tagged.exists_later (hr : r.Tagged) (hk : k + 2 ^ 16 < r.registered.length) :
    ∃ m fact, k < m ∧ r.factMap (BitVec.ofNat 16 k) = some (some fact)
      ∧ r.registered[m]? = some fact.id := by
  -- the last index with the same remainder
  obtain ⟨m, hm, hlast, hkm, hmod⟩ : ∃ m < r.registered.length,
      r.registered.length ≤ m + 2 ^ 16 ∧ k < m ∧ m % 2 ^ 16 = k % 2 ^ 16 :=
    ⟨r.registered.length - 1 - (r.registered.length - 1 - k) % 2 ^ 16, by omega, by omega,
      by omega, by omega⟩
  have hget := List.getElem?_eq_getElem hm
  obtain ⟨fact, hfact, hid⟩ := hr.facts m _ hget hlast
  have htag : BitVec.ofNat 16 k = BitVec.ofNat 16 m :=
    BitVec.eq_of_toNat_eq (by rw [BitVec.toNat_ofNat, BitVec.toNat_ofNat, hmod])
  exact ⟨m, fact, hkm, htag ▸ hfact, by rw [hget, hid]⟩

omit [DecidableEq ι] in
theorem Registry.Tagged.exists_zero (hr : r.Tagged) (hne : r.registered ≠ []) :
    ∃ fact, r.factMap 0 = some (some fact) ∧ fact.id ∈ r.registered := by
  by_cases hlen : 2 ^ 16 < r.registered.length
  · obtain ⟨m, fact, -, hfact, hm⟩ := hr.exists_later (k := 0) (by omega)
    exact ⟨fact, hfact, List.mem_of_getElem? hm⟩
  · obtain ⟨first, others, hcons⟩ := List.exists_cons_of_ne_nil hne
    obtain ⟨fact, hfact, hid⟩ := hr.facts 0 first (by rw [hcons]; rfl) (by omega)
    refine ⟨fact, hfact, ?_⟩
    rw [hid, hcons]
    exact List.mem_cons_self

/-- **Tags of other classes.** After any registrations, sends and receptions, a message is sent
behind a tag that leads to no other class exactly if its class is one of the last 65536 registered,
or nothing is registered. -/
theorem ownTag_iff (hreach : Reaches operate (fun _ _ => True) (Registry.init : Registry K) r)
    (msg : Message K) : OwnTag r msg ↔ r.registered = [] ∨ msg.id ∈ r.current := by
  have hr : r.Tagged := hreach.invariant tagged_init fun _ _ _ ht _ hstep => ht.operate hstep
  rw [ownTag_iff_index]
  by_cases hmem : msg.id ∈ r.registered
  · obtain ⟨k, hk, hlast, htype⟩ := hr.types _ hmem
    have hne : r.registered ≠ [] := List.ne_nil_of_mem hmem
    rw [index_of_some htype, or_iff_right hne, mem_current_iff]
    constructor
    · intro h
      refine ⟨k, hk, ?_⟩
      by_contra hold
      obtain ⟨m, fact, hkm, hfact, hm⟩ := hr.exists_later (Nat.lt_of_not_le hold)
      exact hlast m hkm (h fact hfact ▸ hm)
    · rintro ⟨m, hm, hlen⟩ fact hfact
      -- the last index of the class is not before this one
      have hle : m ≤ k := by
        by_contra hlt
        exact hlast m (Nat.lt_of_not_le hlt) hm
      obtain ⟨fact', hfact', hid⟩ := hr.facts k _ hk (by omega)
      obtain rfl : fact' = fact := Option.some.inj (Option.some.inj (hfact'.symm.trans hfact))
      exact hid
  · have htag : (index r.typeMap msg.id 0).1 = 0 := by
      cases htype : r.typeMap msg.id with
      | none => simp [index, htype]
      | some type => rw [index_of_some htype, hr.others _ hmem type htype]
    have hcurrent : msg.id ∉ r.current := fun h => hmem (List.mem_of_mem_drop h)
    rw [htag, or_iff_left hcurrent]
    constructor
    · intro h
      by_contra hne
      obtain ⟨fact, hfact, hfid⟩ := hr.exists_zero hne
      exact hmem (h fact hfact ▸ hfid)
    · exact fun hnone fact hfact => absurd hfact (hr.nobody hnone 0 fact)

/-- Messages of one byte. -/
def byteMessages : Classes ℕ :=
  ⟨fun _ => Byte, fun _ b => [b], fun _ _ src => src.head?.map (·, src.tail)⟩

def byteFactory (id : ℕ) : Factory byteMessages :=
  ⟨id, fun call => ⟨id, BitVec.ofNat 8 call⟩, fun _ => rfl⟩

theorem ownTag_iff_registered :
    ∃ r : Registry byteMessages, r.registered = [1, 2] ∧ OwnTag r ⟨2, (7 : Byte)⟩ := by
  have hregister : Reaches operate (fun _ _ => True) (Registry.init : Registry byteMessages) _ :=
    .tail (a := .register (byteFactory 2) 1)
      (.tail (a := .register (byteFactory 1) 0) .refl trivial rfl) trivial rfl
  obtain ⟨r, hreach, hclasses⟩ : ∃ r, Reaches operate (fun _ _ => True)
      (Registry.init : Registry byteMessages) r ∧ r.registered = [1, 2] := ⟨_, hregister, rfl⟩
  refine ⟨r, hclasses, (ownTag_iff hreach ⟨2, (7 : Byte)⟩).mpr (.inr ?_)⟩
  rw [Registry.current, hclasses]
  decide

/-- Class 2 is sent before it is registered. -/
theorem not_ownTag_unregistered :
    ∃ r : Registry byteMessages, Reaches operate (fun _ _ => True) .init r
      ∧ r.registered = [1] ∧ ¬OwnTag r ⟨2, (7 : Byte)⟩ := by
  refine ⟨_, .tail (a := .register (byteFactory 1) 0) .refl trivial rfl, rfl, fun h => ?_⟩
  cases h 0 [7] (byteFactory 1) rfl rfl

end Networking.Stream

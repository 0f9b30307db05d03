import Networking.Stream.Getting
import Networking.Stream.Leftovers

/-!
# Two programs that exchange messages

Two programs register their classes and send each other messages over one connection, in any order.
The tags are numbers that each program gives out for itself. So the programs have to register the
same classes in the same order; they need not do it at the same time, and a class may be sent before
the other program knows it. A `Get` that comes too early, or asks for another class, takes the tag
from the stream and leaves the content, and the stream is out of step from there on.
-/

namespace Networking.Stream.Exchange

open Transition Wire

variable {ι : Type} [DecidableEq ι] {K : Classes ι}

/-- The programs are `false` and `true`. For each, the bytes that it has sent and the other one has
not taken yet, and for the record the messages it has sent and those of them that `Get` has
returned. A stream is broken once a `Get` has failed on it. -/
structure Session (K : Classes ι) where
  peers : Bool → Registry K
  wire : Bool → Bytes
  sent : Bool → List (Message K)
  got : Bool → List (Message K)
  broken : Bool → Bool

def Session.start : Session K :=
  ⟨fun _ => .init, fun _ => [], fun _ => [], fun _ => [], fun _ => false⟩

inductive Action (K : Classes ι)
  | register (p : Bool) (fact : Factory K) (call : ℕ)
  | send (p : Bool) (msg : Message K)
  /-- `Get` of the program `p`, from the stream of the other one. -/
  | get (p : Bool) (isA : ι → Bool) (call : ℕ)

/-- The program `p` goes on from a call of `Get`. A call that waits is no step. -/
def Session.after (s : Session K) (p : Bool) : Outcome K → Option (Session K)
  | .waiting => none
  | .thrown r | .nullPointer r =>
      some { s with
        peers := Function.update s.peers p r
        wire := Function.update s.wire (!p) ((s.wire (!p)).drop 2)
        broken := Function.update s.broken (!p) true }
  | .returned r msg src =>
      some { s with
        peers := Function.update s.peers p r
        wire := Function.update s.wire (!p) src
        got := Function.update s.got (!p) (s.got (!p) ++ [msg]) }

def step (s : Session K) : Action K → Option (Session K)
  | .register p fact call =>
      some { s with peers := Function.update s.peers p (register (s.peers p) fact call) }
  | .send p msg =>
      let written := send (s.peers p) msg
      some { s with
        peers := Function.update s.peers p written.2
        wire := Function.update s.wire p (s.wire p ++ written.1)
        sent := Function.update s.sent p (s.sent p ++ [msg]) }
  | .get p isA call => s.after p (getOutcome (s.peers p) isA call (s.wire (!p)))

/-- Into the objects that the function builds, a message of the class is read as it was sent. -/
def Faithful (sendable : Message K → Prop) (fact : Factory K) : Prop :=
  ∀ msg, msg.id = fact.id → sendable msg → ∀ call rest,
    receive (fact.build call) (K.serialize msg.id msg.state ++ rest) = some (msg, rest)

/-- Both programs register the classes in their order, and send what they have registered. -/
def Allowed (classes : List ι) (sendable : Message K → Prop) (s : Session K) : Action K → Prop
  | .register p fact _ =>
      (s.peers p).registered ++ [fact.id] <+: classes ∧ Faithful sendable fact
  | .send p msg => msg.id ∈ (s.peers p).registered ∧ sendable msg
  | .get .. => True

variable {classes : List ι} {sendable : Message K → Prop} {s t : Session K} {r : Registry K}
  {msg : Message K} {k : ℕ} {p : Bool}

/-! ### The registry of a program -/

structure Knows (classes : List ι) (sendable : Message K → Prop) (r : Registry K) : Prop where
  tagged : r.Tagged
  agreed : r.registered <+: classes
  faithful : ∀ type fact, r.factMap type = some (some fact) → Faithful sendable fact
  unknown : ∀ k, r.registered.length ≤ k → k < classes.length →
    ∀ fact, r.factMap (BitVec.ofNat 16 k) ≠ some (some fact)

omit [DecidableEq ι] in
theorem knows_init (classes : List ι) (sendable : Message K → Prop) :
    Knows classes sendable (.init : Registry K) where
  tagged := tagged_init
  agreed := List.nil_prefix
  faithful type fact h := by cases h
  unknown k _ _ fact h := by cases h

theorem Knows.register (h : Knows classes sendable r) (hsize : classes.length ≤ 2 ^ 16)
    {fact : Factory K} {call : ℕ} (hagreed : r.registered ++ [fact.id] <+: classes)
    (hfaithful : Faithful sendable fact) :
    Knows classes sendable (Stream.register r fact call) where
  tagged := h.tagged.register fact call
  agreed := by
    simp only [Stream.register, fact.builds]
    exact hagreed
  faithful type fact' hfact' := by
    simp only [Stream.register] at hfact'
    by_cases htype : type = r.typeGen
    · rw [htype, Function.update_self] at hfact'
      obtain rfl : fact = fact' := Option.some.inj (Option.some.inj hfact')
      exact hfaithful
    · rw [Function.update_of_ne htype] at hfact'
      exact h.faithful type fact' hfact'
  unknown k hk hlt fact' := by
    simp only [Stream.register, List.length_append, List.length_singleton] at hk ⊢
    rw [h.tagged.typeGen, Function.update_of_ne (ofNat_ne_ofNat (by omega) (by omega)).symm]
    exact h.unknown k (by omega) hlt fact'

theorem Knows.send (h : Knows classes sendable r) (msg : Message K) :
    Knows classes sendable (Stream.send r msg).2 :=
  ⟨h.tagged.send msg, h.agreed, h.faithful, h.unknown⟩

/-- The registry once a tag has been looked up. -/
def lookedUp (r : Registry K) (type : BitVec 16) : Registry K :=
  { r with factMap := (index r.factMap type none).2 }

omit [DecidableEq ι] in
theorem index_none_eq_some_iff {ν : Type} {f : BitVec 16 → Option (Option ν)}
    {type type' : BitVec 16} {v : ν} :
    (index f type none).2 type' = some (some v) ↔ f type' = some (some v) := by
  by_cases heq : type' = type
  · rw [heq]
    simp only [index, Function.update_self]
    cases f type with
    | none => simp
    | some entry => rw [Option.getD_some]
  · simp only [index, Function.update_of_ne heq]

omit [DecidableEq ι] in
theorem Knows.lookedUp (h : Knows classes sendable r) (type : BitVec 16) :
    Knows classes sendable (lookedUp r type) where
  tagged := by
    have hget : ∃ msg, Stream.get r (fun _ => true) 0 (writeUnsignedShort type ++ [])
        = some (Exchange.lookedUp r type, msg) := by
      rw [Stream.get, readUnsignedShort_writeUnsignedShort]
      exact ⟨_, rfl⟩
    obtain ⟨msg, hget⟩ := hget
    exact h.tagged.get hget
  agreed := h.agreed
  faithful type fact hfact := h.faithful type fact (index_none_eq_some_iff.mp hfact)
  unknown k hk hlt fact hfact := h.unknown k hk hlt fact (index_none_eq_some_iff.mp hfact)

omit [DecidableEq ι] in
theorem Knows.exists_factory (h : Knows classes sendable r) (hsize : classes.length ≤ 2 ^ 16)
    {id : ι} (hk : classes[k]? = some id) (hregistered : k < r.registered.length) :
    ∃ fact, r.factMap (BitVec.ofNat 16 k) = some (some fact) ∧ fact.id = id := by
  have hlength := h.agreed.length_le
  obtain ⟨rest, hrest⟩ := h.agreed
  refine h.tagged.facts k id ?_ (by omega)
  rw [← hk, ← hrest, List.getElem?_append_left hregistered]

/-! ### What is on its way -/

/-- A message behind the tag `k`. -/
def image (k : ℕ) (msg : Message K) : Bytes :=
  writeUnsignedShort (BitVec.ofNat 16 k) ++ K.serialize msg.id msg.state

theorem exists_image (h : Knows classes sendable r) (hmem : msg.id ∈ r.registered) :
    ∃ k, classes[k]? = some msg.id ∧ (send r msg).1 = image k msg := by
  obtain ⟨k, hk, -, htype⟩ := h.tagged.types _ hmem
  refine ⟨k, ?_, ?_⟩
  · obtain ⟨rest, hrest⟩ := h.agreed
    rw [← hrest, List.getElem?_append_left (List.getElem?_eq_some_iff.mp hk).1, hk]
  · rw [send, index_of_some htype]
    rfl

omit [DecidableEq ι] in
/-- **The next message.** `Get` returns it exactly if its class is registered here by now and is the
class asked for. -/
theorem getOutcome_image (hsize : classes.length ≤ 2 ^ 16) (h : Knows classes sendable r)
    (hk : classes[k]? = some msg.id) (hsendable : sendable msg) (isA : ι → Bool) (call : ℕ)
    (rest : Bytes) :
    getOutcome r isA call (image k msg ++ rest)
      = if k < r.registered.length then
          if isA msg.id then .returned (lookedUp r (BitVec.ofNat 16 k)) msg rest
          else .nullPointer (lookedUp r (BitVec.ofNat 16 k))
        else .thrown (lookedUp r (BitVec.ofNat 16 k)) := by
  have hlt : k < classes.length := (List.getElem?_eq_some_iff.mp hk).1
  have houtcome : getOutcome r isA call (image k msg ++ rest)
      = callEntry (lookedUp r (BitVec.ofNat 16 k)) isA call
        (K.serialize msg.id msg.state ++ rest) (index r.factMap (BitVec.ofNat 16 k) none).1 := by
    rw [getOutcome, image, List.append_assoc, readUnsignedShort_writeUnsignedShort]
    rfl
  rw [houtcome]
  split_ifs with hregistered hisA
  · obtain ⟨fact, hfact, hid⟩ := h.exists_factory hsize hk hregistered
    rw [index_of_some hfact, callEntry, fact.builds, hid, if_pos hisA,
      h.faithful _ fact hfact msg hid.symm hsendable call rest]
  · obtain ⟨fact, hfact, hid⟩ := h.exists_factory hsize hk hregistered
    rw [index_of_some hfact, callEntry, fact.builds, hid]
    exact if_neg hisA
  · have hnone : (index r.factMap (BitVec.ofNat 16 k) none).1 = none := by
      rw [index]
      cases hentry : r.factMap (BitVec.ofNat 16 k) with
      | none => rfl
      | some entry =>
          cases entry with
          | none => rfl
          | some fact => exact absurd hentry (h.unknown k (Nat.le_of_not_lt hregistered) hlt fact)
    rw [hnone, callEntry]

/-- What is on the way from `p` are the messages that `p` has sent and `Get` has not returned. -/
structure InStep (classes : List ι) (sendable : Message K → Prop) (s : Session K) (p : Bool)
    (pending : List (ℕ × Message K)) : Prop where
  wire : s.wire p = pending.flatMap fun e => image e.1 e.2
  sent : s.got p ++ pending.map Prod.snd = s.sent p
  known : ∀ e ∈ pending, classes[e.1]? = some e.2.id ∧ sendable e.2

/-- The invariant of an exchange. -/
structure Orderly (classes : List ι) (sendable : Message K → Prop) (s : Session K) : Prop where
  knows : ∀ p, Knows classes sendable (s.peers p)
  inStep : ∀ p, s.broken p = false → ∃ pending, InStep classes sendable s p pending

omit [DecidableEq ι] in
theorem orderly_start (classes : List ι) (sendable : Message K → Prop) :
    Orderly classes sendable (.start : Session K) where
  knows _ := knows_init classes sendable
  inStep _ _ := ⟨[], rfl, rfl, nofun⟩

omit [DecidableEq ι] in
theorem knows_update (h : ∀ p, Knows classes sendable (s.peers p))
    (hr : Knows classes sendable r) (p q : Bool) :
    Knows classes sendable (Function.update s.peers p r q) := by
  by_cases hqp : q = p
  · rw [hqp, Function.update_self]
    exact hr
  · rw [Function.update_of_ne hqp]
    exact h q

theorem Orderly.send (h : Orderly classes sendable s) (hmem : msg.id ∈ (s.peers p).registered)
    (hsendable : sendable msg) (hstep : step s (.send p msg) = some t) :
    Orderly classes sendable t := by
  cases hstep
  refine ⟨fun q => knows_update h.knows ((h.knows p).send msg) p q, fun q hq => ?_⟩
  obtain ⟨pending, hpending⟩ := h.inStep q hq
  by_cases hqp : q = p
  · subst hqp
    obtain ⟨k, hk, himage⟩ := exists_image (h.knows q) hmem
    refine ⟨pending ++ [(k, msg)], ?_, ?_, ?_⟩
    · simp only [Function.update_self, hpending.wire, himage, List.flatMap_append,
        List.flatMap_singleton]
    · simp only [Function.update_self, ← hpending.sent, List.map_append, List.map_singleton,
        List.append_assoc]
    · intro e he
      rcases List.mem_append.mp he with hold | hnew
      · exact hpending.known e hold
      · rw [List.mem_singleton.mp hnew]
        exact ⟨hk, hsendable⟩
  · refine ⟨pending, ?_, ?_, hpending.known⟩
    · exact (Function.update_of_ne hqp _ _).trans hpending.wire
    · exact hpending.sent.trans (Function.update_of_ne hqp _ _).symm

theorem Orderly.register (h : Orderly classes sendable s) (hsize : classes.length ≤ 2 ^ 16)
    {fact : Factory K} {call : ℕ} (hagreed : (s.peers p).registered ++ [fact.id] <+: classes)
    (hfaithful : Faithful sendable fact) (hstep : step s (.register p fact call) = some t) :
    Orderly classes sendable t := by
  cases hstep
  refine ⟨fun q => knows_update h.knows ((h.knows p).register hsize hagreed hfaithful) p q,
    fun q hq => ?_⟩
  obtain ⟨pending, hwire, hsent, hknown⟩ := h.inStep q hq
  exact ⟨pending, hwire, hsent, hknown⟩

omit [DecidableEq ι] in
/-- How `Get` ends, it leaves the registry with the tag looked up. -/
theorem getOutcome_cases (r : Registry K) (isA : ι → Bool) (call : ℕ) (src : Bytes) :
    getOutcome r isA call src = .waiting ∨ ∃ type,
      getOutcome r isA call src = .thrown (lookedUp r type)
        ∨ getOutcome r isA call src = .nullPointer (lookedUp r type)
        ∨ ∃ msg rest, getOutcome r isA call src = .returned (lookedUp r type) msg rest := by
  cases hread : readUnsignedShort src with
  | none => exact .inl (by rw [getOutcome, hread])
  | some read =>
      obtain ⟨type, payload⟩ := read
      have houtcome : getOutcome r isA call src
          = callEntry (lookedUp r type) isA call payload (index r.factMap type none).1 := by
        rw [getOutcome, hread]
        rfl
      rw [houtcome]
      cases (index r.factMap type none).1 with
      | none => exact .inr ⟨type, .inl rfl⟩
      | some fact =>
          rw [callEntry]
          split_ifs
          · cases receive (fact.build call) payload with
            | none => exact .inl rfl
            | some built => exact .inr ⟨type, .inr (.inr ⟨_, _, rfl⟩)⟩
          · exact .inr ⟨type, .inr (.inl rfl)⟩

omit [DecidableEq ι] in
theorem Orderly.failed (h : Orderly classes sendable s) (type : BitVec 16)
    (hpeers : t.peers = Function.update s.peers p (lookedUp (s.peers p) type))
    (hbroken : t.broken = Function.update s.broken (!p) true)
    (hwire : ∀ q, q ≠ !p → t.wire q = s.wire q) (hsent : t.sent = s.sent) (hgot : t.got = s.got) :
    Orderly classes sendable t := by
  refine ⟨fun q => ?_, fun q hq => ?_⟩
  · rw [hpeers]
    exact knows_update h.knows ((h.knows p).lookedUp type) p q
  · rw [hbroken] at hq
    have hne : q ≠ !p := by
      rintro rfl
      rw [Function.update_self] at hq
      cases hq
    rw [Function.update_of_ne hne] at hq
    obtain ⟨pending, hpending⟩ := h.inStep q hq
    exact ⟨pending, by rw [hwire q hne, hpending.wire], by rw [hgot, hsent, hpending.sent],
      hpending.known⟩

theorem Orderly.get (h : Orderly classes sendable s) (hsize : classes.length ≤ 2 ^ 16)
    {isA : ι → Bool} {call : ℕ} (hstep : step s (.get p isA call) = some t) :
    Orderly classes sendable t := by
  change s.after p (getOutcome (s.peers p) isA call (s.wire (!p))) = some t at hstep
  obtain hwait | ⟨type, hthrown | hnull | ⟨msg, src, hreturned⟩⟩ :=
    getOutcome_cases (s.peers p) isA call (s.wire (!p))
  · rw [hwait] at hstep
    cases hstep
  · rw [hthrown] at hstep
    cases hstep
    exact h.failed type rfl rfl (fun q hq => Function.update_of_ne hq _ _) rfl rfl
  · rw [hnull] at hstep
    cases hstep
    exact h.failed type rfl rfl (fun q hq => Function.update_of_ne hq _ _) rfl rfl
  · rw [hreturned] at hstep
    cases hstep
    refine ⟨fun q => knows_update h.knows ((h.knows p).lookedUp type) p q, fun q hq => ?_⟩
    obtain ⟨pending, hpending⟩ := h.inStep q hq
    by_cases hqp : q = !p
    · subst hqp
      cases pending with
      | nil =>
          rw [hpending.wire] at hreturned
          cases hreturned
      | cons e pending =>
          obtain ⟨k, first⟩ := e
          obtain ⟨hfirst, hlater⟩ := List.forall_mem_cons.mp hpending.known
          rw [hpending.wire, List.flatMap_cons, getOutcome_image hsize (h.knows p) hfirst.1
            hfirst.2] at hreturned
          split_ifs at hreturned
          injection hreturned with _ hmsg hsrc
          subst hmsg hsrc
          refine ⟨pending, ?_, ?_, hlater⟩
          · exact Function.update_self ..
          · simp only [Function.update_self]
            rw [← hpending.sent, List.map_cons, List.append_assoc, List.singleton_append]
    · refine ⟨pending, ?_, ?_, hpending.known⟩
      · exact (Function.update_of_ne hqp _ _).trans hpending.wire
      · simp only [Function.update_of_ne hqp]
        exact hpending.sent

theorem Orderly.step (h : Orderly classes sendable s) (hsize : classes.length ≤ 2 ^ 16)
    {a : Action K} (hallowed : Allowed classes sendable s a) (hstep : step s a = some t) :
    Orderly classes sendable t := by
  cases a with
  | register p fact call => exact h.register hsize hallowed.1 hallowed.2 hstep
  | send p msg => exact h.send hallowed.1 hallowed.2 hstep
  | get p isA call => exact h.get hsize hstep

omit [DecidableEq ι] in
theorem lt_length_iff_mem (hnodup : classes.Nodup) (hagreed : r.registered <+: classes) {id : ι}
    (hk : classes[k]? = some id) : k < r.registered.length ↔ id ∈ r.registered := by
  obtain ⟨rest, hrest⟩ := hagreed
  constructor
  · intro hlt
    rw [← hrest, List.getElem?_append_left hlt] at hk
    exact List.mem_of_getElem? hk
  · intro hmem
    obtain ⟨j, hj⟩ := List.getElem?_of_mem hmem
    have hlt : j < r.registered.length := (List.getElem?_eq_some_iff.mp hj).1
    have hclasses : classes[j]? = some id := by
      rw [← hrest, List.getElem?_append_left hlt, hj]
    obtain rfl : j = k := (List.getElem?_inj (List.getElem?_eq_some_iff.mp hclasses).1 hnodup).mp
      (hclasses.trans hk.symm)
    exact hlt

/-- **Messages arrive in order.** In every exchange of two programs that register the same classes
in the same order, on a stream where no `Get` has failed the messages returned are the messages
sent, up to those on the way. `Get` waits exactly if there are none; and it returns the next one if
its class is registered here by now and is the class asked for, and fails otherwise. -/
theorem got_in_order (hsize : classes.length ≤ 2 ^ 16) (hnodup : classes.Nodup)
    (hreach : Reaches Exchange.step (Allowed classes sendable) .start s)
    (hok : s.broken p = false) :
    ∃ pending, s.got p ++ pending = s.sent p ∧ ∀ isA call,
      (Exchange.step s (.get (!p) isA call) = none ↔ pending = [])
        ∧ ∀ msg later, pending = msg :: later → ∃ t,
          Exchange.step s (.get (!p) isA call) = some t
            ∧ (t.broken p = false ↔ msg.id ∈ (s.peers (!p)).registered ∧ isA msg.id = true)
            ∧ (t.broken p = false → t.got p = s.got p ++ [msg]) := by
  have h : Orderly classes sendable s :=
    hreach.invariant (orderly_start classes sendable) fun _ _ _ ht hallowed hstep =>
      ht.step hsize hallowed hstep
  obtain ⟨pending, hwire, hsent, hknown⟩ := h.inStep p hok
  refine ⟨pending.map Prod.snd, hsent, fun isA call => ?_⟩
  change (s.after (!p) (getOutcome (s.peers (!p)) isA call (s.wire (!!p))) = none ↔ _) ∧ ∀ _ _, _ →
    ∃ t, s.after (!p) (getOutcome (s.peers (!p)) isA call (s.wire (!!p))) = some t ∧ _
  rw [Bool.not_not, hwire]
  cases pending with
  | nil => exact ⟨iff_of_true rfl rfl, nofun⟩
  | cons e pending =>
      obtain ⟨k, msg⟩ := e
      have hfirst := hknown (k, msg) List.mem_cons_self
      have hregistered := lt_length_iff_mem hnodup (h.knows (!p)).agreed hfirst.1
      rw [List.flatMap_cons, getOutcome_image hsize (h.knows (!p)) hfirst.1 hfirst.2]
      refine ⟨iff_of_false ?_ (List.cons_ne_nil _ _), fun msg' later hcons => ?_⟩
      · split_ifs <;> exact nofun
      · obtain ⟨rfl, -⟩ := List.cons.inj hcons
        split_ifs with hlt hisA
        · refine ⟨_, rfl, iff_of_true hok ⟨hregistered.mp hlt, hisA⟩, fun _ => ?_⟩
          simp only [Bool.not_not, Function.update_self]
        · refine ⟨_, rfl, iff_of_false ?_ fun hboth => hisA hboth.2, fun hfalse => ?_⟩
          · simp
          · simp at hfalse
        · refine ⟨_, rfl, iff_of_false ?_ fun hboth => hlt (hregistered.mpr hboth.1),
            fun hfalse => ?_⟩
          · simp
          · simp at hfalse

/-! ### Objects of the class `data` -/

/-- The class of the program, over an order in which it iterates over a map. -/
def dataClasses (enumerate : StringMap → List Entry) (fresh : (t : Ty) → Value t) : Classes Unit :=
  ⟨fun _ => StringMap, fun _ map => serializeData (enumerate map), fun _ => deserializeData fresh⟩

variable {enumerate : StringMap → List Entry} {fresh : (t : Ty) → Value t}

/-- `[](){ return new data(); }`. -/
def dataFactory : Factory (dataClasses enumerate fresh) :=
  ⟨(), fun _ => ⟨(), fun _ => none⟩, fun _ => rfl⟩

/-- The map has fewer than `2 ^ 31` entries, and no zero byte in its strings. -/
structure SendableData (msg : Message (dataClasses enumerate fresh)) : Prop where
  enumerates : Enumerates (enumerate msg.state) msg.state
  length : (enumerate msg.state).length < 2 ^ 31
  entries : ∀ p ∈ enumerate msg.state, Fits entryTy p ∧ NulFree entryTy p

/-- A new object has no entries to be left over. -/
theorem dataFactory_faithful :
    Faithful SendableData (dataFactory : Factory (dataClasses enumerate fresh)) := by
  rintro ⟨⟨⟩, map⟩ - ⟨henumerates, hlength, hentries⟩ call rest
  have hread := deserializeData_serializeData fresh hlength hentries (fun _ => none) rest
  have hall : assignEntries (fun _ => none) (enumerate map) = map :=
    (assignEntries_eq_iff henumerates fun _ => none).mpr fun _ hk =>
      absurd hk Bool.false_ne_true
  dsimp only at hread
  rw [hall] at hread
  change (deserializeData fresh (fun _ => none) (serializeData (enumerate map) ++ rest)).map _ = _
  rw [hread]
  rfl

def sampleEntries : List Entry := [(2, ofString "worked"), (0, ofString "Yay"), (1, ofString "it")]

def sampleMap : StringMap := assignEntries (fun _ => none) sampleEntries

/-- The keys 2, 0 and 1 in this order. -/
def sampleOrder (map : StringMap) : List Entry :=
  [2, 0, 1].filterMap fun k => (map k).map fun x => (k, x)

theorem enumerates_sampleMap : Enumerates sampleEntries sampleMap where
  nodup := by decide
  mem_iff k x := by
    constructor
    · exact fun hmem => assignEntries_of_mem (by decide) hmem _
    · intro hmap
      by_cases hkey : k ∈ sampleEntries.map Prod.fst
      · obtain ⟨⟨_, y⟩, hmem, rfl⟩ := List.mem_map.mp hkey
        have hy := assignEntries_of_mem (by decide) hmem fun _ => none
        rwa [Option.some.inj (hmap.symm.trans hy)]
      · cases (assignEntries_of_not_mem hkey _).symm.trans hmap

def sampleData : Message (dataClasses sampleOrder zeroed) := ⟨(), sampleMap⟩

theorem sampleData_sendable : SendableData sampleData where
  enumerates := enumerates_sampleMap
  length := by
    change sampleEntries.length < _
    decide
  entries := by
    change ∀ p ∈ sampleEntries, _
    have hentry : ∀ (k : BitVec 32) (x : Bytes), x.length < 2 ^ 31 → 0 ∉ x →
        Fits entryTy ((k, x) : Entry) ∧ NulFree entryTy ((k, x) : Entry) :=
      fun k x hlength hfree => ⟨⟨trivial, hlength⟩, trivial, hfree⟩
    simp only [sampleEntries, List.forall_mem_cons]
    exact ⟨hentry 2 _ (by decide) (by decide), hentry 0 _ (by decide) (by decide),
      hentry 1 _ (by decide) (by decide), nofun⟩

/-- The map of the program is sent before the other program has registered the class. -/
theorem got_in_order_data :
    ∃ s t : Session (dataClasses sampleOrder zeroed),
      Reaches Exchange.step (Allowed [()] SendableData) .start s
        ∧ Exchange.step s (.get true (fun _ => true) 0) = some t ∧ t.got false = [sampleData] := by
  have hsend : Reaches Exchange.step (Allowed [()] SendableData)
      (.start : Session (dataClasses sampleOrder zeroed)) _ :=
    .tail (a := .register true dataFactory 0) (.tail (a := .send false sampleData)
      (.tail (a := .register false dataFactory 0) .refl
        ⟨List.prefix_rfl, dataFactory_faithful⟩ rfl)
      ⟨List.mem_cons_self, sampleData_sendable⟩ rfl) ⟨List.prefix_rfl, dataFactory_faithful⟩ rfl
  obtain ⟨s, hreach, hok, hgot, hsent, hregistered⟩ : ∃ s, Reaches Exchange.step
      (Allowed [()] SendableData) (.start : Session (dataClasses sampleOrder zeroed)) s
      ∧ s.broken false = false ∧ s.got false = [] ∧ s.sent false = [sampleData]
      ∧ (s.peers true).registered = [()] := ⟨_, hsend, rfl, rfl, rfl, rfl⟩
  obtain ⟨pending, horder, hget⟩ := got_in_order (by decide) (by decide) hreach hok
  rw [hgot, hsent, List.nil_append] at horder
  obtain ⟨t, hstep, hiff, hnext⟩ := (hget (fun _ => true) 0).2 sampleData [] horder
  refine ⟨s, t, hreach, hstep, ?_⟩
  rw [hnext (hiff.mpr ⟨?_, rfl⟩), hgot, List.nil_append]
  rw [Bool.not_false, hregistered]
  exact List.mem_cons_self

end Networking.Stream.Exchange

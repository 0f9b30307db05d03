import Networking.Lib.Transition
import Networking.Stream.Integers

/-!
# `Message`

A message is sent behind a tag that stands for its class, and `Get` finds by the tag how to build an
object of the class. `Register` gives out the tags. Of the two maps, `_type_map` is also changed by
sending and `_fact_map` by receiving, since `operator[]` inserts what it does not find.

A class is told by its `id`, the address of its table of virtual functions.
-/

namespace Networking.Stream

open Transition Wire

/-- The classes derived from `Message`. -/
structure Classes (ι : Type) where
  State : ι → Type
  serialize : (id : ι) → State id → Bytes
  deserialize : (id : ι) → State id → Bytes → Option (State id × Bytes)

variable {ι : Type} [DecidableEq ι] {K : Classes ι}

structure Message (K : Classes ι) where
  id : ι
  state : K.State id

/-- A function that builds objects of one class. What it builds may differ from call to call. -/
structure Factory (K : Classes ι) where
  id : ι
  build : ℕ → Message K
  builds : ∀ call, (build call).id = id

/-- The static members of `Message`, and the classes registered so far. An empty function in
`factMap` is `some none`. -/
structure Registry (K : Classes ι) where
  typeGen : BitVec 16
  typeMap : ι → Option (BitVec 16)
  factMap : BitVec 16 → Option (Option (Factory K))
  registered : List ι

def Registry.init : Registry K := ⟨0, fun _ => none, fun _ => none, []⟩

/-- `operator[]` of a map, with the map afterwards. -/
def index {κ ν : Type} [DecidableEq κ] (m : κ → Option ν) (k : κ) (default : ν) :
    ν × (κ → Option ν) :=
  let v := (m k).getD default
  (v, Function.update m k (some v))

/-- `Register`. The object it builds to read its `id` is the result of call `call`. -/
def register (r : Registry K) (fact : Factory K) (call : ℕ) : Registry K :=
  let id := (fact.build call).id
  { typeGen := r.typeGen + 1
    typeMap := Function.update r.typeMap id (some r.typeGen)
    factMap := Function.update r.factMap r.typeGen (some (some fact))
    registered := r.registered ++ [id] }

/-- `operator<<` of a message, with the bytes written. -/
def send (r : Registry K) (msg : Message K) : Bytes × Registry K :=
  let (type, typeMap) := index r.typeMap msg.id 0
  (writeUnsignedShort type ++ K.serialize msg.id msg.state, { r with typeMap := typeMap })

/-- `operator>>` into a message. -/
def receive (msg : Message K) (src : Bytes) : Option (Message K × Bytes) :=
  (K.deserialize msg.id msg.state src).map fun (state, src) => (⟨msg.id, state⟩, src)

/-- `Get`, and whether an object of a class is one of the type asked for. There is an object unless
the function is empty, the cast fails or the stream ends. -/
def get (r : Registry K) (isA : ι → Bool) (call : ℕ) (src : Bytes) :
    Option (Registry K × Option (Message K × Bytes)) := do
  let (type, src) ← readUnsignedShort src
  let (fact, factMap) := index r.factMap type none
  let msg := do
    let msg := (← fact).build call
    if isA msg.id then receive msg src else none
  some ({ r with factMap := factMap }, msg)

inductive Operation (K : Classes ι)
  | register (fact : Factory K) (call : ℕ)
  | send (msg : Message K)
  | get (isA : ι → Bool) (call : ℕ) (src : Bytes)

def operate (r : Registry K) : Operation K → Option (Registry K)
  | .register fact call => some (register r fact call)
  | .send msg => some (send r msg).2
  | .get isA call src => (get r isA call src).map Prod.fst

/-- The tags suffice for 65536 calls of `Register`. -/
def Operation.Allowed (r : Registry K) : Operation K → Prop
  | .register .. => r.registered.length < 2 ^ 16
  | _ => True

end Networking.Stream

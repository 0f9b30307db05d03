import Networking.Lib.SortedMap
import Networking.Lib.Wire

/-!
# What a `Stream` transports

The types that the operators of `Stream` take, and their values. A map needs an order on its keys,
so every type comes with the one that `operator<` gives it: integers by value, with their sign;
strings, vectors and maps from their first item on.
-/

namespace Networking.Stream

open Wire

/-- The types of values, on LP64. -/
inductive Ty
  | bool
  | short
  | unsignedShort
  | int
  | unsignedInt
  | long
  | unsignedLong
  | string
  | pair (first second : Ty)
  | vector (item : Ty)
  | map (key value : Ty)
  deriving DecidableEq, Repr

structure Ordered where
  carrier : Type
  order : LinearOrder carrier

instance (o : Ordered) : LinearOrder o.carrier := o.order

/-- Words as signed integers. -/
def Ordered.signed (w : ℕ) : Ordered :=
  ⟨BitVec w, LinearOrder.lift' BitVec.toInt fun _ _ => BitVec.toInt_inj.mp⟩

def Ordered.unsigned (w : ℕ) : Ordered :=
  ⟨BitVec w, LinearOrder.lift' BitVec.toNat fun _ _ => BitVec.eq_of_toNat_eq⟩

def Ordered.list (o : Ordered) : Ordered := ⟨List o.carrier, inferInstance⟩

def Ordered.prod (o o' : Ordered) : Ordered :=
  ⟨o.carrier × o'.carrier,
    LinearOrder.lift' (fun p => toLex p) fun _ _ h => toLex.injective h⟩

def Ordered.map (o o' : Ordered) : Ordered := ⟨SortedMap o.carrier o'.carrier, inferInstance⟩

/-- The values of a type, in their order. -/
def Ty.ordered : Ty → Ordered
  | .bool => ⟨Bool, inferInstance⟩
  | .short => .signed 16
  | .unsignedShort => .unsigned 16
  | .int => .signed 32
  | .unsignedInt => .unsigned 32
  | .long => .signed 64
  | .unsignedLong => .unsigned 64
  | .string => .list (.unsigned 8)
  | .pair a b => .prod a.ordered b.ordered
  | .vector a => .list a.ordered
  | .map a b => .map a.ordered b.ordered

abbrev Value (t : Ty) : Type := t.ordered.carrier

end Networking.Stream

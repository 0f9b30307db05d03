import Networking.Lib.Counted
import Networking.Lib.Transition
import Networking.Lib.Wire

/-!
# `soc::Socket`

A `Socket` counts its copies like a `sync_socket`, but the counter itself says whether it refers to
a descriptor. Moving a `Socket` copies it: the object that was moved from keeps its reference.

A counter is unbounded here: it would take 2 ^ 32 objects at once for it to wrap around.
-/

namespace Networking.Stream

open Counted Transition Wire

inductive SocketType
  | none
  | server
  | client
  deriving DecidableEq

structure Socket where
  host : Bytes
  port : BitVec 16
  type : SocketType
  fd : ℤ
  count : Option ℕ
  deriving DecidableEq

/-- The objects of a program, `none` once destroyed, and the counters. For the record, the
descriptors managed so far and those closed. The flag is set when a null or deleted counter is
used. -/
structure Sockets where
  objects : List (Option Socket)
  counters : List (Option ℕ)
  opened : List ℤ
  closed : List ℤ
  fault : Bool

def Sockets.init : Sockets := ⟨[], [], [], [], false⟩

def Sockets.setObject (w : Sockets) (i : ℕ) (s : Option Socket) : Sockets :=
  { w with objects := w.objects.set i s }

def Sockets.construct (w : Sockets) (s : Socket) : Sockets :=
  { w with objects := w.objects ++ [some s] }

/-- The body of `~Socket`, which is also the middle of `operator=`. -/
def dropCount (w : Sockets) (s : Socket) : Sockets × Socket :=
  match s.count with
  | none => (w, s)
  | some c =>
      match release w.counters c with
      | none => ({ w with fault := true }, s)
      | some (counters, false) => ({ w with counters := counters }, s)
      | some (counters, true) =>
          ({ w with counters := counters, closed := w.closed ++ [s.fd] },
            { s with fd := -1, count := none })

/-- `(*_count)++`. -/
def addCount (w : Sockets) (s : Socket) : Sockets :=
  match s.count.bind (retain w.counters) with
  | none => { w with fault := true }
  | some counters => { w with counters := counters }

/-- A descriptor that is not open: the number may have been in use before. -/
def Sockets.Fresh (w : Sockets) (fd : ℤ) : Prop := 0 ≤ fd ∧ w.opened.count fd = w.closed.count fd

instance (w : Sockets) (fd : ℤ) : Decidable (w.Fresh fd) := inferInstanceAs (Decidable (_ ∧ _))

inductive Action
  | construct
  | manage (fd : ℤ) (type : SocketType)
  | copy (cpy : ℕ)
  | move (that : ℕ)
  | assign (i j : ℕ)
  | destroy (i : ℕ)

/-- `operator=`. The last fields of `soc` are read after the release of the counter. -/
def assign (w : Sockets) (i j : ℕ) (s soc : Socket) : Option Sockets :=
  let (w, s) := dropCount w { s with host := soc.host, port := soc.port, type := soc.type }
  let w := w.setObject i (some s)
  w.objects[j]?.join.map fun soc =>
    let s := { s with count := soc.count, fd := soc.fd }
    (addCount w s).setObject i (some s)

def step (w : Sockets) : Action → Option Sockets
  | .construct => some (w.construct ⟨[], 0, .none, -1, none⟩)
  | .manage fd type =>
      if w.Fresh fd then
        some ({ w with counters := w.counters ++ [some 1], opened := w.opened ++ [fd] }.construct
          ⟨[], 0, type, fd, some w.counters.length⟩)
      else
        none
  | .copy cpy => w.objects[cpy]?.join.map fun s => (addCount w s).construct s
  | .move that => w.objects[that]?.join.map fun s => (addCount w s).construct s
  | .assign i j =>
      w.objects[i]?.join.bind fun s => w.objects[j]?.join.bind fun soc => assign w i j s soc
  | .destroy i => w.objects[i]?.join.map fun s => (dropCount w s).1.setObject i none

end Networking.Stream

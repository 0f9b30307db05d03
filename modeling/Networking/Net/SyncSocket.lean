import Networking.Lib.Counted
import Networking.Lib.Transition
import Networking.Lib.Wire

/-!
# `net::sync_socket`

The handles of a program, with the memory they point to. A handle is a copy of fields: the
descriptor, the addresses of the counter and of the peer's address, and the flags. What the handles
share is the counter `*_refs` and the buffer `*_src`, which are `none` once they are deleted.

A counter is unbounded here: it would take more than 2 ^ 31 handles at once to exceed an `int`.
-/

namespace Networking.Net

open Wire

structure SyncSocket where
  fd : ℤ
  refs : Option ℕ
  conn : Bool
  tcp : Bool
  src : Option ℕ
  len : ℕ
  deriving DecidableEq

/-- The fields of a handle without a socket, apart from `_fd`. -/
def SyncSocket.null (fd : ℤ) : SyncSocket := ⟨fd, none, false, false, none, 0⟩

/-- The handles of a program, `none` once destroyed, and the memory. For the record, the descriptors
taken over so far and those closed. The flag is set when a null or released pointer is used. -/
structure World where
  handles : List (Option SyncSocket)
  counters : List (Option ℕ)
  buffers : List (Option Bytes)
  opened : List ℤ
  closed : List ℤ
  fault : Bool

def World.init : World := ⟨[], [], [], [], [], false⟩

def World.setHandle (w : World) (i : ℕ) (s : Option SyncSocket) : World :=
  { w with handles := w.handles.set i s }

/-- `delete _src`. -/
def deleteBuffer (w : World) : Option ℕ → World
  | none => w
  | some b =>
      match w.buffers[b]?.join with
      | none => { w with fault := true }
      | some _ => { w with buffers := w.buffers.set b none }

/-- `check_close` on a handle `h`, with what is then in its fields. -/
def checkClose (w : World) (h : SyncSocket) : World × SyncSocket :=
  if h.conn then
    match h.refs.bind (Counted.release w.counters) with
    | none => ({ w with fault := true }, h)
    -- a handle that was not the last keeps its fields, and still has `_conn` set
    | some (counters, false) => ({ w with counters := counters }, h)
    | some (counters, true) =>
        let w := deleteBuffer { w with counters := counters } h.src
        ({ w with closed := w.closed ++ [h.fd] }, .null (-1))
  else
    (w, h)

/-- `(*_refs)++` of a handle that has just received its fields. -/
def addRef (w : World) (h : SyncSocket) : World :=
  if h.conn then
    match h.refs.bind (Counted.retain w.counters) with
    | none => { w with fault := true }
    | some counters => { w with counters := counters }
  else
    w

/-- A descriptor that is not open: the number may have been in use before. -/
def World.Fresh (w : World) (fd : ℤ) : Prop := 0 ≤ fd ∧ w.opened.count fd = w.closed.count fd

instance (w : World) (fd : ℤ) : Decidable (w.Fresh fd) := inferInstanceAs (Decidable (_ ∧ _))

def World.construct (w : World) (h : SyncSocket) : World :=
  { w with handles := w.handles ++ [some h] }

def constructTcp (w : World) (fd : ℤ) : World :=
  { w with counters := w.counters ++ [some 1], opened := w.opened ++ [fd] }.construct
    ⟨fd, some w.counters.length, true, true, none, 0⟩

/-- The constructor for UDP, and whether `calloc` finds memory. If not, the counter is deleted again
and the descriptor is not taken over. -/
def constructUdp (w : World) (fd : ℤ) (src : Bytes) (allocated : Bool) : World :=
  if allocated then
    { w with
      counters := w.counters ++ [some 1]
      buffers := w.buffers ++ [some src]
      opened := w.opened ++ [fd] }.construct
      ⟨fd, some w.counters.length, true, false, some w.buffers.length, src.length⟩
  else
    { w with counters := w.counters ++ [none] }.construct (.null (-1))

/-- An entry of the list of `getaddrinfo`, with what `socket` returns for it and whether `connect`
then succeeds. -/
structure Address where
  addr : Bytes
  socket : ℤ
  connects : Bool

/-- The loop of `connect` over the addresses, with `_fd` and the entry at which it stops. -/
def tryAddresses (tcp : Bool) (w : World) (fd : ℤ) :
    List Address → Option (World × ℤ × Option Address)
  | [] => some (w, fd, none)
  | curr :: servers =>
      if curr.socket < 0 then
        tryAddresses tcp w curr.socket servers
      else if ¬w.Fresh curr.socket then
        none
      else
        let w := { w with opened := w.opened ++ [curr.socket] }
        if tcp ∧ ¬curr.connects then
          tryAddresses tcp { w with closed := w.closed ++ [curr.socket] } curr.socket servers
        else
          some (w, curr.socket, some curr)

/-- `connect`, with the fields of the handle afterwards and whether it returned or has thrown. -/
def connect (w : World) (h : SyncSocket) (tcp : Bool) (servers : List Address) :
    Option (World × SyncSocket × Bool) :=
  let (w, h) := checkClose w h
  (tryAddresses tcp w h.fd servers).map fun (w, fd, curr) =>
    match curr with
    | none => (w, { h with fd := fd }, false)
    | some curr =>
        let refs := some w.counters.length
        if tcp then
          -- `_src` and `_len` stay what they were
          ({ w with counters := w.counters ++ [some 1] },
            { h with fd := fd, refs := refs, conn := true, tcp := tcp }, true)
        else
          ({ w with
              counters := w.counters ++ [some 1]
              buffers := w.buffers ++ [some curr.addr] },
            ⟨fd, refs, true, tcp, some w.buffers.length, curr.addr.length⟩, true)

inductive Action
  | construct
  | constructTcp (fd : ℤ)
  | constructUdp (fd : ℤ) (src : Bytes) (allocated : Bool)
  | constructConnect (tcp : Bool) (servers : List Address)
  | copy (cpy : ℕ)
  | assign (i asn : ℕ)
  | destroy (i : ℕ)
  | connect (i : ℕ) (tcp : Bool) (servers : List Address)

/-- `operator=`. The fields are read after `check_close`, from the same handle if it is assigned to
itself. -/
def assign (w : World) (i asn : ℕ) (h : SyncSocket) : Option World :=
  let (w, h) := checkClose w h
  let w := w.setHandle i (some h)
  w.handles[asn]?.join.map fun cpy => (addRef w cpy).setHandle i (some cpy)

def step (w : World) : Action → Option World
  | .construct => some (w.construct (.null 0))
  | .constructTcp fd => if w.Fresh fd then some (constructTcp w fd) else none
  | .constructUdp fd src allocated =>
      if w.Fresh fd then some (constructUdp w fd src allocated) else none
  | .constructConnect tcp servers =>
      -- when `connect` throws, there is no object
      (connect w { SyncSocket.null 0 with tcp := tcp } tcp servers).map fun (w, h, returned) =>
        if returned then w.construct h else w
  | .copy cpy => w.handles[cpy]?.join.map fun h => (addRef w h).construct h
  | .assign i asn => w.handles[i]?.join.bind fun h => assign w i asn h
  | .destroy i => w.handles[i]?.join.map fun h => (checkClose w h).1.setHandle i none
  | .connect i tcp servers =>
      w.handles[i]?.join.bind fun h =>
        (connect w h tcp servers).map fun (w, h, _) => w.setHandle i (some h)

/-! ### What the auxiliary functions leave alone -/

theorem addRef_same (w : World) (h : SyncSocket) :
    (addRef w h).handles = w.handles ∧ (addRef w h).opened = w.opened
      ∧ (addRef w h).buffers = w.buffers := by
  unfold addRef
  split_ifs
  · cases h.refs.bind (Counted.retain w.counters) <;> exact ⟨rfl, rfl, rfl⟩
  · exact ⟨rfl, rfl, rfl⟩

theorem deleteBuffer_same (w : World) (src : Option ℕ) :
    (deleteBuffer w src).handles = w.handles ∧ (deleteBuffer w src).opened = w.opened := by
  cases src with
  | none => exact ⟨rfl, rfl⟩
  | some b =>
      unfold deleteBuffer
      dsimp only
      cases w.buffers[b]?.join <;> exact ⟨rfl, rfl⟩

theorem checkClose_same (w : World) (h : SyncSocket) :
    (checkClose w h).1.handles = w.handles ∧ (checkClose w h).1.opened = w.opened := by
  unfold checkClose
  split_ifs
  · split
    · exact ⟨rfl, rfl⟩
    · exact ⟨rfl, rfl⟩
    · exact deleteBuffer_same _ _
  · exact ⟨rfl, rfl⟩

end Networking.Net

import Networking.Lib.Segment
import Networking.Relay.Records

/-!
# Passing on a request

`awget` draws the first stepping stone from the chain list and sends it the header and the other
elements. A stepping stone that has received a request with elements left draws the next one and
does the same. The two programs are modelled up to the point where they wait for the file.
-/

namespace Networking.Relay

open Wire Segment

/-- Why a program stops before its time. `overrun` is an access outside an array or a write behind
the end of `buffer`, `overread` a string without terminator that is read past its object. -/
inductive Stop
  | failed
  | overrun
  | overread
  | divideByZero
  | outOfFuel
  deriving DecidableEq

def bufSize : ℕ := 8192

/-- The number of elements of `list` in `curr_ss`. -/
def listSize : ℕ := 1024

/-- `m_host` and `m_port`, up to their terminators. -/
structure Station where
  mHost : Bytes
  mPort : Bytes

/-! ### Log texts -/

def cstr (mem : Bytes) : Except Stop Bytes :=
  if 0 ∈ mem then .ok (mem.takeWhile (· ≠ 0)) else .error .overread

/-- `sprintf(buffer + strlen(buffer), ...)`. -/
def sprintf (buffer text : Bytes) : Except Stop Bytes :=
  if buffer.length + text.length < bufSize then .ok (buffer ++ text) else .error .overrun

/-- The array from its element `i` on, as it stands in memory. -/
def elementsFrom (list : List ListElement) (i : ℕ) : Bytes :=
  (list.drop i).flatMap ListElement.image

/-- `"%s<%s, %s>\n"` with the host and the port of element `i`. -/
def hostPort (before : String) (list : List ListElement) (i : ℕ) : Except Stop Bytes := do
  let host ← cstr ((elementsFrom list i).drop 1)
  let port ← cstr ((elementsFrom list i).drop 257)
  .ok (ofString before ++ ofString "<" ++ host ++ ofString ", " ++ port ++ ofString ">\n")

/-- The buffer of `curr_ss` before it receives the list. -/
def heading (station : Station) (fName : Bytes) : Except Stop Bytes := do
  let request ← cstr fName
  sprintf [] (ofString "ss <" ++ station.mHost ++ ofString ", " ++ station.mPort
    ++ ofString ">:\n Request: " ++ request ++ ofString "\n chainlist is\n")

/-! ### Receiving a request -/

/-- The loop of `connection` that receives the header, from the bytes `got` on. -/
def recvHeader (recvs : ℕ → Progress) :
    ℕ → ℕ → Bytes → Bytes → Except Stop (ListHeader × Bytes)
  | 0, _, _, _ => .error .outOfFuel
  | fuel + 1, call, got, stream =>
      if got.length < ListHeader.size then
        match recv (recvs call) (ListHeader.size - got.length) stream with
        | none => .error .failed
        | some (bytes, stream) => recvHeader recvs fuel (call + 1) (got ++ bytes) stream
      else
        .ok (ListHeader.ofImage got, stream)

/-- The loop of `curr_ss` that receives the list, for `left` elements from the index `i` on. -/
def recvList (recvs : ℕ → Progress) :
    ℕ → ℕ → List ListElement → Bytes → Bytes → Except Stop (List ListElement × Bytes × Bytes)
  | 0, _, list, buffer, stream => .ok (list, buffer, stream)
  | left + 1, i, list, buffer, stream =>
      match list[i]? with
      | none => .error .overrun
      | some e =>
          match recv (recvs i) ListElement.size stream with
          | none => .error .failed
          | some (bytes, stream) => do
              -- how many bytes came is not looked at
              let list := list.set i (e.store bytes)
              let text ← hostPort " " list i
              let buffer ← sprintf buffer text
              recvList recvs left (i + 1) list buffer stream

/-- What the handling of one connection depends on: how far its calls get, what the array `list` of
`curr_ss` holds before anything is received, the value of `rand()`, and whether `next_ss` connects.
-/
structure Hop where
  station : Station
  headerRecvs : ℕ → Progress
  elementRecvs : ℕ → Progress
  list : List ListElement
  rand : ℕ
  connects : Bool
  headerSend : Progress
  elementSends : ℕ → Progress
  length_list : list.length = listSize

inductive Incoming
  | last (listH : ListHeader)
  | curr (listH : ListHeader) (list : List ListElement) (buffer : Bytes)

/-- `connection`, and `curr_ss` up to the end of its first loop. -/
def connection (fuel : ℕ) (hop : Hop) (stream : Bytes) : Except Stop Incoming := do
  let (listH, stream) ← recvHeader hop.headerRecvs fuel 0 [] stream
  let listH := { listH with lSize := swap 4 listH.lSize }
  if listH.lSize = 0 then
    .ok (.last listH)
  else do
    let buffer ← heading hop.station listH.fName
    let (list, buffer, _) ← recvList hop.elementRecvs listH.lSize.toNat 0 hop.list buffer stream
    .ok (.curr listH list buffer)

/-! ### Sending a request -/

/-- The loop that sends the elements but the one at `skip`, for `left` of them from the index `i`
on. -/
def sendList (sends : ℕ → Progress) (skip : ℕ) :
    ℕ → ℕ → List ListElement → Bytes → Except Stop Bytes
  | 0, _, _, sent => .ok sent
  | left + 1, i, list, sent =>
      if i ≠ skip then
        match list[i]? with
        | none => .error .overrun
        | some e =>
            match send (sends i) e.image with
            | none => .error .failed
            | some bytes => sendList sends skip left (i + 1) list (sent ++ bytes)
      else
        sendList sends skip left (i + 1) list sent

/-- `send(fd, &list_h, sizeof(list_header), 0)`, which has to take all of it. -/
def sendHeader (p : Progress) (listH : ListHeader) : Except Stop Bytes :=
  match send p listH.image with
  | none => .error .failed
  | some bytes => if bytes.length ≠ ListHeader.size then .error .failed else .ok bytes

/-- `curr_ss` from the end of its first loop to where it waits for the file: the next stepping
stone, and the bytes sent to it. -/
def forward (hop : Hop) (listH : ListHeader) (list : List ListElement) (buffer : Bytes) :
    Except Stop (ListElement × Bytes) := do
  let next := hop.rand % listH.lSize.toNat
  let text ← hostPort " next SS is " list next
  let buffer ← sprintf buffer text
  match list[next]? with
  | none => .error .overrun
  | some stone =>
      if hop.connects then do
        let _ ← sprintf buffer (ofString " waiting for file...\n")
        let listH := { listH with lSize := listH.lSize - 1 }
        let listH := { listH with lSize := swap 4 listH.lSize }
        let sent ← sendHeader hop.headerSend listH
        let listH := { listH with lSize := swap 4 listH.lSize }
        let sent ← sendList hop.elementSends next (listH.lSize + 1).toNat 0 list sent
        .ok (stone, sent)
      else
        .error .failed

/-- `main` of `awget`, once the chain list is read and up to where it waits for the file: the first
stepping stone, and the bytes sent to it. -/
def awget (header : ListHeader) (elements : List ListElement) (rand : ℕ) (headerSend : Progress)
    (elementSends : ℕ → Progress) : Except Stop (ListElement × Bytes) := do
  let hsize := header.lSize
  if hsize = 0 then
    .error .divideByZero
  else
    -- the number of elements is read before it is decremented
    let r := rand % header.lSize.toNat
    let header := { header with lSize := header.lSize - 1 }
    match elements[r]? with
    | none => .error .overrun
    | some stone => do
        let header := { header with lSize := swap 4 header.lSize }
        let sent ← sendHeader headerSend header
        let sent ← sendList elementSends r hsize.toNat 0 elements sent
        .ok (stone, sent)

end Networking.Relay

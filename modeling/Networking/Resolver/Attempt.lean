import Networking.Lib.Transition
import Networking.Resolver.Records

/-!
# `attempt`

`attempt` queries the servers of its list in random order and calls itself on the list of servers a
response refers to. The nested calls are kept as frames, innermost first, so that one step of the
machine is one round of some call's loop: it takes the value of `rand()` and what `parse` makes of
the response. The vector `stack` is shared by all calls.
-/

namespace Networking.Resolver

open Wire

def filenameMax : ℕ := 4096

structure Header where
  version : BitVec 16
  flags : BitVec 16
  queries : BitVec 16
  answers : BitVec 16
  nservers : BitVec 16
  addservers : BitVec 16

structure Question where
  numBytes : ℤ
  qname : Bytes
  qtype : BitVec 16
  qclass : BitVec 16
  qodd : Bytes
  length_qname : qname.length = filenameMax
  length_qodd : qodd.length = 11

/-- A `std::stringstream` as its writer sees it: what it holds, and whether it still takes bytes. -/
structure StringStream where
  bytes : Bytes
  good : Bool

/-- A stream just constructed. -/
def StringStream.empty : StringStream := ⟨[], true⟩

/-- `write(source, count)`. A negative count writes nothing and sets `badbit`, and a stream that is
not good takes nothing more. -/
def StringStream.write (s : StringStream) (source : Bytes) (count : ℤ) : StringStream :=
  if s.good then
    if 0 ≤ count then { s with bytes := s.bytes ++ source.take count.toNat }
    else { s with good := false }
  else s

/-- What one round passes to `sendOut` and to `parse`, and, for the record, how many servers the
same call had queried before. -/
structure Sent where
  server : Server
  datagram : Bytes
  offset : ℕ
  earlier : ℕ

/-- The local variables of a call, with the number of servers it has queried so far for the record.
-/
structure Frame where
  servers : List Server
  dnsPacket : StringStream
  response : ℕ
  srvNum : ℕ
  queried : ℕ

inductive Status
  | running
  | returned
  | answered
  | noRecordAvalible
  | noRecordFound
  | fatal
  | crashed (fault : Fault)
  deriving DecidableEq

structure Config where
  frames : List Frame
  stack : List Server
  sent : List Sent
  status : Status

/-- What a round reads from outside: the value of `rand()`, and the result of `parse` on the
response that a server gives to a datagram. -/
structure Input where
  rand : ℕ
  reply : Server → Bytes → ℕ → Except Fault Parsed

/-- `parse(sendOut(IP, datagram), numbytes)`. -/
def parseReply (fuel : ℕ) (sendOut : Bytes → Bytes → Bytes) (s : Server) (datagram : Bytes)
    (numbytes : ℕ) : Except Fault Parsed :=
  parse fuel (sendOut s.ip datagram) numbytes

/-- What one round writes to `dnsPacket`. Where `numBytes` is larger than the array, the program
reads on behind it; those bytes are not in the model. -/
def writePacket (pktHeader : Header) (pktPayload : Question) (dnsPacket : StringStream) :
    StringStream :=
  let dnsPacket := dnsPacket.write (memory 2 (swap 2 pktHeader.version)) 2
  let dnsPacket := dnsPacket.write (memory 2 (swap 2 pktHeader.flags)) 2
  let dnsPacket := dnsPacket.write (memory 2 (swap 2 pktHeader.queries)) 2
  let dnsPacket := dnsPacket.write (memory 2 (swap 2 pktHeader.answers)) 2
  let dnsPacket := dnsPacket.write (memory 2 (swap 2 pktHeader.nservers)) 2
  let dnsPacket := dnsPacket.write (memory 2 (swap 2 pktHeader.addservers)) 2
  let dnsPacket := dnsPacket.write pktPayload.qname pktPayload.numBytes
  let dnsPacket := dnsPacket.write [0] 1
  let dnsPacket := dnsPacket.write (memory 2 (swap 2 pktPayload.qtype)) 2
  let dnsPacket := dnsPacket.write (memory 2 (swap 2 pktPayload.qclass)) 2
  dnsPacket.write pktPayload.qodd 11

def enter (servers : List Server) : Frame := ⟨servers, .empty, 0, 0, 0⟩

/-- The end of a round whose response names no servers, and of one whose nested call has returned.
-/
def nextRound (f : Frame) : Frame := { f with servers := f.servers.eraseIdx f.srvNum }

/-- How a round of the innermost call `f` goes on once `parse` has come to `result`. -/
def afterParse (c : Config) (f : Frame) (callers : List Frame) :
    Except Fault Parsed → Config
  | .error fault => { c with frames := f :: callers, status := .crashed fault }
  | .ok (.successParse ..) => { c with frames := f :: callers, status := .answered }
  | .ok .noRecord => { c with frames := f :: callers, status := .noRecordFound }
  | .ok .fatal => { c with frames := f :: callers, status := .fatal }
  -- the stack is popped here, or once a nested call has returned, which none does
  | .ok (.servers []) => { c with frames := nextRound f :: callers, stack := c.stack.dropLast }
  | .ok (.servers newServerList) => { c with frames := enter newServerList :: f :: callers }

/-- A round that queries `s`, the server at index `srvNum`. -/
def queryServer (pktHeader : Header) (pktPayload : Question) (c : Config) (f : Frame)
    (callers : List Frame) (srvNum : ℕ) (s : Server)
    (reply : Server → Bytes → ℕ → Except Fault Parsed) : Config :=
  -- the stream belongs to the call: what its earlier rounds wrote is still there
  let dnsPacket := writePacket pktHeader pktPayload f.dnsPacket
  let numbytes := (dnsPacket.bytes.length - 11) % 2 ^ 32
  let f' := { f with dnsPacket := dnsPacket, srvNum := srvNum, queried := f.queried + 1 }
  let c' := { c with
    stack := c.stack ++ [s]
    sent := c.sent ++ [⟨s, dnsPacket.bytes, numbytes, f.queried⟩] }
  afterParse c' f' callers (reply s dnsPacket.bytes numbytes)

def step (pktHeader : Header) (pktPayload : Question) (c : Config) (input : Input) :
    Option Config :=
  match c.status, c.frames with
  | .running, f :: callers =>
      if f.response = 0 ∧ f.servers ≠ [] then
        let srvNum := input.rand % f.servers.length
        match f.servers[srvNum]? with
        | none => none
        | some s =>
            if s ∈ c.stack then
              some { c with frames := { f with servers := f.servers.erase s } :: callers }
            else
              some (queryServer pktHeader pktPayload c f callers srvNum s input.reply)
      else if f.servers = [] then
        -- `exit(1)` ends the program, and not only this call
        some { c with status := .noRecordAvalible }
      else
        match callers with
        | [] => some { c with frames := [], status := .returned }
        | g :: callers =>
            some { c with frames := nextRound g :: callers, stack := c.stack.dropLast }
  | _, _ => none

/-- A call on a list of servers; `main` makes it with an empty stack. -/
def start (servers stack : List Server) : Config := ⟨[enter servers], stack, [], .running⟩

/-! ### What a round can do -/

section Step

variable {pktHeader : Header} {pktPayload : Question} {c c' : Config} {input : Input}

/-- Everything a round can do to a configuration. -/
inductive Round (pktHeader : Header) (pktPayload : Question) (c : Config) (input : Input) :
    Config → Prop
  | skip {f : Frame} {callers : List Frame} {s : Server} (hframes : c.frames = f :: callers)
      (hmem : s ∈ f.servers) (hstack : s ∈ c.stack) :
      Round pktHeader pktPayload c input
        { c with frames := { f with servers := f.servers.erase s } :: callers }
  | query {f : Frame} {callers : List Frame} {srvNum : ℕ} {s : Server}
      (hframes : c.frames = f :: callers) (hpick : f.servers[srvNum]? = some s)
      (hstack : s ∉ c.stack) :
      Round pktHeader pktPayload c input
        (queryServer pktHeader pktPayload c f callers srvNum s input.reply)
  | exhausted {f : Frame} {callers : List Frame} (hframes : c.frames = f :: callers)
      (hservers : f.servers = []) :
      Round pktHeader pktPayload c input { c with status := .noRecordAvalible }
  | leave {f : Frame} (hframes : c.frames = [f]) (hresponse : f.response ≠ 0) :
      Round pktHeader pktPayload c input { c with frames := [], status := .returned }
  | resume {f g : Frame} {callers : List Frame} (hframes : c.frames = f :: g :: callers)
      (hresponse : f.response ≠ 0) :
      Round pktHeader pktPayload c input
        { c with frames := nextRound g :: callers, stack := c.stack.dropLast }

theorem step_round (hstep : step pktHeader pktPayload c input = some c') :
    c.status = .running ∧ Round pktHeader pktPayload c input c' := by
  unfold step at hstep
  split at hstep
  case h_2 => cases hstep
  case h_1 f callers hstatus hframes =>
    refine ⟨hstatus, ?_⟩
    split_ifs at hstep with hloop hempty
    · dsimp only at hstep
      split at hstep
      · cases hstep
      · rename_i s hpick
        split_ifs at hstep with hstack
        · cases hstep
          exact .skip hframes (List.mem_of_getElem? hpick) hstack
        · cases hstep
          exact .query hframes hpick hstack
    · cases hstep
      exact .exhausted hframes hempty
    · have hresponse : f.response ≠ 0 := fun h => hloop ⟨h, hempty⟩
      cases callers with
      | nil =>
          cases hstep
          exact .leave hframes hresponse
      | cons g callers =>
          cases hstep
          exact .resume hframes hresponse

theorem step_of_servers (pktHeader : Header) (pktPayload : Question) (input : Input) {f : Frame}
    {callers : List Frame} (hstatus : c.status = .running)
    (hframes : c.frames = f :: callers) (hresponse : f.response = 0) (hservers : f.servers ≠ []) :
    ∃ s, f.servers[input.rand % f.servers.length]? = some s
      ∧ step pktHeader pktPayload c input = some (if s ∈ c.stack then
          { c with frames := { f with servers := f.servers.erase s } :: callers }
        else queryServer pktHeader pktPayload c f callers (input.rand % f.servers.length) s
          input.reply) := by
  have hlt : input.rand % f.servers.length < f.servers.length :=
    Nat.mod_lt _ (List.length_pos_iff.mpr hservers)
  refine ⟨f.servers[input.rand % f.servers.length], List.getElem?_eq_getElem hlt, ?_⟩
  simp only [step, hstatus, hframes, List.getElem?_eq_getElem hlt]
  rw [if_pos ⟨hresponse, hservers⟩]
  split_ifs <;> rfl

theorem step_of_exhausted {f : Frame} {callers : List Frame} (hstatus : c.status = .running)
    (hframes : c.frames = f :: callers) (hservers : f.servers = []) :
    step pktHeader pktPayload c input = some { c with status := .noRecordAvalible } := by
  simp only [step, hstatus, hframes]
  rw [if_neg fun h => h.2 hservers, if_pos hservers]

theorem frames_afterParse {f : Frame} {callers : List Frame} (result : Except Fault Parsed) :
    (afterParse c f callers result).frames = f :: callers
      ∨ (afterParse c f callers result).frames = nextRound f :: callers
      ∨ ∃ servers, (afterParse c f callers result).frames = enter servers :: f :: callers := by
  unfold afterParse
  split
  case h_5 => exact .inr (.inl rfl)
  case h_6 => exact .inr (.inr ⟨_, rfl⟩)
  all_goals exact .inl rfl

@[simp]
theorem sent_afterParse {f : Frame} {callers : List Frame} (result : Except Fault Parsed) :
    (afterParse c f callers result).sent = c.sent := by
  unfold afterParse
  split <;> rfl

end Step

end Networking.Resolver

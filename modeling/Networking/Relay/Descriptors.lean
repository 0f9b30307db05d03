import Networking.Lib.Ledger
import Networking.Lib.Transition
import Networking.Relay.Request

/-!
# Descriptors

A stepping stone handles each connection in a thread of its own, which calls `connection`, and from
there `last_ss` or `curr_ss` with `next_ss`. The thread as a state machine takes one step for each
system call, with what the call returns. Descriptors are numbered in the order in which the thread
obtains them, the accepted socket first, and `close` gives one back whatever it returns.

Two ways out lose a descriptor. `next_ss` tries the next address without closing the socket that it
could not connect, and `last_ss` returns without closing the file once a call on it or on the socket
has failed. And in `curr_ss` the thread may get to where nothing is defined: behind the end of the
list or of the buffer, or in an address list that `getaddrinfo` has not set.
-/

namespace Networking.Relay.Descriptors

open Transition Ledger Wire

open scoped List

/-! ### The thread -/

/-- The call that the thread makes next. The loops that receive, send or copy have a call for each
round. -/
inductive Pc
  -- `connection`
  | recvHeader (total : ℕ)
  -- `last_ss`
  | openFile
  | fstat
  | mmap
  | sendFileHeader
  | sendFile (cursor : ℕ)
  | closeFile
  | munmap
  | remove
  -- `curr_ss`, with `next_ss`, where `left` addresses follow the current one
  | recvElement (i : ℕ)
  | getaddrinfo
  | socket (left : ℕ)
  | connect (left : ℕ)
  | sendHeader
  | sendElement (i : ℕ)
  | recvFileHeader
  | forwardFileHeader
  | recvBytes (i : BitVec 32)
  | sendBytes (i : BitVec 32) (bytes : ℕ)
  | closeNext
  -- `dump_two`
  | dumpTwo
  | dumpNext
  -- `dump_one`, and the end of `connection`
  | closeSocket
  | ended
  -- an access outside an array, or through a pointer that is not set
  | undefined
  deriving DecidableEq

/-- The result of a call: `-1`, or another one, which for `getaddrinfo` is zero or the number of an
error. -/
inductive Outcome
  | failed
  | returned (n : ℕ)
  deriving DecidableEq

/-- The thread, with the `fd` of the function that it is in, the number of descriptors obtained, and
those closed. -/
structure Handler where
  pc : Pc
  fd : ℕ
  obtained : ℕ
  closed : List ℕ

/-- What the thread finds in the headers it receives, in host order, in the array `list` once the
elements are received, in the address list and in the file system. -/
structure Found where
  station : Station
  fName : Bytes
  list : List ListElement
  lSize : BitVec 32
  rand : ℕ
  addresses : ℕ
  stSize : ℕ
  fSize : BitVec 32

variable {found : Found} {h h' : Handler} {r : Outcome}

/-- The log line for the element `i`, whose strings have to end within it: what stands behind it is
not received yet. -/
def Found.line (found : Found) (before : String) (i : ℕ) : Except Stop Bytes :=
  hostPort before found.list[i]?.toList 0

/-- What is in `buffer` of `curr_ss` once the element `i - 1` is logged. -/
def Found.buffer (found : Found) : ℕ → Except Stop Bytes
  | 0 => heading found.station found.fName
  | i + 1 => do
      let buffer ← found.buffer i
      let text ← found.line " " i
      sprintf buffer text

/-- With the line for the stepping stone that is drawn. -/
def Found.drawn (found : Found) : Except Stop Bytes := do
  let buffer ← found.buffer found.lSize.toNat
  let text ← found.line " next SS is " (found.rand % found.lSize.toNat)
  sprintf buffer text

/-- With the line that follows a connection. -/
def Found.waiting (found : Found) : Except Stop Bytes := do
  let buffer ← found.drawn
  sprintf buffer (ofString " waiting for file...\n")

/-- The text has a terminator and a place in the buffer. -/
def Fits : Except Stop Bytes → Prop
  | .ok _ => True
  | .error _ => False

instance : DecidablePred Fits
  | .ok _ => .isTrue trivial
  | .error _ => .isFalse id

/-- The first call of `curr_ss` from the element `i` of the list on. -/
def Found.elementsFrom (found : Found) (i : ℕ) : Pc :=
  if i < found.lSize.toNat then .recvElement i
  else if Fits found.drawn then .getaddrinfo
  else .undefined

/-- The first call of `connection` once it has `total` bytes of the header. -/
def Found.headerFrom (found : Found) (total : ℕ) : Pc :=
  if total < ListHeader.size then .recvHeader total
  else if found.lSize = 0 then
    if Fits (cstr found.fName) then .openFile else .undefined
  else if Fits (found.buffer 0) then found.elementsFrom 0
  else .undefined

def Found.fileFrom (found : Found) (cursor : ℕ) : Pc :=
  if cursor < found.stSize then .sendFile cursor else .closeFile

/-- The first call of `next_ss` with so many addresses left. With none it returns `-1`. -/
def addressesFrom : ℕ → Pc
  | 0 => .closeSocket
  | left + 1 => .socket left

/-- The loop that sends the elements skips the one drawn. -/
def Found.listFrom (found : Found) (i : ℕ) : Pc :=
  let next := found.rand % found.lSize.toNat
  let i := if i = next then i + 1 else i
  if i < (found.lSize - 1 + 1).toNat then .sendElement i else .recvFileHeader

def Found.bytesFrom (found : Found) (i : BitVec 32) : Pc :=
  if i < found.fSize then .recvBytes i else .closeNext

def Handler.goto (h : Handler) (pc : Pc) : Handler := { h with pc := pc }

def Handler.obtain (h : Handler) (pc : Pc) : Handler :=
  { h with pc := pc, fd := h.obtained, obtained := h.obtained + 1 }

def Handler.close (h : Handler) (fd : ℕ) (pc : Pc) : Handler :=
  { h with pc := pc, closed := fd :: h.closed }

def s : ℕ := 0

def step (found : Found) (h : Handler) (r : Outcome) : Option Handler :=
  match h.pc, r with
  | .recvHeader _, .failed => some (h.goto .closeSocket)
  | .recvHeader total, .returned bytes => some (h.goto (found.headerFrom (total + bytes)))
  | .openFile, .failed => some (h.goto .closeSocket)
  | .openFile, .returned _ => some (h.obtain .fstat)
  -- `last_ss` returns and leaves the file open
  | .fstat, .failed => some (h.goto .closeSocket)
  | .fstat, .returned _ => some (h.goto .mmap)
  | .mmap, .failed => some (h.goto .closeSocket)
  | .mmap, .returned _ => some (h.goto .sendFileHeader)
  | .sendFileHeader, .failed => some (h.goto .closeSocket)
  | .sendFileHeader, .returned _ => some (h.goto (found.fileFrom 0))
  | .sendFile _, .failed => some (h.goto .closeSocket)
  | .sendFile cursor, .returned bytes => some (h.goto (found.fileFrom (cursor + bytes)))
  | .closeFile, _ => some (h.close h.fd .munmap)
  | .munmap, _ => some (h.goto .remove)
  | .remove, _ => some (h.goto .closeSocket)
  | .recvElement _, .failed => some (h.goto .closeSocket)
  | .recvElement i, .returned _ =>
      if i < listSize ∧ Fits (found.buffer (i + 1)) then some (h.goto (found.elementsFrom (i + 1)))
      else some (h.goto .undefined)
  | .getaddrinfo, .failed => some (h.goto .closeSocket)
  -- any other error is taken for a success, and the loop starts at what happens to be in `servs`
  | .getaddrinfo, .returned error =>
      if error = 0 then some (h.goto (addressesFrom found.addresses))
      else some (h.goto .undefined)
  | .socket left, .failed => some (h.goto (addressesFrom left))
  | .socket left, .returned _ => some (h.obtain (.connect left))
  -- the loop goes on with the next address and leaves the socket open
  | .connect left, .failed => some (h.goto (addressesFrom left))
  | .connect _, .returned _ =>
      if Fits found.waiting then some (h.goto .sendHeader) else some (h.goto .undefined)
  | .sendHeader, .failed => some (h.goto .dumpTwo)
  | .sendHeader, .returned bytes =>
      if bytes ≠ ListHeader.size then some (h.goto .dumpTwo) else some (h.goto (found.listFrom 0))
  | .sendElement _, .failed => some (h.goto .dumpTwo)
  | .sendElement i, .returned _ => some (h.goto (found.listFrom (i + 1)))
  | .recvFileHeader, .failed => some (h.goto .dumpTwo)
  | .recvFileHeader, .returned _ => some (h.goto .forwardFileHeader)
  | .forwardFileHeader, .failed => some (h.goto .dumpTwo)
  | .forwardFileHeader, .returned _ => some (h.goto (found.bytesFrom 0))
  | .recvBytes _, .failed => some (h.goto .dumpTwo)
  | .recvBytes i, .returned bytes => some (h.goto (.sendBytes i bytes))
  | .sendBytes _ _, .failed => some (h.goto .dumpTwo)
  | .sendBytes i bytes, .returned _ =>
      some (h.goto (found.bytesFrom (i + BitVec.ofNat 32 bytes)))
  | .closeNext, _ => some (h.close h.fd .closeSocket)
  | .dumpTwo, _ => some (h.close s .dumpNext)
  | .dumpNext, _ => some (h.close h.fd .ended)
  | .closeSocket, _ => some (h.close s .ended)
  | .ended, _ | .undefined, _ => none

/-- The thread at the start of `connection`. -/
def accepted : Handler := ⟨.recvHeader 0, s, s + 1, []⟩

/-! ### What the thread holds -/

/-- The descriptors that are still to be closed on the way from a call to the end. -/
def Pc.held (fd : ℕ) : Pc → List ℕ
  | .recvHeader _ | .openFile | .munmap | .remove | .recvElement _ | .getaddrinfo | .socket _
  | .closeSocket => [s]
  | .fstat | .mmap | .sendFileHeader | .sendFile _ | .closeFile | .connect _ | .sendHeader
  | .sendElement _ | .recvFileHeader | .forwardFileHeader | .recvBytes _ | .sendBytes _ _
  | .closeNext | .dumpTwo => [fd, s]
  | .dumpNext => [fd]
  | .ended | .undefined => []

def Handler.held (h : Handler) : List ℕ := h.pc.held h.fd

/-- The call does not fail where a descriptor is lost then. -/
def Closes (h : Handler) : Outcome → Prop
  | .failed =>
      match h.pc with
      | .fstat | .mmap | .sendFileHeader | .sendFile _ | .connect _ => False
      | _ => True
  | .returned _ => True

/-- The texts that `curr_ss` writes before it receives the element `i` fit. -/
def Found.Ready (found : Found) (i : ℕ) : Prop :=
  Fits (found.buffer i) ∧ (found.lSize.toNat ≤ i → Fits found.drawn)

/-- What the thread does behind the call is defined. An element has a place in the list, the texts
have terminators and a place in the buffer, and the address list is set. -/
def InBounds (found : Found) (h : Handler) : Outcome → Prop
  | .failed => True
  | .returned n =>
      match h.pc with
      | .recvHeader total => ListHeader.size ≤ total + n →
          if found.lSize = 0 then Fits (cstr found.fName) else found.Ready 0
      | .recvElement i => i < listSize ∧ found.Ready (i + 1)
      | .getaddrinfo => n = 0
      | .connect _ => Fits found.waiting
      | _ => True

def Safe (found : Found) (h : Handler) (r : Outcome) : Prop := Closes h r ∧ InBounds found h r

/-- The thread goes on as it should, or to where nothing is defined. -/
def Leads (p : Prop) (held : List ℕ) (fd : ℕ) (pc : Pc) : Prop :=
  p ∧ pc.held fd = held ∨ ¬p ∧ pc = .undefined

theorem elementsFrom_cases (found : Found) (fd i : ℕ) :
    Leads (found.lSize.toNat ≤ i → Fits found.drawn) [s] fd (found.elementsFrom i) := by
  rw [Found.elementsFrom]
  split_ifs with hlt hdrawn
  · exact .inl ⟨fun hle => absurd hlt hle.not_gt, rfl⟩
  · exact .inl ⟨fun _ => hdrawn, rfl⟩
  · exact .inr ⟨fun h => hdrawn (h (not_lt.mp hlt)), rfl⟩

theorem headerFrom_cases (found : Found) (fd total : ℕ) :
    Leads (ListHeader.size ≤ total →
        if found.lSize = 0 then Fits (cstr found.fName) else found.Ready 0)
      [s] fd (found.headerFrom total) := by
  rw [Found.headerFrom]
  by_cases hlt : total < ListHeader.size
  · rw [if_pos hlt]
    exact .inl ⟨fun hle => absurd hlt hle.not_gt, rfl⟩
  · rw [if_neg hlt, Leads, forall_prop_of_true (not_lt.mp hlt)]
    split_ifs with hzero hname hheading
    · exact .inl ⟨hname, rfl⟩
    · exact .inr ⟨hname, rfl⟩
    · exact (elementsFrom_cases found fd 0).imp (fun h => ⟨⟨hheading, h.1⟩, h.2⟩)
        fun h => ⟨fun hready => h.1 hready.2, h.2⟩
    · exact .inr ⟨fun hready => hheading hready.1, rfl⟩

theorem held_fileFrom (found : Found) (fd cursor : ℕ) :
    (found.fileFrom cursor).held fd = [fd, s] := by
  rw [Found.fileFrom]
  split_ifs <;> rfl

theorem held_addressesFrom (fd left : ℕ) : (addressesFrom left).held fd = [s] := by
  cases left <;> rfl

theorem held_listFrom (found : Found) (fd i : ℕ) : (found.listFrom i).held fd = [fd, s] := by
  rw [Found.listFrom]
  split_ifs <;> rfl

theorem held_bytesFrom (found : Found) (fd : ℕ) (i : BitVec 32) :
    (found.bytesFrom i).held fd = [fd, s] := by
  rw [Found.bytesFrom]
  split_ifs <;> rfl

/-- What a step does to the descriptors. -/
inductive Moves (found : Found) (h : Handler) (r : Outcome) : Handler → Prop
  | goto {pc : Pc} (hsafe : Safe found h r) (hheld : pc.held h.fd = h.held) :
      Moves found h r (h.goto pc)
  | obtain {pc : Pc} {n : ℕ} (hsafe : Safe found h r) (hreturned : r = .returned n)
      (hpc : h.pc = .openFile ∨ ∃ left, h.pc = .socket left)
      (hheld : pc.held h.obtained = h.obtained :: h.held) : Moves found h r (h.obtain pc)
  | close {fd : ℕ} {pc : Pc} (hsafe : Safe found h r) (hheld : h.held ~ fd :: pc.held h.fd) :
      Moves found h r (h.close fd pc)
  | lose {pc : Pc} (hfails : ¬Safe found h r) (hheld : h.held = h.fd :: pc.held h.fd) :
      Moves found h r (h.goto pc)
  | stray (hfails : ¬Safe found h r) (hheld : h.held ≠ []) : Moves found h r (h.goto .undefined)

theorem Leads.moves {pc : Pc} (hpc : Leads (InBounds found h r) h.held h.fd pc)
    (hcloses : Closes h r) (hheld : h.held ≠ []) : Moves found h r (h.goto pc) := by
  rcases hpc with ⟨hbounds, hpc⟩ | ⟨hbounds, rfl⟩
  · exact .goto ⟨hcloses, hbounds⟩ hpc
  · exact .stray (fun hsafe => hbounds hsafe.2) hheld

theorem step_moves (hstep : step found h r = some h') : Moves found h r h' := by
  obtain ⟨pc, fd, obtained, closed⟩ := h
  cases pc with
  | recvHeader total =>
      cases r with
      | failed =>
          cases hstep
          exact .goto ⟨trivial, trivial⟩ rfl
      | returned bytes =>
          cases hstep
          refine Leads.moves ?_ trivial (List.cons_ne_nil _ _)
          exact headerFrom_cases found fd (total + bytes)
  | openFile =>
      cases r <;> cases hstep
      · exact .goto ⟨trivial, trivial⟩ rfl
      · exact .obtain ⟨trivial, trivial⟩ rfl (.inl rfl) rfl
  | fstat | mmap =>
      cases r <;> cases hstep
      · exact .lose (fun hsafe => hsafe.1) rfl
      · exact .goto ⟨trivial, trivial⟩ rfl
  | sendFileHeader | sendFile cursor =>
      cases r <;> cases hstep
      · exact .lose (fun hsafe => hsafe.1) rfl
      · exact .goto ⟨trivial, trivial⟩ (held_fileFrom found fd _)
  | closeFile | closeNext =>
      cases r <;> cases hstep
      all_goals exact .close ⟨trivial, trivial⟩ (List.Perm.refl _)
  | munmap | remove =>
      cases r <;> cases hstep
      all_goals exact .goto ⟨trivial, trivial⟩ rfl
  | recvElement i =>
      cases r with
      | failed =>
          cases hstep
          exact .goto ⟨trivial, trivial⟩ rfl
      | returned bytes =>
          simp only [step] at hstep
          split_ifs at hstep with hfits <;> cases hstep
          · refine Leads.moves ?_ trivial (List.cons_ne_nil _ _)
            exact (elementsFrom_cases found fd (i + 1)).imp
              (fun h => ⟨⟨hfits.1, hfits.2, h.1⟩, h.2⟩)
              fun h => ⟨fun hbounds => h.1 hbounds.2.2, h.2⟩
          · exact .stray (fun hsafe => hfits ⟨hsafe.2.1, hsafe.2.2.1⟩) (List.cons_ne_nil _ _)
  | getaddrinfo =>
      cases r with
      | failed =>
          cases hstep
          exact .goto ⟨trivial, trivial⟩ rfl
      | returned error =>
          simp only [step] at hstep
          split_ifs at hstep with herror <;> cases hstep
          · exact .goto ⟨trivial, herror⟩ (held_addressesFrom fd found.addresses)
          · exact .stray (fun hsafe => herror hsafe.2) (List.cons_ne_nil _ _)
  | socket left =>
      cases r <;> cases hstep
      · exact .goto ⟨trivial, trivial⟩ (held_addressesFrom fd left)
      · exact .obtain ⟨trivial, trivial⟩ rfl (.inr ⟨left, rfl⟩) rfl
  | connect left =>
      cases r with
      | failed =>
          cases hstep
          refine .lose (fun hsafe => hsafe.1) ?_
          change [fd, s] = fd :: (addressesFrom left).held fd
          rw [held_addressesFrom]
      | returned n =>
          simp only [step] at hstep
          split_ifs at hstep with hfits <;> cases hstep
          · exact .goto ⟨trivial, hfits⟩ rfl
          · exact .stray (fun hsafe => hfits hsafe.2) (List.cons_ne_nil _ _)
  | sendHeader =>
      cases r with
      | failed =>
          cases hstep
          exact .goto ⟨trivial, trivial⟩ rfl
      | returned bytes =>
          change (if bytes ≠ ListHeader.size then _ else _) = some h' at hstep
          split_ifs at hstep <;> cases hstep
          · exact .goto ⟨trivial, trivial⟩ rfl
          · exact .goto ⟨trivial, trivial⟩ (held_listFrom found fd 0)
  | sendElement i =>
      cases r <;> cases hstep
      · exact .goto ⟨trivial, trivial⟩ rfl
      · exact .goto ⟨trivial, trivial⟩ (held_listFrom found fd (i + 1))
  | recvFileHeader | recvBytes i =>
      cases r <;> cases hstep
      all_goals exact .goto ⟨trivial, trivial⟩ rfl
  | forwardFileHeader | sendBytes i bytes =>
      cases r <;> cases hstep
      · exact .goto ⟨trivial, trivial⟩ rfl
      · exact .goto ⟨trivial, trivial⟩ (held_bytesFrom found fd _)
  | dumpTwo =>
      cases r <;> cases hstep
      all_goals exact .close ⟨trivial, trivial⟩ (List.Perm.swap s fd [])
  | dumpNext | closeSocket =>
      cases r <;> cases hstep
      all_goals exact .close ⟨trivial, trivial⟩ (List.Perm.refl _)
  | ended | undefined => cases r <;> cases hstep

/-! ### The books of the thread -/

/-- None of the descriptors obtained has been closed twice, and those to be closed are open. -/
def Handler.Kept (h : Handler) : Prop := Ledger.Kept h.obtained h.held h.closed

def Handler.Complete (h : Handler) : Prop := Ledger.Complete h.obtained h.held h.closed

/-- **One step** loses a descriptor exactly when it is not safe. -/
theorem Handler.Kept.step (hkept : h.Kept) (hstep : step found h r = some h') :
    h'.Kept ∧ (h'.Complete ↔ h.Complete ∧ Safe found h r) := by
  unfold Handler.Kept Handler.Complete at *
  cases step_moves hstep with
  | @goto pc hsafe hheld =>
      change Ledger.Kept h.obtained (pc.held h.fd) h.closed
        ∧ (Ledger.Complete h.obtained (pc.held h.fd) h.closed ↔ _)
      rw [hheld]
      exact ⟨hkept, (and_iff_left hsafe).symm⟩
  | @obtain pc n hsafe hreturned hpc hheld =>
      change Ledger.Kept (h.obtained + 1) (pc.held h.obtained) h.closed
        ∧ (Ledger.Complete (h.obtained + 1) (pc.held h.obtained) h.closed ↔ _)
      rw [hheld, complete_obtain_iff]
      exact ⟨hkept.obtain, (and_iff_left hsafe).symm⟩
  | @close pc fd hsafe hheld =>
      refine ⟨(hkept.perm hheld).close, Iff.trans ?_ (and_iff_left hsafe).symm⟩
      exact complete_close_iff.trans (complete_perm_iff hheld)
  | @lose pc hfails hheld =>
      rw [hheld] at hkept
      obtain ⟨hstill, hlost⟩ := hkept.lose
      exact ⟨hstill, iff_of_false hlost fun hsafe => hfails hsafe.2⟩
  | stray hfails hheld =>
      obtain ⟨hstill, hlost⟩ := hkept.forget hheld
      exact ⟨hstill, iff_of_false hlost fun hsafe => hfails hsafe.2⟩

theorem kept_accepted : accepted.Kept := (List.Perm.refl [s]).subperm

theorem complete_accepted : accepted.Complete := rfl

theorem kept_of_along {input : ℕ → Outcome} {k : ℕ}
    (hk : along (step found) accepted input k = some h) : h.Kept :=
  along_invariant kept_accepted (fun _ _ _ ht hnext => (ht.step hnext).1) hk

/-- **No descriptor is closed twice**, whatever fails, and none that the thread still uses. -/
theorem held_closed_nodup {input : ℕ → Outcome} {k : ℕ}
    (hk : along (step found) accepted input k = some h) : (h.held ++ h.closed).Nodup :=
  Ledger.Kept.nodup (kept_of_along hk)

/-- **Every descriptor is closed exactly once** when the thread ends, if and only if no `connect`
has failed and, once the file is open, neither `fstat` nor `mmap` nor any `send` of `last_ss`, and
the thread has not got to where nothing is defined: to an element behind the end of the list, a text
without terminator or behind the end of the buffer, or an error of `getaddrinfo` other than `-1`. -/
theorem closed_once_iff (found : Found) (input : ℕ → Outcome) {k : ℕ}
    (hk : along (step found) accepted input k = some h)
    (hended : h.pc = .ended ∨ h.pc = .undefined) :
    (∀ fd < h.obtained, h.closed.count fd = 1)
      ↔ ∀ j < k, ∀ t, along (step found) accepted input j = some t → Safe found t (input j) := by
  have hkept : h.Kept := kept_of_along hk
  have hheld : h.held = [] := by
    rcases hended with hended | hended <;> rw [Handler.held, hended, Pc.held]
  have hcomplete := along_iff_of_step Handler.Kept Handler.Complete (Safe found) kept_accepted
    complete_accepted (fun t a u ht hnext => ht.step hnext) hk
  rw [Handler.Kept, hheld] at hkept
  rw [← hcomplete, Handler.Complete, hheld]
  exact hkept.count_eq_one_iff

instance (h : Handler) : DecidablePred (Closes h)
  | .failed => by
      unfold Closes
      dsimp only
      split <;> infer_instance
  | .returned _ => .isTrue trivial

instance (found : Found) (i : ℕ) : Decidable (found.Ready i) :=
  inferInstanceAs (Decidable (_ ∧ _))

instance (found : Found) (h : Handler) : DecidablePred (InBounds found h)
  | .failed => .isTrue trivial
  | .returned _ => by
      unfold InBounds
      dsimp only
      split <;> infer_instance

instance (found : Found) (h : Handler) : DecidablePred (Safe found h) :=
  fun _ => inferInstanceAs (Decidable (_ ∧ _))

/-- An element with the host `a` and the port `1`. -/
def plainElement : ListElement where
  version := 1
  host := 97 :: List.replicate 255 0
  port := 49 :: List.replicate 7 0
  length_host := by rw [List.length_cons, List.length_replicate]
  length_port := rfl

/-- A request with two elements. The first address has no socket, the second is connected, and then
only a part of the header is sent. -/
def sampleFound : Found :=
  ⟨⟨ofString "b", ofString "2"⟩, [97, 0], [plainElement, plainElement], 2, 1, 2, 0, 0⟩

def partialSend (k : ℕ) : Outcome :=
  [.returned 4101, .returned 265, .returned 265, .returned 0, .failed, .returned 5, .returned 0,
    .returned 100].getD k (.returned 0)

theorem closed_once_iff_sample :
    ∃ h, along (step sampleFound) accepted partialSend 10 = some h
      ∧ h.obtained = 2 ∧ ∀ fd < h.obtained, h.closed.count fd = 1 := by
  have hends : (along (step sampleFound) accepted partialSend 10).map
      (fun h => (h.pc, h.obtained)) = some (.ended, 2) := by decide
  obtain ⟨h, hk, hpair⟩ := Option.map_eq_some_iff.mp hends
  rw [Prod.mk.injEq] at hpair
  refine ⟨h, hk, hpair.2, (closed_once_iff sampleFound partialSend hk (.inl hpair.1)).mpr ?_⟩
  -- one call fails, and that is a call of `socket`
  have hsafe : ∀ j < 10, ∀ t ∈ along (step sampleFound) accepted partialSend j,
      Safe sampleFound t (partialSend j) := by
    decide
  exact hsafe

/-- The only address of the next stepping stone has a socket that cannot be connected. -/
def unconnected (k : ℕ) : Outcome :=
  [.returned 4101, .returned 265, .returned 0, .returned 5, .failed].getD k (.returned 0)

def oneElement : Found :=
  ⟨⟨ofString "b", ofString "2"⟩, [97, 0], [plainElement], 1, 0, 1, 0, 0⟩

theorem not_closed_once :
    ¬∀ (found : Found) (input : ℕ → Outcome) (k : ℕ) (h : Handler),
      along (step found) accepted input k = some h → h.pc = .ended →
        ∀ fd < h.obtained, h.closed.count fd = 1 := by
  intro hclosed
  have hends : (along (step oneElement) accepted unconnected 6).map
      (fun h => (h.pc, h.obtained, h.closed)) = some (.ended, 2, [s]) := by decide
  obtain ⟨h, hk, hfields⟩ := Option.map_eq_some_iff.mp hends
  rw [Prod.mk.injEq, Prod.mk.injEq] at hfields
  obtain ⟨hended, hobtained, hclosedList⟩ := hfields
  have hone := hclosed oneElement unconnected 6 h hk hended 1 (by omega)
  rw [hclosedList] at hone
  exact absurd hone (by decide)

end Networking.Relay.Descriptors

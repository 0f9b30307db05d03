import Mathlib.Data.Finset.Card
import Networking.Resolver.Delegation

/-!
# Sending a query

`sendOut` opens a socket for each query and closes none of them, and it ends the program when the
system gives it no more. So whatever the servers answer, and to however many others they refer, a
run of the resolver asks at most as often as the process may open descriptors.
-/

namespace Networking.Resolver

open Wire Transition

def bufSize : ℕ := 8192

/-- What the system gives the calls of `sendOut`, each of which may fail: the descriptor, the count
that `send` returns, and the datagram that arrives. -/
structure Syscalls where
  socket : Option ℕ
  connect : Bool
  send : Option ℕ
  recv : Option Bytes

/-- What `sendOut` returns, unless it ends the program, and the descriptors that it has opened. -/
def sendOut (calls : Syscalls) (sendMe : Bytes) : Option Bytes × List ℕ :=
  match calls.socket with
  | none => (none, [])
  | some sock =>
      if calls.connect then
        match calls.send, calls.recv with
        | some numBytes, some datagram =>
            -- the size of the query is kept in a `uint32_t`
            if numBytes < sendMe.length % 2 ^ 32 then (none, [sock])
            else (some (datagram.take (bufSize - 1)), [sock])
        | _, _ => (none, [sock])
      else (none, [sock])

/-- The program with the descriptors that are open. -/
structure Process where
  run : Resolving
  opened : List ℕ

/-- What the world does in a round. -/
structure World where
  rand : ℕ
  calls : Syscalls

def World.outside (v : World) : Outside := ⟨v.rand, fun _ sendMe => (sendOut v.calls sendMe).1⟩

def round (fuel : ℕ) (pktHeader : Header) (pktPayload : Question) (p : Process) (v : World) :
    Option Process :=
  (resolve fuel pktHeader pktPayload p.run v.outside).map fun w =>
    ⟨w, p.opened ++ (w.exchanges.drop p.run.exchanges.length).flatMap fun x =>
      (sendOut v.calls x.datagram).2⟩

/-- The standard streams are open. -/
def Process.main : Process := ⟨.main, [0, 1, 2]⟩

/-- The system gives a descriptor that is not open, below its limit. -/
def Grants (limit : ℕ) (p : Process) (v : World) : Prop :=
  ∀ sock ∈ v.calls.socket, sock < limit ∧ sock ∉ p.opened

instance (limit : ℕ) (p : Process) (v : World) : Decidable (Grants limit p v) :=
  inferInstanceAs (Decidable (∀ sock ∈ v.calls.socket, sock < limit ∧ sock ∉ p.opened))

variable {fuel limit : ℕ} {pktHeader : Header} {pktPayload : Question} {w w' : Resolving}
  {p p' : Process} {o : Outside} {v : World} {calls : Syscalls} {sendMe results : Bytes}
  {x : Exchange}

/-! ### One round -/

theorem sendOut_cases (calls : Syscalls) (sendMe : Bytes) :
    sendOut calls sendMe = (none, [])
      ∨ ∃ sock, calls.socket = some sock ∧ (sendOut calls sendMe).2 = [sock]
        ∧ ∀ results, (sendOut calls sendMe).1 = some results → results.length < bufSize := by
  unfold sendOut
  split
  case h_1 => exact .inl rfl
  case h_2 sock hsock =>
    refine .inr ⟨sock, hsock, ?_⟩
    split_ifs with hconnect
    · split
      case h_1 numBytes datagram _ _ =>
        split_ifs
        · exact ⟨rfl, nofun⟩
        · refine ⟨rfl, fun results hresults => ?_⟩
          cases hresults
          exact Nat.lt_of_le_of_lt (List.length_take_le _ _) (by decide)
      case h_2 => exact ⟨rfl, nofun⟩
    · exact ⟨rfl, nofun⟩

theorem result_of_none (hnone : x.response = none) : x.result fuel = .ok .fatal := by
  unfold Exchange.result
  rw [hnone]

/-- A round asks one server or none. The program ends when `sendOut` does. -/
theorem exchanges_of_resolve (hstep : resolve fuel pktHeader pktPayload w o = some w') :
    w.config.status = .running
      ∧ (w'.exchanges = w.exchanges ∨ ∃ x, w'.exchanges = w.exchanges ++ [x]
        ∧ x.response = o.sendOut x.server.ip x.datagram
        ∧ (x.response = none → w'.config.status = .fatal)) := by
  obtain ⟨c', hround, rfl⟩ := Option.map_eq_some_iff.mp hstep
  obtain ⟨hrunning, hround⟩ := step_round hround
  refine ⟨hrunning, ?_⟩
  cases hround with
  | skip | exhausted | leave | resume => exact .inl (exchanges_after rfl)
  | @query f callers srvNum s hframes hpick hstack =>
      set dnsPacket := writePacket pktHeader pktPayload f.dnsPacket
      set sendMe := dnsPacket.bytes
      set x := o.exchange s sendMe ((sendMe.length - 11) % 2 ^ 32)
      have hquery : queryServer pktHeader pktPayload w.config f callers srvNum s
          (o.input fuel).reply = afterParse { w.config with
            stack := w.config.stack ++ [s]
            sent := w.config.sent ++ [⟨s, sendMe, (sendMe.length - 11) % 2 ^ 32, f.queried⟩] }
          { f with dnsPacket := dnsPacket, srvNum := srvNum, queried := f.queried + 1 } callers
          (x.result fuel) := rfl
      rw [hquery]
      refine .inr ⟨x, ?_, rfl, fun hnone => ?_⟩
      · exact exchanges_after_concat
          (e := ⟨s, sendMe, (sendMe.length - 11) % 2 ^ 32, f.queried⟩) (sent_afterParse _)
      · rw [result_of_none hnone]
        rfl

/-! ### Every run -/

/-- Each query leaves one descriptor open, but for the one at which the program ends. -/
structure Leaking (limit : ℕ) (p : Process) : Prop where
  below : ∀ sock ∈ p.opened, sock < limit
  nodup : p.opened.Nodup
  running : p.run.config.status = .running → p.opened.length = p.run.exchanges.length + 3
  ended : p.run.exchanges.length + 2 ≤ p.opened.length
  sizes : ∀ x ∈ p.run.exchanges, ∀ results, x.response = some results → results.length < bufSize

theorem leaking_main (hlimit : 3 ≤ limit) : Leaking limit .main where
  below sock hsock := by
    have hall : ∀ sock ∈ [0, 1, 2], sock < 3 := by decide
    exact (hall sock hsock).trans_le hlimit
  nodup := by decide
  running _ := rfl
  ended := Nat.le_succ 2
  sizes _ h := absurd h List.not_mem_nil

/-- A response that is heard has been cut to the buffer. -/
theorem Leaking.heard (h : Leaking limit p) {w : Resolving}
    (hexchanges : w.exchanges = p.run.exchanges ++ [x])
    (hx : ∀ results, x.response = some results → results.length < bufSize) :
    ∀ y ∈ w.exchanges, ∀ results, y.response = some results → results.length < bufSize := by
  rw [hexchanges]
  exact List.forall_mem_append.mpr ⟨h.sizes, List.forall_mem_singleton.mpr hx⟩

theorem Leaking.round (h : Leaking limit p) (hgrants : Grants limit p v)
    (hstep : round fuel pktHeader pktPayload p v = some p') : Leaking limit p' := by
  obtain ⟨w, hresolve, rfl⟩ := Option.map_eq_some_iff.mp hstep
  obtain ⟨hrunning, hsame | ⟨x, hexchanges, hresponse, hfatal⟩⟩ := exchanges_of_resolve hresolve
  · rw [hsame, List.drop_length, List.flatMap_nil, List.append_nil]
    refine ⟨h.below, h.nodup, fun _ => ?_, ?_, ?_⟩
    · rw [hsame]
      exact h.running hrunning
    · rw [hsame]
      exact h.ended
    · rw [hsame]
      exact h.sizes
  · have hlength := h.running hrunning
    have hcount : w.exchanges.length = p.run.exchanges.length + 1 := by
      rw [hexchanges, List.length_append, List.length_singleton]
    have hreturned : x.response = (sendOut v.calls x.datagram).1 := hresponse
    rw [hexchanges, List.drop_left, List.flatMap_singleton]
    rcases sendOut_cases v.calls x.datagram with hnone | ⟨sock, hsock, hopened, hsize⟩
    · -- without a socket the program ends
      rw [hnone] at hreturned ⊢
      rw [List.append_nil]
      refine ⟨h.below, h.nodup, fun hrun => ?_, ?_, h.heard hexchanges fun results hresults => ?_⟩
      · rw [show w.config.status = .fatal from hfatal hreturned] at hrun
        cases hrun
      · dsimp only
        omega
      · rw [hreturned] at hresults
        cases hresults
    · obtain ⟨hlt, hfresh⟩ := hgrants sock hsock
      rw [hopened]
      have hgrown : (p.opened ++ [sock]).length = w.exchanges.length + 3 := by
        rw [List.length_append, List.length_singleton, hcount]
        omega
      refine ⟨?_, ?_, fun _ => hgrown, ?_, h.heard hexchanges ?_⟩
      · exact List.forall_mem_append.mpr ⟨h.below, List.forall_mem_singleton.mpr hlt⟩
      · exact List.concat_eq_append ▸ h.nodup.concat hfresh
      · dsimp only
        omega
      · rw [hreturned]
        exact hsize

theorem length_le_of_below {l : List ℕ} (hnodup : l.Nodup) (hbelow : ∀ d ∈ l, d < limit) :
    l.length ≤ limit := by
  rw [← List.toFinset_card_of_nodup hnodup, ← Finset.card_range limit]
  exact Finset.card_le_card fun d hd => Finset.mem_range.mpr (hbelow d (List.mem_toFinset.mp hd))

/-- **The resolver asks as often as it may open descriptors.** In every run under a limit of the
process, whatever comes back from the network, a descriptor is left open for each server asked, so
that with three for the standard streams there are no more queries than the limit less two, and the
program has ended in the last of those. No response is longer than the buffer. -/
theorem queries_le_limit (hlimit : 3 ≤ limit)
    (hreach : Reaches (round fuel pktHeader pktPayload) (Grants limit) .main p) :
    p.run.exchanges.length + 2 ≤ limit
      ∧ (p.run.config.status = .running →
        p.opened.length = p.run.exchanges.length + 3 ∧ p.run.exchanges.length + 3 ≤ limit)
      ∧ ∀ x ∈ p.run.exchanges, ∀ results, x.response = some results →
        results.length < bufSize := by
  have h : Leaking limit p :=
    hreach.invariant (leaking_main hlimit) fun _ _ _ ht hgrants hstep => ht.round hgrants hstep
  have hle := length_le_of_below h.nodup h.below
  refine ⟨h.ended.trans hle, fun hrunning => ?_, h.sizes⟩
  have hlength := h.running hrunning
  exact ⟨hlength, hlength ▸ hle⟩

/-- Two servers are asked by a process that may open four descriptors: the first refuses. -/
def twoQueries : List World :=
  [⟨0, some 3, true, some 30, some [0, 0, 128, 5, 0, 0, 0, 0, 0, 0, 0, 0]⟩,
    ⟨0, none, true, none, none⟩]

theorem queries_le_limit_sample :
    ∃ p : Process, (p.run.exchanges.length = 2 ∧ p.opened = [0, 1, 2, 3]
        ∧ p.run.config.status = .fatal)
      ∧ p.run.exchanges.length + 2 ≤ 4 := by
  have hrun : (follow (round 5 sampleHeader sampleQuestion) (Grants 4) .main twoQueries).map
      (fun p => (p.run.exchanges.length, p.opened, p.run.config.status))
      = some (2, [0, 1, 2, 3], .fatal) := by
    rfl
  obtain ⟨p, hfollow, hp⟩ := Option.map_eq_some_iff.mp hrun
  obtain ⟨hcount, hopened, hstatus⟩ : p.run.exchanges.length = 2 ∧ p.opened = [0, 1, 2, 3]
      ∧ p.run.config.status = .fatal := by
    simpa only [Prod.mk.injEq] using hp
  exact ⟨p, ⟨hcount, hopened, hstatus⟩,
    (queries_le_limit (by decide) (reaches_of_follow twoQueries hfollow)).1⟩

end Networking.Resolver

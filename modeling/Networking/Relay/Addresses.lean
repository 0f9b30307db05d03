import Mathlib.Data.List.Basic

/-!
# The list of addresses

`server` goes over the list that `getaddrinfo` allocates, until it has bound a socket to one of the
addresses. It frees the list and asks then for the name of that address.
-/

namespace Networking.Relay.Addresses

/-- What the system answers to the calls for an address. -/
structure Address where
  socket : Option ℕ
  setsockopt : Bool
  bind : Bool

/-- What `getaddrinfo` gives. -/
inductive Lookup
  | error
  | found (servs : List Address)

/-- The memory of the list. -/
inductive Memory
  | unset
  | allocated
  | freed
  deriving DecidableEq

inductive Result
  /-- The function has returned -1. -/
  | failed
  | socket (fd : ℕ)
  deriving DecidableEq

/-- What a call has done: the descriptors that it has opened and closed, the memory of the list, and
whether it has read an address in memory that was not allocated. -/
structure Calls where
  opened : List ℕ
  closed : List ℕ
  memory : Memory
  stray : Bool

def Calls.start : Calls := ⟨[], [], .unset, false⟩

def Calls.socket (c : Calls) (sockfd : ℕ) : Calls := { c with opened := c.opened ++ [sockfd] }

def Calls.close (c : Calls) (sockfd : ℕ) : Calls := { c with closed := c.closed ++ [sockfd] }

/-- An address of the list is read. -/
def Calls.read (c : Calls) : Calls := { c with stray := c.stray || c.memory ≠ .allocated }

structure Ended extends Calls where
  result : Result

/-- Where the loop of `server` stops. -/
inductive Bound
  | exhausted
  | gaveUp
  | bound (sockfd : ℕ)

def bindLoop : List Address → Calls → Bound × Calls
  | [], c => (.exhausted, c)
  | curr :: rest, c =>
      let c := c.read
      match curr.socket with
      | none => bindLoop rest c
      | some sockfd =>
          let c := c.socket sockfd
          if ¬curr.setsockopt then (.gaveUp, c)
          else if curr.bind then (.bound sockfd, c)
          else bindLoop rest (c.close sockfd)

/-- `server` up to the loop that accepts. -/
def server (getaddrinfo : Lookup) (getnameinfo listen : Bool) : Ended :=
  match getaddrinfo with
  | .error => ⟨.start, .failed⟩
  | .found serv =>
      match bindLoop serv { Calls.start with memory := .allocated } with
      | (.exhausted, c) => ⟨c, .failed⟩
      | (.gaveUp, c) => ⟨c, .failed⟩
      | (.bound sockfd, c) =>
          -- `freeaddrinfo`, and behind it `curr` points into the list
          let c := { c with memory := .freed }.read
          ⟨c, if getnameinfo ∧ listen then .socket sockfd else .failed⟩

variable {getaddrinfo : Lookup} {getnameinfo listen : Bool} {serv before rest : List Address}
  {curr : Address} {sockfd : ℕ}

/-- The loop goes on to the next address. -/
def Address.Passed (a : Address) : Prop := a.socket = none ∨ a.setsockopt = true ∧ a.bind = false

/-- The loop stops at an address that is bound. -/
def Address.Binds (a : Address) (sockfd : ℕ) : Prop :=
  a.socket = some sockfd ∧ a.setsockopt = true ∧ a.bind = true

/-- The loop stops because an option cannot be set. -/
def Address.Fails (a : Address) (sockfd : ℕ) : Prop :=
  a.socket = some sockfd ∧ a.setsockopt = false

theorem Address.cases (a : Address) :
    a.Passed ∨ (∃ sockfd, a.Binds sockfd) ∨ ∃ sockfd, a.Fails sockfd := by
  obtain ⟨socket, setsockopt, bind⟩ := a
  cases socket with
  | none => exact .inl (.inl rfl)
  | some sockfd =>
      cases setsockopt with
      | false => exact .inr (.inr ⟨sockfd, rfl, rfl⟩)
      | true =>
          cases bind with
          | false => exact .inl (.inr ⟨rfl, rfl⟩)
          | true => exact .inr (.inl ⟨sockfd, rfl, rfl, rfl⟩)

/-- The sockets that are made for some addresses. -/
def sockets (servs : List Address) : List ℕ := servs.filterMap Address.socket

/-- While the list is there, the loop closes what it has opened, as long as it goes on. -/
theorem bindLoop_of_passed (hbefore : ∀ a ∈ before, a.Passed) (rest : List Address)
    (opened closed : List ℕ) :
    bindLoop (before ++ rest) ⟨opened, closed, .allocated, false⟩
      = bindLoop rest
        ⟨opened ++ sockets before, closed ++ sockets before, .allocated, false⟩ := by
  induction before generalizing opened closed with
  | nil => rw [List.nil_append, sockets, List.filterMap_nil, List.append_nil, List.append_nil]
  | cons a before ih =>
      have hrest := fun opened closed => ih (fun b hb => hbefore b (.tail a hb)) opened closed
      have hread : Calls.read ⟨opened, closed, .allocated, false⟩
          = ⟨opened, closed, .allocated, false⟩ := rfl
      rw [List.cons_append, bindLoop, hread]
      cases hsocket : a.socket with
      | none =>
          rw [sockets, List.filterMap_cons_none hsocket]
          exact hrest opened closed
      | some sockfd =>
          obtain ⟨hoption, hbind⟩ : a.setsockopt = true ∧ a.bind = false := by
            refine (hbefore a (.head before)).resolve_left fun hnone => ?_
            rw [hsocket] at hnone
            cases hnone
          rw [sockets, List.filterMap_cons_some hsocket]
          simp only [hoption, hbind, Calls.socket, Calls.close]
          simpa [sockets] using hrest (opened ++ [sockfd]) (closed ++ [sockfd])

theorem Address.Binds.bindLoop (h : curr.Binds sockfd) (rest : List Address) (c : Calls) :
    bindLoop (curr :: rest) c = (.bound sockfd, c.read.socket sockfd) := by
  obtain ⟨hsocket, hoption, hbind⟩ := h
  simp [Addresses.bindLoop, hsocket, hoption, hbind]

theorem Address.Fails.bindLoop (h : curr.Fails sockfd) (rest : List Address) (c : Calls) :
    bindLoop (curr :: rest) c = (.gaveUp, c.read.socket sockfd) := by
  obtain ⟨hsocket, hoption⟩ := h
  simp [Addresses.bindLoop, hsocket, hoption]

/-- The addresses that are passed over, and the one where the loop stops, if it does. -/
theorem exists_first (serv : List Address) :
    (∀ a ∈ serv, a.Passed) ∨ ∃ before curr rest sockfd, serv = before ++ curr :: rest
      ∧ (∀ a ∈ before, a.Passed) ∧ (curr.Binds sockfd ∨ curr.Fails sockfd) := by
  induction serv with
  | nil => exact .inl nofun
  | cons a serv ih =>
      rcases a.cases with hpassed | ⟨sockfd, hbinds⟩ | ⟨sockfd, hfails⟩
      · rcases ih with hall | ⟨before, curr, rest, sockfd, rfl, hbefore, hstop⟩
        · exact .inl (List.forall_mem_cons.mpr ⟨hpassed, hall⟩)
        · exact .inr ⟨a :: before, curr, rest, sockfd, rfl,
            List.forall_mem_cons.mpr ⟨hpassed, hbefore⟩, hstop⟩
      · exact .inr ⟨[], a, serv, sockfd, rfl, nofun, .inl hbinds⟩
      · exact .inr ⟨[], a, serv, sockfd, rfl, nofun, .inr hfails⟩

/-- The loop gets to an address at which it stops with a socket. -/
def Lookup.Stops (stop : Address → ℕ → Prop) (getaddrinfo : Lookup) (sockfd : ℕ) : Prop :=
  ∃ before curr rest, getaddrinfo = .found (before ++ curr :: rest)
    ∧ (∀ a ∈ before, a.Passed) ∧ stop curr sockfd

theorem server_of_binds (h : getaddrinfo.Stops Address.Binds sockfd) (getnameinfo listen : Bool) :
    ∃ closed, server getaddrinfo getnameinfo listen
      = ⟨⟨closed ++ [sockfd], closed, .freed, true⟩,
          if getnameinfo ∧ listen then .socket sockfd else .failed⟩ := by
  obtain ⟨before, curr, rest, rfl, hbefore, hbinds⟩ := h
  refine ⟨[] ++ sockets before, ?_⟩
  simp only [server, Calls.start, bindLoop_of_passed hbefore, hbinds.bindLoop]
  rfl

theorem server_of_fails (h : getaddrinfo.Stops Address.Fails sockfd) (getnameinfo listen : Bool) :
    ∃ closed, server getaddrinfo getnameinfo listen
      = ⟨⟨closed ++ [sockfd], closed, .allocated, false⟩, .failed⟩ := by
  obtain ⟨before, curr, rest, rfl, hbefore, hfails⟩ := h
  refine ⟨[] ++ sockets before, ?_⟩
  simp only [server, Calls.start, bindLoop_of_passed hbefore, hfails.bindLoop]
  rfl

/-- Otherwise everything has been closed again. -/
theorem server_cases (getaddrinfo : Lookup) (getnameinfo listen : Bool) :
    (∃ sockfd, getaddrinfo.Stops Address.Binds sockfd)
      ∨ (∃ sockfd, getaddrinfo.Stops Address.Fails sockfd)
      ∨ ∃ closed memory, server getaddrinfo getnameinfo listen
        = ⟨⟨closed, closed, memory, false⟩, .failed⟩ := by
  cases getaddrinfo with
  | error => exact .inr (.inr ⟨[], .unset, rfl⟩)
  | found serv =>
      rcases exists_first serv with hall | ⟨before, curr, rest, sockfd, rfl, hbefore, hstop⟩
      · refine .inr (.inr ⟨[] ++ sockets serv, .allocated, ?_⟩)
        have hloop := bindLoop_of_passed hall [] [] []
        rw [List.append_nil] at hloop
        simp only [server, Calls.start, hloop, bindLoop]
      · rcases hstop with hbinds | hfails
        · exact .inl ⟨sockfd, before, curr, rest, rfl, hbefore, hbinds⟩
        · exact .inr (.inl ⟨sockfd, before, curr, rest, rfl, hbefore, hfails⟩)

theorem stray_server_iff (getaddrinfo : Lookup) (getnameinfo listen : Bool) :
    (server getaddrinfo getnameinfo listen).stray = true
      ↔ ∃ sockfd, getaddrinfo.Stops Address.Binds sockfd := by
  constructor
  · intro hstray
    rcases server_cases getaddrinfo getnameinfo listen with hbinds | ⟨_, hfails⟩ | ⟨_, _, hserver⟩
    · exact hbinds
    · obtain ⟨closed, hserver⟩ := server_of_fails hfails getnameinfo listen
      rw [hserver] at hstray
      cases hstray
    · rw [hserver] at hstray
      cases hstray
  · rintro ⟨sockfd, hbinds⟩
    obtain ⟨closed, hserver⟩ := server_of_binds hbinds getnameinfo listen
    rw [hserver]

theorem result_server_iff (getaddrinfo : Lookup) (getnameinfo listen : Bool) (sockfd : ℕ) :
    (server getaddrinfo getnameinfo listen).result = .socket sockfd
      ↔ getaddrinfo.Stops Address.Binds sockfd ∧ getnameinfo = true ∧ listen = true := by
  constructor
  · intro hresult
    rcases server_cases getaddrinfo getnameinfo listen with
      ⟨_, hbinds⟩ | ⟨_, hfails⟩ | ⟨_, _, hserver⟩
    · obtain ⟨closed, hserver⟩ := server_of_binds hbinds getnameinfo listen
      rw [hserver] at hresult
      dsimp only at hresult
      split_ifs at hresult with hboth
      cases hresult
      exact ⟨hbinds, hboth⟩
    · obtain ⟨closed, hserver⟩ := server_of_fails hfails getnameinfo listen
      rw [hserver] at hresult
      cases hresult
    · rw [hserver] at hresult
      cases hresult
  · rintro ⟨hbinds, hboth⟩
    obtain ⟨closed, hserver⟩ := server_of_binds hbinds getnameinfo listen
    rw [hserver]
    exact if_pos hboth

/-- The descriptors that are open in the end. A number may have been opened again behind a close. -/
def Ended.left (e : Ended) : List ℕ := e.opened.diff e.closed

theorem append_diff_left (l r : List ℕ) : (l ++ r).diff l = r := by
  induction l with
  | nil => rfl
  | cons a l ih => rw [List.cons_append, List.diff_cons, List.erase_cons_head, ih]

theorem left_server_iff (getaddrinfo : Lookup) (getnameinfo listen : Bool) (sockfd : ℕ) :
    sockfd ∈ (server getaddrinfo getnameinfo listen).left
      ↔ getaddrinfo.Stops Address.Binds sockfd ∨ getaddrinfo.Stops Address.Fails sockfd := by
  have hbinds : ∀ sockfd', getaddrinfo.Stops Address.Binds sockfd' →
      (server getaddrinfo getnameinfo listen).left = [sockfd'] := by
    intro sockfd' h
    obtain ⟨closed, hserver⟩ := server_of_binds h getnameinfo listen
    rw [hserver, Ended.left, append_diff_left]
  have hfails : ∀ sockfd', getaddrinfo.Stops Address.Fails sockfd' →
      (server getaddrinfo getnameinfo listen).left = [sockfd'] := by
    intro sockfd' h
    obtain ⟨closed, hserver⟩ := server_of_fails h getnameinfo listen
    rw [hserver, Ended.left, append_diff_left]
  constructor
  · intro hleft
    rcases server_cases getaddrinfo getnameinfo listen with
      ⟨_, hstops⟩ | ⟨_, hstops⟩ | ⟨closed, _, hserver⟩
    · rw [hbinds _ hstops, List.mem_singleton] at hleft
      exact .inl (hleft ▸ hstops)
    · rw [hfails _ hstops, List.mem_singleton] at hleft
      exact .inr (hleft ▸ hstops)
    · have hnone := append_diff_left closed []
      rw [List.append_nil] at hnone
      rw [hserver, Ended.left, hnone] at hleft
      cases hleft
  · rintro (hstops | hstops)
    · rw [hbinds _ hstops]
      exact List.mem_singleton_self _
    · rw [hfails _ hstops]
      exact List.mem_singleton_self _

/-- **`server` listens only after it has read what it has freed.** It reads the address of the
socket behind `freeaddrinfo` exactly when the loop gets to an address that can be bound, and listens
exactly when, after that, `getnameinfo` and `listen` succeed. The socket at which the loop stops is
the only one that is left open, also where `server` fails behind it. -/
theorem server_listens_iff (getaddrinfo : Lookup) (getnameinfo listen : Bool) :
    ((server getaddrinfo getnameinfo listen).stray = true
        ↔ ∃ sockfd, getaddrinfo.Stops Address.Binds sockfd)
      ∧ (∀ sockfd, (server getaddrinfo getnameinfo listen).result = .socket sockfd
        ↔ getaddrinfo.Stops Address.Binds sockfd ∧ getnameinfo = true ∧ listen = true)
      ∧ ∀ sockfd, sockfd ∈ (server getaddrinfo getnameinfo listen).left
        ↔ getaddrinfo.Stops Address.Binds sockfd ∨ getaddrinfo.Stops Address.Fails sockfd :=
  ⟨stray_server_iff _ _ _, result_server_iff _ _ _, left_server_iff _ _ _⟩

end Networking.Relay.Addresses

import Networking.Stream.Socket

/-!
# The constructors that open a descriptor

Both go over the addresses that `getaddrinfo` found and keep `_fd` from the last one that they
tried. The server resets it when no address worked. The client closes it once more and leaves it.
-/

namespace Networking.Stream

open Wire

/-- `_type == client && _fd > 0`. -/
def Socket.isConnected (s : Socket) : Bool := s.type = .client && 0 < s.fd

/-- `_type == server && _fd > 0`. -/
def Socket.isAcceptable (s : Socket) : Bool := s.type = .server && 0 < s.fd

/-- What the system answers to the calls made for an address. -/
structure Address where
  socket : ℤ
  setsockopt : Bool
  bind : Bool
  listen : Bool
  connect : Bool

inductive Status
  | created
  | bound
  | listening
  | connected
  deriving DecidableEq

/-- The descriptors that a constructor has open, and for the record those that it has opened and
closed. -/
structure Table where
  status : ℤ → Option Status
  opened : List ℤ
  closed : List ℤ

def Table.empty : Table := ⟨fun _ => none, [], []⟩

def Table.set (k : Table) (fd : ℤ) (status : Status) : Table :=
  { k with status := Function.update k.status fd (some status) }

def Table.socket (k : Table) (fd : ℤ) : Table :=
  { k.set fd .created with opened := k.opened ++ [fd] }

def Table.close (k : Table) (fd : ℤ) : Table :=
  { k with status := Function.update k.status fd none, closed := k.closed ++ [fd] }

/-- The loop of the server, with the address that it stops at. -/
def bindAny : List Address → Table → ℤ → Table × ℤ × Option Address
  | [], k, fd => (k, fd, none)
  | curr :: rest, k, _ =>
      if curr.socket < 0 then
        bindAny rest k curr.socket
      else if ¬curr.setsockopt then
        bindAny rest ((k.socket curr.socket).close curr.socket) curr.socket
      else if curr.bind then
        ((k.socket curr.socket).set curr.socket .bound, curr.socket, some curr)
      else
        bindAny rest ((k.socket curr.socket).close curr.socket) curr.socket

/-- The server, with the counter that `new` gives. The result of `getaddrinfo`, 0, is put into `_fd`
at first. -/
def server (c : ℕ) (port : BitVec 16) (servers : List Address) : Table × Socket :=
  match bindAny servers .empty 0 with
  | (k, _, none) => (k, ⟨[], port, .server, -1, none⟩)
  | (k, fd, some curr) =>
      if curr.listen then
        (k.set fd .listening, ⟨[], port, .server, fd, some c⟩)
      else
        (k.close fd, ⟨[], port, .server, -1, none⟩)

/-- The loop of the client, and whether it stops at an address. -/
def connectAny : List Address → Table → ℤ → Table × ℤ × Bool
  | [], k, fd => (k, fd, false)
  | curr :: rest, k, _ =>
      if curr.socket < 0 then
        connectAny rest k curr.socket
      else if curr.connect then
        ((k.socket curr.socket).set curr.socket .connected, curr.socket, true)
      else
        connectAny rest ((k.socket curr.socket).close curr.socket) curr.socket

def client (c : ℕ) (host : Bytes) (port : BitVec 16) (servers : List Address) : Table × Socket :=
  match connectAny servers .empty (-1) with
  | (k, fd, false) => (k.close fd, ⟨host, port, .client, fd, none⟩)
  | (k, fd, true) => (k, ⟨host, port, .client, fd, some c⟩)

/-- The object holds a descriptor that the constructor has left open, in a given status. -/
def Holds (r : Table × Socket) (status : Status) : Prop := r.1.status r.2.fd = some status

instance (r : Table × Socket) (status : Status) : Decidable (Holds r status) :=
  inferInstanceAs (Decidable (_ = _))

/-- What the test says and whether there is a counter agree with what the object holds, and
everything else that was opened has been closed once. -/
structure Constructed (usable : Socket → Bool) (status : Status) (r : Table × Socket) : Prop where
  usable_iff : usable r.2 = true ↔ Holds r status
  count_iff : r.2.count ≠ none ↔ Holds r status
  closed_once : ∀ fd ∈ r.1.opened,
    r.1.opened.count fd = r.1.closed.count fd + if Holds r status ∧ fd = r.2.fd then 1 else 0

variable {servers : List Address} {k k' : Table} {fd fd' : ℤ} {c : ℕ} {port : BitVec 16}
  {host : Bytes}

/-! ### The loops -/

/-- Everything opened has been closed again. -/
structure Table.Clean (k : Table) : Prop where
  status : ∀ fd, k.status fd = none
  count : ∀ fd, k.opened.count fd = k.closed.count fd
  pos : ∀ fd ∈ k.opened, 0 < fd

theorem clean_empty : Table.empty.Clean := ⟨fun _ => rfl, fun _ => rfl, by simp [Table.empty]⟩

/-- One descriptor is open, and nothing else. -/
structure Table.Holding (k : Table) (fd : ℤ) (status : Status) : Prop where
  found : k.status fd = some status
  status : ∀ fd' ≠ fd, k.status fd' = none
  count : ∀ fd', k.opened.count fd' = k.closed.count fd' + if fd' = fd then 1 else 0
  pos : ∀ fd' ∈ k.opened, 0 < fd'
  pos_self : 0 < fd

theorem Table.Clean.socket (hk : k.Clean) (hfd : 0 < fd) :
    (k.socket fd).Holding fd .created := by
  refine ⟨Function.update_self .., fun fd' hne => ?_, fun fd' => ?_, fun fd' hfd' => ?_, hfd⟩
  · exact (Function.update_of_ne hne ..).trans (hk.status fd')
  · change (k.opened ++ [fd]).count fd' = k.closed.count fd' + _
    rw [← hk.count, List.count_append, List.count_singleton]
    simp only [beq_iff_eq, eq_comm (a := fd)]
  · rcases List.mem_append.mp hfd' with hmem | hmem
    · exact hk.pos fd' hmem
    · rw [List.mem_singleton.mp hmem]
      exact hfd

variable {status status' : Status}

theorem Table.Holding.set (hk : k.Holding fd status) (status' : Status) :
    (k.set fd status').Holding fd status' :=
  ⟨Function.update_self .., fun fd' hne => (Function.update_of_ne hne ..).trans (hk.status fd' hne),
    hk.count, hk.pos, hk.pos_self⟩

theorem Table.Holding.close (hk : k.Holding fd status) : (k.close fd).Clean := by
  refine ⟨fun fd' => ?_, fun fd' => ?_, hk.pos⟩
  · by_cases heq : fd' = fd
    · rw [heq]
      exact Function.update_self ..
    · exact (Function.update_of_ne heq ..).trans (hk.status fd' heq)
  · change k.opened.count fd' = (k.closed ++ [fd]).count fd'
    rw [hk.count, List.count_append, List.count_singleton]
    simp only [beq_iff_eq, eq_comm (a := fd)]

theorem bindAny_spec (hservers : ∀ a ∈ servers, a.socket ≠ 0) (hk : k.Clean) (fd : ℤ) :
    (∃ k' fd', bindAny servers k fd = (k', fd', none) ∧ k'.Clean)
      ∨ ∃ k' fd' curr, bindAny servers k fd = (k', fd', some curr) ∧ k'.Holding fd' .bound := by
  induction servers generalizing k fd with
  | nil => exact .inl ⟨k, fd, rfl, hk⟩
  | cons curr rest ih =>
      have hrest := fun a ha => hservers a (.tail curr ha)
      have hcurr := hservers curr (.head rest)
      rw [bindAny]
      split_ifs with hsocket hopt hbind
      · exact ih hrest hk _
      · have hpos : 0 < curr.socket := by omega
        exact .inr ⟨_, _, curr, rfl, (hk.socket hpos).set .bound⟩
      · exact ih hrest (hk.socket (by omega)).close _
      · exact ih hrest (hk.socket (by omega)).close _

def Address.Connects (a : Address) : Prop := 0 < a.socket ∧ a.connect = true

/-- What the loop of the client ends with. Where no address works, what the last one gave is left in
`_fd`. -/
inductive Tried (servers : List Address) (fd : ℤ) : Table × ℤ × Bool → Prop
  | refused {k : Table} {fd' : ℤ} (hclean : k.Clean) (hall : ∀ a ∈ servers, ¬a.Connects)
      (hlast : fd' = (servers.getLast?.map Address.socket).getD fd) :
      Tried servers fd (k, fd', false)
  | connected {k : Table} {fd' : ℤ} (hk : k.Holding fd' .connected)
      (hany : ∃ a ∈ servers, a.Connects) : Tried servers fd (k, fd', true)

theorem Tried.cons {curr : Address} {r : Table × ℤ × Bool} (h : Tried servers curr.socket r)
    (hfails : ¬curr.Connects) (fd : ℤ) : Tried (curr :: servers) fd r := by
  cases h with
  | refused hclean hall hlast =>
      refine .refused hclean (List.forall_mem_cons.mpr ⟨hfails, hall⟩) ?_
      rw [hlast, List.getLast?_cons, Option.map_some, Option.getD_some, Option.getD_map]
  | connected hk hany =>
      obtain ⟨a, ha, hconnects⟩ := hany
      exact .connected hk ⟨a, .tail curr ha, hconnects⟩

theorem tried_connectAny (hservers : ∀ a ∈ servers, a.socket ≠ 0) (hk : k.Clean) (fd : ℤ) :
    Tried servers fd (connectAny servers k fd) := by
  induction servers generalizing k fd with
  | nil => exact .refused hk (by simp) rfl
  | cons curr rest ih =>
      have hrest := fun a ha => hservers a (.tail curr ha)
      have hcurr := hservers curr (.head rest)
      rw [connectAny]
      split_ifs with hsocket hconnect
      · have hfails : ¬curr.Connects := fun h => absurd h.1 (by omega)
        exact (ih hrest hk curr.socket).cons hfails fd
      · have hpos : 0 < curr.socket := by omega
        exact .connected ((hk.socket hpos).set .connected) ⟨curr, .head rest, hpos, hconnect⟩
      · have hpos : 0 < curr.socket := by omega
        have hfails : ¬curr.Connects := fun h => hconnect h.2
        exact (ih hrest (hk.socket hpos).close curr.socket).cons hfails fd

/-! ### The objects -/

variable {usable : Socket → Bool} {s : Socket}

theorem Table.Clean.not_holds (hk : k.Clean) : ¬Holds (k, s) status := by
  intro hholds
  cases (hk.status s.fd).symm.trans hholds

theorem Table.Clean.constructed (hk : k.Clean) (husable : usable s = false) (hs : s.count = none) :
    Constructed usable status (k, s) := by
  refine ⟨iff_of_false (by simp [husable]) hk.not_holds,
    iff_of_false (fun h => h hs) hk.not_holds, fun fd hfd => ?_⟩
  rw [if_neg (fun h => hk.not_holds h.1), hk.count, Nat.add_zero]

theorem Table.Holding.constructed (hk : k.Holding s.fd status) (husable : usable s = true)
    (hs : s.count ≠ none) : Constructed usable status (k, s) := by
  have hholds : Holds (k, s) status := hk.found
  refine ⟨iff_of_true husable hholds, iff_of_true hs hholds, fun fd hfd => ?_⟩
  simp only [hk.count fd, hholds, true_and]

theorem server_constructed (hservers : ∀ a ∈ servers, a.socket ≠ 0) (c : ℕ) (port : BitVec 16) :
    Constructed Socket.isAcceptable .listening (server c port servers) := by
  rw [server]
  rcases bindAny_spec hservers clean_empty 0 with
    ⟨k', fd', heq, hclean⟩ | ⟨k', fd', curr, heq, hbound⟩
  · rw [heq]
    exact hclean.constructed rfl rfl
  · rw [heq]
    dsimp only
    split_ifs with hlisten
    · refine (hbound.set .listening).constructed ?_ (Option.some_ne_none c)
      simpa [Socket.isAcceptable] using hbound.pos_self
    · exact hbound.close.constructed rfl rfl

/-- An address works, or no socket was to be had for the last one. -/
def Reachable (servers : List Address) : Prop :=
  (∃ a ∈ servers, a.Connects) ∨ ∀ a, servers.getLast? = some a → a.socket < 0

/-- What the client leaves when no address worked: the descriptor closed last is closed once more.
-/
theorem not_constructed_of_usable (k : Table) (husable : usable s = true) :
    ¬Constructed usable status (k.close s.fd, s) := by
  intro h
  have hstatus : (k.close s.fd).status s.fd = none := Function.update_self ..
  cases hstatus.symm.trans (h.usable_iff.mp husable)

theorem Table.Clean.close_of_neg (hk : k.Clean) (hfd : fd ≤ 0) (hs : s.count = none)
    (husable : usable s = false) : Constructed usable status (k.close fd, s) := by
  have hclosed : ∀ fd', (k.close fd).status fd' = none := by
    intro fd'
    by_cases heq : fd' = fd
    · rw [heq]
      exact Function.update_self ..
    · exact (Function.update_of_ne heq ..).trans (hk.status fd')
  have hnot : ¬Holds (k.close fd, s) status := by
    intro hholds
    cases (hclosed s.fd).symm.trans hholds
  refine ⟨iff_of_false (by simp [husable]) hnot, iff_of_false (fun h => h hs) hnot,
    fun fd' hfd' => ?_⟩
  have hpos := hk.pos fd' hfd'
  change k.opened.count fd' = (k.closed ++ [fd]).count fd' + _
  rw [if_neg (fun h => hnot h.1), List.count_append, hk.count, List.count_singleton]
  simp only [beq_iff_eq]
  rw [if_neg (by omega), Nat.add_zero]

theorem client_constructed_iff (hservers : ∀ a ∈ servers, a.socket ≠ 0) (c : ℕ) (host : Bytes)
    (port : BitVec 16) :
    Constructed Socket.isConnected .connected (client c host port servers)
      ↔ Reachable servers := by
  have htried := tried_connectAny hservers clean_empty (-1)
  rw [client]
  generalize connectAny servers .empty (-1) = r at htried ⊢
  cases htried with
  | connected hk hany =>
      refine iff_of_true (hk.constructed ?_ (Option.some_ne_none c)) (.inl hany)
      simpa [Socket.isConnected] using hk.pos_self
  | @refused k' fd' hclean hall hlast =>
      dsimp only
      by_cases hpos : 0 < fd'
      · refine iff_of_false
          (not_constructed_of_usable (s := ⟨host, port, .client, fd', none⟩) k' ?_) ?_
        · simpa [Socket.isConnected] using hpos
        · rintro (⟨a, ha, hconnects⟩ | hneg)
          · exact hall a ha hconnects
          · cases hget : servers.getLast? with
            | none =>
                rw [hget] at hlast
                exact absurd hpos (by simp [hlast])
            | some a =>
                rw [hget] at hlast
                have hsocket := hneg a hget
                simp only [Option.map_some, Option.getD_some] at hlast
                omega
      · refine iff_of_true (hclean.close_of_neg (by omega) rfl ?_) (.inr fun a ha => ?_)
        · simpa [Socket.isConnected] using hpos
        · have hne := hservers a (List.mem_of_getLast? ha)
          rw [ha] at hlast
          simp only [Option.map_some, Option.getD_some] at hlast
          omega

/-- **The constructors.** The server always leaves an object that shows what it holds. The client
does so exactly when an address works or no socket was to be had for the last one. -/
theorem constructed_iff {addresses : List Address} (hservers : ∀ a ∈ servers, a.socket ≠ 0)
    (haddresses : ∀ a ∈ addresses, a.socket ≠ 0) (c : ℕ) (port : BitVec 16) (host : Bytes) :
    (Constructed Socket.isAcceptable .listening (server c port servers)
        ∧ Constructed Socket.isConnected .connected (client c host port addresses))
      ↔ Reachable addresses := by
  rw [client_constructed_iff haddresses]
  exact and_iff_right (server_constructed hservers c port)

def refused : Address := ⟨3, true, true, true, false⟩

/-- Refused at the only address: the descriptor is closed twice, and `is_connected` says yes. -/
theorem client_not_constructed :
    (client 0 [] 80 [refused]).2.isConnected = true ∧ (client 0 [] 80 [refused]).1.closed = [3, 3]
      ∧ ¬Constructed Socket.isConnected .connected (client 0 [] 80 [refused]) := by
  refine ⟨by decide, by decide, fun h => ?_⟩
  cases h.usable_iff.mp (by decide)

/-- Refused at the first address, and connected at the second. -/
theorem constructed_iff_sample :
    Constructed Socket.isAcceptable .listening (server 0 80 [refused])
      ∧ Constructed Socket.isConnected .connected
        (client 0 [] 80 [refused, { refused with connect := true }]) :=
  (constructed_iff (by decide) (by decide) 0 80 []).mpr
    (.inl ⟨{ refused with connect := true }, .tail _ (.head _), by decide, rfl⟩)

end Networking.Stream

import Networking.Lib.Segment
import Networking.Lib.Transition
import Networking.Lib.Wire

/-!
# The numbers that the clients send

Each client of `proj1` connects, sends one `message` with its number and waits three seconds for a
`reply`. The server is one thread: it accepts a connection, receives the message, prints the number
and replies before it accepts the next one. It calls `recv` once and does not look at the count, so
of a message that comes in pieces it takes the first, and what is missing of the number is zero. Nor
does it look at what `accept` returns.
-/

namespace Networking.Net.Numbers

open Transition Wire Segment

/-- `message` in memory: three bytes of padding stand in front of `num`. -/
structure Message where
  version : Byte
  padding : BitVec 24
  num : BitVec 32
  deriving DecidableEq

def Message.size : ℕ := 8

/-- `message(num)`. -/
def Message.new (padding : BitVec 24) (num : BitVec 32) : Message := ⟨1, padding, num⟩

def Message.image (m : Message) : Bytes :=
  m.version :: (memory 3 m.padding ++ memory 4 m.num)

def Message.ofImage (bs : Bytes) : Message :=
  ⟨bs.headD 0, ofMemory 24 ((bs.drop 1).take 3), ofMemory 32 ((bs.drop 4).take 4)⟩

/-- The message once a call of `recv` has stored some bytes at its start. -/
def Message.store (m : Message) (bs : Bytes) : Message := ofImage (bs ++ m.image.drop bs.length)

def reply : Bytes := [1]

/-- What the server prints for the bytes that `recv` has stored. -/
def received (padding : BitVec 24) (got : Bytes) : BitVec 32 :=
  swap 4 ((Message.new padding 0).store got).num

/-- What a client sends. -/
def request (padding : BitVec 24) (num : BitVec 32) : Bytes :=
  (Message.new padding (swap 4 num)).image

/-- The number without its last bytes. -/
def cut (missing : ℕ) (num : BitVec 32) : BitVec 32 := num >>> (8 * missing) <<< (8 * missing)

variable {padding padding' : BitVec 24} {num : BitVec 32} {got : Bytes}

@[simp]
theorem Message.length_image (m : Message) : m.image.length = Message.size := by
  simp [Message.image, Message.size]

theorem ofMemory_replicate_append (missing : ℕ) (bytes : Bytes) :
    ofMemory 32 (List.replicate missing 0 ++ bytes) = ofMemory 32 bytes <<< (8 * missing) := by
  induction missing with
  | zero => simp
  | succ missing ih =>
      rw [List.replicate_succ, List.cons_append, ofMemory, ih, ← BitVec.shiftLeft_add]
      simp [Nat.mul_succ]

theorem ofMemory_drop {bytes : Bytes} (hlen : bytes.length ≤ 4) (missing : ℕ) :
    ofMemory 32 (bytes.drop missing) = ofMemory 32 bytes >>> (8 * missing) := by
  apply BitVec.eq_of_getLsbD_eq
  intro j hj
  have hdiv : (8 * missing + j) / 8 = missing + j / 8 := by omega
  have hmod : (8 * missing + j) % 8 = j % 8 := by omega
  rw [BitVec.getLsbD_ushiftRight, getLsbD_ofMemory, getLsbD_ofMemory, hdiv, hmod,
    List.getD_eq_getElem?_getD, List.getD_eq_getElem?_getD, List.getElem?_drop]
  by_cases hin : 8 * missing + j < 32
  · simp [hj, hin]
  · rw [List.getElem?_eq_none (by omega)]
    simp

theorem memory_stored (hgot : got <+: request padding num) :
    memory 4 ((Message.new padding' 0).store got).num
      = (bigEndian 4 num).take (got.length - 4) ++ List.replicate (4 - (got.length - 4)) 0 := by
  have hlength := hgot.length_le
  have hfront : (request padding num).drop 4 = bigEndian 4 num := by
    rw [request, Message.image, Message.new, memory_swap_eq_bigEndian (by decide),
      List.drop_succ_cons, List.drop_left' (length_memory 3 padding)]
  have hfresh : (Message.new padding' 0).image.drop 4 = List.replicate 4 0 := by
    rw [Message.image, List.drop_succ_cons, List.drop_left' (length_memory 3 _)]
    exact (by decide : memory 4 (0 : BitVec 32) = List.replicate 4 0)
  have hreceived : got.drop 4 = (bigEndian 4 num).take (got.length - 4) := by
    rw [← hfront, ← List.drop_take, ← List.prefix_iff_eq_take.mp hgot]
  have hkept : ((Message.new padding' 0).image.drop got.length).drop (4 - got.length)
      = List.replicate (4 - (got.length - 4)) 0 := by
    have hsum : got.length + (4 - got.length) = 4 + (got.length - 4) := by omega
    rw [List.drop_drop, hsum, ← List.drop_drop, hfresh, List.drop_replicate]
  have hmemory : ((Message.new padding' 0).store got).num
      = ofMemory 32 (((got ++ (Message.new padding' 0).image.drop got.length).drop 4).take 4) := rfl
  have himage : (request padding num).length = 8 := Message.length_image _
  have hsplit : ((got ++ (Message.new padding' 0).image.drop got.length).drop 4)
      = (bigEndian 4 num).take (got.length - 4) ++ List.replicate (4 - (got.length - 4)) 0 := by
    rw [List.drop_append, hreceived, hkept]
  have hfour : ((bigEndian 4 num).take (got.length - 4)
      ++ List.replicate (4 - (got.length - 4)) (0 : Byte)).length = 4 := by
    rw [List.length_append, List.length_take, length_bigEndian, List.length_replicate]
    omega
  rw [hmemory, hsplit, List.take_of_length_le hfour.le, memory_ofMemory (by decide) hfour]

/-- **What is printed.** The bytes of the number that are not received count as zero. -/
theorem received_eq (hgot : got <+: request padding num) :
    received padding' got = cut (4 - (got.length - 4)) num := by
  have hlength : got.length ≤ 8 := hgot.length_le.trans (Message.length_image _).le
  have hmissing : (memory 4 num).length - (got.length - 4) = 4 - (got.length - 4) := by
    rw [length_memory]
  rw [received, swap, memory_stored hgot, List.reverse_append, List.reverse_replicate, bigEndian,
    List.take_reverse, List.reverse_reverse, hmissing, ofMemory_replicate_append,
    ofMemory_drop (length_memory 4 num).le, ofMemory_memory (by decide), cut]

/-! ### Clients and server -/

/-- How a client has ended: with 0, or with -1 after an error or the alarm. -/
inductive Exit
  | success
  | error
  | timeout
  deriving DecidableEq

inductive ClientPc
  | start
  | connected
  | waiting
  | exited (e : Exit)
  deriving DecidableEq

/-- The bytes on their way to the server and back, and which ends are closed. -/
structure Connection where
  up : Bytes
  down : Bytes
  shut : Bool
  closed : Bool

def Connection.init : Connection := ⟨[], [], false, false⟩

/-- `listen` and `receive_tcp`, by the connection they are at. -/
inductive ServerPc
  | accept
  | recv (i : ℕ)
  | send (i : ℕ)
  | close (i : ℕ)
  deriving DecidableEq

/-- For the record, the connections in the order in which they were made, and for each line printed
the client, if there was one, with how many bytes of the message `recv` has stored. -/
structure System where
  client : ℕ → ClientPc
  conn : ℕ → Connection
  backlog : List ℕ
  server : ServerPc
  output : List (BitVec 32)
  order : List ℕ
  served : List (Option ℕ × ℕ)

def System.start : System := ⟨fun _ => .start, fun _ => .init, [], .accept, [], [], []⟩

inductive Action
  | connect (i : ℕ)
  | send (i : ℕ) (p : Progress)
  | alarm (i : ℕ)
  | receive (i : ℕ) (p : Progress)
  | accept
  /-- `accept` fails, and so do `recv`, `send` and `close` for its -1. -/
  | acceptFailed (padding : BitVec 24)
  | receiveTcp (padding : BitVec 24) (p : Progress)
  | reply (p : Progress)
  | close

/-- A client that exits closes its end. -/
def System.exit (s : System) (i : ℕ) (e : Exit) : System :=
  { s with
    client := Function.update s.client i (.exited e)
    conn := Function.update s.conn i { s.conn i with shut := true } }

def System.write (s : System) (i : ℕ) (bytes : Bytes) : System :=
  { s with conn := Function.update s.conn i { s.conn i with up := (s.conn i).up ++ bytes } }

/-- The server goes on from `recv`, which has stored `got` and left `rest`. -/
def System.print (s : System) (i : ℕ) (padding : BitVec 24) (got rest : Bytes) : System :=
  { s with
    conn := Function.update s.conn i { s.conn i with up := rest }
    server := .send i
    output := s.output ++ [received padding got]
    served := s.served ++ [(some i, got.length)] }

/-- The same for a socket -1, of which nothing is received. -/
def System.printNobody (s : System) (padding : BitVec 24) : System :=
  { s with
    output := s.output ++ [received padding []]
    served := s.served ++ [(none, 0)] }

variable (num : ℕ → BitVec 32) (padding : ℕ → BitVec 24)

/-- A call that waits is no step. -/
def step (s : System) : Action → Option System
  | .connect i =>
      if s.client i = .start then
        some { s with
          client := Function.update s.client i .connected
          backlog := s.backlog ++ [i]
          order := s.order ++ [i] }
      else none
  | .send i p =>
      if s.client i = .connected then
        match Segment.send p (request (padding i) (num i)) with
        | none => some (s.exit i .error)
        | some bytes =>
            if bytes.length = Message.size then
              some { s.write i bytes with client := Function.update s.client i .waiting }
            else
              some ((s.write i bytes).exit i .error)
      else none
  | .alarm i => if s.client i = .waiting then some (s.exit i .timeout) else none
  | .receive i p =>
      if s.client i = .waiting then
        match Segment.recv p reply.length (s.conn i).down with
        | none => some (s.exit i .error)
        | some ([], _) => if (s.conn i).closed then some (s.exit i .error) else none
        | some (_ :: _, _) => some (s.exit i .success)
      else none
  | .accept =>
      match s.server, s.backlog with
      | .accept, i :: backlog => some { s with server := .recv i, backlog := backlog }
      | _, _ => none
  -- `listen` does not look at what `accept` returns
  | .acceptFailed padding' =>
      match s.server with
      | .accept => some (s.printNobody padding')
      | _ => none
  | .receiveTcp padding' p =>
      match s.server with
      | .recv i =>
          match Segment.recv p Message.size (s.conn i).up with
          | none => some (s.print i padding' [] (s.conn i).up)
          | some (got, rest) =>
              if got ≠ [] ∨ (s.conn i).shut then some (s.print i padding' got rest) else none
      | _ => none
  | .reply p =>
      match s.server with
      | .send i =>
          let sent := (Segment.send p reply).getD []
          some { s with
            conn := Function.update s.conn i { s.conn i with down := (s.conn i).down ++ sent }
            server := .close i }
      | _ => none
  | .close =>
      match s.server with
      | .close i =>
          some { s with
            conn := Function.update s.conn i { s.conn i with closed := true }
            server := .accept }
      | _ => none

/-! ### Every run -/

def ServerPc.current : ServerPc → List ℕ
  | .recv i => [i]
  | _ => []

/-- The clients whose numbers are printed. -/
def System.printed (s : System) : List ℕ := s.served.filterMap Prod.fst

/-- The number without the bytes of its message that are not stored, and 0 for nobody. -/
def line (num : ℕ → BitVec 32) : Option ℕ × ℕ → BitVec 32
  | (some i, stored) => cut (4 - (stored - 4)) (num i)
  | (none, _) => 0

structure Regular (s : System) : Prop where
  order : s.order = s.printed ++ s.server.current ++ s.backlog
  nodup : s.order.Nodup
  started : ∀ i ∈ s.order, s.client i ≠ .start
  /-- Nothing is taken from a connection before its number is printed. -/
  up : ∀ i, i ∉ s.printed → (s.conn i).up <+: request (padding i) (num i)
    ∧ (s.client i = .start ∨ s.client i = .connected → (s.conn i).up = [])
  output : s.output = s.served.map (line num)
  replied : ∀ i, (s.conn i).down ≠ [] ∨ s.client i = .exited .success → i ∈ s.printed
  serving : ∀ i, s.server = .send i ∨ s.server = .close i → i ∈ s.printed

theorem regular_start : Regular num padding .start where
  order := rfl
  nodup := List.nodup_nil
  started _ h := absurd h List.not_mem_nil
  up _ _ := ⟨List.nil_prefix, fun _ => rfl⟩
  output := rfl
  replied _ h := by rcases h with h | h <;> simp [System.start, Connection.init] at h
  serving _ h := by rcases h with h | h <;> cases h

variable {num : ℕ → BitVec 32} {padding : ℕ → BitVec 24} {s t : System} {i : ℕ}

theorem Regular.connect (h : Regular num padding s) (hstart : s.client i = .start) :
    Regular num padding { s with
      client := Function.update s.client i .connected
      backlog := s.backlog ++ [i]
      order := s.order ++ [i] } where
  order := by
    dsimp only
    rw [h.order, List.append_assoc]
    rfl
  nodup := by
    refine List.nodup_append.mpr ⟨h.nodup, List.pairwise_singleton _ i, fun j hj k hk => ?_⟩
    rintro rfl
    exact h.started j hj (List.mem_singleton.mp hk ▸ hstart)
  started j hj := by
    dsimp only
    by_cases hji : j = i
    · rw [hji, Function.update_self]
      decide
    · rw [Function.update_of_ne hji]
      exact h.started j ((List.mem_append.mp hj).resolve_right fun hmem =>
        hji (List.mem_singleton.mp hmem))
  up j hj := by
    obtain ⟨hfront, hnone⟩ := h.up j hj
    refine ⟨hfront, fun hpc => ?_⟩
    dsimp only at hpc
    by_cases hji : j = i
    · exact hnone (.inl (hji ▸ hstart))
    · rw [Function.update_of_ne hji] at hpc
      exact hnone hpc
  output := h.output
  replied j hj := by
    refine h.replied j (hj.imp_right fun hpc => ?_)
    dsimp only at hpc
    by_cases hji : j = i
    · rw [hji, Function.update_self] at hpc
      cases hpc
    · rwa [Function.update_of_ne hji] at hpc
  serving := h.serving

/-- A client writes to its connection, or moves on, or both. -/
theorem Regular.client (h : Regular num padding s) {pc : ClientPc} {c : Connection}
    (hstarted : pc ≠ .start) (hnot : pc ≠ .connected)
    (hup : i ∉ s.printed → c.up <+: request (padding i) (num i))
    (hdown : c.down = (s.conn i).down)
    (hsuccess : pc = .exited .success → i ∈ s.printed) :
    Regular num padding { s with
      client := Function.update s.client i pc
      conn := Function.update s.conn i c } where
  order := h.order
  nodup := h.nodup
  started j hj := by
    dsimp only
    by_cases hji : j = i
    · rw [hji, Function.update_self]
      exact hstarted
    · rw [Function.update_of_ne hji]
      exact h.started j hj
  up j hj := by
    dsimp only
    by_cases hji : j = i
    · subst hji
      rw [Function.update_self, Function.update_self]
      exact ⟨hup hj, fun hpc => absurd hpc (not_or.mpr ⟨hstarted, hnot⟩)⟩
    · rw [Function.update_of_ne hji, Function.update_of_ne hji]
      exact h.up j hj
  output := h.output
  replied j hj := by
    dsimp only at hj
    by_cases hji : j = i
    · subst hji
      rw [Function.update_self, Function.update_self] at hj
      rcases hj with hdata | hpc
      · exact h.replied j (.inl (hdown ▸ hdata))
      · exact hsuccess hpc
    · rw [Function.update_of_ne hji, Function.update_of_ne hji] at hj
      exact h.replied j hj
  serving := h.serving

theorem Regular.exit (h : Regular num padding s) (i : ℕ) (e : Exit)
    (hsuccess : e = .success → i ∈ s.printed) : Regular num padding (s.exit i e) :=
  h.client (c := { s.conn i with shut := true }) nofun nofun (fun hi => (h.up i hi).1) rfl
    fun heq => hsuccess (ClientPc.exited.inj heq)

theorem Regular.send (h : Regular num padding s) {p : Progress}
    (hstep : step num padding s (.send i p) = some t) : Regular num padding t := by
  obtain ⟨hpc, hstep⟩ := Option.ite_none_right_eq_some.mp hstep
  split at hstep
  · cases hstep
    exact h.exit i .error nofun
  · rename_i bytes hsend
    have hup : i ∉ s.printed → (s.conn i).up ++ bytes <+: request (padding i) (num i) := by
      intro hi
      rw [(h.up i hi).2 (.inr hpc), List.nil_append]
      exact (send_spec hsend).1
    split_ifs at hstep
    · cases hstep
      exact h.client (c := { s.conn i with up := (s.conn i).up ++ bytes }) nofun nofun hup rfl nofun
    · cases hstep
      have hexit : (s.write i bytes).exit i .error = { s with
          client := Function.update s.client i (.exited .error)
          conn := Function.update s.conn i
            { s.conn i with up := (s.conn i).up ++ bytes, shut := true } } := by
        simp [System.exit, System.write]
      rw [hexit]
      exact h.client nofun nofun hup rfl nofun

theorem Regular.print (h : Regular num padding s) (hserver : s.server = .recv i)
    (padding' : BitVec 24) {got rest : Bytes} (hgot : got ++ rest = (s.conn i).up) :
    Regular num padding (s.print i padding' got rest) := by
  have horder := h.order
  rw [hserver] at horder
  have hnodup := h.nodup
  rw [horder, ServerPc.current] at hnodup
  have hnot : i ∉ s.printed := by
    intro hmem
    rw [List.append_assoc, List.nodup_append] at hnodup
    exact hnodup.2.2 i hmem i List.mem_cons_self rfl
  have hprinted : (s.print i padding' got rest).printed = s.printed ++ [i] := by
    rw [System.printed, System.print, List.filterMap_append]
    rfl
  have hfront : got <+: request (padding i) (num i) :=
    (List.prefix_append got rest).trans (hgot ▸ (h.up i hnot).1)
  refine ⟨?_, h.nodup, h.started, fun j hj => ?_, ?_, fun j hj => ?_, fun j hj => ?_⟩
  · rw [hprinted]
    change s.order = s.printed ++ [i] ++ [] ++ s.backlog
    rw [horder, ServerPc.current, List.append_nil]
  · rw [hprinted, List.mem_append, List.mem_singleton, not_or] at hj
    change (Function.update s.conn i _ j).up <+: _ ∧ (_ → (Function.update s.conn i _ j).up = [])
    rw [Function.update_of_ne hj.2]
    exact h.up j hj.1
  · rw [System.print, List.map_append, ← h.output, received_eq hfront]
    rfl
  · rw [hprinted, List.mem_append, List.mem_singleton]
    change (Function.update s.conn i _ j).down ≠ [] ∨ _ at hj
    by_cases hji : j = i
    · exact .inr hji
    · rw [Function.update_of_ne hji] at hj
      exact .inl (h.replied j hj)
  · rw [hprinted, List.mem_append, List.mem_singleton]
    change ServerPc.send i = .send j ∨ ServerPc.send i = .close j at hj
    rcases hj with hj | hj
    · exact .inr (ServerPc.send.inj hj).symm
    · cases hj

theorem Regular.printNobody (h : Regular num padding s) (padding' : BitVec 24) :
    Regular num padding (s.printNobody padding') := by
  have hprinted : (s.printNobody padding').printed = s.printed := by
    rw [System.printed, System.printNobody, List.filterMap_append]
    exact List.append_nil _
  have hzero : received padding' [] = 0 := by
    rw [received_eq (List.nil_prefix (l := request 0 0))]
    rfl
  refine ⟨?_, h.nodup, h.started, fun i hi => h.up i (hprinted ▸ hi), ?_, fun i hi => ?_,
    fun i hi => ?_⟩
  · rw [hprinted]
    exact h.order
  · rw [System.printNobody, List.map_append, ← h.output, hzero]
    rfl
  · rw [hprinted]
    exact h.replied i hi
  · rw [hprinted]
    exact h.serving i hi

/-- The server acts on a connection whose number it has printed. -/
theorem Regular.serve (h : Regular num padding s) (hmem : i ∈ s.printed) {c : Connection}
    {pc : ServerPc} (hbefore : s.server.current = []) (hafter : pc.current = [])
    (hserving : ∀ j, pc = .send j ∨ pc = .close j → j = i) :
    Regular num padding { s with conn := Function.update s.conn i c, server := pc } where
  order := by
    have horder := h.order
    rw [hbefore] at horder
    dsimp only
    rw [hafter]
    exact horder
  nodup := h.nodup
  started := h.started
  up j hj := by
    have hji : j ≠ i := fun heq => hj (heq ▸ hmem)
    dsimp only
    rw [Function.update_of_ne hji]
    exact h.up j hj
  output := h.output
  replied j hj := by
    dsimp only at hj
    by_cases hji : j = i
    · exact hji ▸ hmem
    · rw [Function.update_of_ne hji] at hj
      exact h.replied j hj
  serving j hj := hserving j hj ▸ hmem

theorem Regular.step {a : Action} (h : Regular num padding s)
    (hstep : step num padding s a = some t) : Regular num padding t := by
  cases a with
  | connect i =>
      obtain ⟨hpc, hstep⟩ := Option.ite_none_right_eq_some.mp hstep
      cases hstep
      exact h.connect hpc
  | send i p => exact h.send hstep
  | alarm i =>
      obtain ⟨-, hstep⟩ := Option.ite_none_right_eq_some.mp hstep
      cases hstep
      exact h.exit i .timeout nofun
  | receive i p =>
      obtain ⟨-, hstep⟩ := Option.ite_none_right_eq_some.mp hstep
      split at hstep
      · cases hstep
        exact h.exit i .error nofun
      · obtain ⟨-, hstep⟩ := Option.ite_none_right_eq_some.mp hstep
        cases hstep
        exact h.exit i .error nofun
      · rename_i b got rest hrecv
        cases hstep
        refine h.exit i .success fun _ => h.replied i (.inl ?_)
        rw [← (recv_spec hrecv).1]
        exact List.cons_ne_nil _ _
  | accept =>
      simp only [Numbers.step] at hstep
      split at hstep
      · rename_i i backlog hserver hbacklog
        cases hstep
        refine { h with order := ?_, serving := nofun }
        rw [h.order, hserver, hbacklog]
        simp [ServerPc.current, System.printed]
      · cases hstep
  | acceptFailed padding' =>
      simp only [Numbers.step] at hstep
      split at hstep
      · cases hstep
        exact h.printNobody padding'
      · cases hstep
  | receiveTcp padding' p =>
      simp only [Numbers.step] at hstep
      split at hstep
      · rename_i i hserver
        split at hstep
        · cases hstep
          exact h.print hserver padding' (List.nil_append _)
        · rename_i got rest hrecv
          obtain ⟨-, hstep⟩ := Option.ite_none_right_eq_some.mp hstep
          cases hstep
          exact h.print hserver padding' (recv_spec hrecv).1
      · cases hstep
  | reply p =>
      simp only [Numbers.step] at hstep
      split at hstep
      · rename_i i hserver
        cases hstep
        refine h.serve (h.serving i (.inl hserver)) (by rw [hserver]; rfl) rfl ?_
        rintro j (hj | hj)
        · cases hj
        · exact (ServerPc.close.inj hj).symm
      · cases hstep
  | close =>
      simp only [Numbers.step] at hstep
      split at hstep
      · rename_i i hserver
        cases hstep
        refine h.serve (h.serving i (.inr hserver)) (by rw [hserver]; rfl) rfl ?_
        rintro j (hj | hj)
        · cases hj
        · cases hj
      · cases hstep

/-- **The server prints the numbers in order.** In every run, with any number of clients, the lines
printed are one for each client that has been served, in the order of their connections: its number
without the bytes of its message that one `recv` has not stored. Between them stands a 0 for each
call of `accept` that has failed. A client that has exited with 0 is among those served. -/
theorem printed_in_order (hreach : Reaches (Numbers.step num padding) (fun _ _ => True) .start s) :
    s.output = s.served.map (line num)
      ∧ s.served.filterMap Prod.fst <+: s.order ∧ s.order.Nodup
      ∧ ∀ i, s.client i = .exited .success → i ∈ s.served.filterMap Prod.fst := by
  have h : Regular num padding s :=
    hreach.invariant (regular_start num padding) fun _ _ _ ht _ hstep => ht.step hstep
  refine ⟨h.output, ?_, h.nodup, fun i hi => h.replied i (.inr hi)⟩
  have horder := h.order
  rw [List.append_assoc] at horder
  rw [horder]
  exact List.prefix_append _ _

/-- Client 1 sends the number 258, of whose message seven bytes arrive first, and one `accept` fails
before it. -/
theorem printed_in_order_sample :
    ∃ s : System, s.output = [7, 0, 256]
      ∧ (s.client 1 = .exited .success ∧ s.served = [(some 0, 8), (none, 0), (some 1, 7)])
      ∧ s.output = s.served.map (line fun i => if i = 0 then 7 else 258)
      ∧ 1 ∈ s.served.filterMap Prod.fst := by
  have hrun : (follow (Numbers.step (fun i => if i = 0 then 7 else 258) fun _ => 0)
      (fun _ _ => True) .start [.connect 0, .connect 1, .send 1 .whole, .accept, .send 0 .whole,
        .receiveTcp 0 .whole, .alarm 0, .reply .whole, .close, .acceptFailed 0, .accept,
        .receiveTcp 0 (.upTo 7), .reply .whole, .receive 1 .whole]).map
          (fun s => (s.output, s.client 1, s.served))
      = some ([7, 0, 256], .exited .success, [(some 0, 8), (none, 0), (some 1, 7)]) := by
    rfl
  obtain ⟨s, hfollow, hs⟩ := Option.map_eq_some_iff.mp hrun
  obtain ⟨houtput, hclient, hserved⟩ : s.output = [7, 0, 256] ∧ s.client 1 = .exited .success
      ∧ s.served = [(some 0, 8), (none, 0), (some 1, 7)] := by
    simpa only [Prod.mk.injEq] using hs
  obtain ⟨hlines, -, -, hreplied⟩ := printed_in_order (reaches_of_follow _ hfollow)
  exact ⟨s, houtput, ⟨hclient, hserved⟩, hlines, hreplied 1 hclient⟩

/-! ### A client that sends nothing -/

/-- Steps of other clients, and of the server while `recv` does not fail. -/
def Action.Spares (i : ℕ) : Action → Prop
  | .connect j | .send j _ | .alarm j | .receive j _ => j ≠ i
  | .receiveTcp _ p => p ≠ .failed
  | _ => True

/-- The server is receiving from a client that has sent nothing and has not closed. -/
structure Blocked (i : ℕ) (s : System) : Prop where
  server : s.server = .recv i
  up : (s.conn i).up = []
  shut : (s.conn i).shut = false

theorem Blocked.conn (h : Blocked i s) {j : ℕ} (hji : j ≠ i) (hserver : t.server = s.server)
    {c : Connection} (hconn : t.conn = Function.update s.conn j c) : Blocked i t := by
  refine ⟨hserver.trans h.server, ?_, ?_⟩
  · rw [hconn, Function.update_of_ne hji.symm]
    exact h.up
  · rw [hconn, Function.update_of_ne hji.symm]
    exact h.shut

theorem Blocked.step {a : Action} (h : Blocked i s) (hspares : a.Spares i)
    (hstep : step num padding s a = some t) : Blocked i t ∧ t.served = s.served := by
  cases a with
  | connect j =>
      obtain ⟨-, hstep⟩ := Option.ite_none_right_eq_some.mp hstep
      cases hstep
      exact ⟨⟨h.server, h.up, h.shut⟩, rfl⟩
  | send j p =>
      obtain ⟨-, hstep⟩ := Option.ite_none_right_eq_some.mp hstep
      split at hstep
      · cases hstep
        exact ⟨h.conn hspares rfl rfl, rfl⟩
      · split_ifs at hstep
        · cases hstep
          exact ⟨h.conn hspares rfl rfl, rfl⟩
        · cases hstep
          refine ⟨(h.conn (t := s.write j _) hspares rfl rfl).conn hspares rfl rfl, rfl⟩
  | alarm j =>
      obtain ⟨-, hstep⟩ := Option.ite_none_right_eq_some.mp hstep
      cases hstep
      exact ⟨h.conn hspares rfl rfl, rfl⟩
  | receive j p =>
      obtain ⟨-, hstep⟩ := Option.ite_none_right_eq_some.mp hstep
      split at hstep
      · cases hstep
        exact ⟨h.conn hspares rfl rfl, rfl⟩
      · obtain ⟨-, hstep⟩ := Option.ite_none_right_eq_some.mp hstep
        cases hstep
        exact ⟨h.conn hspares rfl rfl, rfl⟩
      · cases hstep
        exact ⟨h.conn hspares rfl rfl, rfl⟩
  | receiveTcp padding' p =>
      simp only [Numbers.step, h.server, h.up, recv_closed hspares, h.shut] at hstep
      simp at hstep
  | accept | acceptFailed _ | reply _ | close =>
      simp only [Numbers.step, h.server] at hstep
      cases hstep

/-- **One silent client blocks all.** While a client that has been accepted neither sends nor
closes, no number is printed, and no other client exits with 0 unless its number has been printed
before. -/
theorem silent_client_blocks
    (hreach : Reaches (Numbers.step num padding) (fun _ _ => True) .start s)
    (hblocked : Blocked i s)
    (hlater : Reaches (Numbers.step num padding) (fun _ a => a.Spares i) s t) :
    t.output = s.output ∧ ∀ j, t.client j = .exited .success → j ∈ s.served.filterMap Prod.fst := by
  obtain ⟨-, hserved⟩ : Blocked i t ∧ t.served = s.served :=
    hlater.invariant (P := fun t => Blocked i t ∧ t.served = s.served) ⟨hblocked, rfl⟩
      fun _ _ _ ht hspares hstep =>
        ⟨(ht.1.step hspares hstep).1, (ht.1.step hspares hstep).2.trans ht.2⟩
  have hs : Regular num padding s :=
    hreach.invariant (regular_start num padding) fun _ _ _ ht _ hstep => ht.step hstep
  have ht : Regular num padding t :=
    hlater.invariant hs fun _ _ _ ht _ hstep => ht.step hstep
  refine ⟨?_, fun j hj => ?_⟩
  · rw [ht.output, hs.output, hserved]
  · rw [← hserved]
    exact ht.replied j (.inr hj)

/-- Client 1 has sent its number and gives up, while client 0 has connected before it. -/
theorem silent_client_blocks_sample :
    ∃ s t : System, (Blocked 0 s ∧ s.backlog = [1]) ∧ t.client 1 = .exited .timeout
      ∧ t.output = s.output := by
  have hrun : (follow (Numbers.step (fun _ => 7) fun _ => 0) (fun _ _ => True) .start
      [.connect 0, .connect 1, .send 1 .whole, .accept]).map (fun s => (s.server, (s.conn 0).up,
        (s.conn 0).shut, s.backlog, s.client 1))
      = some (.recv 0, [], false, [1], .waiting) := by
    rfl
  obtain ⟨s, hfollow, hs⟩ := Option.map_eq_some_iff.mp hrun
  obtain ⟨hserver, hup, hshut, hbacklog, hclient⟩ : s.server = .recv 0 ∧ (s.conn 0).up = []
      ∧ (s.conn 0).shut = false ∧ s.backlog = [1] ∧ s.client 1 = .waiting := by
    simpa only [Prod.mk.injEq] using hs
  have hlater : Reaches (Numbers.step (fun _ => 7) fun _ => 0) (fun _ a => a.Spares 0) s
      (s.exit 1 .timeout) := .tail (a := .alarm 1) .refl Nat.one_ne_zero (if_pos hclient)
  have hblocked : Blocked 0 s := ⟨hserver, hup, hshut⟩
  refine ⟨s, s.exit 1 .timeout, ⟨hblocked, hbacklog⟩, by simp [System.exit], ?_⟩
  exact (silent_client_blocks (reaches_of_follow _ hfollow) hblocked hlater).1

end Networking.Net.Numbers

import Networking.Lib.Fuel
import Networking.Resolver.Packet
import Networking.Resolver.Question

/-!
# Where the resolver asks

`main` calls `attempt` on the root servers that `initialize` lists, and from there on the servers
queried are those that responses have named. The program takes a response for what it is: any server
may name any other. So what can be said of a run is that the servers on the stack are a chain of
referrals from a root server, and that the program ends with what the last of them has said.
-/

namespace Networking.Resolver

open Wire Transition Fuel

/-- `initialize`. -/
def initializeServers : List Server :=
  [⟨ofString "198.41.0.4", ofString "ns.internic.net"⟩,
    ⟨ofString "192.228.79.201", ofString "ns1.isi.edu"⟩,
    ⟨ofString "192.33.4.12", ofString "c.psi.net"⟩,
    ⟨ofString "128.8.10.90", ofString "terp.umd.edu"⟩,
    ⟨ofString "192.203.230.10", ofString "ns.nasa.gov"⟩,
    ⟨ofString "192.5.5.241", ofString "ns.isc.org"⟩,
    ⟨ofString "192.112.36.4", ofString "ns.nic.ddn.mil"⟩,
    ⟨ofString "128.63.2.53", ofString "aos.arl.army.mil"⟩,
    ⟨ofString "192.36.148.17", ofString "nic.nordu.net"⟩,
    ⟨ofString "192.58.128.30", ofString "Verisign"⟩,
    ⟨ofString "193.0.14.129", ofString "RIPE NCC"⟩,
    ⟨ofString "199.7.83.42", ofString "ICANN"⟩,
    ⟨ofString "202.12.27.33", ofString "WIDE Project"⟩]

/-- A datagram sent to a server, and what `sendOut` has returned for it, unless it has ended the
program. -/
structure Exchange where
  server : Server
  datagram : Bytes
  offset : ℕ
  response : Option Bytes

/-- `parse(sendOut(IP, datagram), numbytes)`, where `sendOut` may end in `FATAL`. -/
def Exchange.result (fuel : ℕ) (x : Exchange) : Except Fault Parsed :=
  match x.response with
  | none => .ok .fatal
  | some results => parse fuel results x.offset

/-- What the world does in a round: the value of `rand()`, and what comes back from an address. -/
structure Outside where
  rand : ℕ
  sendOut : Bytes → Bytes → Option Bytes

def Outside.exchange (o : Outside) (s : Server) (datagram : Bytes) (offset : ℕ) : Exchange :=
  ⟨s, datagram, offset, o.sendOut s.ip datagram⟩

def Outside.input (fuel : ℕ) (o : Outside) : Input where
  rand := o.rand
  reply s datagram numbytes := (o.exchange s datagram numbytes).result fuel

/-- A run of the program, with all that it has sent and heard. -/
structure Resolving where
  config : Config
  exchanges : List Exchange

/-- The program at `c`, which has sent one datagram more or none. -/
def Resolving.after (w : Resolving) (o : Outside) (c : Config) : Resolving :=
  ⟨c, w.exchanges
    ++ (c.sent.drop w.config.sent.length).map fun e => o.exchange e.server e.datagram e.offset⟩

def resolve (fuel : ℕ) (pktHeader : Header) (pktPayload : Question) (w : Resolving) (o : Outside) :
    Option Resolving :=
  (step pktHeader pktPayload w.config (o.input fuel)).map (w.after o)

/-- `main`, for a header and a question. -/
def Resolving.main : Resolving := ⟨start initializeServers [], []⟩

variable {fuel : ℕ} {pktHeader : Header} {pktPayload : Question} {w w' : Resolving} {o : Outside}
  {x : Exchange} {s : Server} {results : Bytes} {f : Frame} {callers : List Frame}
  {exchanges exchanges' : List Exchange} {stack : List Server}

theorem exchanges_after {c : Config} (hsent : c.sent = w.config.sent) :
    (w.after o c).exchanges = w.exchanges := by
  rw [Resolving.after, hsent, List.drop_length, List.map_nil, List.append_nil]

theorem exchanges_after_concat {c : Config} {e : Sent} (hsent : c.sent = w.config.sent ++ [e]) :
    (w.after o c).exchanges = w.exchanges ++ [o.exchange e.server e.datagram e.offset] := by
  rw [Resolving.after, hsent, List.drop_left, List.map_singleton]

/-! ### What a response names -/

/-- The response refers to the server. -/
def Exchange.Names (fuel : ℕ) (x : Exchange) (s : Server) : Prop :=
  ∃ list, x.result fuel = .ok (.servers list) ∧ s ∈ list

/-- The address is the text of at most four bytes of the response, and the name is what `recParse`
reads somewhere in it. -/
structure ReadFrom (fuel : ℕ) (results : Bytes) (s : Server) : Prop where
  ip : ∃ location ≤ results.length, s.ip = parseIP ((results.drop location).take 4) false
  name : ∃ location next, recParse results fuel location true = .ok (s.name, next)

theorem readFields_name {location next : ℕ} {fields : Fields}
    (h : readFields fuel results location = .ok (fields, next)) :
    ∃ next, recParse results fuel location true = .ok (fields.name, next) := by
  obtain ⟨⟨name, loc⟩, hname, h⟩ := bind_eq_ok.mp h
  obtain ⟨⟨type, loc₁⟩, -, h⟩ := bind_eq_ok.mp h
  obtain ⟨⟨cls, loc₂⟩, -, h⟩ := bind_eq_ok.mp h
  obtain ⟨⟨ttl, loc₃⟩, -, h⟩ := bind_eq_ok.mp h
  obtain ⟨⟨rdlength, loc₄⟩, -, h⟩ := bind_eq_ok.mp h
  cases h
  exact ⟨loc, hname⟩

theorem readFrom_of_addRecords {count location : ℕ} {newList list : List Server}
    (h : addRecords fuel results count location newList = .ok list) (hs : s ∈ list) :
    s ∈ newList ∨ ReadFrom fuel results s := by
  induction count generalizing location newList with
  | zero =>
      cases h
      exact .inl hs
  | succ count ih =>
      obtain ⟨⟨fields, loc⟩, hread, h⟩ := bind_eq_ok.mp h
      obtain ⟨bytes, hbytes, h⟩ := bind_eq_ok.mp h
      rcases ih h with hnew | hfrom
      · split_ifs at hnew with hfour
        · rcases List.mem_append.mp hnew with hold | hlast
          · exact .inl hold
          · right
            obtain ⟨next, hname⟩ := readFields_name hread
            rw [List.mem_singleton.mp hlast]
            refine ⟨⟨loc, ?_⟩, ⟨location, next, hname⟩⟩
            rw [substr] at hbytes
            split_ifs at hbytes with hle
            cases hbytes
            refine ⟨hle, ?_⟩
            rw [hfour]
            rfl
        · exact .inl hnew
      · exact .inr hfrom

theorem readFrom_of_nextParse {location : ℕ} {ancount nscount arcount : BitVec 16}
    {list : List Server}
    (h : nextParse fuel results location ancount nscount arcount = .ok list) (hs : s ∈ list) :
    ReadFrom fuel results s := by
  obtain ⟨loc₁, -, h⟩ := bind_eq_ok.mp h
  obtain ⟨loc₂, -, h⟩ := bind_eq_ok.mp h
  exact (readFrom_of_addRecords h hs).resolve_left List.not_mem_nil

/-- The bytes of a response that `parse` looks at before the records. -/
structure Head (results : Bytes) (aa : Bool) (rcode : ℕ) (ancount : Byte) : Prop where
  flags : ∃ c2 c3, charAt results 2 = .ok c2 ∧ charAt results 3 = .ok c3 ∧ bit c2 2 = aa
    ∧ (c3 &&& 15).toNat = rcode
  count : charAt results 7 = .ok ancount

theorem signExtend_eq_zero : ∀ c : Byte, c.signExtend 16 = 0 ↔ c = 0 := by
  decide

/-- What `parse` makes of a response, by its first bytes. -/
theorem parse_cases {qSize : ℕ} {result : Parsed} (h : parse fuel results qSize = .ok result) :
    ∃ aa rcode ancount, Head results aa rcode ancount ∧
      match result with
      | .successParse records location count => aa = true ∧ rcode = 0 ∧ ancount ≠ 0
          ∧ records = results ∧ location = qSize ∧ count = ancount.signExtend 16
      | .noRecord => aa = true ∧ rcode = 3 ∧ ancount = 0
      | .fatal => rcode = 1
      | .servers list => ∀ s ∈ list, rcode = 0 ∧ ReadFrom fuel results s := by
  obtain ⟨c2, h2, h⟩ := bind_eq_ok.mp h
  obtain ⟨c3, h3, h⟩ := bind_eq_ok.mp h
  obtain ⟨c7, h7, h⟩ := bind_eq_ok.mp h
  obtain ⟨c9, h9, h⟩ := bind_eq_ok.mp h
  obtain ⟨c11, h11, h⟩ := bind_eq_ok.mp h
  refine ⟨bit c2 2, (c3 &&& 15).toNat, c7, ⟨⟨c2, c3, h2, h3, rfl, rfl⟩, h7⟩, ?_⟩
  dsimp only at h
  split at h
  case h_1 hrcode =>
    split_ifs at h with haa
    · cases h
      simp only [Bool.and_eq_true, decide_eq_true_eq] at haa
      exact ⟨haa.1, hrcode, fun h => haa.2 ((signExtend_eq_zero c7).mpr h), rfl, rfl, rfl⟩
    · obtain ⟨list, hlist, h⟩ := bind_eq_ok.mp h
      cases h
      exact fun s hs => ⟨hrcode, readFrom_of_nextParse hlist hs⟩
  case h_2 hrcode =>
    cases h
    exact hrcode
  case h_3 hrcode =>
    split_ifs at h with haa
    · cases h
      simp only [Bool.and_eq_true, decide_eq_true_eq] at haa
      exact ⟨haa.1, hrcode, (signExtend_eq_zero c7).mp haa.2⟩
    · cases h
      exact fun s hs => absurd hs List.not_mem_nil
  case h_4 =>
    cases h
    exact fun s hs => absurd hs List.not_mem_nil

theorem Exchange.Names.readFrom (h : x.Names fuel s) :
    ∃ results aa ancount, x.response = some results ∧ Head results aa 0 ancount
      ∧ ReadFrom fuel results s := by
  obtain ⟨list, hresult, hs⟩ := h
  rw [Exchange.result] at hresult
  split at hresult
  case h_1 => cases hresult
  case h_2 results hresponse =>
    obtain ⟨aa, rcode, ancount, hhead, hcases⟩ := parse_cases hresult
    obtain ⟨rfl, hfrom⟩ := hcases s hs
    exact ⟨results, aa, ancount, hresponse, hhead, hfrom⟩

/-! ### Chains of referrals -/

/-- The servers that may be queried once `prev` has answered, or first. -/
def Referred (fuel : ℕ) (exchanges : List Exchange) : Option Server → Server → Prop
  | none, s => s ∈ initializeServers
  | some t, s => ∃ x ∈ exchanges, x.server = t ∧ x.Names fuel s

/-- Each server of a stack, last one first, is referred to by the one below it, and the lowest is a
root server. -/
inductive Chained (fuel : ℕ) (exchanges : List Exchange) : List Server → Prop
  | nil : Chained fuel exchanges []
  | cons {s : Server} {stack : List Server} (hs : Referred fuel exchanges stack.head? s)
      (hstack : Chained fuel exchanges stack) : Chained fuel exchanges (s :: stack)

/-- The calls, innermost first, over the servers they are querying: the list of each holds only
servers that the query of its caller has named. -/
inductive Linked (fuel : ℕ) (exchanges : List Exchange) : List Frame → List Server → Prop
  | main {f : Frame} (hresponse : f.response = 0)
      (hservers : ∀ s ∈ f.servers, Referred fuel exchanges none s) :
      Linked fuel exchanges [f] []
  | nested {f g : Frame} {callers : List Frame} {t : Server} {stack : List Server}
      (hresponse : f.response = 0)
      (hservers : ∀ s ∈ f.servers, Referred fuel exchanges (some t) s)
      (ht : Referred fuel exchanges stack.head? t)
      (hcallers : Linked fuel exchanges (g :: callers) stack) :
      Linked fuel exchanges (f :: g :: callers) (t :: stack)

theorem Referred.mono (hsub : exchanges ⊆ exchanges') {prev : Option Server}
    (h : Referred fuel exchanges prev s) : Referred fuel exchanges' prev s := by
  cases prev with
  | none => exact h
  | some t =>
      obtain ⟨x, hx, hserver, hnames⟩ := h
      exact ⟨x, hsub hx, hserver, hnames⟩

theorem Chained.mono (hsub : exchanges ⊆ exchanges') (h : Chained fuel exchanges stack) :
    Chained fuel exchanges' stack := by
  induction h with
  | nil => exact .nil
  | cons hs _ ih => exact .cons (hs.mono hsub) ih

theorem Linked.mono (hsub : exchanges ⊆ exchanges') {frames : List Frame}
    (h : Linked fuel exchanges frames stack) : Linked fuel exchanges' frames stack := by
  induction h with
  | main hresponse hservers => exact .main hresponse fun s hs => (hservers s hs).mono hsub
  | nested hresponse hservers ht _ ih =>
      exact .nested hresponse (fun s hs => (hservers s hs).mono hsub) (ht.mono hsub) ih

theorem Linked.head (h : Linked fuel exchanges (f :: callers) stack) :
    f.response = 0 ∧ ∀ s ∈ f.servers, Referred fuel exchanges stack.head? s := by
  cases h with
  | main hresponse hservers => exact ⟨hresponse, hservers⟩
  | nested hresponse hservers => exact ⟨hresponse, hservers⟩

/-- The innermost call may drop servers from its list. -/
theorem Linked.sublist (h : Linked fuel exchanges (f :: callers) stack) {f' : Frame}
    (hresponse : f'.response = f.response) (hservers : f'.servers ⊆ f.servers) :
    Linked fuel exchanges (f' :: callers) stack := by
  cases h with
  | main hzero hall => exact .main (hresponse.trans hzero) fun s hs => hall s (hservers hs)
  | nested hzero hall ht hcallers =>
      exact .nested (hresponse.trans hzero) (fun s hs => hall s (hservers hs)) ht hcallers

/-! ### How a run ends -/

/-- What the last response has to be for the program to have ended as it has. -/
def Justified (fuel : ℕ) (x : Exchange) : Status → Prop
  | .answered => ∃ results ancount, x.response = some results ∧ Head results true 0 ancount
      ∧ ancount ≠ 0
  | .noRecordFound => ∃ results, x.response = some results ∧ Head results true 3 0
  | .fatal => x.response = none ∨ ∃ results aa ancount, x.response = some results
      ∧ Head results aa 1 ancount
  | .crashed fault => x.result fuel = .error fault
  | .running => True
  | .noRecordAvalible | .returned => False

theorem justified_afterParse {c : Config} (hstatus : c.status = .running) :
    Justified fuel x (afterParse c f callers (x.result fuel)).status := by
  rw [Exchange.result]
  split
  case h_1 hresponse =>
    exact .inl hresponse
  case h_2 results hresponse =>
    cases hparse : parse fuel results x.offset with
    | error fault =>
        change x.result fuel = .error fault
        rw [Exchange.result, hresponse]
        exact hparse
    | ok result =>
        obtain ⟨aa, rcode, ancount, hhead, hcases⟩ := parse_cases hparse
        match result with
        | .successParse _ _ _ =>
            obtain ⟨rfl, rfl, hcount, -⟩ := hcases
            exact ⟨results, ancount, hresponse, hhead, hcount⟩
        | .noRecord =>
            obtain ⟨rfl, rfl, rfl⟩ := hcases
            exact ⟨results, hresponse, hhead⟩
        | .fatal =>
            obtain rfl := hcases
            exact .inr ⟨results, aa, ancount, hresponse, hhead⟩
        | .servers [] =>
            rw [afterParse, hstatus]
            trivial
        | .servers (t :: list) =>
            change Justified fuel x c.status
            rw [hstatus]
            trivial

/-- The invariant of a run of the resolver. -/
structure Delegated (fuel : ℕ) (w : Resolving) : Prop where
  running : w.config.status = .running →
    Linked fuel w.exchanges w.config.frames w.config.stack.reverse
  stack : Chained fuel w.exchanges w.config.stack.reverse
  asked : ∀ (i : ℕ) (x : Exchange), w.exchanges[i]? = some x →
    ∃ prev, Referred fuel (w.exchanges.take i) prev x.server
  ended : w.config.status ≠ .running → w.config.status ≠ .noRecordAvalible →
    ∃ x, w.exchanges.getLast? = some x ∧ Justified fuel x w.config.status

theorem delegated_main (fuel : ℕ) : Delegated fuel .main where
  running _ := .main rfl fun _ hs => hs
  stack := .nil
  asked i x h := by cases h
  ended h := absurd rfl h

/-- The frames and the stack behind a round that has queried `s` and goes on. -/
theorem linked_afterParse {c : Config} {g : Frame} (hx : x ∈ exchanges)
    (hlinked : Linked fuel exchanges (g :: callers) stack) (hs : Referred fuel exchanges
      stack.head? x.server) (hstack : c.stack = stack.reverse ++ [x.server])
    (hrunning : (afterParse c g callers (x.result fuel)).status = .running) :
    Linked fuel exchanges (afterParse c g callers (x.result fuel)).frames
      (afterParse c g callers (x.result fuel)).stack.reverse := by
  match hresult : x.result fuel with
  | .error fault => simp [hresult, afterParse] at hrunning
  | .ok (.successParse _ _ _) => simp [hresult, afterParse] at hrunning
  | .ok .noRecord => simp [hresult, afterParse] at hrunning
  | .ok .fatal => simp [hresult, afterParse] at hrunning
  | .ok (.servers []) =>
      simp only [afterParse, hstack, List.dropLast_concat, List.reverse_reverse]
      exact hlinked.sublist rfl fun s hs => List.mem_of_mem_eraseIdx hs
  | .ok (.servers (t :: list)) =>
      simp only [afterParse, hstack, List.reverse_concat, List.reverse_reverse]
      exact .nested rfl (fun s hs => ⟨x, hx, rfl, _, hresult, hs⟩) hs hlinked

theorem chained_afterParse {c : Config} {g : Frame} (hchain : Chained fuel exchanges stack)
    (hs : Referred fuel exchanges stack.head? x.server)
    (hstack : c.stack = stack.reverse ++ [x.server]) (result : Except Fault Parsed) :
    Chained fuel exchanges (afterParse c g callers result).stack.reverse := by
  have hpushed : Chained fuel exchanges c.stack.reverse := by
    rw [hstack, List.reverse_concat, List.reverse_reverse]
    exact .cons hs hchain
  unfold afterParse
  split
  case h_5 =>
    simp only [hstack, List.dropLast_concat, List.reverse_reverse]
    exact hchain
  all_goals exact hpushed

theorem Delegated.query {srvNum : ℕ} (h : Delegated fuel w) (hrunning : w.config.status = .running)
    (hlinked : Linked fuel w.exchanges (f :: callers) w.config.stack.reverse)
    (hs : s ∈ f.servers) :
    Delegated fuel (w.after o (queryServer pktHeader pktPayload w.config f callers srvNum s
      (o.input fuel).reply)) := by
  set dnsPacket := writePacket pktHeader pktPayload f.dnsPacket
  set packet := dnsPacket.bytes
  set x := o.exchange s packet ((packet.length - 11) % 2 ^ 32)
  set c : Config := { w.config with
    stack := w.config.stack ++ [s]
    sent := w.config.sent ++ [⟨s, packet, (packet.length - 11) % 2 ^ 32, f.queried⟩] }
  set g : Frame := { f with dnsPacket := dnsPacket, srvNum := srvNum, queried := f.queried + 1 }
  have hquery : queryServer pktHeader pktPayload w.config f callers srvNum s (o.input fuel).reply
      = afterParse c g callers (x.result fuel) := rfl
  have hafter : w.after o (afterParse c g callers (x.result fuel))
      = ⟨afterParse c g callers (x.result fuel), w.exchanges ++ [x]⟩ := by
    rw [Resolving.after, sent_afterParse, List.drop_left]
    rfl
  have hreferred : Referred fuel w.exchanges w.config.stack.reverse.head? s := hlinked.head.2 s hs
  have hsub : w.exchanges ⊆ w.exchanges ++ [x] := List.subset_append_left _ _
  have hstack : c.stack = w.config.stack.reverse.reverse ++ [x.server] := by
    rw [List.reverse_reverse]
    rfl
  have hcaller : Linked fuel (w.exchanges ++ [x]) (g :: callers) w.config.stack.reverse :=
    (hlinked.mono hsub).sublist rfl fun _ ht => ht
  rw [hquery, hafter]
  refine ⟨fun hrun => ?_, ?_, ?_, fun _ _ => ⟨x, List.getLast?_concat, ?_⟩⟩
  · exact linked_afterParse (List.mem_append_right _ List.mem_cons_self) hcaller
      (hreferred.mono hsub) hstack hrun
  · exact chained_afterParse (h.stack.mono hsub) (hreferred.mono hsub) hstack _
  · intro i y hy
    change (w.exchanges ++ [x])[i]? = some y at hy
    change ∃ prev, Referred fuel ((w.exchanges ++ [x]).take i) prev y.server
    rw [List.getElem?_append] at hy
    split_ifs at hy with hlt
    · rw [List.take_append_of_le_length hlt.le]
      exact h.asked i y hy
    · rw [List.getElem?_singleton] at hy
      split_ifs at hy with hzero
      cases hy
      have hi : i = w.exchanges.length := by omega
      rw [hi, List.take_left]
      exact ⟨_, hreferred⟩
  · exact justified_afterParse hrunning

theorem Delegated.round (h : Delegated fuel w)
    (hstep : resolve fuel pktHeader pktPayload w o = some w') : Delegated fuel w' := by
  obtain ⟨c', hround, rfl⟩ := Option.map_eq_some_iff.mp hstep
  obtain ⟨hrunning, hround⟩ := step_round hround
  have hlinked := h.running hrunning
  cases hround with
  | @skip f callers s hframes hmem hstack =>
      rw [hframes] at hlinked
      simp only [Resolving.after, List.drop_length, List.map_nil, List.append_nil]
      exact ⟨fun _ => hlinked.sublist rfl fun t ht => List.mem_of_mem_erase ht, h.stack, h.asked,
        fun hend => absurd hrunning hend⟩
  | @query f callers srvNum s hframes hpick hstack =>
      rw [hframes] at hlinked
      exact h.query hrunning hlinked (List.mem_of_getElem? hpick)
  | @exhausted f callers hframes hservers =>
      simp only [Resolving.after, List.drop_length, List.map_nil, List.append_nil]
      exact ⟨fun hrun => (by cases hrun), h.stack, h.asked, fun _ hend => absurd rfl hend⟩
  | @leave f hframes hresponse =>
      rw [hframes] at hlinked
      exact absurd hlinked.head.1 hresponse
  | @resume f g callers hframes hresponse =>
      rw [hframes] at hlinked
      exact absurd hlinked.head.1 hresponse

/-- **The resolver asks whom it has been told to ask.** In every run of the program, whatever comes
back, each server that is asked is a root server or has been named in the response of one asked
before; the servers on the stack are a chain of such referrals; a named server's address and name
are read from the response that names it; and the program ends with an answer, or with the word
that there is none, only when the last response has said so. -/
theorem asked_referred
    (hreach : Reaches (resolve fuel pktHeader pktPayload) (fun _ _ => True) .main w) :
    (∀ i x, w.exchanges[i]? = some x →
        ∃ prev, Referred fuel (w.exchanges.take i) prev x.server)
      ∧ Chained fuel w.exchanges w.config.stack.reverse
      ∧ (∀ x ∈ w.exchanges, ∀ s, x.Names fuel s → ∃ results aa ancount,
          x.response = some results ∧ Head results aa 0 ancount ∧ ReadFrom fuel results s)
      ∧ (w.config.status ≠ .running → w.config.status ≠ .noRecordAvalible →
          ∃ x, w.exchanges.getLast? = some x ∧ Justified fuel x w.config.status) := by
  have h : Delegated fuel w :=
    hreach.invariant (delegated_main fuel) fun _ _ _ ht _ hstep => ht.round hstep
  exact ⟨h.asked, h.stack, fun x _ s hs => hs.readFrom, h.ended⟩

/-! ### A referral and an answer -/

/-- The first root server refers to `10.0.0.7`, which answers. -/
def sampleOutside : Outside where
  rand := 0
  sendOut ip _ :=
    if ip = ofString "198.41.0.4" then
      some ([0, 0, 128, 0, 0, 1, 0, 0, 0, 0, 0, 1] ++ [1, 97, 0, 0, 28, 0, 1]
        ++ [1, 110, 192, 12, 0, 1, 0, 1, 0, 0, 0, 0, 0, 4, 10, 0, 0, 7])
    else some [0, 0, 132, 0, 0, 1, 0, 1, 0, 0, 0, 0]

theorem asked_referred_sample :
    ∃ w : Resolving, (w.exchanges.map Exchange.server
          = [⟨ofString "198.41.0.4", ofString "ns.internic.net"⟩,
            ⟨ofString "10.0.0.7", ofString "n.a"⟩]
        ∧ w.config.status = .answered)
      ∧ Chained 5 w.exchanges w.config.stack.reverse
      ∧ ∃ x, w.exchanges.getLast? = some x ∧ Justified 5 x .answered := by
  have hrun : (follow (resolve 5 sampleHeader sampleQuestion) (fun _ _ => True) .main
      [sampleOutside, sampleOutside]).map (fun w => (w.exchanges.map Exchange.server,
        w.config.status)) = some ([⟨ofString "198.41.0.4", ofString "ns.internic.net"⟩,
          ⟨ofString "10.0.0.7", ofString "n.a"⟩], .answered) := by
    rfl
  obtain ⟨w, hfollow, hw⟩ := Option.map_eq_some_iff.mp hrun
  obtain ⟨hservers, hstatus⟩ := Prod.mk.inj hw
  obtain ⟨-, hchain, -, hended⟩ := asked_referred (reaches_of_follow _ hfollow)
  have hlast := hended (by rw [hstatus]; decide) (by rw [hstatus]; decide)
  rw [hstatus] at hlast
  exact ⟨w, ⟨hservers, hstatus⟩, hchain, hlast⟩

end Networking.Resolver

import Mathlib.Data.Finset.Lattice.Fold
import Networking.Resolver.Answers
import Networking.Resolver.Backtrack
import Networking.Resolver.Query

/-!
# Resolving a name

The program over a network that does its part: a server that is asked for the addresses of the host
refers to others, in a response that `parse` reads right, or answers with the addresses. Then every
call of `attempt` asks one server at most, so all that is sent is a query, and the run over bytes is
the search over the referrals, round for round. Whether it prints the addresses is a matter of dead
ends alone.
-/

namespace Networking.Resolver

open Wire Transition Fuel Descent

variable {lib : Library} {zone : List Address} {msg host : Bytes} {qSize fuel : ℕ}
  {list : List Server}

/-! ### What the servers say -/

/-- A referral to the servers of the list, of the kind that `parse` reads right. -/
def RefersTo (list : List Server) (msg : Bytes) (qSize : ℕ) : Prop :=
  ∃ (authoritative : Bool) (answers authority additional : List Record) (start next : ℕ),
    Response msg qSize authoritative answers authority additional
      ∧ ¬(authoritative = true ∧ answers ≠ [])
      ∧ InStep msg qSize answers authority additional start
      ∧ RecordsAt Near (· = .pointer) msg start additional next
      ∧ (∀ rr ∈ additional, rr.rdata.length = 4 → rr.type = typeA)
      ∧ referredServers additional = list

/-- An answer with the addresses of the zone, of the kind that `successParse` reports in full. -/
def AnswersWith (lib : Library) (zone : List Address) (msg : Bytes) (qSize : ℕ) : Prop :=
  ∃ (first : Record) (rest authority additional : List Record),
    Response msg qSize true (first :: rest) authority additional
      ∧ (first :: rest).length % 256 ≠ 0 ∧ OwnersRead msg qSize (first :: rest)
      ∧ SignatureBehind msg qSize first ∧ reportOf lib first = addresses lib (first :: rest)
      ∧ addresses lib (first :: rest) = zone

theorem RefersTo.parse (h : RefersTo list msg qSize) :
    Returns (fun fuel => parse fuel msg qSize) (.servers list) := by
  obtain ⟨_, _, _, additional, _, _, hresponse, hreferral, hstep, hrecords, hfour, rfl⟩ := h
  rw [← (fourByteServers_eq_iff hresponse.addresses).mpr hfour]
  exact parse_fourByteServers hresponse hreferral hstep hrecords

theorem AnswersWith.parseAndPrint (h : AnswersWith lib zone msg qSize) (host : Bytes) :
    ∃ count list, Returns (fun fuel => parseAndPrint lib host fuel msg qSize)
        (.successParse msg qSize count, printed host list)
      ∧ list.map DnsResponse.address = zone := by
  obtain ⟨first, rest, _, _, hresponse, hcount, hread, hsignature, hreport, rfl⟩ := h
  obtain ⟨list, ⟨depth, hdepth⟩, hlist⟩ :=
    (exists_returns_first_iff hread _).mpr ⟨hsignature, hreport⟩
  refine ⟨(BitVec.ofNat 8 (first :: rest).length).signExtend 16, list,
    ⟨depth, fun fuel hfuel => ?_⟩, hlist⟩
  have hresponses : responses lib fuel msg qSize = .ok list := hdepth fuel hfuel
  dsimp only
  rw [Resolver.parseAndPrint, parse_authoritative hresponse, if_pos hcount, ok_bind]
  dsimp only
  rw [successParse_eq, hresponses]
  rfl

/-- A server that, asked for the addresses of the host, refers to servers or answers with the
addresses, as `out` has it. -/
def Honest (lib : Library) (zone : List Address) (sendOut : Bytes → Bytes → Option Bytes)
    (labels : List Bytes) (out : Server → Option (List Server)) (s : Server) : Prop :=
  ∀ query qSize, QueryFor query labels qSize → ∃ msg, sendOut s.ip query = some msg ∧
    match out s with
    | none => AnswersWith lib zone msg qSize
    | some list => RefersTo list msg qSize

/-- What the program makes of the server's response to the query. -/
def Reads (lib : Library) (zone : List Address) (host : Bytes)
    (sendOut : Bytes → Bytes → Option Bytes) (query : Bytes) (qSize fuel : ℕ)
    (out : Server → Option (List Server)) (s : Server) : Prop :=
  ∃ msg, sendOut s.ip query = some msg ∧
    match out s with
    | none => ∃ count list, parseAndPrint lib host fuel msg qSize
        = .ok (.successParse msg qSize count, printed host list)
      ∧ list.map DnsResponse.address = zone
    | some list => parse fuel msg qSize = .ok (.servers list)

variable {sendOut : Bytes → Bytes → Option Bytes} {labels : List Bytes} {query : Bytes}
  {out : Server → Option (List Server)} {s : Server} {nodes : Finset Server}

theorem Honest.exists_reads (h : Honest lib zone sendOut labels out s)
    (hquery : QueryFor query labels qSize) (host : Bytes) :
    ∃ depth, ∀ fuel, depth ≤ fuel → Reads lib zone host sendOut query qSize fuel out s := by
  obtain ⟨msg, hmsg, hout⟩ := h query qSize hquery
  simp only [Reads]
  cases hs : out s with
  | none =>
      rw [hs] at hout
      obtain ⟨count, list, ⟨depth, hdepth⟩, hlist⟩ := hout.parseAndPrint host
      exact ⟨depth, fun fuel hfuel => ⟨msg, hmsg, count, list, hdepth fuel hfuel, hlist⟩⟩
  | some list =>
      rw [hs] at hout
      obtain ⟨depth, hdepth⟩ := hout.parse
      exact ⟨depth, fun fuel hfuel => ⟨msg, hmsg, hdepth fuel hfuel⟩⟩

/-- The servers are finitely many, so one fuel is enough for the responses of all. -/
theorem exists_forall_reads (hhonest : ∀ s ∈ nodes, Honest lib zone sendOut labels out s)
    (hquery : QueryFor query labels qSize) (host : Bytes) :
    ∃ depth, ∀ fuel, depth ≤ fuel →
      ∀ s ∈ nodes, Reads lib zone host sendOut query qSize fuel out s := by
  choose! depth hdepth using fun s hs => (hhonest s hs).exists_reads hquery host
  exact ⟨nodes.sup depth, fun fuel hfuel s hs => hdepth s hs fuel ((Finset.le_sup hs).trans hfuel)⟩

/-! ### A round -/

variable {pktHeader : Header} {pktPayload : Question} {w w' : Resolving} {rand : ℕ}

theorem parse_of_parseAndPrint {records printed : Bytes} {location : ℕ} {count : BitVec 16}
    (h : parseAndPrint lib host fuel msg qSize
      = .ok (.successParse records location count, printed)) :
    parse fuel msg qSize = .ok (.successParse records location count) := by
  obtain ⟨result, hparse, h⟩ := bind_eq_ok.mp h
  rw [hparse]
  cases result with
  | successParse records' location' count' =>
      obtain ⟨printed', -, h⟩ := bind_eq_ok.mp h
      cases h
      rfl
  | servers | noRecord | fatal => cases h

/-- The program goes on as the search does. -/
theorem Reads.afterParse (h : Reads lib zone host sendOut query qSize fuel out s) (c : Config)
    (f : Frame) (callers : List Frame) :
    Resolver.afterParse c f callers
        (((⟨rand, sendOut⟩ : Outside).exchange s query qSize).result fuel)
      = Resolver.afterParse c f callers (replyFrom out s query qSize) := by
  obtain ⟨msg, hmsg, hout⟩ := h
  have hresult : ((⟨rand, sendOut⟩ : Outside).exchange s query qSize).result fuel
      = parse fuel msg qSize := by
    simp only [Exchange.result, Outside.exchange, hmsg]
  rw [hresult, replyFrom]
  cases hs : out s with
  | none =>
      rw [hs] at hout
      obtain ⟨count, list, hprint, -⟩ := hout
      rw [parse_of_parseAndPrint hprint]
      rfl
  | some list =>
      rw [hs] at hout
      rw [hout]

/-- The network as the program finds it that sends `query`: the servers are among `nodes`, and it
reads right what they say. -/
structure Network (lib : Library) (zone : List Address) (host : Bytes)
    (sendOut : Bytes → Bytes → Option Bytes) (fuel : ℕ) (out : Server → Option (List Server))
    (nodes : Finset Server) (pktHeader : Header) (pktPayload : Question) (query : Bytes)
    (qSize : ℕ) : Prop where
  servers : ∀ s ∈ initializeServers, s ∈ nodes
  closed : ∀ s ∈ nodes, ∀ l, out s = some l → ∀ t ∈ l, t ∈ nodes
  reads : ∀ s ∈ nodes, Reads lib zone host sendOut query qSize fuel out s
  writes : Writes pktHeader pktPayload query
  offset : (query.length - 11) % 2 ^ 32 = qSize

theorem Network.mem_nodes
    (net : Network lib zone host sendOut fuel out nodes pktHeader pktPayload query qSize)
    {path here : List Server} (hwalk : Walk out initializeServers path here) (hs : s ∈ here) :
    s ∈ nodes :=
  (hwalk.mem_of_closed net.servers fun s l hs => net.closed s hs l).2 s hs

/-- Every call has asked one server at most, and the innermost one none. -/
structure OneEach (nodes : Finset Server) (sendOut : Bytes → Bytes → Option Bytes) (query : Bytes)
    (qSize : ℕ) (out : Server → Option (List Server)) (w : Resolving) : Prop where
  running : w.config.status = .running →
    ∃ list callers here, w.config.frames = enter list :: callers
      ∧ Walk out initializeServers w.config.stack here ∧ list ⊆ here
  asked : ∀ x ∈ w.exchanges, x.server ∈ nodes ∧ x.datagram = query ∧ x.offset = qSize
    ∧ x.response = sendOut x.server.ip query
  stack : w.exchanges.map Exchange.server = w.config.stack
  nodup : w.config.stack.Nodup
  answered : w.config.status = .answered →
    ∃ x, w.exchanges.getLast? = some x ∧ out x.server = none

theorem oneEach_main : OneEach nodes sendOut query qSize out .main where
  running _ := ⟨initializeServers, [], initializeServers, rfl, .nil, List.Subset.refl _⟩
  asked _ h := absurd h List.not_mem_nil
  stack := rfl
  nodup := List.nodup_nil
  answered h := by cases h

theorem queryServer_enter (hwrites : Writes pktHeader pktPayload query)
    (hqSize : (query.length - 11) % 2 ^ 32 = qSize) (c : Config) (callers : List Frame)
    (srvNum : ℕ) (reply : Server → Bytes → ℕ → Except Fault Parsed) :
    queryServer pktHeader pktPayload c (enter list) callers srvNum s reply
      = afterParse { c with
          stack := c.stack ++ [s]
          sent := c.sent ++ [⟨s, query, qSize, 0⟩] }
        ⟨list, ⟨query, true⟩, 0, srvNum, 1⟩ callers (reply s query qSize) := by
  have hpacket : writePacket pktHeader pktPayload (enter list).dnsPacket = ⟨query, true⟩ :=
    hwrites []
  rw [queryServer, hpacket, ← hqSize]
  rfl

/-- A round depends on the replies only by what it makes of them. -/
theorem step_congr {c : Config} {reply reply' : Server → Bytes → ℕ → Except Fault Parsed}
    (hsame : ∀ f callers srvNum s, c.status = .running → c.frames = f :: callers → s ∈ f.servers →
      queryServer pktHeader pktPayload c f callers srvNum s reply
        = queryServer pktHeader pktPayload c f callers srvNum s reply') (rand : ℕ) :
    step pktHeader pktPayload c ⟨rand, reply⟩ = step pktHeader pktPayload c ⟨rand, reply'⟩ := by
  unfold step
  split
  case h_2 => rfl
  case h_1 f callers hstatus hframes =>
    dsimp only
    cases hpick : f.servers[rand % f.servers.length]? with
    | none => rfl
    | some s =>
        dsimp only
        rw [hsame f callers _ s hstatus hframes (List.mem_of_getElem? hpick)]

/-- **A round over bytes is a round of the search.** -/
theorem OneEach.step_eq (h : OneEach nodes sendOut query qSize out w)
    (net : Network lib zone host sendOut fuel out nodes pktHeader pktPayload query qSize)
    (rand : ℕ) :
    step pktHeader pktPayload w.config ((⟨rand, sendOut⟩ : Outside).input fuel)
      = step pktHeader pktPayload w.config ⟨rand, replyFrom out⟩ := by
  refine step_congr (fun f callers srvNum s hstatus hframes hmem => ?_) rand
  obtain ⟨list, callers', here, hframes', hwalk, hlist⟩ := h.running hstatus
  obtain ⟨rfl, rfl⟩ : enter list = f ∧ callers' = callers := by
    simpa using hframes'.symm.trans hframes
  rw [queryServer_enter net.writes net.offset, queryServer_enter net.writes net.offset]
  exact (net.reads s (net.mem_nodes hwalk (hlist hmem))).afterParse _ _ _

theorem map_config_resolve (o : Outside) :
    (resolve fuel pktHeader pktPayload w o).map Resolving.config
      = step pktHeader pktPayload w.config (o.input fuel) := by
  rw [resolve, Option.map_map]
  exact congrFun Option.map_id _

/-- A round that sends nothing. -/
theorem OneEach.quiet (h : OneEach nodes sendOut query qSize out w) {c : Config} {o : Outside}
    (hsent : c.sent = w.config.sent) (hstack : c.stack = w.config.stack)
    (hrunning : c.status = .running → ∃ list callers here, c.frames = enter list :: callers
      ∧ Walk out initializeServers c.stack here ∧ list ⊆ here)
    (hanswered : c.status ≠ .answered) : OneEach nodes sendOut query qSize out (w.after o c) := by
  refine ⟨hrunning, ?_, ?_, ?_, fun h => absurd h hanswered⟩
  · rw [exchanges_after hsent]
    exact h.asked
  · rw [exchanges_after hsent]
    exact h.stack.trans hstack.symm
  · exact hstack.symm ▸ h.nodup

/-- A round that asks `s`. -/
theorem OneEach.ask (h : OneEach nodes sendOut query qSize out w) (hs : s ∈ nodes)
    (hnew : s ∉ w.config.stack) {c : Config}
    (hsent : c.sent = w.config.sent ++ [⟨s, query, qSize, 0⟩])
    (hstack : c.stack = w.config.stack ++ [s])
    (hrunning : c.status = .running → ∃ list callers here, c.frames = enter list :: callers
      ∧ Walk out initializeServers c.stack here ∧ list ⊆ here)
    (hanswered : c.status = .answered → out s = none) :
    OneEach nodes sendOut query qSize out (w.after ⟨rand, sendOut⟩ c) := by
  refine ⟨hrunning, ?_, ?_, ?_, fun hend => ?_⟩
  · rw [exchanges_after_concat hsent]
    exact List.forall_mem_append.mpr ⟨h.asked, List.forall_mem_singleton.mpr ⟨hs, rfl, rfl, rfl⟩⟩
  · rw [exchanges_after_concat hsent, List.map_append, h.stack]
    exact hstack.symm
  · change c.stack.Nodup
    rw [hstack]
    exact h.nodup.append (List.nodup_singleton s) (List.disjoint_singleton.mpr hnew)
  · rw [exchanges_after_concat hsent]
    exact ⟨_, List.getLast?_concat, hanswered hend⟩

theorem OneEach.round (h : OneEach nodes sendOut query qSize out w)
    (net : Network lib zone host sendOut fuel out nodes pktHeader pktPayload query qSize)
    (hlame : ¬Lame out initializeServers)
    (hstep : resolve fuel pktHeader pktPayload w ⟨rand, sendOut⟩ = some w') :
    OneEach nodes sendOut query qSize out w' := by
  obtain ⟨c', hround, rfl⟩ := Option.map_eq_some_iff.mp hstep
  rw [h.step_eq net] at hround
  obtain ⟨hstatus, hround⟩ := step_round hround
  obtain ⟨list, callers, here, hframes, hwalk, hlist⟩ := h.running hstatus
  cases hround with
  | @skip f callers' s hframes' hmem hstack =>
      obtain ⟨rfl, rfl⟩ : enter list = f ∧ callers = callers' := by
        simpa using hframes.symm.trans hframes'
      refine h.quiet rfl rfl (fun _ => ⟨list.erase s, callers, here, rfl, hwalk, ?_⟩) fun hend => ?_
      · exact fun t ht => hlist (List.mem_of_mem_erase ht)
      · cases hstatus.symm.trans hend
  | @query f callers' srvNum s hframes' hpick hnew =>
      obtain ⟨rfl, rfl⟩ : enter list = f ∧ callers = callers' := by
        simpa using hframes.symm.trans hframes'
      have hmem : s ∈ here := hlist (List.mem_of_getElem? hpick)
      have hs : s ∈ nodes := net.mem_nodes hwalk hmem
      rw [queryServer_enter net.writes net.offset]
      dsimp only [replyFrom]
      cases hrefers : out s with
      | none => exact h.ask hs hnew rfl rfl (fun hrun => nomatch hrun) fun _ => hrefers
      | some next =>
          have hnext : next ≠ [] := by
            rintro rfl
            exact hlame ⟨_, here, s, hwalk, hmem, hnew, hrefers⟩
          have hdeeper := hwalk.snoc hmem hnew hrefers hnext
          obtain ⟨t, next, rfl⟩ := List.exists_cons_of_ne_nil hnext
          exact h.ask hs hnew rfl rfl
            (fun _ => ⟨t :: next, _, t :: next, rfl, hdeeper, List.Subset.refl _⟩)
            fun hend => nomatch hstatus.symm.trans hend
  | exhausted => exact h.quiet rfl rfl (fun hrun => nomatch hrun) fun hend => nomatch hend
  | @leave f hframes' hresponse =>
      obtain ⟨rfl, -⟩ : enter list = f ∧ callers = [] := by
        simpa using hframes.symm.trans hframes'
      exact absurd rfl hresponse
  | @resume f g callers' hframes' hresponse =>
      obtain ⟨rfl, -⟩ : enter list = f ∧ callers = g :: callers' := by
        simpa using hframes.symm.trans hframes'
      exact absurd rfl hresponse

/-! ### Every run -/

/-- The program has asked each server one query for the addresses of the host, and none twice. -/
structure AskedOnce (host : Bytes) (w : Resolving) : Prop where
  query : ∀ x ∈ w.exchanges, QueryFor x.datagram (hostLabels host) x.offset
  nodup : (w.exchanges.map Exchange.server).Nodup

/-- The program has ended, and what it printed last are the addresses of the zone. -/
def PrintedZone (lib : Library) (zone : List Address) (host : Bytes) (fuel : ℕ) (w : Resolving) :
    Prop :=
  w.config.status = .answered ∧ ∃ x response count list, w.exchanges.getLast? = some x
    ∧ x.response = some response
    ∧ parseAndPrint lib host fuel response x.offset
      = .ok (.successParse response x.offset count, printed host list)
    ∧ list.map DnsResponse.address = zone

theorem OneEach.askedOnce (h : OneEach nodes sendOut query qSize out w)
    (hqueryFor : QueryFor query (hostLabels host) qSize) : AskedOnce host w where
  query x hx := by
    obtain ⟨-, hdatagram, hoffset, -⟩ := h.asked x hx
    rwa [hdatagram, hoffset]
  nodup := h.stack ▸ h.nodup

theorem OneEach.printedZone (h : OneEach nodes sendOut query qSize out w)
    (net : Network lib zone host sendOut fuel out nodes pktHeader pktPayload query qSize)
    (hstatus : w.config.status = .answered) : PrintedZone lib zone host fuel w := by
  obtain ⟨x, hlast, hout⟩ := h.answered hstatus
  obtain ⟨hserver, -, hoffset, hresponse⟩ := h.asked x (List.mem_of_getLast? hlast)
  obtain ⟨msg, hmsg, hprints⟩ := net.reads x.server hserver
  rw [hout] at hprints
  obtain ⟨count, list, hprint, hzone⟩ := hprints
  exact ⟨hstatus, x, msg, count, list, hlast, hresponse.trans hmsg, hoffset ▸ hprint, hzone⟩

theorem oneEach_of_along
    (net : Network lib zone host sendOut fuel out nodes pktHeader pktPayload query qSize)
    (hlame : ¬Lame out initializeServers) {rand : ℕ → ℕ} {k : ℕ}
    (hk : along (resolve fuel pktHeader pktPayload) .main (fun i => ⟨rand i, sendOut⟩) k = some w) :
    OneEach nodes sendOut query qSize out w := by
  refine (reaches_of_along (fun _ o => o.sendOut = sendOut) (fun _ _ => rfl) hk).invariant
    oneEach_main ?_
  rintro w ⟨r, _⟩ w' h rfl hstep
  exact h.round net hlame hstep

/-- **The run over bytes is the search.** -/
theorem config_along
    (net : Network lib zone host sendOut fuel out nodes pktHeader pktPayload query qSize)
    (hlame : ¬Lame out initializeServers) (rand : ℕ → ℕ) (k : ℕ) :
    (along (resolve fuel pktHeader pktPayload) .main (fun i => ⟨rand i, sendOut⟩) k).map
        Resolving.config
      = along (step pktHeader pktPayload) (start initializeServers [])
        (fun i => ⟨rand i, replyFrom out⟩) k :=
  map_along Resolving.config (OneEach nodes sendOut query qSize out) oneEach_main
    (fun _ i h => (map_config_resolve _).trans (h.step_eq net (rand i)))
    (fun _ _ _ h hstep => h.round net hlame hstep) k

/-- Without dead ends, the addresses are printed. -/
theorem exists_printedZone
    (net : Network lib zone host sendOut fuel out nodes pktHeader pktPayload query qSize)
    (hlame : ¬Lame out initializeServers) (hfree : ¬DeadEnd out initializeServers)
    (rand : ℕ → ℕ) :
    ∃ k w, along (resolve fuel pktHeader pktPayload) .main (fun i => ⟨rand i, sendOut⟩) k = some w
      ∧ PrintedZone lib zone host fuel w := by
  have hfound : EndsIn pktHeader pktPayload out initializeServers rand .answered :=
    (endsIn_or_deadEnd net.servers net.closed rand).resolve_right hfree
  obtain ⟨k, c, hk, hstatus, -⟩ := hfound
  rw [← config_along net hlame] at hk
  obtain ⟨w, hw, rfl⟩ := Option.map_eq_some_iff.mp hk
  exact ⟨k, w, hw, (oneEach_of_along net hlame hw).printedZone net hstatus⟩

variable {q q' : Question}

/-- A network of honest servers, for the query that a call of `attempt` sends first. -/
theorem exists_network (hnum : q.numBytes = 0)
    (hlen : ∀ label ∈ hostLabels host, label.length ≤ 63)
    (hfits : wireLength (hostLabels host) ≤ filenameMax) (hmake : makeQuestion host q = some q')
    (hservers : ∀ s ∈ initializeServers, s ∈ nodes)
    (hclosed : ∀ s ∈ nodes, ∀ l, out s = some l → ∀ t ∈ l, t ∈ nodes)
    (hhonest : ∀ s ∈ nodes, Honest lib zone sendOut (hostLabels host) out s) :
    ∃ depth, ∀ fuel, depth ≤ fuel → Network lib zone host sendOut fuel out nodes makeHeader q'
      (copies makeHeader q' 1) (((copies makeHeader q' 1).length - 11) % 2 ^ 32) := by
  obtain ⟨depth, hdepth⟩ :=
    exists_forall_reads hhonest (queryFor_copies hnum hlen hfits hmake) host
  have hwrites := writes_queryDatagram makeHeader (queryDatagram_eq hnum hfits hmake).1.1
  rw [← copies_one] at hwrites
  exact ⟨depth, fun fuel hfuel => ⟨hservers, hclosed, hdepth fuel hfuel, hwrites, rfl⟩⟩

/-- **When a name is resolved.** Take a question whose byte count is zero, a host name whose labels
have 63 bytes at most and fit `QNAME`, and a network with the root servers in it, closed under
referrals, whose servers are honest: asked for the addresses of the host, each refers to servers or
answers with the addresses, in a form that the program reads right. Let no referral lead to a lame
one. Given fuel, each run over bytes is the search over the referrals, round for round; it sends
only queries for the host, and none twice to a server; and the program prints the addresses for
every sequence of random picks exactly when the referrals have no dead end. -/
theorem resolves_iff (hnum : q.numBytes = 0)
    (hlen : ∀ label ∈ hostLabels host, label.length ≤ 63)
    (hfits : wireLength (hostLabels host) ≤ filenameMax) (hmake : makeQuestion host q = some q')
    (hservers : ∀ s ∈ initializeServers, s ∈ nodes)
    (hclosed : ∀ s ∈ nodes, ∀ l, out s = some l → ∀ t ∈ l, t ∈ nodes)
    (hhonest : ∀ s ∈ nodes, Honest lib zone sendOut (hostLabels host) out s)
    (hlame : ¬Lame out initializeServers) :
    ∃ depth, ∀ fuel, depth ≤ fuel →
      (∀ (rand : ℕ → ℕ) (k : ℕ),
        (along (resolve fuel makeHeader q') .main (fun i => ⟨rand i, sendOut⟩) k).map
            Resolving.config
          = along (step makeHeader q') (start initializeServers [])
            (fun i => ⟨rand i, replyFrom out⟩) k)
      ∧ (∀ (rand : ℕ → ℕ) (k : ℕ) (w : Resolving),
        along (resolve fuel makeHeader q') .main (fun i => ⟨rand i, sendOut⟩) k = some w →
          AskedOnce host w)
      ∧ ((∀ rand : ℕ → ℕ, ∃ k w,
          along (resolve fuel makeHeader q') .main (fun i => ⟨rand i, sendOut⟩) k = some w
            ∧ PrintedZone lib zone host fuel w)
        ↔ ¬DeadEnd out initializeServers) := by
  obtain ⟨depth, hdepth⟩ := exists_network hnum hlen hfits hmake hservers hclosed hhonest
  refine ⟨depth, fun fuel hfuel => ?_⟩
  have net := hdepth fuel hfuel
  refine ⟨config_along net hlame,
    fun rand k w hk => (oneEach_of_along net hlame hk).askedOnce
      (queryFor_copies hnum hlen hfits hmake),
    fun hprints hdead => ?_, fun hfree => exists_printedZone net hlame hfree⟩
  obtain ⟨rand, hlost⟩ := endsIn_of_deadEnd makeHeader q' hdead
  obtain ⟨k, w, hk, hanswered, -⟩ := hprints rand
  have hfound : EndsIn makeHeader q' out initializeServers rand .answered :=
    ⟨k, w.config, by rw [← config_along net hlame, hk, Option.map_some], hanswered, by decide⟩
  cases hfound.unique hlost

/-! ### One referral

Every root server refers to one server, which has the address of `a`. -/

def sampleGlue : Server := ⟨dottedQuad glue.rdata, dotted glue.owner⟩

def sampleReferrals (s : Server) : Option (List Server) :=
  if s = sampleGlue then none else some [sampleGlue]

def sampleNodes : Finset Server := insert sampleGlue initializeServers.toFinset

/-- An address and its signature by `a`. -/
def signedAnswer : Bytes := answerWith (sampleAnswers.take 2)

def signedAddress : Record := sampleAnswers.head (by decide)

def sampleSendOut (ip _query : Bytes) : Option Bytes :=
  some (if ip = sampleGlue.ip then signedAnswer else referralWith [192, 12])

def sampleZone : List Address := addresses ⟨id, id⟩ (sampleAnswers.take 2)

theorem refersTo_glue : RefersTo [sampleGlue] (referralWith [192, 12]) 19 := by
  have hnear : Near 12 := (by decide : 12 < 64)
  exact ⟨false, [], [], [glue], 19, _, referralWith_response (pointed_nameAt trivial), by decide,
    ⟨by decide, ⟨19, .nil, .nil⟩, by decide⟩,
    .cons (glue_recordAt (pointed_nameAt hnear)) rfl .nil, by decide, rfl⟩

theorem signedAnswer_answersWith : AnswersWith ⟨id, id⟩ sampleZone signedAnswer 19 := by
  obtain ⟨hresponse, hread⟩ : Response signedAnswer 19 true (sampleAnswers.take 2) [] []
      ∧ OwnersRead signedAnswer 19 (sampleAnswers.take 2) :=
    answerWith_response (by decide) (by decide) (by decide)
  have hname : Returns (fun fuel => recParse signedAnswer fuel 19 true)
      (dotted signedAddress.owner, 21) :=
    (stable_recParse signedAnswer 19 true).returns
      (show recParse signedAnswer 3 19 true = _ from rfl)
  have hbody : signedAddress.body <+: signedAnswer.drop 21 := ⟨_, rfl⟩
  have hsignature : SignatureReadable signedAnswer 47 :=
    (exists_returns_parseRRSIG_iff ⟨id, id⟩ signedAnswer 47).mp ⟨_,
      (stable_parseRRSIG ⟨id, id⟩ signedAnswer 47).returns
        (show parseRRSIG ⟨id, id⟩ 4 signedAnswer 47 = _ from rfl)⟩
  have hreads : ∃ l, Returns (fun fuel => responses ⟨id, id⟩ fuel signedAnswer 19) l
      ∧ l.map DnsResponse.address = sampleZone :=
    (exists_returns_responses_iff hname (by decide) hbody _).mpr ⟨hsignature, rfl⟩
  obtain ⟨hbehind, hreport⟩ := (exists_returns_first_iff hread sampleZone).mp hreads
  exact ⟨_, _, [], [], hresponse, by decide, hread, hbehind, hreport, rfl⟩

theorem sampleReferrals_of_ne (hne : s ≠ sampleGlue) : sampleReferrals s = some [sampleGlue] :=
  if_neg hne

theorem ne_sampleGlue_of_root : ∀ s ∈ initializeServers, s ≠ sampleGlue ∧ s.ip ≠ sampleGlue.ip := by
  decide

theorem sample_servers : ∀ s ∈ initializeServers, s ∈ sampleNodes := fun _ hs =>
  Finset.mem_insert_of_mem (List.mem_toFinset.mpr hs)

theorem sample_closed : ∀ s ∈ sampleNodes, ∀ l, sampleReferrals s = some l →
    ∀ t ∈ l, t ∈ sampleNodes := by
  intro s _ l hout t ht
  rw [sampleReferrals] at hout
  split_ifs at hout
  cases hout
  rw [List.mem_singleton.mp ht]
  exact Finset.mem_insert_self _ _

theorem sample_honest : ∀ s ∈ sampleNodes,
    Honest ⟨id, id⟩ sampleZone sampleSendOut [[97]] sampleReferrals s := by
  intro s hs query qSize hquery
  obtain rfl : qSize = 19 := hquery.eq.2
  rcases Finset.mem_insert.mp hs with rfl | hroot
  · exact ⟨_, rfl, signedAnswer_answersWith⟩
  · obtain ⟨hne, hip⟩ := ne_sampleGlue_of_root s (List.mem_toFinset.mp hroot)
    refine ⟨_, rfl, ?_⟩
    rw [sampleReferrals_of_ne hne, if_neg hip]
    exact refersTo_glue

theorem sample_walk {path here : List Server}
    (hwalk : Walk sampleReferrals initializeServers path here) :
    path = [] ∧ here = initializeServers ∨ sampleGlue ∉ path ∧ here = [sampleGlue] := by
  induction hwalk with
  | nil => exact .inl ⟨rfl, rfl⟩
  | @snoc path here next s _ hmem _ hout _ ih =>
      rcases ih with ⟨rfl, rfl⟩ | ⟨-, rfl⟩
      · have hne := (ne_sampleGlue_of_root s hmem).1
        rw [sampleReferrals_of_ne hne] at hout
        cases hout
        exact .inr ⟨fun h => hne (List.mem_singleton.mp h).symm, rfl⟩
      · rw [List.mem_singleton.mp hmem] at hout
        cases hout

theorem sample_not_lame : ¬Lame sampleReferrals initializeServers := by
  rintro ⟨_, _, s, -, -, -, hout⟩
  rw [sampleReferrals] at hout
  split_ifs at hout
  cases hout

theorem sample_not_deadEnd : ¬DeadEnd sampleReferrals initializeServers := by
  rintro ⟨path, here, hwalk, hspent⟩
  rcases sample_walk hwalk with ⟨rfl, rfl⟩ | ⟨hnew, rfl⟩
  · rcases hspent _ List.mem_cons_self with h | h <;> cases h
  · rcases hspent _ List.mem_cons_self with h | h
    · exact hnew h
    · cases h

theorem resolves_iff_sample :
    ∃ q', makeQuestion (ofString "a") (questionWith 0) = some q' ∧ ∃ depth, ∀ fuel, depth ≤ fuel →
      ∀ rand : ℕ → ℕ, ∃ k w,
        along (resolve fuel makeHeader q') .main (fun i => ⟨rand i, sampleSendOut⟩) k = some w
          ∧ PrintedZone ⟨id, id⟩ sampleZone (ofString "a") fuel w := by
  have hfits : (encoding (hostLabels (ofString "a"))).length ≤ filenameMax := by decide
  obtain ⟨q', hmake, -⟩ := makeQuestion_spec (questionWith 0) hfits
  obtain ⟨depth, hdepth⟩ := resolves_iff rfl (by decide) (by decide) hmake sample_servers
    sample_closed sample_honest sample_not_lame
  exact ⟨q', hmake, depth, fun fuel hfuel => (hdepth fuel hfuel).2.2.mpr sample_not_deadEnd⟩

end Networking.Resolver

import Networking.Resolver.Path
import Networking.Resolver.Resolution

/-!
# What a second server is worth

A call of `attempt` that has queried a server sends the next one more than a message. A server that
is strict refuses this, and the program ends. So the other servers of a list are never of use: with
one lame server or one dead end within reach, some picks lose the answer, whatever the others would
have said.
-/

namespace Networking.Resolver

open Wire Transition Fuel Descent

variable {lib : Library} {zone : List Address} {msg host query : Bytes} {qSize fuel : ℕ}
  {sendOut : Bytes → Bytes → Option Bytes} {out : Server → Option (List Server)}
  {nodes : Finset Server} {pktHeader : Header} {pktPayload : Question} {w w' : Resolving}
  {c c' : Config} {f : Frame} {callers : List Frame} {s : Server} {rand : ℕ}

/-! ### Servers that refuse -/

/-- The server refuses what is not a message, with the response code for an error in the format. -/
def Strict (sendOut : Bytes → Bytes → Option Bytes) (s : Server) : Prop :=
  ∀ datagram, ¬WellFormed datagram →
    ∃ msg authoritative questions answers authority additional, sendOut s.ip datagram = some msg
      ∧ HeaderAt msg authoritative 1 questions answers authority additional

theorem HeaderAt.parse_refused {authoritative : Bool}
    {questions answers authority additional : ℕ}
    (h : HeaderAt msg authoritative 1 questions answers authority additional) (fuel qSize : ℕ) :
    parse fuel msg qSize = .ok .fatal := by
  obtain ⟨f, g, hf, hg, -, hrcode, han, hns, har⟩ := h.chars
  rw [parse, hf, hg, han, hns, har]
  simp only [ok_bind, hrcode]
  rfl

/-- What the program makes of the response of a strict server. -/
def replyOnce (nodes : Finset Server) (out : Server → Option (List Server)) (query : Bytes)
    (s : Server) (datagram : Bytes) (numbytes : ℕ) : Except Fault Parsed :=
  if s ∈ nodes ∧ datagram = query then replyFrom out s datagram numbytes else .ok .fatal

theorem replyOnce_refersWithin
    (hclosed : ∀ s ∈ nodes, ∀ l, out s = some l → ∀ t ∈ l, t ∈ nodes) (rand : ℕ) :
    (⟨rand, replyOnce nodes out query⟩ : Input).RefersWithin nodes := by
  intro s datagram numbytes list hreply t ht
  dsimp only [replyOnce] at hreply
  split_ifs at hreply with hs
  · exact hclosed s hs.1 list (out_of_replyFrom datagram numbytes hreply) t ht
  · cases hreply

theorem queryServer_strict
    (net : Network lib zone host sendOut fuel out nodes pktHeader pktPayload query qSize)
    (hstrict : ∀ s ∈ nodes, Strict sendOut s)
    (hwellFormed : ∀ earlier,
      WellFormed (packets pktHeader pktPayload (earlier + 1)).bytes ↔ earlier = 0)
    (hs : s ∈ nodes) (hpacket : f.dnsPacket = packets pktHeader pktPayload f.queried) (c : Config)
    (callers : List Frame) (srvNum : ℕ) :
    queryServer pktHeader pktPayload c f callers srvNum s
        ((⟨rand, sendOut⟩ : Outside).input fuel).reply
      = queryServer pktHeader pktPayload c f callers srvNum s (replyOnce nodes out query) := by
  have hdatagram : writePacket pktHeader pktPayload f.dnsPacket
      = packets pktHeader pktPayload (f.queried + 1) := by
    rw [hpacket, packets]
  have hone : (packets pktHeader pktPayload (0 + 1)).bytes = query :=
    congrArg StringStream.bytes (net.writes [])
  unfold queryServer
  dsimp only
  rw [hdatagram]
  by_cases hfirst : f.queried = 0
  · rw [hfirst, hone, net.offset]
    have hreply : replyOnce nodes out query s query qSize = replyFrom out s query qSize :=
      if_pos ⟨hs, rfl⟩
    rw [hreply]
    exact (net.reads s hs).afterParse _ _ _
  · have hmalformed : ¬WellFormed (packets pktHeader pktPayload (f.queried + 1)).bytes :=
      mt (hwellFormed f.queried).mp hfirst
    have hne : (packets pktHeader pktPayload (f.queried + 1)).bytes ≠ query := by
      intro heq
      rw [heq, ← hone] at hmalformed
      exact hmalformed ((hwellFormed 0).mpr rfl)
    obtain ⟨msg, _, _, _, _, _, hmsg, hheader⟩ := hstrict s hs _ hmalformed
    have hreply : ∀ offset, replyOnce nodes out query s
        (packets pktHeader pktPayload (f.queried + 1)).bytes offset = .ok .fatal :=
      fun offset => if_neg fun h => hne h.2
    rw [hreply]
    dsimp only [Outside.input, Outside.exchange, Exchange.result]
    rw [hmsg]
    dsimp only
    rw [hheader.parse_refused]

theorem step_strict
    (net : Network lib zone host sendOut fuel out nodes pktHeader pktPayload query qSize)
    (hstrict : ∀ s ∈ nodes, Strict sendOut s)
    (hwellFormed : ∀ earlier,
      WellFormed (packets pktHeader pktPayload (earlier + 1)).bytes ↔ earlier = 0)
    (hpath : OnPath nodes c) (hpackets : Accumulates pktHeader pktPayload c) (rand : ℕ) :
    step pktHeader pktPayload c ((⟨rand, sendOut⟩ : Outside).input fuel)
      = step pktHeader pktPayload c ⟨rand, replyOnce nodes out query⟩ := by
  refine step_congr (fun f callers srvNum s _ hframes hmem => ?_) rand
  have hf : f ∈ c.frames := hframes ▸ List.mem_cons_self
  exact queryServer_strict net hstrict hwellFormed (hpath.servers f hf s hmem)
    (hpackets.frames f hf) c callers srvNum

/-- **The run over strict servers.** -/
theorem config_along_strict
    (net : Network lib zone host sendOut fuel out nodes pktHeader pktPayload query qSize)
    (hstrict : ∀ s ∈ nodes, Strict sendOut s)
    (hwellFormed : ∀ earlier,
      WellFormed (packets pktHeader pktPayload (earlier + 1)).bytes ↔ earlier = 0)
    (rand : ℕ → ℕ) (k : ℕ) :
    (along (resolve fuel pktHeader pktPayload) .main (fun i => ⟨rand i, sendOut⟩) k).map
        Resolving.config
      = along (step pktHeader pktPayload) (start initializeServers [])
        (fun i => ⟨rand i, replyOnce nodes out query⟩) k := by
  have hview : ∀ (w : Resolving) (i : ℕ),
      OnPath nodes w.config ∧ Accumulates pktHeader pktPayload w.config →
      (resolve fuel pktHeader pktPayload w ⟨rand i, sendOut⟩).map Resolving.config
        = step pktHeader pktPayload w.config ⟨rand i, replyOnce nodes out query⟩ :=
    fun w i h => (map_config_resolve _).trans (step_strict net hstrict hwellFormed h.1 h.2 (rand i))
  refine map_along Resolving.config
    (fun w => OnPath nodes w.config ∧ Accumulates pktHeader pktPayload w.config)
    ⟨onPath_start net.servers, accumulates_start _ _⟩ hview (fun w i w' h hstep => ?_) k
  have hnext := hview w i h
  rw [hstep] at hnext
  exact ⟨(h.1.step (replyOnce_refersWithin net.closed _) hnext.symm).1, h.2.step hnext.symm⟩

/-! ### Runs that lose the answer -/

/-- No answer is to come: the innermost call has queried a server already, or has none left that it
would query. -/
structure Lost (c : Config) : Prop where
  status : c.status ≠ .answered
  running : c.status = .running → ∃ f callers, c.frames = f :: callers ∧ f.response = 0
    ∧ ((∀ s ∈ f.servers, s ∈ c.stack) ∨ ∃ bytes ≠ [], f.dnsPacket = ⟨bytes, true⟩)

theorem lost_of_ended (hanswered : c.status ≠ .answered) (hrunning : c.status ≠ .running) :
    Lost c :=
  ⟨hanswered, fun h => absurd h hrunning⟩

theorem Lost.step (h : Lost c) (hwrites : Writes pktHeader pktPayload query)
    (hstep : step pktHeader pktPayload c ⟨rand, replyOnce nodes out query⟩ = some c') :
    Lost c' := by
  obtain ⟨hstatus, hround⟩ := step_round hstep
  obtain ⟨f, callers, hframes, hresponse, hlost⟩ := h.running hstatus
  cases hround with
  | @skip f' callers' s hframes' hmem hstack =>
      obtain ⟨rfl, rfl⟩ : f = f' ∧ callers = callers' := by
        simpa using hframes.symm.trans hframes'
      refine ⟨h.status, fun _ => ⟨_, callers, rfl, hresponse, ?_⟩⟩
      exact hlost.imp_left fun hall t ht => hall t (List.mem_of_mem_erase ht)
  | @query f' callers' srvNum s hframes' hpick hnew =>
      obtain ⟨rfl, rfl⟩ : f = f' ∧ callers = callers' := by
        simpa using hframes.symm.trans hframes'
      rcases hlost with hall | ⟨bytes, hbytes, hpacket⟩
      · exact absurd (hall s (List.mem_of_getElem? hpick)) hnew
      · have hne : bytes ++ query ≠ query := fun heq => hbytes (List.append_left_eq_self.mp heq)
        have hreply : ∀ offset, replyOnce nodes out query s (bytes ++ query) offset = .ok .fatal :=
          fun offset => if_neg fun hs => hne hs.2
        unfold queryServer
        rw [hpacket, hwrites]
        dsimp only
        rw [hreply]
        exact lost_of_ended (by simp [afterParse]) (by simp [afterParse])
  | exhausted => exact lost_of_ended (by simp) (by simp)
  | @leave f' hframes' hne =>
      obtain ⟨rfl, -⟩ : f = f' ∧ callers = [] := by
        simpa using hframes.symm.trans hframes'
      exact absurd hresponse hne
  | @resume f' g callers' hframes' hne =>
      obtain ⟨rfl, -⟩ : f = f' ∧ callers = g :: callers' := by
        simpa using hframes.symm.trans hframes'
      exact absurd hresponse hne

/-- The states that some values of `rand()` lead to over strict servers. -/
abbrev LedOnce (pktHeader : Header) (pktPayload : Question) (nodes : Finset Server)
    (out : Server → Option (List Server)) (query : Bytes) : Config → Prop :=
  Reaches (step pktHeader pktPayload) (fun _ input => input.reply = replyOnce nodes out query)
    (start initializeServers [])

/-- The innermost call has just begun with the list. -/
structure Begun (here path : List Server) (c : Config) : Prop where
  running : c.status = .running
  frames : ∃ callers, c.frames = enter here :: callers
  stack : c.stack = path

/-- Any new server of the list may be asked next. -/
theorem Begun.ask (out : Server → Option (List Server)) {here path : List Server}
    (h : Begun here path c)
    (hwrites : Writes pktHeader pktPayload query)
    (hoffset : (query.length - 11) % 2 ^ 32 = qSize) (hnodes : s ∈ nodes) (hmem : s ∈ here)
    (hnew : s ∉ path) :
    ∃ rand callers srvNum, step pktHeader pktPayload c ⟨rand, replyOnce nodes out query⟩
      = some (afterParse { c with
          stack := c.stack ++ [s]
          sent := c.sent ++ [⟨s, query, qSize, 0⟩] }
        ⟨here, ⟨query, true⟩, 0, srvNum, 1⟩ callers (replyFrom out s query qSize)) := by
  obtain ⟨callers, hframes⟩ := h.frames
  obtain ⟨i, hpick⟩ := List.getElem?_of_mem hmem
  have hlt := (List.getElem?_eq_some_iff.mp hpick).1
  obtain ⟨s', hpick', hstep⟩ := step_of_servers pktHeader pktPayload
    ⟨i, replyOnce nodes out query⟩ h.running hframes rfl (List.ne_nil_of_mem hmem)
  change here[i % here.length]? = some s' at hpick'
  rw [Nat.mod_eq_of_lt hlt] at hpick'
  obtain rfl : s = s' := Option.some.inj (hpick.symm.trans hpick')
  have hreply : replyOnce nodes out query s query qSize = replyFrom out s query qSize :=
    if_pos ⟨hnodes, rfl⟩
  rw [if_neg (h.stack ▸ hnew), queryServer_enter hwrites hoffset] at hstep
  dsimp only at hstep
  rw [hreply] at hstep
  exact ⟨i, callers, _, hstep⟩

theorem exists_begun
    (net : Network lib zone host sendOut fuel out nodes pktHeader pktPayload query qSize)
    {path here : List Server} (hwalk : Walk out initializeServers path here) :
    ∃ c, LedOnce pktHeader pktPayload nodes out query c ∧ Begun here path c := by
  induction hwalk with
  | nil => exact ⟨_, .refl, rfl, ⟨[], rfl⟩, rfl⟩
  | @snoc path here next s hwalk hmem hnew hout hnext ih =>
      obtain ⟨c, hled, hbegun⟩ := ih
      obtain ⟨rand, callers, srvNum, hstep⟩ := hbegun.ask out net.writes net.offset
        (net.mem_nodes hwalk hmem) hmem hnew
      obtain ⟨t, next, rfl⟩ := List.exists_cons_of_ne_nil hnext
      dsimp only [replyFrom] at hstep
      rw [hout] at hstep
      exact ⟨_, hled.tail rfl hstep, hbegun.running, ⟨_, rfl⟩, by rw [← hbegun.stack]; rfl⟩

/-- With a lame server or a dead end, the answer may be lost. -/
theorem exists_lost
    (net : Network lib zone host sendOut fuel out nodes pktHeader pktPayload query qSize)
    (hblocked : DeadEnd out initializeServers ∨ Lame out initializeServers) :
    ∃ c, LedOnce pktHeader pktPayload nodes out query c ∧ Lost c := by
  by_cases hlame : Lame out initializeServers
  · obtain ⟨path, here, s, hwalk, hmem, hnew, hout⟩ := hlame
    obtain ⟨c, hled, hbegun⟩ := exists_begun net hwalk
    obtain ⟨rand, callers, srvNum, hstep⟩ := hbegun.ask out net.writes net.offset
      (net.mem_nodes hwalk hmem) hmem hnew
    dsimp only [replyFrom] at hstep
    rw [hout] at hstep
    refine ⟨_, hled.tail rfl hstep, ?_,
      fun _ => ⟨_, callers, rfl, rfl, .inr ⟨query, net.writes.ne_nil, rfl⟩⟩⟩
    exact ne_of_eq_of_ne hbegun.running (by decide)
  · obtain ⟨path, here, hwalk, hspent⟩ := hblocked.resolve_right hlame
    obtain ⟨c, hled, hbegun⟩ := exists_begun net hwalk
    obtain ⟨callers, hframes⟩ := hbegun.frames
    refine ⟨c, hled, ne_of_eq_of_ne hbegun.running (by decide),
      fun _ => ⟨_, callers, hframes, rfl, .inl fun s hs => ?_⟩⟩
    by_contra hnew
    rw [hbegun.stack] at hnew
    exact hlame ⟨path, here, s, hwalk, hs, hnew, (hspent s hs).resolve_left hnew⟩

theorem exists_never_answered
    (net : Network lib zone host sendOut fuel out nodes pktHeader pktPayload query qSize)
    (hblocked : DeadEnd out initializeServers ∨ Lame out initializeServers) :
    ∃ rand : ℕ → ℕ, ∀ k c, along (step pktHeader pktPayload) (start initializeServers [])
      (fun i => ⟨rand i, replyOnce nodes out query⟩) k = some c → c.status ≠ .answered := by
  obtain ⟨t, hled, hlost⟩ := exists_lost net hblocked
  obtain ⟨input, hproper, j, hj⟩ := hled.exists_along
    (fun input : Input => input.reply = replyOnce nodes out query)
    (rfl : (Input.mk 0 (replyOnce nodes out query)).reply = _)
  have hinput : (fun i => (⟨(input i).rand, replyOnce nodes out query⟩ : Input)) = input :=
    funext fun i => congrArg (Input.mk (input i).rand) (hproper i).symm
  refine ⟨fun i => (input i).rand, fun k c hk hanswered => ?_⟩
  rw [hinput] at hk
  rcases le_or_gt j k with hle | hlt
  · refine (along_invariant_from hj hlost (fun t i u ht hstep => ?_) hle hk).status hanswered
    rw [← hinput] at hstep
    exact ht.step net.writes hstep
  · have hstatus : c.status ≠ .running := ne_of_eq_of_ne hanswered (by decide)
    cases hj.symm.trans (along_of_halt hk (step_of_not_running hstatus) hlt)

/-- **When a name is resolved over strict servers.** Over a network of honest servers that refuse
what is not a message, the program prints the addresses for every sequence of random picks exactly
when the referrals have no dead end and lead to no lame server. -/
theorem strict_resolves_iff {q q' : Question} (hnum : q.numBytes = 0)
    (hlen : ∀ label ∈ hostLabels host, label.length ≤ 63)
    (hfits : wireLength (hostLabels host) ≤ filenameMax) (hmake : makeQuestion host q = some q')
    (hservers : ∀ s ∈ initializeServers, s ∈ nodes)
    (hclosed : ∀ s ∈ nodes, ∀ l, out s = some l → ∀ t ∈ l, t ∈ nodes)
    (hhonest : ∀ s ∈ nodes, Honest lib zone sendOut (hostLabels host) out s)
    (hstrict : ∀ s ∈ nodes, Strict sendOut s) :
    ∃ depth, ∀ fuel, depth ≤ fuel →
      ((∀ rand : ℕ → ℕ, ∃ k w,
          along (resolve fuel makeHeader q') .main (fun i => ⟨rand i, sendOut⟩) k = some w
            ∧ PrintedZone lib zone host fuel w)
        ↔ ¬DeadEnd out initializeServers ∧ ¬Lame out initializeServers) := by
  obtain ⟨depth, hdepth⟩ := exists_network hnum hlen hfits hmake hservers hclosed hhonest
  refine ⟨depth, fun fuel hfuel => ?_⟩
  have net := hdepth fuel hfuel
  have hwellFormed : ∀ earlier,
      WellFormed (packets makeHeader q' (earlier + 1)).bytes ↔ earlier = 0 := by
    intro earlier
    rw [packets_eq_copies (queryDatagram_eq hnum hfits hmake).1.1]
    exact wellFormed_copies_iff hnum hlen hfits hmake earlier
  constructor
  · intro hprints
    rw [← not_or]
    intro hblocked
    obtain ⟨rand, hnever⟩ := exists_never_answered net hblocked
    obtain ⟨k, w, hk, hanswered, -⟩ := hprints rand
    refine hnever k w.config ?_ hanswered
    rw [← config_along_strict net hstrict hwellFormed, hk, Option.map_some]
  · rintro ⟨hfree, hlame⟩
    exact exists_printedZone net hlame hfree

/-! ### Strict servers

The servers of the network for `a`, which refuse everything but the query. -/

def sampleQuery : Bytes := headerBytes makeHeader ++ (encoding [[97]] ++ fixedFields)

theorem sampleQuery_queryFor : QueryFor sampleQuery [[97]] 19 :=
  queryFor_of_isPrefix (by decide) List.prefix_rfl rfl

def refusal : Bytes := [0, 0, 128, 1, 0, 0, 0, 0, 0, 0, 0, 0]

def strictSendOut (ip datagram : Bytes) : Option Bytes :=
  if datagram = sampleQuery then sampleSendOut ip datagram else some refusal

theorem strictSendOut_honest : ∀ s ∈ sampleNodes,
    Honest ⟨id, id⟩ sampleZone strictSendOut [[97]] sampleReferrals s := by
  intro s hs query qSize hquery
  obtain ⟨msg, hmsg, hout⟩ := sample_honest s hs query qSize hquery
  exact ⟨msg, (if_pos hquery.eq.1).trans hmsg, hout⟩

theorem strictSendOut_strict (s : Server) : Strict strictSendOut s := by
  intro datagram hmalformed
  have hne : datagram ≠ sampleQuery := by
    rintro rfl
    exact hmalformed sampleQuery_queryFor.wellFormed
  exact ⟨refusal, false, 0, 0, 0, 0, if_neg hne,
    ⟨128, 1, ⟨_, rfl⟩, by decide, by decide, by decide⟩, ⟨_, rfl⟩⟩

theorem strict_resolves_iff_sample :
    ∃ q', makeQuestion (ofString "a") (questionWith 0) = some q' ∧ ∃ depth, ∀ fuel, depth ≤ fuel →
      ∀ rand : ℕ → ℕ, ∃ k w,
        along (resolve fuel makeHeader q') .main (fun i => ⟨rand i, strictSendOut⟩) k = some w
          ∧ PrintedZone ⟨id, id⟩ sampleZone (ofString "a") fuel w := by
  have hfits : (encoding (hostLabels (ofString "a"))).length ≤ filenameMax := by decide
  obtain ⟨q', hmake, -⟩ := makeQuestion_spec (questionWith 0) hfits
  obtain ⟨depth, hdepth⟩ := strict_resolves_iff rfl (by decide) (by decide) hmake sample_servers
    sample_closed strictSendOut_honest fun s _ => strictSendOut_strict s
  exact ⟨q', hmake, depth, fun fuel hfuel =>
    (hdepth fuel hfuel).mpr ⟨sample_not_deadEnd, sample_not_lame⟩⟩

end Networking.Resolver

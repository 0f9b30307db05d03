import Networking.Resolver.Backtrack

/-!
# The stack of `attempt`

The vector `stack` is what keeps `attempt` from running in circles. It holds the servers that the
active calls are querying, from the outermost call in, and no server is queried while it is there.
So it grows only as long as there are servers left, whatever the servers refer to and however they
change their minds.
-/

namespace Networking.Resolver

open Transition

variable {pktHeader : Header} {pktPayload : Question} {nodes : Finset Server} {c c' : Config}
  {input : Input} {f : Frame} {callers : List Frame} {s : Server} {srvNum : ℕ}

/-- The server that a call has picked last. -/
def Frame.picked (f : Frame) : Option Server := f.servers[f.srvNum]?

/-- The program ends inside `parse`, so the innermost call is querying a server. -/
def Status.Inside : Status → Prop
  | .answered | .noRecordFound | .fatal | .crashed _ => True
  | .running | .returned | .noRecordAvalible => False

instance : DecidablePred Status.Inside
  | .answered | .noRecordFound | .fatal | .crashed _ => .isTrue trivial
  | .running | .returned | .noRecordAvalible => .isFalse id

/-- The servers that the active calls are querying, from the outermost call in. The innermost call
is between two queries unless the program has ended in one. -/
def Config.path (c : Config) : List (Option Server) :=
  (if c.status.Inside then c.frames else c.frames.tail).reverse.map Frame.picked

/-- Referrals lead to servers of `nodes`. A reply may be anything else as well. -/
def Input.RefersWithin (nodes : Finset Server) (input : Input) : Prop :=
  ∀ s datagram numbytes list, input.reply s datagram numbytes = .ok (.servers list) →
    ∀ t ∈ list, t ∈ nodes

structure OnPath (nodes : Finset Server) (c : Config) : Prop where
  active : c.frames ≠ []
  response : ∀ f ∈ c.frames, f.response = 0
  servers : ∀ f ∈ c.frames, ∀ s ∈ f.servers, s ∈ nodes
  path : c.path = c.stack.map some
  nodup : c.stack.Nodup
  stack : ∀ s ∈ c.stack, s ∈ nodes

theorem onPath_start {servers : List Server} (hservers : ∀ s ∈ servers, s ∈ nodes) :
    OnPath nodes (start servers []) where
  active := by simp [start]
  response := by simp [start, enter]
  servers := by simpa [start, enter] using hservers
  path := rfl
  nodup := List.nodup_nil
  stack := by simp [start]

theorem OnPath.length_le (h : OnPath nodes c) : c.stack.length ≤ nodes.card := by
  rw [← List.toFinset_card_of_nodup h.nodup]
  apply Finset.card_le_card
  intro s hs
  exact h.stack s (List.mem_toFinset.mp hs)

theorem path_of_not_inside (hstatus : ¬c.status.Inside) (hframes : c.frames = f :: callers) :
    c.path = callers.reverse.map Frame.picked := by
  rw [Config.path, if_neg hstatus, hframes, List.tail_cons]

theorem not_inside_of_running (hstatus : c.status = .running) : ¬c.status.Inside := by
  rw [hstatus]
  exact id

/-! ### A round -/

/-- The innermost call, whose list may have become shorter, on top of the others. -/
structure Innermost (nodes : Finset Server) (c : Config) (f : Frame) (callers : List Frame) :
    Prop where
  frames : c.frames = f :: callers
  response : ∀ g ∈ f :: callers, g.response = 0
  servers : ∀ g ∈ f :: callers, ∀ s ∈ g.servers, s ∈ nodes
  path : callers.reverse.map Frame.picked = c.stack.map some
  nodup : c.stack.Nodup
  stack : ∀ s ∈ c.stack, s ∈ nodes

theorem OnPath.innermost (h : OnPath nodes c) (hstatus : c.status = .running)
    (hframes : c.frames = f :: callers) : Innermost nodes c f callers where
  frames := hframes
  response := hframes ▸ h.response
  servers := hframes ▸ h.servers
  path := by
    rw [← path_of_not_inside (not_inside_of_running hstatus) hframes]
    exact h.path
  nodup := h.nodup
  stack := h.stack

theorem Innermost.onPath (h : Innermost nodes c f callers) (hstatus : ¬c.status.Inside) :
    OnPath nodes c where
  active := by simp [h.frames]
  response := h.frames ▸ h.response
  servers := h.frames ▸ h.servers
  path := by
    rw [path_of_not_inside hstatus h.frames]
    exact h.path
  nodup := h.nodup
  stack := h.stack

/-- The innermost call goes on with a part of its list. -/
theorem Innermost.drop (h : Innermost nodes c f callers) {f' : Frame}
    (hresponse : f'.response = f.response) (hservers : ∀ s ∈ f'.servers, s ∈ f.servers)
    (hframes : c'.frames = f' :: callers) (hstack : c'.stack = c.stack) :
    Innermost nodes c' f' callers := by
  obtain ⟨-, hresponses, hnodes, hpath, hnodup, hmem⟩ := h
  rw [List.forall_mem_cons] at hresponses hnodes
  refine ⟨hframes, List.forall_mem_cons.mpr ⟨hresponse.trans hresponses.1, hresponses.2⟩,
    List.forall_mem_cons.mpr ⟨?_, hnodes.2⟩, by rwa [hstack], by rwa [hstack], by rwa [hstack]⟩
  intro s hs
  exact hnodes.1 s (hservers s hs)

/-- The call `f` has picked `s` and put it on the stack. -/
theorem Innermost.push (h : Innermost nodes c f callers) {f' : Frame}
    (hpick : f.servers[f'.srvNum]? = some s) (hnew : s ∉ c.stack)
    (hservers : f'.servers = f.servers) (hresponse : f'.response = f.response) :
    (∀ g ∈ f' :: callers, g.response = 0) ∧ (∀ g ∈ f' :: callers, ∀ t ∈ g.servers, t ∈ nodes)
      ∧ (f' :: callers).reverse.map Frame.picked = (c.stack ++ [s]).map some
      ∧ (c.stack ++ [s]).Nodup ∧ ∀ t ∈ c.stack ++ [s], t ∈ nodes := by
  obtain ⟨-, hresponses, hnodes, hpath, hnodup, hmem⟩ := h
  rw [List.forall_mem_cons] at hresponses hnodes
  have hpicked : f'.picked = some s := by
    rw [Frame.picked, hservers, hpick]
  refine ⟨List.forall_mem_cons.mpr ⟨hresponse.trans hresponses.1, hresponses.2⟩,
    List.forall_mem_cons.mpr ⟨hservers ▸ hnodes.1, hnodes.2⟩, ?_, ?_, ?_⟩
  · calc (f' :: callers).reverse.map Frame.picked
        = callers.reverse.map Frame.picked ++ [f'.picked] := by
          rw [List.reverse_cons, List.map_append, List.map_singleton]
      _ = c.stack.map some ++ [some s] := by rw [hpath, hpicked]
      _ = (c.stack ++ [s]).map some := by rw [List.map_append, List.map_singleton]
  · exact hnodup.append (List.nodup_singleton s) (List.disjoint_singleton.mpr hnew)
  · intro t ht
    rcases List.mem_append.mp ht with hold | hlast
    · exact hmem t hold
    · rw [List.mem_singleton.mp hlast]
      exact hnodes.1 s (List.mem_of_getElem? hpick)

/-- **A query.** The program ends in it with the server on the path, or the server is off the path
again, or it refers to a list that a deeper call begins with. -/
theorem Innermost.afterParse (h : Innermost nodes c f callers) (hstatus : c.status = .running)
    {f' : Frame} (hpick : f.servers[f'.srvNum]? = some s) (hnew : s ∉ c.stack)
    (hservers : f'.servers = f.servers) (hresponse : f'.response = f.response)
    (hstatus' : c'.status = .running) (hstack' : c'.stack = c.stack ++ [s])
    {result : Except Fault Parsed}
    (hrefers : ∀ list, result = .ok (.servers list) → ∀ t ∈ list, t ∈ nodes) :
    OnPath nodes (Resolver.afterParse c' f' callers result)
      ∧ Shorter nodes (Resolver.afterParse c' f' callers result) c := by
  obtain ⟨hresponses, hnodes, hpath, hnodup, hmem⟩ := h.push hpick hnew hservers hresponse
  rw [← hstack'] at hpath hnodup hmem
  -- an exit from inside `parse` leaves the server on the stack
  have hended : ∀ status : Status, status.Inside →
      OnPath nodes { c' with frames := f' :: callers, status := status }
        ∧ Shorter nodes { c' with frames := f' :: callers, status := status } c := by
    intro status hinside
    have hhalted : status ≠ .running := by
      rintro rfl
      exact hinside
    refine ⟨⟨List.cons_ne_nil _ _, hresponses, hnodes, ?_, hnodup, hmem⟩,
      shorter_of_halted hstatus hhalted⟩
    rw [Config.path, if_pos hinside]
    exact hpath
  unfold Resolver.afterParse
  split
  case h_5 =>
    have hdrop : Innermost nodes { c' with
        frames := nextRound f' :: callers, stack := c'.stack.dropLast } (nextRound f') callers := by
      refine h.drop hresponse (fun t ht => ?_) rfl ?_
      · rw [← hservers]
        exact List.mem_of_mem_eraseIdx ht
      · dsimp only
        rw [hstack', List.dropLast_concat]
    refine ⟨hdrop.onPath (not_inside_of_running hstatus'), shorter_of_servers
      (hstatus'.trans hstatus.symm) ?_ h.frames rfl ?_⟩
    · rw [hstack', List.dropLast_concat]
    · have hlt := (List.getElem?_eq_some_iff.mp hpick).1
      rw [nextRound, hservers, List.length_eraseIdx_of_lt hlt]
      omega
  case h_6 list hlist =>
    have hdeeper : OnPath nodes { c' with frames := enter list :: f' :: callers } := by
      refine ⟨List.cons_ne_nil _ _, List.forall_mem_cons.mpr ⟨rfl, hresponses⟩,
        List.forall_mem_cons.mpr ⟨hrefers list rfl, hnodes⟩, ?_, hnodup, hmem⟩
      rw [path_of_not_inside (c := { c' with frames := _ :: _ })
        (not_inside_of_running hstatus') rfl]
      exact hpath
    refine ⟨hdeeper, shorter_of_stack (hstatus'.trans hstatus.symm) ?_ hdeeper.length_le⟩
    rw [hstack', List.length_append, List.length_singleton]
  all_goals exact hended _ trivial

theorem OnPath.step (h : OnPath nodes c) (hrefers : input.RefersWithin nodes)
    (hstep : step pktHeader pktPayload c input = some c') :
    OnPath nodes c' ∧ Shorter nodes c' c := by
  obtain ⟨hstatus, hround⟩ := step_round hstep
  cases hround with
  | @skip f callers s hframes hmem hstack =>
      have hdrop : Innermost nodes
          { c with frames := { f with servers := f.servers.erase s } :: callers }
          { f with servers := f.servers.erase s } callers :=
        (h.innermost hstatus hframes).drop rfl (fun t ht => List.mem_of_mem_erase ht) rfl rfl
      refine ⟨hdrop.onPath (not_inside_of_running hstatus),
        shorter_of_servers rfl rfl hframes rfl ?_⟩
      have hpos := List.length_pos_of_mem hmem
      rw [List.length_erase_of_mem hmem]
      omega
  | @query f callers srvNum s hframes hpick hnew =>
      unfold queryServer
      apply (h.innermost hstatus hframes).afterParse hstatus hpick hnew
      · rfl
      · rfl
      · exact hstatus
      · rfl
      · exact hrefers _ _ _
  | @exhausted f callers hframes hempty =>
      refine ⟨⟨h.active, h.response, h.servers, ?_, h.nodup, h.stack⟩,
        shorter_of_halted hstatus (by simp)⟩
      rw [path_of_not_inside (c := { c with status := .noRecordAvalible }) id hframes,
        ← path_of_not_inside (not_inside_of_running hstatus) hframes]
      exact h.path
  -- nothing ever sets `Response`, so no call returns
  | leave hframes hresponse => exact absurd (h.response _ (by simp [hframes])) hresponse
  | resume hframes hresponse => exact absurd (h.response _ (by simp [hframes])) hresponse

/-! ### Every run -/

theorem OnPath.halted (h : OnPath nodes c)
    (hhalt : Resolver.step pktHeader pktPayload c input = none) : c.status ≠ .running := by
  intro hstatus
  obtain ⟨f, callers, hframes⟩ := List.exists_cons_of_ne_nil h.active
  by_cases hempty : f.servers = []
  · rw [step_of_exhausted hstatus hframes hempty] at hhalt
    cases hhalt
  · have hresponse := h.response f (by simp [hframes])
    obtain ⟨s, -, hstep⟩ := step_of_servers pktHeader pktPayload input hstatus hframes hresponse
      hempty
    rw [hstep] at hhalt
    cases hhalt

/-- A step queries one server at most, and none that is on the stack. -/
theorem sent_of_step (hstep : step pktHeader pktPayload c input = some c') :
    c'.sent = c.sent ∨ ∃ e, c'.sent = c.sent ++ [e] ∧ e.server ∉ c.stack := by
  obtain ⟨-, hround⟩ := step_round hstep
  cases hround with
  | query hframes hpick hnew => exact .inr ⟨_, sent_afterParse _, hnew⟩
  | skip | exhausted | leave | resume => exact .inl rfl

/-- **The stack is the path.** However the servers behave over a finite universe, and whatever
`rand()` gives, the run of `attempt` on any list ends. In every state, no server is on the stack
twice, the stack holds the servers that the active calls are querying, and the next query goes to
none of these. -/
theorem attempt_ends_on_path {servers : List Server} {inputs : ℕ → Input}
    (hrefers : ∀ k, (inputs k).RefersWithin nodes) :
    (∃ k c, along (step pktHeader pktPayload) (start servers []) inputs k = some c
        ∧ c.status ≠ .running)
      ∧ ∀ k c, along (step pktHeader pktPayload) (start servers []) inputs k = some c →
        c.stack.Nodup ∧ c.path = c.stack.map some
          ∧ ∀ c', step pktHeader pktPayload c (inputs k) = some c' →
            c'.sent = c.sent ∨ ∃ e, c'.sent = c.sent ++ [e] ∧ some e.server ∉ c.path := by
  -- the universe, with the servers of the first list
  have hstart : OnPath (nodes ∪ servers.toFinset) (start servers []) :=
    onPath_start fun s hs => Finset.mem_union_right _ (List.mem_toFinset.mpr hs)
  have hstep : ∀ c input c', OnPath (nodes ∪ servers.toFinset) c → input.RefersWithin nodes →
      step pktHeader pktPayload c input = some c' →
      OnPath (nodes ∪ servers.toFinset) c' ∧ Shorter (nodes ∪ servers.toFinset) c' c := by
    intro c input c' h hinput hstep
    apply h.step ?_ hstep
    intro s datagram numbytes list hreply t ht
    exact Finset.mem_union_left _ (hinput s datagram numbytes list hreply t ht)
  constructor
  · obtain ⟨k, c, hrun, h, hhalt⟩ := exists_halt (step pktHeader pktPayload)
      (wellFounded_shorter _) (OnPath (nodes ∪ servers.toFinset)) (Input.RefersWithin nodes) hstart
      hstep inputs hrefers
    exact ⟨k, c, hrun, h.halted hhalt⟩
  · intro k c hrun
    have h : OnPath (nodes ∪ servers.toFinset) c :=
      (reaches_of_along (fun _ input => input.RefersWithin nodes) (fun _ k => hrefers k)
        hrun).invariant hstart fun c input c' h hinput hnext => (hstep c input c' h hinput hnext).1
    refine ⟨h.nodup, h.path, ?_⟩
    intro c' hnext
    rw [h.path]
    rcases sent_of_step hnext with hnone | ⟨e, hsent, hnew⟩
    · exact .inl hnone
    · refine .inr ⟨e, hsent, ?_⟩
      rwa [List.mem_map_of_injective (Option.some_injective _)]

/-- In every other round, all servers refuse. -/
def sampleInputs (k : ℕ) : Input :=
  ⟨k, replyFrom (if k % 2 = 0 then sampleOut else fun _ => some [])⟩

theorem out_of_replyFrom {out : Server → Option (List Server)} (datagram : Wire.Bytes)
    (numbytes : ℕ) {list : List Server}
    (h : replyFrom out s datagram numbytes = .ok (.servers list)) : out s = some list := by
  unfold replyFrom at h
  split at h <;> cases h
  assumption

theorem sampleInputs_refersWithin (k : ℕ) : (sampleInputs k).RefersWithin {sampleLame} := by
  intro s datagram numbytes list hreply t ht
  have hout := out_of_replyFrom datagram numbytes hreply
  split_ifs at hout
  · unfold sampleOut at hout
    split_ifs at hout <;> cases hout
    · cases ht
    · exact Finset.mem_singleton.mpr (List.mem_singleton.mp ht)
  · cases hout
    cases ht

theorem attempt_ends_on_path_sample :
    (∃ k c, along (step sampleHeader sampleQuestion) (start samplePair []) sampleInputs k = some c
        ∧ c.status ≠ .running)
      ∧ ∀ k c,
        along (step sampleHeader sampleQuestion) (start samplePair []) sampleInputs k = some c →
        c.stack.Nodup ∧ c.path = c.stack.map some
          ∧ ∀ c', step sampleHeader sampleQuestion c (sampleInputs k) = some c' →
            c'.sent = c.sent ∨ ∃ e, c'.sent = c.sent ++ [e] ∧ some e.server ∉ c.path :=
  attempt_ends_on_path sampleInputs_refersWithin

end Networking.Resolver

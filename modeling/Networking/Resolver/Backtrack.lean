import Networking.Lib.Descent
import Networking.Resolver.Packet

/-!
# The search of `attempt`

Every server is modelled by the outcome of a query: `out s = none` when its response is an
authoritative answer, and `out s = some l` when `parse` returns the list `l`. The servers being
queried are then a walk down the referrals. A call whose list runs out does not return to the
calling one, which may have servers left: it exits. So the search finds an answer for every
sequence of picks only when there is no dead end that it could run into.
-/

namespace Networking.Resolver

open Wire Transition Descent

variable {pktHeader : Header} {pktPayload : Question} {out : Server → Option (List Server)}
  {servers : List Server}

/-- What `parse` makes of the response of a server with a fixed outcome. -/
def replyFrom (out : Server → Option (List Server)) (s : Server) (_datagram : Bytes)
    (numbytes : ℕ) : Except Fault Parsed :=
  match out s with
  | none => .ok (.successParse [] numbytes 1)
  | some l => .ok (.servers l)

/-- The run of `attempt` from `main`, for the values `rand` of `rand()`, comes to an end with
`status`. -/
def EndsIn (pktHeader : Header) (pktPayload : Question) (out : Server → Option (List Server))
    (servers : List Server) (rand : ℕ → ℕ) (status : Status) : Prop :=
  ∃ k c, along (step pktHeader pktPayload) (start servers [])
      (fun i => ⟨rand i, replyFrom out⟩) k = some c
    ∧ c.status = status ∧ status ≠ .running

theorem step_of_not_running {c : Config} {input : Input} (hstatus : c.status ≠ .running) :
    step pktHeader pktPayload c input = none := by
  unfold step
  split
  · exact absurd ‹_› hstatus
  · rfl

theorem EndsIn.unique {rand : ℕ → ℕ} {status status' : Status}
    (h : EndsIn pktHeader pktPayload out servers rand status)
    (h' : EndsIn pktHeader pktPayload out servers rand status') : status = status' := by
  obtain ⟨k, c, hrun, rfl, hend⟩ := h
  obtain ⟨k', c', hrun', rfl, hend'⟩ := h'
  rcases lt_trichotomy k k' with hlt | rfl | hlt
  · cases hrun'.symm.trans (along_of_halt hrun (step_of_not_running hend) hlt)
  · cases hrun.symm.trans hrun'
    rfl
  · cases hrun.symm.trans (along_of_halt hrun' (step_of_not_running hend') hlt)

/-! ### A round of the search -/

section Search

variable (pktHeader : Header) (pktPayload : Question) (c : Config) (f : Frame)
  (callers : List Frame) (srvNum : ℕ) {s : Server}

theorem queryServer_answer (hout : out s = none) :
    (queryServer pktHeader pktPayload c f callers srvNum s (replyFrom out)).status
      = .answered := by
  simp only [queryServer, replyFrom, hout, afterParse]

theorem queryServer_nothing (hout : out s = some []) :
    ∃ f', queryServer pktHeader pktPayload c f callers srvNum s (replyFrom out)
        = { c with
            frames := f' :: callers
            sent := (queryServer pktHeader pktPayload c f callers srvNum s (replyFrom out)).sent }
      ∧ f'.servers = f.servers.eraseIdx srvNum ∧ f'.response = f.response := by
  simp only [queryServer, replyFrom, hout, afterParse, List.dropLast_concat]
  exact ⟨_, rfl, rfl, rfl⟩

theorem queryServer_referral {next : List Server} (hout : out s = some next) (hnext : next ≠ []) :
    ∃ f', queryServer pktHeader pktPayload c f callers srvNum s (replyFrom out)
        = { c with
            frames := enter next :: f' :: callers
            stack := c.stack ++ [s]
            sent := (queryServer pktHeader pktPayload c f callers srvNum s
              (replyFrom out)).sent } := by
  obtain ⟨t, l, rfl⟩ := List.exists_cons_of_ne_nil hnext
  simp only [queryServer, replyFrom, hout, afterParse]
  exact ⟨_, rfl⟩

end Search

/-! ### Where the search stands -/

/-- The innermost call stands at the end of a walk over the servers on the stack, and whatever it
has dropped from its list is spent. -/
structure Searching (out : Server → Option (List Server)) (servers : List Server) (c : Config)
    (f : Frame) (callers : List Frame) : Prop where
  frames : c.frames = f :: callers
  response : f.response = 0
  walk : ∃ here, Walk out servers c.stack here ∧ f.servers ⊆ here
    ∧ ∀ s ∈ here, s ∈ f.servers ∨ Spent out c.stack s

/-- The search goes on, has found an answer, or has run into a dead end. -/
inductive Stands (out : Server → Option (List Server)) (servers : List Server) (c : Config) : Prop
  | running {f : Frame} {callers : List Frame} (hstatus : c.status = .running)
      (hsearch : Searching out servers c f callers)
  | answered (hstatus : c.status = .answered)
  | noRecordAvalible (hstatus : c.status = .noRecordAvalible) (hdead : DeadEnd out servers)

theorem stands_start : Stands out servers (start servers []) :=
  .running rfl ⟨rfl, rfl, servers, .nil, fun _ hs => hs, fun _ hs => .inl hs⟩

theorem mem_or_mem_eraseIdx {l : List Server} {i : ℕ} {s t : Server} (hpick : l[i]? = some s)
    (ht : t ∈ l) : t = s ∨ t ∈ l.eraseIdx i := by
  obtain ⟨j, hj⟩ := List.getElem?_of_mem ht
  rcases eq_or_ne j i with rfl | hne
  · left
    exact Option.some_injective _ (hj.symm.trans hpick)
  · right
    exact List.mem_eraseIdx_iff_getElem?.mpr ⟨j, hne, hj⟩

section Search

variable {c c' : Config} {f : Frame} {callers : List Frame} {srvNum : ℕ} {s : Server}

theorem Searching.skip (h : Searching out servers c f callers) (hstack : s ∈ c.stack) :
    Searching out servers
      { c with frames := { f with servers := f.servers.erase s } :: callers }
      { f with servers := f.servers.erase s } callers := by
  obtain ⟨here, hwalk, hsub, hspent⟩ := h.walk
  refine ⟨rfl, h.response, here, hwalk, fun t ht => hsub (List.mem_of_mem_erase ht), ?_⟩
  intro t ht
  rcases hspent t ht with hleft | hdone
  · by_cases hts : t = s
    · exact .inr (.inl (hts ▸ hstack))
    · exact .inl ((List.mem_erase_of_ne hts).mpr hleft)
  · exact .inr hdone

theorem Searching.nothing (h : Searching out servers c f callers)
    (hpick : f.servers[srvNum]? = some s) (hout : out s = some []) {f' : Frame}
    (hservers : f'.servers = f.servers.eraseIdx srvNum) (hresponse : f'.response = f.response)
    (hframes : c'.frames = f' :: callers) (hstack : c'.stack = c.stack) :
    Searching out servers c' f' callers := by
  obtain ⟨here, hwalk, hsub, hspent⟩ := h.walk
  refine ⟨hframes, hresponse.trans h.response, here, hstack ▸ hwalk, ?_, ?_⟩
  · rw [hservers]
    exact fun t ht => hsub (List.mem_of_mem_eraseIdx ht)
  · intro t ht
    rw [hservers, hstack]
    rcases hspent t ht with hleft | hdone
    · rcases mem_or_mem_eraseIdx hpick hleft with rfl | hrest
      · exact .inr (.inr hout)
      · exact .inl hrest
    · exact .inr hdone

theorem Searching.referral {next : List Server} (h : Searching out servers c f callers)
    (hmem : s ∈ f.servers) (hnew : s ∉ c.stack) (hout : out s = some next) (hnext : next ≠ [])
    {callers' : List Frame} (hframes : c'.frames = enter next :: callers')
    (hstack : c'.stack = c.stack ++ [s]) :
    Searching out servers c' (enter next) callers' := by
  obtain ⟨here, hwalk, hsub, -⟩ := h.walk
  refine ⟨hframes, rfl, next, ?_, fun _ ht => ht, fun _ ht => .inl ht⟩
  rw [hstack]
  exact hwalk.snoc (hsub hmem) hnew hout hnext

theorem Searching.deadEnd (h : Searching out servers c f callers) (hservers : f.servers = []) :
    DeadEnd out servers := by
  obtain ⟨here, hwalk, -, hspent⟩ := h.walk
  refine ⟨c.stack, here, hwalk, fun t ht => ?_⟩
  rcases hspent t ht with hleft | hdone
  · rw [hservers] at hleft
    cases hleft
  · exact hdone

theorem Stands.searching (h : Stands out servers c) (hstatus : c.status = .running) :
    ∃ f callers, Searching out servers c f callers := by
  cases h with
  | running _ hsearch => exact ⟨_, _, hsearch⟩
  | answered h => simp [hstatus] at h
  | noRecordAvalible h _ => simp [hstatus] at h

end Search

/-! ### Every search ends -/

section Halt

variable {nodes : Finset Server} {c c' : Config} {f : Frame} {callers : List Frame} {rand : ℕ}

/-- What is left of a search over `nodes`, in the order in which it goes down. -/
def remaining (nodes : Finset Server) (c : Config) : ℕ × ℕ × ℕ :=
  (if c.status = .running then 1 else 0, nodes.card - c.stack.length,
    (c.frames.head?.elim 0 fun f => f.servers.length))

def Shorter (nodes : Finset Server) (c' c : Config) : Prop :=
  Prod.Lex (· < ·) (Prod.Lex (· < ·) (· < ·)) (remaining nodes c') (remaining nodes c)

theorem wellFounded_shorter (nodes : Finset Server) : WellFounded (Shorter nodes) :=
  InvImage.wf (remaining nodes)
    (WellFounded.prod_lex wellFounded_lt (WellFounded.prod_lex wellFounded_lt wellFounded_lt))

theorem shorter_of_halted (hrunning : c.status = .running) (hhalted : c'.status ≠ .running) :
    Shorter nodes c' c := by
  refine Prod.Lex.left _ _ ?_
  rw [if_pos hrunning, if_neg hhalted]
  exact Nat.zero_lt_one

theorem shorter_of_stack (hstatus : c'.status = c.status)
    (hstack : c'.stack.length = c.stack.length + 1) (hle : c'.stack.length ≤ nodes.card) :
    Shorter nodes c' c := by
  rw [Shorter, remaining, remaining, hstatus]
  exact Prod.Lex.right _ (Prod.Lex.left _ _ (by omega))

theorem shorter_of_servers {f' : Frame} {callers' : List Frame} (hstatus : c'.status = c.status)
    (hstack : c'.stack = c.stack) (hframes : c.frames = f :: callers)
    (hframes' : c'.frames = f' :: callers') (hlt : f'.servers.length < f.servers.length) :
    Shorter nodes c' c := by
  rw [Shorter, remaining, remaining, hstatus, hstack, hframes, hframes']
  exact Prod.Lex.right _ (Prod.Lex.right _ hlt)

/-- **A round of the search.** It keeps where the search stands, and brings it closer to its end. -/
theorem Stands.step (hservers : ∀ s ∈ servers, s ∈ nodes)
    (hclosed : ∀ s ∈ nodes, ∀ l, out s = some l → ∀ t ∈ l, t ∈ nodes)
    (h : Stands out servers c)
    (hstep : step pktHeader pktPayload c ⟨rand, replyFrom out⟩ = some c') :
    Stands out servers c' ∧ Shorter nodes c' c := by
  obtain ⟨hstatus, hround⟩ := step_round hstep
  obtain ⟨f, callers, hsearch⟩ := h.searching hstatus
  -- a referral makes the stack longer, and every other round that goes on makes the list shorter
  cases hround with
  | @skip f₁ callers₁ s hframes hmem hstack =>
      obtain ⟨rfl, rfl⟩ : f = f₁ ∧ callers = callers₁ := by
        simpa using hsearch.frames.symm.trans hframes
      refine ⟨.running hstatus (hsearch.skip hstack),
        shorter_of_servers rfl rfl hframes rfl ?_⟩
      have := List.length_erase_of_mem hmem
      have := List.length_pos_of_mem hmem
      dsimp only
      omega
  | @query f₁ callers₁ srvNum s hframes hpick hnew =>
      obtain ⟨rfl, rfl⟩ : f = f₁ ∧ callers = callers₁ := by
        simpa using hsearch.frames.symm.trans hframes
      cases hout : out s with
      | none =>
          have hanswer := queryServer_answer pktHeader pktPayload c f callers srvNum hout
          exact ⟨.answered hanswer, shorter_of_halted hstatus (by simp [hanswer])⟩
      | some next =>
          by_cases hnext : next = []
          · subst hnext
            obtain ⟨f', heq, hleft, hresponse⟩ := queryServer_nothing pktHeader pktPayload c f
              callers srvNum hout
            rw [heq]
            refine ⟨.running hstatus (hsearch.nothing hpick hout hleft hresponse rfl rfl),
              shorter_of_servers rfl rfl hframes rfl ?_⟩
            obtain ⟨hlt, -⟩ := List.getElem?_eq_some_iff.mp hpick
            rw [hleft, List.length_eraseIdx_of_lt hlt]
            omega
          · obtain ⟨f', heq⟩ :=
              queryServer_referral pktHeader pktPayload c f callers srvNum hout hnext
            rw [heq]
            have hdeeper : Searching out servers
                { c with
                  frames := enter next :: f' :: callers
                  stack := c.stack ++ [s]
                  sent := (queryServer pktHeader pktPayload c f callers srvNum s
                    (replyFrom out)).sent } (enter next) (f' :: callers) :=
              hsearch.referral (List.mem_of_getElem? hpick) hnew hout hnext rfl rfl
            obtain ⟨here, hwalk, -⟩ := hdeeper.walk
            exact ⟨.running hstatus hdeeper,
              shorter_of_stack rfl (by simp) (hwalk.length_le hservers hclosed)⟩
  | @exhausted f₁ callers₁ hframes hempty =>
      obtain ⟨rfl, rfl⟩ : f = f₁ ∧ callers = callers₁ := by
        simpa using hsearch.frames.symm.trans hframes
      exact ⟨.noRecordAvalible rfl (hsearch.deadEnd hempty),
        shorter_of_halted hstatus (by simp)⟩
  -- nothing ever sets `Response`, so no call returns
  | @leave f₁ hframes hresponse =>
      obtain ⟨rfl, rfl⟩ : f = f₁ ∧ callers = [] := by
        simpa using hsearch.frames.symm.trans hframes
      exact absurd hsearch.response hresponse
  | @resume f₁ g callers₁ hframes hresponse =>
      obtain ⟨rfl, rfl⟩ : f = f₁ ∧ callers = g :: callers₁ := by
        simpa using hsearch.frames.symm.trans hframes
      exact absurd hsearch.response hresponse

theorem Searching.step_ne_none (hsearch : Searching out servers c f callers)
    (hstatus : c.status = .running) (input : Input) :
    Resolver.step pktHeader pktPayload c input ≠ none := by
  by_cases hempty : f.servers = []
  · rw [step_of_exhausted hstatus hsearch.frames hempty]
    exact Option.some_ne_none _
  · obtain ⟨s, -, hstep⟩ := step_of_servers pktHeader pktPayload input hstatus hsearch.frames
       hsearch.response hempty
    rw [hstep]
    exact Option.some_ne_none _

/-- **Every search ends.** It ends with an answer, or in a dead end. -/
theorem endsIn_or_deadEnd (hservers : ∀ s ∈ servers, s ∈ nodes)
    (hclosed : ∀ s ∈ nodes, ∀ l, out s = some l → ∀ t ∈ l, t ∈ nodes) (rand : ℕ → ℕ) :
    EndsIn pktHeader pktPayload out servers rand .answered ∨ DeadEnd out servers := by
  obtain ⟨k, c, hrun, hstands, hhalt⟩ := exists_halt (step pktHeader pktPayload)
    (wellFounded_shorter nodes) (Stands out servers) (fun input => input.reply = replyFrom out)
    stands_start
    (fun c input c' h hproper hstep => by
      obtain ⟨r, reply⟩ := input
      cases hproper
      exact h.step hservers hclosed hstep)
    (fun i => ⟨rand i, replyFrom out⟩) fun _ => rfl
  cases hstands with
  | running hstatus hsearch => exact absurd hhalt (hsearch.step_ne_none hstatus _)
  | answered hstatus => exact .inl ⟨k, c, hrun, hstatus, by simp⟩
  | noRecordAvalible _ hdead => exact .inr hdead

theorem deadEnd_of_endsIn (hservers : ∀ s ∈ servers, s ∈ nodes)
    (hclosed : ∀ s ∈ nodes, ∀ l, out s = some l → ∀ t ∈ l, t ∈ nodes) {rand : ℕ → ℕ}
    (hend : EndsIn pktHeader pktPayload out servers rand .noRecordAvalible) :
    DeadEnd out servers := by
  obtain ⟨k, c, hrun, hstatus, -⟩ := hend
  have hstands : Stands out servers c :=
    (reaches_of_along (fun _ input => input.reply = replyFrom out)
      (fun _ _ => rfl) hrun).invariant (P := Stands out servers) stands_start
      fun c input c' h hproper hstep => by
        obtain ⟨r, reply⟩ := input
        cases hproper
        exact (h.step hservers hclosed hstep).1
  cases hstands with
  | running h _ => simp [hstatus] at h
  | answered h => simp [hstatus] at h
  | noRecordAvalible _ hdead => exact hdead

end Halt

/-! ### A dead end can be run into -/

section Drive

variable {c : Config}

/-- The states that some values of `rand()` lead to. -/
abbrev Led (pktHeader : Header) (pktPayload : Question) (out : Server → Option (List Server)) :
    Config → Config → Prop :=
  Reaches (step pktHeader pktPayload) fun _ input => input.reply = replyFrom out

/-- The innermost call is about to pick one of the servers `left`. -/
structure Picking (c : Config) (left path : List Server) : Prop where
  running : c.status = .running
  frames : ∃ f callers, c.frames = f :: callers ∧ f.response = 0 ∧ f.servers = left
  stack : c.stack = path

theorem Picking.pick (pktHeader : Header) (pktPayload : Question)
    (out : Server → Option (List Server)) {left path : List Server} {s : Server} {i : ℕ}
    (h : Picking c left path)
    (hpick : left[i]? = some s) :
    ∃ f callers, f.response = 0 ∧ f.servers = left
      ∧ step pktHeader pktPayload c ⟨i, replyFrom out⟩ = some (if s ∈ path then
          { c with frames := { f with servers := left.erase s } :: callers }
        else queryServer pktHeader pktPayload c f callers i s (replyFrom out)) := by
  obtain ⟨f, callers, hframes, hresponse, rfl⟩ := h.frames
  obtain ⟨hlt, hget⟩ := List.getElem?_eq_some_iff.mp hpick
  obtain ⟨s', hpick', hstep⟩ := step_of_servers pktHeader pktPayload ⟨i, replyFrom out⟩ h.running
    hframes hresponse (List.ne_nil_of_length_pos (by omega))
  rw [Nat.mod_eq_of_lt hlt] at hpick' hstep
  obtain rfl : s' = s := Option.some_injective _ (hpick'.symm.trans hpick)
  exact ⟨f, callers, hresponse, rfl, h.stack ▸ hstep⟩

theorem led_of_walk (pktHeader : Header) (pktPayload : Question) {path here : List Server}
    (hwalk : Walk out servers path here) :
    ∃ c, Led pktHeader pktPayload out (start servers []) c ∧ Picking c here path := by
  induction hwalk with
  | nil => exact ⟨_, .refl, rfl, ⟨_, _, rfl, rfl, rfl⟩, rfl⟩
  | @snoc path here next s _ hmem hnew hout hnext ih =>
      obtain ⟨c, hled, hpicking⟩ := ih
      obtain ⟨i, hpick⟩ := List.getElem?_of_mem hmem
      obtain ⟨f, callers, -, -, hstep⟩ := hpicking.pick pktHeader pktPayload out hpick
      rw [if_neg hnew] at hstep
      refine ⟨_, hled.tail rfl hstep, ?_⟩
      obtain ⟨f', heq⟩ := queryServer_referral pktHeader pktPayload c f callers i hout hnext
      rw [heq]
      exact ⟨hpicking.running, ⟨_, _, rfl, rfl, rfl⟩, by rw [hpicking.stack]⟩

theorem Picking.spent (pktHeader : Header) (pktPayload : Question) {left path : List Server}
    {s : Server} (h : Picking c (s :: left) path)
    (hspent : Spent out path s) :
    ∃ c', step pktHeader pktPayload c ⟨0, replyFrom out⟩ = some c' ∧ Picking c' left path := by
  obtain ⟨f, callers, hresponse, hservers, hstep⟩ := h.pick pktHeader pktPayload out (i := 0) rfl
  refine ⟨_, hstep, ?_⟩
  split_ifs with hstack
  · exact ⟨h.running, ⟨_, _, rfl, hresponse, List.erase_cons_head _ _⟩, h.stack⟩
  · have hout := hspent.resolve_left hstack
    obtain ⟨f', heq, hleft, hresponse'⟩ :=
      queryServer_nothing pktHeader pktPayload c f callers 0 hout
    rw [heq]
    exact ⟨h.running, ⟨_, _, rfl, hresponse'.trans hresponse,
      by rw [hleft, hservers, List.eraseIdx_cons_zero]⟩, h.stack⟩

theorem led_of_spent (pktHeader : Header) (pktPayload : Question) {left path : List Server}
    (hspent : ∀ s ∈ left, Spent out path s)
    (hpicking : Picking c left path) :
    ∃ c', Led pktHeader pktPayload out c c' ∧ c'.status = .noRecordAvalible := by
  induction left generalizing c with
  | nil =>
      obtain ⟨f, callers, hframes, -, hservers⟩ := hpicking.frames
      exact ⟨_, .tail (a := ⟨0, replyFrom out⟩) .refl rfl
        (step_of_exhausted hpicking.running hframes hservers), rfl⟩
  | cons s left ih =>
      obtain ⟨c₁, hstep, hpicking₁⟩ := hpicking.spent pktHeader pktPayload
        (hspent s (.head left))
      obtain ⟨c', hled, hend⟩ := ih (fun t ht => hspent t (.tail s ht)) hpicking₁
      have hled₁ : Led pktHeader pktPayload out c c₁ := .tail .refl rfl hstep
      exact ⟨c', hled₁.trans hled, hend⟩

/-- **Dead ends are reached.** For some values of `rand()` the search runs into the dead end. -/
theorem endsIn_of_deadEnd (pktHeader : Header) (pktPayload : Question)
    (hdead : DeadEnd out servers) :
    ∃ rand, EndsIn pktHeader pktPayload out servers rand .noRecordAvalible := by
  obtain ⟨path, here, hwalk, hspent⟩ := hdead
  obtain ⟨c, hled, hpicking⟩ := led_of_walk pktHeader pktPayload hwalk
  obtain ⟨c', hled', hstatus⟩ := led_of_spent pktHeader pktPayload hspent hpicking
  obtain ⟨input, hproper, k, hrun⟩ := (hled.trans hled').exists_along
    (fun input : Input => input.reply = replyFrom out)
    (rfl : (Input.mk 0 (replyFrom out)).reply = _)
  refine ⟨fun i => (input i).rand, k, c', ?_, hstatus, by simp⟩
  rw [← hrun]
  exact along_congr fun i _ => congrArg (Input.mk (input i).rand) (hproper i).symm

end Drive

/-! ### When the search finds the answer -/

/-- **The search finds an answer for every sequence of picks, whenever a chain of referrals leads to
one, and ends with `No Record avalible` only when none does, exactly if no chain leads to an answer
or there is no dead end.** -/
theorem attempt_complete_iff {nodes : Finset Server} (hservers : ∀ s ∈ servers, s ∈ nodes)
    (hclosed : ∀ s ∈ nodes, ∀ l, out s = some l → ∀ t ∈ l, t ∈ nodes) :
    (∀ rand : ℕ → ℕ,
        (Answerable out servers → EndsIn pktHeader pktPayload out servers rand .answered)
        ∧ (EndsIn pktHeader pktPayload out servers rand .noRecordAvalible
            → ¬Answerable out servers))
      ↔ ¬Answerable out servers ∨ ¬DeadEnd out servers := by
  constructor
  · intro hcomplete
    by_cases hdead : DeadEnd out servers
    · obtain ⟨rand, hend⟩ := endsIn_of_deadEnd pktHeader pktPayload hdead
      exact .inl ((hcomplete rand).2 hend)
    · exact .inr hdead
  · rintro (hnone | hfree) rand
    · exact ⟨fun hchain => absurd hchain hnone, fun _ => hnone⟩
    · exact ⟨fun _ => (endsIn_or_deadEnd hservers hclosed rand).resolve_right hfree,
        fun hend => absurd (deadEnd_of_endsIn hservers hclosed hend) hfree⟩

/-! ### Two servers, one of them lame -/

def sampleLame : Server := ⟨ofString "10.0.0.1", ofString "lame"⟩

/-- The first server of `samplePair` refers to the lame one, which refuses; the second has the
answer. -/
def sampleOut (s : Server) : Option (List Server) :=
  if s.ip = ofString "192.228.79.201" then none
  else if s = sampleLame then some []
  else some [sampleLame]

theorem sampleOut_answerable : Answerable sampleOut samplePair :=
  ⟨[], samplePair, ⟨ofString "192.228.79.201", ofString "ns1.isi.edu"⟩, .nil, by decide, by decide⟩

theorem samplePair_endsIn :
    EndsIn sampleHeader sampleQuestion sampleOut samplePair (fun _ => 0) .noRecordAvalible :=
  ⟨3, _, rfl, rfl, by decide⟩

/-- Picking the first server ends the search at the lame one, though the second has the answer. -/
theorem lame_server_hides_answer :
    Answerable sampleOut samplePair
      ∧ EndsIn sampleHeader sampleQuestion sampleOut samplePair (fun _ => 0) .noRecordAvalible
      ∧ ¬EndsIn sampleHeader sampleQuestion sampleOut samplePair (fun _ => 0) .answered :=
  ⟨sampleOut_answerable, samplePair_endsIn, fun h => by cases h.unique samplePair_endsIn⟩

theorem attempt_complete_iff_sample :
    (∀ rand : ℕ → ℕ,
        (Answerable sampleOut samplePair →
          EndsIn sampleHeader sampleQuestion sampleOut samplePair rand .answered)
        ∧ (EndsIn sampleHeader sampleQuestion sampleOut samplePair rand .noRecordAvalible
            → ¬Answerable sampleOut samplePair))
      ↔ ¬Answerable sampleOut samplePair ∨ ¬DeadEnd sampleOut samplePair :=
  @attempt_complete_iff sampleHeader sampleQuestion sampleOut samplePair {sampleLame,
    ⟨ofString "198.41.0.4", ofString "ns.internic.net"⟩,
    ⟨ofString "192.228.79.201", ofString "ns1.isi.edu"⟩} (by decide) (by
      intro s _ l hout t ht
      rw [sampleOut] at hout
      split_ifs at hout <;> cases hout <;> simp_all)

end Networking.Resolver

import Mathlib.Logic.Function.Basic
import Networking.Net.Ownership

/-!
# `sync_service::listen`

The loop takes a connection, lets the callback work on a `sync_socket` for it and closes the
descriptor; at the end of the round the destructor of the `sync_socket` finds that it is the last
handle and closes the descriptor as well. In between, and at any other time, other threads open and
close descriptors of their own, and a number that has been closed may be given to them.

The `World` of the handles knows only the handles. The table of open descriptors is what the system
keeps: `soc_close` acts on it, whoever calls it.
-/

namespace Networking.Net.Listen

open Transition

/-- What an open descriptor is: the connection accepted in some round, or a file or socket of
somebody else. -/
inductive Holder
  | accepted (round : ℕ)
  | other
  deriving DecidableEq

/-- What the loop does next. -/
inductive Pc
  | accept
  | call
  | close
  | destroy
  deriving DecidableEq

/-- A call of `soc_close`, and what the number stood for. -/
structure Close where
  round : ℕ
  found : Option Holder
  deriving DecidableEq

/-- The loop with its variable `fd` and the index of `soc` among the handles, and the table. For the
record, the rounds that have begun and the calls of `soc_close`. -/
structure Service where
  world : World
  pc : Pc
  fd : ℤ
  soc : ℕ
  table : ℤ → Option Holder
  rounds : ℕ
  closes : List Close

/-- Before the first round, only others have descriptors. -/
def Service.start (isOpen : ℤ → Bool) : Service :=
  ⟨.init, .accept, 0, 0, fun fd => if isOpen fd then some .other else none, 0, []⟩

def Service.socClose (s : Service) (fd : ℤ) : Service :=
  { s with
    table := Function.update s.table fd none
    closes := s.closes ++ [⟨s.rounds - 1, s.table fd⟩] }

/-- The handles have changed, and what `check_close` closes goes out of the table. -/
def Service.handled (s : Service) (world : World) : Service :=
  (world.closed.drop s.world.closed.length).foldl Service.socClose { s with world := world }

inductive Action
  /-- `soc_accept` and the constructor of `soc`. -/
  | accept (fd : ℤ)
  /-- A step of the callback, and its return. -/
  | call (a : Net.Action)
  | returned
  /-- `soc_close(fd)`. -/
  | close
  /-- The destructor of `soc`. -/
  | destroy
  /-- Another thread opens or closes a descriptor of its own. -/
  | opened (fd : ℤ)
  | closed (fd : ℤ)

/-- What the callback may do with handles. It does not take the socket from `soc`. -/
def Allowed (soc : ℕ) : Net.Action → Bool
  | .construct | .copy _ => true
  | .assign i _ | .destroy i => i ≠ soc
  | _ => false

def step (s : Service) : Action → Option Service
  | .accept fd =>
      if s.pc = .accept ∧ 0 ≤ fd ∧ s.table fd = none then
        some { s with
          world := constructTcp s.world fd
          pc := .call
          fd := fd
          soc := s.world.handles.length
          table := Function.update s.table fd (some (.accepted s.rounds))
          rounds := s.rounds + 1 }
      else none
  | .call a =>
      if s.pc = .call ∧ Allowed s.soc a = true then (Net.step s.world a).map s.handled else none
  | .returned =>
      -- no copy of `soc` is left
      if s.pc = .call ∧ s.world.references s.fd = 1 then some { s with pc := .close } else none
  | .close => if s.pc = .close then some { s.socClose s.fd with pc := .destroy } else none
  | .destroy =>
      if s.pc = .destroy then
        (Net.step s.world (.destroy s.soc)).map fun world => { s.handled world with pc := .accept }
      else none
  | .opened fd =>
      if 0 ≤ fd ∧ s.table fd = none then
        some { s with table := Function.update s.table fd (some .other) }
      else none
  | .closed fd =>
      if s.table fd = some .other then
        some { s with table := Function.update s.table fd none }
      else none

/-- The rounds that are over. -/
def Service.ended (s : Service) : ℕ := if s.pc = .accept then s.rounds else s.rounds - 1

/-- How often `soc_close` has been called in a round. -/
def Service.closedIn (s : Service) (round : ℕ) : ℕ := s.closes.countP fun c => c.round = round

/-- Each connection accepted is closed once and not again, and what is closed is never anything
else. -/
structure Service.ClosedOnce (s : Service) : Prop where
  found : ∀ c ∈ s.closes, c.found = some (.accepted c.round)
  once : ∀ round < s.ended, s.closedIn round = 1
  atMost : ∀ round, s.closedIn round ≤ 1

/-! ### The handles in a round -/

variable {s t : Service} {a : Action} {w : World} {fd : ℤ}

/-- What holds at the head of a round and in it, whatever has been closed twice before. -/
structure Service.Regular (s : Service) : Prop where
  world : Invariant s.world
  soc : s.pc ≠ .accept → ∃ h, s.world.handles[s.soc]? = some (some h) ∧ h.conn = true ∧ h.fd = s.fd
  only : ∀ fd, s.world.references fd ≠ 0 → s.pc ≠ .accept ∧ fd = s.fd
  alone : s.pc = .close ∨ s.pc = .destroy → s.world.references s.fd = 1
  held : s.pc = .call ∨ s.pc = .close → s.table s.fd = some (.accepted (s.rounds - 1))
  rounds : s.pc ≠ .accept → 0 < s.rounds
  /-- A round that is over has closed twice. -/
  closedIn : ∀ round, s.closedIn round
    = if round < s.ended then 2 else if round < s.rounds ∧ s.pc = .destroy then 1 else 0

/-- The callback leaves `soc` alone and takes over no descriptor. -/
theorem allowed_same {soc : ℕ} {a : Net.Action} {w' : World} {h : SyncSocket}
    (hallowed : Allowed soc a = true) (hstep : Net.step w a = some w')
    (hsoc : w.handles[soc]? = some (some h)) :
    w'.handles[soc]? = some (some h) ∧ w'.opened = w.opened := by
  have hlt : soc < w.handles.length := (List.getElem?_eq_some_iff.mp hsoc).1
  cases a with
  | construct =>
      cases hstep
      exact ⟨(List.getElem?_append_left hlt).trans hsoc, rfl⟩
  | copy cpy =>
      obtain ⟨h', -, rfl⟩ := Option.map_eq_some_iff.mp hstep
      obtain ⟨hhandles, hopened, -⟩ := addRef_same w h'
      refine ⟨?_, hopened⟩
      rw [World.construct, hhandles, List.getElem?_append_left hlt, hsoc]
  | assign i asn =>
      obtain ⟨h', -, hassign⟩ := Option.bind_eq_some_iff.mp hstep
      have hne : i ≠ soc := of_decide_eq_true hallowed
      obtain ⟨hhandles, hopened⟩ := checkClose_same w h'
      cases hclose : checkClose w h' with
      | mk w₁ h₁ =>
          rw [hclose] at hhandles hopened
          rw [assign, hclose] at hassign
          obtain ⟨cpy, -, rfl⟩ := Option.map_eq_some_iff.mp hassign
          obtain ⟨hhandles', hopened', -⟩ := addRef_same (w₁.setHandle i (some h₁)) cpy
          constructor
          · rw [World.setHandle, hhandles', World.setHandle, hhandles, List.getElem?_set_ne hne,
              List.getElem?_set_ne hne, hsoc]
          · exact hopened'.trans hopened
  | destroy i =>
      obtain ⟨h', -, rfl⟩ := Option.map_eq_some_iff.mp hstep
      have hne : i ≠ soc := of_decide_eq_true hallowed
      obtain ⟨hhandles, hopened⟩ := checkClose_same w h'
      refine ⟨?_, hopened⟩
      rw [World.setHandle, hhandles, List.getElem?_set_ne hne, hsoc]
  | constructTcp | constructUdp | constructConnect | connect => cases hallowed

theorem local_of_allowed {soc : ℕ} {a : Net.Action} (hallowed : Allowed soc a = true) :
    a.Local := by
  cases a with
  | constructConnect | connect => cases hallowed
  | construct | constructTcp | constructUdp | copy | assign | destroy => trivial

theorem references_ne_zero {soc : ℕ} {h : SyncSocket} (hsoc : w.handles[soc]? = some (some h))
    (hconn : h.conn = true) : w.references h.fd ≠ 0 := fun hzero =>
  references_eq_zero_iff.mp hzero h ⟨List.mem_of_getElem? hsoc, hconn⟩ rfl

/-- While `soc` is there, the callback closes nothing. -/
theorem Service.Regular.allowed (hs : s.Regular) (hpc : s.pc = .call) {a : Net.Action} {w' : World}
    (hallowed : Allowed s.soc a = true) (hstep : Net.step s.world a = some w') :
    s.handled w' = { s with world := w' } ∧ Invariant w'
      ∧ ∀ fd, w'.references fd ≠ 0 → fd = s.fd := by
  have hne : s.pc ≠ .accept := by
    rw [hpc]
    decide
  obtain ⟨h, hsoc, hconn, hfd⟩ := hs.soc hne
  obtain ⟨hw', hchange⟩ := hs.world.stepLocal (local_of_allowed hallowed) hstep
  obtain ⟨hsoc', hopened⟩ := allowed_same hallowed hstep hsoc
  have hreleases := hchange.releases hs.world hw'
  obtain ⟨closed, hclosed⟩ := hchange.closed
  -- whatever it gives up, `soc` still refers to it
  have hcount : ∀ fd, w'.closed.count fd = s.world.closed.count fd := by
    intro fd
    rw [hreleases.closed fd, if_neg, Nat.add_zero]
    rintro ⟨hused, hunused⟩
    obtain ⟨-, rfl⟩ := hs.only fd hused
    exact references_ne_zero hsoc' hconn (hfd ▸ hunused)
  have hnone : closed = [] := by
    apply List.eq_nil_iff_forall_not_mem.mpr
    intro fd hmem
    have hpos := List.count_pos_iff.mpr hmem
    have hadd := hcount fd
    rw [← hclosed, List.count_append] at hadd
    omega
  refine ⟨?_, hw', fun fd hused => ?_⟩
  · rw [handled, ← hclosed, hnone, List.append_nil, List.drop_length]
    rfl
  · have hbefore := hs.world.ownership.closed fd
    have hafter := hw'.ownership.closed fd
    rw [if_neg hused, hcount, hopened] at hafter
    refine (hs.only fd fun hzero => ?_).2
    rw [if_pos hzero] at hbefore
    omega

/-- The destructor closes the descriptor again. -/
theorem Service.Regular.destroyed (hs : s.Regular) (hpc : s.pc = .destroy) {w' : World}
    (hstep : Net.step s.world (.destroy s.soc) = some w') :
    s.handled w' = { s with world := w' }.socClose s.fd ∧ Invariant w'
      ∧ ∀ fd, w'.references fd = 0 := by
  have hne : s.pc ≠ .accept := by
    rw [hpc]
    decide
  obtain ⟨h, hsoc, hconn, hfd⟩ := hs.soc hne
  obtain ⟨hw', hchange⟩ := hs.world.stepLocal (a := .destroy s.soc) trivial hstep
  have hreleases := hchange.releases hs.world hw'
  obtain ⟨closed, hclosed⟩ := hchange.closed
  have hlt : s.soc < s.world.handles.length := (List.getElem?_eq_some_iff.mp hsoc).1
  have hhandles : w'.handles = (s.world.setHandle s.soc none).handles := by
    obtain ⟨h', -, rfl⟩ := Option.map_eq_some_iff.mp hstep
    rw [World.setHandle, (checkClose_same s.world h').1, World.setHandle]
  have hreferences : ∀ fd, w'.references fd = (s.world.setHandle s.soc none).references fd :=
    fun fd => by rw [World.references, hhandles, World.references]
  have hzero : ∀ fd, w'.references fd = 0 := by
    intro fd
    rw [hreferences]
    by_cases hfd' : fd = s.fd
    · have hadd := references_setHandle hlt hconn
      rw [setHandle_self hsoc, hfd, hs.alone (.inr hpc)] at hadd
      rw [hfd']
      omega
    · have hunused : s.world.references fd = 0 := by
        by_contra hused
        exact hfd' (hs.only fd hused).2
      rw [references_eq_zero_iff] at hunused ⊢
      intro h' hh'
      have hold := hh'.setHandle (some h)
      rw [setHandle_self hsoc] at hold
      exact hunused h' hold
  refine ⟨?_, hw', hzero⟩
  have hperm : closed.Perm [s.fd] := by
    apply List.perm_iff_count.mpr
    intro fd
    have hcount := hreleases.closed fd
    rw [← hclosed, List.count_append, Nat.add_left_cancel_iff] at hcount
    rw [hcount, List.count_singleton]
    by_cases hfd' : fd = s.fd
    · have halone := hs.alone (.inr hpc)
      rw [if_pos ⟨by rw [hfd', halone]; decide, hzero fd⟩, hfd', if_pos (beq_self_eq_true _)]
    · rw [if_neg fun hboth => hfd' (hs.only fd hboth.1).2,
        if_neg fun heq => hfd' (eq_of_beq heq).symm]
  rw [handled, ← hclosed, List.drop_left, List.perm_singleton.mp hperm]
  rfl

/-! ### One step -/

theorem closedIn_socClose (s : Service) (fd : ℤ) (round : ℕ) :
    (s.socClose fd).closedIn round
      = s.closedIn round + if s.rounds - 1 = round then 1 else 0 := by
  rw [Service.closedIn, Service.socClose, List.countP_append, List.countP_singleton,
    Service.closedIn]
  simp only [decide_eq_true_eq]

theorem closedOnce_congr (hcloses : t.closes = s.closes) (hended : t.ended = s.ended) :
    t.ClosedOnce ↔ s.ClosedOnce := by
  have hcount : ∀ round, t.closedIn round = s.closedIn round := fun round => by
    rw [Service.closedIn, hcloses, Service.closedIn]
  constructor
  · rintro ⟨hfound, honce, hatMost⟩
    simp only [hcloses, hended, hcount] at hfound honce hatMost
    exact ⟨hfound, honce, hatMost⟩
  · rintro ⟨hfound, honce, hatMost⟩
    simp only [← hcloses, ← hended, ← hcount] at hfound honce hatMost
    exact ⟨hfound, honce, hatMost⟩

theorem unspoiled (hcloses : t.closes = s.closes) (hended : t.ended = s.ended)
    (ha : a ≠ .destroy) : t.ClosedOnce ↔ s.ClosedOnce ∧ a ≠ .destroy :=
  (closedOnce_congr hcloses hended).trans (and_iff_left ha).symm

theorem Service.Regular.start (isOpen : ℤ → Bool) : (Service.start isOpen).Regular where
  world := invariant_init
  soc h := absurd rfl h
  only fd h := absurd rfl h
  alone := by rintro (h | h) <;> cases h
  held := by rintro (h | h) <;> cases h
  rounds h := absurd rfl h
  closedIn round := rfl

theorem Service.Regular.others (hs : s.Regular) (table : ℤ → Option Holder)
    (hheld : ∀ round, s.table s.fd = some (.accepted round) → table s.fd = s.table s.fd) :
    { s with table := table }.Regular :=
  { hs with held := fun hpc => (hheld _ (hs.held hpc)).trans (hs.held hpc) }

theorem references_constructTcp (w : World) (fd fd' : ℤ) :
    (constructTcp w fd).references fd' = w.references fd' + if fd = fd' then 1 else 0 := by
  rw [World.references, constructTcp, World.construct, List.countP_append, List.countP_singleton,
    World.references]
  simp

theorem Service.Regular.accept (hs : s.Regular) (hpc : s.pc = .accept) (hfd : 0 ≤ fd) :
    Service.Regular { s with
      world := constructTcp s.world fd
      pc := .call
      fd := fd
      soc := s.world.handles.length
      table := Function.update s.table fd (some (.accepted s.rounds))
      rounds := s.rounds + 1 } := by
  have hunused : ∀ fd, s.world.references fd = 0 := by
    intro fd
    by_contra hused
    exact (hs.only fd hused).1 hpc
  have hbalance := hs.world.ownership.closed fd
  rw [if_pos (hunused fd), Nat.add_zero] at hbalance
  have hnew : Invariant (constructTcp s.world fd) := by
    have hconstruct := hs.world.constructNew ⟨hfd, hbalance⟩ [] nofun none 0
    simp only [List.append_nil, Option.map_none, Option.toList_none] at hconstruct
    exact hconstruct
  refine ⟨hnew, fun _ => ⟨_, List.getElem?_concat_length, rfl, rfl⟩, fun fd' hused => ?_, ?_,
    fun _ => Function.update_self _ _ _, fun _ => Nat.succ_pos _, fun round => ?_⟩
  · rw [references_constructTcp, hunused, Nat.zero_add] at hused
    refine ⟨nofun, ?_⟩
    by_contra hne
    exact hused (if_neg fun heq => hne heq.symm)
  · rintro (h | h) <;> cases h
  · have hclosed := hs.closedIn round
    rw [ended, hpc, if_pos rfl] at hclosed
    exact hclosed.trans (by simp [ended])

theorem Service.Regular.close (hs : s.Regular) (hpc : s.pc = .close) :
    Service.Regular { s.socClose s.fd with pc := .destroy }
      ∧ (Service.ClosedOnce { s.socClose s.fd with pc := .destroy } ↔ s.ClosedOnce) := by
  have hne : s.pc ≠ .accept := by
    rw [hpc]
    decide
  have hended : s.ended = s.rounds - 1 := if_neg hne
  have hpos := hs.rounds hne
  have hclosed := closedIn_socClose s s.fd
  have hcount : ∀ round, s.closedIn round = if round < s.rounds - 1 then 2 else 0 := by
    intro round
    rw [hs.closedIn round, hended, hpc]
    simp
  constructor
  · refine { hs with
      soc := fun _ => hs.soc hne
      only := fun fd hused => ⟨nofun, (hs.only fd hused).2⟩
      alone := fun _ => hs.alone (.inl hpc)
      held := by rintro (h | h) <;> cases h
      rounds := fun _ => hpos
      closedIn := fun round => (hclosed round).trans ?_ }
    rw [hcount]
    simp only [Service.ended, Service.socClose, reduceCtorEq, if_false, and_true]
    split_ifs <;> omega
  · constructor
    · intro h
      refine ⟨fun c hc => h.found c (List.mem_append_left _ hc), fun round hround => ?_,
        fun round => (Nat.le_add_right _ _).trans ((hclosed round).symm.le.trans (h.atMost round))⟩
      have honce := h.once round (hround.trans_eq hended)
      have hadd := hclosed round
      rw [hended] at hround
      rw [if_neg (by omega)] at hadd
      exact hadd.symm.trans honce
    · intro h
      refine ⟨fun c hc => ?_, fun round hround => ?_, fun round => ?_⟩
      · rcases List.mem_append.mp hc with hold | hnew
        · exact h.found c hold
        · rw [List.mem_singleton.mp hnew]
          exact hs.held (.inr hpc)
      · have honce := h.once round (hround.trans_eq hended.symm)
        have hlt : round < s.rounds - 1 := hround
        exact (hclosed round).trans (by rw [if_neg (by omega), honce])
      · have hatMost := h.atMost round
        refine (hclosed round).trans_le ?_
        rw [hcount] at hatMost ⊢
        split_ifs at hatMost ⊢ <;> omega

theorem Service.Regular.destroy (hs : s.Regular) (hpc : s.pc = .destroy) {world : World}
    (hworld : Net.step s.world (.destroy s.soc) = some world) :
    Service.Regular { s.handled world with pc := .accept }
      ∧ ¬Service.ClosedOnce { s.handled world with pc := .accept } := by
  obtain ⟨hclose, hinv, hunused⟩ := hs.destroyed hpc hworld
  have hne : s.pc ≠ .accept := by
    rw [hpc]
    decide
  have hpos := hs.rounds hne
  rw [hclose]
  have htwice : ∀ round,
      Service.closedIn { { s with world := world }.socClose s.fd with pc := .accept } round
        = if round < s.rounds then 2 else 0 := by
    intro round
    refine (closedIn_socClose { s with world := world } s.fd round).trans ?_
    have hbefore := hs.closedIn round
    rw [Service.ended, if_neg hne, hpc] at hbefore
    have hsame : Service.closedIn { s with world := world } round = s.closedIn round := rfl
    rw [hsame, hbefore]
    simp only [and_true]
    split_ifs <;> omega
  constructor
  · refine ⟨hinv, fun h => absurd rfl h, fun fd hused => absurd (hunused fd) hused, ?_, ?_,
      fun h => absurd rfl h, fun round => (htwice round).trans ?_⟩
    · rintro (h | h) <;> cases h
    · rintro (h | h) <;> cases h
    · simp [Service.ended, Service.socClose]
  · intro h
    have honce := h.once 0 hpos
    rw [htwice, if_pos hpos] at honce
    cases honce

/-- **One step** keeps the loop regular, and it spoils what has been done exactly at the end of a
round. -/
theorem Service.Regular.step (hs : s.Regular) (hstep : Listen.step s a = some t) :
    t.Regular ∧ (t.ClosedOnce ↔ s.ClosedOnce ∧ a ≠ .destroy) := by
  cases a with
  | accept fd =>
      obtain ⟨⟨hpc, hfd, -⟩, hstep⟩ := Option.ite_none_right_eq_some.mp hstep
      cases hstep
      have hended : s.ended = s.rounds := if_pos hpc
      exact ⟨hs.accept hpc hfd,
        unspoiled rfl hended.symm nofun⟩
  | call a =>
      obtain ⟨⟨hpc, hallowed⟩, hstep⟩ := Option.ite_none_right_eq_some.mp hstep
      obtain ⟨world, hworld, rfl⟩ := Option.map_eq_some_iff.mp hstep
      obtain ⟨hquiet, hinv, honly⟩ := hs.allowed hpc hallowed hworld
      have hne : s.pc ≠ .accept := by
        rw [hpc]
        decide
      obtain ⟨h, hsoc, hconn⟩ := hs.soc hne
      rw [hquiet]
      refine ⟨{ hs with
        world := hinv
        soc := fun _ => ⟨h, (allowed_same hallowed hworld hsoc).1, hconn⟩
        only := fun fd hused => ⟨hne, honly fd hused⟩
        alone := ?_ }, unspoiled rfl rfl nofun⟩
      rintro (h | h) <;> cases hpc.symm.trans h
  | returned =>
      obtain ⟨⟨hpc, halone⟩, hstep⟩ := Option.ite_none_right_eq_some.mp hstep
      cases hstep
      have hne : s.pc ≠ .accept := by
        rw [hpc]
        decide
      have hended : s.ended = s.rounds - 1 := if_neg hne
      exact ⟨{ hs with
        soc := fun _ => hs.soc hne
        only := fun fd hused => ⟨nofun, (hs.only fd hused).2⟩
        alone := fun _ => halone
        held := fun _ => hs.held (.inl hpc)
        rounds := fun _ => hs.rounds hne
        closedIn := fun round => (hs.closedIn round).trans (by simp [hpc, Service.ended]) },
        unspoiled rfl hended.symm nofun⟩
  | close =>
      obtain ⟨hpc, hstep⟩ := Option.ite_none_right_eq_some.mp hstep
      cases hstep
      obtain ⟨hregular, honce⟩ := hs.close hpc
      exact ⟨hregular, honce.trans (and_iff_left nofun).symm⟩
  | destroy =>
      obtain ⟨hpc, hstep⟩ := Option.ite_none_right_eq_some.mp hstep
      obtain ⟨world, hworld, rfl⟩ := Option.map_eq_some_iff.mp hstep
      obtain ⟨hregular, htwice⟩ := hs.destroy hpc hworld
      exact ⟨hregular, iff_of_false htwice fun h => h.2 rfl⟩
  | opened fd =>
      obtain ⟨⟨-, hfree⟩, hstep⟩ := Option.ite_none_right_eq_some.mp hstep
      cases hstep
      refine ⟨hs.others _ fun round hheld => Function.update_of_ne ?_ _ _,
        unspoiled rfl rfl nofun⟩
      rintro rfl
      cases hfree.symm.trans hheld
  | closed fd =>
      obtain ⟨hother, hstep⟩ := Option.ite_none_right_eq_some.mp hstep
      cases hstep
      refine ⟨hs.others _ fun round hheld => Function.update_of_ne ?_ _ _,
        unspoiled rfl rfl nofun⟩
      rintro rfl
      cases hother.symm.trans hheld

theorem Service.ClosedOnce.start (isOpen : ℤ → Bool) : (Service.start isOpen).ClosedOnce :=
  ⟨by rintro c ⟨⟩, fun round hround => absurd hround (Nat.not_lt_zero round),
    fun round => Nat.zero_le 1⟩

/-- **The accepted descriptors are closed once each, and nothing else is closed**, exactly as long
as no round has come to its end. -/
theorem closedOnce_iff (isOpen : ℤ → Bool) (input : ℕ → Action) {k : ℕ}
    (hk : along step (.start isOpen) input k = some s) :
    s.ClosedOnce ↔ ∀ j < k, input j ≠ .destroy := by
  have hiff := along_iff_of_step Service.Regular Service.ClosedOnce (fun _ a => a ≠ .destroy)
    (.start isOpen) (.start isOpen) (fun _ _ _ hs hstep => hs.step hstep) hk
  rw [hiff]
  constructor
  · intro h j hj
    obtain ⟨t, ht⟩ := exists_along_of_le hk hj.le
    exact h j hj t ht
  · exact fun h j hj _ _ => h j hj

/-- A round up to the point where the callback has returned and the descriptor is closed; the
callback has had a copy. -/
def oneRound (k : ℕ) : Action :=
  [.accept 5, .call (.copy 0), .call (.destroy 1), .returned, .close].getD k .returned

theorem closedOnce_oneRound :
    ∃ s, along step (.start fun fd => fd = 4) oneRound 5 = some s
      ∧ s.closes = [⟨0, some (.accepted 0)⟩] ∧ s.ClosedOnce := by
  obtain ⟨s, hk, hcloses⟩ : ∃ s, along step (.start fun fd => fd = 4) oneRound 5 = some s
      ∧ s.closes = [⟨0, some (.accepted 0)⟩] := ⟨_, rfl, rfl⟩
  refine ⟨s, hk, hcloses, (closedOnce_iff _ oneRound hk).mpr fun j hj => ?_⟩
  obtain rfl | rfl | rfl | rfl | rfl : j = 0 ∨ j = 1 ∨ j = 2 ∨ j = 3 ∨ j = 4 := by
    omega
  all_goals nofun

/-- Another thread gets the number before the destructor of `soc` runs. -/
def reused (k : ℕ) : Action :=
  [.accept 5, .returned, .close, .opened 5, .destroy].getD k .returned

theorem not_closedOnce_reused :
    ∃ s, along step (.start fun _ => false) reused 5 = some s
      ∧ s.closes = [⟨0, some (.accepted 0)⟩, ⟨0, some .other⟩] ∧ ¬s.ClosedOnce := by
  refine ⟨_, rfl, rfl, fun h => ?_⟩
  have hother := h.found ⟨0, some .other⟩ (.tail _ (.head _))
  cases hother

end Networking.Net.Listen

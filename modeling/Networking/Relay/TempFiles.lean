import Networking.Lib.Presentation
import Networking.Relay.Stone

/-!
# The temporary files of a stepping stone

`last_ss` has `wget` write to `file_<s>.tmp`, opens the file by its name, and removes it at the end.
All connections share one directory. Two threads in `last_ss` at the same time have different
descriptors and so different files, which makes what the thread sends that what its own `wget` has
written, as in a process that handles one connection only. When `system` fails without a word, what
an earlier thread has left under the name is sent instead. All this is about names that the shell
passes on to `wget` as they are.
-/

namespace Networking.Relay.Stone

open Transition Wire Segment Descriptors

variable {sockfd i j k n cursor : ℕ} {dir dir₀ : Bytes → Option ℕ} {data : ℕ → Bytes} {inodes : ℕ}
  {threads : List Thread} {t t' u : Thread} {p p' : Process} {found : Found} {h h' : Handler}
  {r : Outcome} {ev : Event} {c sent : Bytes} {literal : Bytes → Prop}

/-! ### What has been sent so far -/

/-- `last_ss` on the file `c`, run by itself with suitable results of its calls, comes to this
point. -/
def Sending (c : Bytes) (cursor : ℕ) (sent : Bytes) : Prop :=
  ∃ (headerSend : Progress) (sends : ℕ → Progress) (call : ℕ), ∀ sends' : ℕ → Progress,
    (∀ k < call, sends' k = sends k) →
      ∀ fuel, lastSs (fuel + call) headerSend sends' c = sendFile sends' c fuel call cursor sent

theorem send_upTo {β : Type} {items : List β} (hpos : 0 < n) (hle : n ≤ items.length) :
    send (.upTo n) items = some (items.take n) := by
  rw [send, Progress.moved, Option.map_some, max_eq_left hpos, min_eq_left hle]

theorem sending_header (hc : c ≠ []) (hpos : 0 < n) (hle : n ≤ FileHeader.size) :
    Sending c 0 ((fileHeader c.length).image.take n) := by
  refine ⟨.upTo n, fun _ => .whole, 0, fun sends _ fuel => ?_⟩
  have hsend : send (.upTo n) (FileHeader.image ⟨1, swap 4 (BitVec.ofNat 32 c.length)⟩)
      = some ((fileHeader c.length).image.take n) :=
    send_upTo hpos (by rwa [FileHeader.length_image])
  rw [lastSs, if_neg hc]
  simp only [hsend, Nat.add_zero]

theorem Sending.more (hsending : Sending c cursor sent) (hpos : 0 < n)
    (hle : n ≤ min bufSize (c.length - cursor)) :
    Sending c (cursor + n) (sent ++ (c.drop cursor).take n) := by
  obtain ⟨headerSend, sends, call, hrun⟩ := hsending
  refine ⟨headerSend, Function.update sends call (.upTo n), call + 1, fun sends' hsame fuel => ?_⟩
  have hbefore : ∀ k < call, sends' k = sends k := by
    intro k hk
    rw [hsame k (Nat.lt_succ_of_lt hk), Function.update_of_ne hk.ne]
  have hnow : sends' call = .upTo n := by
    rw [hsame call (Nat.lt_succ_self call), Function.update_self]
  have hlt : cursor < c.length := by omega
  have hpiece : ((c.drop cursor).take (min bufSize (c.length - cursor))).length
      = min bufSize (c.length - cursor) := by
    rw [List.length_take, List.length_drop]
    omega
  calc lastSs (fuel + (call + 1)) headerSend sends' c
      = lastSs (fuel + 1 + call) headerSend sends' c := by rw [Nat.add_right_comm, Nat.add_assoc]
    _ = sendFile sends' c (fuel + 1) call cursor sent := hrun sends' hbefore (fuel + 1)
    _ = sendFile sends' c fuel (call + 1) (cursor + n) (sent ++ (c.drop cursor).take n) := by
        rw [sendFile, if_pos hlt, hnow, send_upTo hpos (by rwa [hpiece])]
        dsimp only
        rw [List.take_take, min_eq_left hle, List.length_take, List.length_drop,
          min_eq_left (by omega)]

/-- `last_ss` has sent the file, as it would do by itself. -/
def Sent (c sent : Bytes) : Prop :=
  ∃ fuel headerSend sends, lastSs fuel headerSend sends c = .ok sent

theorem Sending.done (hsending : Sending c cursor sent) (hend : c.length ≤ cursor) :
    Sent c sent := by
  obtain ⟨headerSend, sends, call, hrun⟩ := hsending
  refine ⟨1 + call, headerSend, sends, ?_⟩
  rw [hrun sends (fun _ _ => rfl) 1, sendFile, if_neg hend.not_gt]

/-! ### Names -/

theorem tempName_injective : Function.Injective tempName := by
  intro s s' hname
  have htext : descriptorText s = descriptorText s' :=
    List.append_cancel_left (List.append_cancel_right hname)
  have hnumeral (n : ℕ) : Presentation.numeral 10 (Presentation.digits 10 n) = some n :=
    Presentation.numeral_digits (by decide) (by decide) n
  exact Option.some.inj ((hnumeral s).symm.trans ((congrArg _ htext).trans (hnumeral s')))

/-- The output of `wget` is the file that `last_ss` opens then. -/
theorem outputOption_eq (s : ℕ) :
    outputOption s = ofString "--output-document=" ++ tempName s := by
  have hfront : ofString "--output-document=file_"
      = ofString "--output-document=" ++ ofString "file_" := by
    decide
  rw [outputOption, tempName, hfront]
  simp only [List.append_assoc]

/-- The thread is in `last_ss`, from the call of `system` to that of `remove`. -/
def InLastSs : Pc → Prop
  | .openFile | .fstat | .mmap | .sendFileHeader | .sendFile _ | .closeFile | .munmap
  | .remove => True
  | _ => False

/-- Two threads in `last_ss` do not have the same file. -/
theorem tempName_ne (howned : Owned sockfd p.table p.threads) (hi : p.threads[i]? = some t)
    (hj : p.threads[j]? = some u) (hne : j ≠ i) (ht : InLastSs t.handler.pc)
    (hu : InLastSs u.handler.pc) : tempName u.s ≠ tempName t.s := by
  have hheld : ∀ {i} {t : Thread}, p.threads[i]? = some t → InLastSs t.handler.pc →
      p.table t.s = some (.thread i 0) := by
    intro i t hi ht
    have hmem : 0 ∈ t.handler.held := by
      rw [Handler.held]
      cases hpc : t.handler.pc <;> rw [hpc] at ht <;> first | exact ht.elim | simp [Pc.held, s]
    exact (howned.thread t.s i 0).mpr
      ⟨t, hi, open_of_held (howned.kept t (List.mem_of_getElem? hi)).1 hmem, rfl⟩
  intro hname
  have hsame := hheld hj hu
  rw [tempName_injective hname, hheld hi ht] at hsame
  cases hsame
  exact hne rfl

/-! ### What holds in the directory -/

/-- No file has two names, and the inodes to come are fresh. -/
structure NoLinks (dir : Bytes → Option ℕ) (inodes : ℕ) : Prop where
  apart : ∀ a b k, dir a = some k → dir b = some k → a = b
  used : ∀ a k, dir a = some k → k < inodes

theorem noLinks_empty : NoLinks (fun _ => none) 0 where
  apart a b k ha := by cases ha
  used a k ha := by cases ha

/-- The file opened is the one under the name of the thread, and what its own `wget` has written. -/
structure Opened (dir : Bytes → Option ℕ) (data : ℕ → Bytes) (t : Thread) (c : Bytes) : Prop where
  name : dir (tempName t.s) = some t.inode
  content : data t.inode = c
  file : t.file = some c
  own : ∀ c', t.wrote = some c' → c' = c

def Thread.Sound (dir : Bytes → Option ℕ) (data : ℕ → Bytes) (t : Thread) : Prop :=
  match t.handler.pc with
  | .recvHeader _ => t.fetch = .before ∧ t.wrote = none
  | .openFile =>
      match t.fetch with
      | .before => t.wrote = none
      | .running => dir (tempName t.s) = some t.inode ∧ t.wrote = some (data t.inode)
      | .returned =>
          t.file = (dir (tempName t.s)).map data ∧ ∀ c, t.wrote = some c → t.file = some c
  | .fstat => ∃ c, Opened dir data t c
  | .mmap => ∃ c, Opened dir data t c ∧ t.found.stSize = c.length
  | .sendFileHeader => ∃ c, Opened dir data t c ∧ t.found.stSize = c.length ∧ c ≠ []
  | .sendFile cursor =>
      ∃ c, Opened dir data t c ∧ t.found.stSize = c.length ∧ Sending c cursor t.sent
  | .closeFile | .munmap | .remove => ∃ c, Opened dir data t c ∧ Sent c t.sent
  | _ => True

/-- What is known of a thread does not depend on the files of the others. -/
theorem Thread.Sound.frame {dir' : Bytes → Option ℕ} {data' : ℕ → Bytes} (ht : t.Sound dir data)
    (hdir : dir' (tempName t.s) = dir (tempName t.s))
    (hdata : ∀ k, dir (tempName t.s) = some k → data' k = data k) : t.Sound dir' data' := by
  have hopened : ∀ {c}, Opened dir data t c → Opened dir' data' t c := fun h =>
    ⟨hdir.trans h.name, (hdata _ h.name).trans h.content, h.file, h.own⟩
  unfold Thread.Sound at ht ⊢
  cases hpc : t.handler.pc with
  | openFile =>
      rw [hpc] at ht
      cases hfetch : t.fetch with
      | before =>
          rw [hfetch] at ht
          exact ht
      | running =>
          rw [hfetch] at ht
          exact ⟨hdir.trans ht.1, by rw [hdata _ ht.1]; exact ht.2⟩
      | returned =>
          rw [hfetch] at ht
          refine ⟨?_, ht.2⟩
          rw [ht.1, hdir]
          exact Option.map_congr fun k hk => (hdata k hk).symm
  | fstat =>
      rw [hpc] at ht
      exact ht.imp fun c => hopened
  | mmap | sendFileHeader | sendFile cursor | closeFile | munmap | remove =>
      rw [hpc] at ht
      exact ht.imp fun c hc => ⟨hopened hc.1, hc.2⟩
  | recvHeader total =>
      rw [hpc] at ht
      exact ht
  | _ => trivial

theorem Thread.Sound.elsewhere {dir' : Bytes → Option ℕ} {data' : ℕ → Bytes}
    (ht : t.Sound dir data) (hnot : ¬InLastSs t.handler.pc) : t.Sound dir' data' := by
  unfold Thread.Sound at ht ⊢
  cases hpc : t.handler.pc with
  | recvHeader total =>
      rw [hpc] at ht
      exact ht
  | openFile | fstat | mmap | sendFileHeader | sendFile cursor | closeFile | munmap | remove =>
      rw [hpc] at hnot
      exact absurd trivial hnot
  | _ => trivial

/-- What holds in every state reached. -/
structure Fetched (p : Process) : Prop where
  links : NoLinks p.dir p.inodes
  sound : ∀ (i : ℕ) (t : Thread), p.threads[i]? = some t → t.Sound p.dir p.data

/-- A thread moves, and touches no file but its own. -/
theorem Fetched.set (hp : Fetched p) (howned : Owned sockfd p.table p.threads)
    (hi : p.threads[i]? = some t) (hlinks : NoLinks p'.dir p'.inodes)
    (hthreads : p'.threads = p.threads.set i t') (ht : InLastSs t.handler.pc ∨ p'.dir = p.dir
      ∧ p'.data = p.data)
    (hdir : ∀ a, a ≠ tempName t.s → p'.dir a = p.dir a)
    (hdata : ∀ a k, a ≠ tempName t.s → p.dir a = some k → p'.data k = p.data k)
    (hsound : t'.Sound p'.dir p'.data) : Fetched p' := by
  refine ⟨hlinks, fun j u hj => ?_⟩
  rw [hthreads] at hj
  by_cases hji : j = i
  · rw [hji, List.getElem?_set_self (List.getElem?_eq_some_iff.mp hi).1] at hj
    rwa [← Option.some.inj hj]
  · rw [List.getElem?_set_ne (Ne.symm hji)] at hj
    have hu := hp.sound j u hj
    rcases ht with ht | ⟨hd, hdata⟩
    · by_cases hin : InLastSs u.handler.pc
      · have hne := tempName_ne howned hi hj hji ht hin
        exact hu.frame (hdir _ hne) fun k hk => hdata _ k hne hk
      · exact hu.elsewhere hin
    · rwa [hd, hdata]

theorem NoLinks.output (hlinks : NoLinks dir inodes) (s : ℕ) :
    NoLinks (Function.update dir (tempName s) (some ((dir (tempName s)).getD inodes)))
      (max inodes ((dir (tempName s)).getD inodes + 1)) := by
  -- the inode is the one that the name had before, or a fresh one
  have hinode : ∀ a k, a ≠ tempName s → dir a = some k → k ≠ (dir (tempName s)).getD inodes := by
    intro a k ha hk hsame
    cases hname : dir (tempName s) with
    | none =>
        rw [hname] at hsame
        exact absurd (hlinks.used a k hk) (by rw [hsame]; exact lt_irrefl _)
    | some k' =>
        rw [hname] at hsame
        obtain rfl : k = k' := hsame
        exact ha (hlinks.apart _ _ _ hk hname)
  refine ⟨fun a b k ha hb => ?_, fun a k ha => ?_⟩
  · by_cases has : a = tempName s
    · by_cases hbs : b = tempName s
      · rw [has, hbs]
      · rw [has, Function.update_self] at ha
        rw [Function.update_of_ne hbs] at hb
        exact absurd (Option.some.inj ha).symm (hinode b k hbs hb)
    · rw [Function.update_of_ne has] at ha
      by_cases hbs : b = tempName s
      · rw [hbs, Function.update_self] at hb
        exact absurd (Option.some.inj hb).symm (hinode a k has ha)
      · rw [Function.update_of_ne hbs] at hb
        exact hlinks.apart a b k ha hb
  · by_cases has : a = tempName s
    · rw [has, Function.update_self] at ha
      rw [← Option.some.inj ha]
      exact lt_of_lt_of_le (Nat.lt_succ_self _) (le_max_right _ _)
    · rw [Function.update_of_ne has] at ha
      exact (hlinks.used a k ha).trans_le (le_max_left _ _)

theorem NoLinks.remove (hlinks : NoLinks dir inodes) (a : Bytes) :
    NoLinks (Function.update dir a none) inodes := by
  have hold : ∀ b k, Function.update dir a none b = some k → dir b = some k := by
    intro b k hb
    by_cases hba : b = a
    · rw [hba, Function.update_self] at hb
      cases hb
    · rwa [Function.update_of_ne hba] at hb
  exact ⟨fun b b' k hb hb' => hlinks.apart b b' k (hold b k hb) (hold b' k hb'),
    fun b k hb => hlinks.used b k (hold b k hb)⟩

theorem Fetched.output (hp : Fetched p) (howned : Owned sockfd p.table p.threads)
    (hi : p.threads[i]? = some t) (hpc : t.handler.pc = .openFile) :
    Fetched (p.output i t) := by
  have hin : InLastSs t.handler.pc := by
    rw [hpc]
    trivial
  refine hp.set howned hi (hp.links.output t.s) rfl (.inl hin)
    (fun a ha => Function.update_of_ne ha _ _) (fun a k ha hk => ?_) ?_
  · apply Function.update_of_ne
    rintro rfl
    -- no other name leads to the inode that is written to
    have hlinks := hp.links.output t.s
    exact ha (hlinks.apart _ _ _ ((Function.update_of_ne ha _ _).trans hk)
      (Function.update_self _ _ _))
  · unfold Thread.Sound
    simp only [hpc, Process.output]
    exact ⟨Function.update_self _ _ _, by rw [Function.update_self]⟩

theorem Fetched.write (hp : Fetched p) (howned : Owned sockfd p.table p.threads)
    (hi : p.threads[i]? = some t) (hpc : t.handler.pc = .openFile) (hfetch : t.fetch = .running)
    (bs : Bytes) : Fetched (p.write i t bs) := by
  have hin : InLastSs t.handler.pc := by
    rw [hpc]
    trivial
  have ht := hp.sound i t hi
  unfold Thread.Sound at ht
  simp only [hpc, hfetch] at ht
  refine hp.set howned hi hp.links rfl (.inl hin) (fun _ _ => rfl) (fun a k ha hk => ?_) ?_
  · apply Function.update_of_ne
    rintro rfl
    exact ha (hp.links.apart _ _ _ hk ht.1)
  · unfold Thread.Sound
    simp only [hpc, hfetch, Process.write]
    refine ⟨ht.1, ?_⟩
    rw [ht.2, Function.update_self]
    rfl

theorem Fetched.system (hp : Fetched p) (howned : Owned sockfd p.table p.threads)
    (hi : p.threads[i]? = some t) (hpc : t.handler.pc = .openFile) (hfetch : t.fetch ≠ .returned) :
    Fetched (p.system i t) := by
  have ht := hp.sound i t hi
  unfold Thread.Sound at ht
  refine hp.set howned hi hp.links rfl (.inr ⟨rfl, rfl⟩) (fun _ _ => rfl) (fun _ _ _ _ => rfl) ?_
  unfold Thread.Sound
  simp only [hpc, Process.system]
  refine ⟨trivial, fun c hc => ?_⟩
  cases hf : t.fetch with
  | before =>
      simp only [hpc, hf] at ht
      rw [ht] at hc
      cases hc
  | running =>
      simp only [hpc, hf] at ht
      rw [ht.2] at hc
      rw [ht.1, Option.map_some, hc]
  | returned => exact absurd hf hfetch

/-- Nothing has to be known of a thread in `curr_ss`, or behind `last_ss`. -/
def Elsewhere : Pc → Prop
  | .recvHeader _ => False
  | pc => ¬InLastSs pc

theorem sound_of_elsewhere (hpc : Elsewhere t.handler.pc) : t.Sound dir data := by
  unfold Thread.Sound
  cases h : t.handler.pc <;> rw [h] at hpc <;>
    first | trivial | exact hpc.elim | exact absurd trivial hpc

theorem elsewhere_elementsFrom (found : Found) (i : ℕ) : Elsewhere (found.elementsFrom i) := by
  rw [Found.elementsFrom]
  split_ifs <;> exact id

theorem elsewhere_addressesFrom (left : ℕ) : Elsewhere (addressesFrom left) := by
  cases left <;> exact id

theorem elsewhere_listFrom (found : Found) (i : ℕ) : Elsewhere (found.listFrom i) := by
  rw [Found.listFrom]
  split_ifs <;> exact id

theorem elsewhere_bytesFrom (found : Found) (i : BitVec 32) : Elsewhere (found.bytesFrom i) := by
  rw [Found.bytesFrom]
  split_ifs <;> exact id

theorem sound_headerFrom {total : ℕ} (hfetch : t.fetch = .before) (hwrote : t.wrote = none)
    (hpc : t.handler.pc = t.found.headerFrom total) : t.Sound dir data := by
  rw [Found.headerFrom] at hpc
  split_ifs at hpc
  · unfold Thread.Sound
    simp only [hpc]
    exact ⟨hfetch, hwrote⟩
  · unfold Thread.Sound
    simp only [hpc, hfetch]
    exact hwrote
  all_goals
    apply sound_of_elsewhere
    rw [hpc]
  · exact id
  · exact elsewhere_elementsFrom t.found 0
  · exact id

/-- The next piece of the file, or its end. -/
theorem sound_fileFrom (hopened : Opened dir data t c) (hsize : t.found.stSize = c.length)
    (hsending : Sending c cursor t.sent) (hpc : t.handler.pc = t.found.fileFrom cursor) :
    t.Sound dir data := by
  rw [Found.fileFrom] at hpc
  unfold Thread.Sound
  split_ifs at hpc with hlt
  · simp only [hpc]
    exact ⟨c, hopened, hsize, hsending⟩
  · simp only [hpc]
    exact ⟨c, hopened, hsending.done (by omega)⟩

/-- Where a call fails, `last_ss` returns, but for its last calls. -/
theorem elsewhere_of_failed (hstep : Descriptors.step found h .failed = some h')
    (hclose : h.pc ≠ .closeFile) (hmunmap : h.pc ≠ .munmap) : Elsewhere h'.pc := by
  obtain ⟨pc, fd, obtained, closed⟩ := h
  cases pc with
  | closeFile => exact absurd rfl hclose
  | munmap => exact absurd rfl hmunmap
  | socket left | connect left =>
      cases hstep
      exact elsewhere_addressesFrom left
  | ended | undefined => cases hstep
  | _ =>
      cases hstep
      exact id

/-- A thread does not come back to `last_ss`. -/
theorem Elsewhere.step (hpc : Elsewhere h.pc) (hstep : Descriptors.step found h r = some h') :
    Elsewhere h'.pc := by
  cases r with
  | failed =>
      apply elsewhere_of_failed hstep
      all_goals
        intro hsame
        rw [hsame] at hpc
        exact hpc trivial
  | returned n =>
      obtain ⟨pc, fd, obtained, closed⟩ := h
      cases pc with
      | recvHeader total => exact hpc.elim
      | openFile | fstat | mmap | sendFileHeader | sendFile cursor | closeFile | munmap | remove =>
          exact absurd trivial hpc
      | recvElement i =>
          simp only [Descriptors.step] at hstep
          split_ifs at hstep <;> cases hstep
          · exact elsewhere_elementsFrom found (i + 1)
          · exact id
      | getaddrinfo =>
          simp only [Descriptors.step] at hstep
          split_ifs at hstep <;> cases hstep
          · exact elsewhere_addressesFrom found.addresses
          · exact id
      | connect left =>
          simp only [Descriptors.step] at hstep
          split_ifs at hstep <;> cases hstep
          all_goals exact id
      | sendHeader =>
          change (if n ≠ ListHeader.size then _ else _) = some h' at hstep
          split_ifs at hstep <;> cases hstep
          · exact id
          · exact elsewhere_listFrom found 0
      | sendElement i =>
          cases hstep
          exact elsewhere_listFrom found (i + 1)
      | forwardFileHeader | sendBytes i bytes =>
          cases hstep
          exact elsewhere_bytesFrom found _
      | socket left | recvFileHeader | recvBytes i | closeNext | dumpTwo | dumpNext
      | closeSocket =>
          cases hstep
          exact id
      | ended | undefined => cases hstep

/-- Behind `open`, a call leaves the file that is opened. -/
theorem Opened.after (hopened : Opened p.dir p.data t c) (hpc : t.handler.pc ≠ .openFile)
    (r : Outcome) (h : Handler) : Opened p.dir p.data (t.after p r h) c := by
  have huse : Opened p.dir p.data (t.use p r) c := by
    unfold Thread.use
    split
    case h_1 hopen => exact absurd hopen hpc
    all_goals exact ⟨hopened.name, hopened.content, hopened.file, hopened.own⟩
  exact ⟨huse.name, huse.content, huse.file, huse.own⟩

/-- What `open` opens is what was there when `system` returned. -/
theorem opened_of_returned (ht : t.file = (p.dir (tempName t.s)).map p.data)
    (hown : ∀ c, t.wrote = some c → t.file = some c) (hname : p.dir (tempName t.s) = some k)
    (hinode : t'.inode = k) (hs : t'.s = t.s) (hfile : t'.file = t.file)
    (hwrote : t'.wrote = t.wrote) : Opened p.dir p.data t' (p.data k) := by
  have hk : t.file = some (p.data k) := by rw [ht, hname, Option.map_some]
  refine ⟨?_, by rw [hinode], hfile.trans hk, fun c hc => ?_⟩
  · rw [hs, hinode, hname]
  · rw [hwrote] at hc
    exact Option.some.inj ((hown c hc).symm.trans hk)

/-- **One call** of a thread keeps what is known of it. -/
theorem Thread.Sound.call (ht : t.Sound p.dir p.data)
    (hmay : ∀ n, r = .returned n → t.MayReturn p n)
    (hfetch : t.handler.pc = .openFile → t.fetch = .returned)
    (hstep : Descriptors.step t.found t.handler r = some h) :
    (t.after p r h).Sound (p.dirAfter t r) p.data := by
  by_cases helsewhere : Elsewhere t.handler.pc
  · exact sound_of_elsewhere (t := t.after p r h) (helsewhere.step hstep)
  have hafter := fun {c} (hopened : Opened p.dir p.data t c) hpc => hopened.after hpc r h
  obtain ⟨s, found, ⟨pc, fd, obtained, closed⟩, others, fetch, inode, wrote, file, sent⟩ := t
  cases pc with
  | recvHeader total =>
      cases r with
      | failed => exact sound_of_elsewhere (elsewhere_of_failed hstep nofun nofun)
      | returned bytes =>
          cases hstep
          exact sound_headerFrom (t := Thread.after p _ _ _) ht.1 ht.2 rfl
  | openFile =>
      obtain rfl : fetch = .returned := hfetch rfl
      cases r with
      | failed => exact sound_of_elsewhere (elsewhere_of_failed hstep nofun nofun)
      | returned n =>
          cases hstep
          obtain ⟨k, hk⟩ := Option.ne_none_iff_exists'.mp (hmay n rfl).2
          have hinode : (p.dir (tempName s)).getD 0 = k := congrArg (Option.getD · 0) hk
          exact ⟨p.data k, opened_of_returned ht.1 ht.2 hk hinode rfl rfl rfl⟩
  | fstat =>
      cases r with
      | failed => exact sound_of_elsewhere (elsewhere_of_failed hstep nofun nofun)
      | returned n =>
          cases hstep
          obtain ⟨c, hopened⟩ := ht
          exact ⟨c, hafter hopened nofun, congrArg List.length hopened.content⟩
  | mmap =>
      cases r with
      | failed => exact sound_of_elsewhere (elsewhere_of_failed hstep nofun nofun)
      | returned n =>
          cases hstep
          obtain ⟨c, hopened, hsize⟩ := ht
          have hpos : 0 < found.stSize := hmay n rfl
          exact ⟨c, hafter hopened nofun, hsize, List.ne_nil_of_length_pos (hsize ▸ hpos)⟩
  | sendFileHeader =>
      cases r with
      | failed => exact sound_of_elsewhere (elsewhere_of_failed hstep nofun nofun)
      | returned n =>
          cases hstep
          obtain ⟨c, hopened, hsize, hne⟩ := ht
          obtain ⟨hpos, hle⟩ := hmay n rfl
          have hheader := sending_header hne hpos hle
          rw [← hsize] at hheader
          exact sound_fileFrom (t := Thread.after p _ _ _) (hafter hopened nofun) hsize hheader rfl
  | sendFile cursor =>
      cases r with
      | failed => exact sound_of_elsewhere (elsewhere_of_failed hstep nofun nofun)
      | returned n =>
          cases hstep
          obtain ⟨c, hopened, hsize, hsending⟩ := ht
          obtain ⟨hpos, hle⟩ := hmay n rfl
          obtain rfl : p.data inode = c := hopened.content
          have hle : n ≤ min bufSize (found.stSize - cursor) := hle
          rw [hsize] at hle
          exact sound_fileFrom (t := Thread.after p _ _ _) (hafter hopened nofun) hsize
            (hsending.more hpos hle) rfl
  | closeFile | munmap =>
      cases r <;> cases hstep
      all_goals
        obtain ⟨c, hopened, hsent⟩ := ht
        exact ⟨c, hafter hopened nofun, hsent⟩
  | remove =>
      cases r <;> cases hstep
      all_goals exact sound_of_elsewhere id
  | _ => exact absurd id helsewhere

theorem dirAfter_cases (p : Process) (t : Thread) (r : Outcome) : p.dirAfter t r = p.dir
    ∨ t.handler.pc = .remove ∧ p.dirAfter t r = Function.update p.dir (tempName t.s) none := by
  unfold Process.dirAfter
  split
  case h_1 hpc => exact .inr ⟨hpc, rfl⟩
  case h_2 => exact .inl rfl

theorem Fetched.call (hp : Fetched p) (howned : Owned sockfd p.table p.threads)
    (hi : p.threads[i]? = some t) (hmay : ∀ n, r = .returned n → t.MayReturn p n)
    (hfetch : t.handler.pc = .openFile → t.fetch = .returned) (hstep : p.call i t r = some p') :
    Fetched p' := by
  obtain ⟨h, hh, rfl⟩ := Option.map_eq_some_iff.mp hstep
  have hsound := (hp.sound i t hi).call hmay hfetch hh
  rcases dirAfter_cases p t r with hsame | ⟨hpc, hremoved⟩
  · refine hp.set howned hi ?_ rfl (.inr ⟨hsame, rfl⟩) (fun a _ => ?_) (fun _ _ _ _ => rfl) hsound
    · change NoLinks (p.dirAfter t r) p.inodes
      rw [hsame]
      exact hp.links
    · exact congrFun hsame a
  · refine hp.set howned hi ?_ rfl (.inl ?_) (fun a ha => ?_) (fun _ _ _ _ => rfl) hsound
    · change NoLinks (p.dirAfter t r) p.inodes
      rw [hremoved]
      exact hp.links.remove _
    · rw [hpc]
      trivial
    · exact (congrFun hremoved a).trans (Function.update_of_ne ha _ _)

theorem Fetched.accept (hp : Fetched p) (fd : ℕ) (found : Found) {table : ℕ → Option Owner} :
    Fetched { p with
      table := table
      threads := p.threads ++ [⟨fd, found, accepted, [], .before, 0, none, none, []⟩] } := by
  refine ⟨hp.links, fun i t hi => ?_⟩
  rcases getElem?_concat.mp hi with hold | ⟨-, rfl⟩
  · exact hp.sound i t hold
  · exact ⟨rfl, rfl⟩

theorem Fetched.step (hp : Fetched p) (howned : Owned sockfd p.table p.threads)
    (hkernel : Kernel p ev) (hstep : Stone.step p ev = some p') : Fetched p' := by
  cases ev with
  | accept fd found =>
      cases hstep
      exact hp.accept fd found
  | output i =>
      obtain ⟨t, hi, hstep⟩ := Option.bind_eq_some_iff.mp hstep
      split_ifs at hstep with hpc
      cases hstep
      exact hp.output howned hi hpc.1
  | write i bs =>
      obtain ⟨t, hi, hstep⟩ := Option.bind_eq_some_iff.mp hstep
      split_ifs at hstep with hpc
      cases hstep
      exact hp.write howned hi hpc.1 hpc.2 bs
  | system i =>
      obtain ⟨t, hi, hstep⟩ := Option.bind_eq_some_iff.mp hstep
      split_ifs at hstep with hpc
      cases hstep
      exact hp.system howned hi hpc.1 hpc.2
  | call i r =>
      obtain ⟨t, hi, hstep⟩ := Option.bind_eq_some_iff.mp hstep
      split_ifs at hstep with hpc
      refine hp.call howned hi (fun n hr => ?_) (fun hopen => ?_) hstep
      · subst hr
        exact hkernel t hi
      · by_contra hfetch
        exact hpc ⟨hopen, hfetch⟩

/-- What the kernel does while no thread gets to where nothing is defined, for names that are to be
fetched as they are. -/
def Proper (literal : Bytes → Prop) (p : Process) (ev : Event) : Prop :=
  Kernel p ev ∧ Within p ev ∧ Fetchable literal ev

instance [DecidablePred literal] (p : Process) : DecidablePred (Proper literal p) :=
  fun _ => inferInstanceAs (Decidable (_ ∧ _))

theorem fetched_of_reaches (hlinks : NoLinks dir inodes)
    (hreach : Reaches step (Proper literal) (.init sockfd dir data inodes) p) :
    Owned sockfd p.table p.threads ∧ Fetched p := by
  refine hreach.invariant (P := fun p => Owned sockfd p.table p.threads ∧ Fetched p)
    ⟨owned_init sockfd, hlinks, nofun⟩ ?_
  rintro p ev p' ⟨howned, hfetched⟩ hproper hstep
  exact ⟨howned.step hproper.1 hstep, hfetched.step howned hproper.1 hstep⟩

/-- **Each thread sends what its own `wget` has written.** In every proper interleaving of any
number of connections, two threads in `last_ss` have different files; and a thread that has sent its
file has sent what `last_ss` sends when it runs alone on a file `c`, where `c` is the file that was
there when `system` returned, and so what the `wget` of this thread has written, if it has opened
its output. -/
theorem sent_own_file (hlinks : NoLinks dir inodes)
    (hreach : Reaches step (Proper literal) (.init sockfd dir data inodes) p) {i : ℕ} {t : Thread}
    (hi : p.threads[i]? = some t) (ht : InLastSs t.handler.pc) :
    (∀ j (u : Thread), p.threads[j]? = some u → j ≠ i → InLastSs u.handler.pc →
        tempName u.s ≠ tempName t.s)
      ∧ (t.handler.pc ∈ [.closeFile, .munmap, .remove] →
        ∃ c, t.file = some c ∧ (∀ c', t.wrote = some c' → c' = c)
          ∧ ∃ fuel headerSend sends, lastSs fuel headerSend sends c = .ok t.sent) := by
  obtain ⟨howned, hfetched⟩ := fetched_of_reaches hlinks hreach
  refine ⟨fun j u hj hne hu => tempName_ne howned hi hj hne ht hu, fun hpc => ?_⟩
  have hsound := hfetched.sound i t hi
  unfold Thread.Sound at hsound
  simp only [List.mem_cons, List.not_mem_nil, or_false] at hpc
  rcases hpc with hpc | hpc | hpc
  all_goals
    rw [hpc] at hsound
    obtain ⟨c, hopened, hsent⟩ := hsound
    exact ⟨c, hopened.file, hopened.own, hsent⟩

/-- Two files are fetched at the same time. -/
theorem sent_own_file_sample :
    ∃ (p : Process) (t : Thread), (p.threads[0]? = some t ∧ t.wrote = some [1, 2, 3]
        ∧ t.sent = fileStream [1, 2, 3])
      ∧ (∀ j (u : Thread), p.threads[j]? = some u → j ≠ 0 → InLastSs u.handler.pc →
        tempName u.s ≠ tempName t.s)
      ∧ (t.handler.pc ∈ [.closeFile, .munmap, .remove] →
        ∃ c, t.file = some c ∧ (∀ c', t.wrote = some c' → c' = c)
          ∧ ∃ fuel headerSend sends, lastSs fuel headerSend sends c = .ok t.sent) := by
  have hsent : Reaches step (Proper fun _ => False) (.init 3 (fun _ => none) (fun _ => []) 0) _ :=
    reaches_of_follow [.accept 4 (requestFor [97, 0]), .accept 5 (requestFor [97, 0]),
      .call 0 (.returned 4101), .call 1 (.returned 4101), .output 0, .output 1, .write 0 [1, 2],
      .write 1 [9], .write 0 [3], .system 0, .call 0 (.returned 6), .call 0 (.returned 0),
      .call 0 (.returned 0), .call 0 (.returned 5), .call 0 (.returned 2),
      .call 0 (.returned 1)] rfl
  exact ⟨_, _, ⟨rfl, rfl, rfl⟩, sent_own_file noLinks_empty hsent rfl trivial⟩

/-- The peer of a first connection is gone before it is sent its file. The descriptor is given to a
second one, for which `system` fails, and which is sent the file of the first. -/
theorem sent_other_file :
    ∃ (p : Process) (t : Thread),
      Reaches step (Proper fun _ => False) (.init 3 (fun _ => none) (fun _ => []) 0) p
      ∧ p.threads[1]? = some t ∧ t.wrote = none ∧ t.sent = fileStream [7] := by
  have hsent : Reaches step (Proper fun _ => False) (.init 3 (fun _ => none) (fun _ => []) 0) _ :=
    reaches_of_follow [.accept 4 (requestFor [97, 0]), .call 0 (.returned 4101), .output 0,
      .write 0 [7], .system 0, .call 0 (.returned 5), .call 0 (.returned 0), .call 0 (.returned 0),
      .call 0 .failed, .call 0 (.returned 0), .accept 4 (requestFor [97, 0]),
      .call 1 (.returned 4101), .system 1, .call 1 (.returned 6), .call 1 (.returned 0),
      .call 1 (.returned 0), .call 1 (.returned 5), .call 1 (.returned 1)] rfl
  exact ⟨_, _, hsent, rfl, rfl, rfl⟩

/-! ### What is left behind -/

/-- In `last_ss` no call fails, and `system` returns after `wget` has opened its output. -/
def Faultless (p : Process) : Event → Prop
  | .system i => ∀ t ∈ p.threads[i]?, t.fetch = .running
  | .call i .failed => ∀ t ∈ p.threads[i]?, ¬InLastSs t.handler.pc
  | _ => True

instance : DecidablePred InLastSs := by
  intro pc
  unfold InLastSs
  split <;> infer_instance

instance (p : Process) : DecidablePred (Faultless p)
  | .system i => inferInstanceAs (Decidable (∀ t ∈ p.threads[i]?, t.fetch = .running))
  | .call i .failed =>
      inferInstanceAs (Decidable (∀ t ∈ p.threads[i]?, ¬InLastSs t.handler.pc))
  | .call _ (.returned _) | .accept _ _ | .output _ | .write _ _ => .isTrue trivial

/-- The file of the thread is in the directory, and it will remove it. -/
structure Thread.HasFile (t : Thread) : Prop where
  inside : InLastSs t.handler.pc
  fetch : t.handler.pc = .openFile → t.fetch ≠ .before

/-- Every file was there at the start, or is one that a thread will remove. -/
def Tidy (dir : Bytes → Option ℕ) (p : Process) : Prop :=
  ∀ a k, p.dir a = some k →
    dir a = some k
      ∨ ∃ (i : ℕ) (t : Thread), p.threads[i]? = some t ∧ t.HasFile ∧ a = tempName t.s

theorem hasFile_call (ht : t.HasFile) (hstep : Descriptors.step t.found t.handler (.returned n)
    = some h) : (t.after p (.returned n) h).HasFile ∨ t.handler.pc = .remove := by
  obtain ⟨s, found, ⟨pc, fd, obtained, closed⟩, others, fetch, inode, wrote, file, sent⟩ := t
  have hfileFrom : ∀ (found : Found) cursor, InLastSs (found.fileFrom cursor)
      ∧ found.fileFrom cursor ≠ .openFile := by
    intro found cursor
    rw [Found.fileFrom]
    split_ifs <;> exact ⟨trivial, fun hpc => by cases hpc⟩
  cases pc with
  | openFile | fstat | mmap | closeFile | munmap =>
      cases hstep
      exact .inl ⟨trivial, fun hpc => by cases hpc⟩
  | sendFileHeader | sendFile cursor =>
      cases hstep
      left
      exact ⟨(hfileFrom _ _).1, fun hpc => absurd hpc (hfileFrom _ _).2⟩
  | remove => exact .inr rfl
  | _ => exact ht.inside.elim

theorem Tidy.set (hp : Tidy dir p) (hi : p.threads[i]? = some t)
    (hthreads : p'.threads = p.threads.set i t') (hs : t'.s = t.s)
    (hnew : ∀ a k, p'.dir a = some k → p.dir a = some k ∨ t'.HasFile ∧ a = tempName t.s)
    (hkeeps : ∀ k, p'.dir (tempName t.s) = some k → t.HasFile → t'.HasFile) : Tidy dir p' := by
  intro a k ha
  have hself : p'.threads[i]? = some t' := by
    rw [hthreads, List.getElem?_set_self (List.getElem?_eq_some_iff.mp hi).1]
  rcases hnew a k ha with hold | ⟨hfile, hname⟩
  · rcases hp a k hold with hstart | ⟨j, u, hj, hu, hname⟩
    · exact .inl hstart
    · by_cases hji : j = i
      · subst hji
        obtain rfl : u = t := Option.some.inj (hj.symm.trans hi)
        rw [hname] at ha
        exact .inr ⟨j, t', hself, hkeeps k ha hu, by rw [hs, hname]⟩
      · refine .inr ⟨j, u, ?_, hu, hname⟩
        rw [hthreads, List.getElem?_set_ne (Ne.symm hji), hj]
  · exact .inr ⟨i, t', hself, hfile, by rw [hs, hname]⟩

theorem Tidy.call (hp : Tidy dir p) (hi : p.threads[i]? = some t)
    (hfault : Faultless p (.call i r)) (hstep : p.call i t r = some p') : Tidy dir p' := by
  obtain ⟨h, hh, rfl⟩ := Option.map_eq_some_iff.mp hstep
  have hshrinks : ∀ a k, p.dirAfter t r a = some k → p.dir a = some k := by
    intro a k ha
    rcases dirAfter_cases p t r with hsame | ⟨-, hremoved⟩
    · rwa [hsame] at ha
    · rw [hremoved] at ha
      by_cases hname : a = tempName t.s
      · rw [hname, Function.update_self] at ha
        cases ha
      · rwa [Function.update_of_ne hname] at ha
  refine hp.set hi rfl (t.s_use p r) (fun a k ha => .inl (hshrinks a k ha)) fun k hk ht => ?_
  cases r with
  | failed => exact absurd ht.inside (hfault t hi)
  | returned n =>
      rcases hasFile_call ht hh with hstill | hpc
      · exact hstill
      · -- the file is gone
        have hgone : p.dirAfter t (.returned n) (tempName t.s) = none := by
          unfold Process.dirAfter
          rw [hpc]
          exact Function.update_self _ _ _
        change p.dirAfter t (.returned n) (tempName t.s) = some k at hk
        rw [hgone] at hk
        cases hk

theorem Tidy.step (hp : Tidy dir p) (hfault : Faultless p ev)
    (hstep : Stone.step p ev = some p') : Tidy dir p' := by
  cases ev with
  | accept fd found =>
      cases hstep
      intro a k ha
      rcases hp a k ha with hstart | ⟨j, u, hj, hu⟩
      · exact .inl hstart
      · exact .inr ⟨j, u, getElem?_concat.mpr (.inl hj), hu⟩
  | output i =>
      obtain ⟨t, hi, hstep⟩ := Option.bind_eq_some_iff.mp hstep
      split_ifs at hstep with hpc
      cases hstep
      have hfile : Thread.HasFile { t with
          fetch := .running, inode := (p.dir (tempName t.s)).getD p.inodes, wrote := some [] } := by
        refine ⟨?_, nofun⟩
        change InLastSs t.handler.pc
        rw [hpc.1]
        trivial
      refine hp.set hi rfl rfl (fun a k ha => ?_) fun _ _ _ => hfile
      by_cases hname : a = tempName t.s
      · exact .inr ⟨hfile, hname⟩
      · left
        exact (Function.update_of_ne hname _ _).symm.trans ha
  | write i bs =>
      obtain ⟨t, hi, hstep⟩ := Option.bind_eq_some_iff.mp hstep
      split_ifs at hstep with hpc
      cases hstep
      exact hp.set hi rfl rfl (fun a k ha => .inl ha) fun _ _ ht => ⟨ht.inside, ht.fetch⟩
  | system i =>
      obtain ⟨t, hi, hstep⟩ := Option.bind_eq_some_iff.mp hstep
      split_ifs at hstep with hpc
      cases hstep
      exact hp.set hi rfl rfl (fun a k ha => .inl ha) fun _ _ ht => ⟨ht.inside, fun _ => nofun⟩
  | call i r =>
      obtain ⟨t, hi, hstep⟩ := Option.bind_eq_some_iff.mp hstep
      split_ifs at hstep with hpc
      exact hp.call hi hfault hstep

/-- **Nothing is left behind.** When no call of `last_ss` has failed, then whatever the proper
interleaving and however many connections there were, each file in the directory at a time when no
thread is in `last_ss` was there at the start. -/
theorem no_file_left
    (hreach : Reaches step (fun p ev => Proper literal p ev ∧ Faultless p ev)
      (.init sockfd dir data inodes) p)
    (hidle : ∀ t ∈ p.threads, ¬InLastSs t.handler.pc) {a : Bytes} {k : ℕ} (ha : p.dir a = some k) :
    dir a = some k := by
  have hinit : Tidy dir (.init sockfd dir data inodes) := fun a k ha => .inl ha
  have htidy : Tidy dir p := hreach.invariant hinit
    fun _ _ _ hp hallowed hstep => hp.step hallowed.2 hstep
  rcases htidy a k ha with hstart | ⟨i, t, hi, ht, -⟩
  · exact hstart
  · exact absurd ht.inside (hidle t (List.mem_of_getElem? hi))

theorem no_file_left_sample :
    ∃ p, Reaches step (fun p ev => Proper (fun _ => False) p ev ∧ Faultless p ev)
        (.init 3 (fun _ => none) (fun _ => []) 0) p
      ∧ p.threads.map (fun t => t.sent) = [fileStream [7]]
      ∧ ∀ a k, p.dir a = some k → (fun _ => none : Bytes → Option ℕ) a = some k := by
  have hremoved : Reaches step (fun p ev => Proper (fun _ => False) p ev ∧ Faultless p ev)
      (.init 3 (fun _ => none) (fun _ => []) 0) _ :=
    reaches_of_follow [.accept 4 (requestFor [97, 0]), .call 0 (.returned 4101), .output 0,
      .write 0 [7], .system 0, .call 0 (.returned 5), .call 0 (.returned 0), .call 0 (.returned 0),
      .call 0 (.returned 5), .call 0 (.returned 1), .call 0 (.returned 0), .call 0 (.returned 0),
      .call 0 (.returned 0)] rfl
  refine ⟨_, hremoved, rfl, fun a k ha => no_file_left hremoved (fun t ht => ?_) ha⟩
  cases ht with
  | head => exact id
  | tail _ ht => cases ht

end Networking.Relay.Stone

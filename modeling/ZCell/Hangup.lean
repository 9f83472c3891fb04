import ZCell.Transfer

/-! A session whose peer closes. The close branch of the read event destroys the receive queue
before the finished messages in it are handed out. -/
namespace ZCell.Messager
open Bytes Runs

/-- The first message of a stream, and what follows it. -/
def nextContent (bs : List Byte) : Option (Content × List Byte) :=
  if h : sizeofHdr ≤ bs.length then
    let hdr : MsgHdr := ⟨bs.take sizeofHdr, by rw [List.length_take, Nat.min_eq_left h]⟩
    let body := bs.drop sizeofHdr
    if hdr.metaLength + hdr.dataLength ≤ body.length then
      some (⟨hdr, body.take hdr.metaLength, (body.drop hdr.metaLength).take hdr.dataLength⟩,
        body.drop (hdr.metaLength + hdr.dataLength))
    else none
  else none

def contents : Nat → List Byte → List Content
  | 0, _ => []
  | n+1, bs =>
    match nextContent bs with
    | none => []
    | some (c, rest) => c :: contents n rest

/-- The messages whose last byte is in the stream. -/
def messagesOf (bs : List Byte) : List Content := contents bs.length bs

def headers : Nat → List Byte → List MsgHdr
  | 0, _ => []
  | n+1, bs =>
    if h : sizeofHdr ≤ bs.length then
      ⟨bs.take sizeofHdr, by rw [List.length_take, Nat.min_eq_left h]⟩ ::
        match nextContent bs with
        | none => []
        | some (_, rest) => headers n rest
    else []

/-- The headers in the stream, that of an unfinished message included. -/
def headersOf (bs : List Byte) : List MsgHdr := headers bs.length bs

/-- A session, and the history of the bytes read from its socket. -/
structure Line where
  session : Session
  consumed : List Byte

inductive LineAct where
  | arrive (bs : List Byte)
  | hangup
  | read (turns : List Turn) (fill : Nat → Nat → Byte)

/-- Bytes arrive until the peer closes; there is no event on a destroyed session. -/
def lineStep (a : LineAct) (l : Line) : Option Line :=
  let sock := l.session.sock
  match a with
  | .arrive bs =>
    if sock.closed then none
    else some { l with session.sock := { sock with inbox := sock.inbox ++ bs } }
  | .hangup => some { l with session.sock := { sock with closed := true } }
  | .read turns fill =>
    if l.session.destroyed then none
    else
      let s := readEventCallback fill turns l.session
      some ⟨s, l.consumed ++ sock.inbox.take (sock.inbox.length - s.sock.inbox.length)⟩

def Line.start : Line := ⟨⟨⟨[], false⟩, [], false, []⟩, []⟩

/-- Every header that arrives is small, and when the socket can end or fail during a read event,
what lies unread in it finishes no message. (Where a stale `errno` hides the end of the stream, the
event goes on as if the socket were still open; these runs are left out too.) -/
def ClosesApart (l : Line) : LineAct → Prop
  | .read turns _ => (∀ h ∈ headersOf (l.consumed ++ l.session.sock.inbox), Small h) ∧
      (l.session.sock.closed = true ∨ Turn.error ∈ turns →
        messagesOf (l.consumed ++ l.session.sock.inbox) = messagesOf l.consumed)
  | _ => True

instance (l : Line) (a : LineAct) : Decidable (ClosesApart l a) :=
  match a with
  | .read _ _ => inferInstanceAs (Decidable (_ ∧ _))
  | .arrive _ => inferInstanceAs (Decidable True)
  | .hangup => inferInstanceAs (Decidable True)

section Parsing
variable {c : Content} {r : List Byte}

theorem nextContent_length {bs : List Byte} (h : nextContent bs = some (c, r)) :
    r.length + sizeofHdr ≤ bs.length := by
  unfold nextContent at h
  split at h
  · rename_i hl
    simp only at h
    split at h
    · simp only [Option.some.injEq, Prod.mk.injEq] at h
      obtain ⟨_, rfl⟩ := h
      simp only [List.length_drop]
      omega
    · cases h
  · cases h

theorem nextContent_whole (hc : c.Whole) (r : List Byte) :
    nextContent (c.bytes ++ r) = some (c, r) := by
  have hs := c.header.size
  have hlen : sizeofHdr ≤ (c.bytes ++ r).length := by
    rw [List.length_append, hc.length]
    unfold sizeofHdr
    omega
  have htake : (c.bytes ++ r).take sizeofHdr = c.header.bytes := by
    rw [Content.bytes, List.append_assoc, List.take_left' hs]
  have hdrop : (c.bytes ++ r).drop sizeofHdr = c.metaBytes ++ (c.dataBytes ++ r) := by
    rw [Content.bytes, List.append_assoc, List.drop_left' hs, List.append_assoc]
  have hhdr : ∀ hp, (⟨(c.bytes ++ r).take sizeofHdr, hp⟩ : MsgHdr) = c.header := by
    intro hp
    cases hch : c.header
    simp only [htake, hch]
  have hbody : c.header.metaLength + c.header.dataLength ≤
      (c.metaBytes ++ (c.dataBytes ++ r)).length := by
    simp only [List.length_append, hc.metaLen, hc.dataLen]
    omega
  have hmeta : (c.metaBytes ++ (c.dataBytes ++ r)).take c.header.metaLength = c.metaBytes :=
    List.take_left' hc.metaLen
  have hdata : (c.metaBytes ++ (c.dataBytes ++ r)).drop c.header.metaLength = c.dataBytes ++ r :=
    List.drop_left' hc.metaLen
  simp only [nextContent, dif_pos hlen, hhdr, hdrop, if_pos hbody, hmeta, hdata]
  rw [← List.drop_drop, hdata, List.take_left' hc.dataLen, List.drop_left' hc.dataLen]

/-- More fuel than bytes changes nothing. -/
theorem contents_fuel (n m : Nat) (bs : List Byte) (hn : bs.length ≤ n) (hm : bs.length ≤ m) :
    contents n bs = contents m bs := by
  induction n generalizing m bs with
  | zero =>
    cases m with
    | zero => rfl
    | succ m =>
      have hnil : bs = [] := List.eq_nil_of_length_eq_zero (by omega)
      rw [hnil]
      rfl
  | succ n ih =>
    cases m with
    | zero =>
      have hnil : bs = [] := List.eq_nil_of_length_eq_zero (by omega)
      rw [hnil]
      rfl
    | succ m =>
      unfold contents
      cases hnext : nextContent bs with
      | none => rfl
      | some p =>
        obtain ⟨c, r⟩ := p
        have hl := nextContent_length hnext
        unfold sizeofHdr at hl
        simp only
        rw [ih m r (by omega) (by omega)]

theorem messagesOf_cons (hc : c.Whole) (r : List Byte) :
    messagesOf (c.bytes ++ r) = c :: messagesOf r := by
  have hlen : (c.bytes ++ r).length = (c.bytes ++ r).length - 1 + 1 := by
    rw [List.length_append, hc.length]
    omega
  rw [messagesOf, hlen, contents, nextContent_whole hc]
  simp only [List.cons.injEq, true_and]
  apply contents_fuel
  · rw [List.length_append, hc.length]
    omega
  · exact Nat.le_refl _

theorem messagesOf_append {cs : List Content} (hc : ∀ c ∈ cs, c.Whole) (r : List Byte) :
    messagesOf (cs.flatMap Content.bytes ++ r) = cs ++ messagesOf r := by
  induction cs with
  | nil => rfl
  | cons c cs ih =>
    rw [List.flatMap_cons, List.append_assoc, messagesOf_cons (hc c (List.mem_cons_self ..)),
      ih fun x hx => hc x (List.mem_cons_of_mem c hx), List.cons_append]

theorem messagesOf_none {bs : List Byte} (h : nextContent bs = none) : messagesOf bs = [] := by
  unfold messagesOf
  cases bs.length with
  | zero => rfl
  | succ n => rw [contents, h]

/-- A message in progress is not in its own bytes. -/
theorem Open.nextContent {m : Msg} (h : Open m) : nextContent (received m) = none := by
  obtain ⟨hshort, hlong⟩ := h.received_length
  unfold Messager.nextContent
  split
  · rename_i hl
    by_cases h0 : m.state.hdrRemLen = 0
    · obtain ⟨hlt, r, hr⟩ := hlong h0
      have htake : (received m).take sizeofHdr = m.header.bytes := by
        rw [hr, List.take_left' m.header.size]
      have hhdr : ∀ hp, (⟨(received m).take sizeofHdr, hp⟩ : MsgHdr) = m.header := by
        intro hp
        cases hch : m.header
        simp only [htake, hch]
      simp only [hhdr, List.length_drop]
      rw [if_neg (by omega)]
    · exact absurd (hshort h0) (by omega)
  · rfl

theorem headers_mem {cs : List Content} (hc : ∀ c ∈ cs, c.Whole) (h : MsgHdr) (r : List Byte)
    (n : Nat) (hn : (cs.flatMap Content.bytes ++ (h.bytes ++ r)).length ≤ n) :
    h ∈ headers n (cs.flatMap Content.bytes ++ (h.bytes ++ r)) := by
  have hs := h.size
  induction cs generalizing n with
  | nil =>
    simp only [List.flatMap_nil, List.nil_append, List.length_append, hs] at hn ⊢
    cases n with
    | zero =>
      unfold sizeofHdr at hn
      omega
    | succ n =>
      have hlen : sizeofHdr ≤ (h.bytes ++ r).length := by
        rw [List.length_append, hs]
        omega
      have htake : (h.bytes ++ r).take sizeofHdr = h.bytes := List.take_left' hs
      rw [headers, dif_pos hlen]
      apply List.mem_cons.mpr
      left
      cases h
      simp only [htake]
  | cons c cs ih =>
    have hcw := hc c (List.mem_cons_self ..)
    rw [List.flatMap_cons, List.append_assoc] at hn ⊢
    rw [List.length_append, hcw.length] at hn
    cases n with
    | zero => omega
    | succ n =>
      have hlen : sizeofHdr ≤
          (c.bytes ++ (cs.flatMap Content.bytes ++ (h.bytes ++ r))).length := by
        rw [List.length_append, hcw.length]
        unfold sizeofHdr
        omega
      rw [headers, dif_pos hlen, nextContent_whole hcw]
      exact List.mem_cons_of_mem _
        (ih (fun x hx => hc x (List.mem_cons_of_mem c hx)) n (by omega))

end Parsing

/-- What has been read are the messages handed out and the one in progress. -/
structure Kept (l : Line) : Prop where
  delivered : ∀ m ∈ l.session.delivered, (content m).Whole
  messages : l.session.delivered.map content = messagesOf l.consumed
  alive : l.session.destroyed = false → ∃ tail, Queue l.session.recvQ [] tail ∧
    l.consumed = (l.session.delivered.map content).flatMap Content.bytes ++
      received (tail.getD msgConstruct)

section Steps
variable {l l' : Line} {a : LineAct}

theorem Kept.read {turns : List Turn} {fill : Nat → Nat → Byte} (h : Kept l)
    (hok : ClosesApart l (.read turns fill)) (hstep : lineStep (.read turns fill) l = some l') :
    Kept l' := by
  obtain ⟨hsmall, hclose⟩ := hok
  simp only [lineStep] at hstep
  split at hstep
  · cases hstep
  · rename_i halive
    obtain ⟨tail, hq, hcons⟩ := h.alive (by simpa using halive)
    obtain ⟨done, m, h1, h2, h3, ⟨bs, h4, h5⟩, _, _, h8⟩ :=
      @recvLoop_spec fill (turns.length + 1) _ _ _ l.session.sock turns (Nat.lt_succ_self _) hq
    simp only [readEventCallback] at hstep
    generalize recvLoop fill (turns.length + 1) l.session.recvQ l.session.sock turns = r at *
    obtain ⟨err, q, sock⟩ := r
    simp only [List.nil_append, List.map_nil, List.flatMap_nil] at h1 h2 h4 h5 h8 hstep
    subst h1
    have hdone : ∀ c ∈ done.map content, c.Whole := by
      intro c hc
      obtain ⟨x, hx, rfl⟩ := List.mem_map.mp hc
      exact ((h2 x hx).done.received (h2 x hx).receiving).1
    have hdel : ∀ c ∈ l.session.delivered.map content, c.Whole := by
      intro c hc
      obtain ⟨x, hx, rfl⟩ := List.mem_map.mp hc
      exact h.delivered x hx
    have hall : ∀ c ∈ l.session.delivered.map content ++ done.map content, c.Whole := by
      intro c hc
      obtain hc | hc := List.mem_append.mp hc
      · exact hdel c hc
      · exact hdone c hc
    have htake : l.session.sock.inbox.take (l.session.sock.inbox.length - sock.inbox.length) = bs := by
      have hl : (bs ++ sock.inbox).length - sock.inbox.length = bs.length := by
        rw [List.length_append, Nat.add_sub_cancel]
      rw [h4, hl, List.take_left]
    have hnew : l.consumed ++ bs =
        (l.session.delivered.map content ++ done.map content).flatMap Content.bytes ++
          received m := by
      rw [hcons, List.append_assoc, h5, List.flatMap_append, List.append_assoc]
    have hmess : messagesOf (l.consumed ++ bs) =
        l.session.delivered.map content ++ done.map content := by
      rw [hnew, messagesOf_append hall, messagesOf_none h3.nextContent, List.append_nil]
    split at hstep
    · rename_i hneed
      have hapart := hclose (by
        obtain he | ⟨_, hc⟩ := h8 hneed
        · exact Or.inr he
        · exact Or.inl hc)
      -- what was unread finished nothing, so the queue had no finished message
      have hnil : done.map content = [] := by
        rw [h4, ← List.append_assoc, hnew, List.append_assoc, messagesOf_append hall, ← h.messages,
          List.append_assoc] at hapart
        exact (List.append_eq_nil_iff.mp (List.append_right_eq_self.mp hapart)).1
      obtain rfl := Option.some.inj hstep
      refine ⟨h.delivered, ?_, fun hd => by cases hd⟩
      simp only [htake]
      rw [hmess, hnil, List.append_nil]
    · have hinc : msgRwComplete m = false := by
        refine h3.incomplete fun h0 => ?_
        obtain ⟨r, hr⟩ := (h3.received_length.2 h0).2
        apply hsmall
        have hmem := headers_mem hall m.header (r ++ sock.inbox)
          (l.consumed ++ l.session.sock.inbox).length
        have heq : (l.session.delivered.map content ++ done.map content).flatMap Content.bytes ++
            (m.header.bytes ++ (r ++ sock.inbox)) = l.consumed ++ l.session.sock.inbox := by
          rw [h4, ← List.append_assoc l.consumed, hnew, hr]
          simp only [List.append_assoc]
        rw [heq] at hmem
        exact hmem (Nat.le_refl _)
      have hcomplete : ∀ x ∈ done, msgRwComplete x = true := fun x hx => (h2 x hx).complete
      have htw : (done ++ [m]).takeWhile msgRwComplete = done := by
        rw [List.takeWhile_append_of_pos hcomplete]
        simp [hinc]
      have hdw : (done ++ [m]).dropWhile msgRwComplete = [m] := by
        rw [List.dropWhile_append_of_pos hcomplete]
        simp [hinc]
      rw [htw, hdw, htake] at hstep
      obtain rfl := Option.some.inj hstep
      refine ⟨fun x hx => ?_, ?_, fun _ => ⟨some m, ⟨rfl, by simp, fun x hx => ?_⟩, ?_⟩⟩
      · exact hall (content x) (by
          rw [← List.map_append]
          exact List.mem_map_of_mem hx)
      · simp only [hmess, List.map_append]
      · obtain rfl := Option.some.inj hx
        exact ⟨h3, hinc⟩
      · simp only [hnew, List.map_append, Option.getD_some]

theorem Kept.step (h : Kept l) (hok : ClosesApart l a) (hstep : lineStep a l = some l') :
    Kept l' := by
  cases a with
  | arrive bs =>
    simp only [lineStep] at hstep
    split at hstep
    · cases hstep
    · obtain rfl := Option.some.inj hstep
      exact ⟨h.delivered, h.messages, h.alive⟩
  | hangup =>
    obtain rfl := Option.some.inj hstep
    exact ⟨h.delivered, h.messages, h.alive⟩
  | read turns fill => exact h.read hok hstep

theorem kept_start : Kept Line.start :=
  ⟨by simp [Line.start], rfl, fun _ => ⟨none, ⟨rfl, by simp, by simp⟩, rfl⟩⟩

end Steps

/-- In runs whose closing read event finishes no message, each message whose last byte was read
has been handed out, once and in order, whether the session still lives or not. -/
theorem messages_kept (l : Line) (hrun : Run lineStep ClosesApart Line.start l) :
    l.session.delivered.map content = messagesOf l.consumed :=
  (hrun.invariant kept_start fun _ _ _ hi hok hs => hi.step hok hs : Kept l).messages

/-- A ping, and then the end of the stream in an event of its own. -/
theorem pingThenClose_kept : ∃ l : Line, l.session.destroyed = true ∧
    l.session.delivered.map content = messagesOf l.consumed := by
  have hrun : (runActs lineStep ClosesApart [.arrive (MsgHdr.zero.put 8 [1]).bytes,
      .read [.upTo 99, .upTo 99] fun _ _ => 0, .hangup, .read [.upTo 99] fun _ _ => 0]
      Line.start).map (fun l => l.session.destroyed) = some true := by
    decide +kernel
  obtain ⟨l, hl, hd⟩ := Option.map_eq_some_iff.mp hrun
  exact ⟨l, hd, messages_kept l (run_of_runActs .start hl)⟩

/-- A ping and the end of the stream in one event: the ping is read and never handed out. -/
theorem pingWithClose_lost : ∃ l : Line, Run lineStep (fun _ _ => True) Line.start l ∧
    l.session.destroyed = true ∧ l.session.delivered = [] ∧ (messagesOf l.consumed).length = 1 := by
  have hrun : (runActs lineStep (fun _ _ => True) [.arrive (MsgHdr.zero.put 8 [1]).bytes, .hangup,
      .read [.upTo 99, .upTo 99] fun _ _ => 0] Line.start).map (fun l =>
      decide (l.session.destroyed = true ∧ l.session.delivered.length = 0 ∧
        (messagesOf l.consumed).length = 1)) = some true := by
    decide +kernel
  obtain ⟨l, hl, hval⟩ := Option.map_eq_some_iff.mp hrun
  obtain ⟨h1, h2, h3⟩ := of_decide_eq_true hval
  exact ⟨l, run_of_runActs .start hl, h1, List.eq_nil_of_length_eq_zero h2, h3⟩

end ZCell.Messager

import ZCell.Receiving

/-! Two messagers on one connection: the messages that one side pushes are those that the other
side hands out, as long as the 32-bit sum of what is left of a message cannot wrap. -/
namespace ZCell.Messager
open Bytes Runs

/-- One direction of a connection: the sender's queue, and the receiver, whose socket holds the
bytes on the way. -/
structure Link where
  sendQ : List Msg
  receiver : Session
  /-- History: the messages pushed. -/
  pushed : List Msg

inductive LinkAct where
  | push (m : Msg)
  | flush (turns : List Turn)
  | read (turns : List Turn) (fill : Nat → Nat → Byte)

/-- A push of a message with its counters reset, a flush, or a read event. -/
def linkAct (a : LinkAct) (l : Link) : Link :=
  match a with
  | .push m =>
    let m := messageStateReset m
    { l with sendQ := l.sendQ ++ [m], pushed := l.pushed ++ [m] }
  | .flush turns =>
    let (err, q, wire) := flushMsgOf l.sendQ l.receiver.sock.inbox turns
    { l with
      sendQ := if err = .needClose then [] else q
      receiver := { l.receiver with sock := { l.receiver.sock with inbox := wire } } }
  | .read turns fill => { l with receiver := readEventCallback fill turns l.receiver }

def linkStep (a : LinkAct) (l : Link) : Option Link := some (linkAct a l)

def Link.start : Link := ⟨[], ⟨⟨[], false⟩, [], false, []⟩, []⟩

/-- The sum of what is left of the message stays below `2 ^ 32`. -/
def Small (h : MsgHdr) : Prop := h.metaLength + h.dataLength < 2 ^ 32

/-- Pushed messages have the bytes that their headers announce; the connection does not fail. -/
def Calm (_ : Link) : LinkAct → Prop
  | .push m => (content m).Whole
  | .flush turns => Turn.error ∉ turns
  | .read turns _ => Turn.error ∉ turns

def SmallPush : LinkAct → Prop
  | .push m => Small m.header
  | _ => True

def Sound (l : Link) (a : LinkAct) : Prop := Calm l a ∧ SmallPush a

instance (h : MsgHdr) : Decidable (Small h) := inferInstanceAs (Decidable (_ < _))

instance (c : Content) : Decidable c.Whole :=
  decidable_of_iff (c.metaBytes.length = c.header.metaLength ∧
    c.dataBytes.length = c.header.dataLength) ⟨fun h => ⟨h.1, h.2⟩, fun h => ⟨h.1, h.2⟩⟩

instance (l : Link) (a : LinkAct) : Decidable (Sound l a) :=
  match a with
  | .push m => inferInstanceAs (Decidable ((content m).Whole ∧ Small m.header))
  | .flush turns => inferInstanceAs (Decidable (Turn.error ∉ turns ∧ True))
  | .read turns _ => inferInstanceAs (Decidable (Turn.error ∉ turns ∧ True))

section Parsing

/-- The messages at the front of a stream of whole messages are its first ones. -/
theorem prefix_of_bytes {cs ds : List Content} {r : List Byte} (hc : ∀ c ∈ cs, c.Whole)
    (hd : ∀ d ∈ ds, d.Whole) (h : cs.flatMap Content.bytes ++ r = ds.flatMap Content.bytes) :
    ∃ es, ds = cs ++ es ∧ r = es.flatMap Content.bytes := by
  induction cs generalizing ds with
  | nil => exact ⟨ds, rfl, h⟩
  | cons c cs ih =>
    have hcw := hc c (List.mem_cons_self ..)
    cases ds with
    | nil =>
      have hl := congrArg List.length h
      rw [List.flatMap_cons, List.append_assoc, List.length_append, hcw.length] at hl
      simp at hl
    | cons d ds =>
      rw [List.flatMap_cons, List.flatMap_cons, List.append_assoc] at h
      obtain ⟨rfl, htl⟩ := hcw.unique (hd d (List.mem_cons_self ..)) h
      obtain ⟨es, he, hr⟩ := ih (fun x hx => hc x (List.mem_cons_of_mem c hx))
        (fun x hx => hd x (List.mem_cons_of_mem c hx)) htl
      exact ⟨es, by rw [he, List.cons_append], hr⟩

theorem header_of_bytes {h g : MsgHdr} {r s : List Byte} (heq : h.bytes ++ r = g.bytes ++ s) :
    h = g := by
  obtain ⟨hb, _⟩ := List.append_inj heq (h.size.trans g.size.symm)
  cases h
  cases g
  simp only at hb
  simp only [hb]

end Parsing

section Receiver
variable {m : Msg}

theorem Open.received_length (h : Open m) :
    (m.state.hdrRemLen ≠ 0 → (received m).length < sizeofHdr) ∧
    (m.state.hdrRemLen = 0 →
      (received m).length < sizeofHdr + m.header.metaLength + m.header.dataLength ∧
      ∃ r, received m = m.header.bytes ++ r) := by
  have hsize := m.header.size
  have hhdr := h.receiving.hdr
  constructor
  · intro hne
    have hpos : m.state.hdrRemLen.toNat ≠ 0 := fun hz => hne (BitVec.eq_of_toNat_eq hz)
    rw [received, if_pos hne, List.length_take, hsize]
    omega
  · intro h0
    have hm := h.receiving.metaBuf h0
    have hd := h.receiving.dataBuf h0
    have hml := h.receiving.metaLe h0
    have hdl := h.receiving.dataLe h0
    have hrem : m.state.metaRemLen.toNat ≠ 0 ∨ m.state.dataRemLen.toNat ≠ 0 := by
      by_contra hno
      simp only [not_or, not_not] at hno
      exact h.notDone ⟨h0, BitVec.eq_of_toNat_eq hno.1, BitVec.eq_of_toNat_eq hno.2⟩
    rw [received, if_neg (not_not.mpr h0)]
    refine ⟨?_, _, rfl⟩
    simp only [List.length_append, List.length_take, hm, hd, hsize]
    omega

/-- The sum of the counters is zero only for finished messages, unless it wraps. -/
theorem Open.incomplete (h : Open m) (hs : m.state.hdrRemLen = 0 → Small m.header) :
    msgRwComplete m = false := by
  have hhdr := h.receiving.hdr
  have hm16 := m.state.metaRemLen.isLt
  have hd32 := m.state.dataRemLen.isLt
  have h16 := m.state.hdrRemLen.isLt
  have htotal : (msgRemTlen m).toNat = (m.state.hdrRemLen.toNat + m.state.metaRemLen.toNat +
      m.state.dataRemLen.toNat) % 2 ^ 32 := by
    simp only [msgRemTlen, BitVec.toNat_add, BitVec.toNat_setWidth]
    omega
  simp only [msgRwComplete, decide_eq_false_iff_not]
  intro hz
  rw [hz] at htotal
  simp only [BitVec.ofNat_eq_ofNat, BitVec.toNat_ofNat, Nat.zero_mod] at htotal
  by_cases h0 : m.state.hdrRemLen = 0
  · have hsmall := hs h0
    have hml := h.receiving.metaLe h0
    have hdl := h.receiving.dataLe h0
    unfold Small at hsmall
    have hzero : m.state.hdrRemLen.toNat = 0 := by rw [h0]; rfl
    refine h.notDone ⟨h0, BitVec.eq_of_toNat_eq ?_, BitVec.eq_of_toNat_eq ?_⟩
    · simp only [BitVec.ofNat_eq_ofNat, BitVec.toNat_ofNat, Nat.zero_mod]
      omega
    · simp only [BitVec.ofNat_eq_ofNat, BitVec.toNat_ofNat, Nat.zero_mod]
      omega
  · obtain ⟨hm0, hd0, _⟩ := h.receiving.fresh h0
    have hpos : m.state.hdrRemLen.toNat ≠ 0 := fun hz => h0 (BitVec.eq_of_toNat_eq hz)
    rw [hm0, hd0] at htotal
    simp only [BitVec.ofNat_eq_ofNat, BitVec.toNat_ofNat, Nat.zero_mod] at htotal
    unfold sizeofHdr at hhdr
    omega

end Receiver

/-- The bytes pushed are those delivered, received, under way and unsent, in this order. -/
structure Flow (l : Link) : Prop where
  sending : ∀ m ∈ l.sendQ, Sending m
  alive : l.receiver.destroyed = false
  closed : l.receiver.sock.closed = false
  pushed : ∀ m ∈ l.pushed, (content m).Whole ∧ Small m.header
  delivered : ∀ m ∈ l.receiver.delivered, Finished m
  stream : ∃ tail, Queue l.receiver.recvQ [] tail ∧
    (l.receiver.delivered.map content).flatMap Content.bytes ++ (received (tail.getD msgConstruct) ++
      (l.receiver.sock.inbox ++ l.sendQ.flatMap unsent)) =
    (l.pushed.map content).flatMap Content.bytes

section Steps
variable {l l' : Link} {a : LinkAct}

theorem sending_reset {m : Msg} (h : (content m).Whole) :
    Sending (messageStateReset m) ∧ unsent (messageStateReset m) = (content m).bytes := by
  have hm := m.header.metaLength_lt
  have hd := m.header.dataLength_lt
  have h1 : (BitVec.ofNat 16 sizeofHdr).toNat = sizeofHdr := rfl
  have h2 : (BitVec.ofNat 16 m.header.metaLength).toNat = m.header.metaLength := by
    rw [BitVec.toNat_ofNat, Nat.mod_eq_of_lt (by omega)]
  have h3 : (BitVec.ofNat 32 m.header.dataLength).toNat = m.header.dataLength := by
    rw [BitVec.toNat_ofNat, Nat.mod_eq_of_lt hd]
  refine ⟨⟨h, ?_, ?_, ?_⟩, ?_⟩
  · exact h1.le
  · exact h2.le
  · exact h3.le
  · simp only [unsent, messageStateReset, h1, h2, h3, Nat.sub_self, List.drop_zero, content,
      Content.bytes]

theorem Flow.push {m : Msg} (h : Flow l) (hw : (content m).Whole) (hs : Small m.header)
    (hstep : linkStep (.push m) l = some l') : Flow l' := by
  obtain rfl := Option.some.inj hstep
  obtain ⟨hsend, hun⟩ := sending_reset hw
  obtain ⟨tail, hq, hstream⟩ := h.stream
  refine ⟨fun x hx => ?_, h.alive, h.closed, fun x hx => ?_, h.delivered, tail, hq, ?_⟩
  · obtain hx | hx := List.mem_append.mp hx
    · exact h.sending x hx
    · obtain rfl := List.mem_singleton.mp hx
      exact hsend
  · obtain hx | hx := List.mem_append.mp hx
    · exact h.pushed x hx
    · obtain rfl := List.mem_singleton.mp hx
      exact ⟨hw, hs⟩
  · have hc : content (messageStateReset m) = content m := rfl
    simp only [linkAct, List.flatMap_append, List.map_append, List.map_cons, List.map_nil,
      List.flatMap_cons, List.flatMap_nil, List.append_nil, hun, hc]
    rw [← hstream]
    simp only [List.append_assoc]

theorem Flow.flush {turns : List Turn} (h : Flow l) (hok : Turn.error ∉ turns)
    (hstep : linkStep (.flush turns) l = some l') : Flow l' := by
  obtain ⟨h1, ⟨bs, h2, h3⟩, h4⟩ := flushMsgOf_spec l.sendQ l.receiver.sock.inbox turns h.sending
  obtain ⟨tail, hq, hstream⟩ := h.stream
  have hopen : (flushMsgOf l.sendQ l.receiver.sock.inbox turns).1 ≠ .needClose :=
    fun hc => hok (h4 hc)
  obtain rfl := Option.some.inj hstep
  simp only [linkAct, if_neg hopen]
  refine ⟨h1, h.alive, h.closed, h.pushed, h.delivered, tail, hq, ?_⟩
  simp only [h2]
  rw [← hstream, ← h3]
  simp only [List.append_assoc]

theorem Flow.read {turns : List Turn} {fill : Nat → Nat → Byte} (h : Flow l)
    (hok : Turn.error ∉ turns) (hstep : linkStep (.read turns fill) l = some l') : Flow l' := by
  obtain ⟨tail, hq, hstream⟩ := h.stream
  obtain ⟨done, m, h1, h2, h3, ⟨bs, h4, h5⟩, h6, h7, h8⟩ :=
    @recvLoop_spec fill (turns.length + 1) _ _ _ l.receiver.sock turns (Nat.lt_succ_self _) hq
  have hopen : (recvLoop fill (turns.length + 1) l.receiver.recvQ l.receiver.sock turns).1 ≠
      .needClose := by
    intro hc
    obtain hc | ⟨_, hc⟩ := h8 hc
    · exact hok hc
    · rw [h.closed] at hc
      cases hc
  simp only [linkStep, linkAct, readEventCallback, if_neg hopen] at hstep
  generalize recvLoop fill (turns.length + 1) l.receiver.recvQ l.receiver.sock turns = r at *
  obtain ⟨err, q, sock⟩ := r
  simp only [List.nil_append, List.map_nil, List.flatMap_nil] at h1 h2 h4 h5 h6 hstep
  subst h1
  have hdone : ∀ x ∈ l.receiver.delivered ++ done, Finished x := by
    intro x hx
    obtain hx | hx := List.mem_append.mp hx
    · exact h.delivered x hx
    · exact h2 x hx
  have hwhole : ∀ c ∈ (l.receiver.delivered ++ done).map content, c.Whole := by
    intro c hc
    obtain ⟨x, hx, rfl⟩ := List.mem_map.mp hc
    exact (hdone x hx).whole
  have hpushed : ∀ c ∈ l.pushed.map content, c.Whole := by
    intro c hc
    obtain ⟨x, hx, rfl⟩ := List.mem_map.mp hc
    exact (h.pushed x hx).1
  have hnew : ((l.receiver.delivered ++ done).map content).flatMap Content.bytes ++
      (received m ++ (sock.inbox ++ l.sendQ.flatMap unsent)) =
      (l.pushed.map content).flatMap Content.bytes := by
    have hcut : received (tail.getD msgConstruct) ++ ((bs ++ sock.inbox) ++ l.sendQ.flatMap unsent) =
        (received (tail.getD msgConstruct) ++ bs) ++ (sock.inbox ++ l.sendQ.flatMap unsent) := by
      simp only [List.append_assoc]
    rw [← hstream, h4, hcut, h5]
    simp only [List.map_append, List.flatMap_append, List.append_assoc]
  -- the header of the message in progress is that of a pushed one
  have hinc : msgRwComplete m = false := by
    refine h3.incomplete fun h0 => ?_
    obtain ⟨r, hr⟩ := (h3.received_length.2 h0).2
    obtain ⟨es, he, hes⟩ := prefix_of_bytes hwhole hpushed hnew
    cases es with
    | nil =>
      have hl := congrArg List.length hes
      rw [hr, List.append_assoc, List.length_append, m.header.size] at hl
      simp [sizeofHdr] at hl
    | cons e es =>
      rw [hr, List.flatMap_cons, Content.bytes, List.append_assoc, List.append_assoc] at hes
      have hhdr := header_of_bytes hes
      have hmem : e ∈ l.pushed.map content := by
        rw [he]
        simp
      obtain ⟨x, hx, rfl⟩ := List.mem_map.mp hmem
      rw [hhdr]
      exact (h.pushed x hx).2
  have hcomplete : ∀ x ∈ done, msgRwComplete x = true := fun x hx => (h2 x hx).complete
  have htake : (done ++ [m]).takeWhile msgRwComplete = done := by
    rw [List.takeWhile_append_of_pos hcomplete]
    simp [hinc]
  have hdrop : (done ++ [m]).dropWhile msgRwComplete = [m] := by
    rw [List.dropWhile_append_of_pos hcomplete]
    simp [hinc]
  rw [htake, hdrop] at hstep
  obtain rfl := Option.some.inj hstep
  refine ⟨h.sending, h.alive, h6.trans h.closed, h.pushed, hdone, some m, ?_, hnew⟩
  refine ⟨rfl, by simp, fun x hx => ?_⟩
  obtain rfl := Option.some.inj hx
  exact ⟨h3, hinc⟩

theorem Flow.step (h : Flow l) (hok : Sound l a) (hstep : linkStep a l = some l') : Flow l' := by
  cases a with
  | push m => exact h.push hok.1 hok.2 hstep
  | flush turns => exact h.flush hok.1 hstep
  | read turns fill => exact h.read hok.1 hstep

theorem flow_start : Flow Link.start :=
  ⟨by simp [Link.start], rfl, rfl, by simp [Link.start], by simp [Link.start], none,
    ⟨rfl, by simp, by simp⟩, rfl⟩

end Steps

/-- The messages handed out are the first ones of those pushed; the rest is on the way. -/
theorem Flow.parsed {l : Link} (h : Flow l) : ∃ es tail, Queue l.receiver.recvQ [] tail ∧
    l.pushed.map content = l.receiver.delivered.map content ++ es ∧ (∀ e ∈ es, e.Whole) ∧
    received (tail.getD msgConstruct) ++ (l.receiver.sock.inbox ++ l.sendQ.flatMap unsent) =
      es.flatMap Content.bytes := by
  obtain ⟨tail, hq, hstream⟩ := h.stream
  have hwhole : ∀ c ∈ l.receiver.delivered.map content, c.Whole := by
    intro c hc
    obtain ⟨x, hx, rfl⟩ := List.mem_map.mp hc
    exact (h.delivered x hx).whole
  have hpushed : ∀ c ∈ l.pushed.map content, c.Whole := by
    intro c hc
    obtain ⟨x, hx, rfl⟩ := List.mem_map.mp hc
    exact (h.pushed x hx).1
  obtain ⟨es, he, hr⟩ := prefix_of_bytes hwhole hpushed hstream
  exact ⟨es, tail, hq, he, fun e hmem => hpushed e (by rw [he]; exact List.mem_append_right _ hmem), hr⟩

/-- What is handed out are the first ones of the messages pushed, with the same bytes, and all of
them once nothing is on the way. -/
theorem transfer (l : Link) (hrun : Run linkStep Sound Link.start l) :
    (l.receiver.delivered.map content) <+: (l.pushed.map content) ∧
    (l.sendQ = [] → l.receiver.sock.inbox = [] →
      l.receiver.delivered.map content = l.pushed.map content) := by
  have h : Flow l := hrun.invariant flow_start fun _ _ _ hi hok hs => hi.step hok hs
  obtain ⟨es, tail, hq, he, hwhole, hr⟩ := h.parsed
  refine ⟨⟨es, he.symm⟩, fun hs hi => ?_⟩
  rw [hs, hi, List.flatMap_nil, List.append_nil, List.append_nil] at hr
  cases es with
  | nil => rw [he, List.append_nil]
  | cons e es =>
    -- a message in progress is shorter than any whole one
    exfalso
    have hopen := (tailRecvMsg_spec hq).2
    have hew : e.Whole := hwhole e (List.mem_cons_self ..)
    obtain ⟨hshort, hlong⟩ := hopen.received_length
    generalize tail.getD msgConstruct = m at hr hopen hshort hlong
    have hlen := congrArg List.length hr
    rw [List.flatMap_cons, List.length_append, hew.length] at hlen
    by_cases h0 : m.state.hdrRemLen = 0
    · obtain ⟨hlt, r, hmr⟩ := hlong h0
      rw [hmr, List.flatMap_cons, Content.bytes, List.append_assoc] at hr
      rw [header_of_bytes hr] at hlt
      unfold sizeofHdr at hlt
      omega
    · have hlt := hshort h0
      unfold sizeofHdr at hlt
      omega

/-- A message of two meta and three data bytes. -/
def shortMsg : Msg :=
  ⟨⟨0, 0, 0⟩, MsgHdr.zero.put 11 [2, 3], some [5, 6], some [7, 8, 9], 0⟩

/-- It goes out in three pieces and comes in in four. -/
theorem shortMsg_transfer : ∃ l : Link, l.receiver.delivered.length = 1 ∧
    (l.receiver.delivered.map content) <+: (l.pushed.map content) := by
  have hrun : (runActs linkStep Sound [.push shortMsg, .flush [.upTo 10],
      .read [.upTo 3, .upTo 99] fun _ _ => 0, .flush [.upTo 99, .upTo 0, .wouldBlock],
      .read [.upTo 99, .upTo 1] fun _ _ => 0, .flush [.upTo 99, .upTo 99],
      .read [.upTo 99, .upTo 99] fun _ _ => 0] Link.start).map
      (fun l => l.receiver.delivered.length) = some 1 := by
    decide +kernel
  obtain ⟨l, hl, hlen⟩ := Option.map_eq_some_iff.mp hrun
  exact ⟨l, hlen, (transfer l (run_of_runActs .start hl)).1⟩

/-- A message of one meta byte and `2 ^ 32 - 1` data bytes. -/
def wrappingMsg : Msg :=
  ⟨⟨0, 0, 0⟩, MsgHdr.zero.put 11 [1, 0xff, 0xff, 0xff, 0xff], some [1],
    some (List.replicate (2 ^ 32 - 1) 0), 0⟩

theorem wrappingMsg_whole : (content wrappingMsg).Whole := by
  have hm : wrappingMsg.header.metaLength = 1 := by decide +kernel
  have hd : wrappingMsg.header.dataLength = 2 ^ 32 - 1 := by decide +kernel
  constructor
  · simp only [content, hm]
    rfl
  · have hbuf : wrappingMsg.dataBuffer.getD [] = List.replicate (2 ^ 32 - 1) 0 := rfl
    simp only [content, hd, hbuf, List.length_take, List.length_replicate, Nat.min_self]

/-- Only its header has been read when it is handed out, with a meta byte that was never sent. -/
theorem wrappingMsg_not_transferred : ∃ l : Link, Run linkStep Calm Link.start l ∧
    ¬ (l.receiver.delivered.map content) <+: (l.pushed.map content) := by
  have hcalm : Turn.error ∉ [Turn.upTo 25] := by decide
  have h1 : Run linkStep Calm Link.start (linkAct (.push wrappingMsg) .start) :=
    .next (.push wrappingMsg) .start wrappingMsg_whole rfl
  have h2 : Run linkStep Calm Link.start (linkAct (.flush [.upTo 25])
      (linkAct (.push wrappingMsg) .start)) := .next (.flush [.upTo 25]) h1 hcalm rfl
  refine ⟨linkAct (.read [.upTo 25] fun _ _ => 0) (linkAct (.flush [.upTo 25])
    (linkAct (.push wrappingMsg) .start)), .next (.read [.upTo 25] fun _ _ => 0) h2 hcalm rfl,
    fun hpre => ?_⟩
  have hmeta := List.IsPrefix.map Content.metaBytes hpre
  have hgot : ((linkAct (.read [.upTo 25] fun _ _ => 0) (linkAct (.flush [.upTo 25])
      (linkAct (.push wrappingMsg) .start))).receiver.delivered.map content).map
      Content.metaBytes = [[0]] := by
    decide +kernel
  have hsent : ((linkAct (.read [.upTo 25] fun _ _ => 0) (linkAct (.flush [.upTo 25])
      (linkAct (.push wrappingMsg) .start))).pushed.map content).map Content.metaBytes = [[1]] := by
    decide +kernel
  rw [hgot, hsent] at hmeta
  exact absurd hmeta (by decide)

end ZCell.Messager

import ZCell.Matching
import ZCell.Transfer

/-! A network channel on its connection: requests and responses go through messager.c byte by byte.
As long as the lengths in the header of a request do not wrap, this is the channel of whole messages. -/
namespace ZCell.Liboss
open Bytes Messager Server Runs

/-- The queues of the world hold what has been pushed and has not been handed out. -/
structure Wired where
  world : World
  up : Link
  down : Link

def Wired.start (qd : BitVec 32) : Wired := ⟨.start .net [(0, qd)], .start, .start⟩

/-- The messages that the receiver has handed out since. -/
def handedOut (l l' : Link) : List Msg := l'.receiver.delivered.drop l.receiver.delivered.length

/-- The messages `ms` with the history of those that are under way. One that nobody has sent
belongs to none of the client's channels. -/
def arrivals (session : Nat) (q : List Sent) (ms : List Msg) : List Sent :=
  ms.mapIdx fun i m => { (q[i]?).getD ⟨m, 1, 0⟩ with msg := { m with privCtx := session } }

def pushAll (l : Link) (xs : List Sent) : Link :=
  xs.foldl (fun l x => linkAct (.push x.msg) l) l

/-- The steps of the two sides, and the flushes and read events of their messagers. -/
inductive WireAct where
  | act (a : Act)
  | flushUp (turns : List Turn)
  | flushDown (turns : List Turn)
  | readUp (turns : List Turn) (fill : Nat → Nat → Byte)
  | readDown (turns : List Turn) (fill : Nat → Nat → Byte)

/-- Messages come by read events only, and a submission returns when it has flushed them all. -/
def Wired.waits (w : Wired) : Act → Bool
  | .take .. | .wait _ => true
  | .send =>
    match w.world.pc with
    | .sending _ [] _ => !w.up.sendQ.isEmpty
    | _ => false
  | _ => false

def Wired.step (h : Heap (List Byte)) (a : WireAct) (w : Wired) : Option Wired :=
  if w.world.fault.isSome then none
  else
    match a with
    | .act a =>
      if w.waits a then none
      else (w.world.act h a).map fun v =>
        { world := v
          up := pushAll w.up ((v.c2s 0).drop (w.world.c2s 0).length)
          down := pushAll w.down ((v.s2c 0).drop (w.world.s2c 0).length) }
    | .flushUp turns => some { w with up := linkAct (.flush turns) w.up }
    | .flushDown turns => some { w with down := linkAct (.flush turns) w.down }
    | .readUp turns fill =>
      let up := linkAct (.read turns fill) w.up
      let ms := handedOut w.up up
      some { w with world := w.world.arrive 0 ms.length (arrivals 0 (w.world.c2s 0) ms), up := up }
    | .readDown turns fill =>
      match w.world.pc with
      | .polling c min max n retry => (w.world.chans[c]?).map fun ch =>
        let down := linkAct (.read turns fill) w.down
        let ms := handedOut w.down down
        let xs := arrivals ch.io.session (w.world.s2c ch.link) ms
        { w with world := w.world.receive c ch min max n retry ms.length xs, down := down }
      | _ => none

/-- The buffer of a write has the bytes that are to be written. -/
def Call.Backed : Call → Prop
  | .write _ buffer _ len => len.toNat ≤ buffer.length
  | _ => True

instance (call : Call) : Decidable call.Backed :=
  match call with
  | .write _ buffer _ len => inferInstanceAs (Decidable (len.toNat ≤ buffer.length))
  | .stat | .create _ | .delete _ | .read .. | .read2 .. => isTrue trivial

/-- The server has the memory that the data of the answer take. -/
def HasMemory (h : Heap (List Byte)) (m : Msg) : Prop :=
  let r := ossOpRefillRequestWithReponse h m
  r.header.dataLength ≤ (r.dataBuffer.getD []).length

instance (h : Heap (List Byte)) (m : Msg) : Decidable (HasMemory h m) :=
  inferInstanceAs (Decidable (_ ≤ _))

/-- The buffers are there, the client uses its operations properly, and the connection does not
fail. -/
def Usual (h : Heap (List Byte)) (w : Wired) : WireAct → Prop
  | .act (.prepare _ call) => call.Backed
  | .act (.handle l _) => ∀ x ∈ (w.world.batch l).head?, ossOpValid h x.msg → HasMemory h x.msg
  | .act a => Proper w.world a
  | .flushUp turns | .flushDown turns | .readUp turns _ | .readDown turns _ => Turn.error ∉ turns

instance (h : Heap (List Byte)) (w : Wired) (a : WireAct) : Decidable (Usual h w a) :=
  match a with
  | .act (.prepare _ call) => inferInstanceAs (Decidable call.Backed)
  | .act (.handle l _) =>
    inferInstanceAs (Decidable (∀ x ∈ (w.world.batch l).head?, ossOpValid h x.msg → HasMemory h x.msg))
  | .act (.submit c ops) => inferInstanceAs (Decidable (Proper w.world (.submit c ops)))
  | .act (.destroy c id) => inferInstanceAs (Decidable (Proper w.world (.destroy c id)))
  | .act .send | .act (.poll ..) | .act (.wait _) | .act .reap | .act (.claim ..) | .act (.take ..)
  | .act (.complete ..) => isTrue trivial
  | .flushUp turns | .flushDown turns | .readUp turns _ | .readDown turns _ =>
    inferInstanceAs (Decidable (Turn.error ∉ turns))

/-- The 32 bytes of arguments and the data of a write do not wrap the sum of their lengths. -/
def Call.Small : Call → Prop
  | .write _ _ _ len => 32 + len.toNat < 2 ^ 32
  | _ => True

instance (call : Call) : Decidable call.Small :=
  match call with
  | .write _ _ _ len => inferInstanceAs (Decidable (32 + len.toNat < 2 ^ 32))
  | .stat | .create _ | .delete _ | .read .. | .read2 .. => isTrue trivial

def SmallCall : WireAct → Prop
  | .act (.prepare _ call) => call.Small
  | _ => True

instance (a : WireAct) : Decidable (SmallCall a) :=
  match a with
  | .act (.prepare _ call) => inferInstanceAs (Decidable call.Small)
  | .act (.submit ..) | .act .send | .act (.poll ..) | .act (.wait _) | .act .reap | .act (.claim ..)
  | .act (.destroy ..) | .act (.take ..) | .act (.handle ..) | .act (.complete ..) | .flushUp _
  | .flushDown _ | .readUp .. | .readDown .. => isTrue trivial

def WireFits (h : Heap (List Byte)) (w : Wired) (a : WireAct) : Prop := Usual h w a ∧ SmallCall a

instance (h : Heap (List Byte)) (w : Wired) (a : WireAct) : Decidable (WireFits h w a) :=
  inferInstanceAs (Decidable (_ ∧ _))

/-- A message whose buffers have the bytes of its header, and whose lengths do not wrap. -/
structure Ready (m : Msg) : Prop where
  whole : (content m).Whole
  small : Messager.Small m.header

section Transport
variable {m m' : Msg} {q xs : List Sent} {l : Link}

/-- A message with no arguments is as short as its data. -/
theorem Ready.of_data (hmeta : m.header.metaLength = 0)
    (hdata : m.header.dataLength ≤ (m.dataBuffer.getD []).length) : Ready m where
  whole := ⟨by simp [content, hmeta], List.length_take_of_le hdata⟩
  small := by
    have hlt := m.header.dataLength_lt
    unfold Messager.Small
    omega

/-- A buffer that was received is the front of the one that was sent. -/
theorem buffer_received {b b' : Option (List Byte)} {n : Nat} (hnone : n = 0 → b = none)
    (hlen : (b.getD []).length = n) (heq : (b.getD []).take n = (b'.getD []).take n) :
    b = if n = 0 then none else b'.map fun bs => bs.take n := by
  by_cases hn : n = 0
  · rw [if_pos hn, hnone hn]
  · rw [if_neg hn]
    cases b with
    | none => exact absurd hlen.symm hn
    | some bs =>
      rw [Option.getD_some] at hlen heq
      cases b' with
      | none =>
        have hl := congrArg List.length heq
        rw [List.length_take, hlen, Nat.min_self] at hl
        simp only [Option.getD_none, List.take_nil, List.length_nil] at hl
        exact absurd hl hn
      | some bs' =>
        rw [Option.getD_some, List.take_of_length_le hlen.le] at heq
        rw [heq, Option.map_some]

/-- What comes out of the connection is the message that went in. -/
theorem finished_eq_delivered (hm : Finished m) (hc : content m = content m') (session : Nat) :
    { m with privCtx := session } = delivered .net session m' := by
  obtain ⟨hr, h0, h1, h2⟩ := hm
  have hhdr : m.header = m'.header := congrArg Content.header hc
  have hmeta := @buffer_received _ m'.metaBuffer _ (hr.metaNone h0) (hr.metaBuf h0)
    (by simpa only [content, hhdr] using congrArg Content.metaBytes hc)
  have hdata := @buffer_received _ m'.dataBuffer _ (hr.dataNone h0) (hr.dataBuf h0)
    (by simpa only [content, hhdr] using congrArg Content.dataBytes hc)
  have hstate : m.state = ⟨0, 0, 0⟩ := by
    cases hst : m.state
    rw [hst] at h0 h1 h2
    simp only at h0 h1 h2
    rw [h0, h1, h2]
  rw [hhdr] at hmeta hdata
  simp only [delivered, hmeta, hdata, hhdr, hstate]

theorem delivered_delivered (s s' : Nat) (m : Msg) :
    delivered .net s (delivered .net s' m) = delivered .net s m := by
  simp only [delivered]
  congr 1
  · split
    · rfl
    · simp only [Option.map_map, Function.comp_def, List.take_take, Nat.min_self]
  · split
    · rfl
    · simp only [Option.map_map, Function.comp_def, List.take_take, Nat.min_self]

/-- The messages `q` are under way on the link. -/
structure Hauls (q : List Sent) (l : Link) : Prop where
  flow : Flow l
  queue : l.pushed.drop l.receiver.delivered.length = q.map fun x => messageStateReset x.msg

theorem Hauls.start : Hauls [] Link.start := ⟨flow_start, rfl⟩

theorem delivered_le (h : Flow l) : l.receiver.delivered.length ≤ l.pushed.length := by
  obtain ⟨es, _, _, he, _⟩ := h.parsed
  have hlen := congrArg List.length he
  simp only [List.length_map, List.length_append] at hlen
  omega

theorem Hauls.push (h : Hauls q l) (hm : Ready m) {x : Sent} (hx : x.msg = m) :
    Hauls (q ++ [x]) (linkAct (.push m) l) where
  flow := h.flow.push hm.whole hm.small rfl
  queue := by
    have hle := delivered_le h.flow
    simp only [linkAct]
    rw [List.drop_append_of_le_length hle, h.queue, List.map_append, ← hx]
    rfl

theorem Hauls.pushAll (h : Hauls q l) (hxs : ∀ x ∈ xs, Ready x.msg) :
    Hauls (q ++ xs) (pushAll l xs) := by
  induction xs generalizing q l with
  | nil =>
    rw [List.append_nil]
    exact h
  | cons x xs ih =>
    have hfirst := h.push (hxs x (List.mem_cons_self ..)) rfl
    have hrest := ih hfirst fun y hy => hxs y (List.mem_cons_of_mem x hy)
    rwa [List.append_assoc] at hrest

theorem Hauls.flush (h : Hauls q l) {turns : List Turn} (hok : Turn.error ∉ turns) :
    Hauls q (linkAct (.flush turns) l) where
  flow := h.flow.flush hok rfl
  queue := h.queue

/-- A read event only adds to what has been handed out. -/
theorem delivered_prefix (l : Link) (turns : List Turn) (fill : Nat → Nat → Byte) :
    l.receiver.delivered <+: (linkAct (.read turns fill) l).receiver.delivered := by
  simp only [linkAct, readEventCallback]
  split
  · exact List.prefix_rfl
  · exact List.prefix_append ..

/-- A read event hands out the first messages that are under way, as they were sent. -/
theorem Hauls.read (h : Hauls q l) {turns : List Turn} (fill : Nat → Nat → Byte) (session : Nat)
    (hok : Turn.error ∉ turns) :
    let ms := handedOut l (linkAct (.read turns fill) l)
    ms.length ≤ q.length ∧ Hauls (q.drop ms.length) (linkAct (.read turns fill) l) ∧
      arrivals session q ms =
        (q.take ms.length).map fun x => { x with msg := delivered .net session x.msg } := by
  have hflow : Flow (linkAct (.read turns fill) l) := h.flow.read hok rfl
  have hpushed : (linkAct (.read turns fill) l).pushed = l.pushed := by simp only [linkAct]
  obtain ⟨ms, hms⟩ := delivered_prefix l turns fill
  generalize linkAct (.read turns fill) l = l' at hflow hpushed hms ⊢
  have hout : handedOut l l' = ms := by rw [handedOut, ← hms, List.drop_left]
  have hfin := hflow.delivered
  obtain ⟨es, _, _, hparsed, _⟩ := hflow.parsed
  rw [hpushed, ← hms] at hparsed
  have hqueue := h.queue
  have hlen := congrArg List.length hqueue
  have hlen' := congrArg List.length hparsed
  simp only [List.length_drop, List.length_map, List.length_append] at hlen hlen'
  have hle : ms.length ≤ q.length := by omega
  dsimp only
  rw [hout]
  refine ⟨hle, ⟨hflow, ?_⟩, ?_⟩
  · rw [hpushed, ← hms, List.length_append, ← List.drop_drop, hqueue, List.map_drop]
  · apply List.ext_getElem
    · simp [arrivals, hle]
    · intro i hi hi'
      have hi : i < ms.length := by simpa [arrivals] using hi
      have hiq : i < q.length := by omega
      -- the content of the message is that of the one at its place in the queue
      have hcontent : content ms[i] = content q[i].msg := by
        have hlast := congrArg (List.drop l.receiver.delivered.length) hparsed
        rw [← List.map_drop, hqueue, List.map_append, List.append_assoc,
          List.drop_append_of_le_length (by simp), List.drop_of_length_le (by simp),
          List.nil_append, List.map_map] at hlast
        have hat := congrArg (fun cs => cs[i]?) hlast
        have hlen : i < (ms.map content).length := by simpa using hi
        simp only [List.getElem?_map, List.getElem?_append_left hlen,
          List.getElem?_eq_getElem hiq, List.getElem?_eq_getElem hi, Option.map_some, Function.comp_apply,
          Option.some.injEq] at hat
        exact hat.symm
      have hmem : ms[i] ∈ l'.receiver.delivered := by
        rw [← hms]
        exact List.mem_append_right _ (List.getElem_mem hi)
      simp only [arrivals, List.getElem_mapIdx, List.getElem_map, List.getElem_take,
        List.getElem?_eq_getElem hiq, Option.getD_some, finished_eq_delivered (hfin _ hmem) hcontent session]

/-- A message that came over the connection is received as it is. -/
theorem recvAll_delivered (c : Nat) (ch : Chan) (session : Nat) (xs : List Sent) :
    World.recvAll .net c ch (xs.map fun x => { x with msg := delivered .net session x.msg }) =
      World.recvAll .net c ch xs := by
  induction xs generalizing ch with
  | nil => rfl
  | cons x xs ih =>
    have hslot : Sent.slot { x with msg := delivered .net session x.msg } = x.slot := rfl
    rw [List.map_cons, World.recvAll, World.recvAll]
    dsimp only
    rw [delivered_delivered, hslot]
    cases onRecvMsg ch.io (delivered .net ch.io.session x.msg) with
    | error f => rfl
    | ok io => simp only [ih]

end Transport

/-- What a step does to the messages of a link and to the numbers of the operations: only the one
side takes, only a call takes a number, and only a valid request goes to the store. -/
structure Frame (h : Heap (List Byte)) (w w' : World) (a : Act) (l : Nat) : Prop where
  c2s : (∀ l j, a ≠ .take l j) → w.c2s l <+: w'.c2s l
  s2c : (∀ j, a ≠ .wait j) → w.s2c l <+: w'.s2c l
  nextOp : (∀ c call, a ≠ .prepare c call) → w'.nextOp = w.nextOp
  pending : ∀ x ∈ w'.pending l, x ∈ w.pending l ∨ (∃ rc, a = .handle l rc) ∧
    ∃ y ∈ (w.batch l).head?, ossOpValid h y.msg ∧ x.msg = ossOpRefillRequestWithReponse h y.msg

section Frame
variable {h : Heap (List Byte)} {w w' : World} {a : Act} {l : Nat}

/-- The links stay as they are. -/
theorem Frame.same (hc : w'.c2s = w.c2s) (hs : w'.s2c = w.s2c) (hp : w'.pending = w.pending)
    (hn : (∀ c call, a ≠ .prepare c call) → w'.nextOp = w.nextOp) : Frame h w w' a l where
  c2s _ := hc ▸ List.prefix_rfl
  s2c _ := hs ▸ List.prefix_rfl
  nextOp := hn
  pending x hx := by
    rw [hp] at hx
    exact Or.inl hx

/-- What the store gets from a request that it takes. -/
theorem onRecvMessage_stored {rc : Int} {m r : Msg} (hr : (onRecvMessage h rc m).2 = some r) :
    ossOpValid h m = true ∧ r = ossOpRefillRequestWithReponse h m := by
  unfold onRecvMessage opExecute doOpOss at hr
  dsimp only at hr
  split at hr
  · cases hr
  · split at hr
    · split at hr
      · rename_i hvalid
        split at hr
        · exact ⟨hvalid, (Option.some.inj hr).symm⟩
        · cases hr
      · cases hr
    · cases hr

theorem handle_frame {x : Sent} {xs : List Sent} {rc : Int} {k : Nat} (hb : w.batch k = x :: xs) :
    Frame h w (World.handle h w k x xs rc) (.handle k rc) l := by
  obtain ⟨s2c, log, he, hs⟩ := answer_frame { w with
    batch := Function.update w.batch k xs
    pending := Function.update w.pending k
      (w.pending k ++ (onRecvMessage h rc x.msg).2.toList.map fun m => { x with msg := m }) } x
    (World.refusal h rc x.msg) (onRecvMessage h rc x.msg).1
  rw [World.handle, he]
  refine ⟨fun _ => List.prefix_rfl, fun _ => hs l, fun _ => rfl, fun y hy => ?_⟩
  by_cases hl : l = k
  · subst hl
    simp only [Function.update_self, List.mem_append, List.mem_map, Option.mem_toList] at hy
    rcases hy with hy | ⟨m, hm, rfl⟩
    · exact Or.inl hy
    · exact Or.inr ⟨⟨rc, rfl⟩, x, by rw [hb]; rfl, onRecvMessage_stored hm⟩
  · simp only [Function.update_of_ne hl] at hy
    exact Or.inl hy

theorem complete_frame {x : Sent} {code : Int} {k i : Nat} :
    Frame h w (World.complete w k i x code) (.complete k i code) l := by
  obtain ⟨s2c, log, he, hs⟩ := answer_frame { w with
    pending := Function.update w.pending k ((w.pending k).eraseIdx i) } x code (ossOpCb x.msg code)
  rw [World.complete, he]
  refine ⟨fun _ => List.prefix_rfl, fun _ => hs l, fun _ => rfl, fun y hy => ?_⟩
  by_cases hl : l = k
  · subst hl
    simp only [Function.update_self] at hy
    exact Or.inl (List.mem_of_mem_eraseIdx hy)
  · simp only [Function.update_of_ne hl] at hy
    exact Or.inl hy

theorem called {c : Nat} {f : Chan → World} (hs : w.call c f = some w') : ∃ ch, w' = f ch := by
  unfold World.call at hs
  split at hs
  · obtain ⟨ch, -, rfl⟩ := Option.map_eq_some_iff.mp hs
    exact ⟨ch, rfl⟩
  · cases hs

theorem act_frame (hs : w.act h a = some w') : Frame h w w' a l := by
  cases a with
  | prepare c call =>
    obtain ⟨ch, rfl⟩ := called hs
    have hnever : ∀ v : World, (∀ c' call', Act.prepare c call ≠ .prepare c' call') →
        v.nextOp = w.nextOp := fun _ hne => absurd rfl (hne c call)
    unfold World.prepare
    split
    · exact .same rfl rfl rfl (hnever _)
    · split
      · exact .same rfl rfl rfl (hnever _)
      · exact .same rfl rfl rfl (hnever _)
  | submit c ops =>
    obtain ⟨ch, rfl⟩ := called hs
    unfold World.submit
    split
    · exact .same rfl rfl rfl fun _ => rfl
    · exact .same rfl rfl rfl fun _ => rfl
    · exact .same rfl rfl rfl fun _ => rfl
  | send =>
    simp only [World.act] at hs
    split at hs
    · obtain ⟨ch, -, rfl⟩ := Option.map_eq_some_iff.mp hs
      exact ⟨fun _ => update_extends _ _ (enqueue_extends ..) l, fun _ => List.prefix_rfl, fun _ => rfl,
        fun _ hx => Or.inl hx⟩
    · obtain ⟨ch, -, rfl⟩ := Option.map_eq_some_iff.mp hs
      exact .same rfl rfl rfl fun _ => rfl
    · cases hs
  | poll c min max =>
    obtain ⟨ch, rfl⟩ := called hs
    unfold World.poll
    split
    · exact .same rfl rfl rfl fun _ => rfl
    · split
      · exact .same rfl rfl rfl fun _ => rfl
      · exact .same rfl rfl rfl fun _ => rfl
  | wait j =>
    simp only [World.act] at hs
    split at hs
    · split at hs
      · split at hs
        · obtain rfl := Option.some.inj hs
          exact ⟨fun _ => List.prefix_rfl, fun hne => absurd rfl (hne j), fun _ => rfl,
            fun _ hx => Or.inl hx⟩
        · cases hs
      · cases hs
    · cases hs
  | reap =>
    simp only [World.act] at hs
    split at hs
    · obtain ⟨ch, -, rfl⟩ := Option.map_eq_some_iff.mp hs
      exact .same rfl rfl rfl fun _ => rfl
    · cases hs
  | claim c id =>
    obtain ⟨ch, rfl⟩ := called hs
    exact .same rfl rfl rfl fun _ => rfl
  | destroy c id =>
    obtain ⟨ch, rfl⟩ := called hs
    unfold World.destroy
    split
    · exact .same rfl rfl rfl fun _ => rfl
    · exact .same rfl rfl rfl fun _ => rfl
  | take k j =>
    simp only [World.act] at hs
    split at hs
    · obtain rfl := Option.some.inj hs
      exact ⟨fun hne => absurd rfl (hne k j), fun _ => List.prefix_rfl, fun _ => rfl,
        fun _ hx => Or.inl hx⟩
    · cases hs
  | handle k rc =>
    simp only [World.act] at hs
    split at hs
    · rename_i x xs hb
      obtain rfl := Option.some.inj hs
      exact handle_frame hb
    · cases hs
  | complete k i code =>
    obtain ⟨x, -, rfl⟩ := Option.map_eq_some_iff.mp hs
    exact complete_frame

end Frame

end ZCell.Liboss

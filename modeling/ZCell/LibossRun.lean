import ZCell.Liboss
import ZCell.Response
import ZCell.Runs

/-! A client thread with its channels and the servers at their other ends: the messages between
them, and everything that either side can do next. A network channel has a connection of its own;
the local channels to one core share a pair of rings (spdk_ipc_messager.c). -/
namespace ZCell.Liboss
open Bytes Messager Server

/-- A message on its way. The channel and the operation that it belongs to are history. -/
structure Sent where
  msg : Msg
  chan : Nat
  op : Nat

def Sent.slot (x : Sent) : Nat := x.msg.header.rsv 0

structure Chan where
  io : IoChannel
  /-- The connection, or the core at the other end of the rings. -/
  link : Nat
  /-- History: the operation that is in each slot. -/
  op : Nat → Nat

/-- Where the client is. -/
inductive Pc where
  | idle
  /-- `io_submit_to_channel` has still to send `rest`. -/
  | sending (c : Nat) (rest all : List Nat)
  /-- The body of the loop of `io_poll_channel` is next. -/
  | polling (c min max n : Nat) (retry : Bool)
  | reaping (c max : Nat)
  deriving DecidableEq, Repr

/-- What is kept of the past. -/
inductive Obs where
  /-- The server hands the response to its messager. -/
  | answered (op type : Nat) (code : Int) (len : Nat)
  /-- The response for `op` of channel `sender` reaches `on_recv_msg` of channel `chan`, where its
  slot holds the operation `holder`. -/
  | received (chan sender op holder : Nat) (state : OpState)
  | claimed (op status type len : Nat)
  deriving DecidableEq, Repr

structure World where
  kind : Kind
  chans : List Chan
  pc : Pc
  /-- The messages to a server, those it has taken from there, and those its store works on. -/
  c2s : Nat → List Sent
  batch : Nat → List Sent
  pending : Nat → List Sent
  /-- The messages back. -/
  s2c : Nat → List Sent
  nextOp : Nat
  fault : Option Fault
  log : List Obs

/-- The messages between a client and the server at `l`: to it, held by it, and from it. -/
def World.flight (w : World) (l : Nat) : List Sent := w.c2s l ++ w.batch l ++ w.pending l ++ w.s2c l

theorem mem_flight {w : World} {l : Nat} {x : Sent} : x ∈ w.flight l ↔
    x ∈ w.c2s l ∨ x ∈ w.batch l ∨ x ∈ w.pending l ∨ x ∈ w.s2c l := by
  simp only [World.flight, List.mem_append, or_assoc]

/-- The channels that a client has opened, each with its link and depth. -/
def World.start (kind : Kind) (opened : List (Nat × BitVec 32)) : World where
  kind := kind
  chans := opened.mapIdx fun c x => ⟨getIoChannel kind c x.2, x.1, fun _ => 0⟩
  pc := .idle
  c2s _ := []
  batch _ := []
  pending _ := []
  s2c _ := []
  nextOp := 0
  fault := none
  log := []

def ringSize : Nat := 512

/-- A full ring takes nothing, which `message_send` does not look at. -/
def enqueue (kind : Kind) (q : List Sent) (x : Sent) : List Sent :=
  if kind = .ipc ∧ ringSize ≤ q.length then q else q ++ [x]

/-- A message as the other side gets it, if it comes over whole: through the network only the bytes
that its header announces, through a ring the pointers as they are. -/
def delivered (kind : Kind) (session : Nat) (m : Msg) : Msg :=
  match kind with
  | .ipc => { m with privCtx := session }
  | .net => { m with
      state := ⟨0, 0, 0⟩
      metaBuffer := if m.header.metaLength = 0 then none
        else m.metaBuffer.map fun b => b.take m.header.metaLength
      dataBuffer := if m.header.dataLength = 0 then none
        else m.dataBuffer.map fun b => b.take m.header.dataLength
      privCtx := session }

/-- What can be taken from a queue at once: a prefix of what the network has brought, or all
that is in a ring. -/
def Takes (kind : Kind) (q : List Sent) (j : Nat) : Prop :=
  j ≤ q.length ∧ (kind = .ipc → j = q.length)

instance (kind : Kind) (q : List Sent) (j : Nat) : Decidable (Takes kind q j) :=
  inferInstanceAs (Decidable (_ ∧ _))

namespace World

def crash (w : World) (f : Fault) : World := { w with fault := some f }

def setChan (w : World) (c : Nat) (ch : Chan) : World := { w with chans := w.chans.set c ch }

def prepare (w : World) (c : Nat) (ch : Chan) (call : Call) : World :=
  match ioCall ch.io call with
  | .error f => w.crash f
  | .ok (rc, io) =>
    if rc < 0 then w.setChan c { ch with io := io }
    else { w.setChan c { ch with io := io, op := Function.update ch.op rc.toNat w.nextOp } with
      nextOp := w.nextOp + 1 }

def submit (w : World) (c : Nat) (ch : Chan) (ops : List Nat) : World :=
  match submitCheck ch.io ops with
  | .error f => w.crash f
  | .ok false => w
  | .ok true => { w with pc := .sending c ops ops }

/-- `messager_sendmsg` for the next operation of the array. -/
def send (w : World) (c : Nat) (ch : Chan) (id : Nat) (rest all : List Nat) : World :=
  let x := ⟨(ch.io.opCtxs id).requestAndResponse, c, ch.op id⟩
  { w with
    c2s := Function.update w.c2s ch.link (enqueue w.kind (w.c2s ch.link) x)
    pc := .sending c rest all }

/-- `on_recv_msg` for one message after the other. -/
def recvAll (kind : Kind) (c : Nat) : Chan → List Sent → Chan × List Obs × Option Fault
  | ch, [] => (ch, [], none)
  | ch, x::xs =>
    let o := .received c x.chan x.op (ch.op x.slot) (ch.io.opCtxs x.slot).state
    match onRecvMsg ch.io (delivered kind ch.io.session x.msg) with
    | .error f => (ch, [o], some f)
    | .ok io =>
      let r := recvAll kind c { ch with io := io } xs
      (r.1, o :: r.2.1, r.2.2)

/-- `io_poll_channel` up to its loop. -/
def poll (w : World) (c : Nat) (ch : Chan) (min max : Nat) : World :=
  if max < min then w
  else if ch.io.cplNr = 0 then { w with pc := .polling c min max 0 (decide (0 < min)) }
  else { w with pc := .reaping c max }

/-- The body of the loop, which gets the first `j` messages in the form `xs`, and the test behind
it. -/
def receive (w : World) (c : Nat) (ch : Chan) (min max n : Nat) (retry : Bool) (j : Nat)
    (xs : List Sent) : World :=
  let r := recvAll w.kind c ch xs
  let pc := if n + j < min then .polling c min max (n + j) retry
    else if j = 0 ∧ retry then .polling c min max (n + j) false
    else .reaping c max
  { w.setChan c r.1 with
    s2c := Function.update w.s2c ch.link ((w.s2c ch.link).drop j)
    log := w.log ++ r.2.1
    fault := r.2.2
    pc := pc }

def wait (w : World) (c : Nat) (ch : Chan) (min max n : Nat) (retry : Bool) (j : Nat) : World :=
  w.receive c ch min max n retry j ((w.s2c ch.link).take j)

def claim (w : World) (c : Nat) (ch : Chan) (id : Nat) : World :=
  let r := opClaimResult ch.io id
  { w.setChan c { ch with io := r.2.1 } with
    log := w.log ++ r.2.2.toList.map fun x => .claimed (ch.op id) x.status x.opType x.dataLen }

def destroy (w : World) (c : Nat) (ch : Chan) (id : Nat) : World :=
  match opDestory ch.io id with
  | .error f => w.crash f
  | .ok (_, io) => w.setChan c { ch with io := io }

/-- The server takes the first `j` messages from the link, and gets them in the form `xs`. -/
def arrive (w : World) (l j : Nat) (xs : List Sent) : World :=
  { w with
    c2s := Function.update w.c2s l ((w.c2s l).drop j)
    batch := Function.update w.batch l (w.batch l ++ xs) }

def take (w : World) (l j : Nat) : World :=
  w.arrive l j (((w.c2s l).take j).map fun x => { x with msg := delivered w.kind l x.msg })

/-- The responses among the events go to the links that their sessions say. -/
def answer (w : World) (x : Sent) (code : Int) (events : List (Event (List Byte))) : World :=
  (responses events).foldl (fun w kr =>
    if kr.1 = w.kind then
      let l := kr.2.privCtx
      { w with
        s2c := Function.update w.s2c l (enqueue w.kind (w.s2c l) ⟨kr.2, x.chan, x.op⟩)
        log := w.log ++ [.answered x.op kr.2.header.type code kr.2.header.dataLength] }
    else w) w

/-- The code that a request is answered with if the store does not take it. -/
def refusal (h : Heap (List Byte)) (rc : Int) (m : Msg) : Int :=
  if m.header.type = msgPing then Status.success.code
  else if msgTypeOss m.header.type then
    if ossOpValid h m then rc else Status.invalidOp.code
  else Status.unknownOp.code

/-- The next message of the batch; `rc` is what the store returns for it. -/
def handle (h : Heap (List Byte)) (w : World) (l : Nat) (x : Sent) (xs : List Sent) (rc : Int) :
    World :=
  let r := onRecvMessage h rc x.msg
  answer { w with
    batch := Function.update w.batch l xs
    pending := Function.update w.pending l
      (w.pending l ++ r.2.toList.map fun m => { x with msg := m }) } x (refusal h rc x.msg) r.1

/-- The store calls back for its request number `i`. -/
def complete (w : World) (l i : Nat) (x : Sent) (code : Int) : World :=
  answer { w with pending := Function.update w.pending l ((w.pending l).eraseIdx i) } x code
    (ossOpCb x.msg code)

end World

/-- The calls of the client, what they are broken into, and what the servers do. -/
inductive Act where
  | prepare (c : Nat) (call : Call)
  | submit (c : Nat) (ops : List Nat)
  | send
  | poll (c min max : Nat)
  | wait (j : Nat)
  | reap
  | claim (c id : Nat)
  | destroy (c id : Nat)
  | take (l j : Nat)
  | handle (l : Nat) (rc : Int)
  | complete (l i : Nat) (code : Int)
  deriving DecidableEq

/-- A call of the client on one of its channels. -/
def World.call (w : World) (c : Nat) (f : Chan → World) : Option World :=
  if w.pc = .idle then (w.chans[c]?).map f else none

/-- One step; none when it is not its turn. -/
def World.act (h : Heap (List Byte)) (w : World) : Act → Option World
  | .prepare c call => w.call c fun ch => w.prepare c ch call
  | .submit c ops => w.call c fun ch => w.submit c ch ops
  | .poll c min max => w.call c fun ch => w.poll c ch min max
  | .claim c id => w.call c fun ch => w.claim c ch id
  | .destroy c id => w.call c fun ch => w.destroy c ch id
  | .send =>
    match w.pc with
    | .sending c (id::rest) all => (w.chans[c]?).map fun ch => w.send c ch id rest all
    -- everything is sent: the operations are marked, and the call returns
    | .sending c [] all => (w.chans[c]?).map fun ch =>
        { w.setChan c { ch with io := markInProgress ch.io all } with pc := .idle }
    | _ => none
  | .wait j =>
    match w.pc with
    | .polling c min max n retry =>
      match w.chans[c]? with
      | some ch => if Takes w.kind (w.s2c ch.link) j then some (w.wait c ch min max n retry j) else none
      | none => none
    | _ => none
  | .reap =>
    match w.pc with
    | .reaping c max => (w.chans[c]?).map fun ch =>
        { w.setChan c { ch with io := (reap ch.io max).2 } with pc := .idle }
    | _ => none
  | .take l j => if Takes w.kind (w.c2s l) j then some (w.take l j) else none
  | .handle l rc =>
    match w.batch l with
    | x::xs => some (World.handle h w l x xs rc)
    | [] => none
  | .complete l i code => ((w.pending l)[i]?).map fun x => w.complete l i x code

/-- Nothing happens once an assertion has failed. -/
def step (h : Heap (List Byte)) (a : Act) (w : World) : Option World :=
  if w.fault.isSome then none else w.act h a

theorem step_act {h : Heap (List Byte)} {a : Act} {w w' : World} (hs : step h a w = some w') :
    w.fault = none ∧ w.act h a = some w' := by
  unfold step at hs
  split at hs
  · cases hs
  · rename_i hf
    exact ⟨by simpa using hf, hs⟩

section Answers

theorem enqueue_extends (kind : Kind) (q : List Sent) (x : Sent) : q <+: enqueue kind q x := by
  unfold enqueue
  split
  · exact List.prefix_rfl
  · exact List.prefix_append ..

/-- A queue to which a message is added. -/
theorem update_extends (f : Nat → List Sent) (k : Nat) {q : List Sent} (hq : f k <+: q) (l : Nat) :
    f l <+: Function.update f k q l := by
  by_cases hl : l = k
  · rw [hl, Function.update_self]
    exact hq
  · have hkept : Function.update f k q l = f l := Function.update_of_ne hl q f
    exact hkept ▸ List.prefix_rfl

/-- A response is added to the messages back and to the log, and touches nothing else. -/
theorem answer_frame (w : World) (x : Sent) (code : Int) (events : List (Event (List Byte))) :
    ∃ s2c log, World.answer w x code events = { w with s2c := s2c, log := w.log ++ log } ∧
      ∀ l, w.s2c l <+: s2c l := by
  unfold World.answer
  generalize responses events = krs
  induction krs generalizing w with
  | nil => exact ⟨w.s2c, [], by simp, fun _ => List.prefix_rfl⟩
  | cons kr krs ih =>
    rw [List.foldl_cons]
    split
    · obtain ⟨s2c, log, he, hs⟩ := ih { w with
        s2c := Function.update w.s2c kr.2.privCtx
          (enqueue w.kind (w.s2c kr.2.privCtx) ⟨kr.2, x.chan, x.op⟩)
        log := w.log ++ [.answered x.op kr.2.header.type code kr.2.header.dataLength] }
      exact ⟨s2c, _, by rw [he, List.append_assoc],
        fun l => (update_extends _ _ (enqueue_extends ..) l).trans (hs l)⟩
    · exact ih w

end Answers

/-- Buffers that are their bytes, and an allocator that does not fail. -/
def byteHeap : Heap (List Byte) where
  field bs ofst n := leValue ((bs.drop ofst).take n)
  allocDataBuffer n := some (List.replicate n 0)
  ofAddr _ := []

end ZCell.Liboss

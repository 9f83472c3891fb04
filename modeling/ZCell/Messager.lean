import ZCell.Message
import ZCell.Runs

/-! messager.c: sending and receiving over a socket that takes and gives as many bytes as it
likes. Each call of the socket gets a turn from the outside, which says how it comes out. -/
namespace ZCell.Messager
open Bytes

inductive SockStatus where
  | rwOk
  | eagain
  | needClose
  deriving DecidableEq, Repr

/-- How a call of the socket comes out: at most `n + 1` bytes move, it would block, or it fails
with another error. -/
inductive Turn where
  | upTo (n : Nat)
  | wouldBlock
  | error
  deriving DecidableEq, Repr

/-- The bytes that have arrived, and whether the peer has closed behind them. -/
structure Sock where
  inbox : List Byte
  closed : Bool
  deriving DecidableEq, Repr

/-- The most bytes that one call moves. -/
def ioMax : Nat := 0x7ffff000

theorem ioMax_pos : 0 < ioMax := Nat.succ_pos 0x7fffefff

/-- The return code, whether `errno` says to try again, and the bytes read. At the end of the stream
`errno` is that of an earlier call; where it is a stale `EAGAIN`, the turn is `wouldBlock`. -/
def readv (turn : Turn) (len : Nat) (sock : Sock) : Int × Bool × List Byte :=
  match turn with
  | .wouldBlock => (-1, true, [])
  | .error => (-1, false, [])
  | .upTo n =>
    if sock.inbox = [] then if sock.closed then (0, false, []) else (-1, true, [])
    else
      let bs := sock.inbox.take (min (min (n + 1) ioMax) len)
      (bs.length, false, bs)

/-- The return code, whether `errno` says to try again, and the bytes taken from the buffer. -/
def writev (turn : Turn) (buf : List Byte) : Int × Bool × List Byte :=
  match turn with
  | .wouldBlock => (-1, true, [])
  | .error => (-1, false, [])
  | .upTo n =>
    let bs := buf.take (min (n + 1) ioMax)
    (bs.length, false, bs)

/-- `_sock_rc_handle`: the status and the new counter. -/
def sockRcHandle {w : Nat} (rc : Int) (again : Bool) (rem : BitVec w) : SockStatus × BitVec w :=
  if rc ≤ 0 then (if again then .eagain else .needClose, rem)
  else
    let rem := rem - BitVec.ofNat w rc.toNat
    (if rem ≠ 0 then .eagain else .rwOk, rem)

/-- A message with the contents of its buffers. -/
abbrev Msg := Message (List Byte)

def msgConstruct : Msg :=
  ⟨⟨BitVec.ofNat 16 sizeofHdr, 0, 0⟩, .zero, none, none, 0⟩

/-- The sum is a `uint32_t`. -/
def msgRemTlen (m : Msg) : BitVec 32 :=
  m.state.hdrRemLen.setWidth 32 + m.state.metaRemLen.setWidth 32 + m.state.dataRemLen

def msgRwComplete (m : Msg) : Bool := msgRemTlen m = 0

/-- A message on its way in, the socket, and the turns that are left. -/
structure Recv where
  m : Msg
  sock : Sock
  turns : List Turn

/-- One `readv`; without a turn it would block. -/
def Recv.readv (c : Recv) (len : Nat) : Int × Bool × List Byte × Sock × List Turn :=
  match c.turns with
  | [] => (-1, true, [], c.sock, [])
  | t::ts =>
    let (rc, again, bs) := Messager.readv t len c.sock
    (rc, again, bs, { c.sock with inbox := c.sock.inbox.drop bs.length }, ts)

/-- The buffers for the parts that the header announces; `fill` is what `malloc` left in them. -/
def allocBuffers (fill : Nat → Byte) (m : Msg) : Msg :=
  let metaLen := m.header.metaLength
  let dataLen := m.header.dataLength
  let metaBuf := (List.range metaLen).map fill
  let dataBuf := (List.range dataLen).map fun i => fill (metaLen + i)
  { m with
    state := ⟨m.state.hdrRemLen, BitVec.ofNat 16 metaLen, BitVec.ofNat 32 dataLen⟩
    metaBuffer := if metaLen = 0 then m.metaBuffer else some metaBuf
    dataBuffer := if dataLen = 0 then m.dataBuffer else some dataBuf }

def recvHdr (fill : Nat → Nat → Byte) (c : Recv) : SockStatus × Recv :=
  let rem := c.m.state.hdrRemLen
  if rem = 0 then (.rwOk, c)
  else
    let (rc, again, bs, sock, turns) := c.readv rem.toNat
    let (err, rem') := sockRcHandle rc again rem
    let m := { c.m with
      header := c.m.header.put (sizeofHdr - rem.toNat) bs, state.hdrRemLen := rem' }
    if err = .rwOk then (err, ⟨allocBuffers (fill turns.length) m, sock, turns⟩)
    else (err, ⟨m, sock, turns⟩)

def recvMeta (c : Recv) : SockStatus × Recv :=
  let rem := c.m.state.metaRemLen
  if rem = 0 then (.rwOk, c)
  else
    let (rc, again, bs, sock, turns) := c.readv rem.toNat
    let (err, rem') := sockRcHandle rc again rem
    let m := { c.m with
      metaBuffer := c.m.metaBuffer.map fun b => overwrite b (c.m.header.metaLength - rem.toNat) bs
      state.metaRemLen := rem' }
    (err, ⟨m, sock, turns⟩)

def recvData (c : Recv) : SockStatus × Recv :=
  let rem := c.m.state.dataRemLen
  if rem = 0 then (.rwOk, c)
  else
    let (rc, again, bs, sock, turns) := c.readv rem.toNat
    let (err, rem') := sockRcHandle rc again rem
    let m := { c.m with
      dataBuffer := c.m.dataBuffer.map fun b => overwrite b (c.m.header.dataLength - rem.toNat) bs
      state.dataRemLen := rem' }
    (err, ⟨m, sock, turns⟩)

/-- Go on with the next part when this one is through. -/
def andThen {γ : Type} (r : SockStatus × γ) (f : γ → SockStatus × γ) : SockStatus × γ :=
  if r.1 = .rwOk then f r.2 else r

def doRecvMessage (fill : Nat → Nat → Byte) (c : Recv) : SockStatus × Recv :=
  andThen (andThen (recvHdr fill c) recvMeta) recvData

/-- The messages before the one that is to be received, and that one. -/
def tailRecvMsg (q : List Msg) : List Msg × Msg :=
  match q.getLast? with
  | none => (q, msgConstruct)
  | some m => if msgRwComplete m then (q, msgConstruct) else (q.dropLast, m)

/-- The loop "Recieve all"; every round has a turn, or ends it. -/
def recvLoop (fill : Nat → Nat → Byte) :
    Nat → List Msg → Sock → List Turn → SockStatus × List Msg × Sock
  | 0, q, sock, _ => (.eagain, q, sock)
  | n+1, q, sock, turns =>
    let (q', m) := tailRecvMsg q
    let (err, c) := doRecvMessage fill ⟨m, sock, turns⟩
    if err = .rwOk then recvLoop fill n (q' ++ [c.m]) c.sock c.turns
    else (err, q' ++ [c.m], c.sock)

/-- One direction of a session as its receiver sees it. -/
structure Session where
  sock : Sock
  recvQ : List Msg
  /-- `session_destruct` has been called. -/
  destroyed : Bool
  /-- What `on_recv_message` was called with. -/
  delivered : List Msg

/-- `_read_event_callback`. After the close branch the queue is gone, and what it still held
with it. -/
def readEventCallback (fill : Nat → Nat → Byte) (turns : List Turn) (s : Session) : Session :=
  let (err, q, sock) := recvLoop fill (turns.length + 1) s.recvQ s.sock turns
  if err = .needClose then { s with sock := sock, recvQ := [], destroyed := true }
  else { s with
    sock := sock
    recvQ := q.dropWhile msgRwComplete
    delivered := s.delivered ++ q.takeWhile msgRwComplete }

/-- A message on its way out, what the socket has taken, and the turns that are left. -/
structure Send where
  m : Msg
  wire : List Byte
  turns : List Turn

/-- One `writev` of a part of which `rem` bytes are left; without a turn it would block. -/
def Send.writev {w : Nat} (c : Send) (part : List Byte) (rem : BitVec w) :
    SockStatus × BitVec w × List Byte × List Turn :=
  match c.turns with
  | [] => (.eagain, rem, c.wire, [])
  | t::ts =>
    let (rc, again, bs) := Messager.writev t (part.take rem.toNat)
    let (err, rem') := sockRcHandle rc again rem
    (err, rem', c.wire ++ bs, ts)

def sendHdr (c : Send) : SockStatus × Send :=
  let rem := c.m.state.hdrRemLen
  if rem = 0 then (.rwOk, c)
  else
    let (err, rem', wire, turns) := c.writev (c.m.header.bytes.drop (sizeofHdr - rem.toNat)) rem
    (err, ⟨{ c.m with state.hdrRemLen := rem' }, wire, turns⟩)

def sendMeta (c : Send) : SockStatus × Send :=
  let rem := c.m.state.metaRemLen
  if rem = 0 then (.rwOk, c)
  else
    let part := (c.m.metaBuffer.getD []).drop (c.m.header.metaLength - rem.toNat)
    let (err, rem', wire, turns) := c.writev part rem
    (err, ⟨{ c.m with state.metaRemLen := rem' }, wire, turns⟩)

def sendData (c : Send) : SockStatus × Send :=
  let rem := c.m.state.dataRemLen
  if rem = 0 then (.rwOk, c)
  else
    let part := (c.m.dataBuffer.getD []).drop (c.m.header.dataLength - rem.toNat)
    let (err, rem', wire, turns) := c.writev part rem
    (err, ⟨{ c.m with state.dataRemLen := rem' }, wire, turns⟩)

def doSendMessage (c : Send) : SockStatus × Send :=
  andThen (andThen (sendHdr c) sendMeta) sendData

/-- `_flush_msg_of` up to the end of the loop: the last status, the queue, and the wire. -/
def flushMsgOf : List Msg → List Byte → List Turn → SockStatus × List Msg × List Byte
  | [], wire, _ => (.rwOk, [], wire)
  | m::q, wire, turns =>
    let (err, c) := doSendMessage ⟨m, wire, turns⟩
    if err = .rwOk then flushMsgOf q c.wire c.turns else (err, c.m :: q, c.wire)

end ZCell.Messager

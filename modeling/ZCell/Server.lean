import ZCell.Message
import ZCell.Errcode

/-! server_main.c: a request from the moment a messager hands it over to its response. What the
code does on the way is recorded as a list of events. -/
namespace ZCell.Server
open Messager

variable {β : Type}

/-- `SESSION_TYPE`: `ipc` stands for `LOCAL`, `net` for `REMOTE`. There is a messager for each. -/
inductive Kind where
  | ipc
  | net
  deriving DecidableEq, Repr

def Kind.magic : Kind → Nat
  | .ipc => 0x11
  | .net => 0x22

/-- Where the memory of a buffer comes from, and goes back to. -/
inductive Pool where
  | malloc
  | spdk
  deriving DecidableEq, Repr

/-- The allocators in a `messager_conf_t`. -/
structure MessagerConf where
  dataBufferAlloc : Option Pool
  dataBufferFree : Option Pool
  metaBufferAlloc : Option Pool
  metaBufferFree : Option Pool

/-- `alloc_data_buffer` of messager.c, which the configuration replaces. -/
def allocDataPool (conf : MessagerConf) : Pool :=
  match conf.dataBufferAlloc, conf.dataBufferFree with
  | some alloc, some _ => alloc
  | _, _ => .malloc

/-- `alloc_meta_buffer` of messager.c: what the configuration says about it is not looked at. -/
def allocMetaPool (_ : MessagerConf) : Pool := .malloc

/-- The configuration in `_msgr_boot`. -/
def msgrBootConf : MessagerConf := ⟨some .spdk, some .spdk, some .spdk, some .spdk⟩

/-- The pool of the meta buffer of a request. The buffers of a `LOCAL` one are the client's, which
come from `spdk_malloc`. -/
def Kind.metaPool : Kind → Pool
  | .ipc => .spdk
  | .net => allocMetaPool msgrBootConf

def Kind.dataPool : Kind → Pool
  | .ipc => .spdk
  | .net => allocDataPool msgrBootConf

/-- `free_meta_buffer` and `free_data_buffer` of the server are `spdk_free`. -/
def freePool : Pool := .spdk

@[match_pattern] def msgPing : Nat := 1
@[match_pattern] def msgOssOpStat : Nat := 11
@[match_pattern] def msgOssOpCreate : Nat := 12
@[match_pattern] def msgOssOpRead : Nat := 13
@[match_pattern] def msgOssOpWrite : Nat := 14
@[match_pattern] def msgOssOpDelete : Nat := 15

/-- `MSG_TYPE_OSS`, between `msg_oss_op_min` and `msg_oss_op_max`. -/
def msgTypeOss (op : Nat) : Bool := 10 < op && op < 74

/-- `sizeof(op_create_t)`, which is `sizeof(op_delete_t)` too. -/
def sizeofOpCreate : Nat := 8
def sizeofOpStatResult : Nat := 20

/-- The memory behind the buffers: the value of the `n` bytes at `ofst`, what `spdk_malloc` gives
for a size, and the buffer at an address that a client sent. -/
structure Heap (β : Type) where
  field : β → Nat → Nat → Nat
  allocDataBuffer : Nat → Option β
  ofAddr : Nat → β

def Heap.opLen (h : Heap β) (op : β) : Nat := h.field op 16 8
def Heap.readBufferZeroCopyAddr (h : Heap β) (op : β) : Nat := h.field op 32 8

inductive Event (β : Type) where
  | freeMetaBuffer (b : β)
  | freeDataBuffer (b : β)
  | sendmsg (k : Kind) (m : Message β)
  | logErr

def msgFreeResource (m : Message β) : List (Event β) × Message β :=
  let freeMeta := m.header.metaLength = 0
  let freeData := m.header.dataLength = 0
  ((if freeMeta then m.metaBuffer.toList.map .freeMetaBuffer else []) ++
    (if freeData ∧ m.header.magic = Kind.net.magic then m.dataBuffer.toList.map .freeDataBuffer
     else []),
   { m with
     metaBuffer := if freeMeta then none else m.metaBuffer
     dataBuffer := if freeData then none else m.dataBuffer })

/-- The messager is picked by a byte that the peer has sent. -/
def sendResponse (m : Message β) : List (Event β) :=
  if m.header.magic = Kind.ipc.magic then [.sendmsg .ipc m]
  else if m.header.magic = Kind.net.magic then [.sendmsg .net m]
  else [.logErr]

def responseWithReusingRequest (request : Message β) (statusCode : Int) : List (Event β) :=
  let m := messageStateReset { request with header := request.header.setStatus statusCode }
  let (freed, m) := msgFreeResource m
  freed ++ sendResponse m

/-- The buffers are freed here, and the pointers to them stay. -/
def responseBrokenOp (request : Message β) (statusCode : Int) : List (Event β) :=
  let hdr := (request.header.setDataLength 0).setMetaLength 0
  request.metaBuffer.toList.map .freeMetaBuffer ++
    request.dataBuffer.toList.map .freeDataBuffer ++
    responseWithReusingRequest { request with header := hdr } statusCode

def doOpUnknown (request : Message β) : List (Event β) :=
  responseBrokenOp request Status.unknownOp.code

def ossOpCb (request : Message β) (statusCode : Int) : List (Event β) :=
  if statusCode ≠ Status.success.code then responseBrokenOp request statusCode
  else responseWithReusingRequest request statusCode

def ossOpValid (h : Heap β) (request : Message β) : Bool :=
  let metaLen := request.header.metaLength
  let dataLen := request.header.dataLength
  match request.header.type with
  | msgOssOpStat =>
    dataLen = 0 && metaLen = 0 && request.dataBuffer.isNone && request.metaBuffer.isNone
  | msgOssOpCreate | msgOssOpDelete =>
    dataLen = 0 && metaLen = sizeofOpCreate && request.dataBuffer.isNone &&
      request.metaBuffer.isSome
  | msgOssOpWrite =>
    request.dataBuffer.isSome && request.metaBuffer.any (fun op => dataLen = h.opLen op) &&
      0 < metaLen
  | msgOssOpRead =>
    dataLen = 0 && 0 < metaLen && request.dataBuffer.isNone && request.metaBuffer.isSome
  | _ => false

/-- An IPC call says where the data go; an RPC call gets a new buffer. -/
def readBuffer (h : Heap β) (op : β) : Option β :=
  let addr := h.readBufferZeroCopyAddr op
  if addr ≠ 0 then some (h.ofAddr addr) else h.allocDataBuffer (h.opLen op % 2 ^ 32)

/-- Called on valid requests only, so that a read has a meta buffer. -/
def ossOpRefillRequestWithReponse (h : Heap β) (request : Message β) : Message β :=
  let hdr := request.header
  match hdr.type with
  | msgOssOpStat => { request with
      header := (hdr.setMetaLength 0).setDataLength sizeofOpStatResult
      dataBuffer := h.allocDataBuffer sizeofOpStatResult }
  | msgOssOpCreate | msgOssOpDelete => { request with header := hdr.setMetaLength 0 }
  | msgOssOpWrite => { request with header := (hdr.setMetaLength 0).setDataLength 0 }
  | msgOssOpRead => { request with
      header := (hdr.setMetaLength 0).setDataLength (request.metaBuffer.elim 0 h.opLen)
      dataBuffer := request.metaBuffer.bind (readBuffer h) }
  | _ => request

/-- `rc` is what the store returns for the request. The request stays with the store when that
is `OSTORE_SUBMIT_OK`. -/
def doOpOss (h : Heap β) (rc : Int) (request : Message β) : List (Event β) × Option (Message β) :=
  if ossOpValid h request then
    let request := ossOpRefillRequestWithReponse h request
    if rc = Status.success.code then ([], some request) else (responseBrokenOp request rc, none)
  else (responseBrokenOp request Status.invalidOp.code, none)

def doOpPing (request : Message β) : List (Event β) :=
  responseWithReusingRequest request Status.success.code

def opExecute (h : Heap β) (rc : Int) (request : Message β) :
    List (Event β) × Option (Message β) :=
  let opCode := request.header.type
  if opCode = msgPing then (doOpPing request, none)
  else if msgTypeOss opCode then doOpOss h rc request
  else (doOpUnknown request, none)

def onRecvMessage (h : Heap β) (rc : Int) (m : Message β) : List (Event β) × Option (Message β) :=
  opExecute h rc m

/-- The whole way of a request; the store calls back with `statusCode` when it took it. -/
def serve (h : Heap β) (rc statusCode : Int) (m : Message β) : List (Event β) :=
  let (events, pending) := onRecvMessage h rc m
  events ++ pending.toList.flatMap fun request => ossOpCb request statusCode

end ZCell.Server

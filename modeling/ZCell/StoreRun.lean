import ZCell.Store
import ZCell.Runs

/-! zstore.c from the accepted request to its callback: submission of the data bios, the queue
of transactions and the drain loop that commits them. A user callback may itself call the store;
what is left of the call stack when it does is kept in the state. -/
namespace ZCell.Store
open Bytes Persist Pm

/-- A bio at the device. -/
structure Flight where
  tid : Nat
  bio : Bio
  buf : BitVec 64
  deriving DecidableEq, Repr

/-- A C frame that waits for the one above it to return. -/
inductive Frame where
  /-- `zstore_user_cb`: the calls of the store that the user's callback still makes. -/
  | userCb (calls : List Request)
  /-- The loop of `zstore_tx_metadata`. -/
  | drain
  deriving DecidableEq, Repr

/-- What a caller or the device sees, in order of time. -/
inductive Obs where
  | accept (tid : Nat)
  | reject (tid : Nat) (rc : Int)
  | submit (tid : Nat)
  | done (tid : Nat)
  | apply (tid : Nat)
  | callback (tid : Nat)
  | post (tid : Nat)
  | deliver (tid : Nat)
  deriving DecidableEq, Repr

/-- The code around the store. -/
structure Env where
  /-- What a transaction finds in memory that is not initialised. -/
  uninit : Nat → Uninit
  /-- The calls that the user callback of a transaction makes. -/
  calls : Nat → List Request
  /-- Whether the device accepts a bio of a transaction. -/
  submit : Nat → Nat → Bool

structure World where
  zs : ZstoreContext
  tx : Nat → ZstoreTransaction
  flight : List Flight
  posted : List Nat
  stack : List Frame
  log : List Obs
  /-- History: the store as the prepare function of a transaction found it, and left it. -/
  before : Nat → ZstoreContext
  after : Nat → ZstoreContext

def World.setTx (w : World) (tid : Nat) (tx : ZstoreTransaction) : World :=
  { w with tx := Function.update w.tx tid tx }

def World.note (w : World) (o : Obs) : World := { w with log := w.log ++ [o] }

def World.push (w : World) (f : Frame) : World := { w with stack := f :: w.stack }

/-- The bios from number `i` on, up to the first one that the device refuses. -/
def submitBios (submit : Nat → Bool) (tid : Nat) : Nat → BitVec 64 → List Bio → List Flight
  | _, _, [] => []
  | i, buf, b::bs =>
    if submit i then
      ⟨tid, b, buf⟩ :: submitBios submit tid (i + 1)
        (buf + BitVec.ofNat 64 (b.blkLen.toNat * zstorePageSize)) bs
    else []

/-- The return code is dropped by the caller. -/
def zstoreTxDataBio (env : Env) (tid : Nat) (w : World) : World :=
  let fs := submitBios (env.submit tid) tid 0 (w.tx tid).dataBuffer (w.tx tid).bios
  { w with flight := w.flight ++ fs, log := w.log ++ fs.map fun f => .submit f.tid }

def zstoreTxEnd (env : Env) (tid : Nat) (w : World) : World :=
  let zs := if (w.tx tid).txType = .rdonly then
      { w.zs with
        txRdonlyOutstanding := w.zs.txRdonlyOutstanding - 1
        txRdonlyList := w.zs.txRdonlyList.erase tid }
    else
      { w.zs with
        txOutstanding := w.zs.txOutstanding - 1
        txList := w.zs.txList.erase tid }
  let w := { w with zs := zs }
  if (w.tx tid).sync then { w with posted := w.posted ++ [tid] }.note (.post tid)
  else (w.note (.callback tid)).push (.userCb (env.calls tid))

def zstoreTxMetadata (env : Env) (tid : Nat) (w : World) : Except Fault World :=
  if (w.tx tid).bioOutstanding ≠ 0 then .error .assertion
  else if (w.tx tid).txType = .rdonly then .ok (zstoreTxEnd env tid w)
  else
    let w := w.setTx tid { w.tx tid with state := .pmTx }
    .ok (if w.zs.txList.head? = some tid then w.push .drain else w)

/-- One round of the loop of `zstore_tx_metadata`; it is left with the stack `stack`. -/
def drainRound (env : Env) (stack : List Frame) (w : World) : Except Fault World :=
  match w.zs.txList with
  | [] => .ok { w with stack := stack }
  | tid::_ =>
    if (w.tx tid).state ≠ .pmTx then .ok { w with stack := stack }
    else
      match (w.tx tid).pmTx with
      | none => .error .nullPointer
      | some t =>
        let (pm, mem, s) := pmemTransactionApply w.zs.pmem t w.zs.pm w.zs.mem
        let err := if s then Status.success.code else Status.ostoreIoError.code
        let w := { w with zs := { w.zs with pm := pm, mem := mem } }
        .ok (zstoreTxEnd env tid ((w.setTx tid { w.tx tid with err := err }).note (.apply tid)))

def zstoreTxExecute (env : Env) (tid : Nat) (w : World) : Except Fault World :=
  match (w.tx tid).state with
  | .dataIo => .ok (zstoreTxDataBio env tid w)
  | .pmTx => zstoreTxMetadata env tid w
  | .prepare => .ok w

def zstoreBioCb (env : Env) (success : Bool) (tid : Nat) (w : World) : Except Fault World :=
  if !success then .error .assertion
  else
    let tx := { w.tx tid with bioOutstanding := (w.tx tid).bioOutstanding - 1 }
    if tx.bioOutstanding = 0 then
      zstoreTxExecute env tid (w.setTx tid { tx with state := .pmTx, bios := [] })
    else .ok (w.setTx tid tx)

def zstoreTxEnqueue (tid : Nat) (w : World) : World :=
  let zs := if (w.tx tid).txType = .rdonly then
      { w.zs with
        txRdonlyList := w.zs.txRdonlyList ++ [tid]
        txRdonlyOutstanding := w.zs.txRdonlyOutstanding + 1 }
    else
      { w.zs with
        txList := w.zs.txList ++ [tid]
        txOutstanding := w.zs.txOutstanding + 1 }
  { w with zs := zs }.note (.accept tid)

/-- The return code, and the state once the frames that the call pushed have been worked off. -/
def zstoreObjAsyncOpCall (env : Env) (r : Request) (w : World) : Except Fault (Int × World) :=
  let tid := w.zs.tidMax
  match zstoreTxPrepare (env.uninit tid) w.zs r (w.tx tid) with
  | .error f => .error f
  | .ok (rc, zs, tx) =>
    let w' := { w with zs := zs }.setTx tid tx
    if rc ≠ 0 then .ok (rc, w'.note (.reject tid rc))
    else
      let w' := { w' with
        before := Function.update w.before tid w.zs
        after := Function.update w.after tid zs }
      match zstoreTxExecute env tid (zstoreTxEnqueue tid w') with
      | .error f => .error f
      | .ok w' => .ok (0, w')

/-- The topmost frame goes on. -/
def resume (env : Env) (w : World) : Except Fault World :=
  match w.stack with
  | [] => .ok w
  | .userCb [] :: s => .ok { w with stack := s }
  | .userCb (r::rs) :: s =>
    match zstoreObjAsyncOpCall env r { w with stack := .userCb rs :: s } with
    | .error f => .error f
    | .ok (_, w') => .ok w'
  | .drain :: s => drainRound env s w

/-- What happens next: the reactor runs to completion, so the first three wait for an empty
stack. Bios and posted messages may come back in any order. -/
inductive Act where
  | request (r : Request)
  | bioDone (k : Nat) (success : Bool)
  | message (k : Nat)
  | resume
  deriving DecidableEq, Repr

def act (env : Env) (a : Act) (w : World) : Except Fault World :=
  match a with
  | .request r =>
    match zstoreObjAsyncOpCall env r w with
    | .error f => .error f
    | .ok (_, w') => .ok w'
  | .bioDone k success =>
    match w.flight[k]? with
    | none => .ok w
    | some f => zstoreBioCb env success f.tid
        ({ w with flight := w.flight.eraseIdx k }.note (.done f.tid))
  | .message k =>
    match w.posted[k]? with
    | none => .ok w
    | some tid => .ok (({ w with posted := w.posted.eraseIdx k }.note (.deliver tid)).push
        (.userCb (env.calls tid)))
  | .resume => resume env w

/-- An event is taken only between events, and `resume` only inside one. -/
def enabled (w : World) (a : Act) : Bool := (a == .resume) != w.stack.isEmpty

/-- One step of the store; none when it is not its turn or ends the process. -/
def step (env : Env) (a : Act) (w : World) : Option World :=
  if enabled w a then (act env a w).toOption else none

end ZCell.Store

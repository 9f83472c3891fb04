import ZCell.ChunkReadBack
import ZCell.Reply

/-! The server of a reactor whose store is a chunk store. Requests of any sessions come in, the device
serves them in any order, from and to the memory at their data buffers, and the callbacks of the store
answer them. -/
namespace ZCell.Chunkstore
open Server Messager Runs

variable {β γ : Type}

/-- The operation with its arguments, where the store finds them. -/
def requestOf (h : Heap β) (m : Message β) : Request where
  op := m.header.type
  oid := BitVec.ofNat 64 (m.metaBuffer.elim 0 fun op => h.field op 0 8)
  ofst := BitVec.ofNat 64 (m.metaBuffer.elim 0 fun op => h.field op 8 8)
  len := BitVec.ofNat 64 (m.metaBuffer.elim 0 fun op => h.field op 16 8)

/-- A request that the store works on: the number of the call, the request as it came, and what has
been made of it. -/
structure Job (β : Type) where
  id : Nat
  origin : Kind × Message β
  refilled : Message β

/-- A response that a messager is given. -/
structure Outgoing (β γ : Type) where
  origin : Kind × Message β
  kind : Kind
  msg : Message β
  /-- The call of the store that has called back. -/
  call : Option Nat
  /-- What the memory at `msg.dataBuffer` holds then. -/
  data : Option (Nat → γ)

structure Service (β γ : Type) where
  store : Tracked γ
  /-- The blocks of memory behind each data buffer. -/
  mem : β → Nat → γ
  jobs : List (Job β)
  received : List (Kind × Message β)
  sent : List (Outgoing β γ)
  fault : Option Fault

def Service.start (c : Chunks γ) (mem : β → Nat → γ) : Service β γ :=
  ⟨Tracked.mounted c, mem, [], [], [], none⟩

section Model
variable [DecidableEq β] [Inhabited γ]

/-- There is nothing behind a null pointer. -/
def behind (mem : β → Nat → γ) (b : Option β) : Nat → γ := b.elim (fun _ => default) mem

/-- The next `spdk_malloc` returns `buf`. -/
def granting (h : Heap β) (buf : Option β) : Heap β := { h with allocDataBuffer := fun _ => buf }

def Service.respond (s : Service β γ) (origin : Kind × Message β) (call : Option Nat)
    (events : List (Event β)) : Service β γ :=
  { s with sent := s.sent ++ (responses events).map fun x =>
      ⟨origin, x.1, x.2, call, x.2.dataBuffer.map s.mem⟩ }

/-- `_on_recv_message`. A valid operation goes to the store; `rc` is what its device returns. -/
def Service.recv (h : Heap β) (s : Service β γ) (k : Kind) (m : Message β) (rc : Int) :
    Option (Service β γ) :=
  let s := { s with received := s.received ++ [(k, m)] }
  if ossOpValid h m then
    let data := (ossOpRefillRequestWithReponse h m).dataBuffer
    -- the handler of a stat writes to the buffer whether it is there or not
    if m.header.type = msgOssOpStat ∧ data = none then some { s with fault := some .nullPointer }
    else
      match chunkstoreObjAsyncOpCall (fun _ => rc) (requestOf h m),
        trackedStep (.call (requestOf h m) (behind s.mem data) rc) s.store with
      | .ok (code, _), some store =>
        let jobs := (onRecvMessage h code m).2.toList.map fun r => ⟨s.store.c.calls, (k, m), r⟩
        some { s.respond (k, m) none (onRecvMessage h code m).1 with
          store := store, jobs := s.jobs ++ jobs }
      | _, _ => none
  else some (s.respond (k, m) none (onRecvMessage h Status.success.code m).1)

/-- `oss_op_cb`, which the store calls with the request. -/
def Service.callback (s : Service β γ) (x : ChunkMsg γ × Int) : Service β γ :=
  match s.jobs.find? fun j => j.id = x.1.id with
  | none => s
  | some j =>
    { s.respond j.origin (some j.id) (ossOpCb j.refilled x.2) with
      jobs := s.jobs.filter fun j' => decide (j'.id ≠ j.id) }

/-- The data buffer of a call. -/
def Service.buffer (s : Service β γ) (id : Nat) : Option β :=
  (s.jobs.find? fun j => j.id = id).bind fun j => j.refilled.dataBuffer

/-- The device takes the blocks of an I/O from memory as they are when it gets to them. -/
def Service.loaded (s : Service β γ) : Tracked γ :=
  { s.store with c := { s.store.c with flights := s.store.c.flights.map fun f =>
      { f with msg := { f.msg with data := behind s.mem (s.buffer f.msg.id) } } } }

/-- The memory when the store has come to `c`. -/
def Service.saved (s : Service β γ) (c : Chunks γ) : ChunkAct γ → β → Nat → γ
  | .move id _ =>
    match s.buffer id, c.find id with
    | some b, some f => Function.update s.mem b f.msg.data
    | _, _ => s.mem
  | _ => s.mem

inductive ServiceAct (β γ : Type) where
  | recv (k : Kind) (m : Message β) (buf : Option β) (rc : Int)
  | device (a : ChunkAct γ)
  /-- The clients and the messagers use their memory. -/
  | fill (b : β) (blocks : Nat → γ)

def Service.act (h : Heap β) (s : Service β γ) : ServiceAct β γ → Option (Service β γ)
  | .recv k m buf rc => s.recv (granting h buf) k m rc
  | .device (.call ..) => none
  | .device a => (trackedStep a s.loaded).map fun store =>
    (store.c.answered.drop s.store.c.answered.length).foldl Service.callback
      { s with store := store, mem := s.saved store.c a }
  | .fill b blocks => some { s with mem := Function.update s.mem b blocks }

def serviceStep (h : Heap β) (a : ServiceAct β γ) (s : Service β γ) : Option (Service β γ) :=
  if s.fault.isSome then none else s.act h a

end Model

/-- No request at the store has the buffer. -/
def Service.Free (s : Service β γ) (b : β) : Prop := ∀ j ∈ s.jobs, j.refilled.dataBuffer ≠ some b

instance [DecidableEq β] (s : Service β γ) (b : β) : Decidable (s.Free b) :=
  inferInstanceAs (Decidable (∀ j ∈ _, _))

/-- A request says which messager it came through, what it reads or writes lies in one object, and it
has a data buffer of its own: the allocations succeed, and only a client of the same process names an
address. -/
structure Servable (h : Heap β) (s : Service β γ) (k : Kind) (m : Message β) (rc : Int) : Prop where
  magic : m.header.magic = k.magic
  inside : (requestOf h m).IsRw → rc = 0 → Inside s.store.c.stat (requestOf h m)
  granted : ossOpValid h m → m.header.type = msgOssOpStat ∨ m.header.type = msgOssOpRead →
    (ossOpRefillRequestWithReponse h m).dataBuffer ≠ none
  address : k = .net → m.header.type = msgOssOpRead → ∀ op ∈ m.metaBuffer, h.readBufferZeroCopyAddr op = 0
  own : ossOpValid h m → ∀ b ∈ (ossOpRefillRequestWithReponse h m).dataBuffer, s.Free b

instance [DecidableEq β] (h : Heap β) (s : Service β γ) (k : Kind) (m : Message β) (rc : Int) :
    Decidable (Servable h s k m rc) :=
  decidable_of_iff (m.header.magic = k.magic ∧
      ((requestOf h m).IsRw → rc = 0 → Inside s.store.c.stat (requestOf h m)) ∧
      (ossOpValid h m → m.header.type = msgOssOpStat ∨ m.header.type = msgOssOpRead →
        (ossOpRefillRequestWithReponse h m).dataBuffer ≠ none) ∧
      (k = .net → m.header.type = msgOssOpRead → ∀ op ∈ m.metaBuffer, h.readBufferZeroCopyAddr op = 0) ∧
      (ossOpValid h m → ∀ b ∈ (ossOpRefillRequestWithReponse h m).dataBuffer, s.Free b))
    ⟨fun ⟨h1, h2, h3, h4, h5⟩ => ⟨h1, h2, h3, h4, h5⟩,
      fun ⟨h1, h2, h3, h4, h5⟩ => ⟨h1, h2, h3, h4, h5⟩⟩

/-- Memory that the store has been lent is left alone. -/
def ServiceFits (h : Heap β) (s : Service β γ) : ServiceAct β γ → Prop
  | .recv k m buf rc => Servable (granting h buf) s k m rc
  | .device a => ChunkFits s.store.c a
  | .fill b _ => s.Free b

instance [DecidableEq β] (h : Heap β) (s : Service β γ) :
    (a : ServiceAct β γ) → Decidable (ServiceFits h s a)
  | .recv k m buf rc => inferInstanceAs (Decidable (Servable (granting h buf) s k m rc))
  | .device a => inferInstanceAs (Decidable (ChunkFits s.store.c a))
  | .fill b _ => inferInstanceAs (Decidable (s.Free b))

/-- Each request is answered once or is with the store; a response goes where the request came from
and carries its identity; a read that is answered with success brings, at the data buffer of the
response, what was known of the object when the store was called. -/
structure WellServed (h : Heap β) (s : Service β γ) : Prop where
  noFault : s.fault = none
  once : (s.sent.map Outgoing.origin ++ s.jobs.map Job.origin).Perm s.received
  routed : ∀ o ∈ s.sent, o.kind = o.origin.1 ∧ o.msg.header.ident = o.origin.2.header.ident ∧
    o.msg.privCtx = o.origin.2.privCtx
  reads : ∀ o ∈ s.sent, o.origin.2.header.type = msgOssOpRead → o.msg.header.status = 0 →
    ∃ id, o.call = some id ∧ o.msg.header.dataLength = (requestOf h o.origin.2).len.toNat ∧
      ∀ oid j v, (requestOf h o.origin.2).Touches oid j → s.store.views id oid j = some v →
        ∃ blocks, o.data = some blocks ∧ blocks ((requestOf h o.origin.2).place j) = v

section Server
variable {h : Heap β} {m : Message β} {k : Kind}

/-- The response to a read announces as many bytes as were asked for. -/
theorem refill_length (hread : m.header.type = msgOssOpRead) :
    (ossOpRefillRequestWithReponse h m).header.dataLength = (requestOf h m).len.toNat % 2 ^ 32 := by
  have hr : ossOpRefillRequestWithReponse h m = { m with
      header := (m.header.setMetaLength 0).setDataLength (m.metaBuffer.elim 0 h.opLen)
      dataBuffer := m.metaBuffer.bind (readBuffer h) } := by
    rw [ossOpRefillRequestWithReponse, hread]
    rfl
  have hlen : (requestOf h m).len.toNat = m.metaBuffer.elim 0 h.opLen % 2 ^ 64 := BitVec.toNat_ofNat ..
  rw [hr, MsgHdr.setDataLength_dataLength, hlen]
  omega

theorem refill_write (hv : ossOpValid h m = true) (hwrite : m.header.type = msgOssOpWrite) :
    (ossOpRefillRequestWithReponse h m).dataBuffer ≠ none := by
  have hr : (ossOpRefillRequestWithReponse h m).dataBuffer = m.dataBuffer := by
    rw [ossOpRefillRequestWithReponse, hwrite]
    rfl
  unfold ossOpValid at hv
  rw [hwrite] at hv
  simp only [msgOssOpWrite, Bool.and_eq_true] at hv
  rw [hr]
  exact Option.isSome_iff_ne_none.mp hv.1.1

theorem valid_inTable (hv : ossOpValid h m = true) : (requestOf h m).InTable := by
  unfold ossOpValid at hv
  unfold Request.InTable Request.IsRw
  dsimp only [requestOf] at hv ⊢
  split at hv <;> rename_i htype
  · exact Or.inl htype
  · exact Or.inr (Or.inl htype)
  · exact Or.inr (Or.inr (Or.inl htype))
  · exact Or.inr (Or.inr (Or.inr (Or.inr htype)))
  · exact Or.inr (Or.inr (Or.inr (Or.inl htype)))
  · cases hv

theorem onRecvMessage_valid (rc : Int) (hv : ossOpValid h m = true) : onRecvMessage h rc m =
    if rc = Status.success.code then ([], some (ossOpRefillRequestWithReponse h m))
    else (responseBrokenOp (ossOpRefillRequestWithReponse h m) rc, none) := by
  have hping : m.header.type ≠ msgPing := by
    intro hp
    rw [not_valid_ping h m hp] at hv
    cases hv
  simp only [onRecvMessage, opExecute, if_neg hping, if_pos (msgTypeOss_of_valid h m hv), doOpOss,
    if_pos hv]

/-- A response that reports success announces the data that the refilled request does. -/
theorem success_length {r : Message β} (hk : m.header.magic = k.magic)
    (hs : responses (ossOpCb m Status.success.code) = [(k, r)]) :
    r.header.dataLength = m.header.dataLength := by
  have hcb : ossOpCb m Status.success.code = responseWithReusingRequest m Status.success.code :=
    if_neg (not_not.mpr rfl)
  rw [hcb, reusing_responses _ m k hk, List.singleton_inj, Prod.mk.injEq] at hs
  rw [← hs.2, reply_header, MsgHdr.setStatus_dataLength]

/-- A response to `m` that does not report success to a read. -/
structure Declined (m r : Message β) : Prop where
  ident : r.header.ident = m.header.ident
  privCtx : r.privCtx = m.privCtx
  status : m.header.type = msgOssOpRead → r.header.status ≠ 0

theorem broken_declined {r : Message β} (hident : r.header.ident = m.header.ident)
    (hctx : r.privCtx = m.privCtx) {code : Int} (hcode : (BitVec.ofInt 8 code).toNat ≠ 0) :
    Declined m (reply (emptied r) code) := by
  have hb := broken_replied code r
  exact ⟨hb.ident.trans hident, hb.privCtx.trans hctx, fun _ => hb.status ▸ hcode⟩

/-- Whatever is not a valid operation is answered at once. -/
theorem onRecvMessage_invalid (rc : Int) (hv : ¬ ossOpValid h m = true) (hk : m.header.magic = k.magic) :
    ∃ r, responses (onRecvMessage h rc m).1 = [(k, r)] ∧ Declined m r := by
  unfold onRecvMessage opExecute
  by_cases hping : m.header.type = msgPing
  · rw [if_pos hping]
    refine ⟨_, reusing_responses _ m k hk, by rw [reply_header, MsgHdr.setStatus_ident], rfl,
      fun hread => ?_⟩
    rw [hping] at hread
    exact absurd hread (by decide)
  · rw [if_neg hping]
    by_cases hoss : msgTypeOss m.header.type = true
    · rw [if_pos hoss, doOpOss, if_neg hv]
      exact ⟨_, broken_responses _ m k hk, broken_declined rfl rfl (by decide)⟩
    · rw [if_neg hoss]
      exact ⟨_, broken_responses _ m k hk, broken_declined rfl rfl (by decide)⟩

end Server

/-- The calls of the store that have not come back, with what they ask for. -/
def Chunks.asks (c : Chunks γ) : List (Nat × Request) :=
  c.flights.map (fun f => (f.msg.id, f.msg.request)) ++ c.events.map fun m => (m.id, m.request)

theorem asks_ids (c : Chunks γ) :
    c.asks.map Prod.fst = c.flights.map (·.msg.id) ++ c.events.map (·.id) := by
  simp [Chunks.asks, Function.comp_def]

theorem move_asks (c : Chunks γ) (f : Flight γ) (i : Nat) : (c.move f i).asks = c.asks := by
  simp only [Chunks.asks, Chunks.move, List.map_map]
  congr 1
  apply List.map_congr_left
  intro g _
  simp only [Function.comp_apply]
  split
  · rw [move_id, move_request]
  · rfl

theorem move_find {c : Chunks γ} {f : Flight γ} {id i : Nat} (hf : c.find id = some f) :
    (c.move f i).find id = some (f.move c.disk i) := by
  obtain ⟨-, hid⟩ := find_some hf
  unfold Chunks.find at hf ⊢
  have hp : (fun g : Flight γ => decide (g.msg.id = id)) ∘
      (fun g => if g.msg.id = f.msg.id then g.move c.disk i else g) = fun g => decide (g.msg.id = id) := by
    funext g
    simp only [Function.comp_apply]
    split
    · rw [move_id]
    · rfl
  rw [Chunks.move, List.find?_map, hp, hf, Option.map_some, if_pos rfl]

theorem callback_keeps (s : Service β γ) (x : ChunkMsg γ × Int) :
    (s.callback x).store = s.store ∧ (s.callback x).received = s.received := by
  unfold Service.callback
  split
  · exact ⟨rfl, rfl⟩
  · exact ⟨rfl, rfl⟩

/-- What holds of a request at the store. -/
structure Held (h : Heap β) (j : Job β) : Prop where
  magic : j.origin.2.header.magic = j.origin.1.magic
  refilled : Refilled j.origin.2 j.refilled
  buffer : (requestOf h j.origin.2).IsRw → j.refilled.dataBuffer ≠ none
  len : (requestOf h j.origin.2).IsRw → (requestOf h j.origin.2).len.toNat ≤ 0x400000
  length : j.origin.2.header.type = msgOssOpRead →
    j.refilled.header.dataLength = (requestOf h j.origin.2).len.toNat % 2 ^ 32

structure Serving [Inhabited γ] (h : Heap β) (s : Service β γ) : Prop where
  noFault : s.fault = none
  store : Sound s.store
  asks : (s.jobs.map fun j => (j.id, requestOf h j.origin.2)).Perm s.store.c.asks
  jobs : ∀ j ∈ s.jobs, Held h j
  own : ∀ j ∈ s.jobs, ∀ j' ∈ s.jobs, ∀ b, j.refilled.dataBuffer = some b →
    j'.refilled.dataBuffer = some b → j.id = j'.id
  lent : ∀ j ∈ s.jobs, ∀ f ∈ s.store.c.flights, f.msg.id = j.id →
    f.msg.data = behind s.mem j.refilled.dataBuffer
  once : (s.sent.map Outgoing.origin ++ s.jobs.map Job.origin).Perm s.received
  routed : ∀ o ∈ s.sent, o.kind = o.origin.1 ∧ o.msg.header.ident = o.origin.2.header.ident ∧
    o.msg.privCtx = o.origin.2.privCtx
  reads : ∀ o ∈ s.sent, o.origin.2.header.type = msgOssOpRead → o.msg.header.status = 0 →
    ∃ x ∈ s.store.c.answered, o.call = some x.1.id ∧ x.1.request = requestOf h o.origin.2 ∧
      x.2 = Status.success.code ∧ o.msg.header.dataLength = (requestOf h o.origin.2).len.toNat ∧
      (o.msg.header.dataLength ≠ 0 → o.data = some x.1.data)

section Serve
variable [Inhabited γ] {h : Heap β} {s s' : Service β γ} {t : Tracked γ} {k : Kind} {m r : Message β}
  {j : Job β}

/-- A read that is answered with success has as many bytes as were asked for. -/
theorem Held.answered_length (hj : Held h j) (hread : j.origin.2.header.type = msgOssOpRead)
    (hresp : responses (ossOpCb j.refilled Status.success.code) = [(j.origin.1, r)]) :
    r.header.dataLength = (requestOf h j.origin.2).len.toNat := by
  have hle := hj.len (Or.inl hread)
  have hlength := hj.length hread
  rw [Nat.mod_eq_of_lt (by omega)] at hlength
  have hk := (MsgHdr.magic_of_ident hj.refilled.ident).trans hj.magic
  exact (success_length hk hresp).trans hlength

@[simp] theorem responses_nil : responses ([] : List (Event β)) = [] := rfl

theorem Serving.ids_nodup (hi : Serving h s) : (s.jobs.map Job.id).Nodup := by
  have hperm := hi.asks.map Prod.fst
  rw [List.map_map, asks_ids] at hperm
  exact hperm.nodup_iff.mpr (List.nodup_append.mp hi.store.counted.nodup).1

theorem Serving.id_lt (hi : Serving h s) (hj : j ∈ s.jobs) : j.id < s.store.c.calls := by
  have hperm := hi.asks.map Prod.fst
  rw [List.map_map, asks_ids] at hperm
  have hin := hperm.mem_iff.mp (List.mem_map_of_mem hj)
  exact List.mem_range.mp (hi.store.counted.ids.mem_iff.mp (List.mem_append_left _ hin))

theorem Serving.buffer_eq (hi : Serving h s) (hj : j ∈ s.jobs) : s.buffer j.id = j.refilled.dataBuffer := by
  unfold Service.buffer
  cases hfind : s.jobs.find? (fun j' => decide (j'.id = j.id)) with
  | none => exact absurd (decide_eq_true rfl) (List.find?_eq_none.mp hfind j hj)
  | some j' =>
    have hfound := List.find?_some hfind
    have hid : j'.id = j.id := of_decide_eq_true hfound
    obtain rfl : j' = j := List.inj_on_of_nodup_map hi.ids_nodup (List.mem_of_find?_eq_some hfind) hj hid
    rfl

/-- An I/O in the device is that of a request at the store. -/
theorem Serving.job_of_flight (hi : Serving h s) {f : Flight γ} (hf : f ∈ s.store.c.flights) :
    ∃ j ∈ s.jobs, f.msg.id = j.id ∧ f.msg.request = requestOf h j.origin.2 := by
  have hask : (f.msg.id, f.msg.request) ∈ s.store.c.asks :=
    List.mem_append_left _ (List.mem_map_of_mem (f := fun f : Flight γ => (f.msg.id, f.msg.request)) hf)
  obtain ⟨j, hj, hpair⟩ := List.mem_map.mp (hi.asks.mem_iff.mpr hask)
  obtain ⟨hid, hreq⟩ := Prod.mk.inj hpair
  exact ⟨j, hj, hid.symm, hreq.symm⟩

/-- The store's own copy of the data is the memory. -/
theorem Serving.loaded_eq (hi : Serving h s) : s.loaded = s.store := by
  have hsame : s.store.c.flights.map (fun f =>
      { f with msg := { f.msg with data := behind s.mem (s.buffer f.msg.id) } }) = s.store.c.flights := by
    apply (List.map_congr_left fun f hf => ?_).trans (List.map_id _)
    obtain ⟨j, hj, hid, -⟩ := hi.job_of_flight hf
    have hdata := hi.lent j hj f hf hid
    rw [hid, hi.buffer_eq hj, ← hdata]
    rfl
  unfold Service.loaded
  rw [hsame]

/-- The request is answered without a callback. -/
theorem Serving.declined (hi : Serving h s) (ht : Sound t) (hflights : t.c.flights = s.store.c.flights)
    (hasks : t.c.asks = s.store.c.asks) (hans : s.store.c.answered ⊆ t.c.answered) (hr : Declined m r) :
    Serving h { s with
      store := t
      received := s.received ++ [(k, m)]
      sent := s.sent ++ [⟨(k, m), k, r, none, r.dataBuffer.map s.mem⟩] } where
  noFault := hi.noFault
  store := ht
  asks := hasks ▸ hi.asks
  jobs := hi.jobs
  own := hi.own
  lent := hflights ▸ hi.lent
  once := by
    have honce := hi.once
    simp only [List.map_append, List.map_cons, List.map_nil]
    rw [List.append_assoc]
    refine (List.Perm.append_left _ List.perm_append_comm).trans ?_
    rw [← List.append_assoc]
    exact honce.append_right _
  routed o ho := by
    obtain ho | ho := List.mem_append.mp ho
    · exact hi.routed o ho
    · obtain rfl := List.mem_singleton.mp ho
      exact ⟨rfl, hr.ident, hr.privCtx⟩
  reads o ho hread hstatus := by
    obtain ho | ho := List.mem_append.mp ho
    · obtain ⟨x, hx, hrest⟩ := hi.reads o ho hread hstatus
      exact ⟨x, hans hx, hrest⟩
    · obtain rfl := List.mem_singleton.mp ho
      exact absurd hstatus (hr.status hread)

/-- The store takes the request, and has its buffer from now on. -/
theorem Serving.taken (hi : Serving h s) (ht : Sound t)
    (hasks : t.c.asks.Perm (s.store.c.asks ++ [(s.store.c.calls, requestOf h m)]))
    (hflights : ∀ f ∈ t.c.flights, f ∈ s.store.c.flights ∨
      f.msg.id = s.store.c.calls ∧ f.msg.data = behind s.mem r.dataBuffer)
    (hans : t.c.answered = s.store.c.answered) (hnew : Held h ⟨s.store.c.calls, (k, m), r⟩)
    (hown : ∀ b ∈ r.dataBuffer, s.Free b) :
    Serving h { s with
      store := t
      received := s.received ++ [(k, m)]
      jobs := s.jobs ++ [⟨s.store.c.calls, (k, m), r⟩] } where
  noFault := hi.noFault
  store := ht
  asks := by
    rw [List.map_append]
    exact (hi.asks.append_right _).trans hasks.symm
  jobs j hj := by
    obtain hj | hj := List.mem_append.mp hj
    · exact hi.jobs j hj
    · obtain rfl := List.mem_singleton.mp hj
      exact hnew
  own j hj j' hj' b hb hb' := by
    obtain hj | hj := List.mem_append.mp hj
    · obtain hj' | hj' := List.mem_append.mp hj'
      · exact hi.own j hj j' hj' b hb hb'
      · obtain rfl := List.mem_singleton.mp hj'
        exact absurd hb (hown b hb' j hj)
    · obtain rfl := List.mem_singleton.mp hj
      obtain hj' | hj' := List.mem_append.mp hj'
      · exact absurd hb' (hown b hb j' hj')
      · obtain rfl := List.mem_singleton.mp hj'
        rfl
  lent j hj f hf hid := by
    obtain hj | hj := List.mem_append.mp hj
    · obtain hf | ⟨hfid, -⟩ := hflights f hf
      · exact hi.lent j hj f hf hid
      · exact absurd (hid.symm.trans hfid) (hi.id_lt hj).ne
    · obtain rfl := List.mem_singleton.mp hj
      obtain hf | ⟨-, hdata⟩ := hflights f hf
      · exact absurd hid (hi.store.counted.lt hf).ne
      · exact hdata
  once := by
    rw [List.map_append, ← List.append_assoc]
    exact hi.once.append_right _
  routed := hi.routed
  reads := hans ▸ hi.reads

theorem Serving.recv {rc : Int} {buf : Option β} (hi : Serving h s)
    (hok : Servable (granting h buf) s k m rc) (hs : s.recv (granting h buf) k m rc = some s') :
    Serving h s' := by
  unfold Service.recv at hs
  by_cases hv : ossOpValid (granting h buf) m = true
  · have ht : (requestOf h m).InTable := valid_inTable hv
    have hreq : requestOf (granting h buf) m = requestOf h m := rfl
    have hr := refilled (granting h buf) m hv
    have hbuf : (requestOf h m).IsRw →
        (ossOpRefillRequestWithReponse (granting h buf) m).dataBuffer ≠ none := by
      intro hrw
      obtain hread | hwrite := hrw
      · exact hok.granted hv (Or.inr hread)
      · exact refill_write hv hwrite
    have hstat : ¬ (m.header.type = msgOssOpStat ∧
        (ossOpRefillRequestWithReponse (granting h buf) m).dataBuffer = none) := fun hno =>
      hok.granted hv (Or.inl hno.1) hno.2
    have hheld : ((requestOf h m).IsRw → (requestOf h m).len.toNat ≤ 0x400000) →
        Held h ⟨s.store.c.calls, (k, m), ossOpRefillRequestWithReponse (granting h buf) m⟩ := fun hlen =>
      ⟨hok.magic, hr, hbuf, hlen, fun hread => refill_length hread⟩
    have hsound := @step_sound _ s.store (.call (requestOf h m)
      (behind s.mem (ossOpRefillRequestWithReponse (granting h buf) m).dataBuffer) rc) _ hi.store
      ⟨ht, hok.inside⟩ rfl
    simp only [if_pos hv, if_neg hstat, hreq, asyncOpCall_eq rc ht, trackedStep, chunkStep, Option.map_some,
      onRecvMessage_valid _ hv] at hs
    obtain ⟨hrw, hrc, hcall⟩ | ⟨hrw, hrc, hcall⟩ | ⟨hrw, stat, hcall⟩ :=
      call_cases s.store.c (behind s.mem (ossOpRefillRequestWithReponse (granting h buf) m).dataBuffer) rc ht
    · simp only [hrc, ne_eq, not_true_eq_false, and_false, if_false, if_true, Option.toList_some,
        List.map_cons, List.map_nil, Service.respond, responses_nil, List.append_nil] at hs
      obtain rfl := Option.some.inj hs
      rw [hrc] at hsound hcall
      have hlen : (requestOf h m).len.toNat ≤ 0x400000 := by
        have hin := (hok.inside hrw hrc).2
        have hsize : (0x400000 : BitVec 64).toNat = 0x400000 := rfl
        rw [hi.store.size, hsize] at hin
        exact Nat.le_trans (Nat.le_add_left ..) hin
      refine hi.taken hsound ?_ ?_ (by simp only [hcall]) (hheld fun _ => hlen) (hok.own hv)
      · simp only [hcall, Chunks.asks, List.map_append, List.map_cons, List.map_nil, List.append_assoc]
        exact List.Perm.append_left _ List.perm_append_comm
      · intro f hf
        simp only [hcall] at hf
        obtain hf | hf := List.mem_append.mp hf
        · exact Or.inl hf
        · obtain rfl := List.mem_singleton.mp hf
          exact Or.inr ⟨rfl, rfl⟩
    · have hcode : Status.ostoreIoError.code ≠ Status.success.code := by decide
      have hkr := (MsgHdr.magic_of_ident hr.ident).trans hok.magic
      simp only [hrw, hrc, ne_eq, not_false_eq_true, and_self, if_true, if_neg hcode, Option.toList_none,
        List.map_nil, List.append_nil, Service.respond, broken_responses _ _ k hkr, List.map_cons] at hs
      obtain rfl := Option.some.inj hs
      refine hi.declined hsound (by simp only [hcall]) (by simp only [hcall, Chunks.asks]) ?_
        (broken_declined hr.ident hr.privCtx (by decide))
      simp only [hcall]
      exact List.subset_append_left ..
    · simp only [hrw, false_and, if_false, if_true, Option.toList_some, List.map_cons, List.map_nil,
        Service.respond, responses_nil, List.append_nil] at hs
      obtain rfl := Option.some.inj hs
      refine hi.taken hsound ?_ ?_ (by simp only [hcall]) (hheld fun hno => absurd hno hrw) (hok.own hv)
      · simp only [hcall, Chunks.asks, List.map_append, List.map_cons, List.map_nil, List.append_assoc]
        exact List.Perm.refl _
      · intro f hf
        simp only [hcall] at hf
        exact Or.inl hf
  · obtain ⟨r, hresp, hd⟩ := onRecvMessage_invalid Status.success.code hv hok.magic
    simp only [if_neg hv, Service.respond, hresp] at hs
    obtain rfl := Option.some.inj hs
    exact hi.declined hi.store rfl rfl (List.Subset.refl _) hd

/-- The store calls back with `x`. -/
theorem Serving.callback (hi : Serving h s) (ht : Sound t) {x : ChunkMsg γ × Int}
    (hasks : s.store.c.asks.Perm ((x.1.id, x.1.request) :: t.c.asks))
    (hflights : t.c.flights ⊆ s.store.c.flights)
    (hdata : ∀ j ∈ s.jobs, j.id = x.1.id → x.1.request.IsRw →
      x.1.data = behind s.mem j.refilled.dataBuffer)
    (hans : t.c.answered = s.store.c.answered ++ [x])
    (hx : x.2 = Status.success.code ∨ x.2 = Status.ostoreIoError.code) :
    Serving h ({ s with store := t }.callback x) := by
  have hmem := (hi.asks.trans hasks).mem_iff.mpr List.mem_cons_self
  obtain ⟨j0, hj0, hpair⟩ := List.mem_map.mp hmem
  obtain ⟨hid0, hreq0⟩ := Prod.mk.inj hpair
  cases hfind : s.jobs.find? (fun j => decide (j.id = x.1.id)) with
  | none => exact absurd (decide_eq_true hid0) (List.find?_eq_none.mp hfind j0 hj0)
  | some j =>
    have hj := List.mem_of_find?_eq_some hfind
    have hfound := List.find?_some hfind
    have hid : j.id = x.1.id := of_decide_eq_true hfound
    obtain rfl : j = j0 := List.inj_on_of_nodup_map hi.ids_nodup hj hj0 (hid.trans hid0.symm)
    have hheld := hi.jobs j hj
    obtain ⟨r, hresp, hrep, _, hcarry⟩ :=
      ossOpCb_replied x.2 j.origin.2 j.origin.1 hheld.magic hheld.refilled
    have hperm := perm_filter_ne Job.id hi.ids_nodup hj
    simp only [Service.callback, hfind, Service.respond, hresp, List.map_cons, List.map_nil]
    exact {
      noFault := hi.noFault
      store := ht
      asks := by
        have hjobs := (hperm.map fun j => (j.id, requestOf h j.origin.2)).symm.trans
          (hi.asks.trans hasks)
        rw [List.map_cons, hpair] at hjobs
        exact hjobs.cons_inv
      jobs := fun j' hj' => hi.jobs j' (List.mem_of_mem_filter hj')
      own := fun j1 h1 j2 h2 => hi.own j1 (List.mem_of_mem_filter h1) j2 (List.mem_of_mem_filter h2)
      lent := fun j' hj' f hf => hi.lent j' (List.mem_of_mem_filter hj') f (hflights hf)
      once := by
        have hjobs := hperm.map Job.origin
        rw [List.map_cons] at hjobs
        rw [List.map_append, List.append_assoc]
        exact (hjobs.symm.append_left _).trans hi.once
      routed := fun o ho => by
        obtain ho | ho := List.mem_append.mp ho
        · exact hi.routed o ho
        · obtain rfl := List.mem_singleton.mp ho
          exact ⟨rfl, hrep.ident, hrep.privCtx⟩
      reads := fun o ho hread hstatus => by
        rw [hans]
        obtain ho | ho := List.mem_append.mp ho
        · obtain ⟨y, hy, hrest⟩ := hi.reads o ho hread hstatus
          exact ⟨y, List.mem_append_left _ hy, hrest⟩
        · obtain rfl := List.mem_singleton.mp ho
          have hrw : (requestOf h j.origin.2).IsRw := Or.inl hread
          have hok : x.2 = Status.success.code := by
            refine hx.resolve_right fun hx => ?_
            have hst : r.header.status = 26 := by
              rw [hrep.status, hx]
              rfl
            rw [show r.header.status = 0 from hstatus] at hst
            cases hst
          have hlen : r.header.dataLength = (requestOf h j.origin.2).len.toNat :=
            hheld.answered_length hread (hok ▸ hresp)
          refine ⟨x, List.mem_append_right _ List.mem_cons_self, congrArg some hid, hreq0.symm, hok, hlen,
            fun hne => ?_⟩
          obtain ⟨b, hb⟩ := Option.ne_none_iff_exists'.mp (hheld.buffer hrw)
          have hsame := hdata j hj hid (hreq0 ▸ hrw)
          rw [hb] at hsame
          simp only [(hcarry hne).2, hb, Option.map_some, hsame]
          rfl }

variable [DecidableEq β]

theorem Serving.step_eq (hi : Serving h s) (a : ServiceAct β γ) : serviceStep h a s = s.act h a := by
  rw [serviceStep, hi.noFault]
  rfl

/-- What is written at one buffer leaves the others as they are. -/
theorem behind_update (mem : β → Nat → γ) (blocks : Nat → γ) {b : β} {buf : Option β}
    (hne : buf ≠ some b) : behind (Function.update mem b blocks) buf = behind mem buf := by
  cases buf with
  | none => rfl
  | some b' =>
    have hother : b' ≠ b := fun he => hne (congrArg some he)
    exact Function.update_of_ne hother blocks mem

/-- Memory that the store has not been lent is written. -/
theorem Serving.fill (hi : Serving h s) {b : β} (hb : s.Free b) (blocks : Nat → γ) :
    Serving h { s with mem := Function.update s.mem b blocks } :=
  { hi with
    lent := fun j hj f hf hid => by
      rw [hi.lent j hj f hf hid]
      exact (behind_update s.mem blocks (hb j hj)).symm }

/-- A block goes to the memory of the request that it is for. -/
theorem Serving.moved (hi : Serving h s) {f : Flight γ} {id i : Nat} (hf : s.store.c.find id = some f)
    (ht : Sound { s.store with c := s.store.c.move f i }) : Serving h { s with
      store := { s.store with c := s.store.c.move f i }
      mem := s.saved (s.store.c.move f i) (.move id i) } := by
  obtain ⟨hmem, hid⟩ := find_some hf
  obtain ⟨j0, hj0, hjid, hjreq⟩ := hi.job_of_flight hmem
  have hrw := (hi.store.placed f hmem).rw
  rw [hjreq] at hrw
  obtain ⟨b, hb⟩ := Option.ne_none_iff_exists'.mp ((hi.jobs j0 hj0).buffer hrw)
  have hbuf : s.buffer id = some b := by
    rw [← hid, hjid, hi.buffer_eq hj0, hb]
  have hsaved : s.saved (s.store.c.move f i) (.move id i) =
      Function.update s.mem b (f.move s.store.c.disk i).msg.data := by
    simp only [Service.saved, hbuf, move_find hf]
  exact { hi with
    store := ht
    asks := (move_asks s.store.c f i).symm ▸ hi.asks
    lent := fun j hj g hg hgid => by
      rw [hsaved]
      obtain ⟨g0, hg0, rfl⟩ := List.mem_map.mp hg
      by_cases he : g0.msg.id = f.msg.id
      · obtain rfl : g0 = f := hi.store.counted.eq_of_id hmem hg0 he
        simp only [if_true, move_id] at hgid ⊢
        obtain rfl : j = j0 := List.inj_on_of_nodup_map hi.ids_nodup hj hj0 (hgid.symm.trans hjid)
        rw [hb]
        exact (Function.update_self b _ s.mem).symm
      · rw [if_neg he] at hgid ⊢
        rw [hi.lent j hj g0 hg0 hgid]
        have hne : j.refilled.dataBuffer ≠ some b := fun heq => he (by
          rw [hgid, hjid]
          exact hi.own j hj j0 hj0 b heq hb)
        exact (behind_update s.mem _ hne).symm }

theorem Serving.device {a : ChunkAct γ} (hi : Serving h s) (hok : ChunkFits s.store.c a)
    (hs : s.act h (.device a) = some s') : Serving h s' := by
  simp only [Service.act, hi.loaded_eq] at hs
  cases a with
  | call r data rc => cases hs
  | move id i =>
    simp only [Option.map_eq_some_iff] at hs
    obtain ⟨t, ht, rfl⟩ := hs
    have hsound := step_sound hi.store hok ht
    simp only [trackedStep, chunkStep, Option.map_eq_some_iff] at ht
    obtain ⟨_, ⟨f, hf, rfl⟩, rfl⟩ := ht
    have hans : (s.store.c.move f i).answered = s.store.c.answered := rfl
    simp only [hans, List.drop_length, List.foldl_nil]
    exact hi.moved hf hsound
  | done id success =>
    simp only [Option.map_eq_some_iff] at hs
    obtain ⟨t, ht, rfl⟩ := hs
    have hsound := step_sound hi.store hok ht
    simp only [trackedStep, chunkStep, Option.map_eq_some_iff] at ht
    obtain ⟨_, ⟨f, hf, rfl⟩, rfl⟩ := ht
    have hans : (s.store.c.done f success).answered = s.store.c.answered ++ [(f.msg, rwCb success)] := rfl
    simp only [hans, List.drop_left, List.foldl_cons, List.foldl_nil]
    refine hi.callback hsound ?_ (List.filter_subset_self _) ?_ rfl ?_
    · have hperm := perm_filter_ne (fun g : Flight γ => g.msg.id) hi.store.counted.flights_nodup
        (find_some hf).1
      exact (hperm.map fun g => (g.msg.id, g.msg.request)).append_right _
    · exact fun j hj hid _ => hi.lent j hj f (find_some hf).1 hid.symm
    · cases success with
      | true => exact Or.inl rfl
      | false => exact Or.inr rfl
  | event =>
    simp only [Option.map_eq_some_iff] at hs
    obtain ⟨t, ht, rfl⟩ := hs
    have hsound := step_sound hi.store hok ht
    simp only [trackedStep, chunkStep, Option.map_eq_some_iff] at ht
    obtain ⟨_, ⟨m, hm, rfl⟩, rfl⟩ := ht
    have hans : (s.store.c.event m).answered = s.store.c.answered ++ [(m, Status.success.code)] := rfl
    simp only [hans, List.drop_left, List.foldl_cons, List.foldl_nil]
    obtain ⟨events, he⟩ := List.head?_eq_some_iff.mp hm
    refine hi.callback hsound ?_ (List.Subset.refl _) ?_ rfl (Or.inl rfl)
    · simp only [Chunks.asks, Chunks.event, he, List.map_cons, List.tail_cons]
      exact List.perm_middle
    · exact fun j hj hid hrw => absurd hrw (hi.store.events m (he ▸ List.mem_cons_self))

end Serve

theorem start_serving [Inhabited γ] {blockSize : BitVec 32} {numBlocks : BitVec 64} {disk : Nat → γ}
    {c : Chunks γ} (hm : chunkstoreMount blockSize numBlocks disk = .ok c) (hmax : c.stat.maxOid.toNat ≤ 2 ^ 22)
    (h : Heap β) (mem : β → Nat → γ) : Serving h (Service.start c mem) where
  noFault := rfl
  store := mounted_sound hm hmax
  asks := by
    unfold chunkstoreMount at hm
    cases hs : hardcodeStat blockSize numBlocks with
    | error f =>
      rw [hs] at hm
      cases hm
    | ok s =>
      rw [hs] at hm
      obtain rfl := Except.ok.inj hm
      exact List.Perm.refl _
  jobs j hj := absurd hj List.not_mem_nil
  own j hj := absurd hj List.not_mem_nil
  lent j hj := absurd hj List.not_mem_nil
  once := List.Perm.refl _
  routed o ho := absurd ho List.not_mem_nil
  reads o ho := absurd ho List.not_mem_nil

theorem Serving.step [Inhabited γ] [DecidableEq β] {h : Heap β} {s s' : Service β γ}
    {a : ServiceAct β γ} (hi : Serving h s) (hok : ServiceFits h s a)
    (hs : serviceStep h a s = some s') : Serving h s' := by
  rw [hi.step_eq] at hs
  cases a with
  | recv k m buf rc => exact hi.recv hok hs
  | device a => exact hi.device hok hs
  | fill b blocks =>
    obtain rfl := Option.some.inj hs
    exact hi.fill hok blocks

theorem run_serving [Inhabited γ] [DecidableEq β] {h : Heap β} {blockSize : BitVec 32}
    {numBlocks : BitVec 64} {disk : Nat → γ} {c : Chunks γ} {mem : β → Nat → γ} {s : Service β γ}
    (hm : chunkstoreMount blockSize numBlocks disk = .ok c) (hmax : c.stat.maxOid.toNat ≤ 2 ^ 22)
    (hrun : Run (serviceStep h) (ServiceFits h) (Service.start c mem) s) : Serving h s :=
  hrun.invariant (start_serving hm hmax h mem) fun _ _ _ hi hok hs => hi.step hok hs

/-- A buffer of arguments is known by the length in it; the object is 1 and the offset 0. -/
def argHeap : Heap Nat :=
  ⟨fun op i _ => if i = 0 then 1 else if i = 16 then op else 0, fun n => some (1000 + n), id⟩

def rwRequest (type len : Nat) (data : Option Nat) (session : Nat) : Message Nat :=
  ⟨⟨0, 0, 0⟩, MsgHdr.build 9 type Kind.net.magic 32 (data.elim 0 fun _ => len) 0, some len, data, session⟩

def argRequest (type metaLength session : Nat) : Message Nat :=
  ⟨⟨0, 0, 0⟩, MsgHdr.build 9 type Kind.net.magic metaLength 0 0, some 0, none, session⟩

/-- The device ends an I/O, or an event is run. -/
def ServiceAct.Completes : ServiceAct β γ → Prop
  | .device (.done ..) | .device .event => True
  | _ => False

section Drain
variable [Inhabited γ] {h : Heap β} {s s' : Service β γ}

theorem Serving.jobs_length (hi : Serving h s) :
    s.jobs.length = s.store.c.flights.length + s.store.c.events.length := by
  simpa [Chunks.asks] using hi.asks.length_eq

/-- An answered call is one request less. -/
theorem Serving.one_less {t : Tracked γ} {x : ChunkMsg γ × Int} (hi : Serving h s)
    (hi' : Serving h ({ s with store := t }.callback x))
    (hlen : t.c.flights.length + t.c.events.length <
      s.store.c.flights.length + s.store.c.events.length) :
    ({ s with store := t }.callback x).jobs.length < s.jobs.length ∧
      ({ s with store := t }.callback x).received = s.received := by
  obtain ⟨hstore, hreceived⟩ := callback_keeps { s with store := t } x
  rw [hi'.jobs_length, hi.jobs_length, hstore]
  exact ⟨hlen, hreceived⟩

variable [DecidableEq β]

/-- An I/O of the device can fail at any time. -/
theorem Serving.failOne (hi : Serving h s) {f : Flight γ} (hf : f ∈ s.store.c.flights) : ∃ s',
    serviceStep h (.device (.done f.msg.id false)) s = some s' ∧ Serving h s' ∧
      s'.jobs.length < s.jobs.length ∧ s'.received = s.received := by
  obtain ⟨g, hg⟩ : ∃ g, s.store.c.find f.msg.id = some g := by
    refine Option.isSome_iff_exists.mp (List.find?_isSome.mpr ⟨f, hf, ?_⟩)
    exact decide_eq_true rfl
  obtain ⟨hmem, hid⟩ := find_some hg
  have hstep : serviceStep h (.device (.done f.msg.id false)) s =
      some (({ s with store := { s.store with c := s.store.c.done g false } } : Service β γ).callback
        (g.msg, rwCb false)) := by
    have hans : (s.store.c.done g false).answered = s.store.c.answered ++ [(g.msg, rwCb false)] := rfl
    rw [hi.step_eq]
    simp only [Service.act, hi.loaded_eq, trackedStep, chunkStep, hg, Option.map_some, Tracked.next, hans,
      List.drop_left, List.foldl_cons, List.foldl_nil]
    rfl
  have hok : ServiceFits h s (.device (.done f.msg.id false)) := fun hfalse => absurd hfalse (by decide)
  have hi' := hi.step hok hstep
  have hlen := (perm_filter_ne (fun g : Flight γ => g.msg.id) hi.store.counted.flights_nodup
    hmem).length_eq
  refine ⟨_, hstep, hi', hi.one_less hi' ?_⟩
  simp only [Chunks.done, hlen, List.length_cons]
  omega

theorem Serving.runEvent (hi : Serving h s) {m : ChunkMsg γ} {events : List (ChunkMsg γ)}
    (he : s.store.c.events = m :: events) : ∃ s', serviceStep h (.device .event) s = some s' ∧
      Serving h s' ∧ s'.jobs.length < s.jobs.length ∧ s'.received = s.received := by
  have hstep : serviceStep h (.device .event) s =
      some (({ s with store := { s.store with c := s.store.c.event m } } : Service β γ).callback
        (m, Status.success.code)) := by
    have hans : (s.store.c.event m).answered = s.store.c.answered ++ [(m, Status.success.code)] := rfl
    rw [hi.step_eq]
    simp only [Service.act, hi.loaded_eq, trackedStep, chunkStep, he, List.head?_cons, Option.map_some,
      Tracked.next, hans, List.drop_left, List.foldl_cons, List.foldl_nil]
    rfl
  have hok : ServiceFits h s (.device .event) := trivial
  have hi' := hi.step hok hstep
  refine ⟨_, hstep, hi', hi.one_less hi' ?_⟩
  simp only [Chunks.event, he, List.tail_cons, List.length_cons]
  omega

/-- A request is with the device, or its event has been sent. -/
theorem Serving.progress (hi : Serving h s) (hjobs : s.jobs.length ≠ 0) : ∃ a s',
    (ServiceFits h s a ∧ a.Completes) ∧ serviceStep h a s = some s' ∧ Serving h s' ∧
      s'.jobs.length < s.jobs.length ∧ s'.received = s.received := by
  cases hflights : s.store.c.flights with
  | cons f fs =>
    obtain ⟨s', hs'⟩ := hi.failOne (hflights ▸ List.mem_cons_self)
    exact ⟨.device (.done f.msg.id false), s', ⟨fun hfalse => absurd hfalse (by decide), trivial⟩, hs'⟩
  | nil =>
    cases hevents : s.store.c.events with
    | cons m events =>
      obtain ⟨s', hs'⟩ := hi.runEvent hevents
      exact ⟨.device .event, s', ⟨trivial, trivial⟩, hs'⟩
    | nil =>
      rw [hi.jobs_length, hflights, hevents] at hjobs
      exact absurd rfl hjobs

theorem Serving.drained (hi : Serving h s) :
    ∃ s', Run (serviceStep h) (fun s a => ServiceFits h s a ∧ a.Completes) s s' ∧ Serving h s' ∧
      s'.jobs = [] ∧ s'.received = s.received := by
  have hstep : ∀ s' : Service β γ, Serving h s' ∧ s'.received = s.received → s'.jobs.length ≠ 0 →
      ∃ a s'', (ServiceFits h s' a ∧ a.Completes) ∧ serviceStep h a s' = some s'' ∧
        (Serving h s'' ∧ s''.received = s.received) ∧ s''.jobs.length < s'.jobs.length := by
    intro s' hs' hne
    obtain ⟨hi', hr⟩ := hs'
    obtain ⟨a, s'', ha, hs, hi'', hlt, hr'⟩ := hi'.progress hne
    exact ⟨a, s'', ha, hs, ⟨hi'', hr'.trans hr⟩, hlt⟩
  obtain ⟨s', hrun, ⟨hi', hr⟩, hnil⟩ := Run.unload (fun s : Service β γ => s.jobs.length) hstep ⟨hi, rfl⟩
  exact ⟨s', hrun, hi', List.eq_nil_of_length_eq_zero hnil, hr⟩

end Drain

/-- The device alone can bring it about that no request is left without a response, by ending its I/Os
in whichever way. -/
theorem service_drains [DecidableEq β] [Inhabited γ] (h : Heap β) (blockSize : BitVec 32)
    (numBlocks : BitVec 64) (disk : Nat → γ) (c : Chunks γ) (mem : β → Nat → γ) (s : Service β γ)
    (hm : chunkstoreMount blockSize numBlocks disk = .ok c) (hmax : c.stat.maxOid.toNat ≤ 2 ^ 22)
    (hrun : Run (serviceStep h) (ServiceFits h) (Service.start c mem) s) :
    ∃ s', Run (serviceStep h) (fun s a => ServiceFits h s a ∧ a.Completes) s s' ∧
      (s'.sent.map Outgoing.origin).Perm s.received := by
  obtain ⟨s', hrun', hi', hnil, hreceived⟩ := (run_serving hm hmax hrun).drained
  refine ⟨s', hrun', ?_⟩
  have honce := hi'.once
  rwa [hnil, List.map_nil, List.append_nil, hreceived] at honce

/-- A write in the device and a delete whose event waits. -/
theorem twoRequests_drain : ∃ s s' : Service Nat Nat, s.jobs.length = 2 ∧ s.sent = [] ∧
    Run (serviceStep argHeap) (fun s a => ServiceFits argHeap s a ∧ a.Completes) s s' ∧
    (s'.sent.map Outgoing.origin).Perm s.received := by
  have hsteps : (runActs (serviceStep argHeap) (ServiceFits argHeap)
      [.recv .net (rwRequest msgOssOpWrite 4096 (some 7) 3) none 0,
        .recv .net (argRequest msgOssOpDelete 8 4) none 0] (Service.start numbered fun _ _ => 0)).map
      (fun s => decide (s.jobs.length = 2 ∧ s.sent.length = 0)) = some true := by
    decide +kernel
  obtain ⟨s, hs, hend⟩ := Option.map_eq_some_iff.mp hsteps
  obtain ⟨hjobs, hsent⟩ := of_decide_eq_true hend
  obtain ⟨s', hrun, hperm⟩ := service_drains argHeap 4096 262144 (fun b => b) numbered (fun _ _ => 0) s rfl
    (by decide) (run_of_runActs .start hs)
  exact ⟨s, s', hjobs, List.eq_nil_of_length_eq_zero hsent, hrun, hperm⟩

end ZCell.Chunkstore

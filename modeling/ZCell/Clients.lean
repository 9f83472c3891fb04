import ZCell.Submission
import ZCell.Accounting

/-! The store together with its device and the memory of its clients, who wait for each request
before they make the next one. What was written to the objects is kept as a history. -/
namespace ZCell.Store
open Bytes Persist Pm Allocator Runs

/-- The memory is that of the clients: the store itself works in other memory. -/
structure Host where
  w : World
  disk : Image
  ram : Image
  /-- History: what was last written to each block of each object. -/
  last : Nat → Nat → Option (List Byte)
  /-- The part of it that is in the range of a transaction, when that was accepted. -/
  want : Nat → Nat → Option (List Byte)
  /-- The memory at the callback of a transaction. -/
  got : Nat → Image

/-- A step of the store, or the device changes byte `i` of what bio `k` is about, or a client
changes the memory. -/
inductive HostAct where
  | act (a : Act)
  | media (k i : Nat) (v : Byte)
  | user (a : Nat) (v : Byte)
  deriving DecidableEq, Repr

/-- The history when the request has been accepted. -/
def Host.record (h : Host) (r : Request) : Nat → Nat → Option (List Byte) :=
  match r.op with
  | .write => fun o j =>
    if r.Covers o j then some (pageAt h.ram r.dataBuffer.toNat (j - r.bofst)) else h.last o j
  | .create | .delete => Function.update h.last r.object fun _ => none
  | _ => h.last

/-- The device and the memory after a step of the store. -/
def Host.moved (h : Host) (a : Act) : Image × Image :=
  match doneBio h.w a with
  | some f => f.transfer h.disk h.ram
  | none => (h.disk, h.ram)

def hostStep (env : Env) (d : HostAct) (h : Host) : Option Host :=
  match d with
  | .act a => (step env a h.w).map fun w =>
    let r := (w.tx h.w.zs.tidMax).request
    let accepted := h.w.zs.tidMax ∈ w.accepted
    { w := w
      disk := (h.moved a).1
      ram := (h.moved a).2
      last := if accepted then h.record r else h.last
      want := if accepted then
          Function.update h.want h.w.zs.tidMax fun j => h.last r.object (r.bofst + j)
        else h.want
      got := fun t =>
        if .callback t ∈ w.log ∧ .callback t ∉ h.w.log then (h.moved a).2 else h.got t }
  | .media k i v =>
    match h.w.flight[k]? with
    | none => none
    | some f =>
      if i < f.size then
        some { h with
          disk := (f.scribble i v h.disk h.ram).1, ram := (f.scribble i v h.disk h.ram).2 }
      else none
  | .user a v => some { h with ram := Function.update h.ram a v }

/-- The blocks of the write are distinct, and no object maps one of them outside of its range. -/
def BlocksFree (zs : ZstoreContext) (r : Request) : Prop :=
  (newBlocks zs r).Nodup ∧ ∀ b ∈ newBlocks zs r, ∀ s, MapsTo zs s b → r.Covers s.1 s.2

/-- No object has the index block of a create. -/
def IndexFree (zs : ZstoreContext) : Prop :=
  ∀ o, Valid zs.onode o → (zs.onode o).dataIdxId ≠ newIndex zs

/-- Every request before is done, and the allocator gives out blocks that no object uses. -/
structure CallFits (w : World) (r : Request) : Prop where
  idle : w.zs.txList = [] ∧ w.zs.txRdonlyList = []
  buffer : r.op = .read ∨ r.op = .write → r.dataBuffer.toNat + r.len.toNat < 2 ^ 64
  created : r.op = .write → ¬ Fails w.zs r → (w.zs.onode r.object).valid = true
  fresh : r.op = .write → ¬ Fails w.zs r → BlocksFree w.zs r
  index : r.op = .create → (w.zs.onode r.object).valid = false → HasRoom w.zs.pmAllocator 1 →
    IndexFree w.zs

/-- The transaction has not ended. -/
def World.Live (w : World) (t : Nat) : Prop := t ∈ w.zs.txList ∨ t ∈ w.zs.txRdonlyList

/-- Where the buffer of the transaction is. -/
def World.base (w : World) (t : Nat) : Nat := (w.tx t).request.dataBuffer.toNat

/-- Clients leave the buffers of their requests alone. -/
def HostFits (h : Host) : HostAct → Prop
  | .act a => ∀ r ∈ callOf h.w a, CallFits h.w r
  | .media .. => True
  | .user a _ => ∀ t, h.w.Live t →
    a < h.w.base t ∨ h.w.base t + (h.w.tx t).request.len.toNat ≤ a

/-- The blocks that the bios of a transaction move its buffer from or to. -/
def World.movedBlocks (w : World) (t : Nat) : List Nat :=
  match (w.tx t).request.op with
  | .read => fetched (w.before t) (w.tx t).request
  | .write => newBlocks (w.before t) (w.tx t).request
  | _ => []

/-- No two objects share an index block. -/
def IndexApart (zs : ZstoreContext) : Prop :=
  ∀ o u, Valid zs.onode o → Valid zs.onode u →
    (zs.onode o).dataIdxId = (zs.onode u).dataIdxId → o = u

/-- A queued write: the history has what is in its buffer. -/
structure Writing (h : Host) (t : Nat) : Prop where
  valid : (h.w.zs.onode (h.w.tx t).request.object).valid = true
  snapshot : (h.w.before t).onode (h.w.tx t).request.object =
    h.w.zs.onode (h.w.tx t).request.object
  distinct : (newBlocks (h.w.before t) (h.w.tx t).request).Nodup
  apart : ∀ b ∈ newBlocks (h.w.before t) (h.w.tx t).request, ∀ s, MapsTo h.w.zs s b →
    (h.w.tx t).request.Covers s.1 s.2
  last : ∀ p < (h.w.tx t).request.blen,
    h.last (h.w.tx t).request.object ((h.w.tx t).request.bofst + p) =
      some (pageAt h.ram (h.w.base t) p)

/-- A queued create or delete. -/
structure Changing (h : Host) (t : Nat) : Prop where
  last : ∀ j, h.last (h.w.tx t).request.object j = none
  index : (h.w.tx t).request.op = .create → ∀ o, Valid h.w.zs.onode o →
    (h.w.zs.onode o).dataIdxId ≠ newIndex (h.w.before t)

/-- Where the data of the objects is, when the bios `fs` are in flight. -/
structure DataInv (h : Host) (fs : List Flight) : Prop where
  synced : ∀ t, h.w.Live t → h.w.queue.Whole t →
    Synced (h.w.movedBlocks t) (h.w.base t) fs h.disk h.ram
  writing : ∀ t ∈ h.w.zs.txList, (h.w.tx t).request.op = .write → Writing h t
  changing : ∀ t ∈ h.w.zs.txList, (h.w.tx t).request.op ≠ .write → Changing h t
  /-- Outside of the range of the queued write, the history is on the device. -/
  kept : ∀ o j v, h.last o j = some v →
    (∀ t ∈ h.w.zs.txList, ¬ (h.w.tx t).request.Covers o j) →
    ∃ b, MapsTo h.w.zs (o, j) b ∧ blockAt h.disk b = v
  fetching : ∀ t ∈ h.w.zs.txRdonlyList, ∀ j < (h.w.tx t).request.blen, ∀ v, h.want t j = some v →
    ∃ b, (fetched (h.w.before t) (h.w.tx t).request)[j]? = some b ∧ blockAt h.disk b = v

/-- What the bio does is what its transaction is for. -/
structure Serves (w : World) (f : Flight) : Prop where
  kind : f.bio.ioType = .read ∧ (w.tx f.tid).request.op = .read ∨
    f.bio.ioType = .write ∧ (w.tx f.tid).request.op = .write
  moves : ∃ s, f.Moves (w.movedBlocks f.tid) (w.base f.tid) s

structure HostInv (env : Env) (h : Host) : Prop where
  flights : FlightInv env h.w
  noTrim : h.w.zs.mntFlag &&& zstoreEnableTrim = 0
  index : IndexApart h.w.zs
  single : ∀ t u, h.w.Live t → h.w.Live u → t = u
  serves : ∀ f ∈ h.w.flight, Serves h.w f
  data : DataInv h h.w.flight
  /-- A read that has come back has brought the history. -/
  served : ∀ t, .callback t ∈ h.w.log → (h.w.tx t).request.op = .read →
    ∀ j < (h.w.tx t).request.blen, ∀ v, h.want t j = some v →
      pageAt (h.got t) (h.w.base t) j = v

section Transactions
variable {env : Env} {w : World} {t : Nat}

theorem FlightInv.read_op (hi : FlightInv env w) (ht : t ∈ w.zs.txRdonlyList) :
    (w.tx t).request.op = .read := by
  have hacc : t ∈ w.accepted := hi.fifo.queue.ledger.live_accepted (Or.inr ht)
  exact (hi.fifo.entered t hacc).rdonly.mp (of_decide_eq_true (hi.fifo.queue.ledger.reads t ht))

theorem FlightInv.queued_op (hi : FlightInv env w) (ht : t ∈ w.zs.txList) :
    (w.tx t).request.op ≠ .read := by
  obtain ⟨tx, hacc, _⟩ := (hi.fifo.wf.queued t ht).accepted
  exact hacc.request.2

theorem FlightInv.written (hi : FlightInv env w) (ht : t ∈ w.zs.txList)
    (hop : (w.tx t).request.op = .write) :
    ∃ tx, Written (w.before t) (w.tx t).request (w.after t) tx := by
  obtain ⟨tx, hacc, _⟩ := (hi.fifo.wf.queued t ht).accepted
  cases hacc with
  | write _ h => exact ⟨tx, h⟩
  | create h _ =>
    rw [hop] at h
    cases h
  | delete h _ =>
    rw [hop] at h
    cases h

theorem FlightInv.live_lt (hi : FlightInv env w) (ht : w.Live t) : t < w.zs.tidMax :=
  hi.fifo.queue.ledger.live_lt ht

theorem FlightInv.flight_live (hi : FlightInv env w) {f : Flight} (hf : f ∈ w.flight) :
    w.Live f.tid := hi.fifo.queue.live.flight f.tid (List.mem_map_of_mem hf)

theorem newBlocks_length {zs zs' : ZstoreContext} {r : Request} {tx : ZstoreTransaction}
    (h : Written zs r zs' tx) : (newBlocks zs r).length = r.blen :=
  (alloc_extents h.blen_pos h.room).1

theorem fetched_length_le (zs : ZstoreContext) (r : Request) : (fetched zs r).length ≤ r.blen := by
  refine (mapped_length_le _).trans (Nat.le_of_eq ?_)
  rw [readRange, List.length_map, rangeWords, readWords_length]

/-- The bios of a transaction are about the pages of its buffer. -/
theorem FlightInv.moved_le (hi : FlightInv env w) (ht : w.Live t) :
    (w.movedBlocks t).length ≤ (w.tx t).request.blen := by
  unfold World.movedBlocks
  split
  · exact fetched_length_le ..
  · rename_i hop
    obtain ht | ht := ht
    · obtain ⟨tx, h⟩ := hi.written ht hop
      exact Nat.le_of_eq (newBlocks_length h)
    · rw [hi.read_op ht] at hop
      cases hop
  · exact Nat.zero_le _

end Transactions

section Data
variable {env : Env} {h : Host} {f : Flight} {fs : List Flight} {disk ram : Image}

theorem Serves.distinct (hs : Serves h.w f) (hi : HostInv env h) (hf : f ∈ h.w.flight)
    (hty : f.bio.ioType ≠ .read) : (h.w.movedBlocks f.tid).Nodup := by
  obtain ⟨hrd, _⟩ | ⟨_, hop⟩ := hs.kind
  · exact absurd hrd hty
  · obtain ht | ht := hi.flights.flight_live hf
    · unfold World.movedBlocks
      rw [hop]
      exact (hi.data.writing f.tid ht hop).distinct
    · rw [hi.flights.read_op ht] at hop
      cases hop

/-- A bio of a write only changes blocks that no entry outside of the range maps, and one of a read
no block at all. -/
theorem HostInv.change (hi : HostInv env h) (hf : f ∈ h.w.flight)
    (hc : Confined f h.disk h.ram disk ram)
    (hsync : ∀ t, h.w.Live t → h.w.queue.Whole t →
      Synced (h.w.movedBlocks t) (h.w.base t) fs disk ram) :
    DataInv { h with disk := disk, ram := ram } fs := by
  have hlive := hi.flights.flight_live hf
  have hkind := (hi.serves f hf).kind
  refine ⟨hsync, fun t ht hop => ?_, fun t ht hop => ?_, fun o j v hv hno => ?_,
    fun t ht j hj v hv => ?_⟩
  · obtain rfl := hi.single t f.tid (Or.inl ht) hlive
    have hram : ram = h.ram := by
      funext a
      obtain ⟨_, hrd⟩ | ⟨hty, _⟩ := hkind
      · rw [hop] at hrd
        cases hrd
      · exact hc.ram a (Or.inl (by simp [hty]))
    obtain ⟨h1, h2, h3, h4, h5⟩ := hi.data.writing f.tid ht hop
    exact ⟨h1, h2, h3, h4, fun p hp => by rw [hram]; exact h5 p hp⟩
  · obtain ⟨h1, h2⟩ := hi.data.changing t ht hop
    exact ⟨h1, h2⟩
  · obtain ⟨b, hmap, hb⟩ := hi.data.kept o j v hv hno
    refine ⟨b, hmap, (hc.disk b ?_).trans hb⟩
    obtain ⟨hty, _⟩ | ⟨hty, hop⟩ := hkind
    · exact Or.inl hty
    · right
      intro hcov
      obtain ⟨ht, htype⟩ | ⟨ht, _⟩ := hi.flights.listed hf
      · obtain ⟨_, ⟨_, hblocks⟩ | ⟨htrim, _⟩⟩ := (hi.flights.carries f hf).write htype
        · have hnew := hblocks b hcov
          exact hno f.tid ht ((hi.data.writing f.tid ht hop).apart b hnew (o, j) hmap)
        · rw [htrim] at hty
          cases hty
      · rw [hi.flights.read_op ht] at hop
        cases hop
  · obtain ⟨b, hget, hb⟩ := hi.data.fetching t ht j hj v hv
    refine ⟨b, hget, (hc.disk b (Or.inl ?_)).trans hb⟩
    obtain rfl := hi.single t f.tid (Or.inr ht) hlive
    obtain ⟨hty, _⟩ | ⟨_, hop⟩ := hkind
    · exact hty
    · rw [hi.flights.read_op ht] at hop
      cases hop

theorem HostInv.carried (hi : HostInv env h) {k : Nat} (hk : h.w.flight[k]? = some f) :
    DataInv { h with disk := (f.transfer h.disk h.ram).1, ram := (f.transfer h.disk h.ram).2 }
      (h.w.flight.eraseIdx k) := by
  have hf := List.mem_of_getElem? hk
  have hs := hi.serves f hf
  obtain ⟨s, hm⟩ := hs.moves
  refine hi.change hf (transfer_confined f h.disk h.ram) fun t ht hw => ?_
  obtain rfl := hi.single t f.tid ht (hi.flights.flight_live hf)
  exact (hi.data.synced f.tid ht hw).carried hk hm (hs.kind.imp And.left And.left)
    (hs.distinct hi hf)

theorem HostInv.media (hi : HostInv env h) {k i : Nat} {v : Byte} (hk : h.w.flight[k]? = some f)
    (hsize : i < f.size) : HostInv env { h with
      disk := (f.scribble i v h.disk h.ram).1, ram := (f.scribble i v h.disk h.ram).2 } := by
  have hf := List.mem_of_getElem? hk
  have hs := hi.serves f hf
  obtain ⟨s, hm⟩ := hs.moves
  have hc := scribble_confined f hsize v h.disk h.ram
  refine ⟨hi.flights, hi.noTrim, hi.index, hi.single, hi.serves, ?_, hi.served⟩
  refine hi.change hf hc fun t ht hw => ?_
  obtain rfl := hi.single t f.tid ht (hi.flights.flight_live hf)
  exact (hi.data.synced f.tid ht hw).confined hc hf hm (hs.distinct hi hf)

/-- Memory outside of the buffers in use is of no matter. -/
theorem HostInv.user (hi : HostInv env h) {a : Nat} {v : Byte} (hok : HostFits h (.user a v)) :
    HostInv env { h with ram := Function.update h.ram a v } := by
  have hpage : ∀ t, h.w.Live t → ∀ p < (h.w.tx t).request.blen,
      pageAt (Function.update h.ram a v) (h.w.base t) p = pageAt h.ram (h.w.base t) p := by
    intro t ht p hp
    refine pageAt_congr fun c h1 h2 => update_outside _ ?_
    have hout := hok t ht
    have hlen : zstorePageSize * (h.w.tx t).request.blen ≤ (h.w.tx t).request.len.toNat :=
      Nat.mul_div_le ..
    unfold zstorePageSize at *
    omega
  refine ⟨hi.flights, hi.noTrim, hi.index, hi.single, hi.serves, ?_, hi.served⟩
  obtain ⟨hsync, hwr, hch, hkept, hfetch⟩ := hi.data
  refine ⟨fun t ht hw p b hp => ?_, fun t ht hop => ?_, fun t ht hop => ?_, hkept, hfetch⟩
  · obtain ⟨hlt, _⟩ := List.getElem?_eq_some_iff.mp hp
    have hle := hi.flights.moved_le ht
    exact (hsync t ht hw p b hp).imp_right fun hsame =>
      (hpage t ht p (Nat.lt_of_lt_of_le hlt hle)).trans hsame
  · obtain ⟨h1, h2, h3, h4, h5⟩ := hwr t ht hop
    refine ⟨h1, h2, h3, h4, fun p hp => ?_⟩
    exact (h5 p hp).trans (congrArg some (hpage t (Or.inl ht) p hp).symm)
  · obtain ⟨h1, h2⟩ := hch t ht hop
    exact ⟨h1, h2⟩

end Data

end ZCell.Store

import ZCell.Fifo
import ZCell.HotBlock
import ZCell.Ownership

/-! Reads in flight: the device carries out the bios that it has, in pieces and in any order, and
a read returns what its blocks held when it was submitted. -/
namespace ZCell.Store
open Bytes Persist Pm Allocator Runs

/-- The blocks that a read fetches, and those that a write gives up and takes. -/
def fetched (zs : ZstoreContext) (r : Request) : List Nat := mapped (readRange zs r)

def oldBlocks (zs : ZstoreContext) (r : Request) : List Nat := mapped (rangeWords zs r)

def newBlocks (zs : ZstoreContext) (r : Request) : List Nat := blocks (newExtents zs r)

/-- The bio is about block `b`. -/
def Bio.Covers (bio : Bio) (b : Nat) : Prop :=
  bio.blkOfst.toNat ≤ b ∧ b < bio.blkOfst.toNat + bio.blkLen.toNat

instance (bio : Bio) (b : Nat) : Decidable (bio.Covers b) := inferInstanceAs (Decidable (_ ∧ _))

/-- Transaction `t` is a write that puts another block in the place of `b`, or takes `b`. -/
def Replaces (w : World) (t b : Nat) : Prop :=
  (w.tx t).request.op = .write ∧
    (b ∈ oldBlocks (w.before t) (w.tx t).request ∨ b ∈ newBlocks (w.before t) (w.tx t).request)

instance (w : World) (t b : Nat) : Decidable (Replaces w t b) :=
  inferInstanceAs (Decidable (_ ∧ _))

/-- The read is of a valid object and ends within it, all of its range is mapped, and the blocks
are allocated and in no queued write. -/
def ReadFits (w : World) (r : Request) : Prop :=
  (w.zs.onode r.object).valid = true ∧ r.bofst + r.blen ≤ 1024 ∧ unmapped ∉ rangeWords w.zs r ∧
    ∀ b ∈ fetched w.zs r, bit w.zs.ssdAllocator.bs b = true ∧ ∀ t ∈ w.zs.txList, ¬ Replaces w t b

/-- The write has blocks to trim. -/
def Trims (zs : ZstoreContext) (r : Request) : Prop :=
  zs.mntFlag &&& zstoreEnableTrim ≠ 0 ∧ oldExtents zs r ≠ []

instance (zs : ZstoreContext) (r : Request) : Decidable (Trims zs r) :=
  inferInstanceAs (Decidable (_ ∧ _))

/-- The write gives up no block that a read is fetching, trims nothing, and its scan opens no extent
over a gap. -/
def WriteSpares (w : World) (r : Request) : Prop :=
  (∀ t ∈ w.zs.txRdonlyList, ∀ b ∈ fetched (w.before t) (w.tx t).request, b ∉ oldBlocks w.zs r) ∧
    ¬ Trims w.zs r ∧ (HasRoom (released w.zs r) r.blen → Neighbours (released w.zs r) r.blen)

def ReadsSpared (w : World) (a : Act) : Prop :=
  ∀ r ∈ callOf w a, (r.op = .read → ¬ ReadRefused w.zs r → ReadFits w r) ∧
    (r.op = .write → ¬ Refused w.zs r → WriteSpares w r)

instance (w : World) (r : Request) : Decidable (ReadFits w r) :=
  inferInstanceAs (Decidable (_ ∧ _ ∧ _ ∧ _))

instance (w : World) (r : Request) : Decidable (WriteSpares w r) :=
  inferInstanceAs (Decidable (_ ∧ _ ∧ _))

instance (w : World) (a : Act) : Decidable (ReadsSpared w a) :=
  inferInstanceAs (Decidable (∀ r ∈ callOf w a, _))

/-- The store and the contents of its device. -/
structure Medium (D : Type) where
  w : World
  disk : Nat → D
  /-- History: the device as it was when a transaction was given out. -/
  seen : Nat → Nat → D

/-- The device may change a block for each bio it has, except for reads, at any time. -/
inductive Deed (D : Type) where
  | act (a : Act)
  | media (k b : Nat) (v : D)

section Steps
variable {D : Type}

def mediumStep (env : Env) (d : Deed D) (m : Medium D) : Option (Medium D) :=
  match d with
  | .act a => (step env a m.w).map fun w =>
      { w := w, disk := m.disk, seen := Function.update m.seen m.w.zs.tidMax m.disk }
  | .media k b v =>
    match m.w.flight[k]? with
    | none => none
    | some f =>
      if f.bio.ioType ≠ .read ∧ f.bio.Covers b then
        some { m with disk := Function.update m.disk b v }
      else none

def DeedSpares (m : Medium D) : Deed D → Prop
  | .act a => ReadsSpared m.w a
  | .media .. => True

instance (m : Medium D) (d : Deed D) : Decidable (DeedSpares m d) := by
  cases d with
  | act a => exact inferInstanceAs (Decidable (ReadsSpared m.w a))
  | media k b v => exact inferInstanceAs (Decidable True)

end Steps

/-- Read `t` fetches what its range mapped when it was submitted, and gets it as it was then. -/
structure Intact {D : Type} (m : Medium D) (t : Nat) : Prop where
  /-- Entry by entry, of the object that the read is about. -/
  own : Valid (m.w.before t).onode (m.w.tx t).request.object ∧
    ∀ j < (m.w.tx t).request.blen, (m.w.tx t).request.bofst + j < 1024 ∧
      (fetched (m.w.before t) (m.w.tx t).request)[j]? = some (indexWord (m.w.before t).pm
        (1024 * ((m.w.before t).onode (m.w.tx t).request.object).dataIdxId +
          ((m.w.tx t).request.bofst + j))).toNat
  bios : ∀ f ∈ m.w.flight, f.tid = t → f.bio.ioType = .read ∧
    ∀ b, f.bio.Covers b → b ∈ fetched (m.w.before t) (m.w.tx t).request
  fresh : ∀ u ∈ m.w.accepted, t < u → (m.w.tx u).request.op = .write →
    ∀ b ∈ fetched (m.w.before t) (m.w.tx t).request,
      b ∉ newBlocks (m.w.before u) (m.w.tx u).request
  same : ∀ b ∈ fetched (m.w.before t) (m.w.tx t).request, m.disk b = m.seen t b

section Bios
variable {zs zs' : ZstoreContext} {r : Request} {tx : ZstoreTransaction} {b : Nat}

theorem extent_len_le {l : List Extent} {e : Extent} (h : e ∈ l) : e.len ≤ (blocks l).length := by
  induction l with
  | nil => cases h
  | cons d l ih =>
    have hlen : (blocks (d :: l)).length = d.len + (blocks l).length := by
      simp [blocks, Extent.blocks]
    obtain rfl | h := List.mem_cons.mp h
    · omega
    · have hle := ih h
      omega

/-- A bio is about the blocks of its extent. -/
theorem covers_ofExtent {l : List Extent} {e : Extent} {ty : IoType} (he : e ∈ l)
    (hlba : e.lba < 2 ^ 32) (hlen : (blocks l).length < 2 ^ 32)
    (h : (Bio.ofExtent ty e).Covers b) : b ∈ blocks l := by
  have hle := extent_len_le he
  simp only [Bio.Covers, Bio.ofExtent, BitVec.toNat_ofNat] at h
  rw [Nat.mod_eq_of_lt hlba, Nat.mod_eq_of_lt (by omega)] at h
  refine List.mem_flatMap.mpr ⟨e, he, ?_⟩
  rw [Extent.blocks, List.mem_range'_1]
  exact h

/-- A merged extent fits into a bio. -/
theorem merge_fits {ws : List (BitVec 32)} {e : Extent} (he : e ∈ (objectLbaMergeTo ws).1) :
    e.lba < 2 ^ 32 ∧ e.len ≤ ws.length := by
  have hlen := mapped_length_le ws
  have hle := extent_len_le he
  obtain ⟨v, _, _, hv⟩ := mem_mapped.mp (merge_lba ws e he)
  have hlt := v.isLt
  rw [blocks_merge] at hle
  exact ⟨by omega, by omega⟩

theorem covers_merge {ws : List (BitVec 32)} {e : Extent} {ty : IoType} (hw : ws.length ≤ 32)
    (he : e ∈ (objectLbaMergeTo ws).1) (h : (Bio.ofExtent ty e).Covers b) : b ∈ mapped ws := by
  have hblocks := blocks_merge ws
  have hlen := mapped_length_le ws
  rw [← hblocks]
  exact covers_ofExtent he (merge_fits he).1 (by rw [hblocks]; omega) h

theorem ReadOk.covers (h : ReadOk zs r zs' tx) {bio : Bio} (hb : bio ∈ readBios zs r) :
    bio.ioType = .read ∧ ∀ b, bio.Covers b → b ∈ fetched zs r := by
  obtain ⟨e, he, rfl⟩ := List.mem_map.mp hb
  refine ⟨rfl, fun b hc => covers_merge ?_ he hc⟩
  rw [readRange, List.length_map, rangeWords, readWords_length]
  exact h.blen_le

/-- A bio of a write is to its new blocks, or trims. -/
theorem Written.bio_cases (hf : Formatted zs) (h : Written zs r zs' tx) {bio : Bio} (hb : bio ∈ tx.bios) :
    bio.ioType = .write ∧ (∀ b, bio.Covers b → b ∈ newBlocks zs r) ∨
      bio.ioType = .trim ∧ Trims zs r := by
  obtain ⟨u, hbios⟩ := h.bios
  rw [hbios] at hb
  obtain hb | hb := List.mem_append.mp hb
  · obtain ⟨e, he, rfl⟩ := List.mem_map.mp hb
    refine Or.inl ⟨rfl, fun b hc => ?_⟩
    obtain ⟨hcount, _⟩ := alloc_extents h.blen_pos h.room
    have hlba := (takes_free (alloc_lba h.blen_pos h.room e he)).1
    have htot := hf.ssdTotal
    have hle := h.blen_le
    rw [released_total] at hlba
    refine covers_ofExtent he (by omega) ?_ hc
    rw [newExtents, hcount]
    omega
  · obtain ⟨e, he, rfl⟩ := List.mem_map.mp hb
    rw [trimmed] at he
    split at he
    · rename_i hflag
      refine Or.inr ⟨rfl, hflag, fun hnil => ?_⟩
      rw [hnil] at he
      cases he
    · cases he

end Bios

section Flights
variable {env : Env} {w w' : World} {a : Act} {t : Nat}

/-- A bio in flight is one that its transaction was accepted with. -/
structure Carries (w : World) (f : Flight) : Prop where
  read : (w.tx f.tid).txType = .rdonly → f.bio.ioType = .read ∧
    ∀ b, f.bio.Covers b → b ∈ fetched (w.before f.tid) (w.tx f.tid).request
  write : (w.tx f.tid).txType = .write → (w.tx f.tid).request.op = .write ∧
    (f.bio.ioType = .write ∧
        (∀ b, f.bio.Covers b → b ∈ newBlocks (w.before f.tid) (w.tx f.tid).request) ∨
      f.bio.ioType = .trim ∧ Trims (w.before f.tid) (w.tx f.tid).request)

/-- Along a run: the queue, and the bios in flight. -/
structure FlightInv (env : Env) (w : World) : Prop where
  fifo : FifoInv env w
  carries : ∀ f ∈ w.flight, Carries w f

theorem FlightInv.listed (hi : FlightInv env w) {f : Flight} (hf : f ∈ w.flight) :
    (f.tid ∈ w.zs.txList ∧ (w.tx f.tid).txType = .write) ∨
    (f.tid ∈ w.zs.txRdonlyList ∧ (w.tx f.tid).txType = .rdonly) := by
  have hmem : f.tid ∈ w.queue.flight := List.mem_map_of_mem hf
  obtain h | h := hi.fifo.queue.live.flight f.tid hmem
  · exact Or.inl ⟨h, (hi.fifo.wf.queued f.tid h).txType⟩
  · exact Or.inr ⟨h, of_decide_eq_true (hi.fifo.queue.ledger.reads f.tid h)⟩

theorem FlightInv.read_lt (hi : FlightInv env w) (ht : t ∈ w.zs.txRdonlyList) : t < w.zs.tidMax :=
  hi.fifo.queue.ledger.live_lt (Or.inr ht)

theorem FlightInv.flight_lt (hi : FlightInv env w) {f : Flight} (hf : f ∈ w.flight) :
    f.tid < w.zs.tidMax := by
  obtain ⟨h, _⟩ | ⟨h, _⟩ := hi.listed hf
  · exact (hi.fifo.wf.queued f.tid h).tid_lt
  · exact hi.read_lt h

theorem replaces_congr {b : Nat} (hreq : (w'.tx t).request = (w.tx t).request)
    (hbefore : w'.before t = w.before t) : Replaces w' t b ↔ Replaces w t b := by
  rw [Replaces, Replaces, hreq, hbefore]

theorem FlightInv.step (hi : FlightInv env w) (h : step env a w = some w') : FlightInv env w' := by
  have hw := hi.fifo.wf
  have hold : ∀ f ∈ w.flight, Carries w' f := by
    intro f hf
    obtain ⟨⟨h1, _, h3, _⟩, h5, _⟩ := (step_keeps hw h).2 f.tid (hi.flight_lt hf)
    obtain ⟨hr, hwr⟩ := hi.carries f hf
    refine ⟨fun ht => ?_, fun ht => ?_⟩
    · rw [h1, h5]
      exact hr (h3 ▸ ht)
    · rw [h1, h5]
      exact hwr (h3 ▸ ht)
  refine ⟨hi.fifo.step h, fun f hf => ?_⟩
  obtain hq | ⟨r, _, ⟨rc, tx, hr⟩ | ⟨zs, tx, ha⟩⟩ | ⟨tid, p, hc⟩ := step_cases hw h
  · exact hold f (hq.flight f hf)
  · exact hold f (hr.flight ▸ hf)
  · obtain hf | ⟨htid, hbio⟩ := ha.flight f hf
    · exact hold f hf
    · have hself : w'.tx w.zs.tidMax = tx := ha.tx_self
      have hbefore : w'.before w.zs.tidMax = w.zs := ha.before_self
      constructor
      · rw [htid, hself, hbefore]
        intro htype
        obtain ⟨_, hr, _⟩ | ⟨hacc, _⟩ := ha.kind
        · rw [hr.bios] at hbio
          rw [hr.request]
          exact hr.covers hbio
        · rw [hacc.txType] at htype
          cases htype
      · rw [htid, hself, hbefore]
        intro htype
        obtain ⟨_, hr, _⟩ | ⟨hacc, _⟩ := ha.kind
        · rw [hr.txType] at htype
          cases htype
        · rw [hacc.request.1]
          cases hacc with
          | write hop h => exact ⟨hop, h.bio_cases hw.formatted hbio⟩
          | create _ h =>
            rw [h.tx.bios] at hbio
            cases hbio
          | delete _ h =>
            rw [h.tx.bios] at hbio
            cases hbio
  · exact hold f (hc.flight ▸ hf)

/-- A read in the list was there before, or has just been accepted. -/
theorem reads_step {full : Prop} {q q' : TxQueue} (hs : TxQueue.Step full q q')
    (ht : t ∈ q'.reads) : t ∈ q.reads ∨ t = q.next ∧ t ∈ q'.accepted := by
  have hleave : ∀ (q : TxQueue) (u : Nat), t ∈ (q.leave u).reads → t ∈ q.reads := by
    intro q u hm
    simp only [TxQueue.leave] at hm
    split at hm
    · exact List.mem_of_mem_erase hm
    · exact hm
  have henter : ∀ (it : Item) (m : Nat), t ∈ (q.enter it m).reads →
      t ∈ q.reads ∨ t = q.next ∧ t ∈ (q.enter it m).accepted := by
    intro it m hm
    simp only [TxQueue.enter] at hm
    split at hm
    · obtain hm | hm := List.mem_append.mp hm
      · exact Or.inl hm
      · obtain rfl := List.mem_singleton.mp hm
        exact Or.inr ⟨rfl, TxQueue.mem_accepted.mpr (by simp [TxQueue.enter])⟩
    · exact Or.inl hm
  cases hs with
  | reject it rc => exact Or.inl ht
  | data rdonly n m hn hm => exact henter _ m ht
  | change => exact henter ⟨false, true, true, 0⟩ 0 ht
  | bio k u hk hb => exact Or.inl ht
  | lastWrite k u hk hb hw => exact Or.inl ht
  | lastRead k u hk hb hr =>
    exact Or.inl (hleave (q.complete k u { q.item u with ready := true, bios := 0 }) u ht)
  | deliver k u hk => exact Or.inl ht
  | pause d hd => exact Or.inl ht
  | commit u hu hr => exact Or.inl (hleave { q with log := q.log ++ [.apply u] } u ht)

theorem FlightInv.reads (hi : FlightInv env w) (h : Store.step env a w = some w')
    (ht : t ∈ w'.zs.txRdonlyList) :
    t ∈ w.zs.txRdonlyList ∨ t = w.zs.tidMax ∧ t ∈ w'.accepted := by
  obtain hq | hq := step_transition hi.fifo.wf hi.fifo.queue h
  · have hreads : w'.zs.txRdonlyList = w.zs.txRdonlyList := congrArg TxQueue.reads hq
    exact Or.inl (hreads ▸ ht)
  · exact reads_step hq ht

end Flights

section Kept
variable {D : Type} {env : Env} {w w' : World} {a : Act} {t : Nat}

/-- What holds of a read in flight with regard to the store alone. -/
structure Fetching (w : World) (t : Nat) : Prop where
  own : Valid (w.before t).onode (w.tx t).request.object ∧
    ∀ j < (w.tx t).request.blen, (w.tx t).request.bofst + j < 1024 ∧
      (fetched (w.before t) (w.tx t).request)[j]? = some (indexWord (w.before t).pm
        (1024 * ((w.before t).onode (w.tx t).request.object).dataIdxId +
          ((w.tx t).request.bofst + j))).toNat
  bits : ∀ b ∈ fetched (w.before t) (w.tx t).request, bit w.zs.ssdAllocator.bs b = true
  fresh : ∀ u ∈ w.accepted, t < u → (w.tx u).request.op = .write →
    ∀ b ∈ fetched (w.before t) (w.tx t).request, b ∉ newBlocks (w.before u) (w.tx u).request
  apart : ∀ u ∈ w.zs.txList, ∀ b ∈ fetched (w.before t) (w.tx t).request, ¬ Replaces w u b

/-- A read fetches the block of each entry that is mapped, and block 0 for the others. -/
theorem fetched_entry {zs : ZstoreContext} {r : Request} (hf : Formatted zs) {j : Nat} (hj : j < r.blen) :
    (fetched zs r)[j]? = some (if indexWord zs.pm (1024 * (zs.onode r.oid.toNat).dataIdxId +
      (r.bofst + j)) = unmapped then 0 else indexWord zs.pm (1024 *
        (zs.onode r.oid.toNat).dataIdxId + (r.bofst + j))).toNat := by
  have hall : (readRange zs r).filter (fun w => w ≠ unmapped) = readRange zs r := by
    rw [List.filter_eq_self]
    exact fun w hw => decide_eq_true (readRange_mapped zs r w hw)
  rw [fetched, mapped, hall, readRange, rangeWords_eq hf, List.getElem?_map, List.getElem?_map,
    List.getElem?_map, List.getElem?_range hj, Option.map_some, Option.map_some, Option.map_some]

theorem fetched_word {zs : ZstoreContext} {r : Request} (hf : Formatted zs) {j : Nat} (hj : j < r.blen)
    (hw : indexWord zs.pm (1024 * (zs.onode r.oid.toNat).dataIdxId + (r.bofst + j)) ≠ unmapped) :
    (fetched zs r)[j]? = some (indexWord zs.pm
      (1024 * (zs.onode r.oid.toNat).dataIdxId + (r.bofst + j))).toNat := by
  rw [fetched_entry hf hj, if_neg hw]

/-- The blocks of a range without holes, entry by entry. -/
theorem ReadOk.fetched_at {zs zs' : ZstoreContext} {r : Request} {tx : ZstoreTransaction}
    (hf : Formatted zs) (h : ReadOk zs r zs' tx) (hno : unmapped ∉ rangeWords zs r) {j : Nat}
    (hj : j < r.blen) : r.object = r.oid.toNat ∧ (fetched zs r)[j]? = some (indexWord zs.pm
      (1024 * (zs.onode r.object).dataIdxId + (r.bofst + j))).toNat := by
  have hobj := object_of_lt (h.oid_lt hf)
  refine ⟨hobj, ?_⟩
  rw [hobj]
  refine fetched_word hf hj (ne_of_mem_of_not_mem ?_ hno)
  rw [rangeWords_eq hf]
  exact List.mem_map_of_mem (List.mem_range.mpr hj)

/-- Nothing of it changes but the store around it. -/
theorem Fetching.keep (hf : Fetching w t) (ht : t < w.zs.tidMax)
    (hlisted : ∀ u ∈ w.zs.txList, u < w.zs.tidMax) (hlog : ∀ u ∈ w.accepted, u < w.zs.tidMax)
    (hkeep : ∀ u < w.zs.tidMax, (w'.tx u).request = (w.tx u).request ∧ w'.before u = w.before u)
    (hbits : ∀ b ∈ fetched (w.before t) (w.tx t).request, bit w.zs.ssdAllocator.bs b = true →
      bit w'.zs.ssdAllocator.bs b = true)
    (hacc : ∀ u ∈ w'.accepted, u ∈ w.accepted ∨ u = w.zs.tidMax)
    (hlist : ∀ u ∈ w'.zs.txList, u ∈ w.zs.txList ∨ u = w.zs.tidMax)
    (hnew : (w'.tx w.zs.tidMax).request.op = .write →
      w.zs.tidMax ∈ w'.accepted ∨ w.zs.tidMax ∈ w'.zs.txList →
      ∀ b ∈ fetched (w.before t) (w.tx t).request, ¬ Replaces w' w.zs.tidMax b) :
    Fetching w' t := by
  obtain ⟨h1, h2⟩ := hkeep t ht
  constructor
  · rw [h1, h2]
    exact hf.own
  · rw [h1, h2]
    exact fun b hb => hbits b hb (hf.bits b hb)
  · intro u hu hlt hop b hb
    rw [h1, h2] at hb
    obtain hu' | rfl := hacc u hu
    · obtain ⟨g1, g2⟩ := hkeep u (hlog u hu')
      rw [g1] at hop
      rw [g1, g2]
      exact hf.fresh u hu' hlt hop b hb
    · exact fun hmem => hnew hop (Or.inl hu) b hb ⟨hop, Or.inr hmem⟩
  · intro u hu b hb hrep
    rw [h1, h2] at hb
    obtain hu' | rfl := hlist u hu
    · obtain ⟨g1, g2⟩ := hkeep u (hlisted u hu')
      rw [replaces_congr g1 g2] at hrep
      exact hf.apart u hu' b hb hrep
    · exact hnew hrep.1 (Or.inr hu) b hb hrep

/-- A write that spares the read leaves its blocks allocated, and takes others. -/
theorem Written.spares {zs zs' : ZstoreContext} {r : Request} {tx : ZstoreTransaction}
    (h : Written zs r zs' tx) (hn : Neighbours (released zs r) r.blen) {b : Nat}
    (hbit : bit zs.ssdAllocator.bs b = true) (hold : b ∉ oldBlocks zs r) :
    bit (newSsd zs r).bs b = true ∧ b ∉ newBlocks zs r := by
  have hrel : bit (released zs r).bs b = true := by
    have hno : b ∉ mapped (rangeWords zs r) := hold
    rw [bit_released, hbit, decide_eq_true hno]
    rfl
  constructor
  · rw [h.newSsd_bs, bit_setAll, hrel, Bool.true_or]
  · rw [newBlocks, newExtents]
    obtain ⟨i, _, hi⟩ := alloc_of_room h.blen_pos h.room
    rw [hi]
    simp only [blocks_of_neighbours hn]
    intro hmem
    rw [(takes_free hmem).2] at hrel
    cases hrel

/-- The new read: its blocks are as the condition wants them. -/
theorem Accepts.fetching {r : Request} {zs : ZstoreContext} {tx : ZstoreTransaction}
    (hi : FlightInv env w) (hstep : step env a w = some w') (ha : Accepts r w w' zs tx)
    (hop : r.op = .read) (hr : ReadOk w.zs r zs tx) (hfit : ReadFits w r)
    (hssd : w'.zs.ssdAllocator = w.zs.ssdAllocator) (hlist : w'.zs.txList = w.zs.txList) :
    Fetching w' w.zs.tidMax := by
  have hself : (w'.tx w.zs.tidMax).request = r := ha.request_self
  have hbefore : w'.before w.zs.tidMax = w.zs := ha.before_self
  have hf := hi.fifo.wf.formatted
  obtain ⟨hval, hlen, hno, hblocks⟩ := hfit
  constructor
  · rw [hself, hbefore]
    refine ⟨⟨?_, hval⟩, fun j hj => ⟨by omega, (hr.fetched_at hf hno hj).2⟩⟩
    rw [(hr.fetched_at hf hno (checked_blen hr.checked)).1]
    exact hr.oid_lt hf
  · rw [hself, hbefore, hssd]
    exact fun b hb => (hblocks b hb).1
  · intro u hu hlt _
    have hle := (step_logged hi.fifo.wf hi.fifo.logged hstep).1 u hu
    have hmax : w'.zs.tidMax = w.zs.tidMax + 1 := by
      obtain ⟨_, h, _, _, hzs⟩ | ⟨hacc, _⟩ := ha.kind
      · rw [hzs, h.store]
      · exact absurd hop hacc.request.2
    omega
  · intro u hu b hb
    rw [hself, hbefore] at hb
    rw [hlist] at hu
    obtain ⟨h1, h2⟩ := hi.fifo.wf.keeps hstep u hu
    rw [replaces_congr h1 h2]
    exact (hblocks b hb).2 u hu

/-- Under the condition every read in flight keeps its blocks. -/
theorem Fetching.step (hi : FlightInv env w) (hok : ReadsSpared w a) (h : step env a w = some w')
    (hall : ∀ t ∈ w.zs.txRdonlyList, Fetching w t) : ∀ t ∈ w'.zs.txRdonlyList, Fetching w' t := by
  have hw := hi.fifo.wf
  have hlog := hi.fifo.logged
  have hf := hw.formatted
  intro t ht
  have hlisted : ∀ u ∈ w.zs.txList, u < w.zs.tidMax := fun u hu => (hw.queued u hu).tid_lt
  have hkeep : ∀ u < w.zs.tidMax, (w'.tx u).request = (w.tx u).request ∧ w'.before u = w.before u :=
    fun u hu => ⟨((step_keeps hw h).2 u hu).1.1, ((step_keeps hw h).2 u hu).2.1⟩
  -- without an accepted request there is no new transaction
  have hsilent : w'.accepted = w.accepted → (∀ u ∈ w'.zs.txList, u ∈ w.zs.txList) →
      (∀ t ∈ w.zs.txRdonlyList, ∀ b ∈ fetched (w.before t) (w.tx t).request,
        bit w.zs.ssdAllocator.bs b = true → bit w'.zs.ssdAllocator.bs b = true) →
      Fetching w' t := by
    intro hacc hlist hbits
    have hfresh : w.zs.tidMax ∉ w'.accepted := by
      rw [hacc]
      exact fun hm => Nat.lt_irrefl _ (hlog.1 _ hm)
    obtain hold | ⟨rfl, hin⟩ := hi.reads h ht
    · refine (hall t hold).keep (hi.read_lt hold) hlisted hlog.1 hkeep (hbits t hold)
        (fun u hu => Or.inl (hacc ▸ hu)) (fun u hu => Or.inl (hlist u hu)) fun _ hin => ?_
      obtain hin | hin := hin
      · exact absurd hin hfresh
      · exact absurd (hlist _ hin) hw.tidMax_fresh
    · exact absurd hin hfresh
  obtain hq | ⟨r, hr, ⟨rc, tx, hrej⟩ | ⟨zs, tx, ha⟩⟩ | ⟨tid, p, hc⟩ := step_cases hw h
  · refine hsilent hq.accepted (fun u hu => hq.zs.txList ▸ hu) fun _ _ b _ hb => ?_
    rw [hq.zs.ssdAllocator]
    exact hb
  · have hfr := (prepare_rejected hf.shift hrej.rc_ne hrej.prepare).frame
    refine hsilent hrej.accepted (fun u hu => ?_) fun t ht b hb hbit => ?_
    · rw [hfr] at hu
      exact hu
    · exact (hrej.grows hf b).2 (fun hop hchk _ => ((hok r hr).2 hop hchk).1 t ht b hb) hbit
  · have hself : w'.tx w.zs.tidMax = tx := ha.tx_self
    have hbefore : w'.before w.zs.tidMax = w.zs := ha.before_self
    have hacc : ∀ u ∈ w'.accepted, u ∈ w.accepted ∨ u = w.zs.tidMax := by
      intro u hu
      rw [ha.accepted] at hu
      exact (List.mem_append.mp hu).imp_right List.mem_singleton.mp
    obtain ⟨hop, hread, n, l, hzs⟩ | ⟨hnew, n, hzs⟩ := ha.kind
    · have hssd : w'.zs.ssdAllocator = w.zs.ssdAllocator := by rw [hzs, hread.store]
      have hlist : w'.zs.txList = w.zs.txList := by rw [hzs, hread.store]
      obtain hold | ⟨rfl, _⟩ := hi.reads h ht
      · refine (hall t hold).keep (hi.read_lt hold) hlisted hlog.1 hkeep
          (fun b _ hb => by rw [hssd]; exact hb) hacc (fun u hu => Or.inl (hlist ▸ hu)) fun hw _ => ?_
        rw [hself, hread.request, hop] at hw
        cases hw
      · exact ha.fetching hi h hop hread ((hok r hr).1 hop hread.checked) hssd hlist
    · have he := hnew.entering
      have hreads : w'.zs.txRdonlyList = w.zs.txRdonlyList := by rw [hzs, ← he.txRdonlyList]
      have hold : t ∈ w.zs.txRdonlyList := hreads ▸ ht
      have hlist : ∀ u ∈ w'.zs.txList, u ∈ w.zs.txList ∨ u = w.zs.tidMax := by
        intro u hu
        rw [hzs, he.txList] at hu
        exact (List.mem_append.mp hu).imp_right List.mem_singleton.mp
      have hspare : ∀ b ∈ fetched (w.before t) (w.tx t).request,
          bit w'.zs.ssdAllocator.bs b = true ∧ ¬ Replaces w' w.zs.tidMax b := by
        intro b hb
        have hbit := (hall t hold).bits b hb
        rw [hzs, Replaces, hself, hbefore, hnew.request.1]
        cases hnew with
        | write hop hwr =>
          obtain ⟨hfree, _, hn⟩ := (hok r hr).2 hop hwr.checked
          have hno := hfree t hold b hb
          obtain ⟨h1, h2⟩ := hwr.spares (hn hwr.room) hbit hno
          rw [hwr.store]
          refine ⟨h1, ?_⟩
          rintro ⟨-, hb | hb⟩
          · exact hno hb
          · exact h2 hb
        | create hop hcr =>
          rw [hcr.store, hop]
          exact ⟨hbit, by simp⟩
        | delete hop hdl =>
          rw [hdl.store, hop]
          exact ⟨hbit, by simp⟩
      exact (hall t hold).keep (hi.read_lt hold) hlisted hlog.1 hkeep
        (fun b hb _ => (hspare b hb).1) hacc hlist fun _ _ b hb => (hspare b hb).2
  · obtain ⟨n, hzs⟩ := hc.zs
    refine hsilent hc.accepted (fun u hu => ?_) fun _ _ b _ hb => ?_
    · rw [hc.head]
      exact List.mem_cons_of_mem _ hu
    · rw [hzs]
      exact hb

/-- Nor does a write with blocks to trim enter the queue. -/
theorem untrimmed_step (hi : FlightInv env w) (hok : ReadsSpared w a) (h : step env a w = some w')
    (hall : ∀ t ∈ w.zs.txList, (w.tx t).request.op = .write → ¬ Trims (w.before t) (w.tx t).request) :
    ∀ t ∈ w'.zs.txList, (w'.tx t).request.op = .write → ¬ Trims (w'.before t) (w'.tx t).request := by
  have hw := hi.fifo.wf
  have hold : ∀ t ∈ w.zs.txList, (w'.tx t).request.op = .write →
      ¬ Trims (w'.before t) (w'.tx t).request := by
    intro t ht
    obtain ⟨h1, h2⟩ := hw.keeps h t ht
    rw [h1, h2]
    exact hall t ht
  intro t ht
  obtain hq | ⟨r, hr, ⟨rc, tx, hrej⟩ | ⟨zs, tx, ha⟩⟩ | ⟨tid, p, hc⟩ := step_cases hw h
  · exact hold t (hq.zs.txList ▸ ht)
  · rw [(prepare_rejected hw.formatted.shift hrej.rc_ne hrej.prepare).frame] at ht
    exact hold t ht
  · obtain ⟨_, hread, n, l, hzs⟩ | ⟨hacc, n, hzs⟩ := ha.kind
    · rw [hzs, hread.store] at ht
      exact hold t ht
    · rw [hzs, hacc.entering.txList] at ht
      obtain ht | ht := List.mem_append.mp ht
      · exact hold t ht
      · obtain rfl := List.mem_singleton.mp ht
        have hself : w'.tx w.zs.tidMax = tx := ha.tx_self
        have hbefore : w'.before w.zs.tidMax = w.zs := ha.before_self
        rw [hself, hbefore, hacc.request.1]
        cases hacc with
        | write hop hwr => exact fun _ => ((hok r hr).2 hop hwr.checked).2.1
        | create hop _ => exact fun hw => by rw [hop] at hw; cases hw
        | delete hop _ => exact fun hw => by rw [hop] at hw; cases hw
  · refine hold t ?_
    rw [hc.head]
    exact List.mem_cons_of_mem _ ht

structure MediumInv (env : Env) (m : Medium D) : Prop where
  flights : FlightInv env m.w
  fetching : ∀ t ∈ m.w.zs.txRdonlyList, Fetching m.w t
  untrimmed : ∀ t ∈ m.w.zs.txList, (m.w.tx t).request.op = .write →
    ¬ Trims (m.w.before t) (m.w.tx t).request
  same : ∀ t ∈ m.w.zs.txRdonlyList, ∀ b ∈ fetched (m.w.before t) (m.w.tx t).request,
    m.disk b = m.seen t b

/-- A bio other than a read is a write of a new block. -/
theorem MediumInv.media {m : Medium D} (hi : MediumInv env m) {f : Flight} (hf : f ∈ m.w.flight)
    (hty : f.bio.ioType ≠ .read) {b : Nat} (hb : f.bio.Covers b) (v : D) :
    MediumInv env { m with disk := Function.update m.disk b v } := by
  refine ⟨hi.flights, hi.fetching, hi.untrimmed, fun t ht c hc => ?_⟩
  have hne : c ≠ b := by
    rintro rfl
    obtain ⟨hin, hwr⟩ | ⟨_, hrd⟩ := hi.flights.listed hf
    · obtain ⟨hop, ⟨_, hnew⟩ | ⟨_, htrim⟩⟩ := (hi.flights.carries f hf).write hwr
      · exact (hi.fetching t ht).apart f.tid hin c hc ⟨hop, Or.inr (hnew c hb)⟩
      · exact hi.untrimmed f.tid hin hop htrim
    · exact hty ((hi.flights.carries f hf).read hrd).1
  exact (Function.update_of_ne hne ..).trans (hi.same t ht c hc)

theorem MediumInv.act {m : Medium D} (hi : MediumInv env m) (hok : ReadsSpared m.w a)
    (h : step env a m.w = some w') : MediumInv env
      { w := w', disk := m.disk, seen := Function.update m.seen m.w.zs.tidMax m.disk } := by
  refine ⟨hi.flights.step h, Fetching.step hi.flights hok h hi.fetching,
    untrimmed_step hi.flights hok h hi.untrimmed, fun t ht b hb => ?_⟩
  obtain hold | ⟨rfl, _⟩ := hi.flights.reads h ht
  · have hlt := hi.flights.read_lt hold
    obtain ⟨⟨h1, _⟩, h2, _⟩ := (step_keeps hi.flights.fifo.wf h).2 t hlt
    rw [h1, h2] at hb
    have hseen : Function.update m.seen m.w.zs.tidMax m.disk t = m.seen t :=
      Function.update_of_ne (Nat.ne_of_lt hlt) ..
    exact (hi.same t hold b hb).trans (congrFun hseen b).symm
  · have hseen : Function.update m.seen m.w.zs.tidMax m.disk m.w.zs.tidMax = m.disk :=
      Function.update_self ..
    exact (congrFun hseen b).symm

theorem MediumInv.step {m m' : Medium D} {d : Deed D} (hi : MediumInv env m)
    (hok : DeedSpares m d) (h : mediumStep env d m = some m') : MediumInv env m' := by
  cases d with
  | act a =>
    obtain ⟨w', hstep, rfl⟩ := Option.map_eq_some_iff.mp h
    exact hi.act hok hstep
  | media k b v =>
    simp only [mediumStep] at h
    split at h
    · cases h
    · rename_i f hf
      split at h
      · rename_i hc
        obtain rfl := Option.some.inj h
        exact hi.media (List.mem_of_getElem? hf) hc.1 hc.2 v
      · cases h

theorem Mounted.mediumInv {m : Medium D} (h : Mounted m.w) : MediumInv env m := by
  refine ⟨⟨h.fifoInv, fun f hf => ?_⟩, fun t ht => ?_, fun t ht => ?_, fun t ht => ?_⟩
  · rw [h.flight] at hf
    cases hf
  · rw [h.txRdonlyList] at ht
    cases ht
  · rw [h.txList] at ht
    cases ht
  · rw [h.txRdonlyList] at ht
    cases ht

theorem MediumInv.intact {m : Medium D} (hi : MediumInv env m) (ht : t ∈ m.w.zs.txRdonlyList) :
    Intact m t := by
  have hf := hi.fetching t ht
  have hrd : (m.w.tx t).txType = .rdonly :=
    of_decide_eq_true (hi.flights.fifo.queue.ledger.reads t ht)
  refine ⟨hf.own, ?_, hf.fresh, hi.same t ht⟩
  rintro f hin rfl
  exact (hi.flights.carries f hin).read hrd

/-- When reads are of mapped ranges whose blocks are allocated and in no queued write, writes give
up no block that a read is fetching and trim nothing, and scans open no extent over a gap, a read in flight gets
what its blocks held when it was submitted, and no later write takes one of them. -/
theorem reads_intact (env : Env) (m0 m : Medium D) (hm : Mounted m0.w)
    (hrun : Run (mediumStep env) DeedSpares m0 m) :
    ∀ t ∈ m.w.zs.txRdonlyList, Intact m t := by
  have hi : MediumInv env m := hrun.invariant hm.mediumInv fun _ _ _ hi hok hs => hi.step hok hs
  exact fun t ht => hi.intact ht

/-- A run of the store is one of the device, which does nothing. -/
theorem Run.medium {w w' : World} (h : Run (step env) (fun _ _ => True) w w') {m : Medium D}
    (hm : m.w = w) : ∃ m', Run (mediumStep env) (fun _ _ => True) m m' ∧ m'.w = w' ∧
      m'.disk = m.disk ∧ ∀ t, m'.seen t = m.seen t ∨ m'.seen t = m.disk := by
  induction h with
  | start => exact ⟨m, .start, hm, rfl, fun _ => Or.inl rfl⟩
  | @next w1 w2 a _ _ hstep ih =>
    obtain ⟨m1, hr, rfl, hdisk, hseen⟩ := ih
    have hstep' : mediumStep env (.act a) m1 = some
        { w := w2, disk := m1.disk, seen := Function.update m1.seen m1.w.zs.tidMax m1.disk } := by
      simp only [mediumStep, hstep, Option.map_some]
    refine ⟨_, hr.next _ trivial hstep', rfl, hdisk, fun t => ?_⟩
    by_cases hnew : t = m1.w.zs.tidMax
    · rw [hnew]
      exact Or.inr ((Function.update_self ..).trans hdisk)
    · have hold : Function.update m1.seen m1.w.zs.tidMax m1.disk t = m1.seen t :=
        Function.update_of_ne hnew ..
      simp only [hold]
      exact hseen t

/-- The small store on a device whose blocks are blank. -/
def blankMedium : Medium Bool := ⟨smallWorld, fun _ => false, fun _ _ => false⟩

/-- Two blocks of object 1 have been written, object 2 exists, and the two are being read. -/
def readBegun : List Act :=
  [createObject 1, .resume, .resume, createObject 2, .resume, .resume,
    .request ⟨.write, 1, 0, 2 * 4096, 0⟩, .bioDone 0 true, .resume, .resume, .resume,
    .request ⟨.read, 1, 0, 2 * 4096, 0⟩]

/-- Object 2 is written during the read. -/
theorem otherWrite_intact : ∃ m : Medium Bool, m.w.zs.txRdonlyList = [3] ∧ m.disk 2 = true ∧
    ∀ t ∈ m.w.zs.txRdonlyList, Intact m t := by
  have hrun : (runActs (mediumStep smallEnv) DeedSpares
      ((readBegun ++ [writeBlock 2]).map .act ++ [.media 1 2 true]) blankMedium).map
      (fun m => decide (m.w.zs.txRdonlyList = [3] ∧ m.disk 2 = true)) = some true := by
    decide +kernel
  obtain ⟨m, hm, hval⟩ := Option.map_eq_some_iff.mp hrun
  obtain ⟨hreads, hdisk⟩ := of_decide_eq_true hval
  exact ⟨m, hreads, hdisk, reads_intact smallEnv blankMedium m smallWorld_mounted
    (run_of_runActs .start hm)⟩

/-- The first block of object 1 is read while it is written until the hint has gone round the
device: the last of these writes takes the block that is being read, and the device carries it out. -/
theorem overwritten_not_intact : ∃ (m : Medium Bool) (u : Nat),
    Run (mediumStep smallEnv) (fun _ _ => True) blankMedium m ∧ m.w.zs.txRdonlyList = [3] ∧
    3 < u ∧ u ∈ m.w.accepted ∧ (m.w.tx u).request = firstBlock ∧
    0 ∈ fetched (m.w.before 3) (m.w.tx 3).request ∧
    0 ∈ newBlocks (m.w.before u) (m.w.tx u).request ∧ m.disk 0 ≠ m.seen 3 0 ∧
    ¬ ∀ t ∈ m.w.zs.txRdonlyList, Intact m t := by
  have hrun : (runActs (step smallEnv) (fun _ _ => True)
      (hotActs ++ [.request ⟨.read, 1, 0, 4096, 0⟩]) smallWorld).map
      (fun w => decide (IsHot w ∧ w.zs.tidMax = 4 ∧ w.zs.txRdonlyList = [3] ∧
        0 ∈ fetched (w.before 3) (w.tx 3).request)) = some true := by decide +kernel
  obtain ⟨w0, hw0, hval⟩ := Option.map_eq_some_iff.mp hrun
  obtain ⟨hhot, htid, hreads, hfetch⟩ := of_decide_eq_true hval
  have hr0 : Run (step smallEnv) (fun _ _ => True) smallWorld w0 := run_of_runActs .start hw0
  have hwf : WF w0 := hr0.invariant smallWorld_mounted.wf fun _ _ _ hi _ hs => step_wf hi hs
  obtain ⟨w1, hr1, h1, _⟩ := @Hot.rewritten smallEnv w0 w0 3 (fun _ _ => True) (hhot.hot hwf)
    (by decide) (fun _ _ => rfl) (fun _ => trivial) 509 (by decide)
  obtain ⟨w2, buf, hstep, h2, hacc, hreq, hext, hflight⟩ := @Hot.write smallEnv w0 w1 512 h1 (by decide)
    (by decide) fun _ _ => rfl
  obtain ⟨m, hm, rfl, hdisk, hseen⟩ := @Run.medium Bool smallEnv _ _
    ((hr0.trans hr1).next _ trivial hstep) blankMedium rfl
  have hmedia : mediumStep smallEnv (.media w1.flight.length 0 true) m =
      some { m with disk := Function.update m.disk 0 true } := by
    have hlast : m.w.flight[w1.flight.length]? =
        some ⟨w1.zs.tidMax, Bio.ofExtent .write ⟨512 % 512, 1⟩, buf⟩ := by
      rw [hflight, List.getElem?_append_right (Nat.le_refl _), Nat.sub_self]
      rfl
    simp only [mediumStep, hlast]
    rw [if_pos (by decide)]
  have hsame : m.seen 3 0 = false := by
    obtain h | h := hseen 3
    · rw [h]
      rfl
    · rw [h]
      rfl
  have hlt : 3 < w0.zs.tidMax := by
    rw [htid]
    decide
  have hold : 0 ∈ fetched (m.w.before 3) (m.w.tx 3).request := by
    obtain ⟨htx, hbefore⟩ := h2.older 3 hlt
    rw [htx, hbefore]
    exact hfetch
  have hne : Function.update m.disk 0 true 0 ≠ m.seen 3 0 := by
    rw [hsame, Function.update_self]
    decide
  have hlist : m.w.zs.txRdonlyList = [3] := h2.reads.trans hreads
  refine ⟨{ m with disk := Function.update m.disk 0 true }, w1.zs.tidMax, hm.next _ trivial hmedia, hlist,
    Nat.lt_of_lt_of_le hlt h1.tid_le, ?_, hreq, hold, ?_, hne, fun hall => ?_⟩
  · rw [hacc]
    exact List.mem_append_right _ (List.mem_singleton_self _)
  · rw [hreq, newBlocks, hext]
    decide
  · exact hne ((hall 3 (by rw [hlist]; exact List.mem_singleton_self _)).same 0 hold)

end Kept

end ZCell.Store

import ZCell.Accounting
import ZCell.HotBlock
import ZCell.Reading

/-! Blocks that committed metadata still uses. A prepare function gives blocks back before the
commit of its transaction, so they are spared as long as nobody takes them in between. -/
namespace ZCell.Store
open Bytes Persist Pm Allocator Runs Holding

/-- Entry `s.2` of the index of the object `s.1`, valid in persistent memory, maps block `b`. -/
def CommittedTo (pm : Image) (s : Nat × Nat) (b : Nat) : Prop :=
  Valid (onodeLine pm) s.1 ∧ s.2 < 1024 ∧
    indexWord pm (1024 * (onodeLine pm s.1).dataIdxId + s.2) ≠ unmapped ∧
    (indexWord pm (1024 * (onodeLine pm s.1).dataIdxId + s.2)).toNat = b

/-- No data write in flight is to a block that the persistent index maps, and no create has
initialised the index block of an object that was valid in persistent memory. -/
structure Untouched (w : World) : Prop where
  blocks : ∀ f ∈ w.flight, f.bio.ioType = .write → ∀ b, f.bio.Covers b →
    ∀ s, ¬ CommittedTo w.zs.pm s b
  index : ∀ u ∈ w.accepted, (w.tx u).request.op = .create →
    ∀ o, Valid (onodeLine (w.before u).pm) o →
      (onodeLine (w.before u).pm o).dataIdxId ≠ newIndex (w.before u)

/-- What the write takes is free in the bitmap before it gives its own blocks back, and no queued write
has given it back. -/
def FreshBlocks (w : World) (r : Request) : Prop :=
  ∀ b ∈ takes (released w.zs r) r.blen, bit w.zs.ssdAllocator.bs b = false ∧
    ∀ t ∈ w.zs.txList, (w.tx t).request.op = .write →
      b ∉ mapped (rangeWords (w.before t) (w.tx t).request)

/-- Each request can wait behind the queue and gets blocks that nothing still depends on. -/
def SparesBlocks (rsv : Bool) (w : World) (a : Act) : Prop :=
  Orderly rsv w a ∧ ∀ r ∈ callOf w a, r.op = .write → ¬ Refused w.zs r →
    HasRoom (released w.zs r) r.blen → FreshBlocks w r

instance (w : World) (r : Request) : Decidable (FreshBlocks w r) :=
  inferInstanceAs (Decidable (∀ b ∈ _, _))

instance (rsv : Bool) (w : World) (a : Act) : Decidable (SparesBlocks rsv w a) :=
  inferInstanceAs (Decidable (_ ∧ ∀ r ∈ callOf w a, _))

section Held
variable {rsv : Bool} {w : World} {u : Nat}

/-- A queued write was accepted on the object as it still is. -/
theorem Owned.queuedWrite (hi : Owned rsv w) (hu : u ∈ w.zs.txList)
    (hop : (w.tx u).request.op = .write) : ∃ tx,
    Written (w.before u) (w.tx u).request (w.after u) tx ∧ Formatted (w.before u) ∧
    (w.tx u).request.object = (w.tx u).request.oid.toNat ∧
    (w.tx u).request.bofst + (w.tx u).request.blen ≤ 1024 ∧
    Valid w.zs.onode (w.tx u).request.object := by
  have hq := hi.wf.queued u hu
  obtain ⟨tx, hacc, _⟩ := hq.accepted
  obtain ⟨_, hvalid⟩ := hi.snapshot u hu
  cases hacc with
  | write _ hwr =>
    exact ⟨tx, hwr, hq.formatted, hwr.object_eq hq.formatted, hwr.range_le hq.formatted,
      hi.object_lt hu, hvalid.mpr (by rw [hop]; decide)⟩
  | create hop' _ => rw [hop] at hop'; cases hop'
  | delete hop' _ => rw [hop] at hop'; cases hop'

/-- The blocks of a queued write are held by the entries that it writes. -/
theorem Owned.newBlock_held (hi : Owned rsv w) (hu : u ∈ w.zs.txList)
    (hop : (w.tx u).request.op = .write) {b : Nat}
    (hb : b ∈ newBlocks (w.before u) (w.tx u).request) :
    ∃ s : Nat × Nat, (w.tx u).request.Covers s.1 s.2 ∧ (holding w).holds s = some b := by
  obtain ⟨tx, hwr, hf, _, hrange, hval⟩ := hi.queuedWrite hu hop
  rw [newBlocks] at hb
  obtain ⟨i, hlen, hbi⟩ := List.getElem_of_mem hb
  obtain ⟨hcount, _⟩ := alloc_extents hwr.blen_pos hwr.room
  have hi' : i < (w.tx u).request.blen := hcount ▸ hlen
  have hlt : b < 2 ^ 32 - 1 := by
    obtain ⟨e, he, h1, h2⟩ := mem_blocks.mp hb
    have hlba := (takes_free (alloc_lba hwr.blen_pos hwr.room e he)).1
    have hle := extent_len_le he
    have htot := hf.ssdTotal
    have hblen := hwr.blen_le
    rw [newExtents, hcount] at hle
    rw [released_total] at hlba
    omega
  have hc : (w.tx u).request.Covers (w.tx u).request.object ((w.tx u).request.bofst + i) :=
    ⟨hop, rfl, Nat.le_add_right _ _, by omega⟩
  have hword : entryWord w (w.tx u).request.object ((w.tx u).request.bofst + i) =
      BitVec.ofNat 32 b := by
    rw [entryWord_covered hi.separate hu hc, newEntry, Nat.add_sub_cancel_left, newWords,
      List.getD_eq_getElem?_getD, List.getElem?_map, List.getElem?_eq_getElem hlen, hbi]
    rfl
  have hnat : (BitVec.ofNat 32 b).toNat = b := by
    rw [BitVec.toNat_ofNat, Nat.mod_eq_of_lt (by omega)]
  have hne : BitVec.ofNat 32 b ≠ unmapped := by
    intro hun
    have hbig : unmapped.toNat = 2 ^ 32 - 1 := by decide
    rw [hun, hbig] at hnat
    omega
  refine ⟨((w.tx u).request.object, (w.tx u).request.bofst + i), hc,
    holding_some.mpr ⟨hval, Nat.lt_of_lt_of_le (Nat.add_lt_add_left hi' _) hrange, ?_, ?_⟩⟩
  · exact hword ▸ hne
  · exact (congrArg BitVec.toNat hword).trans hnat

/-- What an entry maps in persistent memory is in the range of a queued write, or is held. -/
theorem Owned.mapsTo_cases (hi : Owned rsv w) {s : Nat × Nat} {b : Nat} (hm : MapsTo w.zs s b) :
    (∃ v ∈ w.zs.txList, (w.tx v).request.op = .write ∧
      b ∈ mapped (rangeWords w.zs (w.tx v).request)) ∨
    (∀ v ∈ w.zs.txList, ¬ (w.tx v).request.Covers s.1 s.2) ∧ (holding w).holds s = some b := by
  obtain ⟨hval, hj, hne, hv⟩ := hm
  by_cases hc : ∃ v ∈ w.zs.txList, (w.tx v).request.Covers s.1 s.2
  · obtain ⟨v, hmem, hop, ho, h1, h2⟩ := hc
    obtain ⟨_, _, _, hobj, _⟩ := hi.queuedWrite hmem hop
    refine Or.inl ⟨v, hmem, hop, (mem_mapped_range hi.wf.formatted).mpr ⟨s.2, h1, h2, ?_⟩⟩
    rw [← hobj, ho]
    exact ⟨hne, hv⟩
  · have hno : ∀ v ∈ w.zs.txList, ¬ (w.tx v).request.Covers s.1 s.2 := fun v hv hcov =>
      hc ⟨v, hv, hcov⟩
    refine Or.inr ⟨hno, holding_some.mpr ?_⟩
    rw [entryWord_free hno]
    exact ⟨hval, hj, hne, hv⟩

end Held

structure SparedInv (env : Env) (rsv : Bool) (w : World) : Prop where
  flights : FlightInv env w
  owned : Owned rsv w
  coherent : Coherent w.zs
  -- a queued write still finds in its range what it has given back
  stays : ∀ t ∈ w.zs.txList, (w.tx t).request.op = .write →
    rangeWords w.zs (w.tx t).request = rangeWords (w.before t) (w.tx t).request
  -- what a queued write takes is mapped in the range of none
  fresh : ∀ u ∈ w.zs.txList, ∀ v ∈ w.zs.txList, (w.tx u).request.op = .write →
    (w.tx v).request.op = .write → ∀ b ∈ newBlocks (w.before u) (w.tx u).request,
      b ∉ mapped (rangeWords w.zs (w.tx v).request)
  index : ∀ u ∈ w.accepted, (w.tx u).request.op = .create →
    ∀ o, Valid (onodeLine (w.before u).pm) o →
      (onodeLine (w.before u).pm o).dataIdxId ≠ newIndex (w.before u)

section Steps
variable {env : Env} {rsv : Bool} {w w' : World} {a : Act}

theorem committedTo_iff (hc : Coherent w.zs) (s : Nat × Nat) (b : Nat) :
    CommittedTo w.zs.pm s b ↔ MapsTo w.zs s b := by
  rw [CommittedTo, MapsTo, Valid, Valid]
  by_cases ho : s.1 < 2 ^ 20
  · rw [hc s.1 ho]
  · simp only [ho, false_and]

theorem SparedInv.untouched (hi : SparedInv env rsv w) : Untouched w := by
  refine ⟨fun f hf hty b hb s hm => ?_, hi.index⟩
  rw [committedTo_iff hi.coherent] at hm
  obtain ⟨hin, hwr⟩ | ⟨_, hrd⟩ := hi.flights.listed hf
  · obtain ⟨hop, ⟨_, hblocks⟩ | ⟨htrim, _⟩⟩ := (hi.flights.carries f hf).write hwr
    swap
    · rw [htrim] at hty
      cases hty
    have hnew := hblocks b hb
    obtain ⟨t, hc, ht⟩ := hi.owned.newBlock_held hin hop hnew
    obtain ⟨v, hv, hopv, hmem⟩ | ⟨hno, hs⟩ := hi.owned.mapsTo_cases hm
    · exact hi.fresh f.tid hin v hv hop hopv b hnew hmem
    · obtain rfl := hi.owned.sound.unique _ _ _ hs ht
      exact hno f.tid hin hc
  · have hread := ((hi.flights.carries f hf).read hrd).1
    rw [hty] at hread
    cases hread

/-- The index block of a valid object changes only where the head of the queue writes it. -/
theorem Owned.indexWord_stay (hi : Owned rsv w) (hstep : Store.step env a w = some w')
    (hok : Orderly rsv w a) {o j : Nat} (ho : Valid w.zs.onode o) (hj : j < 1024)
    (hout : ∀ t, w.zs.txList = t :: w'.zs.txList → ¬ (w.tx t).request.Covers o j) :
    indexWord w'.zs.pm (1024 * (w.zs.onode o).dataIdxId + j) =
      indexWord w.zs.pm (1024 * (w.zs.onode o).dataIdxId + j) := by
  have hf := hi.wf.formatted
  obtain hq | ⟨r, hr, ⟨rc, tx, hrej⟩ | ⟨zs, tx, ha⟩⟩ | ⟨tid, p, hc⟩ := step_cases hi.wf hstep
  · rw [hq.zs.pm]
  · rw [(prepare_rejected hf.shift hrej.rc_ne hrej.prepare).frame]
  · obtain ⟨_, hread, n, l, hzs⟩ | ⟨hacc, n, hzs⟩ := ha.kind
    · rw [hzs, hread.store]
    · cases hacc with
      | write _ h => rw [hzs, h.store]
      | delete _ h => rw [hzs, h.store]
      | create hop h =>
        obtain ⟨_, hfit⟩ := (hok r hr).2.1 hop h.invalid h.room
        have hown := hi.newIndex_own h.room hfit ho
        have hpm : w'.zs.pm = zs.pm := by rw [hzs]
        rw [hpm, h.indexWord_eq hf, if_neg (by omega)]
  · have h := hi.committing hstep hc
    rw [h.effect.index, if_neg]
    rintro ⟨hop, h1, h2⟩
    obtain ⟨tx, hwr, hfb, hobj, hrange, hval⟩ := hi.queuedWrite h.mem hop
    have hfirst : firstWord (w.before tid) (w.tx tid).request =
        1024 * (w.zs.onode (w.tx tid).request.object).dataIdxId + (w.tx tid).request.bofst := by
      rw [firstWord, ← hobj, (hi.snapshot tid h.mem).1]
    rw [hfirst] at h1 h2
    have hsame := hi.index _ _ hval ho (by omega)
    rw [hsame] at h1 h2
    exact hout tid h.list ⟨hop, hsame, by omega, by omega⟩

/-- The words in the range of a queued write stay as they are until it is committed. -/
theorem Owned.rangeWords_stay (hi : Owned rsv w) (hi' : Owned rsv w')
    (hstep : Store.step env a w = some w') (hok : Orderly rsv w a) {v : Nat}
    (hv : v ∈ w.zs.txList) (hv' : v ∈ w'.zs.txList) (hop : (w.tx v).request.op = .write) :
    rangeWords w'.zs (w.tx v).request = rangeWords w.zs (w.tx v).request := by
  obtain ⟨tx, hwr, _, hobj, hrange, hval⟩ := hi.queuedWrite hv hop
  obtain ⟨h1, h2⟩ := hi.wf.keeps hstep v hv
  have hon : w'.zs.onode (w.tx v).request.object = w.zs.onode (w.tx v).request.object := by
    have hs := (hi'.snapshot v hv').1
    rw [h1, h2] at hs
    exact hs.symm.trans (hi.snapshot v hv).1
  rw [rangeWords_eq hi'.wf.formatted, rangeWords_eq hi.wf.formatted, ← hobj, hon]
  apply List.map_congr_left
  intro i hmem
  rw [List.mem_range] at hmem
  refine hi.indexWord_stay hstep hok hval (by omega) fun t hlist hc => ?_
  have hsep := hi.separate
  rw [hlist] at hsep
  exact ((List.pairwise_cons.mp hsep).1 v hv').1.covers hc
    ⟨hop, rfl, Nat.le_add_right _ _, by omega⟩

/-- A write is accepted: it takes no block that the range of a queued one maps, and its own range
maps none that a queued one has taken. -/
theorem SparedInv.fresh_accept (hi : SparedInv env rsv w) (hok : SparesBlocks rsv w a)
    {r : Request} {zs : ZstoreContext} {tx : ZstoreTransaction} (hr : callOf w a = some r)
    (hop : r.op = .write) (hwr : Written w.zs r zs tx) :
    (∀ b ∈ newBlocks w.zs r, b ∉ mapped (rangeWords w.zs r) ∧
      ∀ t ∈ w.zs.txList, (w.tx t).request.op = .write →
        b ∉ mapped (rangeWords w.zs (w.tx t).request)) ∧
    ∀ t ∈ w.zs.txList, (w.tx t).request.op = .write →
      ∀ b ∈ newBlocks (w.before t) (w.tx t).request, b ∉ mapped (rangeWords w.zs r) := by
  obtain ⟨hord, hfresh⟩ := hok
  obtain ⟨hval, hapart, hn⟩ := (hord r hr).1 hop hwr.checked
  rw [if_pos hwr.room] at hn
  constructor
  · have hnew : newBlocks w.zs r = takes (released w.zs r) r.blen := by
      obtain ⟨i, _, hi⟩ := alloc_of_room hwr.blen_pos hwr.room
      rw [newBlocks, newExtents, hi]
      exact blocks_of_neighbours hn
    rw [hnew]
    intro b hb
    obtain ⟨hfree, hgiven⟩ := hfresh r hr hop hwr.checked hwr.room b hb
    refine ⟨fun hold => ?_, fun t ht hopt => ?_⟩
    · have hbit := ((hi.owned.releasable hwr hop hval hapart).2 b hold).2
      rw [hfree] at hbit
      cases hbit
    · rw [hi.stays t ht hopt]
      exact hgiven t ht hopt
  · intro t ht hopt b hb hold
    obtain ⟨s, hc, hs⟩ := hi.owned.newBlock_held ht hopt hb
    obtain ⟨j, h1, h2, h3⟩ := (mem_mapped_range hi.owned.wf.formatted).mp hold
    rw [← hwr.object_eq hi.owned.wf.formatted] at h3
    have hheld := (holds_range hi.owned.wf.formatted hwr hop hval hapart h1 h2 b).mpr h3
    obtain rfl := hi.owned.sound.unique _ _ _ hheld hs
    exact (hapart t ht).covers hc ⟨hop, rfl, h1, h2⟩

/-- The range that a new write reads is the one that it was accepted on. -/
theorem accepted_rangeWords {r : Request} {zs : ZstoreContext} {tx : ZstoreTransaction} {n : Nat}
    (hacc : Accepted w.zs r zs tx) (hop : r.op = .write)
    (hzs : w'.zs = { zs with txOutstanding := n, txList := zs.txList ++ [w.zs.tidMax] }) :
    Written w.zs r zs tx ∧ rangeWords w'.zs r = rangeWords w.zs r := by
  cases hacc with
  | write _ h =>
    refine ⟨h, ?_⟩
    rw [hzs, h.store]
    rfl
  | create hop' _ => rw [hop] at hop'; cases hop'
  | delete hop' _ => rw [hop] at hop'; cases hop'

theorem SparedInv.step_stays (hi : SparedInv env rsv w) (hok : SparesBlocks rsv w a)
    (hstep : Store.step env a w = some w') (hown : Owned rsv w') :
    ∀ t ∈ w'.zs.txList, (w'.tx t).request.op = .write →
      rangeWords w'.zs (w'.tx t).request = rangeWords (w'.before t) (w'.tx t).request := by
  intro t ht hop
  obtain ⟨ht', h1, h2⟩ | ⟨r, zs, tx, n, hr, hacc, h1, h2, hzs⟩ := joins_step hi.owned.wf hstep ht
  · rw [h1] at hop
    rw [h1, h2, hi.owned.rangeWords_stay hown hstep hok.1 ht' ht hop]
    exact hi.stays t ht' hop
  · rw [h1] at hop
    rw [h1, h2]
    exact (accepted_rangeWords hacc hop hzs).2

theorem SparedInv.step_fresh (hi : SparedInv env rsv w) (hok : SparesBlocks rsv w a)
    (hstep : Store.step env a w = some w') (hown : Owned rsv w') :
    ∀ u ∈ w'.zs.txList, ∀ v ∈ w'.zs.txList, (w'.tx u).request.op = .write →
      (w'.tx v).request.op = .write → ∀ b ∈ newBlocks (w'.before u) (w'.tx u).request,
        b ∉ mapped (rangeWords w'.zs (w'.tx v).request) := by
  have hw := hi.owned.wf
  have hold : ∀ v ∈ w.zs.txList, v ∈ w'.zs.txList → (w.tx v).request.op = .write →
      rangeWords w'.zs (w.tx v).request = rangeWords w.zs (w.tx v).request :=
    fun v hv hv' hop => hi.owned.rangeWords_stay hown hstep hok.1 hv hv' hop
  intro u hu v hv hopu hopv b hb
  obtain ⟨hu', h1, h2⟩ | ⟨r, zs, tx, n, hr, hacc, h1, h2, hzs⟩ := joins_step hw hstep hu
  · rw [h1] at hopu
    rw [h1, h2] at hb
    obtain ⟨hv', g1, _⟩ | ⟨r, zs, tx, n, hr, hacc, g1, _, hzs⟩ := joins_step hw hstep hv
    · rw [g1] at hopv
      rw [g1, hold v hv' hv hopv]
      exact hi.fresh u hu' v hv' hopu hopv b hb
    · rw [g1] at hopv
      obtain ⟨hwr, hrange⟩ := accepted_rangeWords hacc hopv hzs
      rw [g1, hrange]
      exact (hi.fresh_accept hok hr hopv hwr).2 u hu' hopu b hb
  · rw [h1] at hopu
    rw [h1, h2] at hb
    obtain ⟨hwr, hrange⟩ := accepted_rangeWords hacc hopu hzs
    obtain ⟨hself, hothers⟩ := (hi.fresh_accept hok hr hopu hwr).1 b hb
    obtain ⟨hv', g1, _⟩ | ⟨r', _, _, _, hr', _, g1, _⟩ := joins_step hw hstep hv
    · rw [g1] at hopv
      rw [g1, hold v hv' hv hopv]
      exact hothers v hv' hopv
    · rw [hr, Option.some.injEq] at hr'
      rw [g1, ← hr', hrange]
      exact hself

theorem SparedInv.step_index (hi : SparedInv env rsv w) (hok : SparesBlocks rsv w a)
    (hstep : Store.step env a w = some w') :
    ∀ u ∈ w'.accepted, (w'.tx u).request.op = .create →
      ∀ o, Valid (onodeLine (w'.before u).pm) o →
        (onodeLine (w'.before u).pm o).dataIdxId ≠ newIndex (w'.before u) := by
  have hw := hi.owned.wf
  have hold : ∀ u ∈ w.accepted, (w'.tx u).request.op = .create →
      ∀ o, Valid (onodeLine (w'.before u).pm) o →
        (onodeLine (w'.before u).pm o).dataIdxId ≠ newIndex (w'.before u) := by
    intro u hu
    obtain ⟨h1, h2, _⟩ := (step_keeps hw hstep).2 u (hi.owned.logged.1 u hu)
    rw [h1.1, h2]
    exact hi.index u hu
  obtain hq | ⟨r, hr, ⟨rc, tx, hrej⟩ | ⟨zs, tx, ha⟩⟩ | ⟨tid, p, hc⟩ := step_cases hw hstep
  · rw [hq.accepted]
    exact hold
  · rw [hrej.accepted]
    exact hold
  · intro u hu hop o ho
    rw [ha.accepted] at hu
    obtain hu | hu := List.mem_append.mp hu
    · exact hold u hu hop o ho
    · obtain rfl := List.mem_singleton.mp hu
      have hbefore : w'.before w.zs.tidMax = w.zs := ha.before_self
      rw [hbefore] at ho ⊢
      rw [ha.request_self] at hop
      obtain ⟨hread, _⟩ | ⟨hacc, _⟩ := ha.kind
      · rw [hread] at hop
        cases hop
      · cases hacc with
        | write hop' _ => rw [hop] at hop'; cases hop'
        | delete hop' _ => rw [hop] at hop'; cases hop'
        | create _ h =>
          obtain ⟨_, hfit⟩ := (hok.1 r hr).2.1 hop h.invalid h.room
          have heq := hi.coherent o ho.1
          rw [heq]
          exact hi.owned.newIndex_own h.room hfit ⟨ho.1, heq ▸ ho.2⟩
  · rw [hc.accepted]
    exact hold

theorem SparedInv.step (hi : SparedInv env rsv w) (hok : SparesBlocks rsv w a)
    (hstep : Store.step env a w = some w') : SparedInv env rsv w' := by
  have hw := hi.owned.wf
  obtain ⟨hown, _⟩ := hi.owned.step hok.1 hstep
  exact ⟨hi.flights.step hstep, hown, step_coherent hw hi.coherent hstep, hi.step_stays hok hstep hown,
    hi.step_fresh hok hstep hown, hi.step_index hok hstep⟩

end Steps

section Start
variable {stk : Image} {e : Nat → OtableEntry} {nblks cpu : Nat} {flags mflags : BitVec 32}
  {m : Image} {h : MountMem} {zs : ZstoreContext}

/-- The index blocks of the reserved objects map nothing. -/
theorem indexWord_reserved (hflags : flags &&& zstoreMkfsReserveObjid ≠ 0) {n : Nat}
    (hn : n < 2 ^ 28) : indexWord (zstoreMkfs stk e nblks flags m) n = unmapped := by
  apply wordAt_ones
  intro i hi
  rw [zstoreMkfs_reserved hflags, reserveOps_eq, finish_append, finish_writePages,
    if_pos (by omega)]

/-- The reserved objects have index blocks of their own. -/
theorem reserved_owned (hflags : flags &&& zstoreMkfsReserveObjid ≠ 0) (hcpu : cpu < 127)
    (hp : h.Placed) (hm : zstoreMount cpu mflags h (zstoreMkfs stk e nblks flags m) = .ok zs)
    (heap : Nat → ZstoreTransaction) : Owned true (World.mounted zs heap) := by
  obtain ⟨hf, hon, hbit⟩ := mount_reserved hflags hcpu hp hm
  have hw := zstoreMount_mounted hm hf heap
  obtain ⟨_, _, hrec⟩ := zstoreMount_image hm
  rw [reserved_idle hflags hcpu, Except.ok.injEq] at hrec
  have hnil : ∀ t, t ∉ (World.mounted zs heap).zs.txList := by
    intro t ht
    rw [hw.txList] at ht
    exact List.not_mem_nil ht
  have hres : ∀ o, Valid zs.onode o → o < 2 ^ 18 ∧ (zs.onode o).dataIdxId = o := by
    intro o ho
    have hline := hon o ho.1
    have hlt : o < 2 ^ 18 := by
      by_contra hge
      rw [if_neg hge] at hline
      exact absurd ho.2 (by rw [hline, zero_valid]; decide)
    rw [if_pos hlt] at hline
    exact ⟨hlt, by rw [hline, reservedEntry_index _ (by omega)]⟩
  have hempty : ∀ s b, (holding (World.mounted zs heap)).holds s ≠ some b := by
    intro s b hb
    obtain ⟨hval, hj, hne, _⟩ := holding_some.mp hb
    obtain ⟨hlt, hidx⟩ := hres s.1 hval
    have hword : entryWord (World.mounted zs heap) s.1 s.2 =
        indexWord zs.pm (1024 * (zs.onode s.1).dataIdxId + s.2) :=
      entryWord_free fun t ht => absurd ht (hnil t)
    rw [hword, hidx, ← hrec, indexWord_reserved hflags (by omega)] at hne
    exact hne rfl
  refine ⟨hw.wf, hw.logged, ?_, fun t ht => absurd ht (hnil t), fun t ht => absurd ht (hnil t),
    fun o u ho hu heq => ?_, fun o ho _ => ?_,
    ⟨fun s b hb => absurd hb (hempty s b), fun s t b hb => absurd hb (hempty s b)⟩⟩
  · rw [hw.txList]
    exact List.Pairwise.nil
  · have h1 := (hres o ho).2
    have h2 := (hres u hu).2
    exact h1.symm.trans (heq.trans h2)
  · obtain ⟨hlt, hidx⟩ := hres o ho
    have hbit' : bit (World.mounted zs heap).zs.pmAllocator.bs
        ((World.mounted zs heap).zs.onode o).dataIdxId = decide (o < 2 ^ 15) := by
      have heq : ((World.mounted zs heap).zs.onode o).dataIdxId = o := hidx
      rw [heq]
      exact hbit o ho.1
    rw [hbit', decide_eq_true_eq]
    by_cases hsmall : o < 2 ^ 15
    · exact Or.inl hsmall
    · refine Or.inr ⟨rfl, ⟨by omega, hlt, ?_⟩, hidx⟩
      intro hdel
      obtain ⟨t, ht, _⟩ := hdel
      cases ht

theorem sparedInv_mounted (env : Env) (hcpu : cpu < 127) (hp : h.Placed)
    (hm : zstoreMount cpu mflags h (zstoreMkfs stk e nblks flags m) = .ok zs)
    (heap : Nat → ZstoreTransaction) :
    SparedInv env (decide (flags &&& zstoreMkfsReserveObjid ≠ 0)) (World.mounted zs heap) := by
  have hmk : Mounted (World.mounted zs heap) ∧
      Owned (decide (flags &&& zstoreMkfsReserveObjid ≠ 0)) (World.mounted zs heap) := by
    by_cases hflags : flags &&& zstoreMkfsReserveObjid = 0
    · obtain ⟨hw, hnone, hclear, hcount⟩ := mkfs_mounted hflags hcpu hp hm heap
      rw [decide_eq_false (fun hne => hne hflags)]
      exact ⟨hw, (hw.accounted hnone hclear hcount).owned⟩
    · obtain ⟨hf, _⟩ := mount_reserved hflags hcpu hp hm
      rw [decide_eq_true hflags]
      exact ⟨zstoreMount_mounted hm hf heap, reserved_owned hflags hcpu hp hm heap⟩
  obtain ⟨hw, hown⟩ := hmk
  refine ⟨⟨hw.fifoInv, fun f hf => ?_⟩, hown, hw.coherent, fun t ht => ?_, fun t ht => ?_, fun t ht => ?_⟩
  · rw [hw.flight] at hf
    cases hf
  · rw [hw.txList] at ht
    cases ht
  · rw [hw.txList] at ht
    cases ht
  · cases ht

end Start

/-- When every request can wait behind the queue, and every write gets blocks that neither itself
nor a queued write has given back, no write goes to a block that the
persistent index maps, and no create to an index block of an object. -/
theorem blocks_untouched (env : Env) (stk : Image) (e : Nat → OtableEntry) (nblks cpu : Nat)
    (flags mflags : BitVec 32) (m : Image) (h : MountMem) (zs : ZstoreContext)
    (heap : Nat → ZstoreTransaction) (w : World) (hcpu : cpu < 127) (hp : h.Placed)
    (hm : zstoreMount cpu mflags h (zstoreMkfs stk e nblks flags m) = .ok zs)
    (hrun : Run (step env) (SparesBlocks (decide (flags &&& zstoreMkfsReserveObjid ≠ 0)))
      (World.mounted zs heap) w) : Untouched w := by
  have hi : SparedInv env (decide (flags &&& zstoreMkfsReserveObjid ≠ 0)) w :=
    hrun.invariant (sparedInv_mounted env hcpu hp hm heap) fun _ _ _ hi hok hs => hi.step hok hs
  exact hi.untouched

/-- Two blocks of object 1 are written again; the new ones go elsewhere. -/
theorem rewrite_untouched : ∃ w : World, w.accepted = [0, 1, 2] ∧ w.flight.length = 1 ∧
    Untouched w := by
  have hrun : (runActs (step smallEnv) (SparesBlocks false) [createObject 1, .resume, .resume,
      .request ⟨.write, 1, 0, 2 * 4096, 0⟩, .bioDone 0 true, .resume, .resume, .resume,
      .request ⟨.write, 1, 0, 2 * 4096, 0⟩] smallWorld).map
      (fun w => decide (w.accepted = [0, 1, 2] ∧ w.flight.length = 1)) = some true := by
    decide +kernel
  obtain ⟨w, hw, hval⟩ := Option.map_eq_some_iff.mp hrun
  obtain ⟨hacc, hflight⟩ := of_decide_eq_true hval
  exact ⟨w, hacc, hflight, blocks_untouched smallEnv _ _ 512 0 0 0 _ _ _ _ w (by decide)
    ⟨by decide, by decide⟩ smallStore_mount (run_of_runActs .start hw)⟩

/-- The first block of object 1 is written until the hint has gone round the device. The first of
these writes has given block 0 up, and none of them is committed; the last one goes to block 0, which
object 1 still maps in persistent memory. -/
theorem givenBack_touched :
    zstoreMount 0 0 ⟨fun _ => 0, fun _ => 0, 2 ^ 32, fun _ => 0, fun _ => 0⟩
      (zstoreMkfs (fun _ => 0) (fun _ => 0) 512 0 fun _ => 0xff) = .ok smallWorld.zs ∧
    ∃ w : World, Run (step smallEnv) (fun _ a => a ∈ hotActs ∨ a = .request firstBlock) smallWorld w ∧
      w.accepted.length = 513 ∧ w.applied = [0, 1] ∧ CommittedTo w.zs.pm (1, 0) 0 ∧ ¬ Untouched w := by
  have hrun : (runActs (step smallEnv) (fun _ a => a ∈ hotActs ∨ a = .request firstBlock) hotActs
      smallWorld).map (fun w => decide (IsHot w ∧ w.accepted.length = 3 ∧ w.applied = [0, 1] ∧
        Valid (onodeLine w.zs.pm) 1 ∧
        indexWord w.zs.pm (1024 * (onodeLine w.zs.pm 1).dataIdxId + 0) = 0)) = some true := by
    decide +kernel
  obtain ⟨w0, hw0, hval⟩ := Option.map_eq_some_iff.mp hrun
  obtain ⟨hhot, hlen, happ, hvalid, hword⟩ := of_decide_eq_true hval
  have hr0 := run_of_runActs .start hw0
  have hwf : WF w0 := hr0.invariant smallWorld_mounted.wf fun _ _ _ hi _ hs => step_wf hi hs
  obtain ⟨w1, hr1, h1, hlen1⟩ := @Hot.rewritten smallEnv w0 w0 3
    (fun _ a => a ∈ hotActs ∨ a = .request firstBlock) (hhot.hot hwf) (by decide) (fun _ _ => rfl)
    (fun _ => Or.inr rfl) 509 (by decide)
  obtain ⟨w2, buf, hstep, h2, hacc, _, _, hflight⟩ := @Hot.write smallEnv w0 w1 512 h1 (by decide)
    (by decide) fun _ _ => rfl
  have hne : (0 : BitVec 32) ≠ unmapped := by decide
  have hc : CommittedTo w2.zs.pm (1, 0) 0 := by
    rw [h2.pm]
    exact ⟨hvalid, by decide, by rw [hword]; exact hne, by rw [hword]; rfl⟩
  refine ⟨smallStore_mount, w2, (hr0.trans hr1).next _ (Or.inr rfl) hstep, ?_,
    h2.applied.trans happ, hc, fun hun => ?_⟩
  · rw [hacc, List.length_append, hlen1, hlen]
    rfl
  · have hf : ⟨w1.zs.tidMax, Bio.ofExtent .write ⟨512 % 512, 1⟩, buf⟩ ∈ w2.flight := by
      rw [hflight]
      exact List.mem_append_right _ (List.mem_singleton_self _)
    have hcov : (Bio.ofExtent .write ⟨512 % 512, 1⟩).Covers 0 := by decide
    exact hun.blocks _ hf rfl 0 hcov _ hc

end ZCell.Store

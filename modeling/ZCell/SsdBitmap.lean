import ZCell.AllocatorCount
import ZCell.AllocatorLoad
import ZCell.Ownership

/-! The bitmap of the SSD in persistent memory. Each write logs its own copy of the entries in
which an extent begins; the copies of one write after the other give the bitmap of the last one
as long as no write changes a bit of any other entry. -/
namespace ZCell.Store
open Bytes Persist Pm Allocator Runs

/-- The write changes the bit of the block. -/
def Flips (zs : ZstoreContext) (r : Request) (b : Nat) : Prop :=
  if b ∈ takes (released zs r) r.blen then bit zs.ssdAllocator.bs b = false
  else bit zs.ssdAllocator.bs b = true ∧ b ∈ mapped (rangeWords zs r)

/-- An extent that the write releases or takes begins in entry `k`. -/
def BeginsIn (zs : ZstoreContext) (r : Request) (k : Nat) : Prop :=
  (∃ e ∈ oldExtents zs r, e.lba / 512 = k) ∨
  ∃ e ∈ reach (released zs r) r.blen, e.1 = none ∧ e.2 / 512 = k

/-- No extent leads into an entry in which none begins, unless it changes nothing there. -/
def EntriesNamed (zs : ZstoreContext) (r : Request) : Prop :=
  ∀ b ∈ mapped (rangeWords zs r) ++ takes (released zs r) r.blen,
    Flips zs r b → BeginsIn zs r (b / 512)

/-- Each write that passes its checks finds room and changes named entries only. -/
def WritesNamed (w : World) (a : Act) : Prop :=
  ∀ r ∈ callOf w a, r.op = .write → ¬ Refused w.zs r →
    HasRoom (released w.zs r) r.blen ∧ EntriesNamed w.zs r

instance (zs : ZstoreContext) (r : Request) (b : Nat) : Decidable (Flips zs r b) :=
  inferInstanceAs (Decidable (if b ∈ takes (released zs r) r.blen then _ = false else _ ∧ _))

instance (zs : ZstoreContext) (r : Request) (k : Nat) : Decidable (BeginsIn zs r k) :=
  inferInstanceAs (Decidable (_ ∨ _))

instance (zs : ZstoreContext) (r : Request) : Decidable (EntriesNamed zs r) :=
  inferInstanceAs (Decidable (∀ b ∈ _, _))

instance (w : World) (a : Act) : Decidable (WritesNamed w a) :=
  inferInstanceAs (Decidable (∀ r ∈ callOf w a, _))

def IsWrite (w : World) (t : Nat) : Prop := (w.tx t).request.op = .write

instance (w : World) (t : Nat) : Decidable (IsWrite w t) := inferInstanceAs (Decidable (_ = _))

/-- Entry `k` of the allocator right after the prepare function of the last write of the list. -/
def lastWritten (init : BitVec 512) (w : World) (k : Nat) (l : List Nat) : BitVec 512 :=
  ((l.filter fun t => decide (IsWrite w t)).getLast?.map
    fun t => (w.after t).ssdAllocator.bs k).getD init

/-- The write released marked blocks of the device, each once. -/
def ReleasesOnce (w : World) (t : Nat) : Prop :=
  Releasable (w.before t).ssdAllocator (mapped (rangeWords (w.before t) (w.tx t).request))

section Lists
variable {w w' : World} {init : BitVec 512} {k : Nat} {l : List Nat}

theorem lastWritten_snoc (init : BitVec 512) (w : World) (k t : Nat) (l : List Nat) :
    lastWritten init w k (l ++ [t]) =
      if IsWrite w t then (w.after t).ssdAllocator.bs k else lastWritten init w k l :=
  latest_snoc (IsWrite w) _ init l t

theorem lastWritten_congr (h : ∀ t ∈ l, (w'.tx t).request = (w.tx t).request ∧
    w'.after t = w.after t) : lastWritten init w' k l = lastWritten init w k l := by
  refine latest_congr init (fun t ht => ?_) fun t ht => ?_
  · rw [IsWrite, IsWrite, (h t ht).1]
  · rw [(h t ht).2]

end Lists

section Entries
variable {zs zs' : ZstoreContext} {r : Request} {tx : ZstoreTransaction}

/-- The extents begin at the blocks that were taken with no extent open. -/
theorem mem_stitch_lba (w : List (Option Nat × Nat)) (ex : List Extent) (b : Nat) :
    b ∈ (stitch w ex).map Extent.lba ↔
      b ∈ ex.map Extent.lba ∨ ∃ e ∈ w, e.1 = none ∧ e.2 = b := by
  induction w generalizing ex with
  | nil => simp [stitch]
  | cons e w ih =>
    obtain ⟨prev, i⟩ := e
    cases prev with
    | none =>
      rw [stitch, ih]
      simp only [List.map_cons, List.mem_cons, exists_eq_or_imp, true_and]
      rw [eq_comm (a := i), or_comm (a := b = i), or_assoc]
    | some p =>
      have hlba : (grow ex).map Extent.lba = ex.map Extent.lba := by
        cases ex with
        | nil => rfl
        | cons d es => rfl
      rw [stitch, ih, hlba]
      simp

theorem Written.named_iff (h : Written zs r zs' tx) (k : Nat) :
    k ∈ namedEntries zs r ↔ BeginsIn zs r k := by
  obtain ⟨i, _, hi⟩ := alloc_of_room h.blen_pos h.room
  have hnew : (∃ e ∈ newExtents zs r, k = e.lba / 512) ↔
      ∃ e ∈ reach (released zs r) r.blen, e.1 = none ∧ e.2 / 512 = k := by
    rw [newExtents, hi]
    constructor
    · rintro ⟨e, he, rfl⟩
      obtain h | ⟨d, hd, hnone, hlba⟩ := (mem_stitch_lba _ [] e.lba).mp
        (List.mem_map_of_mem (List.mem_reverse.mp he))
      · cases h
      · exact ⟨d, hd, hnone, by rw [hlba]⟩
    · rintro ⟨d, hd, hnone, rfl⟩
      obtain ⟨e, he, hlba⟩ := List.mem_map.mp
        ((mem_stitch_lba (reach (released zs r) r.blen) [] d.2).mpr (Or.inr ⟨d, hd, hnone, rfl⟩))
      exact ⟨e, List.mem_reverse.mpr he, by rw [hlba]⟩
  rw [namedEntries, List.mem_append, mem_lbaToBitmapId, mem_lbaToBitmapId, hnew, BeginsIn]
  simp only [eq_comm (a := k)]

/-- An entry that is not logged is the same before and after the write. -/
theorem Written.unnamed (h : Written zs r zs' tx) (hnamed : EntriesNamed zs r) {k : Nat}
    (hk : k ∉ namedEntries zs r) : (newSsd zs r).bs k = zs.ssdAllocator.bs k := by
  have hbit : ∀ b, b / 512 = k → bit (newSsd zs r).bs b = bit zs.ssdAllocator.bs b := by
    intro b hb
    by_contra hne
    rw [h.newSsd_bs, bit_setAll, bit_released] at hne
    refine hk ((h.named_iff k).mpr (hb ▸ hnamed b ?_ ?_))
    · by_contra hno
      rw [List.mem_append, not_or] at hno
      simp [hno] at hne
    · unfold Flips
      by_cases ht : b ∈ takes (released zs r) r.blen
      · simpa [ht] using hne
      · simpa [ht] using hne
  apply BitVec.eq_of_getLsbD_eq
  intro j hj
  have hb := hbit (512 * k + j) (by omega)
  rwa [bit, bit, show (512 * k + j) / 512 = k by omega, show (512 * k + j) % 512 = j by omega] at hb

theorem Written.counted (h : Written zs r zs' tx)
    (hle : freeCount zs.ssdAllocator.bs zs.ssdAllocator.nrTotal ≤ zs.ssdAllocator.nrFree) :
    freeCount (newSsd zs r).bs zs.ssdAllocator.nrTotal ≤ (newSsd zs r).nrFree ∧
    (Counted (newSsd zs r) ↔
      Counted zs.ssdAllocator ∧ Releasable zs.ssdAllocator (mapped (rangeWords zs r))) := by
  have htotal : (newSsd zs r).nrTotal = zs.ssdAllocator.nrTotal := by
    obtain ⟨i, _, hi⟩ := alloc_of_room h.blen_pos h.room
    rw [newSsd, hi]
    rfl
  have halloc := alloc_counted h.blen_pos h.room
  obtain ⟨h1, h2⟩ := release_counted (oldExtents zs r) hle
  rw [oldExtents, blocks_merge] at h2
  rw [← h2]
  simp only [Counted, htotal] at h2 ⊢
  rw [← newSsd, released_total] at halloc
  simp only [released, oldExtents] at halloc h1 h2 ⊢
  have hrel : (stupidFreeSpace zs.ssdAllocator (objectLbaMergeTo (rangeWords zs r)).1).nrTotal =
      zs.ssdAllocator.nrTotal := rfl
  rw [hrel]
  omega

end Entries

structure SsdInv (init : Nat → BitVec 512) (w : World) : Prop where
  wf : WF w
  logged : Logged w
  pages : w.zs.zsb.ssdNrPages = w.zs.ssdAllocator.nrTotal
  disk : ∀ k < w.zs.ssdAllocator.nrEntrys, ssdLine w.zs.pm k = lastWritten (init k) w k w.applied
  -- each queued write found the bitmap that the write before it has left
  chain : ∀ pre t suf, w.zs.txList = pre ++ t :: suf → IsWrite w t →
    (∀ k, (w.before t).ssdAllocator.bs k = lastWritten (init k) w k (w.applied ++ pre)) ∧
    EntriesNamed (w.before t) (w.tx t).request
  last : ∀ k, w.zs.ssdAllocator.bs k = lastWritten (init k) w k (w.applied ++ w.zs.txList)
  free_le : freeCount w.zs.ssdAllocator.bs w.zs.ssdAllocator.nrTotal ≤ w.zs.ssdAllocator.nrFree
  counted : Counted w.zs.ssdAllocator ↔ ∀ t ∈ w.accepted, IsWrite w t → ReleasesOnce w t

section Steps
variable {env : Env} {w w' : World} {a : Act} {init : Nat → BitVec 512}

theorem SsdInv.same (hi : SsdInv init w) (hstep : step env a w = some w') :
    (∀ t < w.zs.tidMax, (IsWrite w' t ↔ IsWrite w t) ∧ (ReleasesOnce w' t ↔ ReleasesOnce w t) ∧
      (w'.tx t).request = (w.tx t).request ∧ w'.before t = w.before t ∧ w'.after t = w.after t) ∧
    (∀ l : List Nat, (∀ t ∈ l, t < w.zs.tidMax) → ∀ init k,
      lastWritten init w' k l = lastWritten init w k l) := by
  have hkeep := (step_keeps hi.wf hstep).2
  refine ⟨fun t ht => ?_, fun l hl init k => lastWritten_congr fun t ht => ?_⟩
  · obtain ⟨h1, h2, h3⟩ := hkeep t ht
    exact ⟨by rw [IsWrite, IsWrite, h1.1], by rw [ReleasesOnce, ReleasesOnce, h1.1, h2], h1.1, h2, h3⟩
  · obtain ⟨h1, _, h3⟩ := hkeep t (hl t ht)
    exact ⟨h1.1, h3⟩

theorem SsdInv.applied_lt (hi : SsdInv init w) {l : List Nat} (hl : ∀ t ∈ l, t ∈ w.zs.txList) :
    ∀ t ∈ w.applied ++ l, t < w.zs.tidMax := by
  intro t ht
  obtain ht | ht := List.mem_append.mp ht
  · exact hi.logged.2 t ht
  · exact (hi.wf.queued t (hl t ht)).tid_lt

/-- Nothing that the bitmap depends on changes. -/
theorem SsdInv.keep (hi : SsdInv init w) (hstep : step env a w = some w')
    (hzsb : w'.zs.zsb = w.zs.zsb) (hpm : w'.zs.pm = w.zs.pm) (hal : w'.zs.ssdAllocator = w.zs.ssdAllocator)
    (hlist : w'.zs.txList = w.zs.txList) (happ : w'.applied = w.applied)
    {l : List Nat} (hacc : w'.accepted = w.accepted ++ l) (hl : ∀ t ∈ l, ¬ IsWrite w' t) :
    SsdInv init w' := by
  obtain ⟨hk, hlast⟩ := hi.same hstep
  refine ⟨step_wf hi.wf hstep, step_logged hi.wf hi.logged hstep, by rw [hzsb, hal, hi.pages],
    fun k hlt => ?_, fun pre t suf hcut hw => ?_, fun k => ?_, ?_, ?_⟩
  · rw [hal] at hlt
    rw [hpm, happ, hlast _ hi.logged.2]
    exact hi.disk k hlt
  · rw [hlist] at hcut
    have hmem : ∀ x ∈ pre ++ t :: suf, x ∈ w.zs.txList := fun x hx => hcut ▸ hx
    obtain ⟨h1, _, h2, h3, _⟩ := hk t (hi.wf.queued t (hmem t (by simp))).tid_lt
    obtain ⟨g1, g2⟩ := hi.chain pre t suf hcut (h1.mp hw)
    refine ⟨fun k => ?_, by rw [h2, h3]; exact g2⟩
    rw [h3, happ, hlast _ (hi.applied_lt fun x hx => hmem x (by simp [hx]))]
    exact g1 k
  · rw [hal, hlist, happ, hlast _ (hi.applied_lt fun x hx => hx)]
    exact hi.last k
  · rw [hal]
    exact hi.free_le
  · rw [hal, hacc, hi.counted, List.forall_mem_append]
    constructor
    · refine fun h => ⟨fun t ht hw => ?_, fun t ht hw => absurd hw (hl t ht)⟩
      obtain ⟨h1, h2, _⟩ := hk t (hi.logged.1 t ht)
      exact h2.mpr (h t ht (h1.mp hw))
    · rintro ⟨h, -⟩ t ht hw
      obtain ⟨h1, h2, _⟩ := hk t (hi.logged.1 t ht)
      exact h2.mp (h t ht (h1.mpr hw))

theorem SsdInv.commit {tid : Nat} {p : PmemTransaction} (hi : SsdInv init w)
    (hstep : step env a w = some w') (hc : Commits w w' tid p) : SsdInv init w' := by
  obtain ⟨hk, hlast⟩ := hi.same hstep
  obtain ⟨n, hzs⟩ := hc.zs
  have hal : w'.zs.ssdAllocator = w.zs.ssdAllocator := by rw [hzs]
  have hmem : ∀ x ∈ tid :: w'.zs.txList, x ∈ w.zs.txList := fun x hx => hc.head ▸ hx
  have hq := hi.wf.queued tid (hmem tid (by simp))
  have heff := hc.effect hi.wf
  have happ : ∀ l, w'.applied ++ l = w.applied ++ tid :: l := by
    intro l
    rw [hc.applied, List.append_assoc, List.singleton_append]
  refine ⟨step_wf hi.wf hstep, step_logged hi.wf hi.logged hstep, by rw [hal, hzs, hi.pages],
    fun k hlt => ?_, fun pre t suf hcut hw => ?_, fun k => ?_, ?_, ?_⟩
  · rw [hal] at hlt
    have hf := hi.wf.formatted
    have hle : k < 2 ^ 19 := by
      have h1 := hf.ssdTotal
      have h2 := hf.ssdEntrys
      omega
    obtain ⟨h1, _, _, _, h3⟩ := hk tid hq.tid_lt
    rw [heff.ssd k hle, hc.applied, lastWritten_snoc, hlast _ hi.logged.2, hi.disk k hlt, h3]
    by_cases hw : IsWrite w tid
    · obtain ⟨tx, hacc, _⟩ := hq.accepted
      have hwr : Written (w.before tid) (w.tx tid).request (w.after tid) tx := by
        cases hacc with
        | write _ h => exact h
        | create hop _ => rw [IsWrite, hop] at hw; cases hw
        | delete hop _ => rw [IsWrite, hop] at hw; cases hw
      rw [if_pos (h1.mpr hw), hwr.store]
      by_cases hnamed : k ∈ namedEntries (w.before tid) (w.tx tid).request
      · rw [if_pos ⟨hw, hnamed⟩]
      · obtain ⟨h1, h2⟩ := hi.chain [] tid w'.zs.txList hc.head hw
        have hprev := h1 k
        rw [List.append_nil] at hprev
        rw [if_neg fun h => hnamed h.2, ← hprev, hwr.unnamed h2 hnamed]
    · rw [if_neg fun h => hw (h1.mp h), if_neg fun h => hw h.1]
  · have hcut' : w.zs.txList = (tid :: pre) ++ t :: suf := by
      rw [hc.head, hcut]
      rfl
    obtain ⟨h1, _, h2, h3, _⟩ := hk t (hi.wf.queued t (by rw [hcut']; simp)).tid_lt
    obtain ⟨g1, g2⟩ := hi.chain (tid :: pre) t suf hcut' (h1.mp hw)
    have hpre : ∀ x ∈ tid :: pre, x ∈ w.zs.txList := by
      intro x hx
      rw [hcut']
      exact List.mem_append_left _ hx
    refine ⟨fun k => ?_, by rw [h2, h3]; exact g2⟩
    rw [happ, h3, hlast _ (hi.applied_lt hpre)]
    exact g1 k
  · rw [hal, happ, ← hc.head, hlast _ (hi.applied_lt fun x hx => hx)]
    exact hi.last k
  · rw [hal]
    exact hi.free_le
  · rw [hal, hc.accepted, hi.counted]
    refine forall₂_congr fun t ht => ?_
    obtain ⟨h1, h2, _⟩ := hk t (hi.logged.1 t ht)
    rw [h1, h2]

/-- An accepted request joins the end of the queue; its prepare function saw the allocator as the
last write had left it. -/
theorem SsdInv.enqueue {r : Request} {zs : ZstoreContext} {tx : ZstoreTransaction} {n : Nat}
    (hi : SsdInv init w) (hstep : step env a w = some w') (ha : Accepts r w w' zs tx)
    (hacc : Accepted w.zs r zs tx) (hzs : w'.zs = { zs with
      txOutstanding := n, txList := zs.txList ++ [w.zs.tidMax] })
    (hok : r.op = .write → EntriesNamed w.zs r) : SsdInv init w' := by
  obtain ⟨hk, hlast⟩ := hi.same hstep
  have hf := hi.wf.formatted
  obtain ⟨_, hzsb, _, _, hlist, _⟩ := hacc.formatted hf
  have hzsb' : w'.zs.zsb = w.zs.zsb := by rw [hzs, hzsb]
  have hlist' : w'.zs.txList = w.zs.txList ++ [w.zs.tidMax] := by rw [hzs, hlist]
  have hreq : (w'.tx w.zs.tidMax).request = r := ha.request_self
  have hbefore : w'.before w.zs.tidMax = w.zs := ha.before_self
  have hafter : w'.zs.ssdAllocator = (w'.after w.zs.tidMax).ssdAllocator := by
    rw [hzs, ha.after, Function.update_self]
  have hwrite : IsWrite w' w.zs.tidMax → Written w.zs r zs tx ∧ w'.zs.ssdAllocator = newSsd w.zs r := by
    intro hw
    rw [IsWrite, hreq] at hw
    cases hacc with
    | write _ h => exact ⟨h, by rw [hzs, h.store]⟩
    | create hop _ => rw [hop] at hw; cases hw
    | delete hop _ => rw [hop] at hw; cases hw
  have hother : ¬ IsWrite w' w.zs.tidMax → w'.zs.ssdAllocator = w.zs.ssdAllocator := by
    intro hw
    rw [IsWrite, hreq] at hw
    cases hacc with
    | write hop _ => exact absurd hop hw
    | create _ h => rw [hzs, h.store]
    | delete _ h => rw [hzs, h.store]
  have hsame : w'.zs.ssdAllocator.nrEntrys = w.zs.ssdAllocator.nrEntrys ∧
      w'.zs.ssdAllocator.nrTotal = w.zs.ssdAllocator.nrTotal := by
    by_cases hw : IsWrite w' w.zs.tidMax
    · obtain ⟨hwr, hal⟩ := hwrite hw
      obtain ⟨i, _, hi⟩ := alloc_of_room hwr.blen_pos hwr.room
      rw [hal, newSsd, hi]
      exact ⟨rfl, rfl⟩
    · rw [hother hw]
      exact ⟨rfl, rfl⟩
  refine ⟨step_wf hi.wf hstep, step_logged hi.wf hi.logged hstep,
    by rw [hzsb', hsame.2, hi.pages], fun k hlt => ?_, fun pre t suf hcut hw => ?_, fun k => ?_,
    ?_, ?_⟩
  · rw [hsame.1] at hlt
    have hle : k < 2 ^ 19 := by
      have h1 := hf.ssdTotal
      have h2 := hf.ssdEntrys
      omega
    have hpm : ssdLine w'.zs.pm k = ssdLine w.zs.pm k := by
      rw [hzs]
      exact hacc.ssdLine_eq hf hle
    rw [hpm, ha.applied, hlast _ hi.logged.2]
    exact hi.disk k hlt
  · rw [ha.applied]
    rw [hlist'] at hcut
    obtain rfl | ⟨suf, x, rfl⟩ := List.eq_nil_or_concat suf
    · obtain ⟨rfl, h2⟩ := List.append_inj' hcut rfl
      obtain rfl := List.head_eq_of_cons_eq h2
      rw [hbefore, hreq]
      refine ⟨fun k => ?_, hok (hreq ▸ hw)⟩
      rw [hlast _ (hi.applied_lt fun x hx => hx)]
      exact hi.last k
    · have hcut' : w.zs.txList ++ [w.zs.tidMax] = (pre ++ t :: suf) ++ [x] := by simpa using hcut
      obtain ⟨hpre, _⟩ := List.append_inj' hcut' rfl
      obtain ⟨h1, _, h2, h3, _⟩ := hk t (hi.wf.queued t (by rw [hpre]; simp)).tid_lt
      obtain ⟨g1, g2⟩ := hi.chain pre t suf hpre (h1.mp hw)
      refine ⟨fun k => ?_, by rw [h2, h3]; exact g2⟩
      rw [h3, hlast _ (hi.applied_lt fun x hx => by rw [hpre]; simp [hx])]
      exact g1 k
  · rw [ha.applied, hlist', ← List.append_assoc, lastWritten_snoc]
    by_cases hw : IsWrite w' w.zs.tidMax
    · rw [if_pos hw, hafter]
    · rw [if_neg hw, hother hw, hlast _ (hi.applied_lt fun x hx => hx)]
      exact hi.last k
  · by_cases hw : IsWrite w' w.zs.tidMax
    · obtain ⟨hwr, hal⟩ := hwrite hw
      rw [hsame.2, hal]
      exact (hwr.counted hi.free_le).1
    · rw [hother hw]
      exact hi.free_le
  · have hold : (∀ t ∈ w.accepted, IsWrite w' t → ReleasesOnce w' t) ↔
        ∀ t ∈ w.accepted, IsWrite w t → ReleasesOnce w t := by
      refine forall₂_congr fun t ht => ?_
      obtain ⟨h1, h2, _⟩ := hk t (hi.logged.1 t ht)
      rw [h1, h2]
    rw [ha.accepted, List.forall_mem_append, hold, ← hi.counted]
    simp only [List.mem_singleton, forall_eq]
    by_cases hw : IsWrite w' w.zs.tidMax
    · obtain ⟨hwr, hal⟩ := hwrite hw
      rw [hal, (hwr.counted hi.free_le).2, ReleasesOnce, hbefore, hreq]
      simp only [hw, true_implies]
    · rw [hother hw]
      simp only [hw, false_implies, and_true]

theorem SsdInv.step (hi : SsdInv init w) (hok : WritesNamed w a)
    (hstep : Store.step env a w = some w') : SsdInv init w' := by
  obtain hq | ⟨r, hr, ⟨rc, tx, hrej⟩ | ⟨zs, tx, ha⟩⟩ | ⟨tid, p, hc⟩ := step_cases hi.wf hstep
  · exact hi.keep hstep hq.zs.zsb hq.zs.pm hq.zs.ssdAllocator hq.zs.txList hq.applied
      (hq.accepted.trans (List.append_nil _).symm) fun t ht => absurd ht List.not_mem_nil
  · have hfr := (prepare_rejected hi.wf.formatted.shift hrej.rc_ne hrej.prepare).frame
    obtain hal | ⟨hop, hchk, _, hno, _⟩ := hrej.ssd hi.wf.formatted
    · exact hi.keep hstep (by rw [hfr]) (by rw [hfr]) hal (by rw [hfr]) hrej.applied
        (hrej.accepted.trans (List.append_nil _).symm) fun t ht => absurd ht List.not_mem_nil
    · exact absurd (hok r hr hop hchk).1 hno
  · obtain ⟨hop, hread, n, l, hzs⟩ | ⟨hacc, n, hzs⟩ := ha.kind
    · refine hi.keep hstep (by rw [hzs, hread.store]) (by rw [hzs, hread.store])
        (by rw [hzs, hread.store]) (by rw [hzs, hread.store]) ha.applied ha.accepted fun t ht => ?_
      obtain rfl := List.mem_singleton.mp ht
      rw [IsWrite, ha.request_self, hop]
      decide
    · refine hi.enqueue hstep ha hacc hzs fun hop => ?_
      cases hacc with
      | write _ h => exact (hok r hr hop h.checked).2
      | create hop' _ => rw [hop] at hop'; cases hop'
      | delete hop' _ => rw [hop] at hop'; cases hop'
  · exact hi.commit hstep hc

end Steps

theorem loadedAllocator_counted (b : Nat → BitVec 512) (n : Nat) (pm : Image) (ofst : Nat) :
    Counted (loadedAllocator b n pm ofst) := by
  have hentrys : (stupidAllocatorConstructor b n).nrEntrys = (n + 511) / 512 := rfl
  have hmin : min ((n + 511) / 512 * 512) n = n := by omega
  rw [Counted, loadedAllocator, hentrys,
    loadEntries_spec b (fun i => lineAt pm (ofst + 64 * i)) n _ (Nat.le_refl _), hmin]
  exact (freeCount_eq _ _).symm

/-- Of the allocator that mount builds, the entries are those of the image, and the free count is
right. -/
theorem zstoreMount_ssd {cpu : Nat} {flags : BitVec 32} {h : MountMem} {m : Image}
    {zs : ZstoreContext} (hm : zstoreMount cpu flags h m = .ok zs) (hf : Formatted zs) :
    zs.zsb.ssdNrPages = zs.ssdAllocator.nrTotal ∧
    (∀ k < zs.ssdAllocator.nrEntrys, ssdLine zs.pm k = zs.ssdAllocator.bs k) ∧
    Counted zs.ssdAllocator := by
  have hal := (zstoreMount_loaded hm).1
  obtain ⟨h1, h2⟩ := loadedAllocator_total h.ssdBs zs.zsb.ssdNrPages zs.pm zs.zsb.pmSsdBitmapOfst
  refine ⟨by rw [hal, h1], fun k hk => ?_, ?_⟩
  · rw [hal, h2] at hk
    rw [hal, loadedAllocator_bs _ _ _ _ hk, hf.ssdBitmap, ssdLine]
  · rw [hal]
    exact loadedAllocator_counted ..

/-- When every write finds room and changes no bit but in entries in which one of its extents
begins, the persistent bitmap is after every commit the one that the last committed write left in
memory. Once no write is queued, a remount loads the bits of the allocator; it counts as many free
blocks as the allocator does exactly when no write has released a block that was free. -/
theorem ssdBitmap_follows (env : Env) (cpu : Nat) (flags : BitVec 32) (h : MountMem) (m : Image)
    (zs : ZstoreContext) (heap : Nat → ZstoreTransaction) (w : World)
    (hm : zstoreMount cpu flags h m = .ok zs) (hf : Formatted zs)
    (hrun : Run (step env) WritesNamed (World.mounted zs heap) w) :
    (∀ k < w.zs.ssdAllocator.nrEntrys,
      ssdLine w.zs.pm k = lastWritten (zs.ssdAllocator.bs k) w k w.applied) ∧
    ((∀ t ∈ w.zs.txList, ¬ IsWrite w t) → ∀ b : Nat → BitVec 512, ∃ a,
      loadAllocator b w.zs.zsb.ssdNrPages w.zs.pm w.zs.zsb.pmSsdBitmapOfst = .ok a ∧
      (∀ i < w.zs.ssdAllocator.nrTotal, bit a.bs i = bit w.zs.ssdAllocator.bs i) ∧
      (a.nrFree = w.zs.ssdAllocator.nrFree ↔
        ∀ t ∈ w.accepted, IsWrite w t → ReleasesOnce w t)) := by
  have hm0 := zstoreMount_mounted hm hf heap
  obtain ⟨hpages, hssd, hcount⟩ := zstoreMount_ssd hm hf
  have h0 : SsdInv zs.ssdAllocator.bs (World.mounted zs heap) := by
    refine ⟨hm0.wf, hm0.logged, hpages, hssd, fun pre t suf hcut => ?_, fun k => ?_,
      Nat.le_of_eq hcount.symm, ?_⟩
    · rw [hm0.txList] at hcut
      simp at hcut
    · rw [hm0.txList]
      rfl
    · have hnil : (World.mounted zs heap).accepted = [] := rfl
      rw [hnil]
      exact ⟨fun _ t ht => absurd ht List.not_mem_nil, fun _ => hcount⟩
  have hi : SsdInv zs.ssdAllocator.bs w := hrun.invariant h0 fun _ _ _ hi hok hs => hi.step hok hs
  have hfull : w.zs.zsb.ssdNrPages % 512 = 0 := by
    have hzsb : WF w ∧ w.zs.zsb = zs.zsb :=
      @Run.invariant _ _ _ _ _ (fun w => WF w ∧ w.zs.zsb = zs.zsb) ⟨hm0.wf, rfl⟩
        (fun _ _ _ hi _ hs => ⟨step_wf hi.1 hs, (step_zsb hi.1 hs).trans hi.2⟩) _ hrun
    rw [hzsb.2, (zstoreMount_image hm).1]
    exact zstoreMount_full hm
  refine ⟨hi.disk, fun hidle b => ⟨_, loadAllocator_ok.mpr ⟨hfull, rfl⟩, ?_⟩⟩
  have hf' := hi.wf.formatted
  have hline : ∀ k < w.zs.ssdAllocator.nrEntrys, ssdLine w.zs.pm k = w.zs.ssdAllocator.bs k := by
    intro k hk
    have hnone : w.zs.txList.filter (fun t => decide (IsWrite w t)) = [] := by
      rw [List.filter_eq_nil_iff]
      intro t ht
      simpa using hidle t ht
    rw [hi.disk k hk, hi.last k, lastWritten, lastWritten, List.filter_append, hnone,
      List.append_nil]
  have hbits : ∀ i < w.zs.ssdAllocator.nrTotal, bit (loadedAllocator b w.zs.zsb.ssdNrPages w.zs.pm
      w.zs.zsb.pmSsdBitmapOfst).bs i = bit w.zs.ssdAllocator.bs i := by
    intro i hlt
    have hk : i / 512 < w.zs.ssdAllocator.nrEntrys := by
      rw [hf'.ssdEntrys]
      omega
    rw [bit, bit, ← hline _ hk, hi.pages, loadedAllocator_bs _ _ _ _ (by omega), hf'.ssdBitmap,
      ssdLine]
  refine ⟨hbits, ?_⟩
  have hfree := @loadedAllocator_counted b w.zs.zsb.ssdNrPages w.zs.pm w.zs.zsb.pmSsdBitmapOfst
  rw [Counted, (loadedAllocator_total ..).1, hi.pages, freeCount_congr (by rwa [hi.pages] at hbits)]
    at hfree
  rw [← hi.counted, Counted, hi.pages, hfree]
  exact eq_comm

/-- Object 1 is created and written on a fresh store. -/
theorem firstWrite_ssdBitmap : ∃ w : World, w.applied = [0, 1] ∧ w.zs.ssdAllocator.bs 0 = 1 ∧
    ∀ k < w.zs.ssdAllocator.nrEntrys,
      ssdLine w.zs.pm k = lastWritten (smallStore.ssdAllocator.bs k) w k w.applied := by
  have hrun : (runActs (step smallEnv) WritesNamed [.request ⟨.create, 1, 0, 0, 0⟩, .resume,
      .resume, .request ⟨.write, 1, 0, 4096, 0⟩, .bioDone 0 true, .resume, .resume] smallWorld).map
      (fun w => decide (w.applied = [0, 1] ∧ w.zs.ssdAllocator.bs 0 = 1)) = some true := by
    decide +kernel
  obtain ⟨w, hw, hval⟩ := Option.map_eq_some_iff.mp hrun
  obtain ⟨happ, hbit⟩ := of_decide_eq_true hval
  exact ⟨w, happ, hbit, (ssdBitmap_follows smallEnv 0 0 _ _ smallStore _ w smallStore_mount
    smallWorld_mounted.formatted (run_of_runActs .start hw)).1⟩

/-- The small image for a device of `n` blocks. -/
def freshImage (n : Nat) : Image := fun a =>
  if a < 4096 then storeAll (fun _ => 0) (superblockFields n (2 ^ 20)) a
  else if a < 98 * 2 ^ 20 then 0 else 0xff

/-- The image of a device of 1024 blocks, the first 511 of which are in use. -/
def usedImage : Image := store (freshImage 1024) (2 ^ 20) (lineBytes (BitVec.ofNat 512 (2 ^ 511 - 1)))

def usedStore : ZstoreContext :=
  { freshStore 0 0 ⟨fun _ => 0, fun _ => 0, 2 ^ 32, fun _ => 0, fun _ => 0⟩ 1024 usedImage with
    ssdAllocator := ⟨fun k => if k = 0 then BitVec.ofNat 512 (2 ^ 511 - 1) else 0, 513, 1024, 2, 0⟩ }

theorem usedImage_at {a : Nat} (ha : a < 2 ^ 20 ∨ 2 ^ 20 + 64 ≤ a) :
    usedImage a = freshImage 1024 a := by
  rw [usedImage, store_outside _ _ _ _ (by rw [lineBytes_length]; omega)]

theorem usedStore_mount :
    zstoreMount 0 0 ⟨fun _ => 0, fun _ => 0, 2 ^ 32, fun _ => 0, fun _ => 0⟩ usedImage =
      .ok usedStore := by
  have hsb : Superblock.read usedImage = mkfsSuperblock 1024 := by
    apply superblock_read (by decide)
    intro a ha
    rw [usedImage_at (by omega), freshImage, if_pos ha]
  have hz : ∀ a, 4096 ≤ a → a < 98 * 2 ^ 20 → a < 2 ^ 20 ∨ 2 ^ 20 + 64 ≤ a → usedImage a = 0 := by
    intro a h1 h2 h3
    rw [usedImage_at h3, freshImage, if_neg (by omega), if_pos h2]
  have hline : ∀ k < 2, lineAt usedImage (2 ^ 20 + 64 * k) =
      if k = 0 then BitVec.ofNat 512 (2 ^ 511 - 1) else 0 := by
    intro k hk
    split
    · rename_i h0
      rw [h0, Nat.mul_zero, Nat.add_zero, usedImage, lineAt_store_same]
    · exact lineAt_zero fun i hi => hz _ (by omega) (by omega) (Or.inr (by omega))
  have hbs : (fun k => if k < 2 then lineAt usedImage (2 ^ 20 + 64 * k) else 0) =
      fun k => if k = 0 then BitVec.ofNat 512 (2 ^ 511 - 1) else 0 := by
    funext k
    by_cases hk : k < 2
    · rw [if_pos hk, hline k hk]
    · rw [if_neg hk, if_neg (by omega)]
  have hcount : zeroCount (fun k => if k = 0 then BitVec.ofNat 512 (2 ^ 511 - 1) else 0) 0 1024 =
      513 := by decide +kernel
  have hload : loadedAllocator (fun _ => 0) 1024 usedImage (2 ^ 20) = usedStore.ssdAllocator := by
    have hentrys : (stupidAllocatorConstructor (fun _ => 0) 1024).nrEntrys = 2 := rfl
    rw [loadedAllocator, hentrys, loadEntries_spec (fun _ => 0)
      (fun i => lineAt usedImage (2 ^ 20 + 64 * i)) 1024 2 (by decide), hbs]
    simp only [Nat.reduceMul, Nat.min_self, hcount]
    rfl
  rw [mount_blank hsb (by decide) (by decide) (fun a h1 h2 h3 => hz a h1 h2 (by omega)), hload]
  rfl

/-- Object 1 is created there, and the write of two of its blocks takes 511 and 512 as one extent:
entry 1 is not logged, and a remount finds block 512 free. -/
theorem crossingWrite_lost :
    zstoreMount 0 0 ⟨fun _ => 0, fun _ => 0, 2 ^ 32, fun _ => 0, fun _ => 0⟩ usedImage =
      .ok usedStore ∧ ∃ w : World,
    Run (step smallEnv) (fun _ _ => True) (World.mounted usedStore smallWorld.tx) w ∧
    w.accepted = [0, 1] ∧ w.applied = [0, 1] ∧ w.zs.txList = [] ∧ w.zs.ssdAllocator.bs 1 = 1 ∧
    ssdLine w.zs.pm 1 = 0 ∧
    ¬ ∀ k < w.zs.ssdAllocator.nrEntrys,
      ssdLine w.zs.pm k = lastWritten (usedStore.ssdAllocator.bs k) w k w.applied := by
  have hrun : (runActs (step smallEnv) (fun _ _ => True) [.request ⟨.create, 1, 0, 0, 0⟩, .resume,
      .resume, .request ⟨.write, 1, 0, 2 * 4096, 0⟩, .bioDone 0 true, .resume, .resume]
      (World.mounted usedStore smallWorld.tx)).map
      (fun w => decide (w.accepted = [0, 1] ∧ w.applied = [0, 1] ∧ w.zs.txList = [] ∧
        w.zs.ssdAllocator.bs 1 = 1 ∧ ssdLine w.zs.pm 1 = 0 ∧ w.zs.ssdAllocator.nrEntrys = 2 ∧
        lastWritten (usedStore.ssdAllocator.bs 1) w 1 w.applied = 1)) = some true := by
    decide +kernel
  obtain ⟨w, hw, hval⟩ := Option.map_eq_some_iff.mp hrun
  obtain ⟨h1, h2, h3, h4, h5, h6, h7⟩ := of_decide_eq_true hval
  refine ⟨usedStore_mount, w, run_of_runActs .start hw, h1, h2, h3, h4, h5, fun hall => ?_⟩
  have hk := hall 1 (by omega)
  rw [h5, h7] at hk
  exact absurd hk (by decide +kernel)

end ZCell.Store

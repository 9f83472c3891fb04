import ZCell.OnodeTable

/-! The bitmap of the dynamic space. A create logs the entry of the block it takes; a delete
releases its block in memory only, so the entry in persistent memory stays as the last create
left it. -/
namespace ZCell.Store
open Bytes Persist Pm Allocator Runs

/-- No create that passes its checks is turned down for want of an index block. -/
def CreatesFit (w : World) (a : Act) : Prop :=
  ∀ r ∈ callOf w a, r.op = .create → (w.zs.onode r.object).valid = false →
    r.object < w.zs.zsb.onodesRsv → HasRoom w.zs.pmAllocator 1

instance (w : World) (a : Act) : Decidable (CreatesFit w a) :=
  inferInstanceAs (Decidable (∀ r ∈ callOf w a, _))

/-- Transaction `t` took its index block from entry `k` of the bitmap. -/
def TakesFrom (w : World) (k t : Nat) : Prop :=
  (w.tx t).request.op = .create ∧ newIndex (w.before t) / 512 = k

/-- The index block that a delete releases. -/
def oldIndex (w : World) (t : Nat) : Nat :=
  ((w.before t).onode (w.tx t).request.object).dataIdxId

/-- Transaction `t` cleared a bit of entry `k`. -/
def ClearsIn (w : World) (k t : Nat) : Prop :=
  (w.tx t).request.op = .delete ∧ oldIndex w t / 512 = k ∧
  bit (w.before t).pmAllocator.bs (oldIndex w t) = true

instance (w : World) (k t : Nat) : Decidable (TakesFrom w k t) :=
  inferInstanceAs (Decidable (_ ∧ _))

instance (w : World) (k t : Nat) : Decidable (ClearsIn w k t) :=
  inferInstanceAs (Decidable (_ ∧ _))

/-- A bit of entry `k` was cleared, and no index block of the entry has been taken since. -/
def Unsaved (w : World) (k : Nat) : Prop :=
  ∃ pre t suf, w.accepted = pre ++ t :: suf ∧ ClearsIn w k t ∧ ∀ u ∈ suf, ¬ TakesFrom w k u

/-- Entry `k` as the last transaction of the list that took a block of it left it. -/
def lastSaved (init : BitVec 512) (w : World) (k : Nat) (l : List Nat) : BitVec 512 :=
  ((l.filter fun t => decide (TakesFrom w k t)).getLast?.map
    fun t => (newPm (w.before t)).bs k).getD init

/-- The persistent bitmap is the one in memory. -/
def Persisted (zs : ZstoreContext) : Prop := ∀ k < 2 ^ 11, dyLine zs.pm k = zs.pmAllocator.bs k

/-- What the bitmap in memory is, given the entry that the accepted requests log. -/
def Tracked (w : World) (k : Nat) (saved : BitVec 512) : Prop :=
  (Unsaved w k ∧ ∃ i, i / 512 = k ∧ bit (fun _ => saved) i = true ∧
    bit w.zs.pmAllocator.bs i = false) ∨
  (¬ Unsaved w k ∧ w.zs.pmAllocator.bs k = saved)

section Lists
variable {w w' : World} {init : BitVec 512} {k : Nat} {l : List Nat} {t : Nat}

theorem lastSaved_snoc (init : BitVec 512) (w : World) (k t : Nat) (l : List Nat) :
    lastSaved init w k (l ++ [t]) =
      if TakesFrom w k t then (newPm (w.before t)).bs k else lastSaved init w k l :=
  latest_snoc (TakesFrom w k) _ init l t

theorem lastSaved_congr (h : ∀ t ∈ l, (w'.tx t).request = (w.tx t).request ∧
    w'.before t = w.before t) : lastSaved init w' k l = lastSaved init w k l := by
  refine latest_congr init (fun t ht => ?_) fun t ht => ?_
  · rw [TakesFrom, TakesFrom, (h t ht).1, (h t ht).2]
  · rw [(h t ht).2]

/-- What is unsaved after one more request. -/
theorem unsaved_snoc (hacc : w'.accepted = w.accepted ++ [t])
    (h : ∀ t ∈ w.accepted, (w'.tx t).request = (w.tx t).request ∧ w'.before t = w.before t) :
    Unsaved w' k ↔ ClearsIn w' k t ∨ (Unsaved w k ∧ ¬ TakesFrom w' k t) := by
  have hclear : ∀ u ∈ w.accepted, (ClearsIn w' k u ↔ ClearsIn w k u) := by
    intro u hu
    rw [ClearsIn, ClearsIn, oldIndex, oldIndex, (h u hu).1, (h u hu).2]
  have htake : ∀ u ∈ w.accepted, (TakesFrom w' k u ↔ TakesFrom w k u) := by
    intro u hu
    rw [TakesFrom, TakesFrom, (h u hu).1, (h u hu).2]
  constructor
  · rintro ⟨pre, u, suf, hl, hc, hs⟩
    rw [hacc] at hl
    obtain rfl | ⟨suf, x, rfl⟩ := List.eq_nil_or_concat suf
    · obtain ⟨_, h2⟩ := List.append_inj' hl rfl
      obtain rfl := List.head_eq_of_cons_eq h2
      exact Or.inl hc
    · have hl' : w.accepted ++ [t] = (pre ++ u :: suf) ++ [x] := by simpa using hl
      obtain ⟨hpre, h2⟩ := List.append_inj' hl' rfl
      obtain rfl := List.head_eq_of_cons_eq h2
      refine Or.inr ⟨⟨pre, u, suf, hpre, (hclear u (by simp [hpre])).mp hc, fun v hv => ?_⟩, ?_⟩
      · intro ht
        exact hs v (by simp [hv]) ((htake v (by simp [hpre, hv])).mpr ht)
      · exact hs t (by simp)
  · rintro (hc | ⟨⟨pre, u, suf, hl, hc, hs⟩, hno⟩)
    · exact ⟨w.accepted, t, [], hacc, hc, by simp⟩
    · refine ⟨pre, u, suf ++ [t], by simp [hacc, hl], (hclear u (by simp [hl])).mpr hc,
        fun v hv => ?_⟩
      obtain hv | hv := List.mem_append.mp hv
      · intro ht
        exact hs v hv ((htake v (by simp [hl, hv])).mp ht)
      · obtain rfl := List.mem_singleton.mp hv
        exact hno

theorem unsaved_congr (hacc : w'.accepted = w.accepted)
    (h : ∀ t ∈ w.accepted, (w'.tx t).request = (w.tx t).request ∧ w'.before t = w.before t) :
    Unsaved w' k ↔ Unsaved w k := by
  have hclear : ∀ u ∈ w.accepted, (ClearsIn w' k u ↔ ClearsIn w k u) := by
    intro u hu
    rw [ClearsIn, ClearsIn, oldIndex, oldIndex, (h u hu).1, (h u hu).2]
  have htake : ∀ u ∈ w.accepted, (TakesFrom w' k u ↔ TakesFrom w k u) := by
    intro u hu
    rw [TakesFrom, TakesFrom, (h u hu).1, (h u hu).2]
  rw [Unsaved, Unsaved, hacc]
  constructor
  · rintro ⟨pre, u, suf, hl, hc, hs⟩
    exact ⟨pre, u, suf, hl, (hclear u (by simp [hl])).mp hc,
      fun v hv ht => hs v hv ((htake v (by simp [hl, hv])).mpr ht)⟩
  · rintro ⟨pre, u, suf, hl, hc, hs⟩
    exact ⟨pre, u, suf, hl, (hclear u (by simp [hl])).mpr hc,
      fun v hv ht => hs v hv ((htake v (by simp [hl, hv])).mp ht)⟩

end Lists

theorem Created.newPm_bs {zs zs' : ZstoreContext} {r : Request} {tx : ZstoreTransaction}
    (h : Created zs r zs' tx) : (newPm zs).bs = setBit zs.pmAllocator.bs (newIndex zs) := by
  obtain ⟨i, _, hi⟩ := alloc_of_room (Nat.le_refl 1) h.room
  rw [newPm, hi, h.takes]
  rfl

theorem freeOne_bs (a : StupidAllocator) (i : Nat) :
    (stupidFreeSpace a [⟨i, 1⟩]).bs = clearBit a.bs i := by
  simp [stupidFreeSpace, clearAll, blocks, Extent.blocks]

/-- A rejected request leaves the allocator of the dynamic space alone, unless it is a create
that passed its checks and found no room. -/
theorem rejected_pmAllocator {g : Uninit} {zs zs' : ZstoreContext} {r : Request} {rc : Int}
    {tx tx' : ZstoreTransaction} (hshift : zs.zsb.ssdMinAllocSizeShift = 12) (hrc : rc ≠ 0)
    (hroom : r.op = .create → (zs.onode r.object).valid = false → r.object < zs.zsb.onodesRsv →
      HasRoom zs.pmAllocator 1)
    (h : zstoreTxPrepare g zs r tx = .ok (rc, zs', tx')) : zs'.pmAllocator = zs.pmAllocator := by
  cases hop : r.op with
  | create =>
    obtain ⟨_, a, rfl | ⟨_, hno, hinv, hobj⟩, rfl⟩ | ⟨h0, _⟩ := prepare_create hop h
    · rfl
    · exact absurd (hroom hop hinv hobj) hno
    · exact absurd h0 hrc
  | delete =>
    obtain ⟨_, rfl⟩ | ⟨h0, _⟩ := prepare_delete hop h
    · rfl
    · exact absurd h0 hrc
  | read =>
    obtain ⟨_, rfl⟩ | ⟨h0, _⟩ := prepare_read hshift hop h
    · rfl
    · exact absurd h0 hrc
  | write =>
    obtain ⟨_, _, rfl⟩ | ⟨_, _, _, _, rfl⟩ | ⟨h0, _⟩ := prepare_write hshift hop h
    · rfl
    · rfl
    · exact absurd h0 hrc
  | other =>
    obtain ⟨_, rfl⟩ := prepare_other hop h
    rfl

structure PmInv (init : Nat → BitVec 512) (w : World) : Prop where
  wf : WF w
  logged : Logged w
  inOrder : InOrder w
  disk : ∀ k < 2 ^ 11, dyLine w.zs.pm k = lastSaved (init k) w k w.applied
  tracked : ∀ k < 2 ^ 11, Tracked w k (lastSaved (init k) w k w.accepted)

section Steps
variable {env : Env} {w w' : World} {a : Act} {init : Nat → BitVec 512}

/-- Nothing that the bitmap depends on changes. -/
theorem PmInv.keep (hi : PmInv init w) (hstep : step env a w = some w')
    (hpm : ∀ k < 2 ^ 11, dyLine w'.zs.pm k = dyLine w.zs.pm k)
    (hal : w'.zs.pmAllocator = w.zs.pmAllocator) (hacc : w'.accepted = w.accepted)
    (happ : w'.applied = w.applied) : PmInv init w' := by
  obtain ⟨haccepted, happlied⟩ := hi.logged.keeps hi.wf hstep
  refine ⟨step_wf hi.wf hstep, step_logged hi.wf hi.logged hstep,
    step_inOrder hi.wf hi.logged hi.inOrder hstep, fun k hk => ?_, fun k hk => ?_⟩
  · rw [hpm k hk, happ, lastSaved_congr happlied]
    exact hi.disk k hk
  · rw [hacc, lastSaved_congr haccepted, Tracked, hal, unsaved_congr hacc haccepted]
    exact hi.tracked k hk

theorem PmInv.commit {tid : Nat} {t : PmemTransaction} (hi : PmInv init w)
    (hstep : step env a w = some w') (hc : Commits w w' tid t) : PmInv init w' := by
  obtain ⟨haccepted, happlied⟩ := hi.logged.keeps hi.wf hstep
  obtain ⟨n, hzs⟩ := hc.zs
  refine ⟨step_wf hi.wf hstep, step_logged hi.wf hi.logged hstep,
    step_inOrder hi.wf hi.logged hi.inOrder hstep, fun k hk => ?_, fun k hk => ?_⟩
  · have hdy := hc.dyLine hi.wf (k := k) (by omega)
    have htake : TakesFrom w' k tid ↔
        (w.tx tid).request.op = .create ∧ k = newIndex (w.before tid) / 512 := by
      rw [TakesFrom, (hc.heap tid).1, hc.before, eq_comm (a := k)]
    rw [hdy, hc.applied, lastSaved_snoc, lastSaved_congr happlied, hc.before, hi.disk k hk]
    simp only [htake]
  · have hal : w'.zs.pmAllocator = w.zs.pmAllocator := by rw [hzs]
    rw [hc.accepted, lastSaved_congr haccepted, Tracked, hal, unsaved_congr hc.accepted haccepted]
    exact hi.tracked k hk

/-- An accepted request that leaves the allocator alone is neither a create nor a delete. -/
theorem tracked_other {t k : Nat} {saved : BitVec 512} (hi : Tracked w k saved)
    (hacc : w'.accepted = w.accepted ++ [t])
    (hkeep : ∀ t ∈ w.accepted, (w'.tx t).request = (w.tx t).request ∧ w'.before t = w.before t)
    (hal : w'.zs.pmAllocator.bs k = w.zs.pmAllocator.bs k)
    (hclear : ¬ ClearsIn w' k t) (htake : ¬ TakesFrom w' k t) : Tracked w' k saved := by
  have hun : Unsaved w' k ↔ Unsaved w k := by
    rw [unsaved_snoc hacc hkeep]
    simp only [hclear, htake, false_or, not_false_eq_true, and_true]
  have hbit : ∀ i, i / 512 = k → bit w'.zs.pmAllocator.bs i = bit w.zs.pmAllocator.bs i := by
    rintro i rfl
    rw [bit, bit, hal]
  obtain ⟨h1, i, h2, h3, h4⟩ | ⟨h1, h2⟩ := hi
  · exact Or.inl ⟨hun.mpr h1, i, h2, h3, (hbit i h2).trans h4⟩
  · exact Or.inr ⟨fun h => h1 (hun.mp h), hal.trans h2⟩

theorem PmInv.accept {r : Request} {zs : ZstoreContext} {tx : ZstoreTransaction}
    (hi : PmInv init w) (hstep : step env a w = some w') (ha : Accepts r w w' zs tx) :
    PmInv init w' := by
  obtain ⟨haccepted, happlied⟩ := hi.logged.keeps hi.wf hstep
  have hreq : (w'.tx w.zs.tidMax).request = r := ha.request_self
  have hbefore : w'.before w.zs.tidMax = w.zs := ha.before_self
  have hpm : ∀ k < 2 ^ 11, dyLine w'.zs.pm k = dyLine w.zs.pm k := by
    intro k hk
    obtain ⟨_, hr, n, l, hzs⟩ | ⟨hacc, n, hzs⟩ := ha.kind
    · rw [hzs, hr.store]
    · rw [hzs]
      exact lineAt_of_load (hacc.load_below hi.wf.formatted (by omega))
  refine ⟨step_wf hi.wf hstep, step_logged hi.wf hi.logged hstep,
    step_inOrder hi.wf hi.logged hi.inOrder hstep, fun k hk => ?_, fun k hk => ?_⟩
  · rw [hpm k hk, ha.applied, lastSaved_congr happlied]
    exact hi.disk k hk
  · have htr := hi.tracked k hk
    rw [ha.accepted, lastSaved_snoc, lastSaved_congr haccepted, hbefore]
    obtain ⟨hop, hr, n, l, hzs⟩ | ⟨hacc, n, hzs⟩ := ha.kind
    · have htake : ¬ TakesFrom w' k w.zs.tidMax := by simp [TakesFrom, hreq, hop]
      rw [if_neg htake]
      refine tracked_other htr ha.accepted haccepted ?_ (by simp [ClearsIn, hreq, hop]) htake
      rw [hzs, hr.store]
    · cases hacc with
      | write hop h =>
        have htake : ¬ TakesFrom w' k w.zs.tidMax := by simp [TakesFrom, hreq, hop]
        rw [if_neg htake]
        refine tracked_other htr ha.accepted haccepted ?_ (by simp [ClearsIn, hreq, hop]) htake
        rw [hzs, h.store]
      | create hop h =>
        have hal : w'.zs.pmAllocator.bs = (newPm w.zs).bs := by rw [hzs, h.store]
        have hclear : ¬ ClearsIn w' k w.zs.tidMax := by simp [ClearsIn, hreq, hop]
        by_cases hk : newIndex w.zs / 512 = k
        · have htake : TakesFrom w' k w.zs.tidMax := ⟨by rw [hreq, hop], by rw [hbefore, hk]⟩
          rw [if_pos htake]
          refine Or.inr ⟨?_, by rw [hal]⟩
          rw [unsaved_snoc ha.accepted haccepted]
          simp [hclear, htake]
        · have htake : ¬ TakesFrom w' k w.zs.tidMax := by
            intro ht
            rw [TakesFrom, hbefore] at ht
            exact hk ht.2
          rw [if_neg htake]
          refine tracked_other htr ha.accepted haccepted ?_ hclear htake
          rw [hal, h.newPm_bs, setBit, Function.update_of_ne (Ne.symm hk)]
      | delete hop h =>
        have htake : ¬ TakesFrom w' k w.zs.tidMax := by simp [TakesFrom, hreq, hop]
        rw [if_neg htake]
        have hold : oldIndex w' w.zs.tidMax = (w.zs.onode r.object).dataIdxId := by
          rw [oldIndex, hbefore, hreq]
        have hal : w'.zs.pmAllocator.bs =
            clearBit w.zs.pmAllocator.bs (w.zs.onode r.object).dataIdxId := by
          rw [hzs, h.store]
          exact freeOne_bs _ _
        generalize (w.zs.onode r.object).dataIdxId = idx at hold hal
        by_cases hc : ClearsIn w' k w.zs.tidMax
        · obtain ⟨_, hk', hset⟩ := hc
          rw [hold] at hk'
          rw [hold, hbefore] at hset
          have hcleared : ∀ i, bit w'.zs.pmAllocator.bs i =
              (bit w.zs.pmAllocator.bs i && decide (i ≠ idx)) := by
            intro i
            rw [hal, bit_clearBit]
          refine Or.inl ⟨(unsaved_snoc ha.accepted haccepted).mpr (Or.inl ⟨?_, ?_, ?_⟩), ?_⟩
          · rw [hreq, hop]
          · rw [hold, hk']
          · rw [hold, hbefore, hset]
          · obtain ⟨_, i, h2, h3, h4⟩ | ⟨_, h2⟩ := htr
            · exact ⟨i, h2, h3, by rw [hcleared, h4, Bool.false_and]⟩
            · refine ⟨idx, hk', ?_, by simp [hcleared]⟩
              rw [← h2, ← hk']
              exact hset
        · refine tracked_other htr ha.accepted haccepted ?_ hc htake
          by_cases hk' : idx / 512 = k
          · -- the bit was clear already
            have hclear : bit w.zs.pmAllocator.bs idx = false := by
              rw [← Bool.not_eq_true]
              intro hset
              exact hc ⟨by rw [hreq, hop], by rw [hold, hk'], by rw [hold, hbefore, hset]⟩
            have hsame : clearBit w.zs.pmAllocator.bs idx = w.zs.pmAllocator.bs := by
              apply bitmap_ext
              intro i
              rw [bit_clearBit]
              by_cases hi : i = idx
              · rw [hi, hclear]
                rfl
              · simp [hi]
            rw [hal, hsame]
          · rw [hal, clearBit, Function.update_of_ne (Ne.symm hk')]

theorem PmInv.step (hi : PmInv init w) (hok : CreatesFit w a) (hstep : step env a w = some w') :
    PmInv init w' := by
  obtain hq | ⟨r, hr, ⟨rc, tx, hrej⟩ | ⟨zs, tx, ha⟩⟩ | ⟨tid, t, hc⟩ := step_cases hi.wf hstep
  · exact hi.keep hstep (fun _ _ => by rw [hq.zs.pm]) hq.zs.pmAllocator hq.accepted hq.applied
  · have hfr := (prepare_rejected hi.wf.formatted.shift hrej.rc_ne hrej.prepare).frame
    have hal := rejected_pmAllocator hi.wf.formatted.shift hrej.rc_ne (hok r hr) hrej.prepare
    exact hi.keep hstep (fun _ _ => by rw [hfr]) hal hrej.accepted hrej.applied
  · exact hi.accept hstep ha
  · exact hi.commit hstep hc

end Steps

theorem zstoreMount_persisted {cpu : Nat} {flags : BitVec 32} {h : MountMem} {m : Image}
    {zs : ZstoreContext} (hm : zstoreMount cpu flags h m = .ok zs) (hf : Formatted zs) :
    Persisted zs := by
  have hal := (zstoreMount_loaded hm).2
  have htotal := congrArg StupidAllocator.nrTotal hal
  rw [hf.pmTotal, (loadedAllocator_total ..).1] at htotal
  intro k hk
  rw [hal, loadedAllocator_bs _ _ _ _ (by omega), hf.dyBitmap, dyLine]

/-- A remount loads the bits of a persisted bitmap. -/
theorem Persisted.remount {zs : ZstoreContext} (hf : Formatted zs) (h : Persisted zs)
    (b : Nat → BitVec 512) : ∃ a, loadAllocator b (2 ^ 20) zs.pm zs.zsb.pmDyBitmapOfst = .ok a ∧
      ∀ i < 2 ^ 20, bit a.bs i = bit zs.pmAllocator.bs i := by
  refine ⟨_, loadAllocator_ok.mpr ⟨by decide, rfl⟩, fun i hi => ?_⟩
  have hk := h (i / 512) (by omega)
  rw [bit, loadedAllocator_bs _ _ _ _ (by omega), hf.dyBitmap, bit, ← hk, dyLine]

/-- Once everything is committed, the persistent bitmap of the dynamic space is the one in memory
exactly when no bit was cleared in an entry that no create has logged since; only then a remount
finds the same free blocks. -/
theorem persisted_iff (env : Env) (cpu : Nat) (flags : BitVec 32) (h : MountMem) (m : Image)
    (zs : ZstoreContext) (heap : Nat → ZstoreTransaction) (w : World)
    (hm : zstoreMount cpu flags h m = .ok zs) (hf : Formatted zs)
    (hrun : Run (step env) CreatesFit (World.mounted zs heap) w) (hidle : w.zs.txList = []) :
    (Persisted w.zs ↔ ∀ k < 2 ^ 11, ¬ Unsaved w k) ∧
    (Persisted w.zs → ∀ b : Nat → BitVec 512, ∃ a,
      loadAllocator b (2 ^ 20) w.zs.pm w.zs.zsb.pmDyBitmapOfst = .ok a ∧
        ∀ i < 2 ^ 20, bit a.bs i = bit w.zs.pmAllocator.bs i) := by
  have hm0 := zstoreMount_mounted hm hf heap
  have hnil : (World.mounted zs heap).accepted = [] := rfl
  have h0 : PmInv (dyLine zs.pm) (World.mounted zs heap) := by
    refine ⟨hm0.wf, hm0.logged, hm0.inOrder, fun k _ => rfl, fun k hk => Or.inr ⟨?_, ?_⟩⟩
    · rintro ⟨pre, t, suf, hl, _⟩
      rw [hnil] at hl
      simp at hl
    · exact (zstoreMount_persisted hm hf k hk).symm
  have hi : PmInv (dyLine zs.pm) w := hrun.invariant h0 fun _ _ _ hi hok hs => hi.step hok hs
  have hsaved : ∀ k < 2 ^ 11, dyLine w.zs.pm k = lastSaved (dyLine zs.pm k) w k w.accepted := by
    intro k hk
    have hord := hi.inOrder
    rw [InOrder, hidle, List.append_nil] at hord
    have hfilter : w.applied.filter (fun t => decide (TakesFrom w k t)) =
        w.accepted.filter (fun t => decide (TakesFrom w k t)) := by
      rw [← hord, List.filter_filter]
      apply List.filter_congr
      intro t _
      by_cases ht : TakesFrom w k t
      · simp [ht, ht.1]
      · simp [ht]
    rw [hi.disk k hk, lastSaved, lastSaved, hfilter]
  refine ⟨?_, fun hp b => hp.remount hi.wf.formatted b⟩
  constructor
  · intro hp k hk hun
    obtain ⟨_, i, hik, hset, hclear⟩ | ⟨hno, _⟩ := hi.tracked k hk
    · rw [← hsaved k hk, hp k hk] at hset
      rw [bit, hik] at hclear
      rw [bit] at hset
      rw [hset] at hclear
      cases hclear
    · exact hno hun
  · intro hall k hk
    obtain ⟨hun, _⟩ | ⟨_, heq⟩ := hi.tracked k hk
    · exact absurd hun (hall k hk)
    · rw [hsaved k hk, heq]

/-- The index block of object 1 is released by its delete; the create of object 2 takes another block
of the same entry, and logs it. -/
theorem createdIndex_persisted : ∃ w : World, w.applied = [0, 1, 2] ∧
    (w.tx 1).request.op = .delete ∧ Persisted w.zs ∧ ∀ k < 2 ^ 11, ¬ Unsaved w k := by
  have hrun : (runActs (step smallEnv) CreatesFit [.request ⟨.create, 1, 0, 0, 0⟩, .resume, .resume,
      .request ⟨.delete, 1, 0, 0, 0⟩, .resume, .resume, .request ⟨.create, 2, 0, 0, 0⟩, .resume]
      smallWorld).map (fun w => decide (w.applied = [0, 1, 2] ∧ w.zs.txList = [] ∧
        w.accepted = [0, 1, 2] ∧ (w.tx 0).request.op ≠ .delete ∧ (w.tx 1).request.op = .delete ∧
        (w.tx 2).request.op ≠ .delete ∧ oldIndex w 1 / 512 = 0 ∧ TakesFrom w 0 2)) = some true := by
    decide +kernel
  obtain ⟨w, hw, hval⟩ := Option.map_eq_some_iff.mp hrun
  obtain ⟨happ, hidle, hacc, h0, h1, h2, hold, htakes⟩ := of_decide_eq_true hval
  have hsaved : ∀ k < 2 ^ 11, ¬ Unsaved w k := by
    rintro k - ⟨pre, t, suf, hl, hc, hs⟩
    rw [hacc] at hl
    obtain _ | ⟨x, _ | ⟨y, _ | ⟨z, pre⟩⟩⟩ := pre
    · obtain ⟨rfl, -⟩ : 0 = t ∧ [1, 2] = suf := by simpa using hl
      exact h0 hc.1
    · obtain ⟨-, rfl, rfl⟩ : 0 = x ∧ 1 = t ∧ [2] = suf := by simpa using hl
      obtain rfl : k = 0 := hc.2.1.symm.trans hold
      exact hs 2 List.mem_cons_self htakes
    · obtain ⟨-, -, rfl, -⟩ : 0 = x ∧ 1 = y ∧ 2 = t ∧ suf = [] := by simpa using hl
      exact h2 hc.1
    · simp at hl
  have hiff := (persisted_iff smallEnv 0 0 _ _ smallStore _ w smallStore_mount
    smallWorld_mounted.formatted (run_of_runActs .start hw) hidle).1
  exact ⟨w, happ, h1, hiff.mpr hsaved, hsaved⟩

/-- An object is created and deleted, and both are committed: its index block is free in memory,
but not in persistent memory. -/
theorem deletedIndex_lost : ∃ w : World, Run (step smallEnv) (fun _ _ => True) smallWorld w ∧
    w.applied = [0, 1] ∧ w.zs.txList = [] ∧ w.stack = [] ∧
    dyLine w.zs.pm 0 = 1 ∧ w.zs.pmAllocator.bs 0 = 0 := by
  have hrun : (runActs (step smallEnv) (fun _ _ => True) [.request ⟨.create, 1, 0, 0, 0⟩, .resume,
      .resume, .request ⟨.delete, 1, 0, 0, 0⟩, .resume, .resume] smallWorld).map
      (fun w => decide (w.applied = [0, 1] ∧ w.zs.txList = [] ∧ w.stack = [] ∧
        dyLine w.zs.pm 0 = 1 ∧ w.zs.pmAllocator.bs 0 = 0)) = some true := by
    decide +kernel
  obtain ⟨w, hw, hval⟩ := Option.map_eq_some_iff.mp hrun
  exact ⟨w, run_of_runActs .start hw, of_decide_eq_true hval⟩

end ZCell.Store

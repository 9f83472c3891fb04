import ZCell.OwnershipCommit
import ZCell.Rejected
import ZCell.SsdBitmap
import Mathlib.Data.List.Nodup

/-! The account of the blocks: which blocks are in use, which entries map them, and how many are
left. It is kept by all requests that neither lose a block nor release one that is not theirs. -/
namespace ZCell.Store
open Bytes Persist Pm Allocator Runs Holding

/-- Entry `s.2` of the index of the valid object `s.1` maps block `b`. -/
def MapsTo (zs : ZstoreContext) (s : Nat × Nat) (b : Nat) : Prop :=
  Valid zs.onode s.1 ∧ s.2 < 1024 ∧
    indexWord zs.pm (1024 * (zs.onode s.1).dataIdxId + s.2) ≠ unmapped ∧
    (indexWord zs.pm (1024 * (zs.onode s.1).dataIdxId + s.2)).toNat = b

/-- The blocks in use are those that the objects map, each in one place. -/
def BlocksMapped (zs : ZstoreContext) : Prop :=
  ∀ b, (b < zs.ssdAllocator.nrTotal ∧ bit zs.ssdAllocator.bs b = true) ↔
    ∃ s, MapsTo zs s b ∧ ∀ t, MapsTo zs t b → t = s

/-- The object of the request maps no block. -/
def MapsNothing (zs : ZstoreContext) (r : Request) : Prop :=
  ∀ j < 1024, indexWord zs.pm (1024 * (zs.onode r.object).dataIdxId + j) = unmapped

instance (zs : ZstoreContext) (r : Request) : Decidable (MapsNothing zs r) :=
  Nat.decidableBallLT 1024 fun j _ =>
    indexWord zs.pm (1024 * (zs.onode r.object).dataIdxId + j) = unmapped

/-- A write that finds no room leaves everything as it was, and a deleted object maps nothing and is
not going to. -/
def Lossless (w : World) (a : Act) : Prop :=
  ∀ r ∈ callOf w a,
    (r.op = .write → ¬ HasRoom (released w.zs r) r.blen → NothingTouched w.zs r) ∧
    (r.op = .delete → (w.zs.onode r.object).valid = true →
      ApartFromQueue w r ∧ MapsNothing w.zs r)

structure Accounted (w : World) : Prop where
  owned : Owned false w
  exact : Exact (holding w)
  counted : Counted w.zs.ssdAllocator
  -- an object that is about to be deleted maps nothing any more
  emptied : ∀ t ∈ w.zs.txList, (w.tx t).request.op = .delete →
    ∀ j, (holding w).holds ((w.tx t).request.object, j) = none

section Idle
variable {w : World}

/-- Without requests in the queue the account is that of the index in persistent memory. -/
theorem holding_idle (h : ∀ t ∈ w.zs.txList, (w.tx t).request.op ≠ .write) (s : Nat × Nat) (b : Nat) :
    (holding w).holds s = some b ↔ MapsTo w.zs s b := by
  have hfree : entryWord w s.1 s.2 =
      indexWord w.zs.pm (1024 * (w.zs.onode s.1).dataIdxId + s.2) :=
    entryWord_free fun t ht hc => h t ht hc.1
  rw [holding_some, hfree, MapsTo]

theorem Accounted.blocksMapped (ha : Accounted w)
    (h : ∀ t ∈ w.zs.txList, (w.tx t).request.op ≠ .write) : BlocksMapped w.zs := by
  intro b
  have hiff := ha.owned.sound.marked_iff ha.exact b
  simp only [holding_idle h] at hiff
  exact hiff

end Idle

section Start
variable {w : World} {rsv : Bool}

/-- A mounted store without objects. -/
theorem Mounted.accounted (hm : Mounted w) (hnone : ∀ o, ¬ Valid w.zs.onode o)
    (hclear : ∀ b < w.zs.ssdAllocator.nrTotal, bit w.zs.ssdAllocator.bs b = false)
    (hcount : Counted w.zs.ssdAllocator) : Accounted w := by
  have hnil : ∀ t, t ∉ w.zs.txList := by
    intro t ht
    rw [hm.txList] at ht
    exact List.not_mem_nil ht
  have hempty : ∀ s b, (holding w).holds s ≠ some b :=
    fun s b hb => hnone _ (holding_some.mp hb).1
  refine ⟨⟨hm.wf, hm.logged, ?_, fun t ht => absurd ht (hnil t), fun t ht => absurd ht (hnil t),
    fun o u ho => absurd ho (hnone o), fun o ho => absurd ho (hnone o),
    ⟨fun s b hb => absurd hb (hempty s b), fun s t b hb => absurd hb (hempty s b)⟩⟩, ?_, hcount,
    fun t ht => absurd ht (hnil t)⟩
  · rw [hm.txList]
    exact List.Pairwise.nil
  · rintro b ⟨hlt, hb⟩
    rw [hclear b hlt] at hb
    cases hb

/-- The store behind a mkfs that reserves no objects. -/
theorem mkfs_mounted {stk : Image} {e : Nat → OtableEntry} {nblks cpu : Nat}
    {flags mflags : BitVec 32} {m : Image} {h : MountMem} {zs : ZstoreContext}
    (hflags : flags &&& zstoreMkfsReserveObjid = 0) (hcpu : cpu < 127) (hp : h.Placed)
    (hm : zstoreMount cpu mflags h (zstoreMkfs stk e nblks flags m) = .ok zs)
    (heap : Nat → ZstoreTransaction) : Mounted (World.mounted zs heap) ∧
    (∀ o, ¬ Valid zs.onode o) ∧
    (∀ b < zs.ssdAllocator.nrTotal, bit zs.ssdAllocator.bs b = false) ∧
    Counted zs.ssdAllocator := by
  rw [mount_mkfs hflags hcpu (zstoreMount_size hm (superblock_mkfs hflags)), Except.ok.injEq] at hm
  subst hm
  have hat := @zstoreMkfs_at stk e nblks flags m hflags
  have hw := @freshStore_mounted (min (2 ^ 28) nblks) cpu mflags h hcpu hp (Nat.min_le_left ..)
    (zstoreMkfs stk e nblks flags m) (fun a h1 h2 => by rw [hat, if_neg (by omega), if_pos h2]) heap
  have hclear : ∀ b < min (2 ^ 28) nblks,
      bit (emptyAllocator h.ssdBs (min (2 ^ 28) nblks)).bs b = false := by
    intro b hb
    simp only [bit, emptyAllocator]
    rw [if_pos (by omega)]
    exact BitVec.getLsbD_zero
  refine ⟨hw, ?_, hclear, ?_⟩
  · rintro o ⟨ho, hv⟩
    rw [freshStore_onode ho, zero_valid] at hv
    cases hv
  · have hcount := zeroCount_clear (i := 0) (n := min (2 ^ 28) nblks)
      (fun j _ hj => hclear j (by omega))
    exact ((freeCount_eq _ _).trans hcount).symm

end Start

section Step
variable {env : Env} {w w' : World} {a : Act} {r : Request} {zs : ZstoreContext}
  {tx : ZstoreTransaction}

/-- The entries of a range that waits for no queued write. -/
theorem holds_range (hf : Formatted w.zs) (hwr : Written w.zs r zs tx) (hop : r.op = .write)
    (hval : (w.zs.onode r.object).valid = true) (hapart : ApartFromQueue w r) {j : Nat}
    (h1 : r.bofst ≤ j) (h2 : j < r.bofst + r.blen) (b : Nat) :
    (holding w).holds (r.object, j) = some b ↔
      indexWord w.zs.pm (1024 * (w.zs.onode r.object).dataIdxId + j) ≠ unmapped ∧
      (indexWord w.zs.pm (1024 * (w.zs.onode r.object).dataIdxId + j)).toNat = b := by
  have hobj := hwr.object_eq hf
  have hrange := hwr.range_le hf
  have hlt := hwr.oid_lt hf
  have hfree : entryWord w r.object j =
      indexWord w.zs.pm (1024 * (w.zs.onode r.object).dataIdxId + j) :=
    entryWord_free fun t ht => (hapart t ht).symm.covers ⟨hop, rfl, h1, h2⟩
  rw [holding_some, hfree]
  constructor
  · rintro ⟨_, _, h3⟩
    exact h3
  · intro h3
    exact ⟨⟨by rw [hobj]; exact hlt, hval⟩, by omega, h3⟩

/-- A write that waits for no queued one releases blocks that are in use, each once. -/
theorem Owned.releasable {rsv : Bool} (hi : Owned rsv w) (hwr : Written w.zs r zs tx)
    (hop : r.op = .write) (hval : (w.zs.onode r.object).valid = true)
    (hapart : ApartFromQueue w r) :
    Releasable w.zs.ssdAllocator (mapped (rangeWords w.zs r)) := by
  have hf := hi.wf.formatted
  have hobj := hwr.object_eq hf
  have hholds := fun j => @holds_range w r zs tx hf hwr hop hval hapart j
  constructor
  · rw [rangeWords_eq hf, ← hobj]
    simp only [mapped, List.filter_map, List.map_map]
    refine List.Nodup.map_on ?_ (List.nodup_range.filter _)
    intro i hi' j hj heq
    obtain ⟨hlt1, hne1⟩ := List.mem_filter.mp hi'
    obtain ⟨hlt2, hne2⟩ := List.mem_filter.mp hj
    rw [List.mem_range] at hlt1 hlt2
    have hs1 := (hholds (r.bofst + i) (by omega) (by omega) _).mpr ⟨by simpa using hne1, rfl⟩
    have hs2 := (hholds (r.bofst + j) (by omega) (by omega) _).mpr ⟨by simpa using hne2, rfl⟩
    have hb : (indexWord w.zs.pm (1024 * (w.zs.onode r.object).dataIdxId + (r.bofst + i))).toNat =
        (indexWord w.zs.pm (1024 * (w.zs.onode r.object).dataIdxId + (r.bofst + j))).toNat := heq
    rw [hb] at hs1
    have hslot := hi.sound.unique _ _ _ hs1 hs2
    have hpos := congrArg Prod.snd hslot
    simp only at hpos
    omega
  · intro b hb
    obtain ⟨j, h1, h2, h3⟩ := (mem_mapped_range hf).mp hb
    rw [← hobj] at h3
    exact hi.sound.marked _ b ((hholds j h1 h2 b).mpr h3)

/-- What is in the queue after a step was there before, or has just been accepted. -/
theorem joins_step (hw : WF w) (hstep : step env a w = some w') {t : Nat}
    (ht : t ∈ w'.zs.txList) :
    (t ∈ w.zs.txList ∧ (w'.tx t).request = (w.tx t).request ∧ w'.before t = w.before t) ∨
    ∃ r zs tx n, callOf w a = some r ∧ Accepted w.zs r zs tx ∧ (w'.tx t).request = r ∧
      w'.before t = w.zs ∧
      w'.zs = { zs with txOutstanding := n, txList := zs.txList ++ [w.zs.tidMax] } := by
  have hkeep := hw.keeps hstep
  obtain hq | ⟨r, hr, ⟨rc, tx, hrej⟩ | ⟨zs, tx, ha⟩⟩ | ⟨tid, p, hc⟩ := step_cases hw hstep
  · rw [hq.zs.txList] at ht
    exact Or.inl ⟨ht, hkeep t ht⟩
  · have hfr := (prepare_rejected hw.formatted.shift hrej.rc_ne hrej.prepare).frame
    rw [hfr] at ht
    exact Or.inl ⟨ht, hkeep t ht⟩
  · obtain ⟨_, hread, n, l, hzs⟩ | ⟨hacc, n, hzs⟩ := ha.kind
    · rw [hzs, hread.store] at ht
      exact Or.inl ⟨ht, hkeep t ht⟩
    · have he := ha.enqueued hw hstep hacc hzs
      rw [he.list] at ht
      obtain ht | ht := List.mem_append.mp ht
      · exact Or.inl ⟨ht, hkeep t ht⟩
      · obtain rfl := List.mem_singleton.mp ht
        exact Or.inr ⟨r, zs, tx, n, hr, hacc, he.request, he.before, hzs⟩
  · have hmem : t ∈ w.zs.txList := by
      rw [hc.head]
      exact List.mem_cons_of_mem _ ht
    exact Or.inl ⟨hmem, hkeep t hmem⟩

/-- An entry that maps nothing keeps mapping nothing, unless it is written. -/
theorem Turn.keeps_none (h : Turn w w' a) {s : Nat × Nat}
    (hout : ∀ r, callOf w a = some r → r.op = .write → ¬ Refused w.zs r → ¬ r.Covers s.1 s.2)
    (hnone : (holding w).holds s = none) : (holding w').holds s = none := by
  cases h with
  | same h _ => rw [h, hnone]
  | failed r _ _ _ _ _ hholds _ => rw [hholds, hnone]
  | written r zs tx hr hop hwr hm _ => rw [hm.stay s (hout r hr hop hwr.checked), hnone]
  | deleted u _ _ hgone hstay _ =>
    by_cases hobj : s.1 = (w.tx u).request.object
    · exact hgone s hobj
    · rw [hstay s hobj, hnone]

theorem apart_delete {s : Request} (hop : s.op = .delete) (h : r.Apart s) :
    r.object ≠ s.object := by
  obtain hne | ⟨_, hw, _⟩ := h
  · exact hne
  · rw [hop] at hw
    cases hw

/-- A write that fails without having released or taken anything. -/
theorem NothingTouched.newSsd (hpos : 1 ≤ r.blen) (hchk : ¬ Refused w.zs r)
    (hno : ¬ HasRoom (released w.zs r) r.blen) (h : NothingTouched w.zs r) :
    (Store.newSsd w.zs r).bs = w.zs.ssdAllocator.bs ∧
    (Store.newSsd w.zs r).nrFree = w.zs.ssdAllocator.nrFree := by
  obtain href | ⟨hold, hfew⟩ := h
  · exact absurd href hchk
  · have hrel : released w.zs r = w.zs.ssdAllocator := by
      rw [released, oldExtents, (merge_nil_iff _).mpr hold, stupidFreeSpace_nil]
    rw [hrel] at hno
    rw [Store.newSsd, hrel, failed_alloc_nrFree hpos hno]
    exact ⟨(failed_alloc_bits hpos hno).mpr hfew, rfl⟩

theorem Accounted.step_exact (hi : Accounted w) (hless : Lossless w a) (h : Turn w w' a) :
    Exact (holding w') := by
  cases h with
  | same h _ => exact h ▸ hi.exact
  | failed r hr hop hchk hpos hno hholds hssd =>
    obtain ⟨hbs, _⟩ := ((hless r hr).1 hop hno).newSsd hpos hchk hno
    refine hi.exact.shrink hholds ?_
    rintro b ⟨hlt, hb⟩
    rw [hssd, (newSsd_total w.zs r).1] at hlt
    rw [hssd, hbs] at hb
    exact ⟨hlt, hb⟩
  | written r zs tx hr hop hwr hm _ => exact hi.exact.moved hm
  | deleted t ht hop hgone hstay hssd =>
    refine hi.exact.shrink (funext fun s => ?_) ?_
    · by_cases hs : s.1 = (w.tx t).request.object
      · have hnone := hi.emptied t (List.mem_of_head? ht) hop s.2
        rw [← hs] at hnone
        rw [hgone s hs]
        exact hnone.symm
      · exact hstay s hs
    · rintro b ⟨hlt, hb⟩
      rw [hssd] at hlt hb
      exact ⟨hlt, hb⟩

theorem Accounted.step_counted (hi : Accounted w) (hok : Orderly false w a) (hless : Lossless w a)
    (h : Turn w w' a) : Counted w'.zs.ssdAllocator := by
  cases h with
  | same _ hssd => exact hssd ▸ hi.counted
  | failed r hr hop hchk hpos hno _ hssd =>
    obtain ⟨hbs, hfree⟩ := ((hless r hr).1 hop hno).newSsd hpos hchk hno
    rw [hssd, Counted, hbs, hfree, (newSsd_total w.zs r).1]
    exact hi.counted
  | written r zs tx hr hop hwr _ hssd =>
    obtain ⟨hval, hapart, _⟩ := (hok r hr).1 hop hwr.checked
    rw [hssd]
    exact (hwr.counted (Nat.le_of_eq hi.counted.symm)).2.mpr
      ⟨hi.counted, hi.owned.releasable hwr hop hval hapart⟩
  | deleted t _ _ _ _ hssd => exact hssd ▸ hi.counted

theorem Accounted.step (hi : Accounted w) (hok : Orderly false w a) (hless : Lossless w a)
    (hstep : Store.step env a w = some w') : Accounted w' := by
  obtain ⟨hown, hturn⟩ := hi.owned.step hok hstep
  refine ⟨hown, hi.step_exact hless hturn, hi.step_counted hok hless hturn, fun t ht hop j => ?_⟩
  obtain ⟨ht, hreq, _⟩ | ⟨r, zs, tx, _, hr, hacc, hreq, _⟩ := joins_step hi.owned.wf hstep ht
  · rw [hreq] at hop ⊢
    refine hturn.keeps_none (fun r hr hw hchk hc => ?_) (hi.emptied t ht hop j)
    have hapart := ((hok r hr).1 hw hchk).2.1 t ht
    exact apart_delete hop hapart.symm hc.2.1
  · rw [hreq] at hop ⊢
    have hdl : Deleted w.zs r zs tx := by
      cases hacc with
      | write hop' _ => rw [hop] at hop'; cases hop'
      | create hop' _ => rw [hop] at hop'; cases hop'
      | delete _ h => exact h
    obtain ⟨hapart, hempty⟩ := (hless r hr).2 hop hdl.valid
    refine hturn.keeps_none (fun r' hr' hw _ _ => ?_) ?_
    · rw [hr, Option.some.injEq] at hr'
      rw [← hr', hop] at hw
      cases hw
    · rw [Option.eq_none_iff_forall_ne_some]
      intro b hb
      obtain ⟨_, hj, hne, _⟩ := holding_some.mp hb
      rw [entryWord_free fun t ht hc => apart_delete hop (hapart t ht) hc.2.1] at hne
      exact hne (hempty j hj)

end Step

/-- A request is made when no other is queued. Writes are to valid objects, and their scans open no
extent over a gap; one that finds no room leaves everything as it was. A deleted object maps
nothing. -/
def OneByOne (w : World) (a : Act) : Prop :=
  ∀ r ∈ callOf w a, w.zs.txList = [] ∧
    (r.op = .write → ¬ Refused w.zs r → (w.zs.onode r.object).valid = true ∧
      if HasRoom (released w.zs r) r.blen then Neighbours (released w.zs r) r.blen
      else NothingTouched w.zs r) ∧
    (r.op = .delete → (w.zs.onode r.object).valid = true → MapsNothing w.zs r)

instance (w : World) (a : Act) : Decidable (OneByOne w a) :=
  inferInstanceAs (Decidable (∀ r ∈ callOf w a, _))

theorem OneByOne.orderly {w : World} {a : Act} (h : OneByOne w a) :
    Orderly false w a ∧ Lossless w a := by
  have hapart : ∀ r ∈ callOf w a, ApartFromQueue w r := by
    intro r hr t ht
    rw [(h r hr).1] at ht
    exact absurd ht List.not_mem_nil
  constructor
  · intro r hr
    obtain ⟨hnil, hwrite, _⟩ := h r hr
    refine ⟨fun hop hchk => ?_, fun _ _ _ => ⟨hapart r hr, ?_, fun hc => absurd hc.1 (by decide)⟩,
      fun _ _ t ht => Or.inl (hapart r hr t ht)⟩
    · obtain ⟨hval, hfit⟩ := hwrite hop hchk
      refine ⟨hval, hapart r hr, ?_⟩
      split
      · rename_i hroom
        rwa [if_pos hroom] at hfit
      · rename_i hroom
        rw [if_neg hroom] at hfit
        exact (hfit.resolve_left hchk).1
    · intro t ht
      rw [hnil] at ht
      exact absurd ht List.not_mem_nil
  · intro r hr
    obtain ⟨_, hwrite, hdelete⟩ := h r hr
    refine ⟨fun hop hno => ?_, fun hop hval => ⟨hapart r hr, hdelete hop hval⟩⟩
    by_cases hchk : Refused w.zs r
    · exact Or.inl hchk
    · have hfit := (hwrite hop hchk).2
      rwa [if_neg hno] at hfit

/-- When requests are made one after the other, writes are to valid objects, open no extent over
a gap and, if they find no room, have nothing to release and take nothing, and only objects
that map nothing are deleted, the blocks in use are exactly those that the objects map, each in
one place, and the free count is right. -/
theorem blocks_accounted (env : Env) (stk : Image) (e : Nat → OtableEntry) (nblks cpu : Nat)
    (flags mflags : BitVec 32) (m : Image) (h : MountMem) (zs : ZstoreContext)
    (heap : Nat → ZstoreTransaction) (w : World)
    (hflags : flags &&& zstoreMkfsReserveObjid = 0) (hcpu : cpu < 127) (hp : h.Placed)
    (hm : zstoreMount cpu mflags h (zstoreMkfs stk e nblks flags m) = .ok zs)
    (hrun : Run (step env) OneByOne (World.mounted zs heap) w)
    (hidle : ∀ t ∈ w.zs.txList, (w.tx t).request.op ≠ .write) :
    BlocksMapped w.zs ∧ Counted w.zs.ssdAllocator := by
  obtain ⟨hw, hnone, hclear, hcount⟩ := mkfs_mounted hflags hcpu hp hm heap
  have ha : Accounted w := hrun.invariant (hw.accounted hnone hclear hcount)
    fun _ _ _ hi hok hs => hi.step hok.orderly.1 hok.orderly.2 hs
  exact ⟨ha.blocksMapped hidle, ha.counted⟩

/-- Object 1 is created and written, and its second block is written again. -/
theorem rewrittenBlock_accounted : ∃ w : World, w.applied = [0, 1, 2] ∧
    w.zs.ssdAllocator.bs 0 = 5 ∧ BlocksMapped w.zs ∧ Counted w.zs.ssdAllocator := by
  have hrun : (runActs (step smallEnv) OneByOne [.request ⟨.create, 1, 0, 0, 0⟩, .resume, .resume,
      .request ⟨.write, 1, 0, 2 * 4096, 0⟩, .bioDone 0 true, .resume, .resume, .resume,
      .request ⟨.write, 1, 4096, 4096, 0⟩, .bioDone 0 true, .resume, .resume, .resume]
      smallWorld).map (fun w => decide (w.applied = [0, 1, 2] ∧ w.zs.txList = [] ∧
        w.zs.ssdAllocator.bs 0 = 5)) = some true := by
    decide +kernel
  obtain ⟨w, hw, hval⟩ := Option.map_eq_some_iff.mp hrun
  obtain ⟨happ, hidle, hbits⟩ := of_decide_eq_true hval
  exact ⟨w, happ, hbits, blocks_accounted smallEnv _ _ 512 0 0 0 _ _ _ _ w (by decide) (by decide)
    ⟨by decide, by decide⟩ smallStore_mount (run_of_runActs .start hw)
    fun t ht => by rw [hidle] at ht; exact absurd ht List.not_mem_nil⟩

/-- The requests of a run in which each one waits until no other is queued. -/
def leakActs : List Act :=
  [createObject 1, .resume, .resume, writeBlock 1, .bioDone 0 true, .resume, .resume, .resume,
    deleteObject 1, .resume, .resume]

/-- The first block of object 1 is written and the object deleted: its block stays in use, and no
object is left. -/
theorem deletedObject_leaks :
    zstoreMount 0 0 ⟨fun _ => 0, fun _ => 0, 2 ^ 32, fun _ => 0, fun _ => 0⟩
      (zstoreMkfs (fun _ => 0) (fun _ => 0) 512 0 fun _ => 0xff) = .ok smallWorld.zs ∧
    ∃ w : World,
    Run (step smallEnv) (fun w a => ∀ r ∈ callOf w a, w.zs.txList = []) smallWorld w ∧
    w.accepted = [0, 1, 2] ∧ w.applied = [0, 1, 2] ∧ w.zs.txList = [] ∧ w.stack = [] ∧
    bit w.zs.ssdAllocator.bs 0 = true ∧ (∀ o, ¬ Valid w.zs.onode o) ∧ ¬ BlocksMapped w.zs := by
  have hrun : (runActs (step smallEnv) (fun w a => ∀ r ∈ callOf w a, w.zs.txList = []) leakActs
      smallWorld).map (fun w => decide (w.accepted = [0, 1, 2] ∧ w.applied = [0, 1, 2] ∧
        w.zs.txList = [] ∧ w.stack = [] ∧ (w.zs.onode 1).valid = false ∧
        (∀ t ∈ w.applied, (w.tx t).request.object = 1) ∧
        0 < w.zs.ssdAllocator.nrTotal ∧ bit w.zs.ssdAllocator.bs 0 = true)) = some true := by
    decide +kernel
  obtain ⟨w, hw, hval⟩ := Option.map_eq_some_iff.mp hrun
  obtain ⟨h1, h2, h3, h4, h5, h6, h7, h8⟩ := of_decide_eq_true hval
  have hr := run_of_runActs .start hw
  have hnone : ∀ o, ¬ Valid w.zs.onode o := by
    intro o ho
    by_cases hone : o = 1
    · rw [Valid, hone, h5] at ho
      exact Bool.noConfusion ho.2
    · have hsame : w.zs.onode o = smallWorld.zs.onode o :=
        onode_kept smallWorld_mounted ho.1 hr fun t ht hc => hone (hc.1.symm.trans (h6 t ht))
      have hzero : w.zs.onode o = 0 := hsame.trans (freshStore_onode ho.1 _)
      rw [Valid, hzero, zero_valid] at ho
      exact Bool.noConfusion ho.2
  refine ⟨smallStore_mount, w, hr, h1, h2, h3, h4, h8, hnone, fun hmap => ?_⟩
  obtain ⟨s, hs, _⟩ := (hmap 0).mp ⟨h7, h8⟩
  exact hnone s.1 hs.1

end ZCell.Store

import ZCell.AllocatorTail
import ZCell.OnodeHistory
import ZCell.Progress

/-! The first block of an object, written again and again while the first of these writes is still
in flight. Each write gives the committed block up and takes the next one of the device, until it
is the turn of the committed one. -/
namespace ZCell.Store
open Bytes Persist Pm Allocator Runs

def firstBlock : Request := ⟨.write, 1, 0, 4096, 0⟩

/-- The index maps the block to block 0, and the device of 512 blocks is free from block `k` on. -/
structure Hot (base : World) (k : Nat) (w : World) : Prop where
  wf : WF w
  stack : w.stack = []
  words : rangeWords w.zs firstBlock = [0]
  in_pm : objectDataIndexBlock w.zs (w.zs.onode 1) + 4 ≤ w.zs.pmem.size
  flag : w.zs.mntFlag &&& zstoreEnableTrim = 0
  total : w.zs.ssdAllocator.nrTotal = 512
  hint : w.zs.ssdAllocator.hint = k % 512
  free : FreeFrom w.zs.ssdAllocator.bs k 512
  /-- The block in front of which the hint is when it has gone round. -/
  second : bit w.zs.ssdAllocator.bs 1 = false
  pm : w.zs.pm = base.zs.pm
  reads : w.zs.txRdonlyList = base.zs.txRdonlyList
  tid_le : base.zs.tidMax ≤ w.zs.tidMax
  older : ∀ t < base.zs.tidMax, w.tx t = base.tx t ∧ w.before t = base.before t
  applied : w.applied = base.applied

/-- Where the index block of an object is. -/
theorem indexBlock_congr {zs zs' : ZstoreContext} (hzsb : zs'.zsb = zs.zsb) (hmem : zs'.mem = zs.mem)
    (hot : zs'.otable = zs.otable) (oid : Nat) :
    objectDataIndexBlock zs' (zs'.onode oid) = objectDataIndexBlock zs (zs.onode oid) := by
  rw [objectDataIndexBlock, objectDataIndexBlock, hzsb, onode_congr hmem hot]

section Calls
variable {env : Env} {base w : World} {k : Nat}

theorem Hot.released (h : Hot base k w) : Store.released w.zs firstBlock =
    { w.zs.ssdAllocator with
      bs := clearBit w.zs.ssdAllocator.bs 0
      nrFree := w.zs.ssdAllocator.nrFree + 1 } := by
  rw [Store.released, oldExtents, h.words]
  rfl

/-- What the allocator gives the write, and how it is left. -/
structure HotTakes (k : Nat) (w : World) : Prop where
  ok : (stupidAllocSpace (Store.released w.zs firstBlock) firstBlock.blen).1 = 0
  extents : newExtents w.zs firstBlock = [⟨k % 512, 1⟩]
  bs : (newSsd w.zs firstBlock).bs = setBit (clearBit w.zs.ssdAllocator.bs 0) (k % 512)
  hint : (newSsd w.zs firstBlock).hint = (k + 1) % 512
  total : (newSsd w.zs firstBlock).nrTotal = 512

theorem Hot.takes (h : Hot base k w) (h2 : 2 ≤ k) (hk : k ≤ 512) : HotTakes k w := by
  have hrel := h.released
  have hclear : ∀ i, i = 0 ∨ i = 1 ∨ k ≤ i ∧ i < 512 →
      bit (clearBit w.zs.ssdAllocator.bs 0) i = false := by
    rintro i (rfl | rfl | ⟨h1, h2⟩)
    · simp [bit_clearBit]
    · simp [bit_clearBit, h.second]
    · simp [bit_clearBit, h.free i h1 h2]
  have hbs : (Store.released w.zs firstBlock).bs = clearBit w.zs.ssdAllocator.bs 0 := by rw [hrel]
  have hhint : (Store.released w.zs firstBlock).hint = k % 512 := by rw [hrel, ← h.hint]
  have htotal : (Store.released w.zs firstBlock).nrTotal = 512 := by rw [hrel, ← h.total]
  have hpos : 1 ≤ (Store.released w.zs firstBlock).nrFree := by
    rw [hrel]
    exact Nat.le_add_left ..
  have hmod : (k % 512 + 1) % 512 = (k + 1) % 512 := by omega
  have hnext := alloc_next hpos (by omega) (by omega) (by
    rw [hbs, hhint]
    exact hclear _ (by omega)) (by
    rw [hbs, hhint, htotal, hmod]
    exact hclear _ (by omega))
  have hlen : firstBlock.blen = 1 := rfl
  rw [hbs, hhint, htotal, hmod] at hnext
  refine ⟨?_, ?_, ?_, ?_, ?_⟩
  · rw [hlen, hnext]
  · rw [newExtents, hlen, hnext]
  · rw [newSsd, hlen, hnext]
  · rw [newSsd, hlen, hnext]
  · rw [newSsd, hlen, hnext]

/-- Another write of the block takes block `k`, or block 0 behind the last one. -/
theorem Hot.write (h : Hot base k w) (h2 : 2 ≤ k) (hk : k ≤ 512)
    (hsub : ∀ t i, env.submit t i = true) :
    ∃ w' buf, step env (.request firstBlock) w = some w' ∧ Hot base (k + 1) w' ∧
      w'.accepted = w.accepted ++ [w.zs.tidMax] ∧ (w'.tx w.zs.tidMax).request = firstBlock ∧
      newExtents (w'.before w.zs.tidMax) firstBlock = [⟨k % 512, 1⟩] ∧
      w'.flight = w.flight ++ [⟨w.zs.tidMax, Bio.ofExtent .write ⟨k % 512, 1⟩, buf⟩] := by
  have hf := h.wf.formatted
  have ht := h.takes h2 hk
  have hchk : ¬ Refused w.zs firstBlock := by
    rw [Refused, hf.onodesRsv]
    decide
  obtain ⟨zs, tx, hprep⟩ := @prepare_write_accepts (env.uninit w.zs.tidMax) w.zs firstBlock
    (w.tx w.zs.tidMax) hf.shift rfl hchk (by decide) h.in_pm
    (by
      rw [h.words, hf.ssdEntrys, h.total]
      decide)
    ((alloc_zero_iff (by decide)).mp ht.ok) h.flag
  obtain ⟨w', hcall, hwr, ha, hs, hflight⟩ := write_sent rfl hf hprep
  have hstep := step_call h.stack hcall
  have hself : w'.tx w.zs.tidMax = tx := ha.tx_self
  obtain ⟨hop, _⟩ | ⟨_, n, hzs⟩ := ha.kind
  · cases hop
  rw [hwr.store] at hzs
  have hidx := @indexBlock_congr w.zs w'.zs (by rw [hzs]) (by rw [hzs]) (by rw [hzs])
  have hpm : w'.zs.pm = w.zs.pm := by rw [hzs]
  obtain ⟨u, hbios⟩ := hwr.bios
  have hnotrim : trimmed u w.zs firstBlock = [] := by
    rw [trimmed, if_neg (not_not.mpr h.flag)]
  rw [hbios, writeBios, ht.extents, hnotrim] at hflight
  refine ⟨w', tx.dataBuffer, hstep, ⟨step_wf h.wf hstep, hs.trans h.stack, ?_, ?_, ?_, ?_, ?_, ?_, ?_, ?_,
    ?_, ?_, fun t hlt => ?_, ?_⟩, ha.accepted, ha.request_self, ?_, ?_⟩
  · rw [rangeWords, hidx, hpm]
    exact h.words
  · rw [hidx]
    have hsize : w'.zs.pmem = w.zs.pmem := by rw [hzs]
    rw [hsize]
    exact h.in_pm
  · rw [hzs]
    exact h.flag
  · rw [hzs]
    exact ht.total
  · rw [hzs]
    exact ht.hint
  · rw [hzs]
    simp only [ht.bs]
    exact ((h.free.clearBit 0).mono (Nat.le_succ k)).setBit (by omega)
  · rw [hzs]
    simp only [ht.bs, bit_setBit, bit_clearBit, h.second, Bool.false_and, Bool.false_or,
      decide_eq_false_iff_not]
    omega
  · rw [hpm]
    exact h.pm
  · rw [hzs]
    exact h.reads
  · rw [hzs]
    exact Nat.le_succ_of_le h.tid_le
  · obtain ⟨h1, h2, _⟩ := ha.older (Nat.lt_of_lt_of_le hlt h.tid_le)
    rw [h1, h2]
    exact h.older t hlt
  · rw [ha.applied]
    exact h.applied
  · rw [ha.before_self]
    exact ht.extents
  · rw [hflight]
    simp [submitBios, hsub]

/-- The writes up to the one that takes the last block. -/
theorem Hot.rewritten {ok : World → Act → Prop} (h : Hot base k w) (h2 : 2 ≤ k)
    (hsub : ∀ t i, env.submit t i = true) (hok : ∀ w, ok w (.request firstBlock)) {n : Nat}
    (hn : k + n ≤ 512) : ∃ w', Run (step env) ok w w' ∧ Hot base (k + n) w' ∧
      w'.accepted.length = w.accepted.length + n := by
  induction n with
  | zero => exact ⟨w, .start, h, rfl⟩
  | succ n ih =>
    obtain ⟨w1, hrun, h1, hlen⟩ := ih (by omega)
    obtain ⟨w2, _, hstep, h2, hacc, _⟩ := h1.write (by omega) (by omega) hsub
    refine ⟨w2, hrun.next _ (hok _) hstep, h2, ?_⟩
    rw [hacc, List.length_append, hlen]
    rfl

/-- A bitmap in which only blocks 0 and 2 are marked. -/
theorem free_of_word {bs : Nat → BitVec 512} (h : bs 0 = 5) : FreeFrom bs 3 512 ∧ bit bs 1 = false := by
  have hbit : ∀ i < 512, bit bs i = Nat.testBit 5 i := by
    intro i hi
    have hfive : (5 : BitVec 512) = BitVec.ofNat 512 5 := rfl
    rw [bit, Nat.div_eq_of_lt hi, h, Nat.mod_eq_of_lt hi, hfive, BitVec.getLsbD_ofNat, decide_eq_true hi]
    rfl
  refine ⟨fun i h1 h2 => ?_, hbit 1 (by decide)⟩
  rw [hbit i h2]
  exact Nat.testBit_lt_two_pow (Nat.lt_of_lt_of_le (by decide) (Nat.pow_le_pow_right (by decide) h1))

end Calls

/-- Two blocks of object 1 are written, and the second one once more. -/
def hotActs : List Act :=
  [createObject 1, .resume, .resume, .request ⟨.write, 1, 0, 2 * 4096, 0⟩, .bioDone 0 true, .resume,
    .resume, .resume, .request ⟨.write, 1, 4096, 4096, 0⟩]

/-- What is to be evaluated of the state that the writes start from. -/
def IsHot (w : World) : Prop :=
  w.stack = [] ∧ rangeWords w.zs firstBlock = [0] ∧
    objectDataIndexBlock w.zs (w.zs.onode 1) + 4 ≤ w.zs.pmem.size ∧
    w.zs.mntFlag &&& zstoreEnableTrim = 0 ∧ w.zs.ssdAllocator.nrTotal = 512 ∧
    w.zs.ssdAllocator.hint = 3 ∧ w.zs.ssdAllocator.bs 0 = 5

instance (w : World) : Decidable (IsHot w) :=
  inferInstanceAs (Decidable (_ ∧ _))

theorem IsHot.hot {w : World} (h : IsHot w) (hw : WF w) : Hot w 3 w := by
  obtain ⟨h1, h2, h3, h4, h5, h6, h7⟩ := h
  obtain ⟨hfree, hone⟩ := free_of_word h7
  exact ⟨hw, h1, h2, h3, h4, h5, h6, hfree, hone, rfl, rfl, Nat.le_refl _, fun _ _ => ⟨rfl, rfl⟩, rfl⟩

end ZCell.Store

import ZCell.Liboss
import ZCell.Reply

/-! The slots of a channel: which ones the bitmap has free, and what each function of liboss.c does
to them. -/
namespace ZCell.Liboss
open Bytes Messager Server

section Bits
variable {b : Bitmap} {i j hint : Nat}

theorem getBit_setBit (b : Bitmap) (i j : Nat) :
    (b.setBit i).getBit j = (b.getBit j || decide (j = i)) := by
  simp only [Bitmap.getBit, Bitmap.setBit]
  by_cases hk : j / 64 = i / 64
  · have hj : j % 64 < 64 := Nat.mod_lt _ (by decide)
    rw [hk, Function.update_self, BitVec.getLsbD_or, BitVec.getLsbD_twoPow]
    by_cases hij : j = i
    · subst hij
      simp [hj]
    · have hne : i % 64 ≠ j % 64 := by omega
      simp [hij, hne]
  · have hij : j ≠ i := fun h => hk (by rw [h])
    rw [Function.update_of_ne hk]
    simp [hij]

theorem getBit_clrBit (b : Bitmap) (i j : Nat) :
    (b.clrBit i).getBit j = (b.getBit j && decide (j ≠ i)) := by
  simp only [Bitmap.getBit, Bitmap.clrBit]
  by_cases hk : j / 64 = i / 64
  · have hj : j % 64 < 64 := Nat.mod_lt _ (by decide)
    rw [hk, Function.update_self, BitVec.getLsbD_and, BitVec.getLsbD_not, BitVec.getLsbD_twoPow]
    by_cases hij : j = i
    · subst hij
      simp [hj]
    · have hne : i % 64 ≠ j % 64 := by omega
      simp [hij, hne, hj]
  · have hij : j ≠ i := fun h => hk (by rw [h])
    rw [Function.update_of_ne hk]
    simp [hij]

theorem getBit_bitmapConstructor (bitLength : BitVec 32) (i : Nat) :
    (bitmapConstructor bitLength).getBit i = true := by
  have hbit : (BitVec.allOnes 64).getLsbD (i % 64) = true := by
    rw [BitVec.getLsbD_allOnes, decide_eq_true (Nat.mod_lt _ (by decide))]
  exact hbit

theorem ffs_spec {v : BitVec 64} (h : v ≠ 0) :
    ffs v < 64 ∧ v.getLsbD (ffs v) = true ∧ ∀ j < ffs v, v.getLsbD j = false := by
  unfold ffs
  cases hf : (List.range 64).find? fun i => v.getLsbD i with
  | some i =>
    obtain ⟨hbit, hmem, hmin⟩ := List.find?_range_eq_some.mp hf
    exact ⟨List.mem_range.mp hmem, hbit, fun j hj => by simpa using hmin j hj⟩
  | none =>
    exfalso
    apply h
    apply BitVec.eq_of_getLsbD_eq
    intro i hi
    have hno := List.find?_eq_none.mp hf i (List.mem_range.mpr hi)
    simpa using hno

/-- The bits in the order in which the loops come to them. -/
def Bitmap.searchOrder (b : Bitmap) (hint : Nat) : List Nat :=
  let k := 64 * (hint / 64)
  List.range' k (64 * b.wordsLength - k) ++ List.range k

theorem find?_word (b : Bitmap) (k : Nat) : (List.range' (64 * k) 64).find? b.getBit =
    if b.words k ≠ 0 then some (64 * k + ffs (b.words k)) else none := by
  have hbit : ∀ i < 64, b.getBit (64 * k + i) = (b.words k).getLsbD i := by
    intro i hi
    have hdiv : (64 * k + i) / 64 = k := by omega
    have hmod : (64 * k + i) % 64 = i := by omega
    rw [Bitmap.getBit, hdiv, hmod]
  split
  · rename_i hne
    obtain ⟨hlt, hset, hmin⟩ := ffs_spec hne
    rw [List.find?_range'_eq_some, hbit _ hlt, List.mem_range'_1]
    refine ⟨hset, by omega, fun j hj hlt' => ?_⟩
    obtain ⟨i, rfl⟩ := Nat.exists_eq_add_of_le hj
    rw [hbit i (by omega), hmin i (by omega)]
    rfl
  · rename_i hz
    rw [List.find?_range'_eq_none]
    intro j hj hlt
    obtain ⟨i, rfl⟩ := Nat.exists_eq_add_of_le hj
    rw [hbit i (by omega), not_not.mp hz]
    simp

theorem find?_words (b : Bitmap) (k n : Nat) : ((List.range' k n).find? fun i => b.words i ≠ 0).map
    (fun i => 64 * i + ffs (b.words i)) = (List.range' (64 * k) (64 * n)).find? b.getBit := by
  induction n generalizing k with
  | zero => rfl
  | succ n ih =>
    have hsplit : List.range' (64 * k) (64 * (n + 1)) =
        List.range' (64 * k) 64 ++ List.range' (64 * (k + 1)) (64 * n) := by
      rw [Nat.mul_succ 64 k, List.range'_append_1, Nat.mul_succ, Nat.add_comm]
    rw [hsplit, List.find?_append, find?_word, ← ih, List.range'_succ]
    by_cases hz : b.words k = 0
    · rw [List.find?_cons_of_neg (by simpa using hz), if_neg (not_not.mpr hz), Option.none_or]
    · rw [List.find?_cons_of_pos (by simpa using hz), if_pos hz, Option.map_some, Option.some_or]

/-- Searching the words finds the first set bit of the order. -/
theorem nextSetIndex_eq (b : Bitmap) (hint : Nat) :
    b.nextSetIndex hint = (b.searchOrder hint).find? b.getBit := by
  unfold Bitmap.nextSetIndex Bitmap.searchOrder
  have hlen : 64 * b.wordsLength - 64 * (hint / 64) = 64 * (b.wordsLength - hint / 64) := by omega
  have hbefore := find?_words b 0 (hint / 64)
  rw [Nat.mul_zero, ← List.range_eq_range', ← List.range_eq_range'] at hbefore
  dsimp only
  rw [List.find?_append, List.find?_append, hlen, ← find?_words, ← hbefore]
  cases (List.range' (hint / 64) (b.wordsLength - hint / 64)).find? fun i => b.words i ≠ 0 <;> rfl

theorem mem_searchOrder (h : hint ≤ 64 * b.wordsLength) :
    i ∈ b.searchOrder hint ↔ i < 64 * b.wordsLength := by
  simp only [Bitmap.searchOrder, List.mem_append, List.mem_range'_1, List.mem_range]
  omega

theorem nextSetIndex_spec (h : b.nextSetIndex hint = some i) : b.getBit i = true ∧
    (hint ≤ 64 * b.wordsLength → i < 64 * b.wordsLength) := by
  rw [nextSetIndex_eq] at h
  exact ⟨List.find?_some h, fun hhint => (mem_searchOrder hhint).mp (List.mem_of_find?_eq_some h)⟩

/-- The index loses its upper bits, and may turn negative. -/
theorem nextSet_of_index (h : b.nextSetIndex hint = some i) : b.nextSet hint =
    if i % 2 ^ 32 < 2 ^ 31 then ((i % 2 ^ 32 : Nat) : Int) else ((i % 2 ^ 32 : Nat) : Int) - 2 ^ 32 := by
  simp only [Bitmap.nextSet, h, BitVec.toInt_eq_toNat_cond, BitVec.toNat_ofNat]
  split <;> split <;> omega

/-- A search that succeeds has found an index whose lower half is not negative. -/
theorem findNextSetAndClr_cases (b : Bitmap) (hint : Nat) :
    b.findNextSetAndClr hint = (-1, b) ∧
      (∀ i, b.nextSetIndex hint = some i → 2 ^ 31 ≤ i % 2 ^ 32) ∨
    ∃ i, b.nextSetIndex hint = some i ∧ i % 2 ^ 32 < 2 ^ 31 ∧
      b.findNextSetAndClr hint = (((i % 2 ^ 32 : Nat) : Int), b.clrBit (i % 2 ^ 32)) := by
  unfold Bitmap.findNextSetAndClr
  cases hn : b.nextSetIndex hint with
  | none =>
    have hneg : b.nextSet hint = -1 := by rw [Bitmap.nextSet, hn]
    exact Or.inl ⟨by rw [hneg]; rfl, fun i hi => nomatch hi⟩
  | some i =>
    have hcode := nextSet_of_index hn
    by_cases hlt : i % 2 ^ 32 < 2 ^ 31
    · rw [if_pos hlt] at hcode
      refine Or.inr ⟨i, rfl, hlt, ?_⟩
      dsimp only
      rw [hcode, if_neg (by omega), Int.toNat_natCast]
    · rw [if_neg hlt] at hcode
      refine Or.inl ⟨?_, fun j hj => ?_⟩
      · dsimp only
        rw [hcode, if_pos (by omega)]
      · obtain rfl := Option.some.inj hj
        omega

end Bits

/-- The free slots are those of the bitmap, and the message of a slot that is not free names it. -/
structure Slots (kind : Kind) (ch : IoChannel) : Prop where
  sessionType : ch.sessionType = kind
  depth_lt : ch.queueDepth < 2 ^ 32
  reapDepth : ch.reapDepth = ch.queueDepth
  words : 64 * ch.opCtxsBitmap.wordsLength ≤ 2 ^ 32
  hint : ch.bitmapHint ≤ 64 * ch.opCtxsBitmap.wordsLength
  free : ∀ id < ch.queueDepth,
    ch.opCtxsBitmap.getBit id = true ↔ (ch.opCtxs id).state = .new
  slot : ∀ id < ch.queueDepth, (ch.opCtxs id).state ≠ .new →
    (ch.opCtxs id).requestAndResponse.header.rsv 0 = id
  request : ∀ id < ch.queueDepth, (ch.opCtxs id).state = .waitingSubmit →
    let hdr := (ch.opCtxs id).requestAndResponse.header
    hdr.magic = kind.magic ∧ hdr.type ∈ ossTypes

section Header
variable (seq : BitVec 64) (kind : Kind) {type metaLength dataLength rsv0 : Nat}

theorem field_of_append (hdr : MsgHdr) (pre mid suf : List Byte)
    (hb : hdr.bytes = pre ++ (mid ++ suf)) : hdr.field pre.length mid.length = leValue mid := by
  rw [MsgHdr.field, hb, List.drop_left, List.take_left]

theorem build_magic :
    (MsgHdr.build seq type kind.magic metaLength dataLength rsv0).magic = kind.magic := by
  have hf := field_of_append (MsgHdr.build seq type kind.magic metaLength dataLength rsv0)
    (leBytes 8 seq.toNat ++ leBytes 1 type ++ [0]) (leBytes 1 kind.magic)
    (leBytes 1 metaLength ++ leBytes 4 dataLength ++ leBytes 2 0 ++ leBytes 4 rsv0 ++ leBytes 4 0)
    (by simp only [MsgHdr.build, List.append_assoc])
  simp only [List.length_append, leBytes_length, List.length_cons, List.length_nil,
    leValue_leBytes] at hf
  refine hf.trans ?_
  cases kind <;> rfl

theorem build_type (ht : type < 256) :
    (MsgHdr.build seq type kind.magic metaLength dataLength rsv0).type = type := by
  have hf := field_of_append (MsgHdr.build seq type kind.magic metaLength dataLength rsv0)
    (leBytes 8 seq.toNat) (leBytes 1 type)
    ([0] ++ leBytes 1 kind.magic ++ leBytes 1 metaLength ++ leBytes 4 dataLength ++ leBytes 2 0 ++
      leBytes 4 rsv0 ++ leBytes 4 0)
    (by simp only [MsgHdr.build, List.append_assoc])
  simp only [leBytes_length, leValue_leBytes] at hf
  exact hf.trans (Nat.mod_eq_of_lt ht)

theorem build_metaLength (hm : metaLength < 256) :
    (MsgHdr.build seq type kind.magic metaLength dataLength rsv0).metaLength = metaLength := by
  have hf := field_of_append (MsgHdr.build seq type kind.magic metaLength dataLength rsv0)
    (leBytes 8 seq.toNat ++ leBytes 1 type ++ [0] ++ leBytes 1 kind.magic) (leBytes 1 metaLength)
    (leBytes 4 dataLength ++ leBytes 2 0 ++ leBytes 4 rsv0 ++ leBytes 4 0)
    (by simp only [MsgHdr.build, List.append_assoc])
  simp only [List.length_append, leBytes_length, List.length_cons, List.length_nil,
    leValue_leBytes] at hf
  exact hf.trans (Nat.mod_eq_of_lt hm)

theorem build_dataLength (hd : dataLength < 2 ^ 32) :
    (MsgHdr.build seq type kind.magic metaLength dataLength rsv0).dataLength = dataLength := by
  have hf := field_of_append (MsgHdr.build seq type kind.magic metaLength dataLength rsv0)
    (leBytes 8 seq.toNat ++ leBytes 1 type ++ [0] ++ leBytes 1 kind.magic ++ leBytes 1 metaLength)
    (leBytes 4 dataLength) (leBytes 2 0 ++ leBytes 4 rsv0 ++ leBytes 4 0)
    (by simp only [MsgHdr.build, List.append_assoc])
  simp only [List.length_append, leBytes_length, List.length_cons, List.length_nil,
    leValue_leBytes] at hf
  exact hf.trans (Nat.mod_eq_of_lt hd)

theorem build_rsv (hr : rsv0 < 2 ^ 32) :
    (MsgHdr.build seq type kind.magic metaLength dataLength rsv0).rsv 0 = rsv0 := by
  have hf := field_of_append (MsgHdr.build seq type kind.magic metaLength dataLength rsv0)
    (leBytes 8 seq.toNat ++ leBytes 1 type ++ [0] ++ leBytes 1 kind.magic ++
    leBytes 1 metaLength ++ leBytes 4 dataLength ++ leBytes 2 0) (leBytes 4 rsv0) (leBytes 4 0)
    (by simp only [MsgHdr.build, List.append_assoc])
  simp only [List.length_append, leBytes_length, List.length_cons, List.length_nil,
    leValue_leBytes] at hf
  exact hf.trans (Nat.mod_eq_of_lt hr)

end Header

section Channel
variable {kind : Kind} {ch ch' : IoChannel} {id : Nat}

@[simp] theorem setOp_self (ch : IoChannel) (id : Nat) (op : OpCtx) : (ch.setOp id op).opCtxs id = op :=
  Function.update_self ..

theorem setOp_other (ch : IoChannel) (op : OpCtx) {i : Nat} (h : i ≠ id) :
    (ch.setOp id op).opCtxs i = ch.opCtxs i := Function.update_of_ne h ..

theorem getIoChannel_slots (kind : Kind) (session : Nat) (maxQd : BitVec 32) :
    Slots kind (getIoChannel kind session maxQd) where
  sessionType := rfl
  depth_lt := BitVec.isLt _
  reapDepth := rfl
  words := Nat.mul_div_le .. |>.trans (BitVec.isLt _).le
  hint := Nat.zero_le _
  free id _ := ⟨fun _ => rfl, fun _ => getBit_bitmapConstructor _ id⟩
  slot _ _ h := absurd rfl h
  request _ _ h := nomatch h

/-- The effect of a prepared operation: the slot `id` was free and now waits with a request. -/
structure PreparedOp (kind : Kind) (ch ch' : IoChannel) (id : Nat) : Prop where
  lt : id < ch.queueDepth
  isNew : (ch.opCtxs id).state = .new
  waiting : (ch'.opCtxs id).state = .waitingSubmit
  other : ∀ i, i ≠ id → ch'.opCtxs i = ch.opCtxs i
  queueDepth : ch'.queueDepth = ch.queueDepth
  cplNr : ch'.cplNr = ch.cplNr
  words : ch'.opCtxsBitmap.wordsLength = ch.opCtxsBitmap.wordsLength
  slots : Slots kind ch'

/-- The slot that `_alloc_op` hands out is the one that the loops have found. -/
theorem allocOp_spec (hwords : 64 * ch.opCtxsBitmap.wordsLength ≤ 2 ^ 32)
    (hhint : ch.bitmapHint ≤ 64 * ch.opCtxsBitmap.wordsLength) :
    (allocOp ch = none ∧
      ∀ i, ch.opCtxsBitmap.nextSetIndex ch.bitmapHint = some i → 2 ^ 31 ≤ i) ∨
    ∃ id, ch.opCtxsBitmap.nextSetIndex ch.bitmapHint = some id ∧ id < 2 ^ 31 ∧ allocOp ch = some (id,
      { ch with bitmapHint := id + 1, opCtxsBitmap := ch.opCtxsBitmap.clrBit id }) := by
  have hlt : ∀ i, ch.opCtxsBitmap.nextSetIndex ch.bitmapHint = some i → i % 2 ^ 32 = i := fun i hi =>
    Nat.mod_eq_of_lt (((nextSetIndex_spec hi).2 hhint).trans_le hwords)
  unfold allocOp
  obtain ⟨hfind, hneg⟩ | ⟨i, hi, hpos, hfind⟩ :=
    findNextSetAndClr_cases ch.opCtxsBitmap ch.bitmapHint
  · refine Or.inl ⟨by rw [hfind]; rfl, fun i hi => ?_⟩
    rw [← hlt i hi]
    exact hneg i hi
  · rw [hlt i hi] at hpos hfind
    refine Or.inr ⟨i, hi, hpos, ?_⟩
    dsimp only
    rw [hfind, if_neg (by omega), Int.toNat_natCast]

/-- The channel when slot `id` has been taken for the message `m`. -/
def IoChannel.prepared (ch : IoChannel) (id : Nat) (m : Msg) : IoChannel :=
  { ch with
    bitmapHint := id + 1
    opCtxsBitmap := ch.opCtxsBitmap.clrBit id
    opCtxs := Function.update ch.opCtxs id ⟨m, .waitingSubmit⟩
    seq := ch.seq + 1 }

/-- A call takes the slot that the search finds, which has to lie in the array. -/
theorem prepare_cases (hwords : 64 * ch.opCtxsBitmap.wordsLength ≤ 2 ^ 32)
    (hhint : ch.bitmapHint ≤ 64 * ch.opCtxsBitmap.wordsLength) {opType metaSize dataLength : Nat}
    {metaBuffer dataBuffer : Option (List Byte)} (hm : metaSize ≤ 255) :
    (ioPrepareOpCommon ch opType metaSize metaBuffer dataLength dataBuffer = .ok (enomem, ch) ∧
      ∀ i, ch.opCtxsBitmap.nextSetIndex ch.bitmapHint = some i → 2 ^ 31 ≤ i) ∨
    ∃ id, ch.opCtxsBitmap.nextSetIndex ch.bitmapHint = some id ∧ id < 2 ^ 31 ∧
      ioPrepareOpCommon ch opType metaSize metaBuffer dataLength dataBuffer =
        if ch.queueDepth ≤ id then .error .workArray
        else
          let hdr := MsgHdr.build ch.seq opType ch.sessionType.magic metaSize dataLength id
          let m := messageStateReset ⟨⟨0, 0, 0⟩, hdr, metaBuffer, dataBuffer, ch.session⟩
          .ok ((id : Int), ch.prepared id m) := by
  unfold ioPrepareOpCommon
  obtain ⟨halloc, hnone⟩ | ⟨id, hn, hlt, halloc⟩ := allocOp_spec hwords hhint
  · rw [halloc]
    exact Or.inl ⟨rfl, hnone⟩
  · refine Or.inr ⟨id, hn, hlt, ?_⟩
    rw [halloc]
    dsimp only
    rw [if_neg (Nat.not_lt_of_le hm)]
    rfl

theorem prepare_spec (hs : Slots kind ch) {opType metaSize dataLength : Nat}
    {metaBuffer dataBuffer : Option (List Byte)} (ht : opType ∈ ossTypes) (hm : metaSize ≤ 255)
    {rc : Int} (h : ioPrepareOpCommon ch opType metaSize metaBuffer dataLength dataBuffer =
      .ok (rc, ch')) : (rc < 0 ∧ ch' = ch) ∨ ∃ id : Nat, rc = id ∧ PreparedOp kind ch ch' id := by
  obtain ⟨hcall, _⟩ | ⟨id, hn, _, hcall⟩ := @prepare_cases ch hs.words hs.hint opType metaSize dataLength
    metaBuffer dataBuffer hm
  · rw [hcall] at h
    obtain ⟨rfl, rfl⟩ := Prod.mk.inj (Except.ok.inj h)
    exact Or.inl ⟨by decide, rfl⟩
  · rw [hcall] at h
    split at h
    · cases h
    · rename_i hlt
      obtain ⟨rfl, rfl⟩ := Prod.mk.inj (Except.ok.inj h)
      have hlt : id < ch.queueDepth := Nat.lt_of_not_le hlt
      obtain ⟨hbit, hrange⟩ := nextSetIndex_spec hn
      have hty : opType < 256 := by
        simp only [ossTypes, List.mem_cons, List.not_mem_nil, or_false] at ht
        obtain rfl | rfl | rfl | rfl | rfl := ht <;> decide
      have hother : ∀ (m : Msg) (i : Nat), i ≠ id → (ch.prepared id m).opCtxs i = ch.opCtxs i :=
        fun m i hi => Function.update_of_ne hi ..
      refine Or.inr ⟨id, rfl, hlt, (hs.free id hlt).mp hbit, ?_, hother _, rfl, rfl, rfl, ?_⟩
      · simp [IoChannel.prepared]
      · refine ⟨hs.sessionType, hs.depth_lt, hs.reapDepth, hs.words, hrange hs.hint, ?_, ?_, ?_⟩
        · intro i hi
          by_cases he : i = id
          · subst he
            simp [getBit_clrBit, IoChannel.prepared]
          · have hi' : i < ch.queueDepth := hi
            rw [hother _ i he]
            simp only [IoChannel.prepared, getBit_clrBit, decide_eq_true he, Bool.and_true]
            exact hs.free i hi'
        · intro i hi hne
          by_cases he : i = id
          · subst he
            simp only [IoChannel.prepared, Function.update_self]
            exact build_rsv _ _ (hi.trans hs.depth_lt)
          · simp only [hother _ i he] at hne ⊢
            exact hs.slot i hi hne
        · intro i hi hw
          by_cases he : i = id
          · subst he
            simp only [IoChannel.prepared, Function.update_self, messageStateReset_header, hs.sessionType]
            rw [build_magic, build_type _ _ hty]
            exact ⟨rfl, ht⟩
          · simp only [hother _ i he] at hw ⊢
            exact hs.request i hi hw

theorem ioCall_spec (hs : Slots kind ch) {call : Call} {rc : Int} (h : ioCall ch call = .ok (rc, ch')) :
    (rc < 0 ∧ ch' = ch) ∨ ∃ id : Nat, rc = id ∧ PreparedOp kind ch ch' id := by
  cases call with
  | stat => exact prepare_spec hs (by decide) (by decide) h
  | create oid => exact prepare_spec hs (by decide) (by decide) h
  | delete oid => exact prepare_spec hs (by decide) (by decide) h
  | read oid ofst len junk => exact prepare_spec hs (by decide) (by decide) h
  | read2 buf oid ofst len => exact prepare_spec hs (by decide) (by decide) h
  | write oid buffer ofst len => exact prepare_spec hs (by decide) (by decide) h

/-- The result of a call that prepares the message `m`, whatever the operation is. -/
def Prepares (ch : IoChannel) (r : Except Fault (Int × IoChannel)) : Prop :=
  (r = .ok (enomem, ch) ∧ ∀ i, ch.opCtxsBitmap.nextSetIndex ch.bitmapHint = some i → 2 ^ 31 ≤ i) ∨
  ∃ (id : Nat) (m : Msg), ch.opCtxsBitmap.nextSetIndex ch.bitmapHint = some id ∧ id < 2 ^ 31 ∧
    m.header.rsv 0 = id ∧
      r = if ch.queueDepth ≤ id then .error .workArray else .ok ((id : Int), ch.prepared id m)

theorem ioCall_prepares (hwords : 64 * ch.opCtxsBitmap.wordsLength ≤ 2 ^ 32)
    (hhint : ch.bitmapHint ≤ 64 * ch.opCtxsBitmap.wordsLength) (call : Call) :
    Prepares ch (ioCall ch call) := by
  have hcommon : ∀ opType metaSize mb dl db, metaSize ≤ 255 →
      Prepares ch (ioPrepareOpCommon ch opType metaSize mb dl db) := by
    intro opType metaSize mb dl db hm
    obtain hcall | ⟨id, hn, hlt, hcall⟩ :=
      @prepare_cases ch hwords hhint opType metaSize dl mb db hm
    · exact Or.inl hcall
    · exact Or.inr ⟨id, _, hn, hlt, build_rsv _ _ (by omega), hcall⟩
  cases call with
  | stat => exact hcommon _ _ _ _ _ (by decide)
  | create oid => exact hcommon _ _ _ _ _ (by decide)
  | delete oid => exact hcommon _ _ _ _ _ (by decide)
  | read oid ofst len junk => exact hcommon _ _ _ _ _ (by decide)
  | read2 buf oid ofst len => exact hcommon _ _ _ _ _ (by decide)
  | write oid buffer ofst len => exact hcommon _ _ _ _ _ (by decide)

/-- A call faults only where the bitmap has slots beyond the depth. -/
theorem ioCall_ok (hs : Slots kind ch) (hfull : 64 * ch.opCtxsBitmap.wordsLength ≤ ch.queueDepth)
    (call : Call) : ∃ r, ioCall ch call = .ok r := by
  obtain ⟨hcall, _⟩ | ⟨id, m, hn, _, _, hcall⟩ := ioCall_prepares hs.words hs.hint call
  · exact ⟨_, hcall⟩
  · have hlt := (nextSetIndex_spec hn).2 hs.hint
    rw [if_neg (by omega)] at hcall
    exact ⟨_, hcall⟩

/-- A change of the state of a slot, neither to nor from `new` or `waitingSubmit`. -/
theorem Slots.setOp (hs : Slots kind ch) {op : OpCtx} (hold : (ch.opCtxs id).state ≠ .new)
    (hnew : op.state ≠ .new) (hwait : op.state ≠ .waitingSubmit)
    (hslot : id < ch.queueDepth → op.requestAndResponse.header.rsv 0 = id) :
    Slots kind (ch.setOp id op) := by
  refine ⟨hs.sessionType, hs.depth_lt, hs.reapDepth, hs.words, hs.hint, ?_, ?_, ?_⟩
  · intro i hi
    by_cases he : i = id
    · subst he
      rw [setOp_self]
      exact ⟨fun hb => absurd ((hs.free i hi).mp hb) hold, fun hn => absurd hn hnew⟩
    · rw [setOp_other ch op he]
      exact hs.free i hi
  · intro i hi hne
    by_cases he : i = id
    · subst he
      rw [setOp_self]
      exact hslot hi
    · rw [setOp_other ch op he] at hne ⊢
      exact hs.slot i hi hne
  · intro i hi hw
    by_cases he : i = id
    · subst he
      rw [setOp_self] at hw
      exact absurd hw hwait
    · rw [setOp_other ch op he] at hw ⊢
      exact hs.request i hi hw

/-- What a slot that ended becomes when it is destroyed. -/
structure Destroyed (kind : Kind) (ch ch' : IoChannel) (id : Nat) : Prop where
  lt : id < ch.queueDepth
  ended : (ch.opCtxs id).state = .ended
  isNew : (ch'.opCtxs id).state = .new
  other : ∀ i, i ≠ id → ch'.opCtxs i = ch.opCtxs i
  queueDepth : ch'.queueDepth = ch.queueDepth
  cplNr : ch'.cplNr = ch.cplNr
  words : ch'.opCtxsBitmap.wordsLength = ch.opCtxsBitmap.wordsLength
  slots : Slots kind ch'

theorem freeOp_ended (hs : Slots kind ch) (hlt : id < ch.queueDepth)
    (he : (ch.opCtxs id).state = .ended) : ∃ ch', freeOp ch id = .ok ch' ∧ Destroyed kind ch ch' id := by
  have hne : (ch.opCtxs id).state ≠ .new := by
    rw [he]
    decide
  have hslot := hs.slot id hlt hne
  have hbit : ch.opCtxsBitmap.getBit id ≠ true := fun hb => hne ((hs.free id hlt).mp hb)
  have hother : ∀ i, i ≠ id →
      (ch.setState id .new).opCtxs i = ch.opCtxs i := fun i hi => setOp_other ch _ hi
  simp only [freeOp, he, ne_eq, not_true_eq_false, if_false, hslot, if_neg hbit, Except.ok.injEq]
  refine ⟨_, rfl, hlt, he, ?_, hother, rfl, rfl, rfl, ?_⟩
  · simp [IoChannel.setState]
  · refine ⟨hs.sessionType, hs.depth_lt, hs.reapDepth, hs.words, ?_, ?_, ?_, ?_⟩
    · have hhint := hs.hint
      simp only [Bitmap.setBit]
      split <;> omega
    · intro i hi
      by_cases hi' : i = id
      · subst hi'
        simp [getBit_setBit, IoChannel.setState]
      · have hfree := hs.free i hi
        simp only [hother i hi', getBit_setBit, decide_eq_false hi', Bool.or_false]
        exact hfree
    · intro i hi hni
      by_cases hi' : i = id
      · subst hi'
        simp [IoChannel.setState] at hni
      · simp only [hother i hi'] at hni ⊢
        exact hs.slot i hi hni
    · intro i hi hw
      by_cases hi' : i = id
      · subst hi'
        simp [IoChannel.setState] at hw
      · simp only [hother i hi'] at hw ⊢
        exact hs.request i hi hw

theorem opDestory_spec (hs : Slots kind ch) {rc : Int} (h : opDestory ch id = .ok (rc, ch')) :
    ch' = ch ∨ Destroyed kind ch ch' id := by
  unfold opDestory at h
  split at h
  · rename_i hlt
    cases hst : (ch.opCtxs id).state <;> rw [hst] at h <;> dsimp only at h
    · cases h
    · rw [freeOp, if_pos (by rw [hst]; decide)] at h
      cases h
    · obtain ⟨_, rfl⟩ := Prod.mk.inj (Except.ok.inj h)
      exact Or.inl rfl
    · rw [freeOp, if_pos (by rw [hst]; decide)] at h
      cases h
    · obtain ⟨ch2, hok, hd⟩ := freeOp_ended hs hlt hst
      rw [hok] at h
      obtain ⟨_, rfl⟩ := Prod.mk.inj (Except.ok.inj h)
      exact Or.inr hd
  · obtain ⟨_, rfl⟩ := Prod.mk.inj (Except.ok.inj h)
    exact Or.inl rfl

end Channel
end ZCell.Liboss

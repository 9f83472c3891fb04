import ZCell.Messager

/-! What one call of the sender or of the receiver does to the stream: the bytes that a message
still has to send or has received so far, whatever the socket moves at a time. -/
namespace ZCell.Messager
open Bytes

/-- What the receiver of a message sees. -/
structure Content where
  header : MsgHdr
  metaBytes : List Byte
  dataBytes : List Byte
  deriving DecidableEq

namespace Content

/-- The parts are as long as the header says. -/
structure Whole (c : Content) : Prop where
  metaLen : c.metaBytes.length = c.header.metaLength
  dataLen : c.dataBytes.length = c.header.dataLength

def bytes (c : Content) : List Byte := c.header.bytes ++ (c.metaBytes ++ c.dataBytes)

/-- The header tells where a message ends. -/
theorem Whole.unique {c d : Content} {r s : List Byte} (hc : c.Whole) (hd : d.Whole)
    (h : c.bytes ++ r = d.bytes ++ s) : c = d ∧ r = s := by
  simp only [bytes, List.append_assoc] at h
  obtain ⟨hh, h⟩ := List.append_inj h (c.header.size.trans d.header.size.symm)
  have hhdr : c.header = d.header := by
    cases hch : c.header
    cases hdh : d.header
    simp only [hch, hdh] at hh
    simp only [hh]
  obtain ⟨hm, h⟩ := List.append_inj h (by rw [hc.metaLen, hd.metaLen, hhdr])
  obtain ⟨hb, h⟩ := List.append_inj h (by rw [hc.dataLen, hd.dataLen, hhdr])
  refine ⟨?_, h⟩
  cases c
  cases d
  simp only at hhdr hm hb
  rw [hhdr, hm, hb]

theorem Whole.length {c : Content} (hc : c.Whole) :
    c.bytes.length = 26 + c.header.metaLength + c.header.dataLength := by
  have hs := c.header.size
  rw [bytes, List.length_append, List.length_append, hc.metaLen, hc.dataLen, hs]
  simp only [sizeofHdr]
  omega

end Content

/-- The header, and the buffers as far as the header announces them. -/
def content (m : Msg) : Content :=
  ⟨m.header, (m.metaBuffer.getD []).take m.header.metaLength,
    (m.dataBuffer.getD []).take m.header.dataLength⟩

section Counter
variable {w : Nat} {rc : Int} {again : Bool} {rem : BitVec w}

theorem sockRcHandle_fail (h : rc ≤ 0) :
    sockRcHandle rc again rem = (if again then .eagain else .needClose, rem) := by
  rw [sockRcHandle, if_pos h]

/-- The counter goes down by the bytes that were moved. -/
theorem sockRcHandle_moved {n : Nat} (hpos : 0 < n) (hle : n ≤ rem.toNat) :
    (sockRcHandle (n : Int) again rem).2.toNat = rem.toNat - n ∧
    ((sockRcHandle (n : Int) again rem).1 = .rwOk ↔ n = rem.toNat) ∧
    (sockRcHandle (n : Int) again rem).1 ≠ .needClose := by
  have hlt := rem.isLt
  have hsub : (rem - BitVec.ofNat w n).toNat = rem.toNat - n := by
    rw [BitVec.toNat_sub_of_le]
    · rw [BitVec.toNat_ofNat, Nat.mod_eq_of_lt (by omega)]
    · rw [BitVec.le_def, BitVec.toNat_ofNat, Nat.mod_eq_of_lt (by omega)]
      exact hle
  have hz : rem - BitVec.ofNat w n = 0 ↔ n = rem.toNat := by
    constructor
    · intro h0
      have ht := congrArg BitVec.toNat h0
      rw [hsub] at ht
      simp only [BitVec.toNat_zero, BitVec.ofNat_eq_ofNat] at ht
      omega
    · intro h0
      apply BitVec.eq_of_toNat_eq
      rw [hsub]
      simp only [BitVec.toNat_zero, BitVec.ofNat_eq_ofNat]
      omega
  have hneg : ¬ (n : Int) ≤ 0 := by omega
  rw [sockRcHandle, if_neg hneg]
  simp only [Int.toNat_natCast]
  refine ⟨hsub, ?_, ?_⟩
  · rw [← hz]
    simp
  · split
    · decide
    · decide

end Counter

section Sending
variable {w : Nat} {m : Msg} {c : Send}

/-- The bytes of a message that have not been sent. -/
def unsent (m : Msg) : List Byte :=
  (content m).header.bytes.drop (sizeofHdr - m.state.hdrRemLen.toNat) ++
    ((content m).metaBytes.drop (m.header.metaLength - m.state.metaRemLen.toNat) ++
      (content m).dataBytes.drop (m.header.dataLength - m.state.dataRemLen.toNat))

/-- A message in the send queue. -/
structure Sending (m : Msg) : Prop where
  whole : (content m).Whole
  hdr : m.state.hdrRemLen.toNat ≤ sizeofHdr
  metaLe : m.state.metaRemLen.toNat ≤ m.header.metaLength
  dataLe : m.state.dataRemLen.toNat ≤ m.header.dataLength

/-- One `writev`: the part goes out from the front. -/
theorem writev_spec (c : Send) {part : List Byte} {rem : BitVec w} (hpos : rem ≠ 0)
    (hlen : rem.toNat ≤ part.length) : ∃ n ≤ rem.toNat,
    (c.writev part rem).2.1.toNat = rem.toNat - n ∧
    (c.writev part rem).2.2.1 = c.wire ++ part.take n ∧
    ((c.writev part rem).1 = .rwOk → n = rem.toNat) ∧
    ((c.writev part rem).1 = .needClose → .error ∈ c.turns) ∧
    (c.writev part rem).2.2.2 ⊆ c.turns := by
  have hne : rem.toNat ≠ 0 := fun h0 => hpos (BitVec.eq_of_toNat_eq h0)
  unfold Send.writev
  split
  · rename_i hturns
    exact ⟨0, Nat.zero_le _, rfl, by simp, by simp, by simp, by simp⟩
  · rename_i t ts hturns
    have hsub : ts ⊆ t :: ts := List.subset_cons_self t ts
    cases t with
    | wouldBlock =>
      have hf := @sockRcHandle_fail w (-1) true rem (by decide)
      refine ⟨0, Nat.zero_le _, ?_, ?_, ?_, ?_, ?_⟩
      all_goals simp [writev, hf, hturns]
    | error =>
      have hf := @sockRcHandle_fail w (-1) false rem (by decide)
      refine ⟨0, Nat.zero_le _, ?_, ?_, ?_, ?_, ?_⟩
      all_goals simp [writev, hf, hturns]
    | upTo n =>
      have hmax := ioMax_pos
      have hl : ((part.take rem.toNat).take (min (n + 1) ioMax)).length =
          min (min (n + 1) ioMax) rem.toNat := by
        rw [List.length_take, List.length_take]
        omega
      have htake : (part.take rem.toNat).take (min (n + 1) ioMax) =
          part.take (min (min (n + 1) ioMax) rem.toNat) := List.take_take
      simp only [writev, hl]
      obtain ⟨h1, h2, h3⟩ := @sockRcHandle_moved w false rem (min (min (n + 1) ioMax) rem.toNat)
        (by omega) (Nat.min_le_right _ _)
      refine ⟨min (min (n + 1) ioMax) rem.toNat, Nat.min_le_right _ _, h1, ?_, h2.mp, ?_, ?_⟩
      · rw [htake]
      · intro hc
        exact absurd hc h3
      · rw [hturns]
        exact hsub

/-- A turn that lets bytes through lowers the counter. -/
theorem writev_moves {part : List Byte} {rem : BitVec w} {n : Nat} {ts : List Turn} (hpos : rem ≠ 0)
    (hlen : rem.toNat ≤ part.length) (ht : c.turns = .upTo n :: ts) :
    (c.writev part rem).2.1.toNat < rem.toNat := by
  have hne : rem.toNat ≠ 0 := fun h0 => hpos (BitVec.eq_of_toNat_eq h0)
  have hmax := ioMax_pos
  have hl : ((part.take rem.toNat).take (min (n + 1) ioMax)).length =
      min (min (n + 1) ioMax) rem.toNat := by
    rw [List.length_take, List.length_take]
    omega
  unfold Send.writev
  rw [ht]
  simp only [writev, hl]
  obtain ⟨h1, -, -⟩ := @sockRcHandle_moved w false rem (min (min (n + 1) ioMax) rem.toNat)
    (by omega) (Nat.min_le_right _ _)
  omega

/-- What a part of the sender does: it moves bytes from the message to the wire. -/
structure Sends (c : Send) (r : SockStatus × Send) : Prop where
  content : content r.2.m = content c.m
  sending : Sending r.2.m
  moved : ∃ bs, r.2.wire = c.wire ++ bs ∧ bs ++ unsent r.2.m = unsent c.m
  closes : r.1 = .needClose → .error ∈ c.turns
  turns : r.2.turns ⊆ c.turns

theorem Sends.refl (h : Sending c.m) : Sends c (.rwOk, c) :=
  ⟨rfl, h, ⟨[], by simp, rfl⟩, by simp, List.Subset.refl _⟩

theorem Sends.trans {r : SockStatus × Send} {f : Send → SockStatus × Send} (h : Sends c r)
    (hf : r.1 = .rwOk → Sends r.2 (f r.2)) : Sends c (andThen r f) := by
  unfold andThen
  split
  · rename_i hok
    obtain ⟨h1, h2, ⟨bs, hw, hu⟩, h4, h5⟩ := h
    obtain ⟨g1, g2, ⟨bs', gw, gu⟩, g4, g5⟩ := hf hok
    exact ⟨g1.trans h1, g2, ⟨bs ++ bs', by rw [gw, hw, List.append_assoc],
      by rw [List.append_assoc, gu, hu]⟩, fun hc => h5 (g4 hc), fun _ ht => h5 (g5 ht)⟩
  · exact h

/-- The three parts have the bytes that are counted. -/
theorem Sending.hdr_le (h : Sending m) : m.state.hdrRemLen.toNat ≤
    (m.header.bytes.drop (sizeofHdr - m.state.hdrRemLen.toNat)).length := by
  have hsize := m.header.size
  have hle := h.hdr
  rw [List.length_drop, hsize]
  omega

theorem Sending.meta_le (h : Sending m) : m.state.metaRemLen.toNat ≤
    ((m.metaBuffer.getD []).drop (m.header.metaLength - m.state.metaRemLen.toNat)).length := by
  have hle := h.metaLe
  have hm := h.whole.metaLen
  simp only [content, List.length_take] at hm
  rw [List.length_drop]
  omega

theorem Sending.data_le (h : Sending m) : m.state.dataRemLen.toNat ≤
    ((m.dataBuffer.getD []).drop (m.header.dataLength - m.state.dataRemLen.toNat)).length := by
  have hle := h.dataLe
  have hm := h.whole.dataLen
  simp only [content, List.length_take] at hm
  rw [List.length_drop]
  omega

/-- Dropping up to `rem - n` from the end after `n` bytes have gone. -/
theorem take_drop_step (l : List Byte) {rem n : Nat} (hn : n ≤ rem) (hr : rem ≤ l.length) :
    (l.drop (l.length - rem)).take n ++ l.drop (l.length - (rem - n)) = l.drop (l.length - rem) := by
  have hd : l.length - (rem - n) = (l.length - rem) + n := by omega
  rw [hd, ← List.drop_drop, List.take_append_drop]

theorem sendHdr_spec (h : Sending c.m) : Sends c (sendHdr c) ∧
    ((sendHdr c).1 = .rwOk → (sendHdr c).2.m.state.hdrRemLen = 0) := by
  unfold sendHdr
  simp only
  split
  · rename_i h0
    exact ⟨.refl h, fun _ => h0⟩
  · rename_i h0
    have hsize := c.m.header.size
    have hle := h.hdr
    obtain ⟨n, hn, h1, h2, h3, h4, h5⟩ := writev_spec c h0 h.hdr_le
    generalize c.writev _ _ = res at h1 h2 h3 h4 h5 ⊢
    obtain ⟨err, rem', wire, turns⟩ := res
    simp only at h1 h2 h3 h4 h5 ⊢
    refine ⟨⟨rfl, ⟨h.whole, ?_, h.metaLe, h.dataLe⟩, ⟨_, h2, ?_⟩, h4, h5⟩, fun hok => ?_⟩
    · simp only [h1]
      omega
    · have hs := take_drop_step c.m.header.bytes hn (by rw [hsize]; exact hle)
      rw [hsize] at hs
      simp only [unsent, content, h1]
      rw [← List.append_assoc, hs]
    · apply BitVec.eq_of_toNat_eq
      rw [h1, h3 hok]
      simp

theorem sendMeta_spec (h : Sending c.m) (h0 : c.m.state.hdrRemLen = 0) : Sends c (sendMeta c) ∧
    ((sendMeta c).1 = .rwOk →
      (sendMeta c).2.m.state.hdrRemLen = 0 ∧ (sendMeta c).2.m.state.metaRemLen = 0) := by
  unfold sendMeta
  simp only
  split
  · rename_i h1
    exact ⟨.refl h, fun _ => ⟨h0, h1⟩⟩
  · rename_i hne
    have hle := h.metaLe
    obtain ⟨n, hn, h1, h2, h3, h4, h5⟩ := writev_spec c hne h.meta_le
    generalize c.writev _ _ = res at h1 h2 h3 h4 h5 ⊢
    obtain ⟨err, rem', wire, turns⟩ := res
    simp only at h1 h2 h3 h4 h5 ⊢
    refine ⟨⟨rfl, ⟨h.whole, h.hdr, ?_, h.dataLe⟩, ⟨_, h2, ?_⟩, h4, h5⟩, fun hok => ⟨h0, ?_⟩⟩
    · simp only [h1]
      omega
    · have hs := take_drop_step (content c.m).metaBytes hn (by rw [h.whole.metaLen]; exact hle)
      rw [h.whole.metaLen] at hs
      have hcut : ((c.m.metaBuffer.getD []).drop
          (c.m.header.metaLength - c.m.state.metaRemLen.toNat)).take n =
          ((content c.m).metaBytes.drop
            (c.m.header.metaLength - c.m.state.metaRemLen.toNat)).take n := by
        simp only [content, List.drop_take, List.take_take]
        congr 1
        omega
      have hhdr : c.m.header.bytes.drop sizeofHdr = [] :=
        List.drop_eq_nil_of_le (Nat.le_of_eq c.m.header.size)
      have hmeta : (content c.m).header = c.m.header := rfl
      rw [hmeta] at hs
      simp only [unsent, content, h1, h0, BitVec.ofNat_eq_ofNat, BitVec.toNat_ofNat, Nat.zero_mod,
        Nat.sub_zero, hhdr, List.nil_append] at hs hcut ⊢
      rw [hcut, ← List.append_assoc, hs]
    · apply BitVec.eq_of_toNat_eq
      rw [h1, h3 hok]
      simp

theorem sendData_spec (h : Sending c.m) (h0 : c.m.state.hdrRemLen = 0)
    (hm0 : c.m.state.metaRemLen = 0) : Sends c (sendData c) ∧
    ((sendData c).1 = .rwOk → unsent (sendData c).2.m = []) := by
  have hhdr : c.m.header.bytes.drop sizeofHdr = [] :=
    List.drop_eq_nil_of_le (Nat.le_of_eq c.m.header.size)
  have hmeta : (content c.m).metaBytes.drop c.m.header.metaLength = [] :=
    List.drop_eq_nil_of_le (Nat.le_of_eq h.whole.metaLen)
  have hdone : (content c.m).dataBytes.drop c.m.header.dataLength = [] :=
    List.drop_eq_nil_of_le (Nat.le_of_eq h.whole.dataLen)
  unfold sendData
  simp only
  split
  · rename_i h1
    refine ⟨.refl h, fun _ => ?_⟩
    simp only [unsent, h0, hm0, h1, BitVec.ofNat_eq_ofNat, BitVec.toNat_ofNat, Nat.zero_mod,
      Nat.sub_zero, hmeta, hdone]
    exact by simpa [content] using hhdr
  · rename_i hne
    have hle := h.dataLe
    obtain ⟨n, hn, h1, h2, h3, h4, h5⟩ := writev_spec c hne h.data_le
    generalize c.writev _ _ = res at h1 h2 h3 h4 h5 ⊢
    obtain ⟨err, rem', wire, turns⟩ := res
    simp only at h1 h2 h3 h4 h5 ⊢
    have hhdr' : (content c.m).header.bytes.drop sizeofHdr = [] := hhdr
    refine ⟨⟨rfl, ⟨h.whole, h.hdr, h.metaLe, ?_⟩, ⟨_, h2, ?_⟩, h4, h5⟩, fun hok => ?_⟩
    · simp only [h1]
      omega
    · have hs := take_drop_step (content c.m).dataBytes hn (by rw [h.whole.dataLen]; exact hle)
      rw [h.whole.dataLen] at hs
      have hcut : ((c.m.dataBuffer.getD []).drop
          (c.m.header.dataLength - c.m.state.dataRemLen.toNat)).take n =
          ((content c.m).dataBytes.drop
            (c.m.header.dataLength - c.m.state.dataRemLen.toNat)).take n := by
        simp only [content, List.drop_take, List.take_take]
        congr 1
        omega
      have hdata : (content c.m).header = c.m.header := rfl
      rw [hdata] at hs
      simp only [unsent, content, h1, h0, hm0, BitVec.ofNat_eq_ofNat, BitVec.toNat_ofNat,
        Nat.zero_mod, Nat.sub_zero, hhdr, List.nil_append] at hs hcut hmeta ⊢
      rw [hcut, hmeta, List.nil_append, List.nil_append, hs]
    · have hz : rem'.toNat = 0 := by
        rw [h1, h3 hok]
        omega
      simp only [unsent, content, hz, h0, hm0, BitVec.ofNat_eq_ofNat, BitVec.toNat_ofNat,
        Nat.zero_mod, Nat.sub_zero, hhdr, List.nil_append] at hmeta hdone ⊢
      rw [hmeta, hdone]
      rfl

theorem sendHdrMeta_spec (h : Sending c.m) : Sends c (andThen (sendHdr c) sendMeta) ∧
    ((andThen (sendHdr c) sendMeta).1 = .rwOk →
      (andThen (sendHdr c) sendMeta).2.m.state.hdrRemLen = 0 ∧
      (andThen (sendHdr c) sendMeta).2.m.state.metaRemLen = 0) := by
  obtain ⟨h1, h2⟩ := sendHdr_spec h
  refine ⟨h1.trans fun hok => (sendMeta_spec h1.sending (h2 hok)).1, fun hok => ?_⟩
  unfold andThen at hok ⊢
  split at hok
  · rename_i hok1
    rw [if_pos hok1]
    exact (sendMeta_spec h1.sending (h2 hok1)).2 hok
  · rename_i hno
    exact absurd hok hno

/-- One call for the message at the head of the send queue. -/
theorem doSendMessage_spec (h : Sending c.m) : Sends c (doSendMessage c) ∧
    ((doSendMessage c).1 = .rwOk → unsent (doSendMessage c).2.m = []) := by
  obtain ⟨h12, hz⟩ := sendHdrMeta_spec h
  unfold doSendMessage
  generalize andThen (sendHdr c) sendMeta = r at h12 hz
  refine ⟨h12.trans fun hok => (sendData_spec h12.sending (hz hok).1 (hz hok).2).1, fun hok => ?_⟩
  unfold andThen at hok ⊢
  split at hok
  · rename_i hok1
    rw [if_pos hok1]
    exact (sendData_spec h12.sending (hz hok1).1 (hz hok1).2).2 hok
  · rename_i hno
    exact absurd hok hno

theorem Sends.length_le {r : SockStatus × Send} (h : Sends c r) :
    (unsent r.2.m).length ≤ (unsent c.m).length := by
  obtain ⟨bs, _, hu⟩ := h.moved
  rw [← hu, List.length_append]
  exact Nat.le_add_left _ _

/-- What has gone does not come back. -/
theorem andThen_lt {r : SockStatus × Send} {f : Send → SockStatus × Send} {n : Nat}
    (hlt : (unsent r.2.m).length < n) (hf : r.1 = .rwOk → Sends r.2 (f r.2)) :
    (unsent (andThen r f).2.m).length < n := by
  unfold andThen
  split
  · rename_i hok
    exact (hf hok).length_le.trans_lt hlt
  · exact hlt

theorem Sending.unsent_length (h : Sending m) : (unsent m).length =
    m.state.hdrRemLen.toNat + (m.state.metaRemLen.toNat + m.state.dataRemLen.toNat) := by
  have hsize := (content m).header.size
  have hhdr := h.hdr
  have hmeta := h.metaLe
  have hdata := h.dataLe
  have hm : (content m).metaBytes.length = m.header.metaLength := h.whole.metaLen
  have hd : (content m).dataBytes.length = m.header.dataLength := h.whole.dataLen
  simp only [unsent, List.length_append, List.length_drop, hsize, hm, hd]
  omega

section Moving
variable {n : Nat} {ts : List Turn}

/-- With a turn, each part gets shorter that is not through. -/
theorem sendHdr_moves (h : Sending c.m) (hne : c.m.state.hdrRemLen ≠ 0) (ht : c.turns = .upTo n :: ts) :
    (unsent (sendHdr c).2.m).length < (unsent c.m).length := by
  have hw := writev_moves hne h.hdr_le ht
  rw [h.unsent_length, (sendHdr_spec h).1.sending.unsent_length]
  simp only [sendHdr, if_neg hne]
  exact Nat.add_lt_add_right hw _

theorem sendMeta_moves (h : Sending c.m) (h0 : c.m.state.hdrRemLen = 0) (hne : c.m.state.metaRemLen ≠ 0)
    (ht : c.turns = .upTo n :: ts) : (unsent (sendMeta c).2.m).length < (unsent c.m).length := by
  have hw := writev_moves hne h.meta_le ht
  rw [h.unsent_length, (sendMeta_spec h h0).1.sending.unsent_length]
  simp only [sendMeta, if_neg hne]
  exact Nat.add_lt_add_left (Nat.add_lt_add_right hw _) _

theorem sendData_moves (h : Sending c.m) (h0 : c.m.state.hdrRemLen = 0) (hm0 : c.m.state.metaRemLen = 0)
    (hne : c.m.state.dataRemLen ≠ 0) (ht : c.turns = .upTo n :: ts) :
    (unsent (sendData c).2.m).length < (unsent c.m).length := by
  have hw := writev_moves hne h.data_le ht
  rw [h.unsent_length, (sendData_spec h h0 hm0).1.sending.unsent_length]
  simp only [sendData, if_neg hne]
  exact Nat.add_lt_add_left (Nat.add_lt_add_left hw _) _

/-- With a turn, the message at the head of the queue gets shorter. -/
theorem doSendMessage_moves (h : Sending c.m) (hne : unsent c.m ≠ []) (ht : c.turns = .upTo n :: ts) :
    (unsent (doSendMessage c).2.m).length < (unsent c.m).length := by
  obtain ⟨h1, h2⟩ := sendHdr_spec h
  obtain ⟨h12, hparts⟩ := sendHdrMeta_spec h
  have hrest := fun hok => (sendData_spec h12.sending (hparts hok).1 (hparts hok).2).1
  unfold doSendMessage
  by_cases hz : c.m.state.hdrRemLen = 0
  · have hskip : sendHdr c = (.rwOk, c) := by simp only [sendHdr, hz, if_true]
    have hmeta : andThen (sendHdr c) sendMeta = sendMeta c := by
      simp only [hskip, andThen, if_true]
    by_cases hm : c.m.state.metaRemLen = 0
    · have hd : c.m.state.dataRemLen ≠ 0 := by
        intro hd
        have hlen := h.unsent_length
        rw [hz, hm, hd] at hlen
        exact hne (List.eq_nil_of_length_eq_zero hlen)
      have hskip' : sendMeta c = (.rwOk, c) := by simp only [sendMeta, hm, if_true]
      rw [hmeta, hskip']
      simp only [andThen, if_true]
      exact sendData_moves h hz hm hd ht
    · refine andThen_lt ?_ hrest
      rw [hmeta]
      exact sendMeta_moves h hz hm ht
  · have hfirst := andThen_lt (sendHdr_moves h hz ht) fun hok => (sendMeta_spec h1.sending (h2 hok)).1
    exact andThen_lt hfirst hrest

end Moving

/-- A flush moves bytes from the front of the queue to the wire. -/
theorem flushMsgOf_spec (q : List Msg) (wire : List Byte) (turns : List Turn)
    (hq : ∀ m ∈ q, Sending m) :
    (∀ m ∈ (flushMsgOf q wire turns).2.1, Sending m) ∧
    (∃ bs, (flushMsgOf q wire turns).2.2 = wire ++ bs ∧
      bs ++ (flushMsgOf q wire turns).2.1.flatMap unsent = q.flatMap unsent) ∧
    ((flushMsgOf q wire turns).1 = .needClose → .error ∈ turns) := by
  induction q generalizing wire turns with
  | nil => exact ⟨by simp [flushMsgOf], ⟨[], by simp [flushMsgOf], rfl⟩, by simp [flushMsgOf]⟩
  | cons m q ih =>
    have hm := hq m (List.mem_cons_self ..)
    have htl := fun x hx => hq x (List.mem_cons_of_mem m hx)
    obtain ⟨⟨_, hs, ⟨bs, hw, hu⟩, hc, ht⟩, hdone⟩ := @doSendMessage_spec ⟨m, wire, turns⟩ hm
    unfold flushMsgOf
    generalize doSendMessage ⟨m, wire, turns⟩ = r at hs hw hu hc ht hdone
    obtain ⟨err, c⟩ := r
    simp only at hs hw hu hc ht hdone ⊢
    split
    · rename_i hok
      obtain ⟨h1, ⟨bs', h2, h3⟩, h4⟩ := ih c.wire c.turns htl
      rw [hdone hok, List.append_nil] at hu
      refine ⟨h1, ⟨bs ++ bs', ?_, ?_⟩, fun h => ht (h4 h)⟩
      · rw [h2, hw, List.append_assoc]
      · rw [List.append_assoc, h3, List.flatMap_cons, hu]
    · refine ⟨fun x hx => ?_, ⟨bs, hw, ?_⟩, hc⟩
      · obtain rfl | hx := List.mem_cons.mp hx
        · exact hs
        · exact htl x hx
      · rw [List.flatMap_cons, List.flatMap_cons, ← List.append_assoc, hu]

/-- The messages of a send queue and the bytes that they still have to send. -/
def backlog (q : List Msg) : Nat := (q.map fun m => (unsent m).length + 1).sum

theorem backlog_cons (m : Msg) (q : List Msg) :
    backlog (m :: q) = (unsent m).length + 1 + backlog q := by
  rw [backlog, List.map_cons, List.sum_cons]
  rfl

theorem flushMsgOf_backlog_le (q : List Msg) (wire : List Byte) (turns : List Turn)
    (hq : ∀ m ∈ q, Sending m) : backlog (flushMsgOf q wire turns).2.1 ≤ backlog q := by
  induction q generalizing wire turns with
  | nil => exact Nat.le_refl _
  | cons m q ih =>
    obtain ⟨hs, -⟩ := @doSendMessage_spec ⟨m, wire, turns⟩ (hq m (List.mem_cons_self ..))
    have hle := hs.length_le
    have htl := fun w ts => ih w ts fun x hx => hq x (List.mem_cons_of_mem m hx)
    unfold flushMsgOf
    rw [backlog_cons]
    dsimp only at hle ⊢
    split
    · exact (htl _ _).trans (Nat.le_add_left _ _)
    · rw [backlog_cons]
      omega

/-- A flush with a turn gets on. -/
theorem flushMsgOf_moves {q : List Msg} (wire : List Byte) {n : Nat} (hq : ∀ m ∈ q, Sending m)
    (hne : q ≠ []) : backlog (flushMsgOf q wire [.upTo n]).2.1 < backlog q := by
  cases q with
  | nil => exact absurd rfl hne
  | cons m q =>
    have hm := hq m (List.mem_cons_self ..)
    have hmoves : unsent m ≠ [] → (unsent (doSendMessage ⟨m, wire, [.upTo n]⟩).2.m).length <
        (unsent m).length := fun hun => @doSendMessage_moves ⟨m, wire, [.upTo n]⟩ n [] hm hun rfl
    have hend : unsent m = [] → (doSendMessage ⟨m, wire, [.upTo n]⟩).1 = .rwOk := by
      intro hun
      have hlen := hm.unsent_length
      rw [hun, List.length_nil] at hlen
      have h0 : m.state.hdrRemLen = 0 := BitVec.eq_of_toNat_eq (by simp; omega)
      have h1 : m.state.metaRemLen = 0 := BitVec.eq_of_toNat_eq (by simp; omega)
      have h2 : m.state.dataRemLen = 0 := BitVec.eq_of_toNat_eq (by simp; omega)
      simp only [doSendMessage, andThen, sendHdr, sendMeta, sendData, h0, h1, h2, if_true]
    have htl := fun w ts => flushMsgOf_backlog_le q w ts fun x hx => hq x (List.mem_cons_of_mem m hx)
    unfold flushMsgOf
    rw [backlog_cons]
    dsimp only
    split
    · exact (htl _ _).trans_lt (by omega)
    · rename_i hno
      have hlt := hmoves fun hun => hno (hend hun)
      rw [backlog_cons]
      omega

end Sending

end ZCell.Messager

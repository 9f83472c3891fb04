import ZCell.Framing

/-! What the receiver has of the message it is at, call by call, and what the loop of a read
event turns the bytes of the socket into. -/
namespace ZCell.Messager
open Bytes

/-- The bytes of a message that have been received. -/
def received (m : Msg) : List Byte :=
  if m.state.hdrRemLen ≠ 0 then m.header.bytes.take (sizeofHdr - m.state.hdrRemLen.toNat)
  else m.header.bytes ++
    ((m.metaBuffer.getD []).take (m.header.metaLength - m.state.metaRemLen.toNat) ++
      (m.dataBuffer.getD []).take (m.header.dataLength - m.state.dataRemLen.toNat))

/-- A message in the receive queue. -/
structure Receiving (m : Msg) : Prop where
  hdr : m.state.hdrRemLen.toNat ≤ sizeofHdr
  fresh : m.state.hdrRemLen ≠ 0 → m.state.metaRemLen = 0 ∧ m.state.dataRemLen = 0 ∧
    m.metaBuffer = none ∧ m.dataBuffer = none
  metaLe : m.state.hdrRemLen = 0 → m.state.metaRemLen.toNat ≤ m.header.metaLength
  dataLe : m.state.hdrRemLen = 0 → m.state.dataRemLen.toNat ≤ m.header.dataLength
  order : m.state.hdrRemLen = 0 → m.state.metaRemLen ≠ 0 →
    m.state.dataRemLen.toNat = m.header.dataLength
  metaBuf : m.state.hdrRemLen = 0 → (m.metaBuffer.getD []).length = m.header.metaLength
  dataBuf : m.state.hdrRemLen = 0 → (m.dataBuffer.getD []).length = m.header.dataLength
  metaNone : m.state.hdrRemLen = 0 → m.header.metaLength = 0 → m.metaBuffer = none
  dataNone : m.state.hdrRemLen = 0 → m.header.dataLength = 0 → m.dataBuffer = none

/-- Nothing is left to receive. -/
def Done (m : Msg) : Prop :=
  m.state.hdrRemLen = 0 ∧ m.state.metaRemLen = 0 ∧ m.state.dataRemLen = 0

theorem Done.received {m : Msg} (h : Done m) (hr : Receiving m) :
    (content m).Whole ∧ Messager.received m = (content m).bytes := by
  obtain ⟨h0, h1, h2⟩ := h
  have hm := hr.metaBuf h0
  have hd := hr.dataBuf h0
  refine ⟨⟨?_, ?_⟩, ?_⟩
  · rw [content, List.length_take, hm, Nat.min_self]
  · rw [content, List.length_take, hd, Nat.min_self]
  · simp [Messager.received, h0, h1, h2, content, Content.bytes]

theorem msgConstruct_receiving : Receiving msgConstruct ∧ ¬ Done msgConstruct ∧
    received msgConstruct = [] := by
  have hrem : msgConstruct.state.hdrRemLen = 26 := rfl
  have hne : ¬ (26 : BitVec 16) = 0 := by decide
  refine ⟨⟨by decide, fun _ => ⟨rfl, rfl, rfl, rfl⟩, ?_, ?_, ?_, ?_, ?_, fun _ _ => rfl,
    fun _ _ => rfl⟩, ?_, rfl⟩
  · exact fun h => absurd (hrem.symm.trans h) hne
  · exact fun h => absurd (hrem.symm.trans h) hne
  · exact fun h => absurd (hrem.symm.trans h) hne
  · exact fun h => absurd (hrem.symm.trans h) hne
  · exact fun h => absurd (hrem.symm.trans h) hne
  · exact fun h => absurd (hrem.symm.trans h.1) hne

section Parts
variable {w : Nat} {m : Msg} {c : Recv} {fill : Nat → Nat → Byte}

/-- One `readv` and the counter behind it. -/
structure Reads (c : Recv) (rem : BitVec w) (bs : List Byte) (sock : Sock) (turns : List Turn)
    (err : SockStatus) (rem' : BitVec w) : Prop where
  counter : rem'.toNat = rem.toNat - bs.length
  le : bs.length ≤ rem.toNat
  inbox : c.sock.inbox = bs ++ sock.inbox
  closed : sock.closed = c.sock.closed
  through : err = .rwOk ↔ rem' = 0
  closes : err = .needClose → .error ∈ c.turns ∨ (sock.inbox = [] ∧ c.sock.closed = true)
  suffix : turns ⊆ c.turns
  shorter : err = .rwOk → turns.length < c.turns.length

theorem readv_spec (c : Recv) {rem : BitVec w} (hpos : rem ≠ 0) :
    let r := c.readv rem.toNat
    let h := sockRcHandle r.1 r.2.1 rem
    Reads c rem r.2.2.1 r.2.2.2.1 r.2.2.2.2 h.1 h.2 := by
  have hne : rem.toNat ≠ 0 := fun h0 => hpos (BitVec.eq_of_toNat_eq h0)
  unfold Recv.readv
  split
  · rename_i hturns
    simp only [@sockRcHandle_fail w (-1) true rem (by decide), if_true]
    refine ⟨by simp, by simp, by simp, rfl, ?_, by simp, by simp, by simp⟩
    simp only [reduceCtorEq, false_iff]
    exact hpos
  · rename_i t ts hturns
    have hsub : ts ⊆ c.turns := by
      rw [hturns]
      exact List.subset_cons_self t ts
    have hfail : ∀ again, (again = false → Turn.error ∈ c.turns ∨
        (c.sock.inbox = [] ∧ c.sock.closed = true)) → Reads c rem []
          { c.sock with inbox := c.sock.inbox.drop 0 } ts
          (if again = true then .eagain else .needClose) rem := by
      intro again hag
      refine ⟨by simp, by simp, by simp, rfl, ?_, ?_, hsub, ?_⟩
      · cases again <;> simpa using hpos
      · intro hc
        cases again with
        | false => exact hag rfl
        | true => cases hc
      · cases again <;> simp
    cases t with
    | wouldBlock =>
      simp only [readv, @sockRcHandle_fail w (-1) true rem (by decide)]
      exact hfail true (by simp)
    | error =>
      simp only [readv, @sockRcHandle_fail w (-1) false rem (by decide)]
      exact hfail false fun _ => Or.inl (by simp [hturns])
    | upTo n =>
      simp only [readv]
      split
      · rename_i hin
        split
        · rename_i hcl
          simp only [@sockRcHandle_fail w 0 false rem (by decide)]
          exact hfail false fun _ => Or.inr ⟨hin, hcl⟩
        · simp only [@sockRcHandle_fail w (-1) true rem (by decide)]
          exact hfail true (by simp)
      · rename_i hin
        have hinl : c.sock.inbox.length ≠ 0 := by simpa using hin
        have hkpos : 0 < min (min (n + 1) ioMax) rem.toNat :=
          Nat.lt_min.mpr ⟨Nat.lt_min.mpr ⟨Nat.succ_pos n, ioMax_pos⟩, Nat.pos_of_ne_zero hne⟩
        have hkle : min (min (n + 1) ioMax) rem.toNat ≤ rem.toNat := Nat.min_le_right _ _
        generalize min (min (n + 1) ioMax) rem.toNat = k at hkpos hkle
        have hlen : (c.sock.inbox.take k).length = min k c.sock.inbox.length := List.length_take
        obtain ⟨h1, h2, h3⟩ := @sockRcHandle_moved w false rem (c.sock.inbox.take k).length
          (by rw [hlen]; omega) (by rw [hlen]; omega)
        have hdrop : c.sock.inbox.drop (c.sock.inbox.take k).length = c.sock.inbox.drop k := by
          rw [hlen]
          by_cases hkl : k ≤ c.sock.inbox.length
          · rw [Nat.min_eq_left hkl]
          · rw [Nat.min_eq_right (by omega), List.drop_length,
              List.drop_eq_nil_of_le (by omega)]
        refine ⟨h1, by simp only [hlen]; omega, ?_, rfl, ?_, fun hc => absurd hc h3, hsub,
          fun _ => ?_⟩
        · simp only [hdrop, List.take_append_drop]
        · rw [h2]
          constructor
          · intro he
            apply BitVec.eq_of_toNat_eq
            rw [h1, he]
            simp
          · intro h0
            have ht := congrArg BitVec.toNat h0
            rw [h1] at ht
            simp only [BitVec.ofNat_eq_ofNat, BitVec.toNat_ofNat, Nat.zero_mod] at ht
            omega
        · simp [hturns]

/-- What a part of the receiver does: it moves bytes from the socket to the message. -/
structure Receives (c : Recv) (r : SockStatus × Recv) : Prop where
  receiving : Receiving r.2.m
  moved : ∃ bs, c.sock.inbox = bs ++ r.2.sock.inbox ∧ received r.2.m = received c.m ++ bs
  closed : r.2.sock.closed = c.sock.closed
  closes : r.1 = .needClose → .error ∈ c.turns ∨ (r.2.sock.inbox = [] ∧ c.sock.closed = true)
  open_ : r.1 ≠ .rwOk → ¬ Done r.2.m
  turns : r.2.turns ⊆ c.turns
  shorter : r.1 = .rwOk → r.2.turns.length ≤ c.turns.length

theorem Receives.refl (h : Receiving c.m) : Receives c (.rwOk, c) :=
  ⟨h, ⟨[], rfl, by simp⟩, rfl, by simp, by simp, List.Subset.refl _, fun _ => Nat.le_refl _⟩

theorem Receives.trans {r : SockStatus × Recv} {f : Recv → SockStatus × Recv} (h : Receives c r)
    (hf : r.1 = .rwOk → Receives r.2 (f r.2)) : Receives c (andThen r f) := by
  unfold andThen
  split
  · rename_i hok
    obtain ⟨_, ⟨bs, hw, hu⟩, h3, _, _, h6, h7⟩ := h
    obtain ⟨g1, ⟨bs', gw, gu⟩, g3, g4, g5, g6, g7⟩ := hf hok
    refine ⟨g1, ⟨bs ++ bs', ?_, ?_⟩, g3.trans h3, fun hc => ?_, g5, fun _ ht => h6 (g6 ht),
      fun ho => (g7 ho).trans (h7 hok)⟩
    · rw [hw, gw, List.append_assoc]
    · rw [gu, hu, List.append_assoc]
    · obtain hc | ⟨h1, h2⟩ := g4 hc
      · exact Or.inl (h6 hc)
      · exact Or.inr ⟨h1, h3 ▸ h2⟩
  · exact h

theorem recvHdr_spec (h : Receiving c.m) : Receives c (recvHdr fill c) ∧
    ((recvHdr fill c).1 = .rwOk → (recvHdr fill c).2.m.state.hdrRemLen = 0 ∧
      (c.m.state.hdrRemLen ≠ 0 → (recvHdr fill c).2.turns.length < c.turns.length)) := by
  unfold recvHdr
  simp only
  split
  · rename_i h0
    exact ⟨.refl h, fun _ => ⟨h0, fun hne => absurd h0 hne⟩⟩
  · rename_i h0
    have hle := h.hdr
    obtain ⟨hm0, hd0, hmb, hdb⟩ := h.fresh h0
    have hr := readv_spec c h0
    simp only at hr
    generalize c.readv _ = res at hr ⊢
    obtain ⟨rc, again, bs, sock, turns⟩ := res
    simp only at hr ⊢
    generalize sockRcHandle rc again _ = st at hr ⊢
    obtain ⟨err, rem'⟩ := st
    simp only at hr ⊢
    obtain ⟨h1, h2, h3, h4, h5, h6, h7, h8⟩ := hr
    have hput := c.m.header.put_take (sizeofHdr - c.m.state.hdrRemLen.toNat) bs (by omega)
    have hold : received c.m = c.m.header.bytes.take (sizeofHdr - c.m.state.hdrRemLen.toNat) := by
      rw [received, if_pos h0]
    split
    · rename_i hok
      have hz := h5.mp hok
      have hfull : bs.length = c.m.state.hdrRemLen.toNat := by
        rw [hz] at h1
        simp only [BitVec.ofNat_eq_ofNat, BitVec.toNat_ofNat, Nat.zero_mod] at h1
        omega
      generalize c.m.header.put (sizeofHdr - c.m.state.hdrRemLen.toNat) bs = hdr at hput
      have hmeta := hdr.metaLength_lt
      have hdata := hdr.dataLength_lt
      have hall : hdr.bytes = received c.m ++ bs := by
        rw [hold, ← hput, List.take_of_length_le]
        rw [hdr.size]
        omega
      have hmt : (BitVec.ofNat 16 hdr.metaLength).toNat = hdr.metaLength := by
        rw [BitVec.toNat_ofNat, Nat.mod_eq_of_lt (by omega)]
      have hdt : (BitVec.ofNat 32 hdr.dataLength).toNat = hdr.dataLength := by
        rw [BitVec.toNat_ofNat, Nat.mod_eq_of_lt hdata]
      refine ⟨⟨⟨?_, ?_, ?_, ?_, ?_, ?_, ?_, ?_, ?_⟩, ⟨bs, h3, ?_⟩, h4, h6, ?_, h7, ?_⟩, ?_⟩
      · simp [allocBuffers, hz]
      · intro hne
        exact absurd hz hne
      · intro _
        simp only [allocBuffers, hmt, le_refl]
      · intro _
        simp only [allocBuffers, hdt, le_refl]
      · intro _ _
        simp only [allocBuffers, hdt]
      · intro _
        simp only [allocBuffers, hmb]
        split
        · rename_i hl
          simp [hl]
        · simp
      · intro _
        simp only [allocBuffers, hdb]
        split
        · rename_i hl
          simp [hl]
        · simp
      · intro _ hl
        exact (if_pos hl).trans hmb
      · intro _ hl
        exact (if_pos hl).trans hdb
      · simp [received, allocBuffers, hz, hmt, hdt, hall]
      · intro hno
        exact absurd hok hno
      · intro _
        exact (h8 hok).le
      · intro _
        exact ⟨hz, fun _ => h8 hok⟩
    · rename_i hno
      have hne : rem' ≠ 0 := fun hz => hno (h5.mpr hz)
      refine ⟨⟨⟨?_, ?_, ?_, ?_, ?_, ?_, ?_, fun _ _ => hmb, fun _ _ => hdb⟩, ⟨bs, h3, ?_⟩, h4, h6, ?_,
        h7, ?_⟩, ?_⟩
      · simp only [h1]
        omega
      · exact fun _ => ⟨hm0, hd0, hmb, hdb⟩
      · exact fun hz => absurd hz hne
      · exact fun hz => absurd hz hne
      · exact fun hz => absurd hz hne
      · exact fun hz => absurd hz hne
      · exact fun hz => absurd hz hne
      · have hpos : sizeofHdr - rem'.toNat = sizeofHdr - c.m.state.hdrRemLen.toNat + bs.length := by
          omega
        rw [hold, received, if_pos hne, hpos, ← hput]
      · exact fun _ hd => hne hd.1
      · exact fun hok => absurd hok hno
      · exact fun hok => absurd hok hno

theorem recvMeta_spec (h : Receiving c.m) (h0 : c.m.state.hdrRemLen = 0) :
    Receives c (recvMeta c) ∧ ((recvMeta c).1 = .rwOk →
      (recvMeta c).2.m.state.hdrRemLen = 0 ∧ (recvMeta c).2.m.state.metaRemLen = 0 ∧
      (c.m.state.metaRemLen ≠ 0 → (recvMeta c).2.turns.length < c.turns.length)) := by
  unfold recvMeta
  simp only
  split
  · rename_i hz
    exact ⟨.refl h, fun _ => ⟨h0, hz, fun hne => absurd hz hne⟩⟩
  · rename_i hm
    have hle := h.metaLe h0
    have hord := h.order h0 hm
    have hbuf := h.metaBuf h0
    have hmpos : c.m.state.metaRemLen.toNat ≠ 0 := fun hz => hm (BitVec.eq_of_toNat_eq hz)
    obtain ⟨b, hb⟩ : ∃ b, c.m.metaBuffer = some b := by
      cases hmb : c.m.metaBuffer with
      | none =>
        rw [hmb] at hbuf
        simp at hbuf
        omega
      | some b => exact ⟨b, rfl⟩
    rw [hb, Option.getD_some] at hbuf
    have hr := readv_spec c hm
    simp only at hr
    generalize c.readv _ = res at hr ⊢
    obtain ⟨rc, again, bs, sock, turns⟩ := res
    simp only at hr ⊢
    generalize sockRcHandle rc again _ = st at hr ⊢
    obtain ⟨err, rem'⟩ := st
    simp only at hr ⊢
    obtain ⟨h1, h2, h3, h4, h5, h6, h7, h8⟩ := hr
    have hput := overwrite_take b (c.m.header.metaLength - c.m.state.metaRemLen.toNat) bs (by omega)
    refine ⟨⟨⟨h.hdr, ?_, ?_, h.dataLe, fun _ _ => hord, ?_, h.dataBuf, fun _ hl => ?_, h.dataNone⟩,
      ⟨bs, h3, ?_⟩, h4, h6, ?_, h7, fun hok => (h8 hok).le⟩,
      fun hok => ⟨h0, h5.mp hok, fun _ => h8 hok⟩⟩
    · exact fun hne => absurd h0 hne
    · intro _
      simp only [h1]
      omega
    · intro _
      simp only [hb, Option.map_some, Option.getD_some, overwrite_length, hbuf]
    · have hl : c.m.header.metaLength = 0 := hl
      omega
    · have hpos : c.m.header.metaLength - rem'.toNat =
          c.m.header.metaLength - c.m.state.metaRemLen.toNat + bs.length := by omega
      simp only [received, h0, hb, hord, hpos, hput, Option.map_some, Option.getD_some, ne_eq,
        not_true_eq_false, if_false, Nat.sub_self, List.take_zero, List.append_nil,
        List.append_assoc]
    · exact fun hno hd => hno (h5.mpr hd.2.1)

theorem recvData_spec (h : Receiving c.m) (h0 : c.m.state.hdrRemLen = 0)
    (hm0 : c.m.state.metaRemLen = 0) : Receives c (recvData c) ∧ ((recvData c).1 = .rwOk →
      Done (recvData c).2.m ∧
      (c.m.state.dataRemLen ≠ 0 → (recvData c).2.turns.length < c.turns.length)) := by
  unfold recvData
  simp only
  split
  · rename_i hz
    exact ⟨.refl h, fun _ => ⟨⟨h0, hm0, hz⟩, fun hne => absurd hz hne⟩⟩
  · rename_i hd
    have hle := h.dataLe h0
    have hbuf := h.dataBuf h0
    have hdpos : c.m.state.dataRemLen.toNat ≠ 0 := fun hz => hd (BitVec.eq_of_toNat_eq hz)
    obtain ⟨b, hb⟩ : ∃ b, c.m.dataBuffer = some b := by
      cases hdb : c.m.dataBuffer with
      | none =>
        rw [hdb] at hbuf
        simp at hbuf
        omega
      | some b => exact ⟨b, rfl⟩
    rw [hb, Option.getD_some] at hbuf
    have hr := readv_spec c hd
    simp only at hr
    generalize c.readv _ = res at hr ⊢
    obtain ⟨rc, again, bs, sock, turns⟩ := res
    simp only at hr ⊢
    generalize sockRcHandle rc again _ = st at hr ⊢
    obtain ⟨err, rem'⟩ := st
    simp only at hr ⊢
    obtain ⟨h1, h2, h3, h4, h5, h6, h7, h8⟩ := hr
    have hput := overwrite_take b (c.m.header.dataLength - c.m.state.dataRemLen.toNat) bs (by omega)
    refine ⟨⟨⟨h.hdr, ?_, h.metaLe, ?_, ?_, h.metaBuf, ?_, h.metaNone, fun _ hl => ?_⟩,
      ⟨bs, h3, ?_⟩, h4, h6, ?_, h7, fun hok => (h8 hok).le⟩,
      fun hok => ⟨⟨h0, hm0, h5.mp hok⟩, fun _ => h8 hok⟩⟩
    · exact fun hne => absurd h0 hne
    · intro _
      simp only [h1]
      omega
    · exact fun _ hne => absurd hm0 hne
    · intro _
      simp only [hb, Option.map_some, Option.getD_some, overwrite_length, hbuf]
    · have hl : c.m.header.dataLength = 0 := hl
      omega
    · have hpos : c.m.header.dataLength - rem'.toNat =
          c.m.header.dataLength - c.m.state.dataRemLen.toNat + bs.length := by omega
      simp only [received, h0, hb, hm0, hpos, hput, Option.map_some, Option.getD_some, ne_eq,
        not_true_eq_false, if_false, List.append_assoc]
    · exact fun hno hdone => hno (h5.mpr hdone.2.2)

/-- The header and the meta part together. -/
theorem recvHdrMeta_spec (h : Receiving c.m) :
    Receives c (andThen (recvHdr fill c) recvMeta) ∧
    ((andThen (recvHdr fill c) recvMeta).1 = .rwOk →
      (andThen (recvHdr fill c) recvMeta).2.m.state.hdrRemLen = 0 ∧
      (andThen (recvHdr fill c) recvMeta).2.m.state.metaRemLen = 0 ∧
      (c.m.state.hdrRemLen ≠ 0 ∨ c.m.state.metaRemLen ≠ 0 →
        (andThen (recvHdr fill c) recvMeta).2.turns.length < c.turns.length)) := by
  obtain ⟨h1, h2⟩ := @recvHdr_spec c fill h
  refine ⟨h1.trans fun hok => (recvMeta_spec h1.receiving (h2 hok).1).1, fun hok => ?_⟩
  unfold andThen at hok ⊢
  split at hok
  · rename_i hok1
    rw [if_pos hok1]
    obtain ⟨h0, hs⟩ := h2 hok1
    obtain ⟨g1, g2⟩ := recvMeta_spec h1.receiving h0
    obtain ⟨a1, a2, a3⟩ := g2 hok
    have hle := g1.shorter hok
    refine ⟨a1, a2, fun hne => ?_⟩
    by_cases hz : c.m.state.hdrRemLen = 0
    · -- the header was complete, so nothing has happened yet
      have hskip : recvHdr fill c = (.rwOk, c) := by
        unfold recvHdr
        simp only [hz, if_true]
      rw [hskip] at a3
      obtain hne | hne := hne
      · exact absurd hz hne
      · rw [hskip]
        exact a3 hne
    · exact Nat.lt_of_le_of_lt hle (hs hz)
  · rename_i hno
    exact absurd hok hno

/-- One call for the message at the tail of the receive queue. -/
theorem doRecvMessage_spec (h : Receiving c.m) (hopen : ¬ Done c.m) :
    Receives c (doRecvMessage fill c) ∧ ((doRecvMessage fill c).1 = .rwOk →
      Done (doRecvMessage fill c).2.m ∧
      (doRecvMessage fill c).2.turns.length < c.turns.length) := by
  obtain ⟨h1, h2⟩ := @recvHdrMeta_spec c fill h
  have hskip : c.m.state.hdrRemLen = 0 → c.m.state.metaRemLen = 0 →
      andThen (recvHdr fill c) recvMeta = (.rwOk, c) := by
    intro hz hz'
    simp only [andThen, recvHdr, recvMeta, hz, hz', if_true]
  unfold doRecvMessage
  generalize andThen (recvHdr fill c) recvMeta = r at h1 h2 hskip
  refine ⟨h1.trans fun hok => (recvData_spec h1.receiving (h2 hok).1 (h2 hok).2.1).1,
    fun hok => ?_⟩
  unfold andThen at hok ⊢
  split at hok
  · rename_i hok1
    rw [if_pos hok1]
    obtain ⟨h0, hm0, hs⟩ := h2 hok1
    obtain ⟨g1, g2⟩ := recvData_spec h1.receiving h0 hm0
    obtain ⟨hdone, a3⟩ := g2 hok
    refine ⟨hdone, ?_⟩
    by_cases hz : c.m.state.hdrRemLen = 0 ∧ c.m.state.metaRemLen = 0
    · rw [hskip hz.1 hz.2] at a3 ⊢
      exact a3 fun hd => hopen ⟨hz.1, hz.2, hd⟩
    · rw [not_and_or] at hz
      exact Nat.lt_of_le_of_lt (g1.shorter hok) (hs hz)
  · rename_i hno
    exact absurd hok hno

end Parts

section Loop
variable {fill : Nat → Nat → Byte}

/-- Finished messages whose buffers agree with their headers. -/
structure Finished (m : Msg) : Prop where
  receiving : Receiving m
  done : Done m

theorem Finished.complete {m : Msg} (h : Finished m) : msgRwComplete m = true := by
  obtain ⟨h0, h1, h2⟩ := h.done
  simp [msgRwComplete, msgRemTlen, h0, h1, h2]

theorem Finished.whole {m : Msg} (h : Finished m) : (content m).Whole :=
  (h.done.received h.receiving).1

/-- A message that is not finished and does not pass for finished either. -/
structure Open (m : Msg) : Prop where
  receiving : Receiving m
  notDone : ¬ Done m

/-- The messages in front, and the one that is being received, if any. -/
structure Queue (q done : List Msg) (tail : Option Msg) : Prop where
  eq : q = done ++ tail.toList
  done : ∀ m ∈ done, Finished m
  tail : ∀ m ∈ tail, Open m ∧ msgRwComplete m = false

/-- What the loop leaves: finished messages, then the one that it stopped at. -/
structure Looped (pre : List Byte) (sock : Sock) (turns : List Turn)
    (r : SockStatus × List Msg × Sock) (done : List Msg) (m : Msg) : Prop where
  queue : r.2.1 = done ++ [m]
  finished : ∀ m ∈ done, Finished m
  last : Open m
  moved : ∃ bs, sock.inbox = bs ++ r.2.2.inbox ∧
    pre ++ bs = (done.map content).flatMap Content.bytes ++ received m
  closed : r.2.2.closed = sock.closed
  status : r.1 ≠ .rwOk
  closes : r.1 = .needClose → .error ∈ turns ∨ (r.2.2.inbox = [] ∧ sock.closed = true)

theorem tailRecvMsg_spec {q done : List Msg} {tail : Option Msg} (h : Queue q done tail) :
    tailRecvMsg q = (done, tail.getD msgConstruct) ∧ Open (tail.getD msgConstruct) := by
  obtain ⟨rfl, hdone, htail⟩ := h
  have hnew : Open msgConstruct := ⟨msgConstruct_receiving.1, msgConstruct_receiving.2.1⟩
  cases tail with
  | some m =>
    obtain ⟨hopen, hno⟩ := htail m rfl
    refine ⟨?_, hopen⟩
    simp [tailRecvMsg, hno]
  | none =>
    refine ⟨?_, hnew⟩
    simp only [Option.toList_none, List.append_nil, Option.getD_none, tailRecvMsg]
    cases hl : done.getLast? with
    | none => rfl
    | some m => simp only [(hdone m (List.mem_of_getLast? hl)).complete, if_true]

/-- The loop goes through the finished messages of the stream and stops inside the next one. -/
theorem recvLoop_spec (n : Nat) {q done : List Msg} {tail : Option Msg} {sock : Sock}
    {turns : List Turn} (hn : turns.length < n) (h : Queue q done tail) :
    ∃ done' m, Looped ((done.map content).flatMap Content.bytes ++
      received (tail.getD msgConstruct)) sock turns (recvLoop fill n q sock turns)
        (done ++ done') m := by
  induction n generalizing q done tail sock turns with
  | zero => exact absurd hn (Nat.not_lt_zero _)
  | succ n ih =>
    obtain ⟨htail, hopen⟩ := tailRecvMsg_spec h
    obtain ⟨⟨hr, ⟨bs, hin, hrec⟩, hcl, hcloses, hop, hturns, _⟩, hdone⟩ :=
      @doRecvMessage_spec ⟨tail.getD msgConstruct, sock, turns⟩ fill hopen.receiving hopen.notDone
    unfold recvLoop
    simp only [htail]
    generalize hres : doRecvMessage fill ⟨tail.getD msgConstruct, sock, turns⟩ = r
    rw [hres] at hr hin hrec hcl hcloses hop hturns hdone
    obtain ⟨err, c⟩ := r
    simp only at hr hin hrec hcl hcloses hop hturns hdone ⊢
    split
    · rename_i hok
      obtain ⟨hd, hlt⟩ := hdone hok
      have hfin : Finished c.m := ⟨hr, hd⟩
      have hq : Queue (done ++ [c.m]) (done ++ [c.m]) none := by
        refine ⟨by simp, fun m hm => ?_, by simp⟩
        obtain hm | hm := List.mem_append.mp hm
        · exact h.done m hm
        · obtain rfl := List.mem_singleton.mp hm
          exact hfin
      obtain ⟨done', m, g1, g2, g3, ⟨bs', g4, g5⟩, g6, g7, g8⟩ :=
        @ih _ _ _ c.sock c.turns (by omega) hq
      refine ⟨c.m :: done', m, ?_, ?_, g3, ⟨bs ++ bs', ?_, ?_⟩, g6.trans hcl, g7, fun hc => ?_⟩
      · rw [g1]
        simp
      · simpa using g2
      · rw [hin, g4, List.append_assoc]
      · have hcon := (hd.received hr).2
        rw [hrec] at hcon
        simp only [Option.getD_none, msgConstruct_receiving.2.2, List.append_nil, List.map_append,
          List.map_cons, List.map_nil, List.flatMap_append, List.flatMap_cons, List.flatMap_nil,
          List.append_assoc] at g5 ⊢
        rw [← g5, ← hcon, List.append_assoc]
      · obtain hc | ⟨h1, h2⟩ := g8 hc
        · exact Or.inl (hturns hc)
        · exact Or.inr ⟨h1, hcl ▸ h2⟩
    · rename_i hno
      refine ⟨[], c.m, by simp, by simpa using h.done, ⟨hr, hop hno⟩, ⟨bs, hin, ?_⟩, hcl, hno,
        hcloses⟩
      rw [List.append_nil, hrec, List.append_assoc]

end Loop

end ZCell.Messager

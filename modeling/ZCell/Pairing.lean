import ZCell.LibossRun
import ZCell.Slots
import Mathlib.Data.List.Perm.Subperm

/-! Operations and messages of a single channel: between its submission and its completion, each
operation has one message somewhere between the client and the server, and that message names it. -/
namespace ZCell.Liboss
open Bytes Messager Server

/-- What identifies a message wherever it is. -/
structure Key where
  ident : Nat × Nat × Nat × Nat
  chan : Nat
  op : Nat
  deriving DecidableEq

def Key.slot (k : Key) : Nat := k.ident.2.2.2

def Sent.key (x : Sent) : Key := ⟨x.msg.header.ident, x.chan, x.op⟩

/-- Handed to the messager by a submission that has not returned. -/
def Pc.Submitted : Pc → Nat → Prop
  | .sending _ rest all, id => id ∈ all ∧ id ∉ rest
  | _, _ => False

/-- The operation in slot `id` is submitted and not completed. -/
def Out (pc : Pc) (ch : Chan) (id : Nat) : Prop :=
  id < ch.io.queueDepth ∧ ((ch.io.opCtxs id).state = .inProgress ∨ pc.Submitted id)

/-- A message finds its operation in its slot. -/
structure Home (kind : Kind) (ch : Chan) (k : Key) : Prop where
  chan : k.chan = 0
  op : k.op = ch.op k.slot
  ident : k.ident = (ch.io.opCtxs k.slot).requestAndResponse.header.ident
  magic : k.ident.2.2.1 = kind.magic
  type : k.ident.2.1 ∈ ossTypes

/-- The messages `ks` are those of the operations that are out, one for each. -/
structure Paired (kind : Kind) (pc : Pc) (ch : Chan) (ks : List Key) : Prop where
  nodup : (ks.map Key.slot).Nodup
  out : ∀ id, id ∈ ks.map Key.slot ↔ Out pc ch id
  home : ∀ k ∈ ks, Home kind ch k

section Paired
variable {kind : Kind} {pc pc' : Pc} {ch ch' : Chan} {ks ks' : List Key} {k : Key} {id : Nat}

theorem Paired.perm (h : Paired kind pc ch ks) (hp : ks'.Perm ks) : Paired kind pc ch ks' where
  nodup := ((hp.map Key.slot).nodup_iff).mpr h.nodup
  out id := ((hp.map Key.slot).mem_iff).trans (h.out id)
  home k hk := h.home k (hp.mem_iff.mp hk)

/-- Slots that are not out may change. -/
theorem Paired.congr (h : Paired kind pc ch ks) (hout : ∀ id, Out pc' ch' id ↔ Out pc ch id)
    (hsame : ∀ id, Out pc ch id → ch'.op id = ch.op id ∧
      (ch'.io.opCtxs id).requestAndResponse.header.ident =
        (ch.io.opCtxs id).requestAndResponse.header.ident) : Paired kind pc' ch' ks where
  nodup := h.nodup
  out id := (h.out id).trans (hout id).symm
  home k hk := by
    obtain ⟨h1, h2⟩ := hsame k.slot ((h.out k.slot).mp (List.mem_map_of_mem hk))
    have hk' := h.home k hk
    exact ⟨hk'.chan, by rw [h1, hk'.op], by rw [h2, hk'.ident], hk'.magic, hk'.type⟩

theorem Paired.length_le (h : Paired kind pc ch ks) : ks.length ≤ ch.io.queueDepth := by
  have hsub : ks.map Key.slot ⊆ List.range ch.io.queueDepth :=
    fun id hid => List.mem_range.mpr ((h.out id).mp hid).1
  have hle := (List.Nodup.subperm h.nodup hsub).length_le
  rwa [List.length_map, List.length_range] at hle

/-- The next operation of the array is sent. -/
theorem Paired.send {c : Nat} {rest all : List Nat}
    (h : Paired kind (.sending c (id :: rest) all) ch ks) (hlt : id < ch.io.queueDepth)
    (hmem : id ∈ all) (hnot : id ∉ rest) (hst : (ch.io.opCtxs id).state = .waitingSubmit)
    (hk : k.slot = id) (hhome : Home kind ch k) : Paired kind (.sending c rest all) ch (k :: ks) where
  nodup := by
    rw [List.map_cons, List.nodup_cons, hk]
    refine ⟨fun hin => ?_, h.nodup⟩
    obtain ⟨_, hp | ⟨_, hno⟩⟩ := (h.out id).mp hin
    · rw [hst] at hp
      cases hp
    · exact hno (List.mem_cons_self ..)
  out i := by
    rw [List.map_cons, List.mem_cons, h.out, hk]
    simp only [Out, Pc.Submitted, List.mem_cons, not_or]
    constructor
    · rintro (rfl | ⟨h1, h2 | ⟨h2, _, h3⟩⟩)
      · exact ⟨hlt, Or.inr ⟨hmem, hnot⟩⟩
      · exact ⟨h1, Or.inl h2⟩
      · exact ⟨h1, Or.inr ⟨h2, h3⟩⟩
    · rintro ⟨h1, h2 | ⟨h2, h3⟩⟩
      · exact Or.inr ⟨h1, Or.inl h2⟩
      · by_cases he : i = id
        · exact Or.inl he
        · exact Or.inr ⟨h1, Or.inr ⟨h2, he, h3⟩⟩
  home j hj := by
    obtain rfl | hj := List.mem_cons.mp hj
    · exact hhome
    · exact h.home j hj

/-- The operation of a message is completed. -/
theorem Paired.complete (h : Paired kind pc ch (k :: ks)) (hpc : ∀ id, ¬ pc.Submitted id)
    (hop : ch'.op = ch.op) (hdepth : ch'.io.queueDepth = ch.io.queueDepth)
    (hdone : (ch'.io.opCtxs k.slot).state = .completed)
    (hother : ∀ i, i ≠ k.slot → ch'.io.opCtxs i = ch.io.opCtxs i) : Paired kind pc ch' ks := by
  have hnd := h.nodup
  rw [List.map_cons, List.nodup_cons] at hnd
  have hne : ∀ j ∈ ks, j.slot ≠ k.slot := fun j hj he => hnd.1 (he ▸ List.mem_map_of_mem hj)
  refine ⟨hnd.2, fun i => ?_, fun j hj => ?_⟩
  · have hout := h.out i
    rw [List.map_cons, List.mem_cons] at hout
    simp only [Out, hdepth] at hout ⊢
    by_cases hi : i = k.slot
    · subst hi
      have hno := hpc k.slot
      simp [hnd.1, hdone, hno]
    · rw [hother i hi, ← hout]
      simp [hi]
  · have hj' := h.home j (List.mem_cons_of_mem _ hj)
    exact ⟨hj'.chan, by rw [hop, hj'.op], by rw [hother _ (hne j hj), hj'.ident], hj'.magic, hj'.type⟩

end Paired

/-- A channel with the history of its slots: every operation has a number of its own. -/
structure ChanOk (kind : Kind) (ch : Chan) (nextOp : Nat) : Prop where
  slots : Slots kind ch.io
  fresh : ∀ id < ch.io.queueDepth, (ch.io.opCtxs id).state ≠ .new → ch.op id < nextOp
  distinct : ∀ i < ch.io.queueDepth, ∀ j < ch.io.queueDepth, (ch.io.opCtxs i).state ≠ .new →
    (ch.io.opCtxs j).state ≠ .new → ch.op i = ch.op j → i = j

/-- What the queues of the server hold, and that there are none elsewhere. -/
structure Served (w : World) (l : Nat) : Prop where
  taken : ∀ x ∈ w.batch l, x.msg.privCtx = l
  pending : ∀ x ∈ w.pending l, x.msg.privCtx = l ∧ Refilled x.msg x.msg
  replied : ∀ x ∈ w.s2c l, x.msg.header.metaLength = 0 ∧ x.msg.metaBuffer = none
  elsewhere : ∀ l', l' ≠ l → w.flight l' = []

/-- Where the client is in its calls. -/
def AtPc (w : World) (ch : Chan) : Prop :=
  match w.pc with
  | .idle => True
  | .sending c rest all => c = 0 ∧ all.Nodup ∧ rest <:+ all ∧
      ∀ id ∈ all, id < ch.io.queueDepth ∧ (ch.io.opCtxs id).state = .waitingSubmit
  | .polling c _ _ _ _ => c = 0 ∧ ch.io.cplNr + (w.flight ch.link).length ≤ ch.io.queueDepth
  | .reaping c _ => c = 0

/-- The invariant of a world with the one channel `ch`. -/
structure PairInv (w : World) (ch : Chan) : Prop where
  chans : w.chans = [ch]
  ok : ChanOk w.kind ch w.nextOp
  paired : Paired w.kind w.pc ch ((w.flight ch.link).map Sent.key)
  served : Served w ch.link
  atPc : AtPc w ch

/-- A ring that takes one more message. -/
def HasRoom (kind : Kind) (q : List Sent) : Prop := kind = .ipc → q.length < ringSize

instance (kind : Kind) (q : List Sent) : Decidable (HasRoom kind q) :=
  inferInstanceAs (Decidable (_ → _))

/-- No id stands twice in an array that passes the checks. -/
def Distinct (w : World) (c : Nat) (ops : List Nat) : Prop :=
  ∀ ch ∈ w.chans[c]?, (submitCheck ch.io ops).toOption = some true → ops.Nodup

instance (w : World) (c : Nat) (ops : List Nat) : Decidable (Distinct w c ops) :=
  match hc : w.chans[c]? with
  | none => isTrue fun _ h => nomatch hc.symm.trans h
  | some ch => decidable_of_iff ((submitCheck ch.io ops).toOption = some true → ops.Nodup)
      ⟨fun h _ hch' => Option.some.inj (hc.symm.trans hch') ▸ h, fun h => h ch hc⟩

/-- The ring takes what the submission sends next. -/
def SendRoom (w : World) : Pc → Prop
  | .sending c (_::_) _ => ∀ ch ∈ w.chans[c]?, HasRoom w.kind (w.c2s ch.link)
  | _ => True

instance (w : World) (pc : Pc) : Decidable (SendRoom w pc) :=
  match pc with
  | .sending c (_::_) _ => inferInstanceAs (Decidable (∀ ch ∈ w.chans[c]?, _))
  | .sending _ [] _ | .idle | .polling .. | .reaping .. => isTrue trivial

/-- No id stands twice in a submitted array, and no message meets a full ring. -/
def Room (h : Heap (List Byte)) (w : World) : Act → Prop
  | .submit c ops => Distinct w c ops
  | .send => SendRoom w w.pc
  | .handle l rc => ∀ x ∈ (w.batch l).head?,
      (responses (onRecvMessage h rc x.msg).1).isEmpty = true ∨ HasRoom w.kind (w.s2c l)
  | .complete l _ _ => HasRoom w.kind (w.s2c l)
  | _ => True

instance (h : Heap (List Byte)) (w : World) (a : Act) : Decidable (Room h w a) :=
  match a with
  | .submit c ops => inferInstanceAs (Decidable (Distinct w c ops))
  | .send => inferInstanceAs (Decidable (SendRoom w w.pc))
  | .handle l _ => inferInstanceAs (Decidable (∀ x ∈ (w.batch l).head?, _))
  | .complete l _ _ => inferInstanceAs (Decidable (HasRoom w.kind (w.s2c l)))
  | .prepare .. | .poll .. | .wait .. | .reap | .claim .. | .destroy .. | .take .. => isTrue trivial

theorem enqueue_room {kind : Kind} {q : List Sent} (h : HasRoom kind q) (x : Sent) :
    enqueue kind q x = q ++ [x] := by
  unfold enqueue
  rw [if_neg]
  rintro ⟨h1, h2⟩
  exact Nat.not_lt_of_le h2 (h h1)

@[simp] theorem delivered_header (kind : Kind) (s : Nat) (m : Msg) :
    (delivered kind s m).header = m.header := by
  cases kind <;> rfl

@[simp] theorem delivered_privCtx (kind : Kind) (s : Nat) (m : Msg) :
    (delivered kind s m).privCtx = s := by
  cases kind <;> rfl

/-- A response has no meta data when it arrives. -/
theorem delivered_metaBuffer (kind : Kind) (s : Nat) {m : Msg} (h : m.metaBuffer = none) :
    (delivered kind s m).metaBuffer = none := by
  cases kind with
  | ipc => exact h
  | net => simp [delivered, h]

section Client
variable {w : World} {ch : Chan} {kind : Kind} {n : Nat}

/-- A change that leaves the slots in use, their numbers and their requests alone. -/
theorem ChanOk.congr (h : ChanOk kind ch n) {ch' : Chan} {n' : Nat} (hs : Slots kind ch'.io)
    (hdepth : ch'.io.queueDepth = ch.io.queueDepth) (hn : n ≤ n')
    (hold : ∀ id < ch.io.queueDepth, (ch'.io.opCtxs id).state ≠ .new →
      (ch.io.opCtxs id).state ≠ .new ∧ ch'.op id = ch.op id) : ChanOk kind ch' n' where
  slots := hs
  fresh id hid hne := by
    rw [hdepth] at hid
    obtain ⟨h1, h2⟩ := hold id hid hne
    rw [h2]
    exact (h.fresh id hid h1).trans_le hn
  distinct i hi j hj hni hnj he := by
    rw [hdepth] at hi hj
    obtain ⟨hi1, hi2⟩ := hold i hi hni
    obtain ⟨hj1, hj2⟩ := hold j hj hnj
    rw [hi2, hj2] at he
    exact h.distinct i hi j hj hi1 hj1 he

theorem Out.not_new {pc : Pc} {id : Nat} (h : Out pc ch id)
    (hw : pc.Submitted id → (ch.io.opCtxs id).state = .waitingSubmit) :
    (ch.io.opCtxs id).state ≠ .new := by
  obtain ⟨_, hst | hsub⟩ := h
  · rw [hst]
    decide
  · rw [hw hsub]
    decide

/-- The channel when the message has been received. -/
theorem onRecvMsg_ok {io : IoChannel} {x : Sent} (session : Nat) (hs : Slots kind io)
    (hlt : x.slot < io.queueDepth) (hmeta : x.msg.metaBuffer = none)
    (hident : x.msg.header.ident = (io.opCtxs x.slot).requestAndResponse.header.ident)
    (hcpl : io.cplNr < io.queueDepth) : onRecvMsg io (delivered kind session x.msg) =
      .ok { io.setOp x.slot ⟨delivered kind session x.msg, .completed⟩ with
        cplOps := Function.update io.cplOps io.cplNr x.slot, cplNr := io.cplNr + 1 } := by
  have hslot : (delivered kind session x.msg).header.rsv 0 = x.slot := by
    rw [delivered_header]
    rfl
  have hseq : (io.opCtxs x.slot).requestAndResponse.header.seq = x.msg.header.seq :=
    (congrArg Prod.fst hident).symm
  have htype : (io.opCtxs x.slot).requestAndResponse.header.type = x.msg.header.type :=
    (MsgHdr.type_of_ident hident).symm
  have hreap := hs.reapDepth
  have hmeta' : ¬ (delivered kind session x.msg).metaBuffer.isSome = true := by
    rw [delivered_metaBuffer kind session hmeta]
    decide
  unfold onRecvMsg
  rw [hslot, if_neg hmeta', if_neg (Nat.not_le_of_lt hlt), delivered_header,
    if_neg (not_not.mpr hseq), if_neg (not_not.mpr htype), if_neg (by omega)]

/-- Receiving all of `xs`: every one of them completes its operation, and no assertion fails. -/
structure Received (kind : Kind) (n : Nat) (pc : Pc) (ch : Chan) (xs : List Sent) (ks : List Key)
    (r : Chan × List Obs × Option Fault) : Prop where
  noFault : r.2.2 = none
  ok : ChanOk kind r.1 n
  paired : Paired kind pc r.1 ks
  link : r.1.link = ch.link
  queueDepth : r.1.io.queueDepth = ch.io.queueDepth
  words : r.1.io.opCtxsBitmap.wordsLength = ch.io.opCtxsBitmap.wordsLength
  cplNr : r.1.io.cplNr = ch.io.cplNr + xs.length
  op : r.1.op = ch.op
  found : ∀ o ∈ r.2.1, ∃ op, o = .received 0 0 op op .inProgress
  slots : ∀ id, r.1.io.opCtxs id = ch.io.opCtxs id ∨ (r.1.io.opCtxs id).state = .completed ∧
    ∃ x ∈ xs, x.op = ch.op id ∧ (r.1.io.opCtxs id).requestAndResponse.header = x.msg.header

theorem recvAll_received {pc : Pc} {ks : List Key} (xs : List Sent) (hok : ChanOk kind ch n)
    (hp : Paired kind pc ch (xs.map Sent.key ++ ks)) (hpc : ∀ id, ¬ pc.Submitted id)
    (hmeta : ∀ x ∈ xs, x.msg.metaBuffer = none) (hcpl : ch.io.cplNr + xs.length ≤ ch.io.queueDepth) :
    Received kind n pc ch xs ks (World.recvAll kind 0 ch xs) := by
  induction xs generalizing ch with
  | nil => exact ⟨rfl, hok, hp, rfl, rfl, rfl, rfl, rfl, fun o ho => (nomatch ho), fun _ => Or.inl rfl⟩
  | cons x xs ih =>
    have hhome := hp.home x.key (List.mem_cons_self ..)
    have hout : Out pc ch x.slot := (hp.out x.slot).mp (List.mem_cons_self ..)
    obtain ⟨hlt, hst⟩ := hout
    have hst : (ch.io.opCtxs x.slot).state = .inProgress := hst.resolve_right (hpc _)
    rw [List.length_cons] at hcpl
    have hrecv := onRecvMsg_ok ch.io.session hok.slots hlt (hmeta x (List.mem_cons_self ..))
      hhome.ident (by omega)
    generalize hio : ({ ch.io.setOp x.slot ⟨delivered kind ch.io.session x.msg, .completed⟩ with
      cplOps := Function.update ch.io.cplOps ch.io.cplNr x.slot, cplNr := ch.io.cplNr + 1 } :
        IoChannel) = io at hrecv
    have hself : io.opCtxs x.slot = ⟨delivered kind ch.io.session x.msg, .completed⟩ := by
      rw [← hio]
      exact Function.update_self ..
    have hother : ∀ i, i ≠ x.slot → io.opCtxs i = ch.io.opCtxs i := by
      intro i hi
      rw [← hio]
      exact Function.update_of_ne hi ..
    have hdepth : io.queueDepth = ch.io.queueDepth := by rw [← hio]; rfl
    have hnr : io.cplNr = ch.io.cplNr + 1 := by rw [← hio]
    have hslots : Slots kind io := by
      have h1 : Slots kind (ch.io.setOp x.slot ⟨delivered kind ch.io.session x.msg, .completed⟩) := by
        apply hok.slots.setOp
        · rw [hst]
          decide
        · exact fun h => OpState.noConfusion h
        · exact fun h => OpState.noConfusion h
        · intro _
          rw [delivered_header]
          rfl
      rw [← hio]
      exact ⟨h1.sessionType, h1.depth_lt, h1.reapDepth, h1.words, h1.hint, h1.free, h1.slot, h1.request⟩
    have hnew : ChanOk kind { ch with io := io } n := by
      refine hok.congr hslots hdepth (Nat.le_refl _) fun id _ hne => ⟨?_, rfl⟩
      by_cases hi : id = x.slot
      · rw [hi, hst]
        decide
      · rwa [← hother id hi]
    have hdone : Paired kind pc { ch with io := io } (xs.map Sent.key ++ ks) :=
      hp.complete hpc rfl hdepth (congrArg OpCtx.state hself) hother
    have hrest := ih hnew hdone (fun y hy => hmeta y (List.mem_cons_of_mem _ hy)) (by
      rw [hnr, hdepth]
      omega)
    have hunfold : World.recvAll kind 0 ch (x :: xs) =
        ((World.recvAll kind 0 { ch with io := io } xs).1,
          .received 0 x.chan x.op (ch.op x.slot) (ch.io.opCtxs x.slot).state ::
            (World.recvAll kind 0 { ch with io := io } xs).2.1,
          (World.recvAll kind 0 { ch with io := io } xs).2.2) := by
      rw [World.recvAll, hrecv]
    rw [hunfold]
    refine ⟨hrest.noFault, hrest.ok, hrest.paired, hrest.link, hrest.queueDepth.trans hdepth, ?_, ?_,
      hrest.op, fun o ho => ?_, fun id => ?_⟩
    · rw [hrest.words, ← hio]
      rfl
    · rw [hrest.cplNr, hnr, List.length_cons]
      omega
    · obtain rfl | ho := List.mem_cons.mp ho
      · have hchan : x.chan = 0 := hhome.chan
        have hop : x.op = ch.op x.slot := hhome.op
        exact ⟨x.op, by rw [hchan, ← hop, hst]⟩
      · exact hrest.found o ho
    · obtain heq | ⟨hc, y, hy, hyop, hyhdr⟩ := hrest.slots id
      · by_cases hi : id = x.slot
        · subst hi
          rw [heq, hself, delivered_header]
          exact Or.inr ⟨rfl, x, List.mem_cons_self .., hhome.op, rfl⟩
        · exact Or.inl (heq.trans (hother id hi))
      · exact Or.inr ⟨hc, y, List.mem_cons_of_mem _ hy, hyop, hyhdr⟩

end Client
end ZCell.Liboss

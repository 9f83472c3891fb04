import ZCell.Bytes

/-! message.h: the header of a message as the 26 bytes that travel, and the message with the
counters of what is left of it to send or to receive. -/
namespace ZCell.Messager
open Bytes

/-- `bs` copied over the list at position `i`. -/
def overwrite (l : List Byte) (i : Nat) (bs : List Byte) : List Byte :=
  l.mapIdx fun j b => if i ≤ j then (bs[j - i]?).getD b else b

@[simp] theorem overwrite_length (l : List Byte) (i : Nat) (bs : List Byte) :
    (overwrite l i bs).length = l.length := by
  simp [overwrite]

theorem overwrite_take (l : List Byte) (i : Nat) (bs : List Byte) (h : i + bs.length ≤ l.length) :
    (overwrite l i bs).take (i + bs.length) = l.take i ++ bs := by
  apply List.ext_getElem
  · simp
    omega
  · intro j h1 h2
    have hj : j < i + bs.length := by
      rw [List.length_take] at h1
      omega
    simp only [overwrite, List.getElem_take, List.getElem_mapIdx]
    by_cases hij : i ≤ j
    · rw [if_pos hij, List.getElem_append_right (by simp; omega), List.getElem?_eq_getElem (by omega)]
      simp only [Option.getD_some, List.length_take]
      congr 1
      omega
    · rw [if_neg hij, List.getElem_append_left (by simp; omega), List.getElem_take]

theorem overwrite_same (l : List Byte) (i : Nat) (bs : List Byte) (h : i + bs.length ≤ l.length) :
    ((overwrite l i bs).drop i).take bs.length = bs := by
  have hpre := congrArg (List.drop i) (overwrite_take l i bs h)
  rw [List.drop_take, Nat.add_sub_cancel_left, List.drop_append_of_le_length
    (by rw [List.length_take]; omega), List.drop_take, Nat.sub_self, List.take_zero,
    List.nil_append] at hpre
  exact hpre

theorem overwrite_disjoint (l : List Byte) (i o n : Nat) (bs : List Byte)
    (h : o + n ≤ i ∨ i + bs.length ≤ o) :
    ((overwrite l i bs).drop o).take n = (l.drop o).take n := by
  apply List.ext_getElem
  · simp
  · intro j h1 h2
    have hj : j < n := by
      rw [List.length_take] at h1
      omega
    simp only [overwrite, List.getElem_take, List.getElem_drop, List.getElem_mapIdx]
    by_cases hi : i ≤ o + j
    · rw [if_pos hi, List.getElem?_eq_none (by omega)]
      rfl
    · rw [if_neg hi]

def sizeofHdr : Nat := 26

/-- `msg_hdr_t`, which is packed. -/
structure MsgHdr where
  bytes : List Byte
  size : bytes.length = sizeofHdr
  deriving DecidableEq

namespace MsgHdr

def field (h : MsgHdr) (ofst n : Nat) : Nat := leValue ((h.bytes.drop ofst).take n)

def seq (h : MsgHdr) : Nat := h.field 0 8
def type (h : MsgHdr) : Nat := h.field 8 1
def status (h : MsgHdr) : Nat := h.field 9 1
def magic (h : MsgHdr) : Nat := h.field 10 1
def metaLength (h : MsgHdr) : Nat := h.field 11 1
def dataLength (h : MsgHdr) : Nat := h.field 12 4
def rsv (h : MsgHdr) (i : Nat) : Nat := h.field (18 + 4 * i) 4

/-- A write into the header's memory. -/
def put (h : MsgHdr) (ofst : Nat) (bs : List Byte) : MsgHdr :=
  ⟨overwrite h.bytes ofst bs, (overwrite_length ..).trans h.size⟩

def zero : MsgHdr := ⟨List.replicate sizeofHdr 0, List.length_replicate⟩

/-- An initialized header: the fields that are not named are zero. -/
def build (seq : BitVec 64) (type magic metaLength dataLength rsv0 : Nat) : MsgHdr :=
  ⟨leBytes 8 seq.toNat ++ leBytes 1 type ++ [0] ++ leBytes 1 magic ++ leBytes 1 metaLength ++
    leBytes 4 dataLength ++ leBytes 2 0 ++ leBytes 4 rsv0 ++ leBytes 4 0, by simp [sizeofHdr]⟩

theorem metaLength_lt (h : MsgHdr) : h.metaLength < 2 ^ 8 := by
  have hlt := leValue_lt ((h.bytes.drop 11).take 1)
  have hlen : ((h.bytes.drop 11).take 1).length = 1 := by
    rw [List.length_take, List.length_drop, h.size]
    rfl
  rw [hlen] at hlt
  exact hlt

theorem dataLength_lt (h : MsgHdr) : h.dataLength < 2 ^ 32 := by
  have hlt := leValue_lt ((h.bytes.drop 12).take 4)
  have hlen : ((h.bytes.drop 12).take 4).length = 4 := by
    rw [List.length_take, List.length_drop, h.size]
    rfl
  rw [hlen] at hlt
  exact hlt

theorem put_take (h : MsgHdr) (i : Nat) (bs : List Byte) (hi : i + bs.length ≤ sizeofHdr) :
    (h.put i bs).bytes.take (i + bs.length) = h.bytes.take i ++ bs :=
  overwrite_take h.bytes i bs (by rw [h.size]; exact hi)

theorem field_put_same (h : MsgHdr) (i : Nat) (bs : List Byte) (hi : i + bs.length ≤ sizeofHdr) :
    (h.put i bs).field i bs.length = leValue bs :=
  congrArg leValue (overwrite_same h.bytes i bs (by rw [h.size]; exact hi))

theorem field_put_disjoint (h : MsgHdr) (i o n : Nat) (bs : List Byte)
    (hd : o + n ≤ i ∨ i + bs.length ≤ o) : (h.put i bs).field o n = h.field o n :=
  congrArg leValue (overwrite_disjoint h.bytes i o n bs hd)

def setStatus (h : MsgHdr) (code : Int) : MsgHdr := h.put 9 [BitVec.ofInt 8 code]
def setMetaLength (h : MsgHdr) (n : Nat) : MsgHdr := h.put 11 (leBytes 1 n)
def setDataLength (h : MsgHdr) (n : Nat) : MsgHdr := h.put 12 (leBytes 4 n)

section Setters
variable (h : MsgHdr) (code : Int) (n : Nat)

@[simp] theorem setStatus_magic : (h.setStatus code).magic = h.magic :=
  field_put_disjoint h 9 10 1 _ (by simp)

@[simp] theorem setStatus_metaLength : (h.setStatus code).metaLength = h.metaLength :=
  field_put_disjoint h 9 11 1 _ (by simp)

@[simp] theorem setStatus_dataLength : (h.setStatus code).dataLength = h.dataLength :=
  field_put_disjoint h 9 12 4 _ (by simp)

@[simp] theorem setMetaLength_magic : (h.setMetaLength n).magic = h.magic :=
  field_put_disjoint h 11 10 1 _ (by simp)

@[simp] theorem setMetaLength_metaLength : (h.setMetaLength n).metaLength = n % 2 ^ 8 := by
  have hput := field_put_same h 11 (leBytes 1 n) (by simp [sizeofHdr])
  rw [leBytes_length, leValue_leBytes] at hput
  exact hput

@[simp] theorem setMetaLength_dataLength : (h.setMetaLength n).dataLength = h.dataLength :=
  field_put_disjoint h 11 12 4 _ (by simp)

@[simp] theorem setDataLength_magic : (h.setDataLength n).magic = h.magic :=
  field_put_disjoint h 12 10 1 _ (by simp)

@[simp] theorem setDataLength_metaLength : (h.setDataLength n).metaLength = h.metaLength :=
  field_put_disjoint h 12 11 1 _ (by simp)

@[simp] theorem setDataLength_dataLength : (h.setDataLength n).dataLength = n % 2 ^ 32 := by
  have hput := field_put_same h 12 (leBytes 4 n) (by simp [sizeofHdr])
  rw [leBytes_length, leValue_leBytes] at hput
  exact hput

end Setters

end MsgHdr

/-- `message_state_object_t`: what is left of the three parts. -/
structure MessageState where
  hdrRemLen : BitVec 16
  metaRemLen : BitVec 16
  dataRemLen : BitVec 32
  deriving DecidableEq, Repr

/-- `message_t`; a buffer is an element of `β`. `privCtx` is the session. -/
structure Message (β : Type) where
  state : MessageState
  header : MsgHdr
  metaBuffer : Option β
  dataBuffer : Option β
  privCtx : Nat

variable {β : Type}

def messageStateReset (m : Message β) : Message β :=
  { m with state := {
      hdrRemLen := BitVec.ofNat 16 sizeofHdr
      metaRemLen := BitVec.ofNat 16 m.header.metaLength
      dataRemLen := BitVec.ofNat 32 m.header.dataLength } }

end ZCell.Messager

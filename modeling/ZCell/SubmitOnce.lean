import Mathlib.Data.List.Nodup
import ZCell.ChannelCalls
import ZCell.LibossRun
import ZCell.PairingStep

/-! What `io_submit_to_channel` hands to the messager. The check looks at every element against the
same states, so that it passes an id twice, and it lets the depth itself through to the array. -/
namespace ZCell.Liboss
open Bytes Messager Server Runs

/-- Refused with nothing handed over, or every element may be submitted and is handed over once. -/
def SubmitsOnce (ch : IoChannel) (ops : List Int) : Prop :=
  ∃ rc handed io, ioSubmitToChannel ch ops = .ok (rc, handed, io) ∧
    (rc = einval ∧ handed = [] ∨ rc = 0 ∧ (∀ opd ∈ ops, Submittable ch opd) ∧
      ∀ id : Nat, handed.count id = if (id : Int) ∈ ops then 1 else 0)

/-- The first element that may not be submitted is not the depth, and if all may, they differ. -/
def SubmitFits (ch : IoChannel) (ops : List Int) : Prop :=
  match ops.find? fun opd => ¬ Submittable ch opd with
  | some opd => opd ≠ ch.queueDepth
  | none => ops.Nodup

section Submit
variable {ch : IoChannel} {ops : List Int}

theorem mem_map_toNat (hops : ∀ opd ∈ ops, Submittable ch opd) (id : Nat) :
    id ∈ ops.map Int.toNat ↔ (id : Int) ∈ ops := by
  rw [List.mem_map]
  constructor
  · rintro ⟨opd, hopd, rfl⟩
    rwa [Int.toNat_of_nonneg (hops opd hopd).1]
  · exact fun hid => ⟨id, hid, Int.toNat_natCast id⟩

/-- Every element counts once exactly if no two are equal. -/
theorem count_map_toNat_iff (hops : ∀ opd ∈ ops, Submittable ch opd) :
    (∀ id : Nat, (ops.map Int.toNat).count id = if (id : Int) ∈ ops then 1 else 0) ↔ ops.Nodup := by
  constructor
  · intro hcount
    apply List.Nodup.of_map Int.toNat
    rw [List.nodup_iff_count_le_one]
    intro id
    rw [hcount id]
    split <;> omega
  · intro hnd id
    have hmap : (ops.map Int.toNat).Nodup := hnd.map_on fun a ha b hb he => by
      rw [← Int.toNat_of_nonneg (hops a ha).1, he, Int.toNat_of_nonneg (hops b hb).1]
    split
    · rename_i hid
      exact List.count_eq_one_of_mem hmap ((mem_map_toNat hops id).mpr hid)
    · rename_i hid
      exact List.count_eq_zero_of_not_mem fun hmem => hid ((mem_map_toNat hops id).mp hmem)

theorem submitsOnce_refused {opd : Int} (hbad : (ops.find? fun opd => ¬ Submittable ch opd) = some opd) :
    SubmitsOnce ch ops ↔ opd ≠ ch.queueDepth := by
  unfold SubmitsOnce ioSubmitToChannel
  rw [ioSubmitCheck_eq, hbad]
  dsimp only
  by_cases he : opd = ch.queueDepth
  · rw [if_pos he]
    constructor
    · rintro ⟨rc, handed, io, hcall, _⟩
      cases hcall
    · exact fun hne => absurd he hne
  · rw [if_neg he]
    exact ⟨fun _ => he, fun _ => ⟨_, _, _, rfl, Or.inl ⟨rfl, rfl⟩⟩⟩

theorem submitsOnce_taken (hall : (ops.find? fun opd => ¬ Submittable ch opd) = none) :
    SubmitsOnce ch ops ↔ ops.Nodup := by
  have hops : ∀ opd ∈ ops, Submittable ch opd := fun opd hopd => by
    simpa using List.find?_eq_none.mp hall opd hopd
  unfold SubmitsOnce ioSubmitToChannel
  rw [ioSubmitCheck_eq, hall, ← count_map_toNat_iff hops]
  constructor
  · rintro ⟨rc, handed, io, hcall, ⟨hrc, _⟩ | ⟨_, _, hcount⟩⟩
    · obtain ⟨rfl, _⟩ := Prod.mk.inj (Except.ok.inj hcall)
      exact absurd hrc (by decide)
    · obtain ⟨_, hrest⟩ := Prod.mk.inj (Except.ok.inj hcall)
      obtain ⟨rfl, _⟩ := Prod.mk.inj hrest
      exact hcount
  · exact fun hcount => ⟨_, _, _, rfl, Or.inr ⟨rfl, hops, hcount⟩⟩

/-- An array is submitted once or refused, whatever the channel is, exactly if it fits. -/
theorem submits_once_iff (ch : IoChannel) (ops : List Int) : SubmitsOnce ch ops ↔ SubmitFits ch ops := by
  unfold SubmitFits
  cases hfind : ops.find? fun opd => ¬ Submittable ch opd with
  | some opd => exact submitsOnce_refused hfind
  | none => exact submitsOnce_taken hfind

/-- One operation is prepared. Its id twice is handed over twice, and the depth is read behind the
array. -/
theorem twice_and_behind_array : ∃ rc ch, ioStat (getIoChannel .net 0 64) = .ok (rc, ch) ∧
    (∃ io, ioSubmitToChannel ch [0, 0] = .ok (0, [0, 0], io)) ∧ ¬ SubmitsOnce ch [0, 0] ∧
      ioSubmitToChannel ch [64] = .error .workArray ∧ ¬ SubmitsOnce ch [64] := by
  obtain ⟨rc, ch, hcall, hst, hdepth⟩ : ∃ rc ch, ioStat (getIoChannel .net 0 64) = .ok (rc, ch) ∧
      (ch.opCtxs 0).state = .waitingSubmit ∧ ch.queueDepth = 64 := ⟨_, _, rfl, rfl, rfl⟩
  have hzero : Submittable ch 0 := ⟨by decide, by rw [hdepth]; decide, hst⟩
  have htwice : ([0, 0] : List Int).find? (fun opd => ¬ Submittable ch opd) = none := by
    simp [hzero]
  have hlast : ¬ Submittable ch 64 := fun h => by
    have hlt := h.2.1
    rw [hdepth] at hlt
    exact absurd hlt (by decide)
  have hfind : ([64] : List Int).find? (fun opd => ¬ Submittable ch opd) = some 64 := by
    simp [hlast]
  refine ⟨rc, ch, hcall, ⟨markInProgress ch [0, 0], ?_⟩, ?_, ?_, ?_⟩
  · rw [ioSubmitToChannel, ioSubmitCheck_eq, htwice]
    rfl
  · rw [submitsOnce_taken htwice]
    decide
  · rw [ioSubmitToChannel, ioSubmitCheck_eq, hfind, hdepth]
    rfl
  · rw [submitsOnce_refused hfind, hdepth]
    decide

end Submit

section Steps
variable {h : Heap (List Byte)} {w : World} {ch : Chan} {c : Nat}

theorem ioSubmitCheck_cast (ch : IoChannel) (ops : List Nat) :
    ioSubmitCheck ch (ops.map Int.ofNat) = submitCheck ch ops := by
  induction ops with
  | nil => rfl
  | cons id ops ih =>
    have hone : submitCheck ch [id] = if ch.queueDepth < id then .ok false
        else if id = ch.queueDepth then .error .workArray
        else if (ch.opCtxs id).state = .waitingSubmit then .ok true else .ok false := rfl
    have hneg : ¬ Int.ofNat id < 0 := Int.not_lt.mpr (Int.natCast_nonneg id)
    have hid : (Int.ofNat id).toNat = id := rfl
    rw [List.map_cons, ioSubmitCheck, if_neg hneg, hid, hone, ih, submitCheck]
    by_cases hgt : ch.queueDepth < id
    · rw [if_pos hgt, if_pos hgt]
    · rw [if_neg hgt, if_neg hgt]
      by_cases heq : id = ch.queueDepth
      · rw [if_pos heq, if_pos heq]
      · rw [if_neg heq, if_neg heq]
        by_cases hst : (ch.opCtxs id).state = .waitingSubmit
        · rw [if_pos hst, if_pos hst]
        · rw [if_neg hst, if_neg hst]

/-- The message of operation `id` on its way. -/
def Chan.message (ch : Chan) (c id : Nat) : Sent := ⟨(ch.io.opCtxs id).requestAndResponse, c, ch.op id⟩

/-- The steps that send `rest` and mark all of them. -/
theorem send_steps (rest all : List Nat) (hpc : w.pc = .sending c rest all) (hf : w.fault = none)
    (hch : w.chans[c]? = some ch) : ∃ w', runActs (step h) (fun _ _ => True)
      (List.replicate (rest.length + 1) .send) w = some w' ∧ w'.pc = .idle ∧ w'.fault = none ∧
      w'.chans = w.chans.set c { ch with io := markInProgress ch.io all } ∧
      w'.c2s ch.link = rest.foldl (fun q id => enqueue w.kind q (ch.message c id)) (w.c2s ch.link) := by
  induction rest generalizing w with
  | nil =>
    refine ⟨{ w.setChan c { ch with io := markInProgress ch.io all } with pc := .idle }, ?_, rfl, hf, rfl, rfl⟩
    simp [runActs, step, World.act, hf, hpc, hch]
  | cons id rest ih =>
    have hone : step h .send w = some (w.send c ch id rest all) := by
      simp [step, World.act, hf, hpc, hch]
    obtain ⟨w', hrun, hidle, hf', hchans, hq⟩ :=
      @ih (w.send c ch id rest all) rfl hf hch
    refine ⟨w', ?_, hidle, hf', hchans, ?_⟩
    · rw [List.length_cons, List.replicate_succ, runActs, if_pos trivial, hone]
      exact hrun
    · rw [hq, List.foldl_cons]
      simp only [World.send, Function.update_self]
      rfl

/-- The steps of a submission are the call: they hand the same messages over, in the same order, and
leave the same channel. -/
theorem submit_steps {ops handed : List Nat} {io : IoChannel} (hpc : w.pc = .idle) (hf : w.fault = none)
    (hch : w.chans[c]? = some ch)
    (hcall : ioSubmitToChannel ch.io (ops.map Int.ofNat) = .ok (0, handed, io)) :
    ∃ w', runActs (step h) (fun _ _ => True)
      (.submit c ops :: List.replicate (ops.length + 1) .send) w = some w' ∧ w'.pc = .idle ∧
      w'.fault = none ∧ w'.chans = w.chans.set c { ch with io := io } ∧
      w'.c2s ch.link = handed.foldl (fun q id => enqueue w.kind q (ch.message c id)) (w.c2s ch.link) := by
  have hnat : (ops.map Int.ofNat).map Int.toNat = ops := by
    rw [List.map_map]
    exact List.map_id ops
  unfold ioSubmitToChannel at hcall
  rw [ioSubmitCheck_cast, hnat] at hcall
  split at hcall
  · cases hcall
  · cases hcall
  · rename_i hcheck
    obtain ⟨_, hrest⟩ := Prod.mk.inj (Except.ok.inj hcall)
    obtain ⟨rfl, rfl⟩ := Prod.mk.inj hrest
    have hone : step h (.submit c ops) w = some { w with pc := .sending c ops ops } := by
      simp [step, World.act, World.call, World.submit, hf, hpc, hch, hcheck]
    obtain ⟨w', hrun, hidle, hf', hchans, hq⟩ :=
      @send_steps h { w with pc := .sending c ops ops } ch c ops ops rfl hf hch
    refine ⟨w', ?_, hidle, hf', hchans, hq⟩
    rw [runActs, if_pos trivial, hone]
    exact hrun

end Steps
end ZCell.Liboss

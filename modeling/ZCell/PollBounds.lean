import ZCell.PollReport

/-! The bounds that a caller gives to `io_poll_channel`. The lower one is kept only by the wait, which
is skipped as long as completions are left over from an earlier call. -/
namespace ZCell.Liboss
open Bytes Messager Server Runs

def inFlight (ch : IoChannel) : Nat :=
  (List.range ch.queueDepth).countP fun id => (ch.opCtxs id).state = .inProgress

/-- Whatever responses come in, the call fails no assertion, and when it returns it has written a number
of ids between the bounds, and those alone. It returns when something is pending, or when everything
in flight has been answered. -/
def HonoursBounds (ch : IoChannel) (min max : Int) : Prop :=
  ∀ opCpl batches, Honest ch batches.flatten →
    ∃ r, ioPollChannel ch opCpl min max batches = .ok r ∧
      (ch.cplNr ≠ 0 ∨ batches ≠ [] ∧ inFlight ch ≤ batches.flatten.length → r.isSome) ∧
      ∀ p ∈ r, min ≤ p.code ∧ p.code ≤ max ∧
        (∀ i : Nat, (i : Int) < p.code →
          p.opCpl i = (p.io.opCtxs (p.io.cplOps i)).requestAndResponse.header.rsv 0) ∧
        ∀ i : Nat, p.code ≤ i → p.opCpl i = opCpl i

section Bounds
variable {ch : IoChannel} {min max : Int}

theorem asUnsigned_of_nonneg {n : Int} (h : 0 ≤ n) (hlt : n < 2 ^ 32) : asUnsigned n = n.toNat := by
  rw [asUnsigned, BitVec.toNat_ofInt]
  congr 1
  exact Int.emod_eq_of_lt h hlt

theorem honours_of_fits (hle : min ≤ max) (hmax : max ≤ ch.reapDepth) (hdepth : ch.reapDepth = ch.queueDepth)
    (hlt : ch.queueDepth < 2 ^ 32) (hmin : min ≤ inFlight ch + ch.cplNr) (hpos : 0 ≤ max)
    (hfits : ch.cplNr = 0 ∨ min ≤ ch.cplNr) : HonoursBounds ch min max := by
  intro opCpl batches hh
  have hunsigned := asUnsigned_of_nonneg hpos (by omega)
  obtain ⟨r, hcall, hret, hspec⟩ := @ioPollChannel_honest ch min max opCpl batches hle hh fun _ => by
    rw [hdepth]
    exact hh.length_le
  refine ⟨r, hcall, fun henough => hret ?_, fun p hp => ?_⟩
  · by_cases hnr : ch.cplNr = 0
    · obtain hne | ⟨hne, hall⟩ := henough
      · exact absurd hnr hne
      · exact Or.inr ⟨hne, by omega⟩
    · exact Or.inl hnr
  · obtain ⟨taken, ch1, hbatches, hc, hwaited, hskipped, hreap⟩ := hspec p hp
    have hnr1 := hc.cplNr
    have hcount : reapCount ch1 max = Nat.min ch1.cplNr max.toNat := by
      have hinner : Nat.min max.toNat ch.reapDepth = max.toNat := Nat.min_eq_left (by omega)
      rw [reapCount, hunsigned, hc.same.reapDepth, hinner]
    have hkeep : reapCount ch1 max ≤ ch1.cplNr := Nat.min_le_left ..
    have hge : min ≤ ch1.cplNr := by
      obtain hnr | hnr := hfits
      · have hgot := hwaited hnr
        omega
      · omega
    have hboth : min ≤ reapCount ch1 max ∧ (reapCount ch1 max : Int) ≤ max := by
      rw [hcount]
      simp only [Nat.min_def]
      split <;> omega
    rw [hreap.code]
    refine ⟨hboth.1, hboth.2, fun i hi => ?_, fun i hi => hreap.behind i (by omega)⟩
    rw [hreap.filled i (by omega), hreap.io]

theorem fits_of_honours (hle : min ≤ max) (h : HonoursBounds ch min max) :
    0 ≤ max ∧ (ch.cplNr = 0 ∨ min ≤ ch.cplNr) := by
  -- nothing comes in: one empty wait, or none
  have hnone : ∀ batches : List (List Msg), batches.flatten = [] → Honest ch batches.flatten := by
    intro batches he
    rw [he]
    exact ⟨fun _ hmsg => (nomatch hmsg), List.nodup_nil⟩
  have hcall : ∀ batches : List (List Msg), batches.flatten = [] →
      (ch.cplNr ≠ 0 ∨ batches ≠ [] ∧ min ≤ 0) → ∃ p : Polled, min ≤ p.code ∧ p.code ≤ max ∧ 0 ≤ p.code ∧
        p.code ≤ ch.cplNr := by
    intro batches he henough
    obtain ⟨r, hr, hret, hspec⟩ := @ioPollChannel_honest ch min max (fun _ => 0) batches hle
      (hnone batches he) fun _ => by rw [he]; exact Nat.zero_le _
    obtain ⟨r', hr', _, hbounds⟩ := h (fun _ => 0) batches (hnone batches he)
    obtain rfl := Except.ok.inj (hr.symm.trans hr')
    obtain ⟨p, hp⟩ := Option.isSome_iff_exists.mp (hret (henough.imp_right fun hc => ⟨hc.1, by
      rw [he]
      exact hc.2⟩))
    obtain ⟨hlow, hhigh, _⟩ := hbounds p hp
    obtain ⟨taken, ch1, hbatches, hc, _, _, hreap⟩ := hspec p hp
    have hempty : taken.flatten = [] := by
      rw [hbatches, List.flatten_append] at he
      exact (List.append_eq_nil_iff.mp he).1
    have hnr1 : ch1.cplNr = ch.cplNr := by
      rw [hc.cplNr, hempty, List.length_nil, Nat.add_zero]
    have hkeep : reapCount ch1 max ≤ ch1.cplNr := Nat.min_le_left ..
    refine ⟨p, hlow, hhigh, ?_, ?_⟩ <;> rw [hreap.code] <;> omega
  by_cases hnr : ch.cplNr = 0
  · refine ⟨?_, Or.inl hnr⟩
    by_contra hneg
    obtain ⟨p, _, hhigh, hpos, _⟩ := hcall [[]] rfl (Or.inr ⟨List.cons_ne_nil _ _, by omega⟩)
    omega
  · obtain ⟨p, hlow, hhigh, hpos, hnr'⟩ := hcall [] rfl (Or.inl hnr)
    exact ⟨by omega, Or.inr (by omega)⟩

end Bounds

section Results
variable {kind : Kind} {session : Nat} {maxQd : BitVec 32} {x : Client}

/-- A poll honours its bounds exactly if the upper one is not negative and what is left over from
earlier polls, if anything, reaches the lower one. -/
theorem poll_honours_iff (hrun : Run Client.move Client.any (Client.start kind session maxQd) x)
    {min max : Int} (hle : min ≤ max) (hmax : max ≤ x.io.reapDepth)
    (hmin : min ≤ inFlight x.io + x.io.cplNr) :
    HonoursBounds x.io min max ↔ 0 ≤ max ∧ (x.io.cplNr = 0 ∨ min ≤ x.io.cplNr) := by
  have hl := run_lives hrun
  have hlt := depthOf_lt maxQd
  refine ⟨fits_of_honours hle, fun ⟨hpos, hfits⟩ => honours_of_fits hle hmax ?_ ?_ hmin hpos hfits⟩
  · rw [hl.reapDepth, hl.queueDepth]
  · rw [hl.queueDepth]
    exact hlt

/-- The response to the operation in slot `id` of a network channel, when each of its slots has been
taken once, by `io_stat`. -/
def statReply (id : Nat) : Msg :=
  ⟨⟨0, 0, 0⟩, MsgHdr.build (BitVec.ofNat 64 id) msgOssOpStat Kind.net.magic 0 0 id, none, none, 0⟩

/-- Nothing is left over: the client may wait for its operation. -/
theorem fresh_poll_honours : ∃ x, Run Client.move Client.any (Client.start .net 0 3) x ∧
    inFlight x.io = 1 ∧ HonoursBounds x.io 1 1 := by
  have hrun : (runActs Client.move Client.any [.prepare .stat, .submit [0]] (Client.start .net 0 3)).map
      (fun x => (inFlight x.io, x.io.cplNr, x.io.reapDepth)) = some (1, 0, 3) := by decide +kernel
  obtain ⟨x, hx, hval⟩ := Option.map_eq_some_iff.mp hrun
  obtain ⟨hflight, hval⟩ := Prod.mk.inj hval
  obtain ⟨hnr, hdepth⟩ := Prod.mk.inj hval
  have hreach := run_of_runActs .start hx
  refine ⟨x, hreach, hflight, (poll_honours_iff hreach ?_ ?_ ?_).mpr ⟨by decide, Or.inl hnr⟩⟩
  · decide
  · rw [hdepth]
    decide
  · rw [hflight, hnr]
    decide

/-- Three operations, of which two are answered during a poll for one. The next poll, for two, returns
the one that is left over although the third is in flight. -/
theorem leftover_below_min : ∃ x, Run Client.move Client.any (Client.start .net 0 3) x ∧
    inFlight x.io = 1 ∧ x.io.cplNr = 1 ∧ x.io.reapDepth = 3 ∧ ¬ HonoursBounds x.io 2 2 := by
  have hrun : (runActs Client.move Client.any [.prepare .stat, .prepare .stat, .prepare .stat,
      .submit [0, 1, 2], .poll 1 1 [[statReply 0, statReply 1]]] (Client.start .net 0 3)).map
      (fun x => (inFlight x.io, x.io.cplNr, x.io.reapDepth)) = some (1, 1, 3) := by decide +kernel
  obtain ⟨x, hx, hval⟩ := Option.map_eq_some_iff.mp hrun
  obtain ⟨hflight, hval⟩ := Prod.mk.inj hval
  obtain ⟨hnr, hdepth⟩ := Prod.mk.inj hval
  refine ⟨x, run_of_runActs .start hx, hflight, hnr, hdepth, fun hh => ?_⟩
  obtain ⟨_, hz | hlow⟩ := fits_of_honours (by decide) hh
  · omega
  · rw [hnr] at hlow
    exact absurd hlow (by decide)

end Results
end ZCell.Liboss

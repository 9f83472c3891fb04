import ZCell.Persist

/-! A persistent memory between the calls that use it: what is durable, which copies are not drained
yet, and what a power failure in the middle of a call leaves of both. -/
namespace ZCell.Persist
open Bytes

/-- Everything up to the last drain is durable. -/
structure Nvm where
  durable : Image
  pend : List (Nat × List Byte)

namespace Nvm

/-- What the processor reads. -/
def view (d : Nvm) : Image := storeAll d.durable d.pend

/-- The calls are carried out without a failure. -/
def exec : Nvm → List PmOp → Nvm
  | d, [] => d
  | d, .nodrain o bs :: ops => exec ⟨d.durable, d.pend ++ [(o, bs)]⟩ ops
  | d, .drain :: ops => exec ⟨d.view, []⟩ ops

/-- Power fails during the calls, and `m` is what is left. -/
def Fails (d : Nvm) (ops : List PmOp) (m : Image) : Prop := Crash d.durable d.pend ops m

variable {d : Nvm} {m : Image}

theorem exec_append (u v : List PmOp) : d.exec (u ++ v) = (d.exec u).exec v := by
  induction u generalizing d with
  | nil => rfl
  | cons op u ih => cases op <;> exact ih

/-- A failure has no effect on what is read until it happens. -/
theorem exec_view (ops : List PmOp) : (d.exec ops).view = finish d.view ops := by
  induction ops generalizing d with
  | nil => rfl
  | cons op ops ih =>
    cases op with
    | nodrain o bs =>
      refine ih.trans ?_
      rw [view, storeAll_append]
      rfl
    | drain => exact ih

theorem exec_nodrains (ws : List (Nat × List Byte)) :
    d.exec (nodrains ws) = ⟨d.durable, d.pend ++ ws⟩ := by
  induction ws generalizing d with
  | nil =>
    rw [List.append_nil]
    rfl
  | cons w ws ih =>
    refine (@ih ⟨d.durable, d.pend ++ [(w.1, w.2)]⟩).trans ?_
    rw [List.append_assoc]
    rfl

/-- Nothing is pending behind a drain. -/
theorem exec_drain (u : List PmOp) : d.exec (u ++ [.drain]) = ⟨finish d.view u, []⟩ := by
  rw [exec_append, ← exec_view]
  rfl

end Nvm

theorem Torn.split {m m' : Image} {us ws : List (Nat × List Byte)} (h : Torn m (us ++ ws) m') :
    ∃ s, Torn m us s ∧ Torn s ws m' := by
  induction us generalizing m with
  | nil => exact ⟨m, Torn.nil m, h⟩
  | cons u us ih =>
    cases h with
    | cons _ W o bs _ _ h =>
      obtain ⟨s, hs, ht⟩ := ih h
      exact ⟨s, Torn.cons m W o bs us s hs, ht⟩

/-- The copies behind a prefix may all be missing. -/
theorem Torn.of_take {m m' : Image} {ws : List (Nat × List Byte)} {k : Nat}
    (h : Torn m (ws.take k) m') : Torn m ws m' := by
  have hs := h.append (Torn.skip m' (ws.drop k))
  rwa [List.take_append_drop] at hs

/-- Without a drain all that was copied may be torn. -/
theorem Nvm.Fails.nodrains {d : Nvm} {ops : List PmOp} {m : Image} {ws : List (Nat × List Byte)}
    (h : d.Fails ops m) (hops : ops = nodrains ws) : Torn d.durable (d.pend ++ ws) m := by
  induction ws generalizing d ops with
  | nil =>
    subst hops
    cases h with
    | here _ _ _ _ h => rwa [List.append_nil]
  | cons w ws ih =>
    subst hops
    cases h with
    | here _ _ _ _ h => exact h.append (Torn.skip m _)
    | nodrain _ _ _ _ _ _ h =>
      have ht := @ih ⟨d.durable, d.pend ++ [(w.1, w.2)]⟩ _ h rfl
      rwa [List.append_assoc] at ht

/-- A drain behind the first copy saves what was pending before it. -/
theorem Nvm.Fails.persist {d : Nvm} {o : Nat} {bs : List Byte} {ops : List PmOp} {m : Image}
    (h : d.Fails (persist o bs ++ ops) m) :
    Torn d.durable (d.pend ++ [(o, bs)]) m ∨ Crash d.view [] (Persist.persist o bs ++ ops) m := by
  cases h with
  | here _ _ _ _ h => exact Or.inl (h.append (Torn.skip m _))
  | nodrain _ _ _ _ _ _ h =>
    cases h with
    | here _ _ _ _ h => exact Or.inl h
    | drain _ _ _ _ h =>
      rw [storeAll_append] at h
      exact Or.inr (crash_persist.mpr (Or.inr h))

/-- The copy is about something in the aligned word. -/
def Touches (w : Nat) (u : Nat × List Byte) : Prop := ∃ a, a / 8 = w ∧ u.1 ≤ a ∧ a < u.1 + u.2.length

section Word
variable {m m' : Image} {ws : List (Nat × List Byte)} {c u : Nat × List Byte} {w a : Nat}

theorem store_apart (h : ¬ Touches w u) (ha : a / 8 = w) : store m u.1 u.2 a = m a := by
  refine store_outside _ _ _ _ ?_
  by_contra hr
  exact h ⟨a, ha, by omega, by omega⟩

theorem store_again (m : Image) (o : Nat) (bs : List Byte) (a : Nat) :
    store (store m o bs) o bs a = store m o bs a := by
  by_cases hr : a < o ∨ o + bs.length ≤ a
  · rw [store_outside _ _ _ _ hr]
  · rw [store_at _ _ _ _ (by omega) (by omega), store_at _ _ _ _ (by omega) (by omega)]

/-- All copies about the word are the same one. -/
theorem Torn.word_of_one (h : Torn m ws m') (hc : ∀ u ∈ ws, Touches w u → u = c) :
    (∀ a, a / 8 = w → m' a = m a) ∨ ∀ a, a / 8 = w → m' a = store m c.1 c.2 a := by
  induction h with
  | nil m => exact Or.inl fun _ _ => rfl
  | cons m W o bs ws m' _ ih =>
    have ih := ih fun u hu => hc u (List.mem_cons_of_mem _ hu)
    by_cases hcopy : Touches w (o, bs) ∧ W w = true
    · -- this copy has brought the word, and the later ones bring it again
      have hsame : ∀ a, a / 8 = w → storeWords m W o bs a = store m c.1 c.2 a := by
        intro a ha
        rw [← hc (o, bs) (List.mem_cons_self ..) hcopy.1, storeWords, ha, if_pos hcopy.2]
      right
      intro a ha
      obtain h | h := ih
      · rw [h a ha, hsame a ha]
      · rw [h a ha, store_congr c.1 c.2 (hsame a ha), store_again]
    · have hsame : ∀ a, a / 8 = w → storeWords m W o bs a = m a := by
        intro a ha
        obtain hno | hno := not_and_or.mp hcopy
        · obtain h | h := storeWords_or m W o bs a
          · exact h.trans (store_apart hno ha)
          · exact h
        · rw [storeWords, ha, if_neg hno]
      refine ih.imp (fun h a ha => (h a ha).trans (hsame a ha)) fun h a ha => ?_
      rw [h a ha, store_congr c.1 c.2 (hsame a ha)]

theorem storeAll_of_one (hc : ∀ u ∈ ws, Touches w u → u = c) (ht : Touches w c) (ha : a / 8 = w)
    (hm : c ∈ ws ∨ m a = store m c.1 c.2 a) : storeAll m ws a = store m c.1 c.2 a := by
  induction ws generalizing m with
  | nil =>
    obtain hm | hm := hm
    · cases hm
    · exact hm
  | cons u ws ih =>
    have ih := @ih (store m u.1 u.2) fun v hv => hc v (List.mem_cons_of_mem _ hv)
    rw [storeAll_cons]
    by_cases hu : Touches w u
    · obtain rfl := hc u (List.mem_cons_self ..) hu
      have hagain := store_again m u.1 u.2 a
      exact (ih (Or.inr hagain.symm)).trans hagain
    · have hsame := @store_apart m u w a hu ha
      have hcopy := @store_congr (store m u.1 u.2) m a c.1 c.2 hsame
      refine (ih ?_).trans hcopy
      obtain hm | hm := hm
      · obtain rfl | hm := List.mem_cons.mp hm
        · exact absurd ht hu
        · exact Or.inl hm
      · exact Or.inr (hsame.trans (hm.trans hcopy.symm))

/-- A word is left as it was or as it was meant to be, unless several copies are about it. -/
theorem Torn.word (h : Torn m ws m')
    (hone : ∀ u ∈ ws, ∀ v ∈ ws, Touches w u → Touches w v → u = v) :
    (∀ a, a / 8 = w → m' a = m a) ∨ ∀ a, a / 8 = w → m' a = storeAll m ws a := by
  by_cases hex : ∃ c ∈ ws, Touches w c
  · obtain ⟨c, hc, ht⟩ := hex
    have hsame : ∀ u ∈ ws, Touches w u → u = c := fun u hu hut => hone u hu c hc hut ht
    refine (h.word_of_one hsame).imp_right fun h a ha => ?_
    rw [h a ha, storeAll_of_one hsame ht ha (Or.inl hc)]
  · refine Or.inl fun a ha => h.outside a fun ⟨u, hu, hr⟩ => hex ⟨u, hu, a, ha, hr⟩

end Word

end ZCell.Persist

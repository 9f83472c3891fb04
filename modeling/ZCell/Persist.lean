import ZCell.Bytes

/-! Persistent memory under power failure. A program is the list of its calls:
non-temporal copies, which reach the medium word by word in any subset, and
drains, which wait for all of them. -/
namespace ZCell.Persist
open Bytes

inductive PmOp where
  | nodrain (ofst : Nat) (bs : List Byte)
  | drain

/-- Copy `bs` to `o`, but only into the aligned 8-byte words selected by `W`. -/
def storeWords (m : Image) (W : Nat → Bool) (o : Nat) (bs : List Byte) : Image :=
  fun a => if W (a / 8) then store m o bs a else m a

/-- Every pending copy has reached the medium in some subset of its words. -/
inductive Torn : Image → List (Nat × List Byte) → Image → Prop
  | nil (m : Image) : Torn m [] m
  | cons (m : Image) (W : Nat → Bool) (o : Nat) (bs : List Byte) (ws : List (Nat × List Byte))
      (m' : Image) (h : Torn (storeWords m W o bs) ws m') : Torn m ((o, bs) :: ws) m'

/-- `Crash m pend ops m'`: power fails at some point of `ops`, started on the durable
image `m` with the copies `pend` not yet drained, and leaves `m'` behind. -/
inductive Crash : Image → List (Nat × List Byte) → List PmOp → Image → Prop
  | here (m : Image) (pend : List (Nat × List Byte)) (ops : List PmOp) (m' : Image)
      (h : Torn m pend m') : Crash m pend ops m'
  | nodrain (m : Image) (pend : List (Nat × List Byte)) (o : Nat) (bs : List Byte)
      (ops : List PmOp) (m' : Image) (h : Crash m (pend ++ [(o, bs)]) ops m') :
      Crash m pend (.nodrain o bs :: ops) m'
  | drain (m : Image) (pend : List (Nat × List Byte)) (ops : List PmOp) (m' : Image)
      (h : Crash (storeAll m pend) [] ops m') : Crash m pend (.drain :: ops) m'

/-- The copies a program makes, in program order. -/
def copies : List PmOp → List (Nat × List Byte)
  | [] => []
  | .nodrain o bs :: ops => (o, bs) :: copies ops
  | .drain :: ops => copies ops

/-- The image a program leaves when nothing interrupts it. -/
def finish (m : Image) (ops : List PmOp) : Image := storeAll m (copies ops)

/-- A copy followed by a drain. -/
def persist (o : Nat) (bs : List Byte) : List PmOp := [.nodrain o bs, .drain]

def nodrains (ws : List (Nat × List Byte)) : List PmOp := ws.map fun w => .nodrain w.1 w.2

theorem copies_append (u v : List PmOp) : copies (u ++ v) = copies u ++ copies v := by
  induction u with
  | nil => rfl
  | cons op u ih => cases op <;> simp [copies, ih]

@[simp] theorem copies_persist (o : Nat) (bs : List Byte) : copies (persist o bs) = [(o, bs)] := rfl

@[simp] theorem copies_nodrains (ws : List (Nat × List Byte)) : copies (nodrains ws) = ws := by
  induction ws with
  | nil => rfl
  | cons w ws ih => simpa [nodrains, copies] using ih

theorem storeWords_all (m : Image) (o : Nat) (bs : List Byte) :
    storeWords m (fun _ => true) o bs = store m o bs := by
  funext a
  simp [storeWords]

theorem storeWords_none (m : Image) (o : Nat) (bs : List Byte) :
    storeWords m (fun _ => false) o bs = m := by
  funext a
  simp [storeWords]

theorem storeWords_congr {m m' : Image} {a : Nat} (W : Nat → Bool) (o : Nat) (bs : List Byte)
    (h : m a = m' a) : storeWords m W o bs a = storeWords m' W o bs a := by
  unfold storeWords
  split
  · exact store_congr o bs h
  · exact h

/-- Every byte is either reached by the copy or kept. -/
theorem storeWords_or (m : Image) (W : Nat → Bool) (o : Nat) (bs : List Byte) (a : Nat) :
    storeWords m W o bs a = store m o bs a ∨ storeWords m W o bs a = m a := by
  unfold storeWords
  split
  · exact Or.inl rfl
  · exact Or.inr rfl

theorem Torn.outside {m m' : Image} {ws : List (Nat × List Byte)} (h : Torn m ws m') (a : Nat)
    (ha : ¬ Covers ws a) : m' a = m a := by
  induction h with
  | nil m => rfl
  | cons m W o bs ws m' _ ih =>
    have hw : ¬ Covers ws a := fun ⟨u, hu, hb⟩ => ha ⟨u, List.mem_cons_of_mem _ hu, hb⟩
    have ho : ¬ (o ≤ a ∧ a < o + bs.length) := fun hb => ha ⟨(o, bs), by simp, hb⟩
    rw [ih hw]
    obtain h | h := storeWords_or m W o bs a
    · rw [h, store_outside m o bs a (by omega)]
    · exact h

/-- The pending copies may all have reached the medium, or none of them. -/
theorem Torn.skip (m : Image) (ws : List (Nat × List Byte)) : Torn m ws m := by
  induction ws with
  | nil => exact Torn.nil m
  | cons w ws ih =>
    apply Torn.cons m (fun _ => false) w.1 w.2 ws m
    rwa [storeWords_none]

theorem Torn.whole (m : Image) (ws : List (Nat × List Byte)) : Torn m ws (storeAll m ws) := by
  induction ws generalizing m with
  | nil => exact Torn.nil m
  | cons w ws ih =>
    apply Torn.cons m (fun _ => true)
    rw [storeWords_all]
    exact ih (store m w.1 w.2)

theorem Torn.append {m m1 m2 : Image} {us ws : List (Nat × List Byte)} (h : Torn m us m1)
    (h2 : Torn m1 ws m2) : Torn m (us ++ ws) m2 := by
  induction h with
  | nil m => exact h2
  | cons m W o bs us m1 _ ih => exact Torn.cons m W o bs (us ++ ws) m2 (ih h2)

theorem Torn.one (m : Image) (W : Nat → Bool) (o : Nat) (bs : List Byte) :
    Torn m [(o, bs)] (storeWords m W o bs) :=
  Torn.cons m W o bs [] _ (Torn.nil _)

/-- Exactly one of the pending copies has reached the medium, in the words `W`. -/
theorem Torn.pick (m : Image) (us : List (Nat × List Byte)) (W : Nat → Bool) (o : Nat)
    (bs : List Byte) : Torn m (us ++ [(o, bs)]) (storeWords m W o bs) :=
  (Torn.skip m us).append (Torn.one m W o bs)

/-- A crash inside a run of undrained copies that ends in a drain. -/
theorem crash_nodrains {m m' : Image} {pend ws : List (Nat × List Byte)} {ops : List PmOp} :
    Crash m pend (nodrains ws ++ .drain :: ops) m' ↔
      (∃ k, Torn m (pend ++ ws.take k) m') ∨ Crash (storeAll m (pend ++ ws)) [] ops m' := by
  induction ws generalizing pend with
  | nil =>
    simp only [nodrains, List.map_nil, List.nil_append, List.take_nil, List.append_nil]
    constructor
    · intro h
      cases h with
      | here _ _ _ _ h => exact Or.inl ⟨0, h⟩
      | drain _ _ _ _ h => exact Or.inr h
    · intro h
      obtain ⟨_, h⟩ | h := h
      · exact Crash.here _ _ _ _ h
      · exact Crash.drain _ _ _ _ h
  | cons w ws ih =>
    have hpre : (pend ++ [(w.1, w.2)]) ++ ws = pend ++ w :: ws := by simp
    have htake : ∀ k, (pend ++ [(w.1, w.2)]) ++ ws.take k = pend ++ (w :: ws).take (k + 1) := by
      intro k
      simp
    constructor
    · intro h
      cases h with
      | here _ _ _ _ h => exact Or.inl ⟨0, by simpa using h⟩
      | nodrain _ _ _ _ _ _ h =>
        obtain ⟨k, hk⟩ | hk := ih.mp h
        · exact Or.inl ⟨k + 1, by rwa [htake] at hk⟩
        · exact Or.inr (by rwa [hpre] at hk)
    · intro h
      obtain ⟨k, hk⟩ | hk := h
      · cases k with
        | zero => exact Crash.here _ _ _ _ (by simpa using hk)
        | succ k =>
          apply Crash.nodrain
          exact ih.mpr (Or.inl ⟨k, by rwa [htake]⟩)
      · apply Crash.nodrain
        exact ih.mpr (Or.inr (by rwa [hpre]))

/-- A crash at a copy that is drained at once: the copy is torn, or it is durable. -/
theorem crash_persist {m m' : Image} {o : Nat} {bs : List Byte} {ops : List PmOp} :
    Crash m [] (persist o bs ++ ops) m' ↔
      Torn m [(o, bs)] m' ∨ Crash (store m o bs) [] ops m' := by
  have h := @crash_nodrains m m' [] [(o, bs)] ops
  simp only [nodrains, List.map_cons, List.map_nil, List.nil_append, List.cons_append] at h
  rw [show persist o bs ++ ops = .nodrain o bs :: .drain :: ops from rfl, h]
  constructor
  · intro h
    obtain ⟨k, hk⟩ | hk := h
    · left
      cases k with
      | zero =>
        have hm : Torn m [] m' := by simpa using hk
        cases hm
        exact Torn.skip m _
      | succ k => simpa using hk
    · exact Or.inr hk
  · intro h
    obtain hk | hk := h
    · exact Or.inl ⟨1, by simpa using hk⟩
    · exact Or.inr hk

/-- Copies that are drained one by one. -/
def persists (ws : List (Nat × List Byte)) : List PmOp := ws.flatMap fun w => persist w.1 w.2

@[simp] theorem copies_persists (ws : List (Nat × List Byte)) : copies (persists ws) = ws := by
  induction ws with
  | nil => rfl
  | cons w ws ih =>
    rw [persists, List.flatMap_cons, copies_append, copies_persist]
    exact congrArg (w :: ·) ih

/-- A crash among such copies reaches only what they cover. -/
theorem crash_persists {m m' : Image} {ws : List (Nat × List Byte)} {ops : List PmOp}
    (h : Crash m [] (persists ws ++ ops) m') :
    (∀ a, ¬ Covers ws a → m' a = m a) ∨ Crash (storeAll m ws) [] ops m' := by
  induction ws generalizing m with
  | nil => exact Or.inr h
  | cons w ws ih =>
    have hcut : persists (w :: ws) ++ ops = persist w.1 w.2 ++ (persists ws ++ ops) := by
      rw [persists, List.flatMap_cons, List.append_assoc]
      rfl
    rw [hcut, crash_persist] at h
    obtain ht | hc := h
    · refine Or.inl fun a ha => ht.outside a fun hcov => ha ?_
      obtain ⟨u, hu, hr⟩ := hcov
      rw [List.mem_singleton] at hu
      subst hu
      exact ⟨w, List.mem_cons_self .., hr⟩
    · obtain hout | hc := ih hc
      · refine Or.inl fun a ha => ?_
        have htail : ¬ Covers ws a := fun ⟨u, hu, hr⟩ => ha ⟨u, List.mem_cons_of_mem _ hu, hr⟩
        have hhead : ¬ (w.1 ≤ a ∧ a < w.1 + w.2.length) := fun hr => ha ⟨w, List.mem_cons_self .., hr⟩
        rw [hout a htail, store_outside _ _ _ _ (by omega)]
      · exact Or.inr hc

/-- A crash after the last call leaves the durable image. -/
theorem crash_nil {m m' : Image} : Crash m [] [] m' ↔ m' = m := by
  constructor
  · intro h
    cases h with
    | here _ _ _ _ h =>
      cases h
      rfl
  · intro h
    subst h
    exact Crash.here _ _ _ _ (Torn.nil _)

/-- The same words reach the medium whatever the rest of it holds. -/
theorem Torn.congr {m m' : Image} {ws : List (Nat × List Byte)} (h : Torn m ws m') (n : Image) :
    ∃ n', Torn n ws n' ∧ ∀ a, m a = n a → m' a = n' a := by
  induction h generalizing n with
  | nil m => exact ⟨n, Torn.nil n, fun _ ha => ha⟩
  | cons m W o bs ws m' _ ih =>
    obtain ⟨n', ht, hn⟩ := ih (storeWords n W o bs)
    exact ⟨n', Torn.cons n W o bs ws n' ht, fun a ha => hn a (storeWords_congr W o bs ha)⟩

/-- The whole effect of `ws` on `m` lies in one aligned 8-byte word, every copy by itself has
no effect or all of it, and a copy after a changing one keeps the change or undoes all of it. -/
def WordAtomic (m : Image) (ws : List (Nat × List Byte)) : Prop :=
  (∃ w, ∀ a, storeAll m ws a ≠ m a → a / 8 = w) ∧
  (∀ u ∈ ws, store m u.1 u.2 = m ∨ store m u.1 u.2 = storeAll m ws) ∧
  ws.Pairwise fun u v => store m u.1 u.2 = m ∨
    store (storeAll m ws) v.1 v.2 = m ∨ store (storeAll m ws) v.1 v.2 = storeAll m ws

/-- A torn copy between two states that differ in one word is whole or absent. -/
theorem storeWords_two_states {A B m : Image} {w : Nat} (hw : ∀ a, B a ≠ A a → a / 8 = w)
    (W : Nat → Bool) (o : Nat) (bs : List Byte) (hm : m = A ∨ m = B)
    (hs : store m o bs = A ∨ store m o bs = B) :
    storeWords m W o bs = if W w then store m o bs else m := by
  funext a
  by_cases ha : a / 8 = w
  · simp only [storeWords, ha]
    split <;> rfl
  · have hab : B a = A a := by
      by_contra hne
      exact ha (hw a hne)
    have hsame : store m o bs a = m a := by
      obtain rfl | rfl := hm <;> obtain h | h := hs <;> simp [h, hab]
    simp only [storeWords, hsame, ite_self]
    split
    · exact hsame.symm
    · rfl

/-- The walk over the torn copies stays in the two states: from the second one every later
copy is known to lead to one of the two. -/
theorem Torn.two_states {A B : Image} {w : Nat} (hw : ∀ a, B a ≠ A a → a / 8 = w)
    {m m' : Image} {ws : List (Nat × List Byte)} (h : Torn m ws m')
    (h1 : ∀ u ∈ ws, store A u.1 u.2 = A ∨ store A u.1 u.2 = B)
    (h2 : ws.Pairwise fun u v => store A u.1 u.2 = A ∨
      store B v.1 v.2 = A ∨ store B v.1 v.2 = B)
    (hm : m = A ∨ m = B ∧ ∀ v ∈ ws, store B v.1 v.2 = A ∨ store B v.1 v.2 = B) :
    m' = A ∨ m' = B := by
  induction h with
  | nil m => exact hm.imp_right And.left
  | cons m W o bs ws m' _ ih =>
    have h1' : ∀ u ∈ ws, store A u.1 u.2 = A ∨ store A u.1 u.2 = B :=
      fun u hu => h1 u (List.mem_cons_of_mem _ hu)
    obtain ⟨hhead, h2'⟩ := List.pairwise_cons.mp h2
    apply ih h1' h2'
    obtain rfl | ⟨rfl, hB⟩ := hm
    · have hs := h1 (o, bs) (by simp)
      rw [storeWords_two_states hw W o bs (Or.inl rfl) hs]
      split
      · obtain hs | hs := hs
        · exact Or.inl hs
        · refine Or.inr ⟨hs, fun v hv => ?_⟩
          obtain hA | hv' := hhead v hv
          · have hAB : B = m := hs.symm.trans hA
            rw [hAB]
            simpa [hAB] using h1' v hv
          · exact hv'
      · exact Or.inl rfl
    · have hs := hB (o, bs) (by simp)
      have hB' := fun v hv => hB v (List.mem_cons_of_mem (o, bs) hv)
      rw [storeWords_two_states hw W o bs (Or.inr rfl) hs]
      split
      · exact hs.imp_right fun h => ⟨h, hB'⟩
      · exact Or.inr ⟨rfl, hB'⟩

/-- Power failure during an undrained run of copies never shows a third state exactly when the
run is `WordAtomic`. -/
theorem torn_two_states_iff (m : Image) (ws : List (Nat × List Byte)) :
    (∀ k m', Torn m (ws.take k) m' → m' = m ∨ m' = storeAll m ws) ↔ WordAtomic m ws := by
  constructor
  · intro h
    -- every single copy, and every pair of copies, may be all that reached the medium
    have hone : ∀ us u vs W, ws = us ++ u :: vs →
        storeWords m W u.1 u.2 = m ∨ storeWords m W u.1 u.2 = storeAll m ws := by
      intro us u vs W hws
      apply h (us.length + 1)
      have ht : ws.take (us.length + 1) = us ++ [(u.1, u.2)] := by
        rw [hws, List.take_append, List.take_of_length_le (by omega)]
        simp
      rw [ht]
      exact Torn.pick m us W u.1 u.2
    have hwhole : ∀ u ∈ ws, store m u.1 u.2 = m ∨ store m u.1 u.2 = storeAll m ws := by
      intro u hu
      obtain ⟨us, vs, hws⟩ := List.append_of_mem hu
      simpa only [storeWords_all] using hone us u vs (fun _ => true) hws
    refine ⟨?_, hwhole, ?_⟩
    · by_cases hsil : ∀ u ∈ ws, store m u.1 u.2 = m
      · have hB : storeAll m ws = m := by
          clear h hone hwhole
          induction ws with
          | nil => rfl
          | cons u ws ih =>
            rw [storeAll_cons, hsil u (by simp)]
            exact ih fun v hv => hsil v (List.mem_cons_of_mem u hv)
        exact ⟨0, fun a ha => absurd (congrFun hB a) ha⟩
      · simp only [not_forall] at hsil
        obtain ⟨u, hu, hne⟩ := hsil
        have hB := (hwhole u hu).resolve_left hne
        obtain ⟨a, ha⟩ : ∃ a, storeAll m ws a ≠ m a := by
          by_contra hall
          simp only [not_exists, not_not] at hall
          exact hne (hB.trans (funext hall))
        obtain ⟨us, vs, hws⟩ := List.append_of_mem hu
        refine ⟨a / 8, fun b hb => ?_⟩
        by_contra hab
        have hs := hone us u vs (fun x => x == a / 8) hws
        have hsa : storeWords m (fun x => x == a / 8) u.1 u.2 a = storeAll m ws a := by
          simp [storeWords, hB]
        have hsb : storeWords m (fun x => x == a / 8) u.1 u.2 b = m b := by
          simp [storeWords, hab]
        obtain hs | hs := hs
        · exact ha (hsa.symm.trans (congrFun hs a))
        · exact hb ((congrFun hs b).symm.trans hsb)
    · rw [List.pairwise_iff_getElem]
      intro i j hi hj hij
      obtain hA | hB := hwhole ws[i] (List.getElem_mem hi)
      · exact Or.inl hA
      · right
        have hpre : ws.take j = ws.take i ++ ws[i] :: (ws.take j).drop (i + 1) := by
          have hcut := List.take_append_drop (i + 1) (ws.take j)
          rw [List.take_take, Nat.min_eq_left (by omega), List.take_succ_eq_append_getElem hi,
            List.append_assoc] at hcut
          exact hcut.symm
        have ht : ws.take (j + 1) = ws.take i ++ ((ws[i].1, ws[i].2) ::
            ((ws.take j).drop (i + 1) ++ [(ws[j].1, ws[j].2)])) := by
          rw [List.take_succ_eq_append_getElem hj, hpre, List.append_assoc, List.cons_append]
          rw [← hpre]
        have hs : Torn m (ws.take (j + 1)) (store (store m ws[i].1 ws[i].2) ws[j].1 ws[j].2) := by
          rw [ht]
          apply (Torn.skip m (ws.take i)).append
          apply Torn.cons m (fun _ => true)
          rw [storeWords_all]
          have hp := Torn.pick (store m ws[i].1 ws[i].2) ((ws.take j).drop (i + 1))
            (fun _ => true) ws[j].1 ws[j].2
          rwa [storeWords_all] at hp
        have h2 := h (j + 1) _ hs
        rwa [hB] at h2
  · intro ⟨⟨w, hw⟩, h1, h2⟩ k m' ht
    apply Torn.two_states hw ht _ _ (Or.inl rfl)
    · exact fun u hu => h1 u (List.mem_of_mem_take hu)
    · exact h2.sublist (List.take_sublist k ws)

end ZCell.Persist

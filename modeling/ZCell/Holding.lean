import Mathlib.Data.Set.Basic

/-! Slots that hold blocks of a pool in which some blocks are marked. Slots move to other blocks
by releasing the marks of what they hold and marking what they take. -/
namespace ZCell.Holding
variable {S B : Type*}

structure Ledger (S B : Type*) where
  marked : Set B
  holds : S → Option B

/-- The blocks that the slots of `T` hold. -/
def Ledger.held (l : Ledger S B) (T : Set S) : Set B := {b | ∃ s ∈ T, l.holds s = some b}

/-- A held block is marked, and held by one slot only. -/
structure Sound (l : Ledger S B) : Prop where
  marked : ∀ s b, l.holds s = some b → b ∈ l.marked
  unique : ∀ s t b, l.holds s = some b → l.holds t = some b → s = t

/-- No mark is lost. -/
def Exact (l : Ledger S B) : Prop := ∀ b ∈ l.marked, ∃ s, l.holds s = some b

/-- The slots of `T` let go of their blocks and take others, which nobody else has marked. -/
structure Moved (T : Set S) (l l' : Ledger S B) : Prop where
  stay : ∀ s, s ∉ T → l'.holds s = l.holds s
  take : ∀ s ∈ T, ∀ b, l'.holds s = some b → b ∈ l.marked → b ∈ l.held T
  distinct : ∀ s ∈ T, ∀ t ∈ T, ∀ b, l'.holds s = some b → l'.holds t = some b → s = t
  marked : ∀ b, b ∈ l'.marked ↔ (b ∈ l.marked ∧ b ∉ l.held T) ∨ b ∈ l'.held T

/-- Slots are given up, and no mark is taken back. -/
structure Forgets (l l' : Ledger S B) : Prop where
  holds : ∀ s, l'.holds s = none ∨ l'.holds s = l.holds s
  marked : l.marked ⊆ l'.marked

variable {l l' : Ledger S B} {T : Set S}

theorem Sound.moved (h : Sound l) (hm : Moved T l l') : Sound l' := by
  have hout : ∀ s, s ∉ T → ∀ b, l'.holds s = some b → b ∈ l.marked ∧ b ∉ l.held T := by
    intro s hs b hb
    rw [hm.stay s hs] at hb
    refine ⟨h.marked s b hb, ?_⟩
    rintro ⟨t, ht, htb⟩
    exact hs (h.unique s t b hb htb ▸ ht)
  have hmix : ∀ s ∈ T, ∀ t, t ∉ T → ∀ b, l'.holds s = some b → l'.holds t ≠ some b := by
    intro s hs t ht b hb hc
    obtain ⟨hmark, hno⟩ := hout t ht b hc
    exact hno (hm.take s hs b hb hmark)
  constructor
  · intro s b hb
    rw [hm.marked]
    by_cases hs : s ∈ T
    · exact Or.inr ⟨s, hs, hb⟩
    · exact Or.inl (hout s hs b hb)
  · intro s t b hs ht
    by_cases h1 : s ∈ T
    · by_cases h2 : t ∈ T
      · exact hm.distinct s h1 t h2 b hs ht
      · exact absurd ht (hmix s h1 t h2 b hs)
    · by_cases h2 : t ∈ T
      · exact absurd hs (hmix t h2 s h1 b ht)
      · rw [hm.stay s h1] at hs
        rw [hm.stay t h2] at ht
        exact h.unique s t b hs ht

theorem Exact.moved (h : Exact l) (hm : Moved T l l') : Exact l' := by
  intro b hb
  obtain ⟨hmark, hno⟩ | ⟨s, _, hs⟩ := (hm.marked b).mp hb
  · obtain ⟨s, hs⟩ := h b hmark
    have hout : s ∉ T := fun hT => hno ⟨s, hT, hs⟩
    exact ⟨s, (hm.stay s hout).trans hs⟩
  · exact ⟨s, hs⟩

theorem Sound.forgets (h : Sound l) (hf : Forgets l l') : Sound l' := by
  have hback : ∀ s b, l'.holds s = some b → l.holds s = some b := by
    intro s b hb
    obtain hn | he := hf.holds s
    · rw [hn] at hb
      cases hb
    · rw [← he, hb]
  exact ⟨fun s b hb => hf.marked (h.marked s b (hback s b hb)),
    fun s t b hs ht => h.unique s t b (hback s b hs) (hback t b ht)⟩

/-- Marks may go when nobody holds anything different. -/
theorem Exact.shrink (h : Exact l) (hholds : l'.holds = l.holds) (hmark : l'.marked ⊆ l.marked) :
    Exact l' := by
  intro b hb
  rw [hholds]
  exact h b (hmark hb)

/-- In the end the marked blocks are those that are held, each by exactly one slot. -/
theorem Sound.marked_iff (h : Sound l) (he : Exact l) (b : B) :
    b ∈ l.marked ↔ ∃ s, l.holds s = some b ∧ ∀ t, l.holds t = some b → t = s := by
  constructor
  · intro hb
    obtain ⟨s, hs⟩ := he b hb
    exact ⟨s, hs, fun t ht => h.unique t s b ht hs⟩
  · rintro ⟨s, hs, -⟩
    exact h.marked s b hs

end ZCell.Holding

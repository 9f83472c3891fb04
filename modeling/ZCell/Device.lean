import ZCell.Reading

/-! What a bio moves between the device and the buffer of a client. While a transaction has bios in
flight, each page of its buffer is either with one of them, or the same as the block that it is for. -/
namespace ZCell.Store
open Bytes Persist Pm Allocator

/-- Block `b` of the device. -/
def blockAt (disk : Image) (b : Nat) : List Byte := load disk (zstorePageSize * b) zstorePageSize

/-- Page `p` of the buffer at `base`. -/
def pageAt (ram : Image) (base p : Nat) : List Byte :=
  load ram (base + zstorePageSize * p) zstorePageSize

/-- The number of bytes of a bio. -/
def Flight.size (f : Flight) : Nat := zstorePageSize * f.bio.blkLen.toNat

/-- The device and the memory when the bio has been carried out. -/
def Flight.transfer (f : Flight) (disk ram : Image) : Image × Image :=
  match f.bio.ioType with
  | .read =>
    (disk, store ram f.buf.toNat (load disk (zstorePageSize * f.bio.blkOfst.toNat) f.size))
  | .write =>
    (store disk (zstorePageSize * f.bio.blkOfst.toNat) (load ram f.buf.toNat f.size), ram)
  | .trim => (disk, ram)

/-- Before that, any byte that it is about may be anything. -/
def Flight.scribble (f : Flight) (i : Nat) (v : Byte) (disk ram : Image) : Image × Image :=
  match f.bio.ioType with
  | .read => (disk, Function.update ram (f.buf.toNat + i) v)
  | _ => (Function.update disk (zstorePageSize * f.bio.blkOfst.toNat + i) v, ram)

/-- Between `(disk, ram)` and `(disk', ram')` only what the bio is about has changed. -/
structure Confined (f : Flight) (disk ram disk' ram' : Image) : Prop where
  disk : ∀ b, f.bio.ioType = .read ∨ ¬ f.bio.Covers b → blockAt disk' b = blockAt disk b
  ram : ∀ a, f.bio.ioType ≠ .read ∨ a < f.buf.toNat ∨ f.buf.toNat + f.size ≤ a → ram' a = ram a

/-- The bio moves the pages from `s` on of the buffer at `base`, which are for the blocks `B`. -/
def Flight.Moves (B : List Nat) (base : Nat) (f : Flight) (s : Nat) : Prop :=
  f.buf.toNat = base + zstorePageSize * s ∧
    ∀ i < f.bio.blkLen.toNat, B[s + i]? = some (f.bio.blkOfst.toNat + i)

/-- Page `p` is with one of the bios. -/
def Pending (base : Nat) (fs : List Flight) (p : Nat) : Prop :=
  ∃ f ∈ fs, ∃ i < f.bio.blkLen.toNat, f.buf.toNat + zstorePageSize * i = base + zstorePageSize * p

/-- The pages of the buffer at `base` and the blocks `B`, where no bio is about them. -/
def Synced (B : List Nat) (base : Nat) (fs : List Flight) (disk ram : Image) : Prop :=
  ∀ p b, B[p]? = some b → Pending base fs p ∨ pageAt ram base p = blockAt disk b

section Copies
variable {disk ram disk' ram' : Image} {f : Flight} {B : List Nat} {base s : Nat}

/-- A part of a range that was copied from somewhere else. -/
theorem load_copy (m src : Image) (o p : Nat) {n k c : Nat} (h : k + c ≤ n) :
    load (store m o (load src p n)) (o + k) c = load src (p + k) c := by
  have hlen : (load src p n).length = n := load_length src p n
  apply List.map_congr_left
  intro i hi
  have hi := List.mem_range.mp hi
  rw [Nat.add_assoc, store_inside m o _ (k + i) (by omega), load_getElem, Nat.add_assoc]

theorem update_outside (m : Image) {a b : Nat} {v : Byte} (h : a ≠ b) :
    Function.update m b v a = m a := Function.update_of_ne h v m

theorem blockAt_congr {b : Nat}
    (h : ∀ a, zstorePageSize * b ≤ a → a < zstorePageSize * b + zstorePageSize → disk' a = disk a) :
    blockAt disk' b = blockAt disk b :=
  load_congr fun i hi => h _ (Nat.le_add_right _ i) (by omega)

theorem pageAt_congr {p : Nat} (h : ∀ a, base + zstorePageSize * p ≤ a →
    a < base + zstorePageSize * p + zstorePageSize → ram' a = ram a) :
    pageAt ram' base p = pageAt ram base p :=
  load_congr fun i hi => h _ (Nat.le_add_right _ i) (by omega)

/-- A block that the bio does not cover is apart from the bytes that it is about. -/
theorem uncovered_apart {b a : Nat} (hb : ¬ f.bio.Covers b) (h1 : zstorePageSize * b ≤ a)
    (h2 : a < zstorePageSize * b + zstorePageSize) :
    a < zstorePageSize * f.bio.blkOfst.toNat ∨
      zstorePageSize * f.bio.blkOfst.toNat + f.size ≤ a := by
  unfold Bio.Covers at hb
  unfold Flight.size zstorePageSize at *
  omega

theorem transfer_confined (f : Flight) (disk ram : Image) :
    Confined f disk ram (f.transfer disk ram).1 (f.transfer disk ram).2 := by
  unfold Flight.transfer
  constructor
  · intro b hb
    cases hty : f.bio.ioType with
    | read => rfl
    | write =>
      simp only [hty, reduceCtorEq, false_or] at hb ⊢
      refine blockAt_congr fun a h1 h2 => store_outside _ _ _ _ ?_
      rw [load_length]
      exact uncovered_apart hb h1 h2
    | trim => rfl
  · intro a ha
    cases hty : f.bio.ioType with
    | read =>
      simp only [hty, ne_eq, not_true_eq_false, false_or] at ha ⊢
      refine store_outside _ _ _ _ ?_
      rwa [load_length]
    | write => rfl
    | trim => rfl

theorem scribble_confined (f : Flight) {i : Nat} (hi : i < f.size) (v : Byte) (disk ram : Image) :
    Confined f disk ram (f.scribble i v disk ram).1 (f.scribble i v disk ram).2 := by
  unfold Flight.scribble
  constructor
  · intro b hb
    have hupd : f.bio.ioType ≠ .read → blockAt (Function.update disk
        (zstorePageSize * f.bio.blkOfst.toNat + i) v) b = blockAt disk b := by
      intro hty
      have hb := hb.resolve_left hty
      refine blockAt_congr fun a h1 h2 => update_outside _ ?_
      have hapart := uncovered_apart hb h1 h2
      omega
    cases hty : f.bio.ioType with
    | read => rfl
    | write => exact hupd (by simp [hty])
    | trim => exact hupd (by simp [hty])
  · intro a ha
    cases hty : f.bio.ioType with
    | read =>
      simp only [hty, ne_eq, not_true_eq_false, false_or] at ha ⊢
      exact update_outside _ (by omega)
    | write => rfl
    | trim => rfl

/-- Pages that the bio does not move stay the same as their blocks. -/
theorem Confined.same (hc : Confined f disk ram disk' ram') (hm : f.Moves B base s)
    (hnd : f.bio.ioType ≠ .read → B.Nodup) {p b : Nat} (hp : B[p]? = some b)
    (hout : p < s ∨ s + f.bio.blkLen.toNat ≤ p) (h : pageAt ram base p = blockAt disk b) :
    pageAt ram' base p = blockAt disk' b := by
  have hpage : pageAt ram' base p = pageAt ram base p := by
    refine pageAt_congr fun a h1 h2 => hc.ram a ?_
    have hbuf := hm.1
    unfold Flight.size zstorePageSize at *
    omega
  have hblock : blockAt disk' b = blockAt disk b := by
    refine hc.disk b ?_
    by_cases hty : f.bio.ioType = .read
    · exact Or.inl hty
    · right
      rintro ⟨h1, h2⟩
      obtain ⟨i, rfl⟩ := Nat.exists_eq_add_of_le h1
      have hi : i < f.bio.blkLen.toNat := by omega
      have hs := hm.2 i hi
      obtain ⟨hlt, _⟩ := List.getElem?_eq_some_iff.mp hp
      have hsame := (List.getElem?_inj hlt (hnd hty)).mp (hp.trans hs.symm)
      omega
  rw [hpage, hblock, h]

/-- What it does move is then the same on both sides. -/
theorem Flight.Moves.landed (hm : f.Moves B base s)
    (hty : f.bio.ioType = .read ∨ f.bio.ioType = .write) {i b : Nat} (hi : i < f.bio.blkLen.toNat)
    (hb : B[s + i]? = some b) :
    pageAt (f.transfer disk ram).2 base (s + i) = blockAt (f.transfer disk ram).1 b := by
  obtain rfl : f.bio.blkOfst.toNat + i = b := Option.some.inj ((hm.2 i hi).symm.trans hb)
  have hbuf : base + zstorePageSize * (s + i) = f.buf.toNat + zstorePageSize * i := by
    rw [hm.1, Nat.mul_add, Nat.add_assoc]
  have hle : zstorePageSize * i + zstorePageSize ≤ f.size := by
    unfold Flight.size zstorePageSize
    omega
  unfold Flight.transfer pageAt blockAt
  rw [hbuf, Nat.mul_add]
  obtain hty | hty := hty
  · simp only [hty]
    exact load_copy _ _ _ _ hle
  · simp only [hty]
    exact (load_copy _ _ _ _ hle).symm

end Copies

section Pending
variable {disk ram disk' ram' : Image} {B : List Nat} {base k : Nat} {fs : List Flight} {f : Flight}

theorem Flight.Moves.inside {s p i : Nat} (hm : f.Moves B base s)
    (hp : f.buf.toNat + zstorePageSize * i = base + zstorePageSize * p) : p = s + i := by
  have hbuf := hm.1
  unfold zstorePageSize at *
  omega

/-- While a bio is in flight, the device may change what it is about. -/
theorem Synced.confined (h : Synced B base fs disk ram) (hc : Confined f disk ram disk' ram')
    (hf : f ∈ fs) {s : Nat} (hm : f.Moves B base s) (hnd : f.bio.ioType ≠ .read → B.Nodup) :
    Synced B base fs disk' ram' := by
  intro p b hp
  obtain hpend | hsame := h p b hp
  · exact Or.inl hpend
  · by_cases hin : s ≤ p ∧ p < s + f.bio.blkLen.toNat
    · obtain ⟨i, rfl⟩ := Nat.exists_eq_add_of_le hin.1
      refine Or.inl ⟨f, hf, i, by omega, ?_⟩
      rw [hm.1, Nat.mul_add, Nat.add_assoc]
    · exact Or.inr (hc.same hm hnd hp (by omega) hsame)

/-- When it has been carried out, its pages are no longer with it. -/
theorem Synced.carried (h : Synced B base fs disk ram) (hk : fs[k]? = some f) {s : Nat}
    (hm : f.Moves B base s) (hty : f.bio.ioType = .read ∨ f.bio.ioType = .write)
    (hnd : f.bio.ioType ≠ .read → B.Nodup) :
    Synced B base (fs.eraseIdx k) (f.transfer disk ram).1 (f.transfer disk ram).2 := by
  intro p b hp
  by_cases hin : s ≤ p ∧ p < s + f.bio.blkLen.toNat
  · obtain ⟨i, rfl⟩ := Nat.exists_eq_add_of_le hin.1
    exact Or.inr (hm.landed hty (by omega) hp)
  · obtain ⟨g, hg, i, hi, hpage⟩ | hsame := h p b hp
    · obtain ⟨j, hj⟩ := List.mem_iff_getElem?.mp hg
      have hne : j ≠ k := by
        rintro rfl
        obtain rfl : f = g := Option.some.inj (hk.symm.trans hj)
        have heq := hm.inside hpage
        omega
      exact Or.inl ⟨g, List.mem_eraseIdx_iff_getElem?.mpr ⟨j, hne, hj⟩, i, hi, hpage⟩
    · exact Or.inr ((transfer_confined f disk ram).same hm hnd hp (by omega) hsame)

/-- The bios of a transaction move its buffer piece by piece, in the order of the extents. -/
theorem submit_moves {submit : Nat → Bool} {t : Nat} {ty : IoType} {l : List Extent}
    (hlba : ∀ e ∈ l, e.lba < 2 ^ 32 ∧ e.len < 2 ^ 32) {n s : Nat} {buf : BitVec 64}
    (hB : ∀ i < (blocks l).length, B[s + i]? = (blocks l)[i]?)
    (hbuf : buf.toNat = base + zstorePageSize * s)
    (hend : buf.toNat + zstorePageSize * (blocks l).length < 2 ^ 64) :
    (∀ f ∈ submitBios submit t n buf (l.map (Bio.ofExtent ty)),
      f.bio.ioType = ty ∧ ∃ s, f.Moves B base s) ∧
    ((submitBios submit t n buf (l.map (Bio.ofExtent ty))).length = l.length →
      ∀ i < (blocks l).length,
        Pending base (submitBios submit t n buf (l.map (Bio.ofExtent ty))) (s + i)) := by
  induction l generalizing n s buf with
  | nil => exact ⟨fun f hf => absurd hf List.not_mem_nil, fun _ i hi => absurd hi (Nat.not_lt_zero i)⟩
  | cons e l ih =>
    have hblocks : blocks (e :: l) = List.range' e.lba e.len ++ blocks l := by
      simp [blocks, Extent.blocks]
    have hlen : (blocks (e :: l)).length = e.len + (blocks l).length := by
      rw [hblocks, List.length_append, List.length_range']
    obtain ⟨hl1, hl2⟩ := hlba e (List.mem_cons_self ..)
    have hofst : (Bio.ofExtent ty e).blkOfst.toNat = e.lba := Nat.mod_eq_of_lt hl1
    have hsize : (Bio.ofExtent ty e).blkLen.toNat = e.len := Nat.mod_eq_of_lt hl2
    rw [hlen] at hB hend
    have hnext : (buf + BitVec.ofNat 64 (e.len * zstorePageSize)).toNat =
        base + zstorePageSize * (s + e.len) := by
      rw [BitVec.toNat_add, BitVec.toNat_ofNat]
      unfold zstorePageSize at *
      omega
    have hhead : Flight.Moves B base ⟨t, Bio.ofExtent ty e, buf⟩ s := by
      refine ⟨hbuf, fun i hi => ?_⟩
      simp only [hsize, hofst] at hi ⊢
      rw [hB i (by omega), hblocks, List.getElem?_append_left (by simpa using hi),
        List.getElem?_range' hi]
      simp
    have hrest : ∀ i < (blocks l).length, B[s + e.len + i]? = (blocks l)[i]? := by
      intro i hi
      rw [Nat.add_assoc, hB (e.len + i) (by omega), hblocks, List.getElem?_append_right (by simp)]
      simp
    have hroom : (buf + BitVec.ofNat 64 (e.len * zstorePageSize)).toNat +
        zstorePageSize * (blocks l).length < 2 ^ 64 := by
      rw [hnext]
      unfold zstorePageSize at *
      omega
    obtain ⟨ih1, ih2⟩ := @ih (fun d hd => hlba d (List.mem_cons_of_mem e hd)) (n + 1) _ _ hrest hnext
      hroom
    simp only [List.map_cons, submitBios, hsize]
    split
    · constructor
      · intro f hf
        obtain rfl | hf := List.mem_cons.mp hf
        · exact ⟨rfl, s, hhead⟩
        · exact ih1 f hf
      · intro hall i hi
        by_cases hin : i < e.len
        · refine ⟨_, List.mem_cons_self .., i, by simpa only [hsize] using hin, ?_⟩
          simp only [hbuf]
          rw [Nat.mul_add, Nat.add_assoc]
        · obtain ⟨f, hf, hp⟩ := ih2 (by simpa using hall) (i - e.len) (by omega)
          have heq : s + e.len + (i - e.len) = s + i := by omega
          rw [heq] at hp
          exact ⟨f, List.mem_cons_of_mem _ hf, hp⟩
    · exact ⟨fun f hf => absurd hf List.not_mem_nil, fun hall => absurd hall (by simp)⟩

end Pending
end ZCell.Store

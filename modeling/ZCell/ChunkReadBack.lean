import ZCell.ChunkRun

/-! What a read of a chunkstore brings, compared with what its callers may know of the objects. -/
namespace ZCell.Chunkstore
open Server Runs

variable {β : Type}

/-- What is known of block `j` of object `o`. -/
abbrev View (β : Type) := Nat → Nat → Option β

def Request.Touches (r : Request) (o j : Nat) : Prop := o = r.oid.toNat ∧ r.Has j

instance (r : Request) (j : Nat) : Decidable (r.Has j) := inferInstanceAs (Decidable (_ ∧ _))

instance (r : Request) (o j : Nat) : Decidable (r.Touches o j) := inferInstanceAs (Decidable (_ ∧ _))

def View.forget (v : View β) (r : Request) : View β := fun o j => if r.Touches o j then none else v o j

def View.learn (v : View β) (r : Request) (w : View β) : View β :=
  fun o j => if r.Touches o j then w o j else v o j

/-- A write in the device that goes to the block. -/
def Flight.Writes (f : Flight β) (o j : Nat) : Prop :=
  f.msg.request.op = msgOssOpWrite ∧ f.msg.request.Touches o j

instance (f : Flight β) (o j : Nat) : Decidable (f.Writes o j) := inferInstanceAs (Decidable (_ ∧ _))

/-- The store, what its callers know of the objects, and what each of the requests relies on: a read
on what is known when it is called, a write on its own data. A write makes everyone forget the blocks it
goes to; they are known again when it has succeeded with no other write to them in between. -/
structure Tracked (β : Type) where
  c : Chunks β
  known : View β
  views : Nat → View β

/-- The place in the data buffer of block `j` of the object. -/
def Request.place (r : Request) (j : Nat) : Nat := j - r.ofst.toNat / 4096

def Tracked.begins (t : Tracked β) (r : Request) (data : Nat → β) : View β := fun o j =>
  if r.op = msgOssOpWrite then
    if ∃ f ∈ t.c.flights, f.Writes o j then none else some (data (r.place j))
  else t.known o j

def Tracked.called (t : Tracked β) (r : Request) (data : Nat → β) : Tracked β :=
  { t with
    known := if r.op = msgOssOpWrite then t.known.forget r else t.known
    views := fun id =>
      if id = t.c.calls then t.begins r data
      else if r.op = msgOssOpWrite ∧ id ∈ t.c.flights.map (·.msg.id) then (t.views id).forget r
      else t.views id }

def Tracked.finished (t : Tracked β) (f : Flight β) : Tracked β :=
  if f.msg.request.op = msgOssOpWrite then
    { t with known := t.known.learn f.msg.request (t.views f.msg.id) }
  else t

def Tracked.next (t : Tracked β) : ChunkAct β → Tracked β
  | .call r data rc => if r.IsRw ∧ rc = 0 then t.called r data else t
  | .done id true => ((t.c.find id).map t.finished).getD t
  | _ => t

def trackedStep (a : ChunkAct β) (t : Tracked β) : Option (Tracked β) :=
  (chunkStep a t.c).map fun c => { t.next a with c := c }

/-- At mount the objects hold what the device does. -/
def Tracked.mounted (c : Chunks β) : Tracked β :=
  ⟨c, fun o j => some (c.disk (1024 * o + j)), fun _ _ _ => none⟩

/-- The I/O is that of a read or write in one object. -/
structure Placed (s : Stat) (f : Flight β) : Prop where
  rw : f.msg.request.IsRw
  inside : Inside s f.msg.request
  io : f.io = f.msg.request.io

/-- The value that a request relies on for a block: no other write goes there, the side that the I/O
moves from has it, and once the block has been moved so does the other side. -/
structure Relies (c : Chunks β) (f : Flight β) (o j : Nat) (v : β) : Prop where
  alone : ∀ g ∈ c.flights, g.Writes o j → g.msg.id = f.msg.id
  read : f.msg.request.op = msgOssOpRead → c.disk (1024 * o + j) = v
  write : f.msg.request.op = msgOssOpWrite → f.msg.data (f.msg.request.place j) = v
  moved : f.msg.request.place j ∈ f.moved →
    c.disk (1024 * o + j) = v ∧ f.msg.data (f.msg.request.place j) = v

structure Sound (t : Tracked β) : Prop where
  size : t.c.stat.maxObjSz = 0x400000
  max : t.c.stat.maxOid.toNat ≤ 2 ^ 22
  counted : Counted t.c
  placed : ∀ f ∈ t.c.flights, Placed t.c.stat f
  events : ∀ m ∈ t.c.events, ¬ m.request.IsRw
  known : ∀ o j v, j < 1024 → t.known o j = some v →
    t.c.disk (1024 * o + j) = v ∧ ∀ f ∈ t.c.flights, ¬ f.Writes o j
  views : ∀ f ∈ t.c.flights, ∀ o j v, f.msg.request.Touches o j → t.views f.msg.id o j = some v →
    Relies t.c f o j v
  answered : ∀ x ∈ t.c.answered, x.1.request.op = msgOssOpRead → x.2 = Status.success.code →
    ∀ o j v, x.1.request.Touches o j → t.views x.1.id o j = some v →
      x.1.data (x.1.request.place j) = v

section Places
variable {s : Stat} {f : Flight β} {o j i : Nat}

theorem Placed.reads_iff (hp : Placed s f) : f.io.isRead = true ↔ f.msg.request.op = msgOssOpRead := by
  rw [hp.io]
  exact decide_eq_true_iff

theorem Placed.writes_iff (hp : Placed s f) : f.io.isRead = false ↔ f.msg.request.op = msgOssOpWrite := by
  rw [← Bool.not_eq_true, hp.reads_iff]
  constructor
  · exact hp.rw.resolve_left
  · intro h h'
    rw [h] at h'
    exact absurd h' (by decide)

theorem Placed.touches (hs : s.maxObjSz = 0x400000) (hmax : s.maxOid.toNat ≤ 2 ^ 22)
    (hp : Placed s f) (h : f.msg.request.Touches o j) :
    j < 1024 ∧ f.msg.request.place j < f.io.bdevLen.toNat ∧
      f.io.bdevOfst.toNat + f.msg.request.place j = 1024 * o + j := by
  obtain ⟨rfl, hj⟩ := h
  obtain ⟨hoid, hlen⟩ := hp.inside
  rw [hs] at hlen
  have hsize : (0x400000 : BitVec 64).toNat = 4194304 := rfl
  simp only [hp.io, Request.io, BitVec.toNat_ofNat, Request.place]
  unfold Request.Has at hj
  unfold firstBlock blockCount
  omega

theorem Placed.of_block (hs : s.maxObjSz = 0x400000) (hmax : s.maxOid.toNat ≤ 2 ^ 22)
    (hp : Placed s f) (hi : i < f.io.bdevLen.toNat) (hj : j < 1024)
    (h : f.io.bdevOfst.toNat + i = 1024 * o + j) :
    f.msg.request.Touches o j ∧ f.msg.request.place j = i := by
  obtain ⟨hoid, hlen⟩ := hp.inside
  rw [hs] at hlen
  have hsize : (0x400000 : BitVec 64).toNat = 4194304 := rfl
  simp only [hp.io, Request.io, BitVec.toNat_ofNat] at hi h
  unfold Request.Touches Request.Has Request.place
  unfold firstBlock at h
  unfold blockCount at hi
  omega

end Places

section Steps
variable {t : Tracked β} {c : Chunks β} {f : Flight β}

theorem stat_size {blockSize : BitVec 32} {numBlocks : BitVec 64} {s : Stat}
    (hs : hardcodeStat blockSize numBlocks = .ok s) : s.maxObjSz = 0x400000 := by
  unfold hardcodeStat at hs
  split at hs
  · cases hs
  · obtain rfl := Except.ok.inj hs
    rfl

theorem forget_some {w : View β} {r : Request} {o j : Nat} {v : β} (h : w.forget r o j = some v) :
    ¬ r.Touches o j ∧ w o j = some v := by
  unfold View.forget at h
  split at h
  · cases h
  · exact ⟨‹_›, h⟩

/-- The request does not reach the device. -/
theorem Sound.keep (hi : Sound t) (hc : Counted c) (hstat : c.stat = t.c.stat)
    (hdisk : c.disk = t.c.disk) (hflights : c.flights = t.c.flights)
    (hevents : ∀ m ∈ c.events, ¬ m.request.IsRw)
    (hans : ∀ x ∈ c.answered, x ∈ t.c.answered ∨ x.1.request.op ≠ msgOssOpRead ∨
      x.2 ≠ Status.success.code) : Sound { t with c := c } where
  size := hstat ▸ hi.size
  max := hstat ▸ hi.max
  counted := hc
  placed := by
    rw [hflights, hstat]
    exact hi.placed
  events := hevents
  known := by
    rw [hflights, hdisk]
    exact hi.known
  views f hf o j v ht hv := by
    obtain ⟨h1, h2, h3, h4⟩ := hi.views f (hflights ▸ hf) o j v ht hv
    exact ⟨hflights ▸ h1, hdisk ▸ h2, h3, hdisk ▸ h4⟩
  answered x hx hop hcode := by
    obtain hx | hx | hx := hans x hx
    · exact hi.answered x hx hop hcode
    · exact absurd hop hx
    · exact absurd hcode hx

/-- The request goes to the device. -/
theorem Sound.called (hi : Sound t) {r : Request} {data : Nat → β} (hrw : r.IsRw)
    (hin : Inside t.c.stat r)
    (hc : Counted { t.c with
      calls := t.c.calls + 1, flights := t.c.flights ++ [⟨⟨t.c.calls, r, data, none⟩, r.io, []⟩] }) :
    Sound { t.called r data with c := { t.c with
      calls := t.c.calls + 1
      flights := t.c.flights ++ [⟨⟨t.c.calls, r, data, none⟩, r.io, []⟩] } } where
  size := hi.size
  max := hi.max
  counted := hc
  events := hi.events
  placed f hf := by
    obtain hf | hf := List.mem_append.mp hf
    · exact hi.placed f hf
    · obtain rfl := List.mem_singleton.mp hf
      exact ⟨hrw, hin, rfl⟩
  known o j v hj hv := by
    by_cases hw : r.op = msgOssOpWrite
    · simp only [Tracked.called, if_pos hw] at hv
      obtain ⟨hno, hv⟩ := forget_some hv
      refine ⟨(hi.known o j v hj hv).1, fun f hf hwr => ?_⟩
      obtain hf | hf := List.mem_append.mp hf
      · exact (hi.known o j v hj hv).2 f hf hwr
      · obtain rfl := List.mem_singleton.mp hf
        exact hno hwr.2
    · simp only [Tracked.called, if_neg hw] at hv
      refine ⟨(hi.known o j v hj hv).1, fun f hf hwr => ?_⟩
      obtain hf | hf := List.mem_append.mp hf
      · exact (hi.known o j v hj hv).2 f hf hwr
      · obtain rfl := List.mem_singleton.mp hf
        exact hw hwr.1
  views f hf o j v ht hv := by
    obtain hf | hf := List.mem_append.mp hf
    · have hne : f.msg.id ≠ t.c.calls := (hi.counted.lt hf).ne
      have hmem : f.msg.id ∈ t.c.flights.map (·.msg.id) := List.mem_map_of_mem hf
      simp only [Tracked.called, if_neg hne, hmem, and_true] at hv
      have hold : ¬ (r.op = msgOssOpWrite ∧ r.Touches o j) ∧ t.views f.msg.id o j = some v := by
        by_cases hw : r.op = msgOssOpWrite
        · rw [if_pos hw] at hv
          exact ⟨fun h => (forget_some hv).1 h.2, (forget_some hv).2⟩
        · rw [if_neg hw] at hv
          exact ⟨fun h => hw h.1, hv⟩
      obtain ⟨h1, h2, h3, h4⟩ := hi.views f hf o j v ht hold.2
      refine ⟨fun g hg hwr => ?_, h2, h3, h4⟩
      obtain hg | hg := List.mem_append.mp hg
      · exact h1 g hg hwr
      · obtain rfl := List.mem_singleton.mp hg
        exact absurd hwr hold.1
    · obtain rfl := List.mem_singleton.mp hf
      simp only [Tracked.called, if_true, Tracked.begins] at hv
      by_cases hw : r.op = msgOssOpWrite
      · rw [if_pos hw] at hv
        split at hv
        · cases hv
        · rename_i hno
          refine ⟨fun g hg hwr => ?_, fun hr => ?_, fun _ => Option.some.inj hv,
            fun h => absurd h List.not_mem_nil⟩
          · obtain hg | hg := List.mem_append.mp hg
            · exact absurd ⟨g, hg, hwr⟩ hno
            · obtain rfl := List.mem_singleton.mp hg
              rfl
          · rw [show r.op = msgOssOpRead from hr] at hw
            exact absurd hw (by decide)
      · rw [if_neg hw] at hv
        have hp : Placed t.c.stat (⟨⟨t.c.calls, r, data, none⟩, r.io, []⟩ : Flight β) := ⟨hrw, hin, rfl⟩
        have hk := hi.known o j v (hp.touches hi.size hi.max ht).1 hv
        refine ⟨fun g hg hwr => ?_, fun _ => hk.1, fun h => absurd h hw,
          fun h => absurd h List.not_mem_nil⟩
        obtain hg | hg := List.mem_append.mp hg
        · exact absurd hwr (hk.2 g hg)
        · obtain rfl := List.mem_singleton.mp hg
          exact absurd hwr.1 hw
  answered x hx hop hcode o j v ht hv := by
    have hne : x.1.id ≠ t.c.calls := (hi.counted.answered_lt hx).ne
    have hgone := hi.counted.answered_gone hx
    simp only [Tracked.called, if_neg hne, hgone, and_false, if_false] at hv
    exact hi.answered x hx hop hcode o j v ht hv

theorem move_mem {g : Flight β} {i : Nat} (h : g ∈ (t.c.move f i).flights) : ∃ g0 ∈ t.c.flights,
    g.msg.id = g0.msg.id ∧ g.msg.request = g0.msg.request ∧ g.io = g0.io ∧
      g = if g0.msg.id = f.msg.id then g0.move t.c.disk i else g0 := by
  obtain ⟨g0, h0, rfl⟩ := List.mem_map.mp h
  refine ⟨g0, h0, ?_⟩
  split
  · exact ⟨move_id .., move_request .., rfl, rfl⟩
  · exact ⟨rfl, rfl, rfl, rfl⟩

/-- A moved block changes the disk where a write goes to, and nowhere else. -/
theorem Sound.move_disk (hi : Sound t) (hf : f ∈ t.c.flights) {i o j : Nat}
    (hlt : i < f.io.bdevLen.toNat) (hj : j < 1024) :
    (t.c.move f i).disk (1024 * o + j) = t.c.disk (1024 * o + j) ∨
      f.Writes o j ∧ f.msg.request.place j = i ∧
        (t.c.move f i).disk (1024 * o + j) = f.msg.data (f.msg.request.place j) := by
  have hp := hi.placed f hf
  cases hr : f.io.isRead with
  | true => exact Or.inl (by simp only [Chunks.move, hr, if_true])
  | false =>
    have hdisk : (t.c.move f i).disk =
        Function.update t.c.disk (f.io.bdevOfst.toNat + i) (f.msg.data i) := by
      simp only [Chunks.move, hr, Bool.false_eq_true, if_false]
    rw [hdisk]
    by_cases hb : f.io.bdevOfst.toNat + i = 1024 * o + j
    · obtain ⟨ht, hplace⟩ := hp.of_block hi.size hi.max hlt hj hb
      refine Or.inr ⟨⟨hp.writes_iff.mp hr, ht⟩, hplace, ?_⟩
      rw [hb, Function.update_self, hplace]
    · exact Or.inl (Function.update_of_ne (Ne.symm hb) _ _)

theorem Sound.moved (hi : Sound t) (hf : f ∈ t.c.flights) {i : Nat} (hlt : i < f.io.bdevLen.toNat)
    (hc : Counted (t.c.move f i)) : Sound { t with c := t.c.move f i } where
  size := hi.size
  max := hi.max
  counted := hc
  events := hi.events
  placed g hg := by
    obtain ⟨g0, hg0, _, hreq, hio, _⟩ := move_mem hg
    obtain ⟨h1, h2, h3⟩ := hi.placed g0 hg0
    exact ⟨hreq ▸ h1, hreq ▸ h2, hio.trans (hreq ▸ h3)⟩
  known o j v hj hv := by
    obtain ⟨hd, hno⟩ := hi.known o j v hj hv
    refine ⟨?_, fun g hg hw => ?_⟩
    · obtain h | ⟨hw, _, _⟩ := hi.move_disk hf hlt hj
      · exact h.trans hd
      · exact absurd hw (hno f hf)
    · obtain ⟨g0, hg0, _, hreq, _, _⟩ := move_mem hg
      exact hno g0 hg0 ⟨hreq ▸ hw.1, hreq ▸ hw.2⟩
  views g hg o j v ht hv := by
    obtain ⟨g0, hg0, hid, hreq, _, rfl⟩ := move_mem hg
    rw [hreq] at ht
    rw [hid] at hv
    obtain ⟨halone, hread, hwrite, hmoved⟩ := hi.views g0 hg0 o j v ht hv
    have hp := hi.placed g0 hg0
    obtain ⟨hj, _, hb⟩ := hp.touches hi.size hi.max ht
    have hdisk : t.c.disk (1024 * o + j) = v → (t.c.move f i).disk (1024 * o + j) = v := by
      intro hd
      obtain h | ⟨hw, _, h⟩ := hi.move_disk hf hlt hj
      · exact h.trans hd
      · obtain rfl := hi.counted.eq_of_id hg0 hf (halone f hf hw)
        exact h.trans (hwrite hw.1)
    refine ⟨fun h hh hw => ?_, fun hop => hdisk (hread (hreq ▸ hop)), fun hop => ?_, fun hm => ?_⟩
    · obtain ⟨h0, hh0, hid', hreq', _, _⟩ := move_mem hh
      rw [hid, hid']
      exact halone h0 hh0 ⟨hreq' ▸ hw.1, hreq' ▸ hw.2⟩
    · have hmsg : (if g0.msg.id = f.msg.id then g0.move t.c.disk i else g0).msg = g0.msg := by
        split
        · simp only [Flight.move, hp.writes_iff.mpr (hreq ▸ hop), Bool.false_eq_true, if_false]
        · rfl
      rw [hmsg]
      exact hwrite (hreq ▸ hop)
    · rw [hreq] at hm ⊢
      by_cases hsame : g0.msg.id = f.msg.id
      · rw [if_pos hsame] at hm ⊢
        have hmem : g0.msg.request.place j ≠ i → g0.msg.request.place j ∈ g0.moved :=
          (List.mem_cons.mp hm).resolve_left
        cases hr : g0.io.isRead with
        | true =>
          have hd := hread (hp.reads_iff.mp hr)
          refine ⟨hdisk hd, ?_⟩
          simp only [Flight.move, hr, if_true]
          by_cases hplace : g0.msg.request.place j = i
          · rw [← hplace, Function.update_self, hb]
            exact hd
          · rw [Function.update_of_ne hplace]
            exact (hmoved (hmem hplace)).2
        | false =>
          have hd := hwrite (hp.writes_iff.mp hr)
          simp only [Flight.move, hr, Bool.false_eq_true, if_false]
          refine ⟨?_, hd⟩
          by_cases hplace : g0.msg.request.place j = i
          · obtain rfl := hi.counted.eq_of_id hf hg0 hsame
            simp only [Chunks.move, hr, Bool.false_eq_true, if_false]
            rw [← hb, hplace, Function.update_self, ← hplace]
            exact hd
          · exact hdisk (hmoved (hmem hplace)).1
      · rw [if_neg hsame] at hm ⊢
        exact ⟨hdisk (hmoved hm).1, (hmoved hm).2⟩
  answered := hi.answered

theorem finished_views (f : Flight β) : (t.finished f).views = t.views := by
  unfold Tracked.finished
  split
  · rfl
  · rfl

theorem done_mem {g : Flight β} {success : Bool} :
    g ∈ (t.c.done f success).flights ↔ g ∈ t.c.flights ∧ g.msg.id ≠ f.msg.id := by
  simp [Chunks.done]

/-- A read or a write that has failed tells nothing. -/
theorem Sound.failed (hi : Sound t) (hc : Counted (t.c.done f false)) :
    Sound { t with c := t.c.done f false } where
  size := hi.size
  max := hi.max
  counted := hc
  events := hi.events
  placed g hg := hi.placed g (done_mem.mp hg).1
  known o j v hj hv :=
    ⟨(hi.known o j v hj hv).1, fun g hg => (hi.known o j v hj hv).2 g (done_mem.mp hg).1⟩
  views g hg o j v ht hv := by
    obtain ⟨h1, h2, h3, h4⟩ := hi.views g (done_mem.mp hg).1 o j v ht hv
    exact ⟨fun g' hg' => h1 g' (done_mem.mp hg').1, h2, h3, h4⟩
  answered x hx hop hcode := by
    obtain hx | hx := List.mem_append.mp hx
    · exact hi.answered x hx hop hcode
    · obtain rfl := List.mem_singleton.mp hx
      exact absurd (show Status.ostoreIoError.code = Status.success.code from hcode) (by decide)

/-- All of the blocks have been moved. -/
theorem Sound.succeeded (hi : Sound t) (hf : f ∈ t.c.flights)
    (hall : ∀ i < f.io.bdevLen.toNat, i ∈ f.moved) (hc : Counted (t.c.done f true)) :
    Sound { t.finished f with c := t.c.done f true } where
  size := hi.size
  max := hi.max
  counted := hc
  events := hi.events
  placed g hg := hi.placed g (done_mem.mp hg).1
  known o j v hj hv := by
    have hknown : (f.msg.request.Touches o j ∧ t.views f.msg.id o j = some v) ∨
        t.known o j = some v := by
      simp only [Tracked.finished] at hv
      split at hv
      · simp only [View.learn] at hv
        split at hv
        · exact Or.inl ⟨‹_›, hv⟩
        · exact Or.inr hv
      · exact Or.inr hv
    obtain ⟨ht, hv⟩ | hv := hknown
    · obtain ⟨halone, _, _, hmoved⟩ := hi.views f hf o j v ht hv
      have hplace := ((hi.placed f hf).touches hi.size hi.max ht).2.1
      refine ⟨(hmoved (hall _ hplace)).1, fun g hg hw => ?_⟩
      obtain ⟨hg, hne⟩ := done_mem.mp hg
      exact hne (halone g hg hw)
    · exact ⟨(hi.known o j v hj hv).1, fun g hg => (hi.known o j v hj hv).2 g (done_mem.mp hg).1⟩
  views g hg o j v ht hv := by
    rw [finished_views] at hv
    obtain ⟨h1, h2, h3, h4⟩ := hi.views g (done_mem.mp hg).1 o j v ht hv
    exact ⟨fun g' hg' => h1 g' (done_mem.mp hg').1, h2, h3, h4⟩
  answered x hx hop hcode o j v ht hv := by
    rw [finished_views] at hv
    obtain hx | hx := List.mem_append.mp hx
    · exact hi.answered x hx hop hcode o j v ht hv
    · obtain rfl := List.mem_singleton.mp hx
      have hplace := ((hi.placed f hf).touches hi.size hi.max ht).2.1
      exact ((hi.views f hf o j v ht hv).moved (hall _ hplace)).2

theorem step_sound {a : ChunkAct β} {t' : Tracked β} (hi : Sound t) (hok : ChunkFits t.c a)
    (hs : trackedStep a t = some t') : Sound t' := by
  simp only [trackedStep, Option.map_eq_some_iff] at hs
  obtain ⟨c, hs, rfl⟩ := hs
  have hc := step_counted hi.counted hok hs
  cases a with
  | call r data rc =>
    obtain rfl := Option.some.inj hs
    obtain ⟨hrw, hrc, h⟩ | ⟨hrw, hrc, h⟩ | ⟨hrw, _, h⟩ := call_cases t.c data rc hok.1
    · rw [h] at hc ⊢
      simp only [Tracked.next, hrw, hrc, and_self, if_true]
      exact hi.called hrw (hok.2 hrw hrc) hc
    · rw [h] at hc ⊢
      simp only [Tracked.next, hrc, and_false, if_false]
      refine hi.keep hc rfl rfl rfl hi.events fun x hx => ?_
      refine (List.mem_append.mp hx).imp_right fun hx => Or.inr ?_
      obtain rfl := List.mem_singleton.mp hx
      exact (show Status.ostoreIoError.code ≠ Status.success.code by decide)
    · rw [h] at hc ⊢
      simp only [Tracked.next, hrw, false_and, if_false]
      refine hi.keep hc rfl rfl rfl (fun m hm => ?_) fun x hx => Or.inl hx
      obtain hm | hm := List.mem_append.mp hm
      · exact hi.events m hm
      · obtain rfl := List.mem_singleton.mp hm
        exact hrw
  | move id i =>
    simp only [chunkStep, Option.map_eq_some_iff] at hs
    obtain ⟨f, hf, rfl⟩ := hs
    exact hi.moved (find_some hf).1 (hok f hf) hc
  | done id success =>
    simp only [chunkStep, Option.map_eq_some_iff] at hs
    obtain ⟨f, hf, rfl⟩ := hs
    cases success with
    | false => exact hi.failed hc
    | true =>
      simp only [Tracked.next, hf, Option.map_some, Option.getD_some]
      exact hi.succeeded (find_some hf).1 (hok rfl f hf) hc
  | event =>
    simp only [chunkStep, Option.map_eq_some_iff] at hs
    obtain ⟨m, hm, rfl⟩ := hs
    refine hi.keep hc rfl rfl rfl (fun m' hm' => hi.events m' (List.mem_of_mem_tail hm')) fun x hx => ?_
    refine (List.mem_append.mp hx).imp_right fun hx => Or.inl fun hop => ?_
    obtain rfl := List.mem_singleton.mp hx
    exact hi.events m (List.mem_of_mem_head? hm) (Or.inl hop)

end Steps

theorem mounted_sound {blockSize : BitVec 32} {numBlocks : BitVec 64} {disk : Nat → β} {c : Chunks β}
    (hm : chunkstoreMount blockSize numBlocks disk = .ok c) (hmax : c.stat.maxOid.toNat ≤ 2 ^ 22) :
    Sound (Tracked.mounted c) := by
  have hc := mount_counted hm
  unfold chunkstoreMount at hm
  cases hs : hardcodeStat blockSize numBlocks with
  | error f =>
    rw [hs] at hm
    cases hm
  | ok s =>
    rw [hs] at hm
    obtain rfl := Except.ok.inj hm
    exact ⟨stat_size hs, hmax, hc, by simp [Tracked.mounted], by simp [Tracked.mounted],
      fun o j v _ hv => ⟨Option.some.inj hv, by simp [Tracked.mounted]⟩, by simp [Tracked.mounted],
      by simp [Tracked.mounted]⟩

/-- A read that succeeds brings every block of its object that was known when it was called and that
no write has gone to since. -/
theorem chunks_read_back (blockSize : BitVec 32) (numBlocks : BitVec 64) (disk : Nat → β) (c0 : Chunks β)
    (t : Tracked β) (hm : chunkstoreMount blockSize numBlocks disk = .ok c0)
    (hmax : c0.stat.maxOid.toNat ≤ 2 ^ 22)
    (h : Run trackedStep (fun t => ChunkFits t.c) (Tracked.mounted c0) t) :
    ∀ x ∈ t.c.answered, x.1.request.op = msgOssOpRead → x.2 = Status.success.code →
      ∀ o j v, x.1.request.Touches o j → t.views x.1.id o j = some v →
        x.1.data (x.1.request.place j) = v := by
  exact (h.invariant (mounted_sound hm hmax) fun _ _ _ hi hok hs => step_sound hi hok hs).answered

/-- A read beside a write, and a read after it. -/
theorem secondRead_brings : ∃ t : Tracked Nat,
    t.c.answered.map (fun x => (x.1.id, x.2, x.1.data 0, x.1.data 2)) =
      [(1, 0, 1024, 1026), (0, 0, 70, 72), (2, 0, 1024, 70)] ∧
    t.views 1 1 0 = some 1024 ∧ t.views 1 1 2 = none ∧ t.views 2 1 2 = some 70 ∧
    ∀ x ∈ t.c.answered, x.1.request.op = msgOssOpRead → x.2 = Status.success.code →
      ∀ o j v, x.1.request.Touches o j → t.views x.1.id o j = some v →
        x.1.data (x.1.request.place j) = v := by
  have hsteps : (runActs trackedStep (fun t a => ChunkFits t.c a)
      [.call ⟨msgOssOpWrite, 1, 8192, 4096⟩ (fun i => 70 + i) 0,
        .call ⟨msgOssOpRead, 1, 0, 12288⟩ (fun _ => 0) 0, .move 1 2, .move 1 0, .move 0 0, .move 1 1,
        .done 1 true, .done 0 true, .call ⟨msgOssOpRead, 1, 0, 12288⟩ (fun _ => 0) 0, .move 2 0,
        .move 2 1, .move 2 2, .done 2 true] (Tracked.mounted numbered)).map (fun t => decide (
      t.c.answered.map (fun x => (x.1.id, x.2, x.1.data 0, x.1.data 2)) =
        [(1, 0, 1024, 1026), (0, 0, 70, 72), (2, 0, 1024, 70)] ∧
      t.views 1 1 0 = some 1024 ∧ t.views 1 1 2 = none ∧ t.views 2 1 2 = some 70)) = some true := by
    decide +kernel
  obtain ⟨t, ht, hend⟩ := Option.map_eq_some_iff.mp hsteps
  obtain ⟨hans, h1, h2, h3⟩ := of_decide_eq_true hend
  exact ⟨t, hans, h1, h2, h3, chunks_read_back 4096 262144 (fun b => b) numbered t rfl (by decide)
    (run_of_runActs .start ht)⟩

end ZCell.Chunkstore

import LindWasm.Marshal.Pre

/-!
# Marshal/Frame — the arena only grows

    arena ├-- shadows handed out so far --┤├-- the next one --┤        ┤ arena + arenaSize
                                          used               used'

Each step before the handler takes space above the fill and writes there, or into a place it names:
`Grows keep st st'` says that what was below the fill is kept wherever `keep` holds, and that what
is above the new one is as it was. `WF` is the shape of the arena — shadows lie below the fill, and
two of them that hold a byte do not share their address. A walk over the fields of a struct is
followed field by field (`walkFields_rule`): one that is found null changes nothing, and any other
changes its own slot.
-/

namespace LindWasm.Marshal

open Option List

variable {c : Call} {g : Placement} {st st' st'' : PreState}

/-! ## The shape of the arena, and its growth -/

/-- The shadows lie in the used part of the arena, and those that hold a byte are apart. -/
structure PreState.WF (g : Placement) (st : PreState) : Prop where
  used_le : st.used ≤ arenaSize
  inside : ∀ b ∈ st.shadows, g.arena ≤ b.addr ∧ b.addr + b.len ≤ g.arena + st.used
  unique : ∀ b ∈ st.shadows, ∀ b' ∈ st.shadows, b.addr = b'.addr → 0 < b.len → 0 < b'.len → b = b'

/-- `st'` has the shadows of `st`, and its memory where `keep` holds below the fill; what is left of
the arena is as it was. -/
structure Grows (g : Placement) (keep : ℕ → Prop) (st st' : PreState) : Prop where
  used : st.used ≤ st'.used
  mem : ∀ a, a < g.arena + st.used → keep a → st'.mem a = st.mem a
  above : ∀ a, g.arena + st'.used ≤ a → a < g.arena + arenaSize → st'.mem a = st.mem a
  shadows : ∃ new, st'.shadows = st.shadows ++ new ∧ ∀ b ∈ new, g.arena + st.used ≤ b.addr
  wf : st.WF g → st'.WF g

theorem Grows.refl (keep : ℕ → Prop) (st : PreState) : Grows g keep st st :=
  ⟨le_rfl, fun _ _ _ => rfl, fun _ _ _ => rfl, ⟨[], by simp⟩, id⟩

variable {keep : ℕ → Prop} {size addr used' a srcPtr shadow : ℕ} {copies : Bool} {f : Field}

theorem Grows.trans (h : Grows g keep st st') (h' : Grows g keep st' st'') :
    Grows g keep st st'' := by
  obtain ⟨new, hnew, hlo⟩ := h.shadows
  obtain ⟨new', hnew', hlo'⟩ := h'.shadows
  have hused := h.used
  have hused' := h'.used
  refine ⟨hused.trans hused', fun a ha hk => ?_, fun a ha hin => ?_,
    ⟨new ++ new', ?_, fun b hb => ?_⟩, h'.wf ∘ h.wf⟩
  · exact (h'.mem a (by omega) hk).trans (h.mem a ha hk)
  · exact (h'.above a ha hin).trans (h.above a (by omega) hin)
  · rw [hnew', hnew, append_assoc]
  · rcases mem_append.mp hb with hb | hb
    · exact hlo b hb
    · exact (Nat.add_le_add_left hused _).trans (hlo' b hb)

theorem Grows.mono {keep' : ℕ → Prop} (h : Grows g keep st st')
    (hk : ∀ a, a < g.arena + st.used → keep' a → keep a) : Grows g keep' st st' :=
  ⟨h.used, fun a ha hka => h.mem a ha (hk a ha hka), h.above, h.shadows, h.wf⟩

theorem Grows.mem_shadows (h : Grows g keep st st') {b : Block} (hb : b ∈ st.shadows) :
    b ∈ st'.shadows := by
  obtain ⟨new, hnew, -⟩ := h.shadows
  exact hnew ▸ mem_append_left _ hb

theorem Grows.getWord (h : Grows g keep st st') (ha : a + 4 ≤ g.arena + st.used)
    (hk : ∀ i < 4, keep (a + i)) : st'.mem.getWord a = st.mem.getWord a :=
  Mem.getWord_congr fun i hi => h.mem _ (by omega) (hk i hi)

/-! ## The primitives -/

theorem marshalAlloc_eq_some {used : ℕ} (h : marshalAlloc g used size = some (addr, used'))
    (hused : used ≤ arenaSize) :
    addr = g.arena + used ∧ used + size ≤ used' ∧ used' ≤ arenaSize := by
  unfold marshalAlloc at h
  split at h
  · exact absurd h (by simp)
  · dsimp only at h
    split at h
    · exact absurd h (by simp)
    · cases h
      refine ⟨rfl, ?_, ?_⟩ <;> omega

theorem grows_alloc (keep : ℕ → Prop) (hwf : st.WF g)
    (h : marshalAlloc g st.used size = some (addr, used')) :
    Grows g keep st { st with used := used' } := by
  obtain ⟨-, hle, hfit⟩ := marshalAlloc_eq_some h hwf.used_le
  refine ⟨by dsimp only; omega, fun _ _ _ => rfl, fun _ _ _ => rfl, ⟨[], by simp⟩, fun _ => ?_⟩
  refine ⟨hfit, fun b hb => ?_, hwf.unique⟩
  have := hwf.inside b hb
  dsimp only
  omega

/-- **A fresh shadow** starts at the fill. -/
theorem allocShadow_spec (keep : ℕ → Prop) (hwf : st.WF c.grate)
    (h : allocShadow c st size = some (addr, st')) :
    Grows c.grate keep st st' ∧ addr = c.grate.arena + st.used ∧ st'.mem = st.mem ∧
      st.used + size ≤ st'.used ∧ ⟨addr, size⟩ ∈ st'.shadows := by
  obtain ⟨⟨addr', used'⟩, halloc, heq⟩ := map_eq_some_iff.mp h
  cases heq
  obtain ⟨rfl, hle, hfit⟩ := marshalAlloc_eq_some halloc hwf.used_le
  refine ⟨⟨by dsimp only; omega, fun _ _ _ => rfl, fun _ _ _ => rfl, ⟨_, rfl, by simp⟩,
    fun _ => ?_⟩, rfl, rfl, hle, by simp⟩
  have hold : ∀ b ∈ st.shadows, b.addr = c.grate.arena + st.used → b.len = 0 := fun b hb he => by
    have := (hwf.inside b hb).2
    omega
  refine ⟨hfit, fun b hb => ?_, fun b hb b' hb' he hpos hpos' => ?_⟩
  · rcases mem_append.mp hb with hb | hb
    · have := hwf.inside b hb
      dsimp only
      omega
    · obtain rfl := mem_singleton.mp hb
      dsimp only
      omega
  · rcases mem_append.mp hb with hb | hb <;> rcases mem_append.mp hb' with hb' | hb'
    · exact hwf.unique b hb b' hb' he hpos hpos'
    · obtain rfl := mem_singleton.mp hb'
      exact absurd (hold b hb he) (by omega)
    · obtain rfl := mem_singleton.mp hb
      exact absurd (hold b' hb' he.symm) (by omega)
    · rw [mem_singleton.mp hb, mem_singleton.mp hb']

/-- A word written below the fill keeps the arena's shape, and its memory off the word. -/
theorem grows_putWord {v : ℕ} (hkeep : ∀ b, keep b → b < a ∨ a + 4 ≤ b)
    (hslot : a + 4 ≤ g.arena + st.used ∨ g.arena + arenaSize ≤ a) :
    Grows g keep st { st with mem := st.mem.putWord a v } :=
  ⟨le_rfl, fun b _ hb => Mem.sameOff_putWord b (hkeep b hb),
    fun b hb hin => Mem.sameOff_putWord b (by dsimp only at hb; omega), ⟨[], by simp⟩,
    fun hwf => ⟨hwf.used_le, hwf.inside, hwf.unique⟩⟩

/-- What copying in does: the shadow holds the source's bytes, or nothing changed. -/
theorem copyIn_spec (h : copyIn c st copies srcPtr shadow size = some st') :
    (∃ mem, st' = { st with mem } ∧ Mem.SameOff shadow (shadow + size) st.mem mem) ∧
      (copies → ∀ i < size, st'.mem (shadow + i)
        = c.source.bytes (ensureHostAddr c.source.base srcPtr + i)) ∧
      (¬ copies → st'.mem = st.mem) := by
  unfold copyIn at h
  split at h
  · next hcopy =>
    obtain ⟨host, hfetch, rfl⟩ := map_eq_some_iff.mp h
    obtain ⟨-, hhost⟩ := ite_none_right_eq_some.mp hfetch
    cases hhost
    refine ⟨⟨_, rfl, Mem.sameOff_blit⟩, fun _ i hi => ?_, fun hno => absurd hcopy.2 hno⟩
    dsimp only
    rw [Mem.blit_in (by omega) (by omega), Nat.add_sub_cancel_left]
  · next hno =>
    cases h
    refine ⟨⟨_, rfl, Mem.SameOff.refl _ _ _⟩, fun hc i hi => ?_, fun _ => rfl⟩
    exact absurd ⟨by omega, hc⟩ hno

/-- A shadow of `len` bytes at the fill of `st`, with the bytes at `srcPtr` if they are copied. -/
structure Copied (c : Call) (keep : ℕ → Prop) (copies : Bool) (srcPtr len : ℕ) (st st' : PreState)
    (shadow : ℕ) : Prop where
  grows : Grows c.grate keep st st'
  addr : shadow = c.grate.arena + st.used
  block : ⟨shadow, len⟩ ∈ st'.shadows
  below : shadow + len ≤ c.grate.arena + st'.used
  bytes : copies → ∀ i < len, st'.mem (shadow + i)
    = c.source.bytes (ensureHostAddr c.source.base srcPtr + i)
  uncopied : ¬ copies → st'.mem = st.mem

theorem Copied.arena_le (h : Copied c keep copies srcPtr size st st' shadow) :
    c.grate.arena ≤ shadow := by
  have := h.addr
  omega

theorem alloc_copyIn_spec (keep : ℕ → Prop) (hwf : st.WF c.grate)
    (ha : allocShadow c st size = some (shadow, st'))
    (hc : copyIn c st' copies srcPtr shadow size = some st'') :
    Copied c keep copies srcPtr size st st'' shadow := by
  obtain ⟨hgrow, hshadow, hmem, hused, hblock⟩ := allocShadow_spec keep hwf ha
  obtain ⟨⟨mem, rfl, hsame⟩, hbytes, hno⟩ := copyIn_spec hc
  refine ⟨⟨hgrow.used, fun a h hk => ?_, fun a h hin => ?_, hgrow.shadows, fun hwf => ?_⟩, hshadow,
    hblock, by dsimp only; omega, hbytes, fun hcopies => (hno hcopies).trans hmem⟩
  · exact (hsame a (by omega)).trans (hgrow.mem a h hk)
  · exact (hsame a (by dsimp only at h; omega)).trans (hgrow.above a h hin)
  · have := hgrow.wf hwf
    exact ⟨this.used_le, this.inside, this.unique⟩

/-! ## The walk over a struct's fields -/

/-- The field is one the walk reads and may write. -/
def Field.Walked (f : Field) : Prop := f.touched ∧ f.spec.kind ≠ .scalar

/-- The field is a pointer the walk gives a shadow. -/
def Field.TouchedPtr (f : Field) : Prop := f.touched ∧ f.spec.kind = .ptr

theorem Field.TouchedPtr.walked (h : f.TouchedPtr) : f.Walked :=
  ⟨h.1, by rw [h.2]; decide⟩

/-- Two fields that are both walked do not overlap. -/
def Field.Apart (f f' : Field) : Prop :=
  f.Walked → f'.Walked → f.offset + 4 ≤ f'.offset ∨ f'.offset + 4 ≤ f.offset

/-- The walked fields do not overlap, and the end of none wraps. -/
structure Layout.Sound (l : Layout) : Prop where
  offsets : ∀ f ∈ l.fields, f.Walked → f.offset + 4 < 2 ^ 32
  apart : l.fields.Pairwise Field.Apart

/-- The word of the calling cage at an offset from a pointer of its. -/
def Call.wordAt (c : Call) (p offset : ℕ) : ℕ :=
  c.source.bytes.getWord (ensureHostAddr c.source.base p + offset)

theorem getWord_eq_wordAt {mem : Mem} {x p len offset : ℕ}
    (h : ∀ i < len, mem (x + i) = c.source.bytes (ensureHostAddr c.source.base p + i))
    (hin : offset + 4 ≤ len) : mem.getWord (x + offset) = c.wordAt p offset :=
  Mem.getWord_congr fun i hi => by
    rw [Nat.add_assoc, Nat.add_assoc]
    exact h _ (by omega)

/-- The value is the address of a shadow. -/
def PreState.IsShadow (st : PreState) (v : ℕ) : Prop := ∃ b ∈ st.shadows, b.addr = v

section Walk

variable {lo : Layout} {shadow allocSize : ℕ} {tracks tracks' : List Track} {t : Track}

theorem slot_eq (hrange : ¬ OutOfRange f.offset allocSize) (hoff : f.offset + 4 < 2 ^ 32)
    (hshadow : shadow + allocSize < 2 ^ 32) :
    f.offset + 4 ≤ allocSize ∧ u32 (shadow + f.offset) = shadow + f.offset := by
  unfold OutOfRange u32 at *
  omega

/-- The shadow of a field's pointee, as the walk tracks it when it comes from `st` to `st'`. -/
structure IsChild (c : Call) (lo : Layout) (shadow allocSize : ℕ) (st st' : PreState) (f : Field)
    (t : Track) : Prop where
  offset : t.offset = f.offset
  spec : t.spec = f.spec
  src : t.origSrcPtr = st.mem.getWord (shadow + f.offset)
  src_ne : t.origSrcPtr ≠ 0
  slot : st'.mem.getWord (shadow + f.offset) = t.shadowStart
  fresh : c.grate.arena + st.used ≤ t.shadowStart
  block : ⟨t.shadowStart, t.shadowLen⟩ ∈ st'.shadows
  sized : childSize c lo f.spec st.mem shadow allocSize t.origSrcPtr = some t.shadowLen
  bytes : f.spec.copiesIn → ∀ i < t.shadowLen, st'.mem (t.shadowStart + i)
    = c.source.bytes (ensureHostAddr c.source.base t.origSrcPtr + i)
  uncopied : ¬ f.spec.copiesIn → ∀ i < t.shadowLen,
    st'.mem (t.shadowStart + i) = st.mem (t.shadowStart + i)

/-- What the walk does with a pointer field: nothing if it is null, else it is given a shadow. -/
def Filled (c : Call) (lo : Layout) (shadow allocSize : ℕ) (st st' : PreState)
    (tracks tracks' : List Track) (f : Field) : Prop :=
  st.mem.getWord (shadow + f.offset) = 0 ∧ st' = st ∧ tracks' = tracks ∨
    ∃ t, tracks' = tracks ++ [t] ∧ IsChild c lo shadow allocSize st st' f t

/-- The address is not in the slot of the field, if that is walked. -/
def OffSlot (shadow : ℕ) (f : Field) (a : ℕ) : Prop :=
  f.Walked → a < shadow + f.offset ∨ shadow + f.offset + 4 ≤ a

variable (hwf : st.WF c.grate) (hbelow : shadow + allocSize ≤ c.grate.arena + st.used)
include hwf hbelow

theorem walkPtrField_spec (hin : f.offset + 4 ≤ allocSize)
    (hslot : u32 (shadow + f.offset) = shadow + f.offset) (hw : f.Walked)
    (h : walkPtrField c lo shadow allocSize f st tracks = some (st', tracks')) :
    Grows c.grate (OffSlot shadow f) st st' ∧
      Filled c lo shadow allocSize st st' tracks tracks' f := by
  rw [walkPtrField, hslot] at h
  split at h
  · next hzero =>
    cases h
    exact ⟨Grows.refl _ _, .inl ⟨hzero, rfl, rfl⟩⟩
  · next hne =>
    obtain ⟨size, hsize, h⟩ := bind_eq_some_iff.mp h
    obtain ⟨⟨child, st₁⟩, ha, h⟩ := bind_eq_some_iff.mp h
    obtain ⟨st₂, hc, heq⟩ := map_eq_some_iff.mp h
    cases heq
    obtain ⟨hgrow, hchild, hblock, hend, hbytes, hno⟩ :=
      alloc_copyIn_spec (OffSlot shadow f) hwf ha hc
    have hused := hgrow.used
    have hlt : child < 2 ^ 32 := by
      have := c.grate.arena_fits
      have := (hgrow.wf hwf).used_le
      omega
    have hoff : ∀ i, (st₂.mem.putWord (shadow + f.offset) (u32 child)) (child + i)
        = st₂.mem (child + i) := fun i => Mem.sameOff_putWord _ (by omega)
    refine ⟨hgrow.trans (grows_putWord (fun _ h => h hw) (.inl (by omega))), .inr ⟨_, rfl, ?_⟩⟩
    refine ⟨rfl, rfl, rfl, hne, ?_, hchild.ge, hblock, hsize, fun hcopies i hi => ?_,
      fun hcopies i _ => ?_⟩
    · rw [show u32 child = child from Nat.mod_eq_of_lt hlt]
      exact Mem.getWord_putWord hlt
    · exact (hoff i).trans (hbytes hcopies i hi)
    · exact (hoff i).trans (congrFun (hno hcopies) _)

/-- **One field of the walk**: only its own slot changes, and a pointer in it becomes the address
of a shadow. -/
theorem walkField_spec (hoff : f.Walked → f.offset + 4 < 2 ^ 32)
    (h : walkField c lo shadow allocSize f st tracks = some (st', tracks')) :
    Grows c.grate (OffSlot shadow f) st st' ∧ (f.Walked → f.offset + 4 ≤ allocSize) ∧
      (f.TouchedPtr → Filled c lo shadow allocSize st st' tracks tracks' f) ∧
      (¬ f.TouchedPtr → tracks' = tracks) ∧
      ((f.Walked → st.mem.getWord (shadow + f.offset) = 0) → st' = st ∧ tracks' = tracks) := by
  have hfit : shadow + allocSize < 2 ^ 32 := by
    have := c.grate.arena_fits
    have := hwf.used_le
    omega
  unfold walkField at h
  split at h
  · next ht =>
    cases h
    exact ⟨Grows.refl _ _, fun hw => absurd hw.1 ht, fun hptr => absurd hptr.1 ht, fun _ => rfl,
      fun _ => ⟨rfl, rfl⟩⟩
  · next ht =>
    have ht := not_not.mp ht
    split at h
    · next hk =>
      cases h
      exact ⟨Grows.refl _ _, fun hw => absurd hk hw.2,
        fun hptr => absurd (hk.symm.trans hptr.2) (by decide), fun _ => rfl, fun _ => ⟨rfl, rfl⟩⟩
    · next hk =>
      have hw : f.Walked := ⟨ht, by rw [hk]; decide⟩
      obtain ⟨hrange, h⟩ := ite_none_left_eq_some.mp h
      obtain ⟨hin, hslot⟩ := slot_eq hrange (hoff hw) hfit
      obtain ⟨u, hu, heq⟩ := map_eq_some_iff.mp h
      cases heq
      rw [walkHandleField, hslot] at hu
      have hnot : ¬ f.TouchedPtr := fun hptr => absurd (hk.symm.trans hptr.2) (by decide)
      split at hu
      · cases hu
        exact ⟨Grows.refl _ _, fun _ => hin, fun hptr => absurd hptr hnot, fun _ => rfl,
          fun _ => ⟨rfl, rfl⟩⟩
      · next hne =>
        obtain ⟨real, -, rfl⟩ := map_eq_some_iff.mp hu
        exact ⟨grows_putWord (fun _ h => h hw) (.inl (by omega)), fun _ => hin,
          fun hptr => absurd hptr hnot, fun _ => rfl, fun hnull => absurd (hnull hw) hne⟩
    · next hk =>
      have hw : f.Walked := ⟨ht, by rw [hk]; decide⟩
      obtain ⟨hrange, h⟩ := ite_none_left_eq_some.mp h
      obtain ⟨hin, hslot⟩ := slot_eq hrange (hoff hw) hfit
      obtain ⟨hgrow, hfilled⟩ := walkPtrField_spec hwf hbelow hin hslot hw h
      refine ⟨hgrow, fun _ => hin, fun _ => hfilled, fun hnot => absurd ⟨ht, hk⟩ hnot,
        fun hnull => ?_⟩
      rcases hfilled with ⟨-, heq⟩ | ⟨t, -, hchild⟩
      · exact heq
      · exact absurd (hchild.src.trans (hnull hw)) hchild.src_ne

end Walk

/-! ## Fields that are found null -/

section Rule

variable {lo : Layout} {shadow allocSize offset : ℕ} {tracks tracks' : List Track}
  {done : List Field} {null : Field → Prop} {st₀ : PreState}

/-- The address is in no slot of the fields of `fs` that may not be null. -/
def OffSlots (null : Field → Prop) (shadow : ℕ) (fs : List Field) (a : ℕ) : Prop :=
  ∀ f ∈ fs, ¬ null f → OffSlot shadow f a

variable (hbelow : shadow + allocSize ≤ c.grate.arena + st₀.used)
include hbelow

/-- A word of the struct that shares no byte with the slots filled is as the walk found it. -/
theorem Grows.word_eq (hgrow : Grows c.grate (OffSlots null shadow done) st₀ st)
    (hin : offset + 4 ≤ allocSize)
    (hoff : ∀ g ∈ done, g.Walked → ¬ null g → g.offset + 4 ≤ offset ∨ offset + 4 ≤ g.offset) :
    st.mem.getWord (shadow + offset) = st₀.mem.getWord (shadow + offset) := by
  refine hgrow.getWord (by omega) fun i hi g hg hne hw => ?_
  have := hoff g hg hw hne
  omega

variable {R : Field → Field → Prop} {I : List Field → PreState → List Track → Prop}

/-- **The walk, field by field.**  A field that is found null, with no slot filled before over its
own, changes nothing; what any other one keeps, the whole walk keeps. -/
theorem walkFields_rule (null : Field → Prop)
    (hoff : ∀ f ∈ lo.fields, f.Walked → f.offset + 4 < 2 ^ 32)
    (hnull : ∀ f ∈ lo.fields, f.Walked → null f → f.offset + 4 ≤ allocSize →
      st₀.mem.getWord (shadow + f.offset) = 0)
    (hpairs : lo.fields.Pairwise R)
    (hR : ∀ f f', R f f' → f.Walked → ¬ null f → f'.Walked → null f' →
      f.offset + 4 ≤ f'.offset ∨ f'.offset + 4 ≤ f.offset)
    (hstill : ∀ {done f st tracks}, I done st tracks →
      (f.Walked → null f ∧ f.offset + 4 ≤ allocSize ∧ st.mem.getWord (shadow + f.offset) = 0) →
      I (done ++ [f]) st tracks)
    (hstep : ∀ {done f st st' tracks tracks'}, f ∈ lo.fields →
      (∀ g ∈ done, g ∈ lo.fields ∧ R g f) → f.Walked → ¬ null f → st.WF c.grate →
      Grows c.grate (OffSlots null shadow done) st₀ st → I done st tracks →
      walkField c lo shadow allocSize f st tracks = some (st', tracks') →
      I (done ++ [f]) st' tracks')
    (done rest : List Field) (hfs : lo.fields = done ++ rest) (hwf : st.WF c.grate)
    (hgrow : Grows c.grate (OffSlots null shadow done) st₀ st) (hI : I done st tracks)
    (h : walkFields c lo shadow allocSize rest st tracks = some (st', tracks')) :
    Grows c.grate (OffSlots null shadow lo.fields) st₀ st' ∧ I lo.fields st' tracks' := by
  induction rest generalizing done st tracks with
  | nil =>
    cases h
    rw [hfs, append_nil]
    exact ⟨hgrow, hI⟩
  | cons f rest ih =>
    have hf : f ∈ lo.fields := hfs ▸ mem_append_right _ mem_cons_self
    have hdone : ∀ g ∈ done, g ∈ lo.fields ∧ R g f := fun g hg =>
      ⟨hfs ▸ mem_append_left _ hg, (pairwise_append.mp (hfs ▸ hpairs)).2.2 g hg f mem_cons_self⟩
    obtain ⟨⟨st₁, tracks₁⟩, hstepf, hrest⟩ := bind_eq_some_iff.mp h
    have hused := hgrow.used
    obtain ⟨hgrowf, hin, -, -, hsame⟩ := walkField_spec hwf (by omega) (hoff f hf) hstepf
    have hwf₁ := hgrowf.wf hwf
    have hmore : Grows c.grate (OffSlots null shadow (done ++ [f])) st₀ st :=
      hgrow.mono fun a _ ha g hg => ha g (mem_append_left _ hg)
    have hnext : Grows c.grate (OffSlots null shadow (done ++ [f])) st₀ st₁ ∧
        I (done ++ [f]) st₁ tracks₁ := by
      by_cases hlive : f.Walked ∧ ¬ null f
      · refine ⟨hmore.trans (hgrowf.mono fun a _ ha => ?_),
          hstep hf hdone hlive.1 hlive.2 hwf hgrow hI hstepf⟩
        exact ha f (mem_append_right _ mem_cons_self) hlive.2
      · -- nothing has been written over it, so the walk finds it null
        have hnf (hw : f.Walked) : null f := not_not.mp fun hne => hlive ⟨hw, hne⟩
        have hzero (hw : f.Walked) : st.mem.getWord (shadow + f.offset) = 0 := by
          rw [hgrow.word_eq hbelow (hin hw) fun g hg hwg hne =>
            hR g f (hdone g hg).2 hwg hne hw (hnf hw)]
          exact hnull f hf hw (hnf hw) (hin hw)
        obtain ⟨rfl, rfl⟩ := hsame hzero
        exact ⟨hmore, hstill hI fun hw => ⟨hnf hw, hin hw, hzero hw⟩⟩
    exact ih (done ++ [f]) (by rw [hfs, append_cons]) hwf₁ hnext.1 hnext.2 hrest

end Rule

/-! ## One pointer, by the shape of its spec -/

section Shape

variable {s : ArgSpec} {raw : Option (ℕ → ℕ)} {p : ℕ}

theorem prePtr_buffer (hs : s.sizeKind ≠ .ptrArray) :
    prePtr c s raw p st = if p = 0 then some (0, [], st) else preBuffer c s raw p st := by
  obtain ⟨_, _, sk, _⟩ := s
  cases sk with
  | ptrArray => exact absurd rfl hs
  | none | const | fromArg | fromArgPointee | cstr => rfl

theorem prePtr_raw (hs : s.sizeKind = .ptrArray) (hel : s.element = none) :
    prePtr c s raw p st = if p = 0 then some (0, [], st)
      else prePtrArray c (fun p st => some (p, st)) p st := by
  cases s
  cases hs
  cases hel
  rfl

theorem prePtr_element {e : ArgSpec} (hs : s.sizeKind = .ptrArray) (hel : s.element = some e) :
    prePtr c s raw p st = if p = 0 then some (0, [], st)
      else prePtrArray c (fun p st => (prePtr c e none p st).map fun r => (r.1, r.2.2)) p st := by
  cases s
  cases hs
  cases hel
  rfl

variable {v shadow i allocSize : ℕ} {ts ts' : List Track}
  {marshal : ℕ → PreState → Option (ℕ × PreState)} {lo : Layout}

/-- **One argument** is passed on without a shadow, or is a pointer that has got one; only then is
there a record. -/
theorem preArg_cases {record : Option Shadow} (h : preArg c i s st = some (v, record, st')) :
    (record = none ∧ st' = st ∧ (s.kind = .ptr → v = 0)) ∨
      s.kind = .ptr ∧ c.rawArgs i ≠ 0 ∧ ∃ tracks size,
        prePtr c s (some c.rawArgs) (c.rawArgs i) st = some (v, tracks, st') ∧
        shadowSize c s st'.mem (c.rawArgs i) = some size ∧
        ∀ r, record = some r → r = ⟨i, c.rawArgs i, v, size, s.ptrDirection, c.sourceCage,
          c.grateCage, s.layout, tracks⟩ := by
  rw [preArg] at h
  cases hk : s.kind with
  | scalar =>
    simp only [hk, some.injEq, Prod.mk.injEq] at h
    exact .inl ⟨h.2.1.symm, h.2.2.symm, nofun⟩
  | handle =>
    simp only [hk] at h
    split at h
    · obtain ⟨-, rfl, rfl⟩ := by simpa using h
      exact .inl ⟨rfl, rfl, nofun⟩
    · obtain ⟨real, -, heq⟩ := map_eq_some_iff.mp h
      obtain ⟨-, rfl, rfl⟩ := by simpa using heq
      exact .inl ⟨rfl, rfl, nofun⟩
  | ptr =>
    simp only [hk] at h
    split at h
    · obtain ⟨rfl, rfl, rfl⟩ := by simpa using h
      exact .inl ⟨rfl, rfl, fun _ => rfl⟩
    · next hraw =>
      obtain ⟨⟨v', tracks, st₁⟩, hptr, h⟩ := bind_eq_some_iff.mp h
      obtain ⟨size, hsize, heq⟩ := map_eq_some_iff.mp h
      obtain ⟨rfl, rfl, rfl⟩ := by simpa using heq
      refine .inr ⟨rfl, hraw, tracks, size, hptr, hsize, fun r hr => ?_⟩
      obtain ⟨-, hr⟩ := ite_none_left_eq_some.mp hr
      exact (some.inj hr).symm

/-- **A pointer that is not an array**: its shadow is filled, and if it has a struct layout the
fields are walked from there on. -/
theorem preBuffer_spec {tracks : List Track} (hwf : st.WF c.grate)
    (h : preBuffer c s raw p st = some (v, tracks, st')) :
    ∃ size st₁, ptrSize c s raw st.mem p = some size ∧
      Copied c (fun _ => True) s.copiesIn p (allocSizeOf s size) st st₁ v ∧
      ((∀ l, s.layout = some l → l.kind ≠ .struct) ∧ tracks = [] ∧ st' = st₁ ∨
        ∃ l, s.layout = some l ∧ l.kind = .struct ∧
          walkFields c l v (allocSizeOf s size) l.fields st₁ [] = some (st', tracks)) := by
  obtain ⟨size, hsize, h⟩ := bind_eq_some_iff.mp h
  obtain ⟨⟨shadow, st₁⟩, ha, h⟩ := bind_eq_some_iff.mp h
  obtain ⟨st₂, hc, h⟩ := bind_eq_some_iff.mp h
  have hcopied := alloc_copyIn_spec (fun _ => True) hwf ha hc
  split at h
  · next l hl =>
    split at h
    · next hk =>
      obtain ⟨⟨st₃, tracks₃⟩, hwalk, heq⟩ := map_eq_some_iff.mp h
      obtain ⟨rfl, rfl, rfl⟩ : shadow = v ∧ tracks₃ = tracks ∧ st₃ = st' := by simpa using heq
      obtain ⟨-, hwalk⟩ := ite_none_left_eq_some.mp hwalk
      obtain ⟨⟨addr, used⟩, htable, hwalk⟩ := bind_eq_some_iff.mp hwalk
      have htable := grows_alloc (fun _ => True) (hcopied.grows.wf hwf) htable
      have hbelow := hcopied.below
      have hused := htable.used
      refine ⟨size, _, hsize, ⟨hcopied.grows.trans htable, hcopied.addr, hcopied.block, ?_,
        hcopied.bytes, hcopied.uncopied⟩, .inr ⟨l, hl, hk, hwalk⟩⟩
      omega
    · next hk =>
      obtain ⟨rfl, rfl, rfl⟩ : shadow = v ∧ [] = tracks ∧ st₂ = st' := by simpa using h
      exact ⟨size, _, hsize, hcopied,
        .inl ⟨fun l' hl' => mem_unique hl hl' ▸ hk, rfl, rfl⟩⟩
  · next hl =>
    obtain ⟨rfl, rfl, rfl⟩ : shadow = v ∧ [] = tracks ∧ st₂ = st' := by simpa using h
    exact ⟨size, _, hsize, hcopied,
      .inl ⟨fun l' hl' => absurd (hl.symm.trans hl') (by simp), rfl, rfl⟩⟩

/-! ## The arena keeps its shape, whatever the spec -/

/-- What is tracked of a field is a pointer's, and has a shadow. -/
def Field.Tracked (f : Field) (blocks : List Block) (t : Track) : Prop :=
  f.TouchedPtr ∧ t.offset = f.offset ∧ t.spec = f.spec ∧ ⟨t.shadowStart, t.shadowLen⟩ ∈ blocks

theorem grows_of_null (keep : ℕ → Prop) (h : some (0, [], st) = some (v, ts, st')) :
    v = 0 ∧ ts = [] ∧ Grows c.grate keep st st' := by
  obtain ⟨rfl, rfl, rfl⟩ : 0 = v ∧ [] = ts ∧ st = st' := by simpa using h
  exact ⟨rfl, rfl, Grows.refl _ _⟩

/-- The word of a field that passes the check is in the struct, or ends where it begins — whatever
the offset. -/
theorem slot_below (hrange : ¬ OutOfRange f.offset allocSize) (hwf : st.WF c.grate)
    (harena : c.grate.arena ≤ shadow) (hbelow : shadow + allocSize ≤ c.grate.arena + st.used) :
    u32 (shadow + f.offset) + 4 ≤ c.grate.arena + st.used ∨
      c.grate.arena + arenaSize ≤ u32 (shadow + f.offset) := by
  have hfit := c.grate.arena_fits
  have hused := hwf.used_le
  unfold OutOfRange u32 arenaSize at *
  omega

variable (hwf : st.WF c.grate)
include hwf

section

variable (harena : c.grate.arena ≤ shadow) (hbelow : shadow + allocSize ≤ c.grate.arena + st.used)
include harena hbelow

theorem walkField_grows (h : walkField c lo shadow allocSize f st ts = some (st', ts')) :
    Grows c.grate (fun _ => False) st st' ∧ ∀ t ∈ ts', t ∈ ts ∨ f.Tracked st'.shadows t := by
  unfold walkField at h
  split at h
  · cases h
    exact ⟨Grows.refl _ _, fun t => .inl⟩
  next htouched =>
  split at h
  · cases h
    exact ⟨Grows.refl _ _, fun t => .inl⟩
  · obtain ⟨hrange, h⟩ := ite_none_left_eq_some.mp h
    obtain ⟨u, hu, heq⟩ := map_eq_some_iff.mp h
    cases heq
    refine ⟨?_, fun t => .inl⟩
    unfold walkHandleField at hu
    dsimp only at hu
    split at hu
    · exact some.inj hu ▸ Grows.refl _ _
    · obtain ⟨real, -, rfl⟩ := map_eq_some_iff.mp hu
      exact grows_putWord nofun (slot_below hrange hwf harena hbelow)
  next hkind =>
  obtain ⟨hrange, h⟩ := ite_none_left_eq_some.mp h
  unfold walkPtrField at h
  dsimp only at h
  split at h
  · cases h
    exact ⟨Grows.refl _ _, fun t => .inl⟩
  · obtain ⟨size, -, h⟩ := bind_eq_some_iff.mp h
    obtain ⟨⟨child, st₁⟩, ha, h⟩ := bind_eq_some_iff.mp h
    obtain ⟨st₂, hc, heq⟩ := map_eq_some_iff.mp h
    cases heq
    have hcopied := alloc_copyIn_spec (fun _ => False) hwf ha hc
    have hslot := slot_below hrange hwf harena hbelow
    have hused := hcopied.grows.used
    refine ⟨hcopied.grows.trans (grows_putWord nofun (by omega)), fun t ht =>
      (mem_append.mp ht).imp_right fun ht => ?_⟩
    obtain rfl := mem_singleton.mp ht
    exact ⟨⟨not_not.mp htouched, hkind⟩, rfl, rfl, hcopied.block⟩

theorem walkFields_grows {fs : List Field}
    (h : walkFields c lo shadow allocSize fs st ts = some (st', ts')) :
    Grows c.grate (fun _ => False) st st' ∧
      ∀ t ∈ ts', t ∈ ts ∨ ∃ f ∈ fs, f.Tracked st'.shadows t := by
  induction fs generalizing st ts with
  | nil =>
    cases h
    exact ⟨Grows.refl _ _, fun t => .inl⟩
  | cons f fs ih =>
    obtain ⟨⟨st₁, ts₁⟩, hf, hrest⟩ := bind_eq_some_iff.mp h
    obtain ⟨hgrow, htracks⟩ := walkField_grows hwf harena hbelow hf
    have hused := hgrow.used
    obtain ⟨hgrow', htracks'⟩ := ih (hgrow.wf hwf) (by omega) hrest
    refine ⟨hgrow.trans hgrow', fun t ht => ?_⟩
    rcases htracks' t ht with ht | ⟨f', hf', htrack⟩
    · refine (htracks t ht).imp_right fun ⟨hptr, hoff, hspec, hblock⟩ => ?_
      exact ⟨f, mem_cons_self, hptr, hoff, hspec, hgrow'.mem_shadows hblock⟩
    · exact .inr ⟨f', mem_cons_of_mem _ hf', htrack⟩

end

theorem preBuffer_grows (h : preBuffer c s raw p st = some (v, ts, st')) :
    Grows c.grate (fun _ => False) st st' := by
  obtain ⟨size, st₁, -, hcopied, hcase⟩ := preBuffer_spec hwf h
  have hgrow : Grows c.grate (fun _ => False) st st₁ := hcopied.grows.mono fun _ _ => nofun
  rcases hcase with ⟨-, -, rfl⟩ | ⟨l, -, -, hwalk⟩
  · exact hgrow
  · exact hgrow.trans (walkFields_grows (hgrow.wf hwf) hcopied.arena_le hcopied.below hwalk).1

section

variable (hmarshal : ∀ {q st v st'}, st.WF c.grate → marshal q st = some (v, st') →
  Grows c.grate (fun _ => False) st st')
include hmarshal

theorem preElems_grows {ps : List ℕ}
    (hspace : shadow + 4 * (i + ps.length) + 4 ≤ c.grate.arena + st.used)
    (h : preElems marshal shadow i ps st = some st') :
    Grows c.grate (fun _ => False) st st' := by
  induction ps generalizing i st with
  | nil => exact some.inj h ▸ grows_putWord nofun (.inl hspace)
  | cons q ps ih =>
    rw [length_cons] at hspace
    obtain ⟨⟨v, st₁⟩, hq, hrest⟩ := bind_eq_some_iff.mp h
    have hused := (hmarshal hwf hq).used
    have hstore : Grows c.grate (fun _ => False) st₁
      { st₁ with mem := st₁.mem.putWord (shadow + 4 * i) (u32 v) } :=
        grows_putWord nofun (.inl (by omega))
    have hgrow := (hmarshal hwf hq).trans hstore
    exact hgrow.trans (ih (hgrow.wf hwf) (by dsimp only; omega) hrest)

theorem prePtrArray_grows (h : prePtrArray c marshal p st = some (v, ts, st')) :
    ts = [] ∧ Grows c.grate (fun _ => False) st st' := by
  obtain ⟨ps, -, h⟩ := bind_eq_some_iff.mp h
  obtain ⟨⟨shadow, st₁⟩, ha, h⟩ := bind_eq_some_iff.mp h
  obtain ⟨st₂, helems, heq⟩ := map_eq_some_iff.mp h
  obtain ⟨-, rfl, rfl⟩ : shadow = v ∧ [] = ts ∧ st₂ = st' := by simpa using heq
  obtain ⟨hgrow, rfl, -, hused, -⟩ := allocShadow_spec (fun _ => False) hwf ha
  exact ⟨rfl, hgrow.trans (preElems_grows (hgrow.wf hwf) hmarshal (by omega) helems)⟩

end

/-- **Any pointer** leaves the arena well formed; an array tracks nothing. -/
theorem prePtr_grows (h : prePtr c s raw p st = some (v, ts, st')) :
    (s.sizeKind = .ptrArray → ts = []) ∧ Grows c.grate (fun _ => False) st st' := by
  induction s using ArgSpec.elementInduction generalizing raw p v ts st st' with
  | buffer s hs =>
    rw [prePtr_buffer hs] at h
    refine ⟨fun hk => absurd hk hs, ?_⟩
    split at h
    · exact (grows_of_null _ h).2.2
    · exact preBuffer_grows hwf h
  | raw s hs hel =>
    rw [prePtr_raw hs hel] at h
    split at h
    · exact (grows_of_null _ h).2.imp_left fun h _ => h
    · refine (prePtrArray_grows hwf (fun _ heq => ?_) h).imp_left fun h _ => h
      cases heq
      exact Grows.refl _ _
  | element s e hs hel ih =>
    rw [prePtr_element hs hel] at h
    split at h
    · exact (grows_of_null _ h).2.imp_left fun h _ => h
    · refine (prePtrArray_grows hwf (fun hwf hq => ?_) h).imp_left fun h _ => h
      obtain ⟨⟨v', ts', st₂⟩, he, heq⟩ := map_eq_some_iff.mp hq
      cases heq
      exact (ih hwf he).2

end Shape

end LindWasm.Marshal

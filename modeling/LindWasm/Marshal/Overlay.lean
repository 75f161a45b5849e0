import LindWasm.Machinery.Patch
import LindWasm.Marshal.Total

/-!
# Marshal/Overlay — the way in, over an arena that still holds an earlier call

    arena as it was left  --  what this dispatch stores  -->  what the handler is given

The arena is reset by setting its fill to 0; its bytes stay. Where every struct whose fields are
read was copied in first (`WalksOwn`), no step on the way in reads one of them: whatever they are,
the dispatch traps before the handler, or it hands out the same shadows, records the same pointers
and stores the same bytes (`uniform_preCall`).
-/

namespace LindWasm.Marshal

open Option List Patch

variable {c : Call} {m₀ : Mem}

/-! ## What the way in may read -/

/-- The two memories differ at most in the arena. -/
def ArenaOnly (g : Placement) (m m' : Mem) : Prop :=
  Mem.SameOff g.arena (g.arena + arenaSize) m m'

/-- The computation is the same whatever the arena holds. -/
abbrev Settled {β γ : Type*} (c : Call) (m₀ : Mem) (lift : β → Mem → γ) (Q : β → Prop)
    (F : Mem → Option γ) : Prop := Uniform (ArenaOnly c.grate m₀) lift Q F

/-- The walk over a struct reads the field: it may hold a shadow's address, or a pointer field takes
its size from it. -/
def Layout.Reads (l : Layout) (f : Field) : Prop :=
  f.Walked ∨ ∃ f' ∈ l.fields, f'.TouchedPtr ∧ f'.spec.sizeKind = .fromArg ∧
    l.fields[f'.spec.sizeArgIndex]? = some f

/-- A struct of which fields are read is copied in, and none of these wraps. -/
def StructIn (s : ArgSpec) (l : Layout) : Prop :=
  ∀ f ∈ l.fields, l.Reads f → s.copiesIn ∧ f.offset + 4 < 2 ^ 32

/-- The size of a buffer is found without the arena: an element's is read through the null pointer
if it is to come from an argument. -/
def SizeApart (c : Call) (top : Bool) (s : ArgSpec) : Prop :=
  top = false → s.sizeKind = .fromArg ∨ s.sizeKind = .fromArgPointee →
    8 * rawArgsMax ≤ c.grate.arena

/-- Following the pointer `p`, the marshaller reads nothing in the arena that it has not stored
there. -/
def WalksOwn (c : Call) : Bool → ArgSpec → ℕ → Prop
  | _, .mk _ _ .ptrArray _ _ _ none _ _ _, _ => True
  | _, .mk _ _ .ptrArray _ _ _ (some e) _ _ _, p =>
      ∀ ps, readElems c p ptrArrayMax 0 = some ps → ∀ q ∈ ps, WalksOwn c false e q
  | top, s, _ =>
      SizeApart c top s ∧ ∀ l, s.layout = some l → l.kind = .struct → StructIn s l

variable {top : Bool} {s : ArgSpec} {p shadow i a size hi hi' : ℕ} {m : Mem} {q : Patch}
  {o' : Overlay}

theorem walksOwn_buffer (hs : s.sizeKind ≠ .ptrArray) :
    WalksOwn c top s p ↔
      SizeApart c top s ∧ ∀ l, s.layout = some l → l.kind = .struct → StructIn s l := by
  obtain ⟨_, _, sk, _⟩ := s
  cases sk with
  | ptrArray => exact absurd rfl hs
  | none | const | fromArg | fromArgPointee | cstr => exact Iff.rfl

theorem walksOwn_element {e : ArgSpec} (hs : s.sizeKind = .ptrArray) (hel : s.element = some e) :
    WalksOwn c top s p ↔
      ∀ ps, readElems c p ptrArrayMax 0 = some ps → ∀ q ∈ ps, WalksOwn c false e q := by
  cases s
  cases hs
  cases hel
  exact Iff.rfl

/-! ## States over an unknown arena -/

/-- A state on the way in, apart from the memory the dispatch found. -/
structure Overlay where
  used : ℕ
  stored : Patch
  shadows : List Block

namespace Overlay

/-- The state, over the memory it found. -/
def on (o : Overlay) (m : Mem) : PreState := ⟨o.used, m.patch o.stored, o.shadows⟩

/-- A word stored. -/
def put (o : Overlay) (a v : ℕ) : Overlay :=
  { o with stored := (Patch.word a v).atop o.stored }

/-- Everything stored lies below the fill. -/
structure WF (g : Placement) (o : Overlay) : Prop where
  used_le : o.used ≤ arenaSize
  inside : ∀ a, (o.stored a).isSome → g.arena ≤ a ∧ a < g.arena + o.used

/-- More is taken, and more is stored. -/
structure Grows (g : Placement) (o o' : Overlay) : Prop where
  used : o.used ≤ o'.used
  stored : ∀ a, (o.stored a).isSome → (o'.stored a).isSome
  wf : o'.WF g

variable {g : Placement} {o o' o'' : Overlay}

theorem Grows.refl (hwf : o.WF g) : o.Grows g o := ⟨le_rfl, fun _ => id, hwf⟩

theorem Grows.trans (h : o.Grows g o') (h' : o'.Grows g o'') : o.Grows g o'' :=
  ⟨h.used.trans h'.used, fun a ha => h'.stored a (h.stored a ha), h'.wf⟩

theorem put_on (a v : ℕ) (m : Mem) :
    { o.on m with mem := (o.on m).mem.putWord a v } = (o.put a v).on m := by
  rw [on, put, on, patch_atop, putWord_eq_patch]

theorem grows_atop (hwf : o.WF g) (hq : ∀ a, (q a).isSome → g.arena ≤ a ∧ a < g.arena + o.used) :
    o.Grows g { o with stored := q.atop o.stored } := by
  refine ⟨le_rfl, fun a ha => isSome_atop.mpr (.inr ha), hwf.used_le, fun a ha => ?_⟩
  rcases isSome_atop.mp ha with h | h
  · exact hq a h
  · exact hwf.inside a h

theorem grows_put {v : ℕ} (hwf : o.WF g) (hlo : g.arena ≤ a) (hhi : a + 4 ≤ g.arena + o.used) :
    o.Grows g (o.put a v) := by
  refine grows_atop hwf fun b hb => ?_
  have := isSome_word.mp hb
  omega

/-- Off the arena, the state's memory is the one it found. -/
theorem on_mem_of_off (hwf : o.WF g) (ha : a < g.arena ∨ g.arena + arenaSize ≤ a) (m : Mem) :
    (o.on m).mem a = m a := by
  refine patch_eq_of_none (not_isSome_iff_eq_none.mp fun hsome => ?_)
  have := hwf.inside a hsome
  have := hwf.used_le
  omega

end Overlay

/-- A pair whose second component is a state. -/
def onSnd {α : Type} (x : α × Overlay) (m : Mem) : α × PreState := (x.1, x.2.on m)

/-- A pair whose first component is a state. -/
def onFst {α : Type} (x : Overlay × α) (m : Mem) : PreState × α := (x.1.on m, x.2)

/-- A triple whose last component is a state. -/
def onThird {α β : Type} (x : α × β × Overlay) (m : Mem) : α × β × PreState :=
  (x.1, x.2.1, x.2.2.on m)

variable {o : Overlay} {marshal : ℕ → PreState → Option (ℕ × PreState)}

/-! ## The primitives -/

section

variable (hwf : o.WF c.grate)
include hwf

theorem uniform_allocShadow (size : ℕ) : Settled c m₀ onSnd
      (fun x => o.Grows c.grate x.2 ∧ x.1 = c.grate.arena + o.used ∧
        x.1 + size ≤ c.grate.arena + x.2.used)
      fun m => allocShadow c (o.on m) size := by
  refine uniform_map (z := marshalAlloc c.grate o.used size) (fun _ _ => rfl) ?_
  rintro ⟨addr, used⟩ halloc
  refine ⟨(addr, { o with used, shadows := o.shadows ++ [⟨addr, size⟩] }), fun m => rfl, ?_⟩
  obtain ⟨haddr, hle, hfit⟩ := marshalAlloc_eq_some halloc hwf.used_le
  refine ⟨⟨by dsimp only; omega, fun _ => id, hfit, fun a ha => ?_⟩, haddr, by dsimp only; omega⟩
  have := hwf.inside a ha
  dsimp only
  omega

theorem uniform_copyIn {copies : Bool} {srcPtr : ℕ} (hlo : c.grate.arena ≤ shadow)
    (hhi : shadow + size ≤ c.grate.arena + o.used) : Settled c m₀ Overlay.on
      (fun o' => o.Grows c.grate o' ∧ o'.used = o.used ∧
        (copies → o'.stored.Covers shadow size))
      fun m => copyIn c (o.on m) copies srcPtr shadow size := by
  refine uniform_ite (fun _ => uniform_map (fun _ _ => rfl) fun host _ => ⟨{ o with
    stored := (Patch.window shadow c.source.bytes host size).atop o.stored }, fun m => ?_,
    Overlay.grows_atop hwf fun a ha => ?_, rfl, fun _ i hi => ?_⟩) fun hno =>
      uniform_some o ⟨Overlay.Grows.refl hwf, rfl, fun h i hi => ?_⟩
  · rw [Overlay.on, Overlay.on, patch_atop, blit_eq_patch]
  · have := isSome_window.mp ha
    omega
  · exact isSome_atop.mpr (.inl (isSome_window.mpr (by omega)))
  · exact absurd ⟨by omega, h⟩ hno

/-! ## Sizes -/

/-- The slots at the null pointer, where the arena lies above them. -/
theorem rawArg_none_eq (hm : ArenaOnly c.grate m₀ m) (hi : i < rawArgsMax)
    (hlow : 8 * rawArgsMax ≤ c.grate.arena) :
    rawArg none (o.on m).mem i = rawArg none (o.on m₀).mem i := by
  have hbyte : ∀ a < c.grate.arena, (o.on m).mem a = (o.on m₀).mem a := fun a ha => by
    rw [Overlay.on_mem_of_off hwf (.inl ha), Overlay.on_mem_of_off hwf (.inl ha)]
    exact hm a (.inl ha)
  have hlo : (o.on m).mem.getWord (8 * i) = (o.on m₀).mem.getWord (8 * i) :=
    Mem.getWord_congr fun k hk => hbyte _ (by omega)
  have hhi : (o.on m).mem.getWord (8 * i + 4) = (o.on m₀).mem.getWord (8 * i + 4) :=
    Mem.getWord_congr fun k hk => hbyte _ (by omega)
  rw [rawArg, rawArg, hlo, hhi]

theorem computeSize_eq (hm : ArenaOnly c.grate m₀ m) (hs : SizeApart c top s) :
    computeSize c s (rawOf c top) (o.on m).mem = computeSize c s (rawOf c top) (o.on m₀).mem := by
  cases top with
  | true => rfl
  | false =>
    rw [computeSize, computeSize]
    cases hsk : s.sizeKind with
    | const | cstr | ptrArray | none => rfl
    | fromArg | fromArgPointee =>
      dsimp only
      split
      · rfl
      · next hi =>
        rw [show rawOf c false = none from rfl,
          rawArg_none_eq hwf hm (not_le.mp hi) (hs rfl (by simp [hsk]))]

theorem ptrSize_eq (hm : ArenaOnly c.grate m₀ m) (hs : SizeApart c top s) :
    ptrSize c s (rawOf c top) (o.on m).mem p = ptrSize c s (rawOf c top) (o.on m₀).mem p := by
  rw [ptrSize, ptrSize]
  cases s.sizeKind with
  | cstr | ptrArray | none => rfl
  | const | fromArg | fromArgPointee => exact computeSize_eq hwf hm hs

end

/-! ## The walk over a struct -/

/-- The word at `a` was stored, inside `[lo, hi)`. -/
structure WordIn (p : Patch) (lo hi a : ℕ) : Prop where
  covers : p.Covers a 4
  lo_le : lo ≤ a
  le_hi : a + 4 ≤ hi

/-- What the way back reads of the struct at `shadow` for a tracked field was stored: the field
itself, and the one its size is taken from. -/
structure Track.Known (p : Patch) (layout : Option Layout) (shadow hi : ℕ) (t : Track) : Prop where
  slot : WordIn p shadow hi (u32 (shadow + t.offset))
  sibling : ∀ l f, layout = some l → t.spec.sizeKind = .fromArg →
    l.fields[t.spec.sizeArgIndex]? = some f → WordIn p shadow hi (u32 (shadow + f.offset))

theorem WordIn.mono {p : Patch} {lo : ℕ} (h : WordIn p lo hi a)
    (hpq : ∀ b, (p b).isSome → (q b).isSome) (hhi : hi ≤ hi') : WordIn q lo hi' a :=
  ⟨h.covers.mono hpq, h.lo_le, h.le_hi.trans hhi⟩

theorem Track.Known.mono {p : Patch} {layout : Option Layout} {t : Track}
    (h : t.Known p layout shadow hi) (hpq : ∀ b, (p b).isSome → (q b).isSome) (hhi : hi ≤ hi') :
    t.Known q layout shadow hi' :=
  ⟨h.slot.mono hpq hhi, fun l f hl hs hf => (h.sibling l f hl hs hf).mono hpq hhi⟩

/-- The struct at `shadow` lies below the fill, and is stored if fields of it are read. -/
structure Held (c : Call) (o : Overlay) (l : Layout) (shadow allocSize : ℕ) : Prop where
  wf : o.WF c.grate
  lo : c.grate.arena ≤ shadow
  hi : shadow + allocSize ≤ c.grate.arena + o.used
  stored : ∀ f ∈ l.fields, l.Reads f → o.stored.Covers shadow allocSize ∧ f.offset + 4 < 2 ^ 32

section Walk

variable {l : Layout} {shadow allocSize childSrc : ℕ} {f : Field} {tracks : List Track}

section

variable (h : Held c o l shadow allocSize)
include h

theorem Held.grows (hg : o.Grows c.grate o') : Held c o' l shadow allocSize := by
  refine ⟨hg.wf, h.lo, ?_, fun f hf hr => ⟨(h.stored f hf hr).1.mono hg.stored, ?_⟩⟩
  · have := h.hi
    have := hg.used
    omega
  · exact (h.stored f hf hr).2

section

variable (hf : f ∈ l.fields) (hr : l.Reads f) (hrange : ¬ OutOfRange f.offset allocSize)
include hf hr hrange

theorem Held.wordIn : WordIn o.stored shadow (shadow + allocSize) (u32 (shadow + f.offset)) := by
  obtain ⟨hcov, hoff⟩ := h.stored f hf hr
  have hfit : shadow + allocSize < 2 ^ 32 := by
    have := c.grate.arena_fits
    have := h.wf.used_le
    have := h.hi
    omega
  obtain ⟨hin, hslot⟩ := slot_eq hrange hoff hfit
  rw [hslot]
  exact ⟨hcov.sub (by omega) (by omega), by omega, by omega⟩

theorem Held.getWord_eq (m m' : Mem) :
    (o.on m).mem.getWord (u32 (shadow + f.offset))
      = (o.on m').mem.getWord (u32 (shadow + f.offset)) :=
  (h.wordIn hf hr hrange).covers.getWord

end

theorem Held.childSize_eq (hf : f ∈ l.fields) (hptr : f.TouchedPtr) (childSrc : ℕ) (m m' : Mem) :
    childSize c l f.spec (o.on m).mem shadow allocSize childSrc
      = childSize c l f.spec (o.on m').mem shadow allocSize childSrc := by
  rw [childSize, childSize]
  cases hsk : f.spec.sizeKind with
  | cstr | const | fromArgPointee | ptrArray | none => rfl
  | fromArg =>
    dsimp only
    cases hsib : l.fields[f.spec.sizeArgIndex]? with
    | none => rfl
    | some sibling =>
      have hr : l.Reads sibling := .inr ⟨f, hf, hptr, hsk, hsib⟩
      dsimp only
      split
      · rfl
      · next hrange => rw [h.getWord_eq (mem_of_getElem? hsib) hr hrange m m']

/-- A size taken from a sibling comes from a word of the struct. -/
theorem Held.sibling_wordIn (hf : f ∈ l.fields) (hptr : f.TouchedPtr) {mem : Mem}
    {sibling : Field} (hsize : childSize c l f.spec mem shadow allocSize childSrc = some size)
    (hsk : f.spec.sizeKind = .fromArg) (hsib : l.fields[f.spec.sizeArgIndex]? = some sibling) :
    WordIn o.stored shadow (shadow + allocSize) (u32 (shadow + sibling.offset)) := by
  rw [childSize, hsk] at hsize
  rw [hsib] at hsize
  obtain ⟨hrange, -⟩ := ite_none_left_eq_some.mp hsize
  exact h.wordIn (mem_of_getElem? hsib) (.inr ⟨f, hf, hptr, hsk, hsib⟩) hrange

end

/-- The outcome of a walk: what is tracked is known. -/
def Walked (c : Call) (o : Overlay) (l : Layout) (shadow : ℕ) (tracks : List Track)
    (x : Overlay × List Track) : Prop :=
  o.Grows c.grate x.1 ∧ ∃ new, x.2 = tracks ++ new ∧
    ∀ t ∈ new, t.Known x.1.stored (some l) shadow (c.grate.arena + x.1.used)

theorem walked_self (hwf : o.WF c.grate) : Walked c o l shadow tracks (o, tracks) :=
  ⟨Overlay.Grows.refl hwf, [], by simp, by simp⟩

section

variable (h : Held c o l shadow allocSize)
include h

section

variable (hf : f ∈ l.fields)
include hf

section

variable (hrange : ¬ OutOfRange f.offset allocSize)
include hrange

theorem uniform_walkHandleField (hw : f.Walked) :
    Settled c m₀ Overlay.on (o.Grows c.grate)
      fun m => walkHandleField c shadow f (o.on m) := by
  have hword := h.wordIn hf (.inl hw) hrange
  have hlo := h.lo
  have hhi := h.hi
  have hslot := hword.lo_le
  have hend := hword.le_hi
  have htok := fun m => h.getWord_eq hf (.inl hw) hrange m m₀
  generalize (o.on m₀).mem.getWord (u32 (shadow + f.offset)) = tok at htok
  simp only [walkHandleField, htok]
  refine uniform_ite (fun _ => uniform_some o (Overlay.Grows.refl h.wf)) fun _ =>
    uniform_map (fun _ _ => rfl) fun real _ => ⟨_, Overlay.put_on _ _, Overlay.grows_put h.wf ?_ ?_⟩
  · omega
  · omega

/-- A child takes a shadow of its own, its bytes go there, and its address into the field. -/
theorem uniform_walkChild (hptr : f.TouchedPtr)
    (hn : childSize c l f.spec (o.on m₀).mem shadow allocSize childSrc = some size) :
    Settled c m₀ onFst (Walked c o l shadow tracks)
      fun m => (allocShadow c (o.on m) size).bind fun x =>
        (copyIn c x.2 f.spec.copiesIn childSrc x.1 size).map fun st =>
          ({ st with mem := st.mem.putWord (u32 (shadow + f.offset)) (u32 x.1) },
            tracks ++ [⟨f.offset, childSrc, x.1, size, c.sourceCage, c.grateCage, f.spec⟩]) := by
  have hword := h.wordIn hf (.inl hptr.walked) hrange
  refine (uniform_allocShadow h.wf size).bind ?_
  rintro ⟨child, o₁⟩ ⟨hgrow₁, haddr, hend⟩
  have hlo := h.lo
  have hhi := h.hi
  have hslot := hword.lo_le
  have hslot' := hword.le_hi
  have hfrom : c.grate.arena ≤ child := by omega
  dsimp only [onSnd]
  refine (uniform_copyIn hgrow₁.wf hfrom hend).map ?_
  rintro o₂ ⟨hgrow₂, hused, -⟩
  have hused₁ := hgrow₁.used
  have hgrow₃ : o₂.Grows c.grate (o₂.put (u32 (shadow + f.offset)) (u32 child)) :=
    Overlay.grows_put hgrow₂.wf (by omega) (by omega)
  have hgrow := hgrow₁.trans (hgrow₂.trans hgrow₃)
  have hle : shadow + allocSize ≤ c.grate.arena + o₂.used := by omega
  refine ⟨(_, _), fun m => Prod.ext (Overlay.put_on _ _ _) rfl, hgrow, _, rfl, ?_⟩
  rintro t ht
  obtain rfl := mem_singleton.mp ht
  refine ⟨hword.mono hgrow.stored hle, ?_⟩
  rintro _ sibling ⟨⟩ hsk hsib
  exact (h.sibling_wordIn hf hptr hn hsk hsib).mono hgrow.stored hle

theorem uniform_walkPtrField (hptr : f.TouchedPtr) :
    Settled c m₀ onFst (Walked c o l shadow tracks)
      fun m => walkPtrField c l shadow allocSize f (o.on m) tracks := by
  have hsrc := fun m => h.getWord_eq hf (.inl hptr.walked) hrange m m₀
  generalize (o.on m₀).mem.getWord (u32 (shadow + f.offset)) = childSrc at hsrc
  simp only [walkPtrField, hsrc]
  refine uniform_ite (fun _ => uniform_some (o, tracks) (walked_self h.wf)) fun _ => ?_
  exact uniform_bind (fun m _ => h.childSize_eq hf hptr childSrc m m₀) fun size hn =>
    uniform_walkChild h hf hrange hptr hn

end

/-- **One field of the walk.** -/
theorem uniform_walkField :
    Settled c m₀ onFst (Walked c o l shadow tracks)
      fun m => walkField c l shadow allocSize f (o.on m) tracks := by
  have hself : Settled c m₀ onFst (Walked c o l shadow tracks)
      fun m => some (o.on m, tracks) := uniform_some (o, tracks) (walked_self h.wf)
  refine uniform_ite (fun _ => hself) fun htouched => ?_
  have htouched := not_not.mp htouched
  cases hk : f.spec.kind with
  | scalar => exact hself
  | handle =>
    refine uniform_ite (fun _ => uniform_none) fun hrange => ?_
    have hw : f.Walked := ⟨htouched, by rw [hk]; decide⟩
    refine (uniform_walkHandleField h hf hrange hw).map fun o' ho' => ?_
    exact ⟨(o', tracks), fun _ => rfl, ho', [], by simp, by simp⟩
  | ptr =>
    exact uniform_ite (fun _ => uniform_none) fun hrange =>
      uniform_walkPtrField h hf hrange ⟨htouched, hk⟩

end

theorem uniform_walkFields {fs : List Field} (hfs : ∀ f ∈ fs, f ∈ l.fields) :
    Settled c m₀ onFst (Walked c o l shadow tracks)
      fun m => walkFields c l shadow allocSize fs (o.on m) tracks := by
  induction fs generalizing o tracks with
  | nil => exact uniform_some (o, tracks) (walked_self h.wf)
  | cons f fs ih =>
    refine (uniform_walkField h (hfs f mem_cons_self)).bind ?_
    rintro ⟨o₁, tracks₁⟩ ⟨hgrow₁, new, hnew, hknown⟩
    refine (ih (h.grows hgrow₁) fun f' hf' => hfs f' (mem_cons_of_mem _ hf')).mono ?_
    rintro ⟨o₂, tracks₂⟩ ⟨hgrow₂, new', hnew', hknown'⟩
    refine ⟨hgrow₁.trans hgrow₂, new ++ new', ?_, fun t ht => ?_⟩
    · rw [hnew', hnew, append_assoc]
    · rcases mem_append.mp ht with ht | ht
      · exact (hknown t ht).mono hgrow₂.stored (Nat.add_le_add_left hgrow₂.used _)
      · exact hknown' t ht

theorem uniform_walkStruct : Settled c m₀ onFst (Walked c o l shadow [])
      fun m => walkStruct c l shadow allocSize (o.on m) := by
  refine uniform_ite (fun _ => uniform_none) fun _ => ?_
  refine uniform_bind (z := marshalAlloc c.grate o.used _) (fun _ _ => rfl) ?_
  rintro ⟨addr, used⟩ halloc
  obtain ⟨-, hle, hfit⟩ := marshalAlloc_eq_some halloc h.wf.used_le
  have hgrow : o.Grows c.grate { o with used } := by
    refine ⟨by dsimp only; omega, fun _ => id, hfit, fun a ha => ?_⟩
    have := h.wf.inside a ha
    dsimp only
    omega
  refine Uniform.mono (uniform_walkFields (h.grows hgrow) fun _ => id) ?_
  rintro x ⟨hgrow', hnew⟩
  exact ⟨hgrow.trans hgrow', hnew⟩

end

end Walk

/-! ## One pointer -/

/-- The outcome of following a pointer: it leads above the fill, and what is tracked is known. -/
structure Handed (c : Call) (o : Overlay) (s : ArgSpec) (p : ℕ) (x : ℕ × List Track × Overlay) :
    Prop where
  grows : o.Grows c.grate x.2.2
  above : p ≠ 0 → c.grate.arena + o.used ≤ x.1
  known : ∀ t ∈ x.2.1, t.Known x.2.2.stored s.layout x.1 (c.grate.arena + x.2.2.used)

theorem uniform_null {F : Mem → Option (ℕ × List Track × PreState)} (hwf : o.WF c.grate)
    (h : p ≠ 0 → Settled c m₀ onThird (Handed c o s p) F) :
    Settled c m₀ onThird (Handed c o s p)
      fun m => if p = 0 then some (0, [], o.on m) else F m :=
  uniform_ite (fun hp => uniform_some (0, [], o)
    ⟨Overlay.Grows.refl hwf, fun hne => absurd hp hne, by simp⟩) h

/-- What is left of a buffer once its bytes are there: the walk, if it is a struct. -/
theorem uniform_walkLayout {allocSize : ℕ} (hgrow : o.Grows c.grate o')
    (haddr : shadow = c.grate.arena + o.used)
    (hend : shadow + allocSize ≤ c.grate.arena + o'.used)
    (hcov : s.copiesIn → o'.stored.Covers shadow allocSize)
    (hin : ∀ l, s.layout = some l → l.kind = .struct → StructIn s l) :
    Settled c m₀ onThird (Handed c o s p) fun m =>
      match s.layout with
      | some lo =>
          if lo.kind = .struct then
            (walkStruct c lo shadow allocSize (o'.on m)).map fun x => (shadow, x.2, x.1)
          else some (shadow, [], o'.on m)
      | none => some (shadow, [], o'.on m) := by
  have hplain : Settled c m₀ onThird (Handed c o s p) fun m =>
      some (shadow, [], o'.on m) :=
    uniform_some (shadow, [], o') ⟨hgrow, fun _ => haddr.ge, by simp⟩
  cases hl : s.layout with
  | none => exact hplain
  | some lo =>
    refine uniform_ite (fun hk => ?_) fun _ => hplain
    have hheld : Held c o' lo shadow allocSize := by
      refine ⟨hgrow.wf, by omega, hend, fun f hf hr => ?_⟩
      obtain ⟨hcopies, hoff⟩ := hin lo hl hk f hf hr
      exact ⟨hcov hcopies, hoff⟩
    refine (uniform_walkStruct hheld).map ?_
    rintro ⟨o₂, tracks⟩ ⟨hgrow', new, hnew, hknown⟩
    obtain rfl : tracks = new := hnew
    exact ⟨(shadow, tracks, o₂), fun m => rfl, hgrow.trans hgrow', fun _ => haddr.ge, hl ▸ hknown⟩

/-- **A pointer that is not an array.** -/
theorem uniform_preBuffer (hwf : o.WF c.grate) (hs : SizeApart c top s)
    (hin : ∀ l, s.layout = some l → l.kind = .struct → StructIn s l) :
    Settled c m₀ onThird (Handed c o s p)
      fun m => preBuffer c s (rawOf c top) p (o.on m) := by
  refine uniform_bind (fun m hm => ptrSize_eq hwf hm hs) fun size _ => ?_
  refine (uniform_allocShadow hwf _).bind ?_
  rintro ⟨shadow, o₁⟩ ⟨hgrow₁, haddr, hend⟩
  have hfrom : c.grate.arena ≤ shadow := by omega
  dsimp only [onSnd]
  refine (uniform_copyIn hgrow₁.wf hfrom hend).bind ?_
  rintro o₂ ⟨hgrow₂, hused, hcov⟩
  exact uniform_walkLayout (hgrow₁.trans hgrow₂) haddr (by omega) hcov hin

/-- The elements of an array, if each of them is followed uniformly. -/
theorem uniform_preElems {ps : List ℕ}
    (hmarshal : ∀ q ∈ ps, ∀ o : Overlay, o.WF c.grate → Settled c m₀ onSnd
      (fun x => o.Grows c.grate x.2) fun m => marshal q (o.on m)) (hwf : o.WF c.grate)
    (hlo : c.grate.arena ≤ shadow)
    (hhi : shadow + 4 * (i + ps.length + 1) ≤ c.grate.arena + o.used) :
    Settled c m₀ Overlay.on (o.Grows c.grate)
      fun m => preElems marshal shadow i ps (o.on m) := by
  induction ps generalizing i o with
  | nil =>
    have hput : o.Grows c.grate (o.put (shadow + 4 * i) 0) :=
      Overlay.grows_put hwf (by omega) (by rw [length_nil] at hhi; omega)
    exact (uniform_some _ hput).congr fun m _ => congrArg some (Overlay.put_on _ _ _)
  | cons q ps ih =>
    rw [length_cons] at hhi
    refine (hmarshal q mem_cons_self o hwf).bind ?_
    rintro ⟨child, o₁⟩ hgrow₁
    dsimp only at hgrow₁
    have hused := hgrow₁.used
    have hput : o₁.Grows c.grate (o₁.put (shadow + 4 * i) (u32 child)) :=
      Overlay.grows_put hgrow₁.wf (by omega) (by omega)
    have hput_used : (o₁.put (shadow + 4 * i) (u32 child)).used = o₁.used := rfl
    have hrest := ih (i := i + 1) (fun q' hq' => hmarshal q' (mem_cons_of_mem _ hq')) hput.wf
      (by omega)
    refine (hrest.mono fun o₂ h₂ => hgrow₁.trans (hput.trans h₂)).congr fun m _ => ?_
    rw [← Overlay.put_on]
    rfl

theorem uniform_prePtrArray
    (hmarshal : ∀ ps, readElems c p ptrArrayMax 0 = some ps → ∀ q ∈ ps, ∀ o : Overlay,
      o.WF c.grate → Settled c m₀ onSnd (fun x => o.Grows c.grate x.2)
        fun m => marshal q (o.on m)) (hwf : o.WF c.grate) :
    Settled c m₀ onThird (Handed c o s p)
      fun m => prePtrArray c marshal p (o.on m) := by
  refine uniform_bind (fun _ _ => rfl) fun ps hps => ?_
  refine (uniform_allocShadow hwf _).bind ?_
  rintro ⟨shadow, o₁⟩ ⟨hgrow₁, haddr, hend⟩
  dsimp only [onSnd]
  refine (uniform_preElems (hmarshal ps hps) hgrow₁.wf (by omega) (by omega)).map ?_
  intro o₂ hgrow₂
  exact ⟨(shadow, [], o₂), fun _ => rfl, hgrow₁.trans hgrow₂, fun _ => haddr.ge, by simp⟩

/-- **One pointer**, followed to its elements and fields. -/
theorem uniform_prePtr (hwf : o.WF c.grate) (hown : p ≠ 0 → WalksOwn c top s p) :
    Settled c m₀ onThird (Handed c o s p)
      fun m => prePtr c s (rawOf c top) p (o.on m) := by
  induction s using ArgSpec.elementInduction generalizing top p o with
  | buffer s hs =>
    simp only [prePtr_buffer hs]
    refine uniform_null hwf fun hp => ?_
    obtain ⟨hsize, hin⟩ := (walksOwn_buffer hs).mp (hown hp)
    exact uniform_preBuffer hwf hsize hin
  | raw s hs hel =>
    simp only [prePtr_raw hs hel]
    refine uniform_null hwf fun _ => uniform_prePtrArray (fun ps _ q _ o ho => ?_) hwf
    exact uniform_some (q, o) (Overlay.Grows.refl ho)
  | element s e hs hel ih =>
    simp only [prePtr_element hs hel]
    refine uniform_null hwf fun hp => uniform_prePtrArray (fun ps hps q hq o ho => ?_) hwf
    have hq : Settled c m₀ onThird (Handed c o e q)
        fun m => prePtr c e (rawOf c false) q (o.on m) :=
      ih ho fun _ => (walksOwn_element hs hel).mp (hown hp) ps hps q hq
    exact hq.map fun x hx => ⟨(x.1, x.2.2), fun _ => rfl, hx.grows⟩

/-! ## The arguments -/

/-- A record of the way in: its shadow lies above `lo`, and what is tracked for it is known. -/
structure Placed (p : Patch) (lo hi : ℕ) (r : Shadow) : Prop where
  lo_le : lo ≤ r.shadowPtr
  known : ∀ t ∈ r.tracks, t.Known p r.layout r.shadowPtr hi

/-- What is tracked for `r` lies below the shadow of `r'`. -/
def Before (p : Patch) (r r' : Shadow) : Prop :=
  ∀ t ∈ r.tracks, t.Known p r.layout r.shadowPtr r'.shadowPtr

/-- The outcome of a run over arguments. -/
structure Marshalled (c : Call) (o : Overlay) (x : List ℕ × List Shadow × Overlay) : Prop where
  grows : o.Grows c.grate x.2.2
  placed : ∀ r ∈ x.2.1,
    Placed x.2.2.stored (c.grate.arena + o.used) (c.grate.arena + x.2.2.used) r
  ordered : x.2.1.Pairwise (Before x.2.2.stored)

/-- The outcome of one argument. -/
structure Passed (c : Call) (o : Overlay) (x : ℕ × Option Shadow × Overlay) : Prop where
  grows : o.Grows c.grate x.2.2
  placed : ∀ r, x.2.1 = some r →
    Placed x.2.2.stored (c.grate.arena + o.used) (c.grate.arena + x.2.2.used) r

theorem passed_ptr {x : ℕ × List Track × Overlay} (hp : p ≠ 0) (h : Handed c o s p x) :
    Passed c o (x.1, if x.1 = u32 p then none else some ⟨i, p, x.1, size, s.ptrDirection,
      c.sourceCage, c.grateCage, s.layout, x.2.1⟩, x.2.2) := by
  refine ⟨h.grows, fun r hr => ?_⟩
  obtain ⟨-, hr⟩ := ite_none_left_eq_some.mp hr
  cases hr
  exact ⟨h.above hp, h.known⟩

theorem uniform_plain (hwf : o.WF c.grate) (v : ℕ) :
    Settled c m₀ onThird (Passed c o) fun m => some (v, none, o.on m) :=
  uniform_some (v, none, o) ⟨Overlay.Grows.refl hwf, by simp⟩

theorem uniform_preArg (hwf : o.WF c.grate)
    (hown : s.kind = .ptr → c.rawArgs i ≠ 0 → WalksOwn c true s (c.rawArgs i)) :
    Settled c m₀ onThird (Passed c o) fun m => preArg c i s (o.on m) := by
  simp only [preArg]
  cases hk : s.kind with
  | scalar => exact uniform_plain hwf (c.rawArgs i)
  | handle =>
    refine uniform_ite (fun _ => uniform_plain hwf 0) fun _ => ?_
    exact uniform_map (fun _ _ => rfl) fun real _ =>
      ⟨(real, none, o), fun _ => rfl, Overlay.Grows.refl hwf, by simp⟩
  | ptr =>
    refine uniform_ite (fun _ => uniform_plain hwf 0) fun hraw => ?_
    refine (uniform_prePtr hwf (hown hk)).bind fun x hx => ?_
    -- the size recorded is computed again, from the arguments alone
    exact uniform_map (z := shadowSize c s m₀ (c.rawArgs i)) (fun _ _ => rfl) fun size _ =>
      ⟨(_, _, _), fun _ => rfl, passed_ptr hraw hx⟩

/-- **All the arguments.** -/
theorem uniform_preArgs {ss : List ArgSpec} (hwf : o.WF c.grate)
    (hown : ∀ (j : ℕ) s, ss[j]? = some s → s.kind = .ptr → c.rawArgs (i + j) ≠ 0 →
      WalksOwn c true s (c.rawArgs (i + j))) :
    Settled c m₀ onThird (Marshalled c o)
      fun m => preArgs c i ss (o.on m) := by
  induction ss generalizing i o with
  | nil =>
    exact uniform_some ([], [], o) ⟨Overlay.Grows.refl hwf, by simp, List.Pairwise.nil⟩
  | cons s ss ih =>
    refine (uniform_preArg hwf (hown 0 s rfl)).bind ?_
    rintro ⟨arg, record, o₁⟩ ⟨hgrow₁, hrec⟩
    have hown' : ∀ (j : ℕ) s', ss[j]? = some s' → s'.kind = .ptr → c.rawArgs (i + 1 + j) ≠ 0 →
        WalksOwn c true s' (c.rawArgs (i + 1 + j)) := fun j s' hs => by
      rw [Nat.add_right_comm]
      exact hown (j + 1) s' hs
    refine (ih hgrow₁.wf hown').map ?_
    rintro ⟨args, records, o₂⟩ ⟨hgrow₂, hrecs, hord⟩
    have hused := hgrow₁.used
    have hused' := Nat.add_le_add_left hgrow₂.used c.grate.arena
    refine ⟨(arg :: args, record.toList ++ records, o₂), fun _ => rfl, hgrow₁.trans hgrow₂,
      fun r hr => ?_, pairwise_append.mpr ⟨?_, hord, fun r hr r' hr' t ht => ?_⟩⟩
    · rcases mem_append.mp hr with hr | hr
      · have h := hrec r (mem_toList.mp hr)
        exact ⟨h.lo_le, fun t ht => (h.known t ht).mono hgrow₂.stored hused'⟩
      · have h := hrecs r hr
        have hlo := h.lo_le
        exact ⟨by omega, h.known⟩
    · cases record with
      | none => exact List.Pairwise.nil
      | some r => exact pairwise_singleton _ _
    · have h := hrec r (mem_toList.mp hr)
      exact (h.known t ht).mono hgrow₂.stored (hrecs r' hr').lo_le

/-- No pointer argument of the call makes the marshaller read what it has not stored. -/
def CallWalksOwn (c : Call) (spec : MarshalSpec) (nargs : ℕ) : Prop :=
  ∀ (i : ℕ) s, (spec.args.take nargs)[i]? = some s → s.kind = .ptr → c.rawArgs i ≠ 0 →
    WalksOwn c true s (c.rawArgs i)

/-- **The way in** does not see what an earlier dispatch left in the arena: whatever it is, it ends
in a trap, or it ends with the same arguments, records and shadows and the same bytes stored. -/
theorem uniform_preCall {spec : MarshalSpec} {nargs : ℕ} (hown : CallWalksOwn c spec nargs) :
    Settled c m₀ onThird (Marshalled c ⟨0, fun _ => none, []⟩)
      (preCall c spec nargs) := by
  refine uniform_ite (fun _ => uniform_none) fun _ => ?_
  have hwf : Overlay.WF c.grate ⟨0, fun _ => none, []⟩ :=
    ⟨Nat.zero_le _, fun a ha => absurd ha (by simp)⟩
  have hargs : ∀ (j : ℕ) s, (spec.args.take nargs)[j]? = some s → s.kind = .ptr →
      c.rawArgs (0 + j) ≠ 0 → WalksOwn c true s (c.rawArgs (0 + j)) := fun j s => by
    rw [Nat.zero_add]
    exact hown j s
  exact uniform_preArgs hwf hargs

end LindWasm.Marshal

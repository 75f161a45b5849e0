import Mathlib.Data.List.Pairwise
import LindWasm.Marshal.Dispatch
import LindWasm.Marshal.Positions

/-!
# Marshal/CopyBack — what the calling cage gets to see

    handler's memory -- tracked field --> translated --┐
                     └- any other field -- as it is ---┴--> the struct, in one copy

A struct is copied back whole. A pointer field that was given a shadow is checked and translated
first; a field that was not — a handle, a pointer that was null on entry, a pointer of a pointee —
goes back with whatever the handler, or the marshaller itself, left there. Where the copied structs
have no such field (`BackOk`), whatever the handler does, every word written at a pointer position
is safe (`dispatch_safe`).
-/

namespace LindWasm.Marshal

open Option List

variable {c : Call} {st st' : PreState}

/-! ## Safe words -/

/-- A position in a shadow of this dispatch, translated to the calling cage: from an argument's
pointer, or from a pointer the cage has in a field. -/
def Translated (c : Call) (shadows : List Shadow) (v : ℕ) : Prop :=
  ∃ s ∈ shadows, s.sourcePtr = c.rawArgs s.argIndex ∧
    ((∃ offset ≤ s.size, v = s.sourcePtr + offset) ∨
      ∃ t ∈ s.tracks, t.origSrcPtr = c.wordAt s.sourcePtr t.offset ∧
        ∃ offset ≤ t.shadowLen, v = t.origSrcPtr + offset)

/-- A word that tells the calling cage nothing of the grate: null, what was there, or an address of
its own. -/
def SafeWord (c : Call) (shadows : List Shadow) (dest offset v : ℕ) : Prop :=
  v = 0 ∨ v = c.wordAt dest offset ∨ Translated c shadows v

/-- Every word written at a pointer position — a pointer or handle field of a struct, or the slot
of an OUT pointer-to-pointer — is safe. -/
def SafeWrite (c : Call) (shadows : List Shadow) (w : Write) : Prop :=
  match w.role with
  | .slot => SafeWord c shadows w.dest 0 (w.data.getWord 0)
  | .buffer none => True
  | .buffer (some l) => l.kind = .struct → ∀ f ∈ l.fields, f.spec.kind ≠ .scalar →
      f.offset + 4 ≤ w.len → SafeWord c shadows w.dest f.offset (w.data.getWord f.offset)

/-- A pointer that is returned is null, an argument of the caller, or an address of its own. -/
def SafeReturn (c : Call) (shadows : List Shadow) (ret : ReturnSpec) (v : ℕ) : Prop :=
  match ret.kind with
  | .ptrAliasArg | .ptrIntoArg =>
      v = 0 ∨ (∃ i < rawArgsMax, v = c.rawArgs i) ∨ Translated c shadows v
  | .void | .scalar | .handle | .forceLocal => True

/-! ## What the call must be like -/

/-- The pointee has neither pointers nor handles. -/
def ArgSpec.NoPtrHandle (s : ArgSpec) : Prop :=
  ∀ l, s.layout = some l → l.kind = .struct → ∀ f ∈ l.fields, f.spec.kind = .scalar

/-- The field is a pointer or a handle, and goes back with the struct. -/
def Exposed (s : ArgSpec) (l : Layout) (f : Field) : Prop :=
  f.spec.kind ≠ .scalar ∧ if l.structSize = 0 then s.sizeKind = .cstr
    else f.offset + 4 ≤ l.structSize

/-- Two walked fields, in this order: the first is found null, or they share no byte, or they are
one slot and the second is not asked about. -/
def KnownSlots (c : Call) (blank : Prop) (s : ArgSpec) (p : ℕ) (asked : Field → Prop)
    (g f : Field) : Prop :=
  g.Walked → f.Walked → FoundNull c blank s p g.offset ∨
    (g.offset + 4 ≤ f.offset ∨ f.offset + 4 ≤ g.offset) ∨
    g.offset = f.offset ∧ ¬ (f.TouchedPtr ∧ asked f)

/-- The walk reads every pointer that is asked about as it was found. -/
structure WalkKnown (c : Call) (blank : Prop) (s : ArgSpec) (l : Layout) (p : ℕ)
    (asked : Field → Prop) : Prop where
  offsets : ∀ f ∈ l.fields, f.Walked → f.offset + 4 < 2 ^ 32
  slots : l.fields.Pairwise (KnownSlots c blank s p asked)

/-- A struct at `p` that can go back: each pointer or handle in it is a touched pointer that is not
null on entry, and what its pointers lead to and is copied back too has none in its bytes. -/
structure BackOk (c : Call) (s : ArgSpec) (l : Layout) (p : ℕ) : Prop where
  known : (∃ f ∈ l.fields, Exposed s l f ∨
      f.TouchedPtr ∧ f.spec.copiesOut ∧ ¬ f.spec.NoPtrHandle) →
    WalkKnown c False s l p fun _ => True
  exposed : ∀ f ∈ l.fields, Exposed s l f →
    s.sizeKind ≠ .ptrArray ∧ s.copiesIn ∧ f.TouchedPtr ∧ c.wordAt p f.offset ≠ 0
  children : ∀ f ∈ l.fields, f.TouchedPtr → f.spec.copiesOut → f.spec.NoPtrHandle ∨
    Pointee c False s l p f fun _ len =>
      f.spec.FieldsIn (·.spec.kind ≠ .scalar) len fun _ => False

/-! ## What is recorded on the way in -/

/-- A track of a field that was not found null; if it is asked about, with the caller's pointer and
the size that is declared. -/
def TrackOf (c : Call) (blank : Prop) (s : ArgSpec) (l : Layout) (p : ℕ) (asked : Field → Prop)
    (t : Track) : Prop :=
  ∃ f ∈ l.fields, f.TouchedPtr ∧ ¬ FoundNull c blank s p f.offset ∧ t.offset = f.offset ∧
    t.spec = f.spec ∧ (asked f → (s.copiesIn → t.origSrcPtr = c.wordAt p f.offset) ∧
      ∀ P : ℕ → ℕ → Prop, Pointee c blank s l p f P → P t.origSrcPtr t.shadowLen)

/-- What is tracked of the fields `done` of a struct, as it is used on the way back. -/
structure TracksOk (c : Call) (blank : Prop) (s : ArgSpec) (l : Layout) (p shadow : ℕ)
    (asked : Field → Prop) (done : List Field) (tracks : List Track) : Prop where
  field : ∀ t ∈ tracks, TrackOf c blank s l p asked t ∧ u32 (shadow + t.offset) = shadow + t.offset
  covers : s.copiesIn → ∀ f ∈ done, f.TouchedPtr → asked f → c.wordAt p f.offset ≠ 0 →
    ∃ t ∈ tracks, t.offset = f.offset

variable {s as : ArgSpec} {p v candidate size i base len offset sourcePtr : ℕ} {mem : Mem}
  {args : List ℕ} {shadows : List Shadow} {raw : Option (ℕ → ℕ)} {tracks : List Track}
  {onePast : Bool} {l : Layout} {checked : List (Track × ℕ × ℕ)} {blank : Prop}
  {asked : Field → Prop}

section Walk

variable {st₀ : PreState} {shadow allocSize : ℕ} {f : Field} {done : List Field}
  {tracks' : List Track} (hbelow : shadow + allocSize ≤ c.grate.arena + st₀.used)
  (hbytes : s.copiesIn → ∀ i < allocSize, st₀.mem (shadow + i)
    = c.source.bytes (ensureHostAddr c.source.base p + i))
include hbelow hbytes

/-- **A field that may be tracked**: its pointer is read as it was found. -/
theorem TracksOk.step (hknown : WalkKnown c blank s l p asked) (hf : f ∈ l.fields)
    (hdone : ∀ g ∈ done, g ∈ l.fields ∧ KnownSlots c blank s p asked g f) (hw : f.Walked)
    (hne : ¬ FoundNull c blank s p f.offset) (hwf : st.WF c.grate)
    (hgrow : Grows c.grate (OffSlots (FoundNull c blank s p ·.offset) shadow done) st₀ st)
    (hI : TracksOk c blank s l p shadow asked done tracks)
    (h : walkField c l shadow allocSize f st tracks = some (st', tracks')) :
    TracksOk c blank s l p shadow asked (done ++ [f]) tracks' := by
  have hused := hgrow.used
  have hfits := hwf.fits hbelow hused
  obtain ⟨-, hin, hfill, hsame, -⟩ := walkField_spec hwf (by omega) (hknown.offsets f hf) h
  have hin := hin hw
  by_cases hptr : f.TouchedPtr
  · have hoff : asked f → ∀ g ∈ done, g.Walked → ¬ FoundNull c blank s p g.offset →
        g.offset + 4 ≤ f.offset ∨ f.offset + 4 ≤ g.offset := fun hasked g hg hwg hneg => by
      rcases (hdone g hg).2 hwg hw with hnull | hoff | ⟨-, hnot⟩
      · exact absurd hnull hneg
      · exact hoff
      · exact absurd ⟨hptr, hasked⟩ hnot
    have hword (hasked : asked f) (hcopies : s.copiesIn) :
        st.mem.getWord (shadow + f.offset) = c.wordAt p f.offset :=
      (hgrow.word_eq hbelow hin (hoff hasked)).trans (getWord_eq_wordAt (hbytes hcopies) hin)
    rcases hfill hptr with ⟨hzero, -, rfl⟩ | ⟨t, rfl, ht⟩
    · refine ⟨hI.field, fun hcopies g hg hp hasked hnz => ?_⟩
      rcases mem_append.mp hg with hg | hg
      · exact hI.covers hcopies g hg hp hasked hnz
      · obtain rfl := mem_singleton.mp hg
        exact absurd ((hword hasked hcopies).symm.trans hzero) hnz
    · have htrack : TrackOf c blank s l p asked t :=
        ⟨f, hf, hptr, hne, ht.offset, ht.spec, fun hasked =>
          ⟨fun hcopies => ht.src.trans (hword hasked hcopies), fun P hP =>
            hP.of_child hwf hbelow hgrow (fun g hg => (hdone g hg).1) hin hbytes ht hne
              (hoff hasked)⟩⟩
      refine ⟨fun t' ht' => ?_, fun hcopies g hg hp hasked hnz => ?_⟩
      · rcases mem_append.mp ht' with ht' | ht'
        · exact hI.field t' ht'
        · obtain rfl := mem_singleton.mp ht'
          exact ⟨htrack, by rw [ht.offset]; exact Nat.mod_eq_of_lt (by omega)⟩
      · rcases mem_append.mp hg with hg | hg
        · obtain ⟨t', ht', heq⟩ := hI.covers hcopies g hg hp hasked hnz
          exact ⟨t', mem_append_left _ ht', heq⟩
        · obtain rfl := mem_singleton.mp hg
          exact ⟨t, mem_append_right _ mem_cons_self, ht.offset⟩
  · rw [hsame hptr]
    refine ⟨hI.field, fun hcopies g hg hp hasked hnz => ?_⟩
    rcases mem_append.mp hg with hg | hg
    · exact hI.covers hcopies g hg hp hasked hnz
    · exact absurd (mem_singleton.mp hg ▸ hp) hptr

/-- **The tracks of a walk.** -/
theorem walkFields_tracks (hknown : WalkKnown c blank s l p asked) (hwf : st₀.WF c.grate)
    (hnull : ∀ f ∈ l.fields, f.Walked → FoundNull c blank s p f.offset →
      f.offset + 4 ≤ allocSize → st₀.mem.getWord (shadow + f.offset) = 0)
    (h : walkFields c l shadow allocSize l.fields st₀ [] = some (st', tracks)) :
    TracksOk c blank s l p shadow asked l.fields tracks := by
  refine (walkFields_rule
    (I := fun done _ tracks => TracksOk c blank s l p shadow asked done tracks) hbelow
    (FoundNull c blank s p ·.offset) hknown.offsets hnull hknown.slots ?_ ?_
    (fun hf hdone hw hne hwf hgrow hI hstep =>
      hI.step hbelow hbytes hknown hf hdone hw hne hwf hgrow hstep)
    [] l.fields rfl hwf (Grows.refl _ _) ⟨by simp, by simp⟩ h).2
  · intro g f hslots hwg hne hw hnull
    rcases hslots hwg hw with hnullg | hoff | ⟨heq, -⟩
    · exact absurd hnullg hne
    · exact hoff
    · exact absurd (heq ▸ hnull) hne
  · intro done f st tracks hI hnull
    refine ⟨hI.field, fun hcopies g hg hp hasked hnz => ?_⟩
    rcases mem_append.mp hg with hg | hg
    · exact hI.covers hcopies g hg hp hasked hnz
    · obtain rfl := mem_singleton.mp hg
      have hzero := (hnull hp.walked).1
      rw [FoundNull, if_pos hcopies] at hzero
      exact absurd hzero hnz

end Walk

/-- **The tracks of a pointer**: those of its struct's touched pointer fields. -/
theorem prePtr_tracks (hwf : st.WF c.grate)
    (hblank : blank → BlankFrom c.grate (c.grate.arena + st.used) st.mem) (hp : p ≠ 0)
    (h : prePtr c s raw p st = some (v, tracks, st')) :
    (∀ t ∈ tracks, s.sizeKind ≠ .ptrArray ∧ ∃ l f, s.layout = some l ∧ l.kind = .struct ∧
        f ∈ l.fields ∧ f.TouchedPtr ∧ t.offset = f.offset ∧ t.spec = f.spec) ∧
      ∀ l asked, s.sizeKind ≠ .ptrArray → s.layout = some l → l.kind = .struct →
        WalkKnown c blank s l p asked → TracksOk c blank s l p v asked l.fields tracks := by
  by_cases hs : s.sizeKind = .ptrArray
  · obtain rfl := (prePtr_grows hwf h).1 hs
    exact ⟨by simp, fun l asked hne => absurd hs hne⟩
  · rw [prePtr_buffer hs, if_neg hp] at h
    obtain ⟨size, st₁, -, hcopied, hcase⟩ := preBuffer_spec hwf h
    have hwf₁ := hcopied.grows.wf hwf
    have hle := hwf₁.used_le
    have haddr := hcopied.addr
    have hbelow := hcopied.below
    rcases hcase with ⟨hplain, rfl, -⟩ | ⟨l, hl, hk, hwalk⟩
    · exact ⟨by simp, fun l asked _ hl hk => absurd hk (hplain l hl)⟩
    · refine ⟨fun t ht => ⟨hs, ?_⟩, fun l' asked _ hl' _ hknown => ?_⟩
      · obtain ⟨f, hf, hptr, hoff, hspec, -⟩ := ((walkFields_grows hwf₁ hcopied.arena_le hbelow
          hwalk).2 t ht).resolve_left not_mem_nil
        exact ⟨l, f, hl, hk, hf, hptr, hoff, hspec⟩
      · obtain rfl := mem_unique hl hl'
        exact walkFields_tracks hbelow hcopied.bytes hknown hwf₁ (fun f _ _ hnull hin =>
          hnull.getWord hin hcopied.bytes fun hcopies hb i hi => by
            rw [hcopied.uncopied hcopies]
            exact hblank hb _ (by omega) (by omega)) hwalk

/-- The record of an argument's shadow. -/
structure Recorded (c : Call) (blank : Prop) (as : ArgSpec) (s : Shadow) : Prop where
  kind : as.kind = .ptr
  raw : c.rawArgs s.argIndex ≠ 0
  sourcePtr : s.sourcePtr = c.rawArgs s.argIndex
  direction : s.direction = as.ptrDirection
  layout : s.layout = as.layout
  size : ∀ l, as.layout = some l →
    if l.structSize = 0 then as.sizeKind = .cstr ∨ s.size = 0 else s.size = l.structSize
  tracked : ∀ t ∈ s.tracks, as.sizeKind ≠ .ptrArray ∧ ∃ l f, as.layout = some l ∧
    l.kind = .struct ∧ f ∈ l.fields ∧ f.TouchedPtr ∧ t.offset = f.offset ∧ t.spec = f.spec
  tracks : ∀ l asked, as.sizeKind ≠ .ptrArray → as.layout = some l → l.kind = .struct →
    WalkKnown c blank as l s.sourcePtr asked →
      TracksOk c blank as l s.sourcePtr s.shadowPtr asked l.fields s.tracks

theorem Recorded.copiesOut {s : Shadow} (hrec : Recorded c blank as s)
    (hdir : s.direction = .ptrOut ∨ s.direction = .ptrInout) : as.copiesOut := by
  rw [hrec.direction] at hdir
  exact decide_eq_true hdir

theorem shadowSize_struct (hl : s.layout = some l) (h : shadowSize c s mem p = some size) :
    if l.structSize = 0 then s.sizeKind = .cstr ∨ size = 0 else size = l.structSize := by
  simp only [shadowSize, hl, bind_some] at h
  split at h
  · next hc => rw [if_pos hc.2]; exact .inl hc.1
  · cases h
    split
    · next h0 => exact .inr h0
    · rfl

theorem preArg_grows {record : Option Shadow} (hwf : st.WF c.grate)
    (h : preArg c i as st = some (v, record, st')) :
    Grows c.grate (fun _ => False) st st' ∧ ∀ s ∈ record, s.argIndex = i := by
  rcases preArg_cases h with ⟨rfl, rfl, -⟩ | ⟨-, -, tracks, size, hptr, -, hrecord⟩
  · exact ⟨Grows.refl _ _, nofun⟩
  · exact ⟨(prePtr_grows hwf hptr).2, fun s hs => hrecord s hs ▸ rfl⟩

theorem preArg_recorded {record : Option Shadow} (hwf : st.WF c.grate)
    (hblank : blank → BlankFrom c.grate (c.grate.arena + st.used) st.mem)
    (h : preArg c i as st = some (v, record, st')) : ∀ s ∈ record, Recorded c blank as s := by
  intro s hs
  rcases preArg_cases h with ⟨rfl, -, -⟩ | ⟨hk, hraw, tracks, size, hptr, hsize, hrecord⟩
  · exact absurd hs nofun
  · obtain rfl := hrecord s hs
    obtain ⟨htracked, htracks⟩ := prePtr_tracks hwf hblank hraw hptr
    exact ⟨hk, hraw, rfl, rfl, rfl, fun l hl => shadowSize_struct hl hsize, htracked, htracks⟩

section Records

variable {spec : MarshalSpec} {nargs : ℕ} {R : ArgSpec → Shadow → PreState → Prop}
  (hone : ∀ {i v as record st st'}, st.WF c.grate →
    (blank → BlankFrom c.grate (c.grate.arena + st.used) st.mem) →
    preArg c i as st = some (v, record, st') → ∀ s ∈ record, R as s st')
  (hgrows : ∀ {as s st st'}, R as s st → Grows c.grate (fun _ => False) st st' → R as s st')
include hone hgrows

/-- What every argument's record has when it is made, and the rest of the way in does not take away,
every record has in the end. -/
theorem preArgs_forall {ss : List ArgSpec} (hwf : st.WF c.grate)
    (hblank : blank → BlankFrom c.grate (c.grate.arena + st.used) st.mem)
    (h : preArgs c i ss st = some (args, shadows, st')) :
    Grows c.grate (fun _ => False) st st' ∧
      ∀ s ∈ shadows, ∃ j as, s.argIndex = i + j ∧ ss[j]? = some as ∧ R as s st' := by
  induction ss generalizing i st args shadows with
  | nil =>
    obtain ⟨-, rfl, rfl⟩ := by simpa [preArgs] using h
    exact ⟨Grows.refl _ _, by simp⟩
  | cons as ss ih =>
    obtain ⟨⟨v, record, st₁⟩, harg, h⟩ := bind_eq_some_iff.mp h
    obtain ⟨⟨args₁, shadows₁, st₂⟩, hrest, heq⟩ := map_eq_some_iff.mp h
    obtain ⟨-, rfl, rfl⟩ := by simpa using heq
    obtain ⟨hgrow, hindex⟩ := preArg_grows hwf harg
    obtain ⟨hgrow', hshadows⟩ := ih (hgrow.wf hwf) (fun hb => hgrow.blankFrom (hblank hb)) hrest
    refine ⟨hgrow.trans hgrow', fun s hs => ?_⟩
    rcases mem_append.mp hs with hs | hs
    · have hs := mem_toList.mp hs
      exact ⟨0, as, hindex s hs, rfl, hgrows (hone hwf hblank harg s hs) hgrow'⟩
    · obtain ⟨j, as', hi, has, hrec⟩ := hshadows s hs
      exact ⟨j + 1, as', by omega, has, hrec⟩

theorem preCall_forall (hblank : blank → BlankFrom c.grate c.grate.arena mem)
    (h : preCall c spec nargs mem = some (args, shadows, st)) :
    ∀ s ∈ shadows, ∃ as, (spec.args.take nargs)[s.argIndex]? = some as ∧ R as s st := by
  intro s hs
  obtain ⟨-, hargs⟩ := ite_none_left_eq_some.mp h
  obtain ⟨j, as, hj, has, hr⟩ :=
    (preArgs_forall hone hgrows (wf_init c.grate mem) hblank hargs).2 s hs
  rw [Nat.zero_add] at hj
  exact ⟨as, hj ▸ has, hr⟩

end Records

/-- **Every record is that of a pointer argument.** -/
theorem preCall_recorded {spec : MarshalSpec} {nargs : ℕ} (blank : Prop)
    (hblank : blank → BlankFrom c.grate c.grate.arena mem)
    (h : preCall c spec nargs mem = some (args, shadows, st)) :
    ∀ s ∈ shadows, ∃ as, (spec.args.take nargs)[s.argIndex]? = some as ∧ Recorded c blank as s :=
  preCall_forall (R := fun as s _ => Recorded c blank as s)
    (fun hwf hblank harg => preArg_recorded hwf hblank harg) (fun hrec _ => hrec) hblank h

/-! ## Translation stays inside the shadow -/

/-- The candidates that lie in a shadow. -/
def Accepts (base len : ℕ) (onePast : Bool) (candidate : ℕ) : Prop :=
  base ≤ candidate ∧ (candidate < base + len ∨ candidate = base + len ∧ onePast)

theorem validateShadowOffset_eq_some :
    validateShadowOffset base len candidate onePast = some offset ↔
      len ≤ 2 ^ 32 - 1 - base ∧ Accepts base len onePast candidate ∧ candidate = base + offset := by
  unfold validateShadowOffset Accepts
  split_ifs <;> simp only [some.injEq, false_iff] <;> grind

theorem validateShadowOffset_le
    (h : validateShadowOffset base len candidate onePast = some offset) : offset ≤ len := by
  obtain ⟨-, hin, rfl⟩ := validateShadowOffset_eq_some.mp h
  have := hin.2
  omega

/-- Null stays null, and the rest is moved to the source if it fits there. -/
theorem translateShadowPtr_eq_some :
    translateShadowPtr base len onePast sourcePtr candidate = some v ↔
      candidate = 0 ∧ v = 0 ∨ candidate ≠ 0 ∧ candidate < 2 ^ 32 ∧ len ≤ 2 ^ 32 - 1 - base ∧
        Accepts base len onePast candidate ∧ v = sourcePtr + (candidate - base) ∧ v < 2 ^ 32 := by
  rw [translateShadowPtr]
  by_cases hzero : candidate = 0
  · simp [hzero, eq_comm]
  · have hnot : ¬ (candidate = 0 ∧ v = 0) := fun h => hzero h.1
    rw [if_neg hzero, ite_none_left_eq_some, bind_eq_some_iff, or_iff_right hnot,
      and_iff_right hzero]
    constructor
    · rintro ⟨hfit, offset, hoff, h⟩
      obtain ⟨hlen, hin, rfl⟩ := validateShadowOffset_eq_some.mp hoff
      obtain ⟨hover, h⟩ := ite_none_left_eq_some.mp h
      cases h
      exact ⟨by omega, hlen, hin, by omega, by omega⟩
    · rintro ⟨hlt, hlen, hin, rfl, hfit⟩
      have hge := hin.1
      refine ⟨by omega, candidate - base, validateShadowOffset_eq_some.mpr ?_, if_neg (by omega)⟩
      exact ⟨hlen, hin, by omega⟩

theorem translateShadowPtr_cases
    (h : translateShadowPtr base len onePast sourcePtr candidate = some v) :
    v < 2 ^ 32 ∧ (v = 0 ∨ ∃ offset ≤ len, v = sourcePtr + offset) := by
  rcases translateShadowPtr_eq_some.mp h with ⟨-, rfl⟩ | ⟨-, -, -, hin, hv, hlt⟩
  · exact ⟨by decide, .inl rfl⟩
  · have := hin.2
    exact ⟨hlt, .inr ⟨candidate - base, by omega, hv⟩⟩

/-- **The pointer that replaces the grate's** is null, or inside the pointee it came from. -/
theorem checkTrack_cases {s : Shadow} {t : Track} (h : checkTrack c s mem t = some (size, v)) :
    v < 2 ^ 32 ∧ (v = 0 ∨ ∃ offset ≤ t.shadowLen, v = t.origSrcPtr + offset) ∧
      (0 < size → t.spec.copiesOut) := by
  obtain ⟨-, h⟩ := ite_none_left_eq_some.mp h
  dsimp only at h
  split at h
  · cases h
    exact ⟨by decide, .inl rfl, by simp⟩
  · obtain ⟨offset, hoff, h⟩ := bind_eq_some_iff.mp h
    obtain ⟨hsrc, h⟩ := ite_none_left_eq_some.mp h
    obtain ⟨hover, h⟩ := ite_none_left_eq_some.mp h
    cases h
    have heq : u32 (t.origSrcPtr + offset) = t.origSrcPtr + offset := Nat.mod_eq_of_lt (by omega)
    rw [heq]
    refine ⟨by omega, .inr ⟨offset, validateShadowOffset_le hoff, rfl⟩, fun hpos => ?_⟩
    split at hpos
    · assumption
    · exact absurd hpos (by decide)

/-- What goes back for a field is no more than its shadow holds. -/
theorem checkTrack_size_le {s : Shadow} {t : Track} (h : checkTrack c s mem t = some (size, v)) :
    size ≤ t.shadowLen := by
  obtain ⟨-, h⟩ := ite_none_left_eq_some.mp h
  dsimp only at h
  split at h
  · cases h
    exact Nat.zero_le _
  · obtain ⟨offset, hoff, h⟩ := bind_eq_some_iff.mp h
    obtain ⟨-, h⟩ := ite_none_left_eq_some.mp h
    obtain ⟨-, h⟩ := ite_none_left_eq_some.mp h
    cases h
    split
    · split
      · unfold nominalSize
        cases s.layout with
        | none => exact Nat.zero_le _
        | some l => exact min_le_right _ _
      · exact validateShadowOffset_le hoff
    · exact Nat.zero_le _

theorem checkTracks_spec {s : Shadow} {ts : List Track}
    (h : checkTracks c s mem ts = some checked) :
    (∀ t ∈ ts, ∃ x ∈ checked, x.1 = t) ∧
      ∀ x ∈ checked, x.1 ∈ ts ∧ checkTrack c s mem x.1 = some x.2 := by
  induction ts generalizing checked with
  | nil =>
    cases h
    simp
  | cons t ts ih =>
    obtain ⟨r, hr, h⟩ := bind_eq_some_iff.mp h
    obtain ⟨rest, hrest, rfl⟩ := map_eq_some_iff.mp h
    obtain ⟨hof, hall⟩ := ih hrest
    refine ⟨forall_mem_cons.mpr ⟨⟨_, mem_cons_self, rfl⟩, fun t' ht' => ?_⟩,
      forall_mem_cons.mpr ⟨⟨mem_cons_self, hr⟩, fun x hx => ?_⟩⟩
    · obtain ⟨x, hx, heq⟩ := hof t' ht'
      exact ⟨x, mem_cons_of_mem _ hx, heq⟩
    · exact (hall x hx).imp_left (mem_cons_of_mem _)

section Sanitize

variable {shadow offset : ℕ} {mem : Mem} {checked : List (Track × ℕ × ℕ)}

theorem sanitize_off (hslot : ∀ x ∈ checked, u32 (shadow + x.1.offset) = shadow + x.1.offset)
    (h : ∀ x ∈ checked, x.1.offset + 4 ≤ offset ∨ offset + 4 ≤ x.1.offset) :
    (sanitize shadow mem checked).getWord (shadow + offset) = mem.getWord (shadow + offset) := by
  induction checked generalizing mem with
  | nil => rfl
  | cons x xs ih =>
    obtain ⟨hx, hslot⟩ := forall_mem_cons.mp hslot
    obtain ⟨happart, h⟩ := forall_mem_cons.mp h
    rw [sanitize, foldl_cons, hx]
    exact (ih hslot h).trans (Mem.getWord_of_sameOff Mem.sameOff_putWord (by omega))

/-- **The word of a tracked field** is the translated pointer of a field at its offset. -/
theorem sanitize_word (hslot : ∀ x ∈ checked, u32 (shadow + x.1.offset) = shadow + x.1.offset)
    (hlt : ∀ x ∈ checked, x.2.2 < 2 ^ 32)
    (h : ∀ x ∈ checked, x.1.offset = offset ∨ (x.1.offset + 4 ≤ offset ∨ offset + 4 ≤ x.1.offset))
    (hex : ∃ x ∈ checked, x.1.offset = offset) :
    ∃ x ∈ checked, (sanitize shadow mem checked).getWord (shadow + offset) = x.2.2 := by
  induction checked generalizing mem with
  | nil => exact absurd hex (by simp)
  | cons x xs ih =>
    obtain ⟨hx, hslot⟩ := forall_mem_cons.mp hslot
    obtain ⟨hxlt, hlt⟩ := forall_mem_cons.mp hlt
    obtain ⟨hxo, h⟩ := forall_mem_cons.mp h
    rw [sanitize, foldl_cons, hx]
    by_cases hlater : ∃ y ∈ xs, y.1.offset = offset
    · obtain ⟨y, hy, heq⟩ := @ih (mem.putWord (shadow + x.1.offset) x.2.2) hslot hlt h hlater
      exact ⟨y, mem_cons_of_mem _ hy, heq⟩
    · -- it is the last field at this offset
      have hoff : x.1.offset = offset := by
        obtain ⟨y, hy, heq⟩ := hex
        rcases mem_cons.mp hy with rfl | hy
        · exact heq
        · exact absurd ⟨y, hy, heq⟩ hlater
      refine ⟨x, mem_cons_self, (sanitize_off hslot fun y hy => ?_).trans ?_⟩
      · exact (h y hy).resolve_left fun heq => hlater ⟨y, hy, heq⟩
      · rw [hoff, Mem.getWord_putWord hxlt]

end Sanitize

/-! ## Every write is safe -/

/-- The writes made, whether the way back goes on or traps. -/
def Post.writes : Post PostState → List Write
  | .error ws => ws
  | .ok st => st.writes

/-- A step of the way back, and the next one unless it has trapped. -/
def Post.andThen (x : Post PostState) (f : PostState → Post PostState) : Post PostState :=
  match x with
  | .error ws => .error ws
  | .ok st => f st

/-- Every write made satisfies `P`, also before a trap, and a way back that goes on ends in `Q`. -/
def Ensures (P : Write → Prop) (Q : PostState → Prop) : Post PostState → Prop
  | .error ws => ∀ w ∈ ws, P w
  | .ok st => (∀ w ∈ st.writes, P w) ∧ Q st

section Ensures

variable {P : Write → Prop} {Q R : PostState → Prop} {x y : Post PostState} {post : PostState}

theorem Ensures.writes (h : Ensures P Q x) : ∀ w ∈ Post.writes x, P w := by
  cases x with
  | error ws => exact h
  | ok st => exact h.1

theorem Ensures.mono (h : Ensures P Q x) (hQR : ∀ st, Q st → R st) : Ensures P R x := by
  cases x with
  | error ws => exact h
  | ok st => exact ⟨h.1, hQR st h.2⟩

theorem ensures_ite {p : Prop} [Decidable p] (hx : p → Ensures P Q x) (hy : ¬ p → Ensures P Q y) :
    Ensures P Q (if p then x else y) := by
  split
  · next hp => exact hx hp
  · next hp => exact hy hp

/-- **One step after another.** -/
theorem Ensures.andThen {f : PostState → Post PostState} (h : Ensures P Q x)
    (hf : ∀ st, (∀ w ∈ st.writes, P w) → Q st → Ensures P R (f st)) :
    Ensures P R (Post.andThen x f) := by
  cases x with
  | error ws => exact h
  | ok st => exact hf st h.1 h.2

section

variable (h : ∀ w ∈ post.writes, P w)
include h

theorem ensures_copyOut {role : Role} {dest : ℕ} {data : Mem} (hw : P ⟨role, dest, len, data⟩) :
    Ensures P (fun st => st.mem = post.mem) (copyOut c post role dest len data) := by
  have hall : ∀ w ∈ post.writes ++ [⟨role, dest, len, data⟩], P w := fun w hmem =>
    (mem_append.mp hmem).elim (h w) fun hlast => mem_singleton.mp hlast ▸ hw
  exact ensures_ite (fun _ => ensures_ite (fun _ => hall) fun _ => ⟨hall, rfl⟩) fun _ => h

theorem ensures_copyChildren
    (hP : ∀ x ∈ checked, 0 < x.2.1 → ∀ mem,
      P ⟨.buffer x.1.spec.layout, x.1.origSrcPtr, x.2.1, bytesFrom mem x.1.shadowStart⟩) :
    Ensures P (fun st => st.mem = post.mem) (copyChildren c checked post) := by
  induction checked generalizing post with
  | nil => exact ⟨h, rfl⟩
  | cons x xs ih =>
    obtain ⟨t, size, v⟩ := x
    obtain ⟨hx, hP⟩ := forall_mem_cons.mp hP
    refine ensures_ite (fun hpos => ?_) fun _ => ih h hP
    refine (ensures_copyOut h (hx hpos post.mem)).andThen fun st hw hmem => ?_
    rw [← hmem]
    exact ih hw hP

/-- The memory as it was, or with the struct's tracked fields sanitized. -/
def Sanitized (c : Call) (s : Shadow) (mem mem' : Mem) : Prop :=
  mem' = mem ∨ ∃ checked, checkTracks c s mem s.tracks = some checked ∧
    mem' = sanitize s.shadowPtr mem checked

/-- Once every tracked field has been checked, the pointees may go back, and the struct as it is
sanitized. -/
def StructWrites (P : Write → Prop) (c : Call) (s : Shadow) (mem : Mem) : Prop :=
  ∀ checked, checkTracks c s mem s.tracks = some checked →
    (∀ x ∈ checked, 0 < x.2.1 → ∀ mem,
      P ⟨.buffer x.1.spec.layout, x.1.origSrcPtr, x.2.1, bytesFrom mem x.1.shadowStart⟩) ∧
    (0 < s.size → P ⟨.buffer s.layout, s.sourcePtr, s.size,
      bytesFrom (sanitize s.shadowPtr mem checked) s.shadowPtr⟩)

/-- **A struct's way back** writes nothing unless they have. -/
theorem ensures_postStruct {s : Shadow}
    (hP : (s.direction = .ptrOut ∨ s.direction = .ptrInout) → StructWrites P c s post.mem) :
    Ensures P (fun st => Sanitized c s post.mem st.mem) (postStruct c s post) := by
  refine ensures_ite (fun _ => ⟨h, .inl rfl⟩) fun hdir => ensures_ite (fun _ => h) fun _ => ?_
  cases allocScratch c post.used s.tracks.length with
  | none => exact h
  | some used =>
    cases hchecked : checkTracks c s post.mem s.tracks with
    | none => exact h
    | some checked =>
      obtain ⟨hchildren, hown⟩ := hP (by tauto) checked hchecked
      refine Ensures.andThen (ensures_copyChildren h hchildren) fun st hw hmem => ?_
      refine ensures_ite (fun hpos => ?_) fun _ => ⟨hw, .inr ⟨checked, hchecked, hmem⟩⟩
      rw [hmem]
      exact (ensures_copyOut hw (hown hpos)).mono fun st' hmem' =>
        .inr ⟨checked, hchecked, hmem'.trans hmem⟩

/-- **What the way back of one shadow writes**: its slot, a struct and what its fields lead to, or
its bytes. -/
theorem ensures_postShadow {s : Shadow}
    (hslot : as.outPtrIntoArg1 ≠ 0 → ∀ inner v, slotValue c as shadows inner = some v →
      P ⟨.slot, s.sourcePtr, 4, Mem.wordBytes v⟩)
    (hstruct : as.outPtrIntoArg1 = 0 → s.layout.isSome →
      (s.direction = .ptrOut ∨ s.direction = .ptrInout) → StructWrites P c s post.mem)
    (hflat : s.layout = none → 0 < s.size → (s.direction = .ptrOut ∨ s.direction = .ptrInout) →
      P ⟨.buffer none, s.sourcePtr, s.size, bytesFrom post.mem s.shadowPtr⟩) :
    Ensures P (fun st => Sanitized c s post.mem st.mem) (postShadow c as shadows s post) := by
  refine ensures_ite (fun has => ?_) fun has => ?_
  · cases hv : slotValue c as shadows (post.mem.getWord s.shadowPtr) with
    | none => exact h
    | some v => exact (ensures_copyOut h (hslot has _ v hv)).mono fun _ => .inl
  · refine ensures_ite (fun hl => ensures_postStruct h (hstruct (not_not.mp has) hl)) fun hl => ?_
    refine ensures_ite (fun hback => ?_) fun _ => ⟨h, .inl rfl⟩
    have hnone := not_isSome_iff_eq_none.mp hl
    exact (ensures_copyOut h (hflat hnone hback.1 hback.2)).mono fun _ => .inl

end

/-- **The way back, shadow by shadow.** -/
theorem ensures_postShadows {spec : MarshalSpec} {ss : List Shadow}
    (hone : ∀ s ∈ ss, ∃ as, spec.args[s.argIndex]? = some as ∧ ∀ post : PostState,
      (∀ w ∈ post.writes, P w) →
        Ensures P (fun st => Sanitized c s post.mem st.mem) (postShadow c as shadows s post))
    (h : ∀ w ∈ post.writes, P w) :
    Ensures P (fun _ => True) (postShadows c spec shadows ss post) := by
  induction ss generalizing post with
  | nil => exact ⟨h, trivial⟩
  | cons s ss ih =>
    obtain ⟨⟨as, has, hs⟩, hone⟩ := forall_mem_cons.mp hone
    rw [postShadows, has]
    exact (hs post h).andThen fun st hw _ => ih hone hw

end Ensures

/-- Pointer fields that may be filled share no byte, if each of them is asked about. -/
def Field.FilledApart (c : Call) (blank : Prop) (s : ArgSpec) (p : ℕ) (f g : Field) : Prop :=
  f.TouchedPtr ∧ ¬ FoundNull c blank s p f.offset →
    g.TouchedPtr ∧ ¬ FoundNull c blank s p g.offset →
    f.offset + 4 ≤ g.offset ∨ g.offset + 4 ≤ f.offset

instance (s : ArgSpec) (p : ℕ) : Std.Symm (Field.FilledApart c blank s p) :=
  ⟨fun _ _ h hg hf => (h hf hg).symm⟩

theorem WalkKnown.apart (h : WalkKnown c blank s l p fun _ => True) :
    l.fields.Pairwise (Field.FilledApart c blank s p) := h.slots.imp fun hslots hf hg => by
  rcases hslots hf.1.walked hg.1.walked with hnull | hoff | ⟨-, hnot⟩
  · exact absurd hnull hf.2
  · exact hoff
  · exact absurd ⟨hg.1, trivial⟩ hnot

section Safe

variable {shadows : List Shadow} {as : ArgSpec} {s : Shadow} {l : Layout} {mem : Mem}
  {checked : List (Track × ℕ × ℕ)} {post : PostState}

/-- What goes back for a pointee has no pointer position. -/
theorem safeWrite_child {len : ℕ} (dest : ℕ) (data : Mem)
    (hchild : as.FieldsIn (·.spec.kind ≠ .scalar) len fun _ => False) :
    SafeWrite c shadows ⟨.buffer as.layout, dest, len, data⟩ := by
  rw [SafeWrite]
  split
  · next heq => exact absurd heq (by simp)
  · trivial
  · next l heq =>
    intro hk f hf hne hin
    exact absurd (hchild l (Role.buffer.inj heq) hk f hf hne hin) id

section

variable (hrec : Recorded c False as s)
  (hok : ∀ l, as.layout = some l → l.kind = .struct → BackOk c as l s.sourcePtr)
  (hchecked : checkTracks c s mem s.tracks = some checked)
include hrec hok hchecked

/-- **A tracked field goes back translated.** -/
theorem safeWord_field (hs : s ∈ shadows) (hl : as.layout = some l) (hk : l.kind = .struct)
    {f : Field} (hf : f ∈ l.fields) (hexp : Exposed as l f) :
    SafeWord c shadows s.sourcePtr f.offset
      ((sanitize s.shadowPtr mem checked).getWord (s.shadowPtr + f.offset)) := by
  have hok := hok l hl hk
  obtain ⟨hbuf, hcopies, hptr, hne⟩ := hok.exposed f hf hexp
  have hknown := hok.known ⟨f, hf, .inl hexp⟩
  have htracks := hrec.tracks l _ hbuf hl hk hknown
  obtain ⟨hof, hall⟩ := checkTracks_spec hchecked
  have hword : ∃ x ∈ checked,
      (sanitize s.shadowPtr mem checked).getWord (s.shadowPtr + f.offset) = x.2.2 := by
    refine sanitize_word (fun x hx => (htracks.field _ (hall x hx).1).2)
      (fun x hx => (checkTrack_cases (hall x hx).2).1) (fun x hx => ?_) ?_
    · obtain ⟨⟨f', hf', hptr', hne', hoff, -⟩, -⟩ := htracks.field _ (hall x hx).1
      rw [hoff]
      by_cases hsame : f' = f
      · exact .inl (congrArg Field.offset hsame)
      · refine .inr (hknown.apart.forall hf' hf hsame ⟨hptr', hne'⟩ ⟨hptr, ?_⟩)
        rwa [FoundNull, if_pos hcopies]
    · obtain ⟨t, ht, hoff⟩ := htracks.covers hcopies f hf hptr trivial hne
      obtain ⟨x, hx, rfl⟩ := hof t ht
      exact ⟨x, hx, hoff⟩
  obtain ⟨x, hx, heq⟩ := hword
  obtain ⟨ht, hcheck⟩ := hall x hx
  rw [heq]
  rcases (checkTrack_cases hcheck).2.1 with hzero | ⟨offset, hle, hv⟩
  · exact .inl hzero
  · obtain ⟨⟨f', -, -, -, hoff, -, hsrc⟩, -⟩ := htracks.field _ ht
    exact .inr (.inr ⟨s, hs, hrec.sourcePtr,
      .inr ⟨x.1, ht, hoff ▸ (hsrc trivial).1 hcopies, offset, hle, hv⟩⟩)

/-- Only bytes without pointer positions go back with a struct. -/
theorem fieldsIn_of_checked {x : Track × ℕ × ℕ} (hx : x ∈ checked) (hpos : 0 < x.2.1) :
    x.1.spec.FieldsIn (·.spec.kind ≠ .scalar) x.2.1 fun _ => False := by
  obtain ⟨ht, hcheck⟩ := (checkTracks_spec hchecked).2 x hx
  have hle := checkTrack_size_le hcheck
  have hout := (checkTrack_cases hcheck).2.2 hpos
  obtain ⟨hbuf, l, f, hl, hk, hf, hptr, -, hspec⟩ := hrec.tracked _ ht
  have hback := hok l hl hk
  by_cases hflat : x.1.spec.NoPtrHandle
  · exact fun l' hl' hk' g hg hne _ => hne (hflat l' hl' hk' g hg)
  · have htracks := hrec.tracks l _ hbuf hl hk (hback.known ⟨f, hf, .inr ⟨hptr, hspec ▸ hout,
      hspec ▸ hflat⟩⟩)
    obtain ⟨⟨f', hf', hptr', -, -, hspec', hsrc⟩, -⟩ := htracks.field _ ht
    rw [hspec'] at hflat hout ⊢
    have hin := (hsrc trivial).2 _ ((hback.children f' hf' hptr' hout).resolve_left hflat)
    exact fun l' hl' hk' g hg hne hlen => hin l' hl' hk' g hg hne (hlen.trans hle)

theorem safeWrite_struct (hs : s ∈ shadows) :
    SafeWrite c shadows ⟨.buffer s.layout, s.sourcePtr, s.size,
      fun i => sanitize s.shadowPtr mem checked (s.shadowPtr + i)⟩ := by
  rw [hrec.layout, SafeWrite]
  split
  · next hrole => exact absurd hrole (by simp)
  · trivial
  · next l hrole =>
    intro hk f hf hne hin
    have hl := Role.buffer.inj hrole
    have hsize := hrec.size l hl
    have hexp : Exposed as l f := by
      refine ⟨hne, ?_⟩
      split_ifs at hsize ⊢
      · exact hsize.resolve_right (by dsimp only at hin; omega)
      · dsimp only at hin; omega
    exact safeWord_field hrec hok hchecked hs hl hk hf hexp

end

variable (hsrc : ∀ s ∈ shadows, s.sourcePtr = c.rawArgs s.argIndex)
include hsrc

/-- A pointer into an argument goes back as null or as an address inside that argument. -/
theorem translated_of_found {inner : ℕ}
    (h : (if inner = 0 then some 0
      else (findShadow shadows i).bind fun t => if Owned c t.sourceCage t.grateCage then
        translateShadowPtr t.shadowPtr t.size onePast t.sourcePtr inner else none) = some v) :
    v < 2 ^ 32 ∧ (v = 0 ∨ Translated c shadows v) := by
  split at h
  · cases h
    exact ⟨by decide, .inl rfl⟩
  · obtain ⟨t, ht, h⟩ := bind_eq_some_iff.mp h
    obtain ⟨-, h⟩ := ite_none_right_eq_some.mp h
    have hmem := mem_of_find?_eq_some ht
    obtain ⟨hlt, hcase⟩ := translateShadowPtr_cases h
    exact ⟨hlt, hcase.imp_right fun hv => ⟨t, hmem, hsrc t hmem, .inl hv⟩⟩

/-- **The way back of one shadow is safe.** -/
theorem postShadow_safe (hs : s ∈ shadows) (hrec : Recorded c False as s)
    (hok : as.outPtrIntoArg1 = 0 → as.copiesOut → ∀ l, as.layout = some l → l.kind = .struct →
      BackOk c as l s.sourcePtr) (h : ∀ w ∈ post.writes, SafeWrite c shadows w) :
    Ensures (SafeWrite c shadows) (fun st => Sanitized c s post.mem st.mem)
      (postShadow c as shadows s post) := by
  refine ensures_postShadow h (fun _ inner v hv => ?_) (fun hslot _ hdir checked hchecked => ?_)
    fun _ _ _ => trivial
  · obtain ⟨hlt, hcase⟩ := translated_of_found hsrc hv
    rw [SafeWrite, Mem.getWord_wordBytes hlt]
    exact hcase.imp_right .inr
  · have hback := hok hslot (hrec.copiesOut hdir)
    refine ⟨fun x hx hpos mem => ?_, fun _ => safeWrite_struct hrec hback hchecked hs⟩
    exact safeWrite_child _ _ (fieldsIn_of_checked hrec hback hchecked hx hpos)

end Safe

/-! ## The whole dispatch -/

/-- Every struct that goes back can, and a returned alias is one of the arguments. -/
structure CopyBackOk (c : Call) (spec : MarshalSpec) (nargs : ℕ) : Prop where
  structs : ∀ (i : ℕ) s l, (spec.args.take nargs)[i]? = some s → s.kind = .ptr → c.rawArgs i ≠ 0 →
    s.outPtrIntoArg1 = 0 → s.copiesOut → s.layout = some l → l.kind = .struct →
    BackOk c s l (c.rawArgs i)
  returned : spec.ret.kind = .ptrAliasArg → spec.ret.aliasArgIndex < rawArgsMax

section Whole

variable {spec : MarshalSpec} {nargs : ℕ} {shadows : List Shadow}

theorem translateReturn_safe {r : HandlerResult}
    (hsrc : ∀ s ∈ shadows, s.sourcePtr = c.rawArgs s.argIndex) (hok : CopyBackOk c spec nargs)
    (h : translateReturn c spec.ret shadows r = some v) : SafeReturn c shadows spec.ret v := by
  rw [SafeReturn]
  rw [translateReturn] at h
  cases hk : spec.ret.kind with
  | void | scalar | handle | forceLocal => trivial
  | ptrAliasArg =>
    simp only [hk] at h
    exact .inr (.inl ⟨_, hok.returned hk, (some.inj h).symm⟩)
  | ptrIntoArg =>
    simp only [hk] at h
    exact (translated_of_found hsrc h).2.imp_right .inr

end Whole

/-! ## Two calls -/

/-- A buffer held through a pointer, both of which go back. -/
def holderPtr : ArgSpec := structPtr .ptrInout 8 [(0, bytesPtr .ptrInout 4)]

/-- A struct with a handle in it, copied in and back. -/
def handlePtr : ArgSpec := structPtr .ptrInout 8 [(4, .mk .handle .ptrIn .none 0 0 none none 1 0 0)]

theorem copyBackOk_holderPtr :
    CopyBackOk (smallCall [(0x100, 0x200)] 0x100) ⟨[holderPtr], voidReturn⟩ 1 := by
  refine ⟨fun i s l hs _ _ _ _ hl _ => ?_, nofun⟩
  cases i with
  | succ i => exact absurd hs (by simp)
  | zero =>
    obtain rfl : holderPtr = s := some.inj hs
    cases hl
    refine ⟨fun _ => ⟨?_, pairwise_singleton _ _⟩, ?_, ?_⟩
    · exact forall_mem_singleton.mpr fun _ => by decide
    · exact forall_mem_singleton.mpr fun _ => ⟨by decide, rfl, ⟨rfl, rfl⟩, by decide⟩
    · exact forall_mem_singleton.mpr fun _ _ => .inl nofun

/-- The caller's token 1 stands for the grate's object 0x1234. -/
def handleCall : Call :=
  { smallCall [(0x104, 1)] 0x100 with handles := [⟨1, 0x1234, 1, true⟩] }

end LindWasm.Marshal

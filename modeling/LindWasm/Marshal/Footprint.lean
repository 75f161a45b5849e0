import LindWasm.Marshal.CopyBack

/-!
# Marshal/Footprint — where a dispatch writes

    argument --> ⟦pointer, +recorded size⟧          field --> ⟦field's pointer, +shadow length⟧
    slot     --> ⟦pointer, +4⟧

Every write of the way back belongs to one argument: its own bytes, the pointee of one of its
fields, or its slot. Its length never exceeds that of the shadow it is copied from: the size
recorded for an argument is the one its shadow was allocated with, and what goes back for a field is
clamped to the field's shadow. Where it goes is another matter — the pointer of a field is read
from the struct's *shadow*.  That is the caller's pointer if the struct was copied in and no field
filled before lies over it (`PointersKnown`); of a struct that is only filled it is what an earlier
dispatch left there.
-/

namespace LindWasm.Marshal

open Option List

variable {c : Call} {st st' : PreState} {mem : Mem} {size v : ℕ} {as : ArgSpec}
  {s : Shadow} {t : Track} {args : List ℕ} {handler : Handler}

/-! ## The writes of an argument -/

/-- The bytes written are those of the shadow at `a`. -/
def FromShadow (blocks : List Block) (a : ℕ) (w : Write) : Prop :=
  (∃ b ∈ blocks, b.addr = a ∧ w.len ≤ b.len) ∧ ∃ mem, w.data = bytesFrom mem a

/-- **A write of an argument's**: to its slot, of its own bytes, or of a field's pointee. -/
inductive WriteOf (c : Call) (as : ArgSpec) (s : Shadow) (blocks : List Block) (w : Write) : Prop
  | slot (isSlot : as.outPtrIntoArg1 ≠ 0) (dest : w.dest = c.rawArgs s.argIndex) (len : w.len = 4)
  | argument (out : as.copiesOut) (dest : w.dest = c.rawArgs s.argIndex) (len : w.len ≤ s.size)
      (shadow : FromShadow blocks s.shadowPtr w)
  | field (l : Layout) (f : Field) (t : Track) (layout : as.layout = some l) (mem : f ∈ l.fields)
      (ptr : f.TouchedPtr) (out : f.spec.copiesOut) (track : t ∈ s.tracks)
      (offset : t.offset = f.offset)
      (dest : w.dest = c.wordAt (c.rawArgs s.argIndex) f.offset) (len : w.len ≤ t.shadowLen)
      (shadow : FromShadow blocks t.shadowStart w)

/-- The write is one of some argument's with a shadow among `shadows`. -/
def WriteAmong (c : Call) (spec : MarshalSpec) (shadows : List Shadow) (blocks : List Block)
    (w : Write) : Prop :=
  ∃ s ∈ shadows, ∃ as, spec.args[s.argIndex]? = some as ∧ WriteOf c as s blocks w

/-- The argument goes back as a struct. -/
def BackAsStruct (spec : MarshalSpec) (s : Shadow) : Prop :=
  (∃ as, spec.args[s.argIndex]? = some as ∧ as.outPtrIntoArg1 = 0) ∧ s.layout.isSome ∧
    (s.direction = .ptrOut ∨ s.direction = .ptrInout)

/-- **Every write is one of an argument's**, and a struct of which a tracked field is not valid
leaves none: what was written is of the arguments before it. -/
structure WritesConfined (c : Call) (spec : MarshalSpec) (nargs : ℕ) (handler : Handler)
    (mem : Mem) : Prop where
  writes : ∀ w ∈ (dispatch c spec nargs handler mem).writes, ∃ args shadows st,
    preCall c spec nargs mem = some (args, shadows, st) ∧ WriteAmong c spec shadows st.shadows w
  invalid : ∀ args shadows st, preCall c spec nargs mem = some (args, shadows, st) →
    ∀ before s after, shadows = before ++ s :: after →
    ∀ post, postShadows c spec shadows before
      ⟨st.used, (handler (handlerArgs args) st.mem).mem, []⟩ = .ok post →
    BackAsStruct spec s → (∃ t ∈ s.tracks, checkTrack c s post.mem t = none) →
    (dispatch c spec nargs handler mem).result = none ∧
      ∀ w ∈ (dispatch c spec nargs handler mem).writes,
        WriteAmong c spec before st.shadows w

/-! ## What the spec must be like -/

structure Layout.WellFormed (l : Layout) : Prop where
  structSize : l.structSize < 2 ^ 32
  offsets : ∀ f ∈ l.fields, f.offset + 4 ≤ l.structSize
  indices : ∀ f ∈ l.fields, f.spec.sizeKind = .fromArg → f.spec.sizeArgIndex < l.fields.length

/-- A well-formed spec: the indices of sizes are in range, fields lie in their struct, and a struct
is as large as the argument says. -/
structure WellFormed (c : Call) (spec : MarshalSpec) (nargs : ℕ) : Prop where
  indices : ∀ as ∈ spec.args.take nargs, as.sizeKind = .fromArg ∨ as.sizeKind = .fromArgPointee →
    as.sizeArgIndex < rawArgsMax
  layouts : ∀ as ∈ spec.args.take nargs, ∀ l, as.layout = some l → l.WellFormed
  sizes : ∀ (i : ℕ) as l, (spec.args.take nargs)[i]? = some as → as.layout = some l →
    as.sizeKind ≠ .ptrArray ∧
      ∀ mem size, ptrSize c as (some c.rawArgs) mem (c.rawArgs i) = some size → l.structSize = size

/-- The pointers that lead to what goes back are the caller's: none of them has a field that is
filled before it over its slot, and the struct is copied in — if not, they are found null, or lead
to no bytes. -/
def PointersKnown (c : Call) (blank : Prop) (as : ArgSpec) (l : Layout) (p : ℕ) : Prop :=
  (∃ f ∈ l.fields, f.TouchedPtr ∧ f.spec.copiesOut) →
    l.fields.Pairwise (KnownSlots c blank as p (·.spec.copiesOut)) ∧
      ∀ f ∈ l.fields, f.TouchedPtr → f.spec.copiesOut →
        as.copiesIn ∨ Pointee c blank as l p f fun _ len => len = 0

/-- …in every struct that goes back. -/
def AllPointersKnown (c : Call) (spec : MarshalSpec) (nargs : ℕ) (mem : Mem) : Prop :=
  ∀ (i : ℕ) as l, (spec.args.take nargs)[i]? = some as → as.kind = .ptr → c.rawArgs i ≠ 0 →
    as.outPtrIntoArg1 = 0 → as.copiesOut → as.layout = some l → l.kind = .struct →
    PointersKnown c (BlankFrom c.grate c.grate.arena mem) as l (c.rawArgs i)

/-! ## Shadows are as long as what goes back -/

/-- **The size recorded is the size allocated**, or less: nothing changes between the two times it
is computed. -/
theorem shadowSize_le {s : ArgSpec} {mem' : Mem} {p size' : ℕ} (hs : s.sizeKind ≠ .ptrArray)
    (h : ptrSize c s (some c.rawArgs) mem p = some size) (h' : shadowSize c s mem' p = some size') :
    size' ≤ allocSizeOf s size := by
  unfold shadowSize at h'
  unfold allocSizeOf
  cases hl : s.layout with
  | some l =>
    simp only [hl, bind_some] at h' ⊢
    split at h'
    · next hc =>
      rw [ptrSize, hc.1] at h
      rw [if_pos hc.2]
      exact (mem_unique h' h).le
    · cases h'
      split
      · next hzero => rw [hzero]; exact Nat.zero_le _
      · exact le_rfl
  | none =>
    simp only [hl] at h' ⊢
    unfold ptrSize at h
    unfold computeSize at h h'
    cases hk : s.sizeKind with
    | none => simp [hk] at h
    | ptrArray => exact absurd hk hs
    | cstr =>
      simp only [hk, bind_some, and_self, if_true] at h h'
      exact (mem_unique h' h).le
    | const | fromArg | fromArgPointee =>
      simp only [hk, reduceCtorEq, false_and, if_false, bind_fun_some] at h h'
      exact (mem_unique h' h).le

/-- A record and the shadows behind it: the argument's own, and those of its fields. -/
structure ShadowsHeld (as : ArgSpec) (s : Shadow) (blocks : List Block) : Prop where
  own : as.sizeKind ≠ .ptrArray → ∃ b ∈ blocks, b.addr = s.shadowPtr ∧ s.size ≤ b.len
  tracks : ∀ t ∈ s.tracks, ⟨t.shadowStart, t.shadowLen⟩ ∈ blocks
  array : as.sizeKind = .ptrArray → as.layout = none → s.size = 0

theorem ShadowsHeld.grows {keep : ℕ → Prop} (hh : ShadowsHeld as s st.shadows)
    (hgrow : Grows c.grate keep st st') :
    ShadowsHeld as s st'.shadows where
  own hs := by
    obtain ⟨b, hb, hblock⟩ := hh.own hs
    exact ⟨b, hgrow.mem_shadows hb, hblock⟩
  tracks t ht := hgrow.mem_shadows (hh.tracks t ht)
  array := hh.array

/-- **An argument's record is backed by shadows** that hold all that goes back. -/
theorem preArg_held {i : ℕ} {record : Option Shadow} (hwf : st.WF c.grate)
    (h : preArg c i as st = some (v, record, st')) :
    ∀ s ∈ record, ShadowsHeld as s st'.shadows := by
  intro s hs
  rcases preArg_cases h with ⟨rfl, -, -⟩ | ⟨-, hraw, tracks, size, hptr, hsize, hrecord⟩
  · exact absurd hs nofun
  obtain rfl := hrecord s hs
  by_cases harray : as.sizeKind = .ptrArray
  · obtain rfl := (prePtr_grows hwf hptr).1 harray
    refine ⟨fun hne => absurd harray hne, by simp, fun _ hl => ?_⟩
    simp only [shadowSize, computeSize, hl, harray] at hsize
    simpa using hsize.symm
  · rw [prePtr_buffer harray, if_neg hraw] at hptr
    obtain ⟨alloc, st₂, halloc, hcopied, hcase⟩ := preBuffer_spec hwf hptr
    have hwf₂ := hcopied.grows.wf hwf
    have hle := shadowSize_le harray halloc hsize
    rcases hcase with ⟨-, rfl, rfl⟩ | ⟨l, -, -, hwalk⟩
    · exact ⟨fun _ => ⟨_, hcopied.block, rfl, hle⟩, by simp, fun h => absurd h harray⟩
    · obtain ⟨hgrow, htracks⟩ := walkFields_grows hwf₂ hcopied.arena_le hcopied.below hwalk
      refine ⟨fun _ => ⟨_, hgrow.mem_shadows hcopied.block, rfl, hle⟩, fun t ht => ?_,
        fun h => absurd h harray⟩
      obtain ⟨f, hf, -, -, -, hblock⟩ := (htracks t ht).resolve_left not_mem_nil
      exact hblock

/-! ## Every write is one of an argument's -/

section Writes

variable {spec : MarshalSpec} {nargs : ℕ} {shadows : List Shadow} {blocks : List Block}
  {as : ArgSpec} {s : Shadow} {post : PostState} {P : Write → Prop}

section

variable (hwell : WellFormed c spec nargs) (hknown : AllPointersKnown c spec nargs mem)
  (has : (spec.args.take nargs)[s.argIndex]? = some as)
  (hrec : Recorded c (BlankFrom c.grate c.grate.arena mem) as s)
include hwell hknown has hrec

/-- **The pointer of a tracked field that goes back is the caller's.** -/
theorem origSrcPtr_eq (hslot : as.outPtrIntoArg1 = 0) (hout : as.copiesOut) (ht : t ∈ s.tracks)
    (hcopies : t.spec.copiesOut) (hpos : 0 < t.shadowLen) :
    ∃ l f, as.layout = some l ∧ f ∈ l.fields ∧ f.TouchedPtr ∧ f.spec.copiesOut ∧
      t.offset = f.offset ∧ t.origSrcPtr = c.wordAt (c.rawArgs s.argIndex) f.offset := by
  obtain ⟨hbuf, l, g, hl, hk, hg, hgptr, -, hgspec⟩ := hrec.tracked t ht
  obtain ⟨hslots, hall⟩ := hknown s.argIndex as l has hrec.kind hrec.raw hslot hout hl hk
    ⟨g, hg, hgptr, hgspec ▸ hcopies⟩
  have hlayout := hwell.layouts as (mem_of_getElem? has) l hl
  rw [← hrec.sourcePtr] at hslots hall ⊢
  obtain ⟨⟨f, hf, hptr, -, hoff, hspec, hsrc⟩, -⟩ := (hrec.tracks l _ hbuf hl hk
    ⟨fun f hf _ => (hlayout.offsets f hf).trans_lt hlayout.structSize, hslots⟩).field t ht
  have hcopies := hspec ▸ hcopies
  refine ⟨l, f, hl, hf, hptr, hcopies, hoff, ?_⟩
  rcases hall f hf hptr hcopies with hin | hempty
  · exact (hsrc hcopies).1 hin
  · exact absurd ((hsrc hcopies).2 _ hempty) hpos.ne'

theorem postShadow_forall (hheld : ShadowsHeld as s blocks) (h : ∀ w ∈ post.writes, P w)
    (hP : ∀ w, WriteOf c as s blocks w → P w) :
    Ensures P (fun st => Sanitized c s post.mem st.mem) (postShadow c as shadows s post) := by
  refine ensures_postShadow h (fun hslot _ v _ => hP _ (.slot hslot hrec.sourcePtr rfl))
    (fun hslot hlayout hdir checked hchecked => ?_) fun hnone hpos hdir => hP _ ?_
  · have hout := hrec.copiesOut hdir
    obtain ⟨l, hl⟩ := isSome_iff_exists.mp (hrec.layout ▸ hlayout)
    refine ⟨fun x hx hpos mem => hP _ ?_, fun hpos => hP _ ?_⟩
    · obtain ⟨ht, hcheck⟩ := (checkTracks_spec hchecked).2 x hx
      have hlen := checkTrack_size_le hcheck
      obtain ⟨l', f, hl', hf, hptr, hcopies, hoff, hsrc⟩ := origSrcPtr_eq hwell hknown has hrec
        hslot hout ht ((checkTrack_cases hcheck).2.2 hpos) (hpos.trans_le hlen)
      exact .field l' f x.1 hl' hf hptr hcopies ht hoff hsrc hlen
        ⟨⟨_, hheld.tracks x.1 ht, rfl, hlen⟩, mem, rfl⟩
    · have hown := hheld.own (hwell.sizes s.argIndex as l has hl).1
      exact .argument hout hrec.sourcePtr le_rfl ⟨hown, _, rfl⟩
  · have harray : as.sizeKind ≠ .ptrArray := fun harray =>
      absurd (hheld.array harray (hrec.layout ▸ hnone)) hpos.ne'
    exact .argument (hrec.copiesOut hdir) hrec.sourcePtr le_rfl ⟨hheld.own harray, _, rfl⟩

end

/-- The records of a call, as the way back relies on them. -/
def Backed (c : Call) (spec : MarshalSpec) (nargs : ℕ) (mem : Mem) (blocks : List Block)
    (s : Shadow) : Prop :=
  ∃ as, (spec.args.take nargs)[s.argIndex]? = some as ∧
    Recorded c (BlankFrom c.grate c.grate.arena mem) as s ∧ ShadowsHeld as s blocks

theorem preCall_backed (h : preCall c spec nargs mem = some (args, shadows, st)) :
    ∀ s ∈ shadows, Backed c spec nargs mem st.shadows s :=
  preCall_forall
    (R := fun as s st => Recorded c (BlankFrom c.grate c.grate.arena mem) as s ∧
      ShadowsHeld as s st.shadows)
    (fun hwf hblank harg s hs => ⟨preArg_recorded hwf hblank harg s hs, preArg_held hwf harg s hs⟩)
    (fun h hgrow => ⟨h.1, h.2.grows hgrow⟩) id h

theorem Backed.argSpec (hs : Backed c spec nargs mem blocks s) :
    ∃ as, spec.args[s.argIndex]? = some as := by
  obtain ⟨as, has, -⟩ := hs
  exact ⟨as, (ite_none_right_eq_some.mp (getElem?_take.symm.trans has)).2⟩

/-- **The way back writes for the arguments it goes over**, whether it traps or not. -/
theorem postShadows_among {ss : List Shadow} (hwell : WellFormed c spec nargs)
    (hknown : AllPointersKnown c spec nargs mem)
    (hss : ∀ s ∈ ss, Backed c spec nargs mem blocks s)
    (hnone : post.writes = []) :
    ∀ w ∈ Post.writes (postShadows c spec shadows ss post), WriteAmong c spec ss blocks w := by
  refine (ensures_postShadows (fun s hs => ?_) (by simp [hnone])).writes
  obtain ⟨as, has, hrec, hheld⟩ := hss s hs
  have hspec := (ite_none_right_eq_some.mp (getElem?_take.symm.trans has)).2
  exact ⟨as, hspec, fun post h => postShadow_forall hwell hknown has hrec hheld h
    fun w hw => ⟨s, hs, as, hspec, hw⟩⟩

/-! ## A field that is not valid -/

/-- The way back goes over the first shadows, and then over the rest. -/
theorem postShadows_append {before after : List Shadow}
    (hspec : ∀ s ∈ before, ∃ as, spec.args[s.argIndex]? = some as) :
    postShadows c spec shadows (before ++ after) post
      = match postShadows c spec shadows before post with
        | .error ws => .error ws
        | .ok post => postShadows c spec shadows after post := by
  induction before generalizing post with
  | nil => rfl
  | cons s before ih =>
    obtain ⟨⟨as, has⟩, hspec⟩ := forall_mem_cons.mp hspec
    rw [cons_append, postShadows, postShadows, has]
    dsimp only
    cases postShadow c as shadows s post with
    | error ws => rfl
    | ok post' => exact ih hspec

theorem checkTracks_eq_none {ts : List Track} (h : ∃ t ∈ ts, checkTrack c s mem t = none) :
    checkTracks c s mem ts = none := by
  cases hchecked : checkTracks c s mem ts with
  | none => rfl
  | some checked =>
    obtain ⟨t, ht, hnone⟩ := h
    obtain ⟨hof, hall⟩ := checkTracks_spec hchecked
    obtain ⟨x, hx, rfl⟩ := hof t ht
    rw [(hall x hx).2] at hnone
    exact absurd hnone (some_ne_none _)

/-- **A struct with a field that is not valid traps before anything of it is written.** -/
theorem postShadow_invalid (hslot : as.outPtrIntoArg1 = 0) (hlayout : s.layout.isSome)
    (hdir : s.direction = .ptrOut ∨ s.direction = .ptrInout)
    (hbad : ∃ t ∈ s.tracks, checkTrack c s post.mem t = none) :
    postShadow c as shadows s post = .error post.writes := by
  rw [postShadow, if_neg (not_not.mpr hslot), if_pos hlayout, postStruct, if_neg (by tauto)]
  split
  · rfl
  split
  · rfl
  · rw [checkTracks_eq_none hbad]
    rfl

end Writes

/-! ## The whole dispatch -/

section Whole

variable {spec : MarshalSpec} {nargs : ℕ} {shadows : List Shadow}

theorem dispatch_writes (h : preCall c spec nargs mem = some (args, shadows, st)) :
    (dispatch c spec nargs handler mem).writes = Post.writes (postShadows c spec shadows shadows
      ⟨st.used, (handler (handlerArgs args) st.mem).mem, []⟩) := by
  rw [dispatch, h]
  dsimp only
  split
  · next ws heq => rw [heq]; rfl
  · next post heq => rw [heq]; rfl

end Whole

/-! ## One struct, three ways -/

/-- A handler that does nothing. -/
def idleHandler : Handler := fun _ mem => ⟨0, mem, [], 1⟩

theorem wellFormed_structPtr {d : PtrDirection} {fields : List (ℕ × ArgSpec)}
    (hin : ∀ f ∈ fields, f.1 + 4 ≤ 8) (hconst : ∀ f ∈ fields, f.2.sizeKind = .const)
    (ret : ReturnSpec) : WellFormed c ⟨[structPtr d 8 fields], ret⟩ 1 := by
  refine ⟨forall_mem_singleton.mpr (by rintro (h | h) <;> cases h),
    forall_mem_singleton.mpr ?_, fun i as l has hl => ?_⟩
  · rintro l ⟨⟩
    refine ⟨show 8 < 2 ^ 32 by decide, forall_mem_map.mpr hin, forall_mem_map.mpr fun f hf hk => ?_⟩
    exact absurd ((hconst f hf).symm.trans hk) (by decide)
  · cases i with
    | succ i => exact absurd has (by simp)
    | zero =>
      obtain rfl : structPtr d 8 fields = as := some.inj has
      cases hl
      exact ⟨nofun, fun mem size hsize => some.inj hsize⟩

/-- The only argument's writes go to its own pointer, or to one of its fields'. -/
theorem WritesConfined.dest_cases {ret : ReturnSpec}
    (h : WritesConfined c ⟨[as], ret⟩ 1 handler mem) {w : Write}
    (hw : w ∈ (dispatch c ⟨[as], ret⟩ 1 handler mem).writes) :
    w.dest = c.rawArgs 0 ∨
      ∃ l, as.layout = some l ∧ ∃ f ∈ l.fields, w.dest = c.wordAt (c.rawArgs 0) f.offset := by
  obtain ⟨_, _, _, _, s, -, as', has, hof⟩ := h.writes w hw
  cases hi : s.argIndex with
  | succ i =>
    rw [hi] at has
    exact absurd has (by simp)
  | zero =>
    rw [hi] at has
    obtain rfl : as = as' := some.inj has
    cases hof with
    | slot _ dest | argument _ dest => exact .inl (hi ▸ dest)
    | field l f _ hl hf _ _ _ _ dest => exact .inr ⟨l, hl, f, hf, hi ▸ dest⟩

/-- The grate's memory after a call that passed it the word 0x200. -/
def leftByHolder : Mem :=
  ((preCall (smallCall [(0x500, 0x200)] 0x500) ⟨[bytesPtr .ptrIn 8], voidReturn⟩ 1 fun _ => 0).map
    fun x => x.2.2.mem).getD fun _ => 0

/-- A struct that is only filled, with a buffer to be filled through a pointer in it. -/
def filledPtr : ArgSpec := structPtr .ptrOut 8 [(0, bytesPtr .ptrOut 4)]

/-- A struct with two pointers in one place, of which the first may be left one past its end. -/
def overlaidPtr : ArgSpec :=
  structPtr .ptrInout 8
    [(0, .mk .ptr .ptrOut .const 8 0 none none 0 0 1), (0, bytesPtr .ptrOut 8)]

end LindWasm.Marshal

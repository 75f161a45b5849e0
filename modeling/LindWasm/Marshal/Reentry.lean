import LindWasm.Marshal.Interference

/-!
# Marshal/Reentry — a dispatch inside a dispatch

    D -- way in --> handler --┐                    ┌--> rest of the handler -- way back -->
                              └--> inner dispatch -┘
             same arena from its start, same fill, same current source cage

A handler may cause another dispatch of its own grate. That one resets the arena at both ends and
sets the current source cage, and nothing is put back: it takes the bytes of D's shadows for its
own, D goes on with the fill at 0, and `LIND_SOURCE_CAGE` stays what the inner call made it.
`reentry_undisturbed` says which inner dispatches D does not notice: those from the same cage, where
one of the two takes nothing from the arena and D needs no more of it on its way back.
-/

namespace LindWasm.Marshal

open Option List PostState

variable {c : Call} {spec : MarshalSpec} {nargs v : ℕ} {mem : Mem} {blocks : List Block}
  {post : PostState}

/-! ## The inner dispatch -/

/-- A dispatch that a handler causes: the calling cage, its arguments, and what is called. -/
structure Inner where
  sourceCage : ℕ
  source : Cage
  rawArgs : ℕ → ℕ
  handles : List HandleEntry
  spec : MarshalSpec
  nargs : ℕ
  handler : Handler

/-- …in the grate of the call `c`. -/
def Inner.call (n : Inner) (c : Call) : Call :=
  ⟨n.sourceCage, c.grateCage, n.source, c.grate, n.rawArgs, n.handles⟩

/-- The inner dispatch run to completion: the shadows it handed out, the state of its way back, and
its result. -/
def Inner.run (c : Call) (n : Inner) (mem : Mem) : Option (List Block × PostState × ℕ) :=
  (preCall (n.call c) n.spec n.nargs mem).bind fun x =>
    match postShadows (n.call c) n.spec x.2.1 x.2.1
      ⟨x.2.2.used, (n.handler (handlerArgs x.1) x.2.2.mem).mem, []⟩ with
    | .error _ => none
    | .ok post =>
        (translateReturn (n.call c) n.spec.ret x.2.1
          (n.handler (handlerArgs x.1) x.2.2.mem)).map fun v => (x.2.2.shadows, post, v)

variable {n : Inner} {shadows : List Shadow}

/-- A run to completion is a dispatch that returns. -/
theorem Inner.dispatch_of_run (h : n.run c mem = some (blocks, post, v)) :
    dispatch (n.call c) n.spec n.nargs n.handler mem = ⟨post.writes, some v⟩ := by
  obtain ⟨⟨args, shadows, st⟩, hpre, h⟩ := bind_eq_some_iff.mp h
  rw [dispatch, hpre]
  dsimp only at h ⊢
  cases hpost : postShadows (n.call c) n.spec shadows shadows
    ⟨st.used, (n.handler (handlerArgs args) st.mem).mem, []⟩ with
  | error writes =>
    rw [hpost] at h
    cases h
  | ok post' =>
    rw [hpost] at h
    obtain ⟨v', hv, heq⟩ := map_eq_some_iff.mp h
    obtain ⟨-, hrest⟩ := Prod.mk.inj heq
    obtain ⟨rfl, rfl⟩ := Prod.mk.inj hrest
    exact congrArg (Outcome.mk post'.writes) hv

/-! ## What a re-entered dispatch goes on with -/

/-- The byte belongs to what a dispatch with that fill has taken from the arena. -/
def Placement.Taken (g : Placement) (used a : ℕ) : Prop :=
  g.arena ≤ a ∧ a < g.arena + arenaSize ∧ a < g.arena + used
deriving Decidable

/-- The byte belongs to one of the shadows. -/
def InShadow (blocks : List Block) (a : ℕ) : Prop := ∃ b ∈ blocks, b.addr ≤ a ∧ a < b.addr + b.len
deriving Decidable

/-- What a handler may read: the grate's own memory, and its shadows in the arena. -/
def ownBytes (g : Placement) (blocks : List Block) (mem : Mem) : Patch := fun a =>
  if g.Taken arenaSize a ∧ ¬ InShadow blocks a then none else some (mem a)

/-- A handler that causes a dispatch: how it changes the memory before, the dispatch, and what it
does afterwards, given the current source cage, the result, and what it may read. -/
structure Reentrant where
  before : List ℕ → Mem → Mem
  inner : List ℕ → Mem → Inner
  after : List ℕ → ℕ → ℕ → Patch → Action

/-- A run of D up to the end of the inner dispatch. The bytes that one has taken and that belong to
no shadow held its tables, and are left open. -/
structure Reentry (c : Call) (spec : MarshalSpec) (nargs : ℕ) (R : Reentrant) (mem : Mem) where
  args : List ℕ
  shadows : List Shadow
  st : PreState
  pre : preCall c spec nargs mem = some (args, shadows, st)
  blocks : List Block
  post : PostState
  value : ℕ
  ran : (R.inner (handlerArgs args) st.mem).run c (R.before (handlerArgs args) st.mem)
    = some (blocks, post, value)
  left : Mem
  leaves : ∀ a, (c.grate.Taken post.used a → InShadow blocks a) → left a = post.mem a

/-- What can be seen of D after the inner dispatch: the arguments of its handler, the current source
cage and the bytes the rest of the handler finds, and the outcome; none if that is not followed. -/
structure Observed where
  args : List ℕ
  sourceCage : ℕ
  bytes : Patch
  outcome : Option Outcome

/-- The shadow goes back as a struct whose fields are tracked: scratch space is taken for them. -/
def Shadow.needsScratch (s : Shadow) (as : ArgSpec) : Bool :=
  as.outPtrIntoArg1 = 0 && (s.direction = .ptrOut ∨ s.direction = .ptrInout) && s.layout.isSome &&
    !s.tracks.isEmpty

/-- …and so does one of the shadows. -/
def needsScratch (spec : MarshalSpec) (shadows : List Shadow) : Bool :=
  shadows.any fun s => spec.args[s.argIndex]?.any s.needsScratch

namespace Reentry

variable {R : Reentrant} (r : Reentry c spec nargs R mem)

/-- The inner dispatch. -/
def inner : Inner := R.inner (handlerArgs r.args) r.st.mem

/-- The rest of the handler and the way back, with the given current source cage, fill and
memory. -/
def resume (sourceCage used : ℕ) (mem : Mem) : Outcome :=
  let x := R.after (handlerArgs r.args) sourceCage r.value
    (ownBytes c.grate r.st.shadows mem)
  outcomeOf (postShadows c spec r.shadows r.shadows ⟨used, mem.patch x.stores, []⟩)
    (translateReturn c spec.ret r.shadows (x.result mem))

/-- D as it goes on: `_lind_marshal_reset` has set the fill to 0, and the current source cage is
that of the inner call. If the way back needs scratch space, it takes it over D's own shadows, and
is not followed. -/
def observed : Observed where
  args := handlerArgs r.args
  sourceCage := r.inner.sourceCage
  bytes := ownBytes c.grate r.st.shadows r.left
  outcome :=
    if needsScratch spec r.shadows then none else some (r.resume r.inner.sourceCage 0 r.left)

/-- The memory, had the inner dispatch taken its space elsewhere. -/
def kept : Mem := fun a =>
  if c.grate.Taken r.post.used a then R.before (handlerArgs r.args) r.st.mem a else r.left a

/-- D as it would go on, had the inner dispatch used an arena and globals of its own. -/
def apart : Observed where
  args := handlerArgs r.args
  sourceCage := c.sourceCage
  bytes := ownBytes c.grate r.st.shadows r.kept
  outcome := some (r.resume c.sourceCage r.st.used r.kept)

/-- The inner dispatch makes no difference to D. -/
structure Undisturbed : Prop where
  args : r.observed.args = r.apart.args
  sourceCage : r.observed.sourceCage = r.apart.sourceCage
  bytes : r.observed.bytes = r.apart.bytes
  outcome : ∃ o o', r.observed.outcome = some o ∧ r.apart.outcome = some o' ∧
    List.Forall₂ Write.Alike o.writes o'.writes ∧ o.result = o'.result

end Reentry

/-! ## Calls that take nothing from the arena -/

/-- A pointer whose shadow holds no byte. -/
structure EmptyPtr (c : Call) (s : ArgSpec) (p : ℕ) : Prop where
  buffer : s.sizeKind ≠ .ptrArray
  slot : s.outPtrIntoArg1 = 0
  size : ∀ n, ptrSize c s (some c.rawArgs) (fun _ => 0) p = some n → allocSizeOf s n = 0
  fields : ∀ l, s.layout = some l → l.kind = .struct → l.fields = []

/-- Every pointer argument of the call is null or empty. -/
def TakesNothing (c : Call) (spec : MarshalSpec) (nargs : ℕ) : Prop :=
  ∀ (i : ℕ) s, (spec.args.take nargs)[i]? = some s → s.kind = .ptr → c.rawArgs i ≠ 0 →
    EmptyPtr c s (c.rawArgs i)

/-- Nothing was taken, and nothing stored. -/
structure Light (st st' : PreState) : Prop where
  used : st'.used = st.used
  mem : st'.mem = st.mem
  blocks : ∀ b ∈ st'.shadows, b ∈ st.shadows ∨ b.len = 0

section Light

variable {st st' st'' : PreState} {s : ArgSpec} {p i : ℕ}

theorem Light.refl (st : PreState) : Light st st := ⟨rfl, rfl, fun _ => .inl⟩

theorem Light.trans (h : Light st st') (h' : Light st' st'') : Light st st'' :=
  ⟨h'.used.trans h.used, h'.mem.trans h.mem, fun b hb =>
    (h'.blocks b hb).elim (h.blocks b) .inr⟩

theorem allocShadow_zero (st : PreState) :
    allocShadow c st 0 = some (c.grate.arena + st.used,
      { st with shadows := st.shadows ++ [⟨c.grate.arena + st.used, 0⟩] }) := rfl

theorem copyIn_zero (st : PreState) (copies : Bool) (shadow : ℕ) :
    copyIn c st copies p shadow 0 = some st := if_neg fun h => absurd h.1 (lt_irrefl 0)

theorem walkStruct_nil {l : Layout} (hl : l.fields = []) (shadow allocSize : ℕ) :
    walkStruct c l shadow allocSize st = some (st, []) := by
  rw [walkStruct, hl]
  rfl

theorem EmptyPtr.preBuffer_eq (he : EmptyPtr c s p) {x : ℕ × List Track × PreState}
    (h : preBuffer c s (some c.rawArgs) p st = some x) : Light st x.2.2 ∧ x.2.1 = [] := by
  obtain ⟨n, hn, h⟩ := bind_eq_some_iff.mp h
  have hzero : allocSizeOf s n = 0 := he.size n hn
  dsimp only at h
  rw [hzero, allocShadow_zero, bind_some, copyIn_zero, bind_some] at h
  have hlight : Light st { st with
      shadows := st.shadows ++ [⟨c.grate.arena + st.used, 0⟩] } := by
    refine ⟨rfl, rfl, fun b hb => (mem_append.mp hb).imp_right fun hlast => ?_⟩
    rw [mem_singleton.mp hlast]
  cases hl : s.layout with
  | none =>
    rw [hl] at h
    cases h
    exact ⟨hlight, rfl⟩
  | some l =>
    rw [hl] at h
    dsimp only at h
    by_cases hk : l.kind = .struct
    · rw [if_pos hk, walkStruct_nil (he.fields l hl hk), map_some] at h
      cases h
      exact ⟨hlight, rfl⟩
    · rw [if_neg hk] at h
      cases h
      exact ⟨hlight, rfl⟩

theorem allocSizeOf_eq_zero {n : ℕ} (h : allocSizeOf s n = 0) :
    n = 0 ∧ ∀ l, s.layout = some l → l.structSize = 0 := by
  rw [allocSizeOf] at h
  cases hl : s.layout with
  | none =>
    rw [hl] at h
    exact ⟨h, fun l hl => absurd hl.symm (some_ne_none l)⟩
  | some l =>
    rw [hl] at h
    dsimp only at h
    by_cases hs : l.structSize = 0
    · rw [if_pos hs] at h
      exact ⟨h, fun l' hl' => some.inj hl' ▸ hs⟩
    · rw [if_neg hs] at h
      exact absurd h hs

theorem EmptyPtr.shadowSize_eq (he : EmptyPtr c s p) {n size : ℕ}
    (hn : ptrSize c s (some c.rawArgs) (fun _ => 0) p = some n) {mem : Mem}
    (h : shadowSize c s mem p = some size) : size = 0 := by
  obtain ⟨rfl, hstruct⟩ := allocSizeOf_eq_zero (he.size n hn)
  obtain ⟨first, hfirst, h⟩ := bind_eq_some_iff.mp h
  split at h
  · next hc =>
    rw [ptrSize, hc.1] at hn
    exact mem_unique h hn
  · obtain rfl := some.inj h
    cases hl : s.layout with
    | some l =>
      rw [hl] at hfirst
      exact (some.inj hfirst).symm.trans (hstruct l hl)
    | none =>
      rw [hl] at hfirst
      have hfirst : computeSize c s (some c.rawArgs) (fun _ => 0) = some first := hfirst
      rw [ptrSize] at hn
      cases hsk : s.sizeKind with
      | cstr =>
        rw [computeSize, hsk] at hfirst
        exact (some.inj hfirst).symm
      | const | fromArg | fromArgPointee =>
        rw [hsk] at hn
        exact mem_unique hfirst hn
      | ptrArray | none =>
        rw [hsk] at hn
        cases hn

theorem preArg_light (he : s.kind = .ptr → c.rawArgs i ≠ 0 → EmptyPtr c s (c.rawArgs i))
    {x : ℕ × Option Shadow × PreState} (h : preArg c i s st = some x) :
    Light st x.2.2 ∧ ∀ r, x.2.1 = some r → r.size = 0 ∧ r.tracks = [] := by
  obtain ⟨v, record, st'⟩ := x
  rcases preArg_cases h with ⟨rfl, rfl, -⟩ | ⟨hk, hraw, tracks, size, hptr, hsize, hrecord⟩
  · exact ⟨Light.refl _, nofun⟩
  have he := he hk hraw
  rw [prePtr_buffer he.buffer, if_neg hraw] at hptr
  obtain ⟨hlight, htracks⟩ := he.preBuffer_eq hptr
  obtain ⟨n, hn, -⟩ := bind_eq_some_iff.mp hptr
  refine ⟨hlight, fun r hr => ?_⟩
  obtain rfl := hrecord r hr
  exact ⟨he.shadowSize_eq hn hsize, htracks⟩

/-- **All the arguments** of a call that takes nothing. -/
theorem preArgs_light {ss : List ArgSpec}
    (he : ∀ (j : ℕ) s, ss[j]? = some s → s.kind = .ptr → c.rawArgs (i + j) ≠ 0 →
      EmptyPtr c s (c.rawArgs (i + j)))
    {x : List ℕ × List Shadow × PreState} (h : preArgs c i ss st = some x) :
    Light st x.2.2 ∧ ∀ r ∈ x.2.1, r.size = 0 ∧ r.tracks = [] := by
  induction ss generalizing i st x with
  | nil =>
    cases h
    exact ⟨Light.refl st, by simp⟩
  | cons s ss ih =>
    obtain ⟨y, harg, h⟩ := bind_eq_some_iff.mp h
    obtain ⟨z, hrest, rfl⟩ := map_eq_some_iff.mp h
    obtain ⟨hlight, hrec⟩ := preArg_light (he 0 s rfl) harg
    obtain ⟨hlight', hrecs⟩ := ih (fun j s' hs => by
      rw [Nat.add_right_comm]
      exact he (j + 1) s' hs) hrest
    refine ⟨hlight.trans hlight', fun r hr => ?_⟩
    rcases mem_append.mp hr with hr | hr
    · exact hrec r (mem_toList.mp hr)
    · exact hrecs r hr

/-- A record of which nothing goes back. -/
structure Shadow.Empty (spec : MarshalSpec) (s : Shadow) : Prop where
  size : s.size = 0
  tracks : s.tracks = []
  slot : ∀ as, spec.args[s.argIndex]? = some as → as.outPtrIntoArg1 = 0

theorem preCall_light {args : List ℕ} (he : TakesNothing c spec nargs)
    (h : preCall c spec nargs mem = some (args, shadows, st)) :
    st.used = 0 ∧ st.mem = mem ∧ (∀ b ∈ st.shadows, b.len = 0) ∧
      ∀ s ∈ shadows, s.Empty spec := by
  have hrec := preCall_recorded False nofun h
  obtain ⟨-, hargs⟩ := ite_none_left_eq_some.mp h
  obtain ⟨hlight, hempty⟩ := preArgs_light (fun j s => by rw [Nat.zero_add]; exact he j s) hargs
  refine ⟨hlight.used, hlight.mem, fun b hb => ?_, fun s hs => ?_⟩
  · exact (hlight.blocks b hb).resolve_left (not_mem_nil)
  · obtain ⟨hsize, htracks⟩ := hempty s hs
    refine ⟨hsize, htracks, fun as has => ?_⟩
    obtain ⟨as', has', hr⟩ := hrec s hs
    have hspec := (ite_none_right_eq_some.mp (getElem?_take.symm.trans has')).2
    obtain rfl := mem_unique hspec has
    exact (he s.argIndex as' has' hr.kind hr.raw).slot

end Light

/-! ## The way back -/

section Back

variable {s : Shadow} {shadows rest : List Shadow} {st : PostState} {as : ArgSpec}

/-- A struct none of whose fields is tracked takes no scratch space. -/
theorem postStruct_untracked (hs : s.tracks = []) (st : PostState) :
    postStruct c s st =
      if s.direction ≠ .ptrOut ∧ s.direction ≠ .ptrInout then .ok st
      else if ¬ Owned c s.sourceCage s.grateCage then st.abort
      else if 0 < s.size then
        copyOut c st (.buffer s.layout) s.sourcePtr s.size (bytesFrom st.mem s.shadowPtr)
      else .ok st := by
  rw [postStruct, hs]
  rfl

/-- Nothing goes back of an empty record: it passes, or its owner does not. -/
theorem postShadow_empty (c : Call) (shadows : List Shadow) (he : s.Empty spec)
    (has : spec.args[s.argIndex]? = some as) : (∀ st, postShadow c as shadows s st = .ok st) ∨
      ∀ st, postShadow c as shadows s st = st.abort := by
  have hslot : ¬ as.outPtrIntoArg1 ≠ 0 := not_not.mpr (he.slot as has)
  have hsize : ¬ 0 < s.size := by rw [he.size]; exact lt_irrefl 0
  simp only [postShadow, if_neg hslot, postStruct_untracked he.tracks, hsize, false_and, if_false]
  by_cases hl : s.layout.isSome = true
  · simp only [if_pos hl]
    by_cases hdir : s.direction ≠ .ptrOut ∧ s.direction ≠ .ptrInout
    · exact .inl fun st => if_pos hdir
    · simp only [if_neg hdir]
      by_cases howned : ¬ Owned c s.sourceCage s.grateCage
      · exact .inr fun st => if_pos howned
      · exact .inl fun st => if_neg howned
  · exact .inl fun st => if_neg hl

theorem postShadows_empty (c : Call) (shadows : List Shadow) (he : ∀ s ∈ rest, s.Empty spec) :
    (∀ st, postShadows c spec shadows rest st = .ok st) ∨
      ∀ st, postShadows c spec shadows rest st = st.abort := by
  induction rest with
  | nil => exact .inl fun st => rfl
  | cons s rest ih =>
    obtain ⟨hs, hrest⟩ := forall_mem_cons.mp he
    cases has : spec.args[s.argIndex]? with
    | none =>
      refine .inl fun st => ?_
      rw [postShadows, has]
    | some as =>
      rcases postShadow_empty c shadows hs has with hok | habort
      · simp only [postShadows, has, hok]
        exact ih hrest
      · simp only [postShadows, has, habort]
        exact .inr fun st => rfl

/-- The same state with another fill of the arena. -/
def PostState.setUsed (u : ℕ) (st : PostState) : PostState := { st with used := u }

theorem copyOut_setUsed (st : PostState) (u : ℕ) (role : Role) (dest len : ℕ) (data : Mem) :
    copyOut c (st.setUsed u) role dest len data
      = (copyOut c st role dest len data).map (setUsed u) := by
  rw [copyOut, copyOut]
  split
  · dsimp only
    split <;> rfl
  · rfl

theorem postStruct_setUsed (hs : s.tracks = []) (u : ℕ) :
    postStruct c s (st.setUsed u) = (postStruct c s st).map (setUsed u) := by
  rw [postStruct_untracked hs, postStruct_untracked hs]
  split
  · rfl
  split
  · rfl
  split
  · exact copyOut_setUsed st u _ _ _ _
  · rfl

theorem postShadow_setUsed (hs : s.needsScratch as = false) (u : ℕ) :
    postShadow c as shadows s (st.setUsed u)
      = (postShadow c as shadows s st).map (setUsed u) := by
  have hmem : (st.setUsed u).mem = st.mem := rfl
  rw [postShadow, postShadow, hmem]
  split
  · cases slotValue c as shadows (st.mem.getWord s.shadowPtr) with
    | none => rfl
    | some v => exact copyOut_setUsed st u _ _ _ _
  next hslot =>
  split
  · next hl =>
    by_cases hdir : s.direction ≠ .ptrOut ∧ s.direction ≠ .ptrInout
    · rw [postStruct, postStruct, if_pos hdir, if_pos hdir]
      rfl
    · have hor : s.direction = .ptrOut ∨ s.direction = .ptrInout := by tauto
      refine postStruct_setUsed ?_ u
      by_contra hne
      simp [Shadow.needsScratch, not_not.mp hslot, hor, hl, hne] at hs
  split
  · exact copyOut_setUsed st u _ _ _ _
  · rfl

theorem postShadows_setUsed (hs : needsScratch spec rest = false) (u : ℕ) :
    postShadows c spec shadows rest (st.setUsed u)
      = (postShadows c spec shadows rest st).map (setUsed u) := by
  induction rest generalizing st with
  | nil => rfl
  | cons s rest ih =>
    rw [needsScratch, any_cons, Bool.or_eq_false_iff] at hs
    cases has : spec.args[s.argIndex]? with
    | none =>
      rw [postShadows, postShadows, has]
      rfl
    | some as =>
      have hone : s.needsScratch as = false := by
        have h := hs.1
        rw [has] at h
        exact h
      rw [postShadows, postShadows, has]
      dsimp only
      rw [postShadow_setUsed hone]
      cases postShadow c as shadows s st with
      | error ws => rfl
      | ok st' => exact ih hs.2

end Back

/-! ## The dispatch that is not disturbed -/

theorem not_taken_zero (g : Placement) (a : ℕ) : ¬ g.Taken 0 a := fun h => by
  have hle := h.1
  have hlt := h.2.2
  omega

theorem not_inShadow (h : ∀ b ∈ blocks, b.len = 0) (a : ℕ) : ¬ InShadow blocks a := by
  rintro ⟨b, hb, hle, hlt⟩
  rw [h b hb] at hlt
  omega

/-- A call that takes nothing leaves the arena empty, whatever its handler does. -/
theorem Inner.used_of_takesNothing (he : TakesNothing (n.call c) n.spec n.nargs)
    (h : n.run c mem = some (blocks, post, v)) : post.used = 0 := by
  obtain ⟨⟨args, shadows, st⟩, hpre, h⟩ := bind_eq_some_iff.mp h
  obtain ⟨hused, -, -, hempty⟩ := preCall_light he hpre
  rcases postShadows_empty (n.call c) shadows hempty with hok | habort
  · rw [hok] at h
    obtain ⟨v', -, heq⟩ := map_eq_some_iff.mp h
    obtain ⟨-, rfl, -⟩ := by simpa using heq
    exact hused
  · rw [habort] at h
    cases h

theorem needsScratch_of_empty (he : ∀ s ∈ shadows, s.Empty spec) :
    needsScratch spec shadows = false := by
  rw [needsScratch, List.any_eq_false]
  intro s hs
  cases spec.args[s.argIndex]? with
  | none => exact Bool.false_ne_true
  | some as => simp [Shadow.needsScratch, (he s hs).tracks]

namespace Reentry

variable {R : Reentrant} {r : Reentry c spec nargs R mem}

/-- Where the inner dispatch has taken nothing, nothing of D is lost. -/
theorem kept_eq_left (h : r.post.used = 0) : r.kept = r.left := by
  funext a
  rw [kept, h]
  exact if_neg (not_taken_zero _ a)

theorem kept_of_not_inArena {a : ℕ} (ha : ¬ c.grate.Taken arenaSize a) : r.kept a = r.left a :=
  if_neg fun h => ha ⟨h.1, h.2.1, h.2.1⟩

/-- A handler without shadows finds the same bytes either way. -/
theorem ownBytes_kept (h : ∀ b ∈ r.st.shadows, b.len = 0) :
    ownBytes c.grate r.st.shadows r.left = ownBytes c.grate r.st.shadows r.kept := by
  funext a
  rw [ownBytes, ownBytes]
  by_cases ha : c.grate.Taken arenaSize a
  · rw [if_pos ⟨ha, not_inShadow h a⟩, if_pos ⟨ha, not_inShadow h a⟩]
  · rw [if_neg fun h => ha h.1, if_neg fun h => ha h.1, kept_of_not_inArena ha]

/-- Without scratch space D goes on alike from any fill. -/
theorem resume_used (hs : needsScratch spec r.shadows = false) (cage u u' : ℕ) (mem : Mem) :
    r.resume cage u mem = r.resume cage u' mem := by
  rw [resume, resume]
  generalize R.after _ cage r.value _ = x
  show outcomeOf (postShadows c spec r.shadows r.shadows
    (setUsed u ⟨u', mem.patch x.stores, []⟩)) _ = _
  rw [postShadows_setUsed hs]
  cases postShadows c spec r.shadows r.shadows ⟨u', mem.patch x.stores, []⟩ <;> rfl

/-- A handler without shadows goes on alike over the two memories: it finds the same bytes, and
nothing goes back. -/
theorem resume_kept (hblocks : ∀ b ∈ r.st.shadows, b.len = 0)
    (hempty : ∀ s ∈ r.shadows, s.Empty spec) (cage u : ℕ) :
    r.resume cage u r.left = r.resume cage u r.kept := by
  rw [resume, resume, ownBytes_kept hblocks]
  rcases postShadows_empty c r.shadows hempty with hok | habort
  · rw [hok, hok]
    rfl
  · rw [habort, habort]
    rfl

/-- D goes on alike if it finds the same bytes and the same current source cage. -/
theorem undisturbed_of_eq (hcage : r.inner.sourceCage = c.sourceCage)
    (hscratch : needsScratch spec r.shadows = false)
    (hbytes : ownBytes c.grate r.st.shadows r.left = ownBytes c.grate r.st.shadows r.kept)
    (hresume : ∀ cage u, r.resume cage u r.left = r.resume cage u r.kept) : r.Undisturbed := by
  refine ⟨rfl, hcage, hbytes, _, _, if_neg (by simp [hscratch]), rfl, ?_⟩
  rw [hcage, hresume, resume_used hscratch c.sourceCage 0 r.st.used]
  exact ⟨forall₂_same.mpr fun w _ => ⟨rfl, rfl, fun _ _ => rfl⟩, rfl⟩

/-- **Re-entry.**  Let D or the inner dispatch take nothing from the arena and, in the second case,
D need no scratch space on its way back.  Then D goes on as if the inner dispatch had used an arena
and globals of its own — arguments, current source cage, bytes it finds, copies and result — exactly
if both calls come from the same cage. -/
theorem reentry_undisturbed (r : Reentry c spec nargs R mem)
    (h : TakesNothing c spec nargs ∨
      TakesNothing (r.inner.call c) r.inner.spec r.inner.nargs ∧
        needsScratch spec r.shadows = false) :
    r.Undisturbed ↔ r.inner.sourceCage = c.sourceCage := by
  constructor
  · exact fun hr => hr.sourceCage
  · intro hcage
    rcases h with he | ⟨he, hscratch⟩
    · obtain ⟨-, -, hblocks, hempty⟩ := preCall_light he r.pre
      exact undisturbed_of_eq hcage (needsScratch_of_empty hempty) (ownBytes_kept hblocks)
        (resume_kept hblocks hempty)
    · have hkept := kept_eq_left (Inner.used_of_takesNothing he r.ran)
      refine undisturbed_of_eq hcage hscratch ?_ fun cage u => ?_
      · rw [hkept]
      · rw [hkept]

end Reentry

/-! ## A read that calls out -/

/-- A handler that fills its buffer of 8 bytes, causes the dispatch `n`, and returns. -/
def readThenCall (n : Inner) : Reentrant :=
  ⟨fun args mem => mem.patch (Patch.window (args.headD 0) (fun _ => 0x41) 0 8), fun _ _ => n,
    fun _ _ _ _ => ⟨8, fun _ => none, [], 0⟩⟩

/-- The grate's memory with the buffer filled. -/
def filled : Mem := Mem.patch (Patch.window 4096 (fun _ => 0x41) 0 8) fun _ => 0

/-- A run of the read around a dispatch that leaves the memory `left`. -/
def readReentry (n : Inner) (blocks : List Block) (used : ℕ) (left : Mem)
    (hrun : n.run readCall filled = some (blocks, ⟨used, left, []⟩, 0)) :
    Reentry readCall readSpec 1 (readThenCall n) fun _ => 0 where
  args := [4096]
  shadows := [⟨0, 0x100, 4096, 8, .ptrOut, 1, 2, none, []⟩]
  st := ⟨8, fun _ => 0, [⟨4096, 8⟩]⟩
  pre := preCall_readCall _
  blocks := blocks
  post := ⟨used, left, []⟩
  value := 0
  ran := hrun
  left := left
  leaves := fun _ _ => rfl

/-- A dispatch without arguments, from the same cage. -/
def plainInner : Inner :=
  ⟨1, readCall.source, fun _ => 0, [], ⟨[], voidReturn⟩, 0, fun _ mem => ⟨0, mem, [], 0⟩⟩

/-- The read is not disturbed by it. -/
theorem reentry_undisturbed_plain : ∃ r : Reentry readCall readSpec 1 (readThenCall plainInner)
    (fun _ => 0), TakesNothing (r.inner.call readCall) r.inner.spec r.inner.nargs ∧
      needsScratch readSpec r.shadows = false ∧ r.Undisturbed := by
  let r := readReentry plainInner [] 0 filled rfl
  have hnothing : TakesNothing (plainInner.call readCall) plainInner.spec plainInner.nargs :=
    fun i s hs => absurd hs.symm (some_ne_none s)
  exact ⟨r, hnothing, rfl, (Reentry.reentry_undisturbed r (.inr ⟨hnothing, rfl⟩)).mpr rfl⟩

/-- Cage 3 passes its secret. -/
def secretInner : Inner :=
  ⟨3, secretCall.source, secretCall.rawArgs, [], ⟨[bytesPtr .ptrIn 8], voidReturn⟩, 1,
    fun _ mem => ⟨0, mem, [], 0⟩⟩

theorem secretInner_run : secretInner.run readCall filled =
    some ([⟨4096, 8⟩], ⟨8, filled.blit 4096 secretCall.source.bytes (2 ^ 32 + 0x300) 8, []⟩, 0) :=
  rfl

/-- The word at 0x104 of the calling cage after the outcome. -/
def wordBack (o : Option Outcome) : Option ℕ :=
  o.map fun o => (o.cageAfter readCall).bytes.getWord (2 ^ 32 + 0x104)

/-- **The inner call is copied to the caller of the outer one**: cage 1 reads 8 bytes, the handler
fills them and causes a dispatch from cage 3; what goes back to cage 1 is what cage 3 passed, and
the rest of the handler sees 3 as its source cage. -/
theorem not_undisturbed_secret : ∃ r : Reentry readCall readSpec 1 (readThenCall secretInner)
    (fun _ => 0), r.apart.sourceCage = 1 ∧ r.observed.sourceCage = 3 ∧
      wordBack r.apart.outcome = some 0x41414141 ∧ wordBack r.observed.outcome = some 0x53454352 ∧
      ¬ r.Undisturbed := by
  refine ⟨readReentry secretInner _ _ _ secretInner_run, rfl, rfl, by decide +kernel,
    by decide +kernel, fun hr => ?_⟩
  exact absurd hr.sourceCage (by decide)

end LindWasm.Marshal

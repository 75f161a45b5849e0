import LindWasm.Marshal.Arrive
import LindWasm.MarshalGen.Record

/-!
# MarshalGen/Declare — what a record declares, and what is emitted for it

    node -- ownSize, structPointee, touched --> the call it asks for
     └-- argSpecBody --> ArgSpec -- declSize, layout --> the call the runtime asks for

The sizes a record declares are read off its own nodes (`nodeSize`), and so is what a call must be
like for the runtime to take it in (`NodeReady`). The emitted spec says the same of a buffer
(`BufferNodeReady.sized`) and of the fields of its struct (`StructNodeReady.structReady`).
-/

namespace LindWasm.MarshalGen

open Marshal Option List

variable {c : Call} {hash : String → ℕ} {n : Node} {p q len k : ℕ} {top : Bool}

/-! ## What a record declares -/

namespace Node

def IsPtr (n : Node) : Prop := n.keys.kind = some .ptr
deriving Decidable

def IsHandle (n : Node) : Prop := n.keys.kind = some .handle

/-- A field the runtime is told to look at. -/
def IsWalked (n : Node) : Prop := n.keys.touched ∧ (n.IsPtr ∨ n.IsHandle)

def fieldOffset (n : Node) : ℕ := n.keys.offset.getD 0

def IsArray (n : Node) : Prop := n.keys.effectiveSize = .ptrArray
deriving Decidable

/-- The caller's bytes are part of the pointee. -/
def CopiesIn (n : Node) : Prop := n.keys.dir ≠ some .dirOut

/-- The struct a pointer points to. -/
def structPointee (n : Node) : Option Node :=
  match n.pointee with
  | [] => none
  | st :: _ => if st.keys.kind = some .struct then some st else none

/-- The bytes of the pointee: those of its struct if it has a size, else the pointer's own. -/
def allocSize (n : Node) (size : ℕ) : ℕ :=
  match n.structPointee with
  | some st => if st.keys.size.getD 0 = 0 then size else st.keys.size.getD 0
  | none => size

/-- **Induction along first pointees.** -/
@[elab_as_elim]
theorem pointeeInduction {motive : Node → Prop} (leaf : ∀ n, n.pointee = [] → motive n)
    (step : ∀ n e es, n.pointee = e :: es → motive e → motive n) : (n : Node) → motive n
  | .mk _ [] _ => leaf _ rfl
  | .mk _ (e :: _) _ => step _ e _ rfl (pointeeInduction leaf step e)

end Node

/-- Where a pointer node stands: it is an argument or an element of an array, or a field of the
struct at `p`. -/
inductive Place where
  | root (top : Bool)
  | field (fields : List Node) (p : ℕ)

/-- The size a pointer declares by its size kind. -/
def ownSize (c : Call) (place : Place) (n : Node) (q : ℕ) : Option ℕ :=
  match n.keys.effectiveSize with
  | .const => some (n.keys.constSize.getD 0)
  | .cstr => cstrSize c q
  | .fromArg =>
      match place with
      | .root top =>
          if top ∧ n.keys.sizeIndex < rawArgsMax then some (u32 (c.rawArgs n.keys.sizeIndex))
          else none
      | .field fields p =>
          (fields[n.keys.sizeIndex]?).map fun sibling => c.wordAt p sibling.fieldOffset
  | .fromArgPointee =>
      match place with
      | .root top =>
          if top ∧ n.keys.sizeIndex < rawArgsMax then
            some (c.wordAt (c.rawArgs n.keys.sizeIndex) 0)
          else none
      | .field _ _ => none
  | .ptrArray | .null | .none | .na | .other => none

/-- The size of a pointee: an array has a word for each element and a null, a struct its own. -/
def nodeSize (c : Call) (place : Place) (n : Node) (q : ℕ) : Option ℕ :=
  if n.IsArray then (readElems c q ptrArrayMax 0).map fun ps => (ps.length + 1) * 4
  else
    match place with
    | .root _ => (ownSize c place n q).map n.allocSize
    | .field _ _ => ownSize c place n q

/-! ## What a call must be like -/

/-- The pointee of the field `n` of the struct `st`, which is `alloc` bytes at `p`. -/
structure FieldNodeReady (c : Call) (st : Node) (p alloc : ℕ) (n : Node) (q len : ℕ) : Prop where
  size : ownSize c (.field st.fields p) n q = some len
  wide : len < 2 ^ 32
  scan : n.keys.effectiveSize = .cstr → Scannable c q len
  sibling : n.keys.effectiveSize = .fromArg → ∀ sib, st.fields[n.keys.sizeIndex]? = some sib →
    sib.fieldOffset + 4 ≤ alloc ∧ ∀ f ∈ st.fields, f.IsWalked →
      sib.fieldOffset + 4 ≤ f.fieldOffset ∨ f.fieldOffset + 4 ≤ sib.fieldOffset
  copy : 0 < len → n.CopiesIn → CopyAllowed c c.source.readable q len
  flat : ∀ st', n.structPointee = some st' → ∀ f ∈ st'.fields, f.keys.touched → ¬ f.IsPtr

/-- The struct `st` behind the pointer `n`, `alloc` bytes at `p`. -/
structure StructNodeReady (hash : String → ℕ) (c : Call) (n st : Node) (p alloc : ℕ) : Prop where
  few : st.fields.length < 2 ^ 32
  copies : ∀ f ∈ st.fields, f.IsWalked → n.CopiesIn
  inside : ∀ f ∈ st.fields, f.IsWalked → f.fieldOffset + 4 ≤ alloc
  apart : st.fields.Pairwise fun f g => f.IsWalked → g.IsWalked →
    f.fieldOffset + 4 ≤ g.fieldOffset ∨ g.fieldOffset + 4 ≤ f.fieldOffset
  handle : ∀ f ∈ st.fields, f.keys.touched → f.IsHandle → c.wordAt p f.fieldOffset ≠ 0 →
    (translateHandle c.handles (handleClassId hash f.keys.handleClass)
      (c.wordAt p f.fieldOffset)).isSome
  child : ∀ f ∈ st.fields, f.keys.touched → f.IsPtr → c.wordAt p f.fieldOffset ≠ 0 →
    ∃ len, FieldNodeReady c st p alloc f (c.wordAt p f.fieldOffset) len

/-- A buffer at `p` whose pointer declares `len` bytes. -/
structure BufferNodeReady (hash : String → ℕ) (c : Call) (top : Bool) (n : Node) (p len : ℕ) :
    Prop where
  size : ownSize c (.root top) n p = some len
  wide : len < 2 ^ 32
  fits : n.allocSize len ≤ arenaSize
  scan : n.keys.effectiveSize = .cstr → Scannable c p len
  behind : n.keys.effectiveSize = .fromArgPointee →
    CopyAllowed c c.source.readable (c.rawArgs n.keys.sizeIndex) 4
  copy : 0 < n.allocSize len → n.CopiesIn →
    CopyAllowed c c.source.readable p (n.allocSize len)
  struct : ∀ st, n.structPointee = some st → st.keys.size.getD 0 < 2 ^ 32 ∧
    StructNodeReady hash c n st p (n.allocSize len)

/-- The pointer at a node: an array is shorter than the cap and its elements are pointers in turn,
anything else a buffer. -/
def NodeReady (hash : String → ℕ) (c : Call) : Bool → Node → ℕ → Prop
  | top, .mk keys pointee fields, p =>
      if keys.effectiveSize = .ptrArray then
        ∃ ps, readElems c p ptrArrayMax 0 = some ps ∧ ps.length < ptrArrayMax ∧
          match pointee with
          | [] => True
          | e :: _ => ∀ q ∈ ps, e.IsPtr ∧ NodeReady hash c false e q
      else ∃ len, BufferNodeReady hash c top (.mk keys pointee fields) p len

/-! ## The room it takes -/

def fieldNodeNeed (c : Call) (st : Node) (p : ℕ) (f : Node) : ℕ :=
  if f.keys.touched ∧ f.IsPtr ∧ c.wordAt p f.fieldOffset ≠ 0 then
    space ((ownSize c (.field st.fields p) f (c.wordAt p f.fieldOffset)).getD 0)
  else 0

def structNodeNeed (c : Call) (n : Node) (p : ℕ) : ℕ :=
  match n.structPointee with
  | some st => space (st.fields.length * trackSize) + (st.fields.map (fieldNodeNeed c st p)).sum
  | none => 0

/-- The shadows of all that is behind a pointer, and the tables of its structs. -/
def nodeNeed (c : Call) : Bool → Node → ℕ → ℕ
  | top, .mk keys pointee fields, p =>
      if keys.effectiveSize = .ptrArray then
        let ps := (readElems c p ptrArrayMax 0).getD []
        space ((ps.length + 1) * 4) +
          match pointee with
          | [] => 0
          | e :: _ => (ps.map (nodeNeed c false e)).sum
      else
        let n := Node.mk keys pointee fields
        space (n.allocSize ((ownSize c (.root top) n p).getD 0)) + structNodeNeed c n p

/-! ## The emitted spec -/

/-- What is emitted for a field. -/
def emitField (hash : String → ℕ) (f : Node) : Field :=
  .mk (u32 f.fieldOffset) (argSpecBody hash f) f.keys.touched

theorem emitFields_eq (ns : List Node) : emitFields hash ns = ns.map (emitField hash) := by
  induction ns with
  | nil => rfl
  | cons n ns ih => rw [emitFields, ih]; rfl

theorem fields_emitLayout (st : Node) :
    (emitLayout hash st).fields = st.fields.map (emitField hash) := by
  obtain ⟨keys, pointee, fields⟩ := st
  exact emitFields_eq fields

theorem kind_emitLayout (st : Node) : (emitLayout hash st).kind = .struct := by
  obtain ⟨keys, pointee, fields⟩ := st
  rfl

theorem structSize_emitLayout (st : Node) :
    (emitLayout hash st).structSize = u32 (st.keys.size.getD 0) := by
  obtain ⟨keys, pointee, fields⟩ := st
  rfl

theorem emitPointee_eq (n : Node) :
    emitPointee hash n.pointee = n.structPointee.map (emitLayout hash) := by
  rw [Node.structPointee]
  cases n.pointee with
  | nil => rfl
  | cons st sts => simp only [emitPointee]; split <;> rfl

theorem argSpecBody_of_isPtr (h : n.IsPtr) : argSpecBody hash n =
    if n.IsArray then ptrSpec n.keys none (emitElement hash n.pointee) 0
    else ptrSpec n.keys (n.structPointee.map (emitLayout hash)) none (emitIntoArg n.pointee) := by
  rw [← emitPointee_eq]
  obtain ⟨keys, pointee, fields⟩ := n
  rw [argSpecBody, show keys.kind = some .ptr from h]
  rfl

theorem kind_argSpecBody (n : Node) :
    ((argSpecBody hash n).kind = .ptr ↔ n.IsPtr) ∧
      ((argSpecBody hash n).kind = .handle ↔ n.IsHandle) := by
  obtain ⟨keys, pointee, fields⟩ := n
  simp only [argSpecBody, Node.IsPtr, Node.IsHandle, Node.keys]
  rcases keys.kind with _ | k
  · simp [scalarSpec, ArgSpec.kind]
  · cases k with
    | ptr => simp only [getD_some]; split <;> simp [ptrSpec, ArgSpec.kind]
    | handle => simp [handleSpec, ArgSpec.kind]
    | scalar | struct | union | ptrIntoArg | other => simp [scalarSpec, ArgSpec.kind]

theorem handleClass_argSpecBody (h : n.IsHandle) :
    (argSpecBody hash n).handleClass = handleClassId hash n.keys.handleClass := by
  obtain ⟨keys, pointee, fields⟩ := n
  rw [argSpecBody, show keys.kind = some .handle from h]
  rfl

theorem walked_emitField (f : Node) : (emitField hash f).Walked ↔ f.IsWalked := by
  obtain ⟨hptr, hhandle⟩ : ((argSpecBody hash f).kind = .ptr ↔ f.IsPtr) ∧
    ((argSpecBody hash f).kind = .handle ↔ f.IsHandle) := kind_argSpecBody f
  refine and_congr Iff.rfl ?_
  rw [← hptr, ← hhandle]
  show (argSpecBody hash f).kind ≠ .scalar ↔ _
  cases (argSpecBody hash f).kind <;> simp

theorem touchedPtr_emitField (f : Node) :
    (emitField hash f).TouchedPtr ↔ f.keys.touched ∧ f.IsPtr :=
  and_congr Iff.rfl (kind_argSpecBody f).1

section

variable (h : n.IsPtr)
include h

theorem sizeKind_argSpecBody :
    (argSpecBody hash n).sizeKind = emitSizeKind n.keys.effectiveSize := by
  rw [argSpecBody_of_isPtr h]
  split <;> rfl

theorem constSize_argSpecBody (hsize : n.keys.effectiveSize = .const) :
    (argSpecBody hash n).constSize = u64 (n.keys.constSize.getD 0) := by
  rw [argSpecBody_of_isPtr h]
  split <;> simp [ptrSpec, ArgSpec.constSize, hsize]

theorem sizeArgIndex_argSpecBody
    (hsize : n.keys.effectiveSize = .fromArg ∨ n.keys.effectiveSize = .fromArgPointee) :
    (argSpecBody hash n).sizeArgIndex = u32 n.keys.sizeIndex := by
  rw [argSpecBody_of_isPtr h]
  split <;> simp [ptrSpec, ArgSpec.sizeArgIndex, hsize]

theorem layout_argSpecBody (harray : ¬ n.IsArray) :
    (argSpecBody hash n).layout = n.structPointee.map (emitLayout hash) := by
  rw [argSpecBody_of_isPtr h, if_neg harray]
  rfl

theorem element_argSpecBody (harray : n.IsArray) :
    (argSpecBody hash n).element = emitElement hash n.pointee := by
  rw [argSpecBody_of_isPtr h, if_pos harray]
  rfl

theorem copiesIn_argSpecBody : (argSpecBody hash n).copiesIn ↔ n.CopiesIn := by
  have hdir : (argSpecBody hash n).ptrDirection = emitDir (n.keys.dir.getD .dirIn) := by
    rw [argSpecBody_of_isPtr h]
    split <;> rfl
  rw [ArgSpec.copiesIn, hdir, Node.CopiesIn]
  rcases n.keys.dir with _ | d
  · simp [emitDir]
  · cases d <;> simp [emitDir]

theorem sizeKind_eq_ptrArray : (argSpecBody hash n).sizeKind = .ptrArray ↔ n.IsArray := by
  rw [sizeKind_argSpecBody h, Node.IsArray]
  cases n.keys.effectiveSize <;> simp [emitSizeKind]

end

/-! ## The spec's sizes are the record's -/

theorem u32_of_lt (h : k < 2 ^ 32) : u32 k = k := Nat.mod_eq_of_lt h

theorem u32_u64_of_lt (h : k < 2 ^ 32) : u32 (u64 k) = k := by
  unfold u32 u64
  omega

theorem u32_sizeIndex (h : k < rawArgsMax) : u32 k = k :=
  u32_of_lt (by unfold rawArgsMax at h; omega)

theorem declSize_argSpecBody (h : n.IsPtr) (hsize : ownSize c (.root top) n p = some len)
    (hwide : len < 2 ^ 32) : declSize c top (argSpecBody hash n) p = some len := by
  rw [declSize, sizeKind_argSpecBody h]
  rw [ownSize] at hsize
  cases hsk : n.keys.effectiveSize with
  | const =>
    rw [hsk] at hsize
    cases hsize
    simp only [emitSizeKind, constSize_argSpecBody h hsk, u32_u64_of_lt hwide]
  | cstr => rw [hsk] at hsize; exact hsize
  | fromArg =>
    simp only [hsk, ite_none_right_eq_some] at hsize
    obtain ⟨⟨htop, hidx⟩, hsize⟩ := hsize
    simpa [emitSizeKind, sizeArgIndex_argSpecBody h (.inl hsk), u32_sizeIndex hidx, htop, hidx]
      using hsize
  | fromArgPointee =>
    simp only [hsk, ite_none_right_eq_some] at hsize
    obtain ⟨⟨htop, hidx⟩, hsize⟩ := hsize
    simpa [emitSizeKind, sizeArgIndex_argSpecBody h (.inr hsk), u32_sizeIndex hidx, htop, hidx]
      using hsize
  | ptrArray | null | none | na | other => simp [hsk] at hsize

theorem allocSizeOf_argSpecBody (h : n.IsPtr) (harray : ¬ n.IsArray)
    (hwide : ∀ st, n.structPointee = some st → st.keys.size.getD 0 < 2 ^ 32) (len : ℕ) :
    allocSizeOf (argSpecBody hash n) len = n.allocSize len := by
  rw [allocSizeOf, layout_argSpecBody h harray, Node.allocSize]
  cases hst : n.structPointee with
  | none => rfl
  | some st => simp only [map_some, structSize_emitLayout, u32_of_lt (hwide st hst)]

theorem not_isArray {place : Place} (h : ownSize c place n q = some len) :
    ¬ n.IsArray := fun harray => by
  have hsk : n.keys.effectiveSize = .ptrArray := harray
  simp [ownSize, hsk] at h

theorem BufferNodeReady.sized (h : n.IsPtr) (hready : BufferNodeReady hash c top n p len) :
    Sized c top (argSpecBody hash n) p len := by
  have hsize := hready.size
  refine ⟨declSize_argSpecBody h hsize hready.wide, fun hsk => hready.scan ?_, fun hsk => ?_⟩
  · rw [sizeKind_argSpecBody h] at hsk
    cases he : n.keys.effectiveSize <;> simp_all [emitSizeKind]
  · rw [sizeKind_argSpecBody h] at hsk
    have he : n.keys.effectiveSize = .fromArgPointee := by
      cases he : n.keys.effectiveSize <;> simp_all [emitSizeKind]
    simp only [ownSize, he, ite_none_right_eq_some] at hsize
    rw [sizeArgIndex_argSpecBody h (.inr he), u32_sizeIndex hsize.1.2]
    exact hready.behind he

section Struct

variable {st f : Node} {alloc len : ℕ} (halloc : alloc ≤ arenaSize)
include halloc

theorem offset_emitField (hin : f.fieldOffset + 4 ≤ alloc) :
    (emitField hash f).offset = f.fieldOffset :=
  u32_of_lt (by unfold arenaSize at halloc; omega)

section

variable (h : f.IsPtr) (hfew : st.fields.length < 2 ^ 32)
  (hready : FieldNodeReady c st p alloc f q len)
include h hfew hready

theorem fieldSize_emitField :
    fieldSize c (emitLayout hash st) (argSpecBody hash f) p q = some len := by
  have hsize := hready.size
  rw [ownSize] at hsize
  rw [fieldSize, sizeKind_argSpecBody h]
  cases hsk : f.keys.effectiveSize with
  | const =>
    rw [hsk] at hsize
    cases hsize
    simp only [emitSizeKind, constSize_argSpecBody h hsk, u32_u64_of_lt hready.wide]
  | cstr =>
    rw [hsk] at hsize
    exact measureCstr_eq hsize (hready.scan hsk)
  | fromArg =>
    simp only [hsk, map_eq_some_iff] at hsize
    obtain ⟨sib, hsib, hword⟩ := hsize
    have hidx := (List.getElem?_eq_some_iff.mp hsib).1
    have hin := (hready.sibling hsk sib hsib).1
    simp only [emitSizeKind, sizeArgIndex_argSpecBody h (.inl hsk), fields_emitLayout,
      u32_of_lt (hidx.trans hfew), List.getElem?_map, hsib, map_some,
      offset_emitField halloc hin, hword]
  | fromArgPointee | ptrArray | null | none | na | other => simp [hsk] at hsize

theorem FieldNodeReady.childReady (hin : ∀ g ∈ st.fields, g.IsWalked → g.fieldOffset + 4 ≤ alloc) :
    ChildReady c (emitLayout hash st) (argSpecBody hash f) p alloc q len := by
  have hsibling : (argSpecBody hash f).sizeKind = .fromArg → ∀ s,
      (emitLayout hash st).fields[(argSpecBody hash f).sizeArgIndex]? = some s →
      ∃ sib, s = emitField hash sib ∧ sib.fieldOffset + 4 ≤ alloc ∧ ∀ g ∈ st.fields, g.IsWalked →
        sib.fieldOffset + 4 ≤ g.fieldOffset ∨ g.fieldOffset + 4 ≤ sib.fieldOffset := by
    intro hsk s hs
    rw [sizeKind_argSpecBody h] at hsk
    have he : f.keys.effectiveSize = .fromArg := by
      cases he : f.keys.effectiveSize <;> simp_all [emitSizeKind]
    have hsize := hready.size
    simp only [ownSize, he, map_eq_some_iff] at hsize
    obtain ⟨sib, hsib, -⟩ := hsize
    have hidx := (List.getElem?_eq_some_iff.mp hsib).1
    rw [sizeArgIndex_argSpecBody h (.inl he), u32_of_lt (hidx.trans hfew), fields_emitLayout,
      List.getElem?_map, hsib] at hs
    cases hs
    exact ⟨sib, rfl, hready.sibling he sib hsib⟩
  refine ⟨fieldSize_emitField halloc h hfew hready, fun hsk s hs => ?_, fun hsk s hs => ?_,
    fun hpos hcopies => hready.copy hpos ((copiesIn_argSpecBody h).mp hcopies)⟩
  · obtain ⟨sib, rfl, hsib, hapart⟩ := hsibling hsk s hs
    rw [offset_emitField halloc hsib]
    refine ⟨by unfold arenaSize at halloc; omega, ?_⟩
    rw [fields_emitLayout, List.forall_mem_map]
    intro g hg hw
    have hw := (walked_emitField g).mp hw
    rw [offset_emitField halloc (hin g hg hw)]
    exact hapart g hg hw
  · obtain ⟨sib, rfl, hsib, -⟩ := hsibling hsk s hs
    rw [offset_emitField halloc hsib]
    exact hsib

end

theorem StructNodeReady.structReady (h : n.IsPtr) (hready : StructNodeReady hash c n st p alloc) :
    StructReady c (argSpecBody hash n) (emitLayout hash st) p alloc := by
  have hoff : ∀ f ∈ st.fields, (emitField hash f).Walked →
      f.IsWalked ∧ (emitField hash f).offset = f.fieldOffset := fun f hf hw => by
    have hw := (walked_emitField f).mp hw
    exact ⟨hw, offset_emitField halloc (hready.inside f hf hw)⟩
  refine ⟨⟨?_, ?_⟩, ?_, ?_, ?_, ?_⟩
  all_goals rw [fields_emitLayout]
  · refine forall_mem_map.mpr fun f hf hw => ?_
    obtain ⟨hw, hoff⟩ := hoff f hf hw
    have := hready.inside f hf hw
    unfold arenaSize at halloc
    omega
  · refine pairwise_map.mpr (hready.apart.imp_of_mem fun {f g} hf hg hapart hwf hwg => ?_)
    obtain ⟨hwf, hf⟩ := hoff f hf hwf
    obtain ⟨hwg, hg⟩ := hoff g hg hwg
    rw [hf, hg]
    exact hapart hwf hwg
  · refine forall_mem_map.mpr fun f hf hw => ?_
    exact (copiesIn_argSpecBody h).mpr (hready.copies f hf (hoff f hf hw).1)
  · refine forall_mem_map.mpr fun f hf hw => ?_
    obtain ⟨hw, hoff⟩ := hoff f hf hw
    rw [hoff]
    exact hready.inside f hf hw
  · refine forall_mem_map.mpr fun f hf ht hk hne => ?_
    have hhandle : f.IsHandle := (kind_argSpecBody f).2.mp hk
    rw [offset_emitField halloc (hready.inside f hf ⟨ht, .inr hhandle⟩)] at hne ⊢
    rw [show (emitField hash f).spec = argSpecBody hash f from rfl, handleClass_argSpecBody hhandle]
    exact hready.handle f hf ht hhandle hne
  · refine forall_mem_map.mpr fun f hf hp hne => ?_
    obtain ⟨ht, hptr⟩ := (touchedPtr_emitField f).mp hp
    rw [offset_emitField halloc (hready.inside f hf ⟨ht, .inl hptr⟩)] at hne ⊢
    obtain ⟨len, hchild⟩ := hready.child f hf ht hptr hne
    exact ⟨len, hchild.childReady halloc hptr hready.few hready.inside⟩

theorem fieldNeed_emitField (hready : StructNodeReady hash c n st p alloc) (hf : f ∈ st.fields) :
    fieldNeed c (emitLayout hash st) p (emitField hash f) = fieldNodeNeed c st p f := by
  rw [fieldNeed, fieldNodeNeed]
  by_cases hp : f.keys.touched ∧ f.IsPtr
  · have hoff : (emitField hash f).offset = f.fieldOffset :=
      offset_emitField halloc (hready.inside f hf ⟨hp.1, .inl hp.2⟩)
    rw [hoff]
    by_cases hne : c.wordAt p f.fieldOffset ≠ 0
    · obtain ⟨len, hchild⟩ := hready.child f hf hp.1 hp.2 hne
      rw [if_pos ⟨(touchedPtr_emitField f).mpr hp, hne⟩, if_pos ⟨hp.1, hp.2, hne⟩, hchild.size]
      exact congrArg (fun o => space (getD o 0))
        (fieldSize_emitField halloc hp.2 hready.few hchild)
    · rw [if_neg fun h => hne h.2, if_neg fun h => hne h.2.2]
  · rw [if_neg fun h => hp ((touchedPtr_emitField f).mp h.1), if_neg fun h => hp ⟨h.1, h.2.1⟩]

end Struct

end LindWasm.MarshalGen

import LindWasm.Marshal.Pre

/-!
# Marshal/Dispatch — the handler call and the way back

    preCall --> handler --> copy-back of every shadow --> return translation

What the handler leaves in its shadows is not trusted: a pointer it wrote is translated only from a
position inside the shadow it belongs to. Everything written to the calling cage is recorded in
order, with what it is a copy of, so that the writes made before a trap are seen too.
-/

namespace LindWasm.Marshal

/-! ## Writes to the calling cage -/

/-- What a write is a copy of: a buffer, with the layout of its bytes if it has one, or the slot of
an OUT pointer-to-pointer. -/
inductive Role where
  | buffer (layout : Option Layout)
  | slot

/-- One write: `len` bytes of `data` at the cage's address `dest`. -/
structure Write where
  role : Role
  dest : ℕ
  len : ℕ
  data : Mem

/-- The calling cage after a write. -/
def Write.apply (cage : Cage) (w : Write) : Cage :=
  { cage with bytes := cage.bytes.blit (ensureHostAddr cage.base w.dest) w.data 0 w.len }

/-- The grate after the handler: the arena's fill and its memory; and the writes made so far. -/
structure PostState where
  used : ℕ
  mem : Mem
  writes : List Write

/-- A step of the way back: it goes on, or traps with the writes made so far. -/
abbrev Post (α : Type) := Except (List Write) α

def PostState.abort {α : Type} (st : PostState) : Post α := .error st.writes

variable (c : Call)

/-- `_lind_copy_or_abort` towards the calling cage: a copy that was made may still read as a
failure. -/
def copyOut (st : PostState) (role : Role) (dest len : ℕ) (data : Mem) :
    Post PostState :=
  if CopyAllowed c c.source.writable dest len then
    let st := { st with writes := st.writes ++ [⟨role, dest, len, data⟩] }
    if ReadsAborted dest then st.abort else .ok st
  else st.abort

/-- The bytes of the grate's memory from `shadow` on. -/
def bytesFrom (mem : Mem) (shadow : ℕ) : Mem := fun i => mem (shadow + i)

/-! ## Pointers the handler left -/

/-- `_lind_validate_shadow_offset`: the candidate's offset in the shadow. -/
def validateShadowOffset (base len candidate : ℕ) (allowOnePast : Bool) : Option ℕ :=
  if len > 2 ^ 32 - 1 - base then none
  else if candidate < base then none
  else if candidate = base + len then if allowOnePast then some len else none
  else if candidate > base + len then none
  else some (candidate - base)

/-- `_lind_translate_shadow_ptr_or_abort`. -/
def translateShadowPtr (base len : ℕ) (allowOnePast : Bool) (sourcePtr candidate : ℕ) : Option ℕ :=
  if candidate = 0 then some 0
  else if candidate > 2 ^ 32 - 1 ∨ sourcePtr > 2 ^ 32 - 1 then none
  else
    (validateShadowOffset base len candidate allowOnePast).bind fun offset =>
      if offset > 2 ^ 32 - 1 - sourcePtr then none else some (sourcePtr + offset)

/-- `_lind_check_shadow_owner`. -/
def Owned (sourceCage grateCage : ℕ) : Prop :=
  sourceCage = c.sourceCage ∧ grateCage = c.grateCage
deriving Decidable

/-! ## Structs -/

/-- The size copied back for a pointer the handler did not advance: the field's nominal size,
clamped to its shadow. -/
def nominalSize (lo : Option Layout) (t : Track) (mem : Mem) (shadowPtr : ℕ) : ℕ :=
  match lo with
  | none => 0
  | some lo =>
      let size :=
        if (lo.fields.any fun f => f.offset = t.offset) ∧ t.spec.sizeKind = .fromArg then
          match lo.fields[t.spec.sizeArgIndex]? with
          | some sibling => mem.getWord (u32 (shadowPtr + sibling.offset))
          | none => 0
        else if t.spec.sizeKind = .const then u32 t.spec.constSize
        else 0
      min size t.shadowLen

/-- Phase 1 for one tracked field: how many bytes to copy back, and the translated pointer. -/
def checkTrack (s : Shadow) (mem : Mem) (t : Track) : Option (ℕ × ℕ) :=
  if ¬ Owned c t.sourceCage t.grateCage then none
  else
    let cur := mem.getWord (u32 (s.shadowPtr + t.offset))
    if cur = 0 then some (0, 0)
    else
      (validateShadowOffset t.shadowStart t.shadowLen cur t.spec.allowOnePast).bind fun offset =>
      let size :=
        if t.spec.copiesOut then
          if offset = 0 then nominalSize s.layout t mem s.shadowPtr else offset
        else 0
      if t.origSrcPtr > 2 ^ 32 - 1 then none
      else if offset > 2 ^ 32 - 1 - t.origSrcPtr then none
      else some (size, u32 (t.origSrcPtr + offset))

/-- Phase 1: every tracked field, before anything is written. -/
def checkTracks (c : Call) (s : Shadow) (mem : Mem) : List Track → Option (List (Track × ℕ × ℕ))
  | [] => some []
  | t :: ts =>
      (checkTrack c s mem t).bind fun r => (checkTracks c s mem ts).map ((t, r) :: ·)

/-- Phase 2: the translated pointers replace the grate's in the struct's shadow. -/
def sanitize (shadowPtr : ℕ) (mem : Mem) (checked : List (Track × ℕ × ℕ)) : Mem :=
  checked.foldl (fun mem x => mem.putWord (u32 (shadowPtr + x.1.offset)) x.2.2) mem

/-- Phase 3: the pointees of the tracked fields. -/
def copyChildren (c : Call) : List (Track × ℕ × ℕ) → PostState → Post PostState
  | [], st => .ok st
  | (t, size, _) :: rest, st =>
      if 0 < size then
        match copyOut c st (.buffer t.spec.layout) t.origSrcPtr size
          (bytesFrom st.mem t.shadowStart) with
        | .error ws => .error ws
        | .ok st => copyChildren c rest st
      else copyChildren c rest st

/-- The scratch space of phase 1. -/
def allocScratch (used n : ℕ) : Option ℕ :=
  if n = 0 then some used
  else if n > (2 ^ 32 - 1) / 4 then none
  else
    (marshalAlloc c.grate used (n * 4)).bind fun (_, used) =>
      (marshalAlloc c.grate used (n * 4)).map fun (_, used) => used

/-- `_lind_post_struct`. -/
def postStruct (s : Shadow) (st : PostState) : Post PostState :=
  if s.direction ≠ .ptrOut ∧ s.direction ≠ .ptrInout then .ok st
  else if ¬ Owned c s.sourceCage s.grateCage then st.abort
  else
    match allocScratch c st.used s.tracks.length with
    | none => st.abort
    | some used =>
        match checkTracks c s st.mem s.tracks with
        | none => st.abort
        | some checked =>
            let st := { st with used, mem := sanitize s.shadowPtr st.mem checked }
            match copyChildren c checked st with
            | .error ws => .error ws
            | .ok st =>
                if 0 < s.size then
                  copyOut c st (.buffer s.layout) s.sourcePtr s.size (bytesFrom st.mem s.shadowPtr)
                else .ok st

/-! ## All shadows -/

/-- The shadow of an argument. -/
def findShadow (shadows : List Shadow) (argIndex : ℕ) : Option Shadow :=
  shadows.find? fun s => s.argIndex = argIndex

/-- What the callee wrote to an OUT pointer-to-pointer, translated. -/
def slotValue (as : ArgSpec) (shadows : List Shadow) (inner : ℕ) : Option ℕ :=
  if inner = 0 then some 0
  else
    (findShadow shadows (as.outPtrIntoArg1 - 1)).bind fun t =>
      if Owned c t.sourceCage t.grateCage then
        translateShadowPtr t.shadowPtr t.size as.allowOnePast t.sourcePtr inner
      else none

/-- The way back of one shadow. -/
def postShadow (as : ArgSpec) (shadows : List Shadow) (s : Shadow) (st : PostState) :
    Post PostState :=
  if as.outPtrIntoArg1 ≠ 0 then
    match slotValue c as shadows (st.mem.getWord s.shadowPtr) with
    | none => st.abort
    | some translated => copyOut c st .slot s.sourcePtr 4 (Mem.wordBytes translated)
  else if s.layout.isSome then postStruct c s st
  else if 0 < s.size ∧ (s.direction = .ptrOut ∨ s.direction = .ptrInout) then
    copyOut c st (.buffer none) s.sourcePtr s.size (bytesFrom st.mem s.shadowPtr)
  else .ok st

/-- The way back, shadow by shadow. -/
def postShadows (c : Call) (spec : MarshalSpec) (shadows : List Shadow) :
    List Shadow → PostState → Post PostState
  | [], st => .ok st
  | s :: rest, st =>
      match spec.args[s.argIndex]? with
      | none => .ok st
      | some as =>
          match postShadow c as shadows s st with
          | .error ws => .error ws
          | .ok st => postShadows c spec shadows rest st

/-! ## The result -/

/-- `lind_register_handle`: the token and the table, if there is a free slot. -/
def registerHandle (nextToken cls realObj : ℕ) :
    List HandleEntry → Option (ℕ × List HandleEntry)
  | [] => none
  | h :: hs =>
      if h.inUse then
        (registerHandle nextToken cls realObj hs).map fun (tok, hs) => (tok, h :: hs)
      else some (nextToken, ⟨nextToken, realObj, cls, true⟩ :: hs)

/-- What the handler leaves: its result, the grate's memory, and the handle table. -/
structure HandlerResult where
  ret : ℕ
  mem : Mem
  handles : List HandleEntry
  nextToken : ℕ

/-- A handler, given its six arguments and the grate's memory. -/
abbrev Handler := List ℕ → Mem → HandlerResult

/-- The return translation; a trap is `none`. -/
def translateReturn (ret : ReturnSpec) (shadows : List Shadow) (r : HandlerResult) :
    Option ℕ :=
  match ret.kind with
  | .void => some 0
  | .ptrAliasArg => some (c.rawArgs ret.aliasArgIndex)
  | .ptrIntoArg =>
      if r.ret = 0 then some 0
      else
        (findShadow shadows ret.aliasArgIndex).bind fun s =>
          if Owned c s.sourceCage s.grateCage then
            translateShadowPtr s.shadowPtr s.size (ret.flags % 2 = 1) s.sourcePtr r.ret
          else none
  | .handle =>
      (registerHandle r.nextToken ret.handleClass r.ret r.handles).bind fun (tok, _) =>
        if tok = 0 then none else some tok
  | .forceLocal | .scalar => some r.ret

/-! ## Dispatch -/

/-- The outcome of a dispatch: what was written to the calling cage, and the value returned — none
if it trapped. -/
structure Outcome where
  writes : List Write
  result : Option ℕ

/-- The six arguments of the handler. -/
def handlerArgs (args : List ℕ) : List ℕ := (args ++ List.replicate rawArgsMax 0).take rawArgsMax

/-- `lind_marshal_dispatch`, from the memory the grate has. -/
def dispatch (spec : MarshalSpec) (nargs : ℕ) (handler : Handler) (mem : Mem) :
    Outcome :=
  match preCall c spec nargs mem with
  | none => ⟨[], none⟩
  | some (args, shadows, st) =>
      let r := handler (handlerArgs args) st.mem
      match postShadows c spec shadows shadows ⟨st.used, r.mem, []⟩ with
      | .error writes => ⟨writes, none⟩
      | .ok post => ⟨post.writes, translateReturn c spec.ret shadows r⟩

/-- The calling cage after a dispatch. -/
def Outcome.cageAfter (o : Outcome) (c : Call) : Cage := o.writes.foldl Write.apply c.source

end LindWasm.Marshal

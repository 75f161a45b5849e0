import LindWasm.Marshal.Spec

/-!
# Marshal/Pre — what happens before the handler is called

    source cage --copy-in--> shadow in the grate's arena --address--> handler argument

Every pointer argument is given a shadow in a bump arena that is reset at each call; a touched
pointer field of a structured pointee gets a shadow of its own, whose address replaces the pointer
that was copied in with the struct. A contract violation traps (`none`). The addresses of the
grate are those of its 32-bit linear memory; the source cage is read through host addresses, as
`copy_data_between_cages` does.
-/

namespace LindWasm.Marshal

/-! ## Constants -/

def cstrCap : ℕ := 4096
def cstrChunk : ℕ := 64
def arenaSize : ℕ := 128 * 1024
def rawArgsMax : ℕ := 6
def ptrArrayMax : ℕ := 1024
def maxLinearMemorySize : ℕ := 0xFFFFFFFF

/-- `ELINDAPIABORTED`, what a failed cross-cage copy returns. -/
def apiAborted : ℕ := 0xE0010001

/-- `sizeof(struct _lind_ptr_field_track)` in wasm32. -/
def trackSize : ℕ := 48

/-- Truncation to `size_t`, `uintptr_t` or `uint32_t`. -/
def u32 (n : ℕ) : ℕ := n % 2 ^ 32

/-- Truncation to `uint64_t`. -/
def u64 (n : ℕ) : ℕ := n % 2 ^ 64

/-! ## The two cages -/

/-- The calling cage: its memory, at host addresses, and the range checks made on it. -/
structure Cage where
  base : ℕ
  bytes : Mem
  readable : ℕ → ℕ → Bool
  writable : ℕ → ℕ → Bool

/-- `_ensure_host_addr`: addresses from 4 GiB on are taken as host addresses; 0 is a failure. -/
def ensureHostAddr (base addr : ℕ) : ℕ :=
  if addr < 2 ^ 32 then if base = 0 then 0 else addr + base else addr

structure HandleEntry where
  appToken : ℕ
  realObject : ℕ
  handleClass : ℕ
  inUse : Bool
  deriving DecidableEq

/-- Where the grate's static arena and its locals lie: inside 32 bits, and aligned as the compiler
and the page-aligned base of its memory align them. -/
structure Placement where
  base : ℕ
  arena : ℕ
  scratch : ℕ
  arena_pos : 0 < arena
  arena_fits : arena + arenaSize < 2 ^ 32
  arena_aligned : (base + arena) % 8 = 0
  scratch_aligned : (base + scratch) % 4 = 0

/-- One dispatch: the two cages, the raw arguments, and the grate's handle table. -/
structure Call where
  sourceCage : ℕ
  grateCage : ℕ
  source : Cage
  grate : Placement
  /-- Slots past the sixth are whatever lies beyond the array. -/
  rawArgs : ℕ → ℕ
  handles : List HandleEntry

variable (c : Call)

/-- The conditions under which `copy_data_between_cages` copies: two different cages, a length and
an address that can be, and a range of the source cage that passes its check. -/
def CopyAllowed (check : ℕ → ℕ → Bool) (addr len : ℕ) : Prop :=
  c.sourceCage ≠ c.grateCage ∧ len ≤ maxLinearMemorySize ∧
    ensureHostAddr c.source.base addr ≠ 0 ∧ check (ensureHostAddr c.source.base addr) len ∧
    ensureHostAddr c.source.base addr + len < 2 ^ 64
deriving Decidable

/-- A copy returns its destination, of which the caller sees the low 32 bits; this one reads as a
failure. -/
def ReadsAborted (destaddr : ℕ) : Prop := u32 destaddr = apiAborted
deriving Decidable

/-- Copy `len` bytes of the source cage into the grate at `dest`: the host address they come from,
or a trap. -/
def fetch (addr len dest : ℕ) : Option ℕ :=
  if CopyAllowed c c.source.readable addr len ∧ ¬ ReadsAborted (c.grate.base + dest) then
    some (ensureHostAddr c.source.base addr)
  else none

/-- A word of the source cage, through a local. -/
def fetchWord (addr : ℕ) : Option ℕ :=
  (fetch c addr 4 c.grate.scratch).map c.source.bytes.getWord

/-! ## The arena -/

/-- A shadow handed out in this dispatch. -/
structure Block where
  addr : ℕ
  len : ℕ
  deriving DecidableEq

/-- The arena's fill, the grate's memory, and the shadows handed out. -/
structure PreState where
  used : ℕ
  mem : Mem
  shadows : List Block

/-- `_lind_marshal_alloc`: an address and the new fill. -/
def marshalAlloc (g : Placement) (used size : ℕ) : Option (ℕ × ℕ) :=
  if size > 2 ^ 32 - 1 - 7 then none
  else
    let aligned := (size + 7) / 8 * 8
    if aligned > arenaSize - used then none else some (g.arena + used, used + aligned)

/-- Allocate a shadow. -/
def allocShadow (st : PreState) (size : ℕ) : Option (ℕ × PreState) :=
  (marshalAlloc c.grate st.used size).map fun (addr, used) =>
    (addr, { st with used, shadows := st.shadows ++ [⟨addr, size⟩] })

/-- Fill a shadow from the source cage, if there is anything to copy in. -/
def copyIn (st : PreState) (copies : Bool) (srcPtr shadow size : ℕ) :
    Option PreState :=
  if 0 < size ∧ copies then
    (fetch c srcPtr size shadow).map fun host =>
      { st with mem := st.mem.blit shadow c.source.bytes host size }
  else some st

/-! ## Handles and sizes -/

/-- `lind_translate_handle_checked`. -/
def translateHandle (handles : List HandleEntry) (cls appToken : ℕ) : Option ℕ :=
  (handles.find? fun h => h.inUse ∧ h.appToken = appToken ∧ h.handleClass = cls).map (·.realObject)

/-- `_lind_measure_cstr` from `total` on, with `fuel` chunks left. -/
def measureCstrFrom (c : Call) (srcPtr : ℕ) : ℕ → ℕ → Option ℕ
  | 0, _ => some cstrCap
  | fuel + 1, total =>
      if total < cstrCap then
        let toCopy := if total + cstrChunk > cstrCap then cstrCap - total else cstrChunk
        (fetch c (u64 (srcPtr + total)) toCopy c.grate.scratch).bind fun host =>
          match (List.range toCopy).find? fun i => c.source.bytes (host + i) = 0 with
          | some i => some (total + i + 1)
          | none => measureCstrFrom c srcPtr fuel (total + toCopy)
      else some cstrCap

/-- The length of a string with its terminator, capped. -/
def measureCstr (srcPtr : ℕ) : Option ℕ :=
  measureCstrFrom c srcPtr (cstrCap / cstrChunk + 1) 0

/-- `raw_args[i]`; through the null pointer an array's elements are given, it is what lies at the
bottom of the grate's memory. -/
def rawArg (raw : Option (ℕ → ℕ)) (mem : Mem) (i : ℕ) : ℕ :=
  match raw with
  | some args => args i
  | none => mem.getWord (8 * i) + 2 ^ 32 * mem.getWord (8 * i + 4)

variable (s : ArgSpec)

/-- `_lind_compute_size`. -/
def computeSize (raw : Option (ℕ → ℕ)) (mem : Mem) : Option ℕ :=
  match s.sizeKind with
  | .const => some (u32 s.constSize)
  | .fromArg =>
      if s.sizeArgIndex ≥ rawArgsMax then none else some (u32 (rawArg raw mem s.sizeArgIndex))
  | .fromArgPointee =>
      if s.sizeArgIndex ≥ rawArgsMax then none else fetchWord c (rawArg raw mem s.sizeArgIndex)
  | .cstr | .ptrArray | .none => some 0

/-- The size of a pointer that is not an array; one that has none traps. -/
def ptrSize (raw : Option (ℕ → ℕ)) (mem : Mem) (srcPtr : ℕ) : Option ℕ :=
  match s.sizeKind with
  | .cstr => measureCstr c srcPtr
  | .const | .fromArg | .fromArgPointee => computeSize c s raw mem
  | .ptrArray | .none => none

/-! ## The fields of a struct -/

/-- A pointer field that was given a shadow. -/
structure Track where
  offset : ℕ
  origSrcPtr : ℕ
  shadowStart : ℕ
  shadowLen : ℕ
  sourceCage : ℕ
  grateCage : ℕ
  spec : ArgSpec

/-- A field's offset plus a word, in `size_t`, against the struct's size. -/
def OutOfRange (offset allocSize : ℕ) : Prop := u32 (offset + 4) > allocSize
deriving Decidable

/-- The size of a pointer field: a sibling is read from the struct's own shadow. -/
def childSize (lo : Layout) (s : ArgSpec) (mem : Mem) (shadow allocSize childSrc : ℕ) :
    Option ℕ :=
  match s.sizeKind with
  | .cstr => measureCstr c childSrc
  | .fromArg =>
      match lo.fields[s.sizeArgIndex]? with
      | none => none
      | some sibling =>
          if OutOfRange sibling.offset allocSize then none
          else some (mem.getWord (u32 (shadow + sibling.offset)))
  | .const => some (u32 s.constSize)
  | .fromArgPointee | .ptrArray | .none => none

/-- A shadow for the pointee of a field, flat whatever the field's own layout. -/
def walkPtrField (lo : Layout) (shadow allocSize : ℕ) (f : Field) (st : PreState)
    (tracks : List Track) : Option (PreState × List Track) :=
  let slot := u32 (shadow + f.offset)
  let childSrc := st.mem.getWord slot
  if childSrc = 0 then some (st, tracks)
  else
    (childSize c lo f.spec st.mem shadow allocSize childSrc).bind fun size =>
    (allocShadow c st size).bind fun (childShadow, st) =>
    (copyIn c st f.spec.copiesIn childSrc childShadow size).map fun st =>
      ({ st with mem := st.mem.putWord slot (u32 childShadow) },
        tracks ++ [⟨f.offset, childSrc, childShadow, size, c.sourceCage, c.grateCage, f.spec⟩])

/-- The real object replaces the token in place. -/
def walkHandleField (shadow : ℕ) (f : Field) (st : PreState) : Option PreState :=
  let slot := u32 (shadow + f.offset)
  let tok := st.mem.getWord slot
  if tok = 0 then some st
  else
    (translateHandle c.handles f.spec.handleClass tok).map fun real =>
      { st with mem := st.mem.putWord slot (u32 real) }

def walkField (lo : Layout) (shadow allocSize : ℕ) (f : Field) (st : PreState)
    (tracks : List Track) : Option (PreState × List Track) :=
  if ¬ f.touched then some (st, tracks)
  else
    match f.spec.kind with
    | .scalar => some (st, tracks)
    | .handle =>
        if OutOfRange f.offset allocSize then none
        else (walkHandleField c shadow f st).map (·, tracks)
    | .ptr =>
        if OutOfRange f.offset allocSize then none
        else walkPtrField c lo shadow allocSize f st tracks

def walkFields (c : Call) (lo : Layout) (shadow allocSize : ℕ) :
    List Field → PreState → List Track → Option (PreState × List Track)
  | [], st, tracks => some (st, tracks)
  | f :: fs, st, tracks =>
      (walkField c lo shadow allocSize f st tracks).bind fun (st, tracks) =>
        walkFields c lo shadow allocSize fs st tracks

/-- The walk over a struct's fields, after the table that tracks them is allocated. -/
def walkStruct (lo : Layout) (shadow allocSize : ℕ) (st : PreState) :
    Option (PreState × List Track) :=
  if lo.fields.length > (2 ^ 32 - 1) / trackSize then none
  else
    (marshalAlloc c.grate st.used (lo.fields.length * trackSize)).bind fun (_, used) =>
      walkFields c lo shadow allocSize lo.fields { st with used } []

/-! ## One pointer -/

/-- The bytes a shadow takes: the struct's if it has a size, else the pointer's own. -/
def allocSizeOf (size : ℕ) : ℕ :=
  match s.layout with
  | some lo => if lo.structSize = 0 then size else lo.structSize
  | none => size

/-- A pointer that is not an array. -/
def preBuffer (raw : Option (ℕ → ℕ)) (srcPtr : ℕ) (st : PreState) :
    Option (ℕ × List Track × PreState) :=
  (ptrSize c s raw st.mem srcPtr).bind fun size =>
  let allocSize := allocSizeOf s size
  (allocShadow c st allocSize).bind fun (shadow, st) =>
  (copyIn c st s.copiesIn srcPtr shadow allocSize).bind fun st =>
  match s.layout with
  | some lo =>
      if lo.kind = .struct then
        (walkStruct c lo shadow allocSize st).map fun (st, tracks) => (shadow, tracks, st)
      else some (shadow, [], st)
  | none => some (shadow, [], st)

/-- The elements of a null-terminated array, at most `fuel` of them from index `n` on. -/
def readElems (c : Call) (srcPtr : ℕ) : ℕ → ℕ → Option (List ℕ)
  | 0, _ => some []
  | fuel + 1, n =>
      (fetchWord c (u64 (srcPtr + n * 4))).bind fun p =>
        if p = 0 then some [] else (readElems c srcPtr fuel (n + 1)).map (p :: ·)

/-- Marshal each element and store it in the array's shadow. -/
def preElems (marshal : ℕ → PreState → Option (ℕ × PreState)) (shadow : ℕ) :
    ℕ → List ℕ → PreState → Option PreState
  | i, [], st => some { st with mem := st.mem.putWord (shadow + 4 * i) 0 }
  | i, p :: ps, st =>
      (marshal p st).bind fun (child, st) =>
        preElems marshal shadow (i + 1) ps
          { st with mem := st.mem.putWord (shadow + 4 * i) (u32 child) }

/-- `_lind_pre_ptr_array`, over the way its elements are marshalled. -/
def prePtrArray (marshal : ℕ → PreState → Option (ℕ × PreState)) (srcPtr : ℕ)
    (st : PreState) : Option (ℕ × List Track × PreState) :=
  (readElems c srcPtr ptrArrayMax 0).bind fun elems =>
  (allocShadow c st ((elems.length + 1) * 4)).bind fun (shadow, st) =>
  (preElems marshal shadow 0 elems st).map fun st => (shadow, [], st)

/-- `_lind_pre_ptr`. An array without an element spec passes its pointers on; one with a spec
drops what it tracks of its elements' fields. -/
def prePtr (c : Call) : ArgSpec → Option (ℕ → ℕ) → ℕ → PreState →
    Option (ℕ × List Track × PreState)
  | .mk _ _ .ptrArray _ _ _ element _ _ _, _, srcPtr, st =>
      if srcPtr = 0 then some (0, [], st)
      else
        match element with
        | none => prePtrArray c (fun p st => some (p, st)) srcPtr st
        | some e =>
            prePtrArray c (fun p st => (prePtr c e none p st).map fun r => (r.1, r.2.2)) srcPtr st
  | s, raw, srcPtr, st => if srcPtr = 0 then some (0, [], st) else preBuffer c s raw srcPtr st

/-! ## The arguments -/

/-- A top-level pointer argument that was given a shadow. -/
structure Shadow where
  argIndex : ℕ
  sourcePtr : ℕ
  shadowPtr : ℕ
  size : ℕ
  direction : PtrDirection
  sourceCage : ℕ
  grateCage : ℕ
  layout : Option Layout
  tracks : List Track

/-- The size recorded for the way back, computed a second time. -/
def shadowSize (mem : Mem) (srcPtr : ℕ) : Option ℕ :=
  let size := match s.layout with
    | some lo => some lo.structSize
    | none => computeSize c s (some c.rawArgs) mem
  size.bind fun size =>
    if s.sizeKind = .cstr ∧ size = 0 then measureCstr c srcPtr else some size

/-- One argument: its value for the handler, and its shadow if it has one. -/
def preArg (i : ℕ) (s : ArgSpec) (st : PreState) :
    Option (ℕ × Option Shadow × PreState) :=
  let raw := c.rawArgs i
  match s.kind with
  | .scalar => some (raw, none, st)
  | .handle =>
      if raw = 0 then some (0, none, st)
      else (translateHandle c.handles s.handleClass raw).map (·, none, st)
  | .ptr =>
      if raw = 0 then some (0, none, st)
      else
        (prePtr c s (some c.rawArgs) raw st).bind fun (shadow, tracks, st) =>
        (shadowSize c s st.mem raw).map fun size =>
          -- a shadow at the caller's own address is not recorded
          let record : Shadow :=
            ⟨i, raw, shadow, size, s.ptrDirection, c.sourceCage, c.grateCage, s.layout, tracks⟩
          (shadow, if shadow = u32 raw then none else some record, st)

/-- The arguments from index `i` on. -/
def preArgs (c : Call) : ℕ → List ArgSpec → PreState → Option (List ℕ × List Shadow × PreState)
  | _, [], st => some ([], [], st)
  | i, s :: ss, st =>
      (preArg c i s st).bind fun (arg, shadow, st) =>
      (preArgs c (i + 1) ss st).map fun (args, shadows, st) =>
        (arg :: args, shadow.toList ++ shadows, st)

/-- Everything up to the handler call: its arguments, the shadows, and the grate's memory. -/
def preCall (spec : MarshalSpec) (nargs : ℕ) (mem : Mem) :
    Option (List ℕ × List Shadow × PreState) :=
  if spec.nargs > rawArgsMax then none
  else preArgs c 0 (spec.args.take nargs) ⟨0, mem, []⟩

end LindWasm.Marshal

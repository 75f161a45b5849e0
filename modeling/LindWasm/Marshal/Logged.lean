import LindWasm.Machinery.Guarded
import LindWasm.Marshal.Dispatch

/-!
# Marshal/Logged — a dispatch with everything it does

    read ✓ --> alloc ✓ --> … --> called --> returned --> scratch ✓ --> write --> …

`dispatch` tells what was written and returned. The same functions here leave a log: each read of
the source cage, allocation, size and handle that is asked for, with whether it was there; the
handler's call and return; and the writes. `outcome_dispatch` is that the log forgotten leaves
`dispatch`.
-/

namespace LindWasm.Marshal.Logged

open List Guarded

/-! ## What is logged -/

/-- What a step before the call cannot do without. -/
inductive Need where
  | read (addr len : ℕ)
  | alloc (size : ℕ)
  | size (s : ArgSpec)
  | handle (cls appToken : ℕ)

structure Check where
  need : Need
  met : Bool

def Check.failed (k : Check) : Bool := !k.met

inductive Event where
  | check (k : Check)
  | called (args : List ℕ)
  | returned (ret : ℕ)
  /-- The scratch space for the tracked fields of a struct, after the call. -/
  | scratch (fields : ℕ) (met : Bool)
  | write (w : Write)

namespace Event

def failed : Event → Bool
  | check k => k.failed
  | scratch _ met => !met
  | called _ | returned _ | write _ => false

theorem failed_check (k : Check) : (check k).failed = k.failed := rfl

theorem failed_called (args : List ℕ) : (called args).failed = false := rfl

theorem failed_returned (ret : ℕ) : (returned ret).failed = false := rfl

theorem failed_write (w : Write) : (write w).failed = false := rfl

theorem failed_scratch (fields : ℕ) : (scratch fields true).failed = false := rfl

def isCalled : Event → Bool
  | called _ => true
  | _ => false

def isReturned : Event → Bool
  | returned _ => true
  | _ => false

def write? : Event → Option Write
  | write w => some w
  | _ => none

end Event

/-- A step before the call. -/
abbrev Checked (α : Type) := Guarded Check.failed α

/-- A step of the whole. -/
abbrev Acts (α : Type) := Guarded Event.failed α

variable {α : Type}

def check (need : Need) (x : Option α) : Checked α := .attempt (⟨need, ·⟩) rfl x

/-! ## Reads, allocations, handles and sizes -/

def fetch (c : Call) (addr len dest : ℕ) : Checked ℕ :=
  check (.read addr len) (Marshal.fetch c addr len dest)

variable (c : Call)

def fetchWord (addr : ℕ) : Checked ℕ :=
  (fetch c addr 4 c.grate.scratch).map c.source.bytes.getWord

def marshalAlloc (g : Placement) (used size : ℕ) : Checked (ℕ × ℕ) :=
  check (.alloc size) (Marshal.marshalAlloc g used size)

def allocShadow (st : PreState) (size : ℕ) : Checked (ℕ × PreState) :=
  (marshalAlloc c.grate st.used size).map fun (addr, used) =>
    (addr, { st with used, shadows := st.shadows ++ [⟨addr, size⟩] })

def copyIn (st : PreState) (copies : Bool) (srcPtr shadow size : ℕ) :
    Checked PreState :=
  if 0 < size ∧ copies then
    (fetch c srcPtr size shadow).map fun host =>
      { st with mem := st.mem.blit shadow c.source.bytes host size }
  else .pure st

def translateHandle (handles : List HandleEntry) (cls appToken : ℕ) : Checked ℕ :=
  check (.handle cls appToken) (Marshal.translateHandle handles cls appToken)

def measureCstrFrom (c : Call) (srcPtr : ℕ) : ℕ → ℕ → Checked ℕ
  | 0, _ => .pure cstrCap
  | fuel + 1, total =>
      if total < cstrCap then
        let toCopy := if total + cstrChunk > cstrCap then cstrCap - total else cstrChunk
        (fetch c (u64 (srcPtr + total)) toCopy c.grate.scratch).bind fun host =>
          match (List.range toCopy).find? fun i => c.source.bytes (host + i) = 0 with
          | some i => .pure (total + i + 1)
          | none => measureCstrFrom c srcPtr fuel (total + toCopy)
      else .pure cstrCap

def measureCstr (srcPtr : ℕ) : Checked ℕ :=
  measureCstrFrom c srcPtr (cstrCap / cstrChunk + 1) 0

variable (s : ArgSpec)

/-- The size of a pointer that is not an array can be computed: of a known kind, from an argument
there is a slot for. -/
def hasSize : Bool :=
  match s.sizeKind with
  | .const | .cstr => true
  | .fromArg | .fromArgPointee => s.sizeArgIndex < rawArgsMax
  | .ptrArray | .none => false

/-- The same for a field: from a sibling that lies in the struct. -/
def fieldHasSize (lo : Layout) (s : ArgSpec) (allocSize : ℕ) : Bool :=
  match s.sizeKind with
  | .const | .cstr => true
  | .fromArg =>
      (lo.fields[s.sizeArgIndex]?).any fun sibling => ¬ OutOfRange sibling.offset allocSize
  | .fromArgPointee | .ptrArray | .none => false

def checkSize (has : Bool) : Checked Unit :=
  check (.size s) (if has then some () else none)

def computeSize (raw : Option (ℕ → ℕ)) (mem : Mem) : Checked ℕ :=
  match s.sizeKind with
  | .const => .pure (u32 s.constSize)
  | .fromArg =>
      if s.sizeArgIndex ≥ rawArgsMax then .stop else .pure (u32 (rawArg raw mem s.sizeArgIndex))
  | .fromArgPointee =>
      if s.sizeArgIndex ≥ rawArgsMax then .stop else fetchWord c (rawArg raw mem s.sizeArgIndex)
  | .cstr | .ptrArray | .none => .pure 0

def ptrSize (raw : Option (ℕ → ℕ)) (mem : Mem) (srcPtr : ℕ) : Checked ℕ :=
  (checkSize s (hasSize s)).bind fun _ =>
    match s.sizeKind with
    | .cstr => measureCstr c srcPtr
    | .const | .fromArg | .fromArgPointee => computeSize c s raw mem
    | .ptrArray | .none => .stop

/-! ## The fields of a struct -/

def childSize (lo : Layout) (s : ArgSpec) (mem : Mem) (shadow allocSize childSrc : ℕ) :
    Checked ℕ :=
  (checkSize s (fieldHasSize lo s allocSize)).bind fun _ =>
    match s.sizeKind with
    | .cstr => measureCstr c childSrc
    | .fromArg =>
        match lo.fields[s.sizeArgIndex]? with
        | none => .stop
        | some sibling =>
            if OutOfRange sibling.offset allocSize then .stop
            else .pure (mem.getWord (u32 (shadow + sibling.offset)))
    | .const => .pure (u32 s.constSize)
    | .fromArgPointee | .ptrArray | .none => .stop

def walkPtrField (lo : Layout) (shadow allocSize : ℕ) (f : Field) (st : PreState)
    (tracks : List Track) : Checked (PreState × List Track) :=
  let slot := u32 (shadow + f.offset)
  let childSrc := st.mem.getWord slot
  if childSrc = 0 then .pure (st, tracks)
  else
    (childSize c lo f.spec st.mem shadow allocSize childSrc).bind fun size =>
    (allocShadow c st size).bind fun (childShadow, st) =>
    (copyIn c st f.spec.copiesIn childSrc childShadow size).map fun st =>
      ({ st with mem := st.mem.putWord slot (u32 childShadow) },
        tracks ++ [⟨f.offset, childSrc, childShadow, size, c.sourceCage, c.grateCage, f.spec⟩])

def walkHandleField (shadow : ℕ) (f : Field) (st : PreState) : Checked PreState :=
  let slot := u32 (shadow + f.offset)
  let tok := st.mem.getWord slot
  if tok = 0 then .pure st
  else
    (translateHandle c.handles f.spec.handleClass tok).map fun real =>
      { st with mem := st.mem.putWord slot (u32 real) }

def walkField (lo : Layout) (shadow allocSize : ℕ) (f : Field) (st : PreState)
    (tracks : List Track) : Checked (PreState × List Track) :=
  if ¬ f.touched then .pure (st, tracks)
  else
    match f.spec.kind with
    | .scalar => .pure (st, tracks)
    | .handle =>
        if OutOfRange f.offset allocSize then .stop
        else (walkHandleField c shadow f st).map (·, tracks)
    | .ptr =>
        if OutOfRange f.offset allocSize then .stop
        else walkPtrField c lo shadow allocSize f st tracks

def walkFields (c : Call) (lo : Layout) (shadow allocSize : ℕ) :
    List Field → PreState → List Track → Checked (PreState × List Track)
  | [], st, tracks => .pure (st, tracks)
  | f :: fs, st, tracks =>
      (walkField c lo shadow allocSize f st tracks).bind fun (st, tracks) =>
        walkFields c lo shadow allocSize fs st tracks

def walkStruct (lo : Layout) (shadow allocSize : ℕ) (st : PreState) :
    Checked (PreState × List Track) :=
  if lo.fields.length > (2 ^ 32 - 1) / trackSize then .stop
  else
    (marshalAlloc c.grate st.used (lo.fields.length * trackSize)).bind fun (_, used) =>
      walkFields c lo shadow allocSize lo.fields { st with used } []

/-! ## Pointers and arguments -/

def preBuffer (raw : Option (ℕ → ℕ)) (srcPtr : ℕ) (st : PreState) :
    Checked (ℕ × List Track × PreState) :=
  (ptrSize c s raw st.mem srcPtr).bind fun size =>
  let allocSize := allocSizeOf s size
  (allocShadow c st allocSize).bind fun (shadow, st) =>
  (copyIn c st s.copiesIn srcPtr shadow allocSize).bind fun st =>
  match s.layout with
  | some lo =>
      if lo.kind = .struct then
        (walkStruct c lo shadow allocSize st).map fun (st, tracks) => (shadow, tracks, st)
      else .pure (shadow, [], st)
  | none => .pure (shadow, [], st)

def readElems (c : Call) (srcPtr : ℕ) : ℕ → ℕ → Checked (List ℕ)
  | 0, _ => .pure []
  | fuel + 1, n =>
      (fetchWord c (u64 (srcPtr + n * 4))).bind fun p =>
        if p = 0 then .pure [] else (readElems c srcPtr fuel (n + 1)).map (p :: ·)

def preElems (marshal : ℕ → PreState → Checked (ℕ × PreState)) (shadow : ℕ) :
    ℕ → List ℕ → PreState → Checked PreState
  | i, [], st => .pure { st with mem := st.mem.putWord (shadow + 4 * i) 0 }
  | i, p :: ps, st =>
      (marshal p st).bind fun (child, st) =>
        preElems marshal shadow (i + 1) ps
          { st with mem := st.mem.putWord (shadow + 4 * i) (u32 child) }

def prePtrArray (marshal : ℕ → PreState → Checked (ℕ × PreState)) (srcPtr : ℕ)
    (st : PreState) : Checked (ℕ × List Track × PreState) :=
  (readElems c srcPtr ptrArrayMax 0).bind fun elems =>
  (allocShadow c st ((elems.length + 1) * 4)).bind fun (shadow, st) =>
  (preElems marshal shadow 0 elems st).map fun st => (shadow, [], st)

def prePtr (c : Call) : ArgSpec → Option (ℕ → ℕ) → ℕ → PreState →
    Checked (ℕ × List Track × PreState)
  | .mk _ _ .ptrArray _ _ _ element _ _ _, _, srcPtr, st =>
      if srcPtr = 0 then .pure (0, [], st)
      else
        match element with
        | none => prePtrArray c (fun p st => .pure (p, st)) srcPtr st
        | some e =>
            prePtrArray c (fun p st => (prePtr c e none p st).map fun r => (r.1, r.2.2)) srcPtr st
  | s, raw, srcPtr, st => if srcPtr = 0 then .pure (0, [], st) else preBuffer c s raw srcPtr st

def shadowSize (mem : Mem) (srcPtr : ℕ) : Checked ℕ :=
  let size : Checked ℕ := match s.layout with
    | some lo => .pure lo.structSize
    | none => computeSize c s (some c.rawArgs) mem
  size.bind fun size =>
    if s.sizeKind = .cstr ∧ size = 0 then measureCstr c srcPtr else .pure size

def preArg (i : ℕ) (s : ArgSpec) (st : PreState) :
    Checked (ℕ × Option Shadow × PreState) :=
  let raw := c.rawArgs i
  match s.kind with
  | .scalar => .pure (raw, none, st)
  | .handle =>
      if raw = 0 then .pure (0, none, st)
      else (translateHandle c.handles s.handleClass raw).map (·, none, st)
  | .ptr =>
      if raw = 0 then .pure (0, none, st)
      else
        (prePtr c s (some c.rawArgs) raw st).bind fun (shadow, tracks, st) =>
        (shadowSize c s st.mem raw).map fun size =>
          let record : Shadow :=
            ⟨i, raw, shadow, size, s.ptrDirection, c.sourceCage, c.grateCage, s.layout, tracks⟩
          (shadow, if shadow = u32 raw then none else some record, st)

def preArgs (c : Call) : ℕ → List ArgSpec → PreState → Checked (List ℕ × List Shadow × PreState)
  | _, [], st => .pure ([], [], st)
  | i, s :: ss, st =>
      (preArg c i s st).bind fun (arg, shadow, st) =>
      (preArgs c (i + 1) ss st).map fun (args, shadows, st) =>
        (arg :: args, shadow.toList ++ shadows, st)

def preCall (spec : MarshalSpec) (nargs : ℕ) (mem : Mem) :
    Checked (List ℕ × List Shadow × PreState) :=
  if spec.nargs > rawArgsMax then .stop
  else preArgs c 0 (spec.args.take nargs) ⟨0, mem, []⟩

/-! ## The way in without its log -/

variable (i addr used fuel n : ℕ)

section Values

variable {c : Call} {s : ArgSpec} {st : PreState} {mem : Mem} (raw : Option (ℕ → ℕ)) (lo : Layout)
  (srcPtr shadow allocSize : ℕ) (f : Field) (tracks : List Track)

@[simp] theorem value_fetch (len dest : ℕ) :
    (fetch c addr len dest).value = Marshal.fetch c addr len dest := rfl

@[simp] theorem value_fetchWord : (fetchWord c addr).value = Marshal.fetchWord c addr := rfl

@[simp] theorem value_marshalAlloc (g : Placement) (used size : ℕ) :
    (marshalAlloc g used size).value = Marshal.marshalAlloc g used size := rfl

@[simp] theorem value_allocShadow (size : ℕ) :
    (allocShadow c st size).value = Marshal.allocShadow c st size := rfl

@[simp] theorem value_copyIn (copies : Bool) (srcPtr shadow size : ℕ) :
    (copyIn c st copies srcPtr shadow size).value =
      Marshal.copyIn c st copies srcPtr shadow size := by
  simp [copyIn, Marshal.copyIn]

@[simp] theorem value_translateHandle (handles : List HandleEntry) (cls appToken : ℕ) :
    (translateHandle handles cls appToken).value =
      Marshal.translateHandle handles cls appToken := rfl

theorem value_measureCstrFrom (total : ℕ) :
    (measureCstrFrom c srcPtr fuel total).value =
      Marshal.measureCstrFrom c srcPtr fuel total := by
  induction fuel generalizing total with
  | zero => rfl
  | succ fuel ih =>
    simp only [measureCstrFrom, Marshal.measureCstrFrom, value_ite, value_bind,
      value_fetch, value_pure]
    refine if_congr Iff.rfl (congrArg _ (funext fun host => ?_)) rfl
    cases (range _).find? _ with
    | none => exact ih _
    | some i => rfl

@[simp] theorem value_measureCstr :
    (measureCstr c srcPtr).value = Marshal.measureCstr c srcPtr := value_measureCstrFrom _ _ _

@[simp] theorem value_computeSize :
    (computeSize c s raw mem).value = Marshal.computeSize c s raw mem := by
  unfold computeSize Marshal.computeSize
  cases s.sizeKind <;> simp

/-- A size that is checked for first is the size, if there is none without it. -/
theorem value_checkSize_bind {has : Bool} {x : Checked ℕ} (h : has = false → x.value = none) :
    ((checkSize s has).bind fun _ => x).value = x.value := by
  rw [value_bind]
  cases has with
  | false => exact (h rfl).symm
  | true => rfl

@[simp] theorem value_ptrSize :
    (ptrSize c s raw mem srcPtr).value = Marshal.ptrSize c s raw mem srcPtr := by
  rw [ptrSize, value_checkSize_bind]
  · unfold Marshal.ptrSize
    cases s.sizeKind <;> simp
  · unfold hasSize computeSize
    cases s.sizeKind <;> simp +contextual

@[simp] theorem value_childSize (childSrc : ℕ) :
    (childSize c lo s mem shadow allocSize childSrc).value =
      Marshal.childSize c lo s mem shadow allocSize childSrc := by
  rw [childSize, value_checkSize_bind]
  · unfold Marshal.childSize
    cases s.sizeKind <;> simp
    cases lo.fields[s.sizeArgIndex]? <;> simp
  · unfold fieldHasSize
    cases s.sizeKind <;> simp
    cases lo.fields[s.sizeArgIndex]? <;> simp +contextual

@[simp] theorem value_walkPtrField :
    (walkPtrField c lo shadow allocSize f st tracks).value =
      Marshal.walkPtrField c lo shadow allocSize f st tracks := by
  simp [walkPtrField, Marshal.walkPtrField]

@[simp] theorem value_walkHandleField :
    (walkHandleField c shadow f st).value = Marshal.walkHandleField c shadow f st := by
  simp [walkHandleField, Marshal.walkHandleField]

@[simp] theorem value_walkField :
    (walkField c lo shadow allocSize f st tracks).value =
      Marshal.walkField c lo shadow allocSize f st tracks := by
  unfold walkField Marshal.walkField
  rw [value_ite]
  cases f.spec.kind <;> simp

@[simp] theorem value_walkFields (fs : List Field) :
    (walkFields c lo shadow allocSize fs st tracks).value =
      Marshal.walkFields c lo shadow allocSize fs st tracks := by
  induction fs generalizing st tracks with
  | nil => rfl
  | cons f fs ih =>
    simp [walkFields, Marshal.walkFields, ih]

@[simp] theorem value_walkStruct :
    (walkStruct c lo shadow allocSize st).value =
      Marshal.walkStruct c lo shadow allocSize st := by
  simp [walkStruct, Marshal.walkStruct]

@[simp] theorem value_preBuffer :
    (preBuffer c s raw srcPtr st).value = Marshal.preBuffer c s raw srcPtr st := by
  unfold preBuffer Marshal.preBuffer
  cases s.layout <;> simp

@[simp] theorem value_readElems :
    (readElems c srcPtr fuel n).value = Marshal.readElems c srcPtr fuel n := by
  induction fuel generalizing n with
  | zero => rfl
  | succ fuel ih =>
    simp [readElems, Marshal.readElems, ih]

section Elements

variable {marshal : ℕ → PreState → Checked (ℕ × PreState)}
  {marshal' : ℕ → PreState → Option (ℕ × PreState)}

theorem value_preElems (h : ∀ p st, (marshal p st).value = marshal' p st) (shadow i : ℕ)
    (ps : List ℕ) :
    (preElems marshal shadow i ps st).value = Marshal.preElems marshal' shadow i ps st := by
  induction ps generalizing i st with
  | nil => rfl
  | cons p ps ih => simp [preElems, Marshal.preElems, h, ih]

theorem value_prePtrArray (h : ∀ p st, (marshal p st).value = marshal' p st) (srcPtr : ℕ) :
    (prePtrArray c marshal srcPtr st).value = Marshal.prePtrArray c marshal' srcPtr st := by
  simp [prePtrArray, Marshal.prePtrArray, value_preElems h]

end Elements

/-- **Nested arrays** are followed down to what is not an array. -/
@[simp] theorem value_prePtr (s : ArgSpec) (raw : Option (ℕ → ℕ)) (srcPtr : ℕ) (st : PreState) :
    (prePtr c s raw srcPtr st).value = Marshal.prePtr c s raw srcPtr st := by
  induction s using ArgSpec.elementInduction generalizing raw srcPtr st with
  | buffer s hs =>
    obtain ⟨_, _, sk, _⟩ := s
    cases sk with
    | ptrArray => exact absurd rfl hs
    | none | const | fromArg | fromArgPointee | cstr =>
      exact (value_ite _ _ _).trans (if_congr Iff.rfl rfl (value_preBuffer _ _))
  | raw s hs hel =>
    cases s
    cases hs
    cases hel
    exact (value_ite _ _ _).trans
      (if_congr Iff.rfl rfl (value_prePtrArray (fun _ _ => rfl) _))
  | element s e hs hel ih =>
    cases s
    cases hs
    cases hel
    exact (value_ite _ _ _).trans
      (if_congr Iff.rfl rfl
        (value_prePtrArray (fun p st => congrArg (Option.map _) (ih none p st)) _))

@[simp] theorem value_shadowSize :
    (shadowSize c s mem srcPtr).value = Marshal.shadowSize c s mem srcPtr := by
  unfold shadowSize Marshal.shadowSize
  cases s.layout <;> simp

@[simp] theorem value_preArg : (preArg c i s st).value = Marshal.preArg c i s st := by
  unfold preArg Marshal.preArg
  cases s.kind <;> simp

@[simp] theorem value_preArgs (ss : List ArgSpec) :
    (preArgs c i ss st).value = Marshal.preArgs c i ss st := by
  induction ss generalizing i st with
  | nil => rfl
  | cons s ss ih =>
    simp [preArgs, Marshal.preArgs, ih]

/-- **The way in without its log**. -/
@[simp] theorem value_preCall (spec : MarshalSpec) (nargs : ℕ) :
    (preCall c spec nargs mem).value = Marshal.preCall c spec nargs mem := by
  simp [preCall, Marshal.preCall]

end Values

/-! ## The way back -/

/-- The grate after the handler: the arena's fill and its memory. -/
structure Grate where
  used : ℕ
  mem : Mem

def copyOut (g : Grate) (role : Role) (dest len : ℕ) (data : Mem) : Acts Grate :=
  if CopyAllowed c c.source.writable dest len then
    (Guarded.emit (.write ⟨role, dest, len, data⟩) (Event.failed_write _)).bind fun _ =>
      if ReadsAborted dest then .stop else .pure g
  else .stop

def copyChildren (c : Call) : List (Track × ℕ × ℕ) → Grate → Acts Grate
  | [], g => .pure g
  | (t, size, _) :: rest, g =>
      if 0 < size then
        (copyOut c g (.buffer t.spec.layout) t.origSrcPtr size (bytesFrom g.mem t.shadowStart)).bind
          fun g => copyChildren c rest g
      else copyChildren c rest g

def allocScratch (c : Call) (used n : ℕ) : Acts ℕ :=
  if n = 0 then .pure used
  else if n > (2 ^ 32 - 1) / 4 then .stop
  else Guarded.attempt (.scratch n) (Event.failed_scratch n) (Marshal.allocScratch c used n)

def postStruct (s : Shadow) (g : Grate) : Acts Grate :=
  if s.direction ≠ .ptrOut ∧ s.direction ≠ .ptrInout then .pure g
  else if ¬ Owned c s.sourceCage s.grateCage then .stop
  else
    (allocScratch c g.used s.tracks.length).bind fun used =>
    (Guarded.ofOption (checkTracks c s g.mem s.tracks)).bind fun checked =>
    (copyChildren c checked ⟨used, sanitize s.shadowPtr g.mem checked⟩).bind fun g =>
      if 0 < s.size then
        copyOut c g (.buffer s.layout) s.sourcePtr s.size (bytesFrom g.mem s.shadowPtr)
      else .pure g

def postShadow (as : ArgSpec) (shadows : List Shadow) (s : Shadow) (g : Grate) :
    Acts Grate :=
  if as.outPtrIntoArg1 ≠ 0 then
    (Guarded.ofOption (slotValue c as shadows (g.mem.getWord s.shadowPtr))).bind fun translated =>
      copyOut c g .slot s.sourcePtr 4 (Mem.wordBytes translated)
  else if s.layout.isSome then postStruct c s g
  else if 0 < s.size ∧ (s.direction = .ptrOut ∨ s.direction = .ptrInout) then
    copyOut c g (.buffer none) s.sourcePtr s.size (bytesFrom g.mem s.shadowPtr)
  else .pure g

def postShadows (c : Call) (spec : MarshalSpec) (shadows : List Shadow) :
    List Shadow → Grate → Acts Grate
  | [], g => .pure g
  | s :: rest, g =>
      match spec.args[s.argIndex]? with
      | none => .pure g
      | some as =>
          (postShadow c as shadows s g).bind fun g => postShadows c spec shadows rest g

def dispatch (spec : MarshalSpec) (nargs : ℕ) (handler : Handler) (mem : Mem) :
    Acts ℕ :=
  ((preCall c spec nargs mem).lift .check Event.failed_check).bind fun (args, shadows, st) =>
  (Guarded.emit (.called (handlerArgs args)) (Event.failed_called _)).bind fun _ =>
  let r := handler (handlerArgs args) st.mem
  (Guarded.emit (.returned r.ret) (Event.failed_returned _)).bind fun _ =>
  (postShadows c spec shadows shadows ⟨st.used, r.mem⟩).bind fun _ =>
    .ofOption (translateReturn c spec.ret shadows r)

/-! ## The way back without its log -/

/-- The writes of a log. -/
def writes (log : List Event) : List Write := log.filterMap Event.write?

@[simp] theorem writes_append (l l' : List Event) : writes (l ++ l') = writes l ++ writes l' :=
  filterMap_append

theorem writes_checks (ks : List Check) : writes (ks.map .check) = [] := by
  rw [writes, filterMap_map]
  exact filterMap_none ks

/-- A step of the way back as one that keeps its writes, after those made before. -/
def post (ws : List Write) (x : Acts Grate) : Post PostState :=
  match x.value with
  | none => .error (ws ++ writes x.trace)
  | some g => .ok ⟨g.used, g.mem, ws ++ writes x.trace⟩

/-- What was written, and what is returned. -/
def outcome (x : Acts ℕ) : Outcome := ⟨writes x.trace, x.value⟩

section Back

variable {c : Call} {ws : List Write} {g : Grate}

@[simp] theorem post_pure : post ws (.pure g) = .ok ⟨g.used, g.mem, ws⟩ := by
  simp [post, writes]

@[simp] theorem post_stop : post ws .stop = .error ws := by
  simp [post, writes]

@[simp] theorem post_ite (p : Prop) [Decidable p] (x y : Acts Grate) :
    post ws (if p then x else y) = if p then post ws x else post ws y := apply_ite _ _ _ _

/-- **Sequencing** keeps the writes in order. -/
theorem post_bind (x : Acts Grate) (f : Grate → Acts Grate) :
    post ws (x.bind f) = match post ws x with
      | .error ws => .error ws
      | .ok st => post st.writes (f ⟨st.used, st.mem⟩) := by
  unfold post
  cases hx : x.value with
  | none => simp [hx, trace_bind]
  | some g => simp [hx, trace_bind, append_assoc]

theorem post_bind_quiet {x : Acts α} (hx : writes x.trace = []) (f : α → Acts Grate) :
    post ws (x.bind f) = match x.value with
      | none => .error ws
      | some a => post ws (f a) := by
  unfold post
  cases hv : x.value with
  | none => simp [hv, hx, trace_bind]
  | some a => simp [hv, hx, trace_bind]

theorem post_copyOut (role : Role) (dest len : ℕ) (data : Mem) :
    post ws (copyOut c g role dest len data) =
      Marshal.copyOut c ⟨g.used, g.mem, ws⟩ role dest len data := by
  unfold copyOut Marshal.copyOut
  rw [post_ite, post_stop]
  refine if_congr Iff.rfl ?_ rfl
  by_cases habort : ReadsAborted dest
  · simp [habort, post, writes, Event.write?, PostState.abort]
  · simp [habort, post, writes, Event.write?]

theorem post_copyChildren (checked : List (Track × ℕ × ℕ)) :
    post ws (copyChildren c checked g) = Marshal.copyChildren c checked ⟨g.used, g.mem, ws⟩ := by
  induction checked generalizing g ws with
  | nil => exact post_pure
  | cons x rest ih =>
    obtain ⟨t, size, src⟩ := x
    rw [copyChildren, Marshal.copyChildren, post_ite, ih, post_bind, post_copyOut]
    refine if_congr Iff.rfl ?_ rfl
    cases Marshal.copyOut c _ _ _ _ _ with
    | error ws => rfl
    | ok st => exact ih

/-- The scratch space is the code's, and nothing is written for it. -/
theorem value_allocScratch : (allocScratch c used n).value = Marshal.allocScratch c used n := by
  unfold allocScratch
  split_ifs with hzero hmany
  · rw [hzero]
    rfl
  · rw [Marshal.allocScratch, if_neg hzero, if_pos hmany]
    rfl
  · rfl

theorem writes_allocScratch : writes (allocScratch c used n).trace = [] := by
  unfold allocScratch
  split_ifs <;> rfl

theorem post_postStruct (s : Shadow) :
    post ws (postStruct c s g) = Marshal.postStruct c s ⟨g.used, g.mem, ws⟩ := by
  unfold postStruct Marshal.postStruct
  simp only [post_ite, post_pure, post_stop, post_bind_quiet (writes_allocScratch _ _),
    value_allocScratch]
  refine if_congr Iff.rfl rfl (if_congr Iff.rfl rfl ?_)
  cases Marshal.allocScratch c g.used s.tracks.length with
  | none => rfl
  | some used =>
    simp only [post_bind_quiet (x := Guarded.ofOption _) rfl, value_ofOption]
    cases checkTracks c s g.mem s.tracks with
    | none => rfl
    | some checked =>
      dsimp only
      rw [post_bind, post_copyChildren]
      cases Marshal.copyChildren c checked _ with
      | error ws => rfl
      | ok st => exact (post_ite _ _ _).trans (if_congr Iff.rfl (post_copyOut _ _ _ _) post_pure)

theorem post_postShadow (as : ArgSpec) (shadows : List Shadow) (s : Shadow) :
    post ws (postShadow c as shadows s g) =
      Marshal.postShadow c as shadows s ⟨g.used, g.mem, ws⟩ := by
  unfold postShadow Marshal.postShadow
  simp only [post_ite, post_pure, post_postStruct, post_copyOut]
  refine if_congr Iff.rfl ?_ rfl
  rw [post_bind_quiet rfl, value_ofOption]
  cases slotValue c as shadows (g.mem.getWord s.shadowPtr) with
  | none => rfl
  | some translated => exact post_copyOut _ _ _ _

theorem post_postShadows (spec : MarshalSpec) (shadows rest : List Shadow) :
    post ws (postShadows c spec shadows rest g) =
      Marshal.postShadows c spec shadows rest ⟨g.used, g.mem, ws⟩ := by
  induction rest generalizing g ws with
  | nil => exact post_pure
  | cons s rest ih =>
    rw [postShadows, Marshal.postShadows]
    cases spec.args[s.argIndex]? with
    | none => exact post_pure
    | some as =>
      dsimp only
      rw [post_bind, post_postShadow]
      cases Marshal.postShadow c as shadows s _ with
      | error ws => rfl
      | ok st => exact ih

end Back

section Dispatch

variable {c : Call} {spec : MarshalSpec} {nargs : ℕ} {handler : Handler} {mem : Mem}

theorem dispatch_of_none (h : Marshal.preCall c spec nargs mem = none) :
    (dispatch c spec nargs handler mem).toTraced =
      ⟨(preCall c spec nargs mem).trace.map .check, none⟩ := by
  refine Traced.ext ?_ ?_
  · rw [dispatch, trace_bind]
    simp [h]
  · simp [dispatch, h]

theorem dispatch_of_some (handler : Handler) {args : List ℕ} {shadows : List Shadow} {st : PreState}
    (h : Marshal.preCall c spec nargs mem = some (args, shadows, st)) :
    let r := handler (handlerArgs args) st.mem
    let back := postShadows c spec shadows shadows ⟨st.used, r.mem⟩
    (dispatch c spec nargs handler mem).toTraced =
      ⟨(preCall c spec nargs mem).trace.map .check ++
          .called (handlerArgs args) :: .returned r.ret :: back.trace,
        back.value.bind fun _ => translateReturn c spec.ret shadows r⟩ := by
  refine Traced.ext ?_ ?_
  · rw [dispatch, trace_bind]
    simp [h]
  · simp [dispatch, h]

/-- **A dispatch without its log** is the dispatch. -/
theorem outcome_dispatch :
    outcome (dispatch c spec nargs handler mem) = Marshal.dispatch c spec nargs handler mem := by
  unfold outcome Marshal.dispatch
  cases hpre : Marshal.preCall c spec nargs mem with
  | none => rw [dispatch_of_none hpre, writes_checks]
  | some r =>
    obtain ⟨args, shadows, st⟩ := r
    rw [dispatch_of_some _ hpre]
    have hback (g : Grate) :
        Marshal.postShadows c spec shadows shadows ⟨g.used, g.mem, []⟩ =
          post [] (postShadows c spec shadows shadows g) := (post_postShadows _ _ _).symm
    simp only [writes_append, writes_checks, hback ⟨_, _⟩, post]
    cases (postShadows c spec shadows shadows _).value with
    | none => rfl
    | some g => rfl

end Dispatch

end LindWasm.Marshal.Logged

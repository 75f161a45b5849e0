import LindWasm.Dylink.Got
import LindWasm.Dylink.Symbols

/-!
# Dylink/Linker — loading the modules of a cage

    dispatch --> preload … preload --> main --> dlopen … dlopen
                    │                    │         │
                    ├ element segments --┼---------┤  own slots of the shared function table
                    ├ GOT relocation ----┼---------┤  one slot and one cached index per export
                    └ instance_dylink ---┴---------┘  one linker definition per export

`Loader` is what a load changes: the linker's definitions, the shared function table, the offset
table, the symbol namespaces, and the list of modules that fork and thread creation replay. A step
that ends the process (a failed preload, an `unwrap` of an error) has no state after it.
-/

namespace LindWasm.Dylink

open Option

/-! ## Symbol names with a special part -/

/-- `is_dylink_internal_symbol`: module-internal, never exposed to other modules. -/
def isDylinkInternalSymbol (name : String) : Bool :=
  name ∈ ["__stack_pointer", "__tls_base", "memory", "__wasm_call_ctors",
    "__wasm_apply_data_relocs", "__wasm_apply_global_relocs", "__wasm_apply_tls_relocs",
    "__wasm_init_tls", "asyncify_start_unwind", "asyncify_stop_unwind", "asyncify_start_rewind",
    "asyncify_stop_rewind", "asyncify_get_state", "__get_aligned_tls_size"]

/-- `is_lind_runtime_glue`: exempt from the interposed mode. -/
def isLindRuntimeGlue (name : String) : Bool :=
  name ∈ ["__libc_setup_tls", "__wasi_init_tp", "__ctype_init", "__lind_init_addr_translation",
    "copy_data_between_cages", "copy_handler_table_to_cage", "make_threei_call",
    "register_handler", "saveSetjmp", "testSetjmp", "getTempRet0", "setTempRet0",
    "__wasm_longjmp"]

/-- `is_dylink_dedup_symbol`: several libraries may export it, the first definition wins. -/
def isDylinkDedupSymbol (name : String) : Bool := name == "signal_callback"

def fpcastFuncSignature : String := "$fpcast_emu$"

/-! ## Signatures -/

inductive ValType
  | i32
  | i64
  | f32
  | f64
  | v128
  | ref (text : String)
deriving DecidableEq

namespace ValType

def text : ValType → String
  | i32 => "i32"
  | i64 => "i64"
  | f32 => "f32"
  | f64 => "f64"
  | v128 => "v128"
  | ref text => text

def isScalar : ValType → Bool
  | i32 | i64 | f32 | f64 => true
  | v128 | ref _ => false

end ValType

structure FuncType where
  params : List ValType
  results : List ValType
deriving DecidableEq

def lindMaxRawArgSlots : ℕ := 6

def lib3iFormatSignature (ty : FuncType) : String :=
  "(" ++ ", ".intercalate (ty.params.map ValType.text) ++ ") -> ("
    ++ ", ".intercalate (ty.results.map ValType.text) ++ ")"

/-- The first value of a list the transport cannot carry, named by its position. -/
def unsupportedValue (kind : String) (tys : List ValType) : Option String :=
  (tys.zipIdx.find? fun p => !p.1.isScalar).map fun p =>
    kind ++ " " ++ toString p.2 ++ " has type " ++ p.1.text
      ++ ", which the transport cannot carry (only i32/i64/f32/f64 scalars are supported)"

/-- `lib3i_unsupported_signature_reason`: why a portal cannot carry a signature. -/
def lib3iUnsupportedSignatureReason (ty : FuncType) : Option String :=
  if lindMaxRawArgSlots < ty.params.length then
    some (toString ty.params.length ++ " raw ABI argument slots, exceeding the interposition "
      ++ "transport's " ++ toString lindMaxRawArgSlots ++ "-slot capacity")
  else if let some reason := unsupportedValue "param" ty.params then some reason
  else if 1 < ty.results.length then
    some (toString ty.results.length
      ++ " results, exceeding the interposition transport's single-result capacity")
  else unsupportedValue "result" ty.results

/-! ## Modules -/

/-- What an export is: a function, a global with its value if that is an `i32`, or another item. -/
inductive Item
  | func (ty : FuncType)
  | global (value : Option ℕ)
  | other
deriving DecidableEq

def Item.isFunc : Item → Bool
  | .func _ => true
  | _ => false

structure Export where
  name : String
  item : Item
deriving DecidableEq

/-- A module as the loader sees it. `elements` are the slots its `dylink.0` section reserves in the
shared table, with the function its element segments put there. -/
structure WasmModule where
  gotImports : List (GotModule × String)
  funcImports : List (String × String)
  exports : List Export
  elements : List (Option ℕ)
  exports_nodup : (exports.map Export.name).Nodup

/-- The name an exported function is relocated under: with function-pointer emulation only the
emulated variants are, under their original names. -/
def relocName (fpcast : Bool) (name : String) : Option String :=
  if fpcast then
    if name.startsWith fpcastFuncSignature then
      some (name.drop fpcastFuncSignature.length).toString
    else none
  else some name

namespace WasmModule

/-- The exported functions that get a slot of their own, each with its final name. -/
def relocFuncs (fpcast : Bool) (m : WasmModule) : List (String × String) :=
  m.exports.filterMap fun e =>
    if e.item.isFunc && !isDylinkInternalSymbol e.name then
      (relocName fpcast e.name).map (e.name, ·)
    else none

/-- The exported `i32` globals with their addresses, those that overflow 32 bits left out. -/
def relocGlobals (memoryBase : ℕ) (m : WasmModule) : List (String × ℕ) :=
  m.exports.filterMap fun e =>
    match e.item with
    | .global (some raw) =>
        if !isDylinkInternalSymbol e.name && raw + memoryBase < 2 ^ 32 then
          some (e.name, raw + memoryBase)
        else none
    | _ => none

end WasmModule

/-! ## The state of a load -/

/-- The instances of a cage, named by how they came to be. -/
inductive Inst
  | main
  | preload (n : ℕ)
  | opened (n : ℕ)
deriving DecidableEq

/-- A function a slot or a definition can hold. -/
inductive Func
  /-- the function an element segment put into a slot -/
  | elem (inst : Inst) (index : ℕ)
  /-- an exported function itself -/
  | real (inst : Inst) (name : String)
  /-- the wrapper that calls an exported function -/
  | nested (inst : Inst) (name : String)
  | portal (moduleName name : String) (handlerCage fnPtr : ℕ)
  | trap (message : String)
deriving DecidableEq

/-- What a name is linked to. -/
inductive Definition
  | func (f : Func)
  /-- the offset-table global of an import -/
  | gotCell
  /-- an export that is not a function -/
  | item (inst : Inst) (name : String)
  /-- a definition of the host, as those present before the first load -/
  | host
deriving DecidableEq

/-- What is fixed before the loads: the library handlers of the cage and the engine's option. -/
structure Config where
  handlers : String → String → Option (ℕ × ℕ)
  fpcast : Bool

/-- How a call of `dlopen` for a library that was not open ended. -/
inductive DlopenOutcome
  | ok
  /-- the instantiation failed; `replays` tells whether it succeeds when replayed -/
  | notInstantiated (replays : Bool)
  /-- the start function or a constructor trapped -/
  | initFailed
deriving DecidableEq

/-- How a library came to be loaded: at startup, in either mode, or by `dlopen`, with the handle
`dlsym` knows it by; `linked` tells whether the linker then got its exports. -/
inductive Origin
  | main
  | preload (n : ℕ) (forceInterposed : Bool)
  | opened (n : ℕ) (handle : ℤ) (linked : Bool)
deriving DecidableEq

/-- A loaded module and the name its exports are linked under. -/
structure Library where
  moduleName : String
  module : WasmModule
  origin : Origin

namespace Library

variable (l : Library)

def inst : Inst :=
  match l.origin with
  | .main => .main
  | .preload n _ => .preload n
  | .opened n _ _ => .opened n

/-- The arguments `instance_dylink` is called with for a library. -/
def skiplist : List String :=
  match l.origin with
  | .main => ["signal_callback"]
  | _ => []

def updatesGot : Bool :=
  match l.origin with
  | .main => false
  | _ => true

def forceInterposed : Bool :=
  match l.origin with
  | .preload _ force => force
  | _ => false

def handle (l : Library) : Option ℤ :=
  match l.origin with
  | .opened _ handle _ => some handle
  | _ => none

end Library

/-- What a load changes. -/
structure Loader where
  map : String × String → Option Definition
  table : List (Option Func)
  got : LindGot
  symbols : SymbolTable
  mainModule : WasmModule
  /-- the preloaded modules, in order, with the name each is linked under -/
  modules : List (String × WasmModule)
  /-- every library `dlopen` got as far as instantiating -/
  dlopenModules : List (WasmModule × DlopenOutcome)
  loaded : List Library

/-- The slots of an instance's element segments. -/
def WasmModule.elementSlots (m : WasmModule) (inst : Inst) : List (Option Func) :=
  m.elements.map (Option.map (Func.elem inst))

/-- Write a segment into the table. -/
def initElements (base : ℕ) (slots table : List (Option Func)) : List (Option Func) :=
  table.take base ++ slots ++ table.drop (base + slots.length)

namespace Loader

/-- Before the first load: the host's definitions, and a table of null slots for the main module. -/
def start (host : String × String → Option Definition) (main : WasmModule) : Loader :=
  ⟨host, List.replicate main.elements.length none, .new, .new, main, [], [], []⟩

/-! ## The linker -/

variable (s : Loader) (key : String × String)

/-- `Linker::insert` without shadowing. -/
def insert (d : Definition) : Loader × Option String :=
  match s.map key with
  | some _ => (s, some ("import of `" ++ key.1 ++ "::" ++ key.2 ++ "` defined twice"))
  | none => ({ s with map := setNew s.map key d }, none)

/-- One import of `define_GOT_dispatcher`: a placeholder cell unless the import is defined. -/
def defineGotCell (p : GotModule × String) : Loader :=
  match s.map (p.1.importModule, p.2) with
  | some _ => s
  | none =>
      { s with
        map := setNew s.map (p.1.importModule, p.2) .gotCell
        got := (s.got.store p.1 p.2 0).newEntry p.1 p.2 }

def defineGotDispatcher (m : WasmModule) : Loader :=
  m.gotImports.foldl defineGotCell s

def defineTrap : Loader :=
  { s with
    map := setNew s.map key
      (.func (.trap ("unknown import: `" ++ key.1 ++ "::" ++ key.2 ++ "` has not been defined"))) }

/-- `define_unknown_imports_as_traps`, for the function imports of the main module. -/
def defineUnknownImportsAsTraps (m : WasmModule) : Loader :=
  m.funcImports.foldl defineTrap s

/-- One function of `apply_GOT_relocs`: a new slot, its index cached. -/
def relocFunc (inst : Inst) (s : Loader) (p : String × String) : Loader :=
  { s with
    table := s.table ++ [some (.real inst p.1)]
    got := s.got.cacheSymbol p.2 s.table.length }

def relocGlobal (p : String × ℕ) : Loader :=
  { s with got := s.got.cacheSymbol p.1 p.2 }

/-- `apply_GOT_relocs` with an offset table: the functions, then the globals. -/
def applyGotRelocs (c : Config) (inst : Inst) (m : WasmModule) (memoryBase : ℕ) (s : Loader) :
    Loader :=
  (m.relocGlobals memoryBase).foldl relocGlobal ((m.relocFuncs c.fpcast).foldl (relocFunc inst) s)

end Loader

/-- The exports `instance_dylink` leaves out. -/
def Library.skips (l : Library) (name : String) : Bool :=
  l.moduleName == "env"
    && (name ∈ l.skiplist || isDylinkInternalSymbol name || name.startsWith fpcastFuncSignature)

def unsupportedMessage (moduleName name : String) (ty : FuncType) (reason : String) : String :=
  "lib-3i portal: " ++ moduleName ++ "." ++ name ++ " " ++ lib3iFormatSignature ty
    ++ " cannot be transported: " ++ reason

def interposedMessage (moduleName name : String) : String :=
  "interposed mode: " ++ moduleName ++ "::" ++ name ++ " has no registered grate handler -- "
    ++ "rejecting the call instead of running it locally, un-interposed"

/-- What `instance_dylink` links for an exported function: the portal of its handler, a trap where
there is no transport for its signature, a trap for want of a handler in interposed mode, and the
function itself otherwise. -/
def Library.link (c : Config) (l : Library) (name : String) (ty : FuncType) : Func :=
  match c.handlers l.moduleName name with
  | some (handlerCage, fnPtr) =>
      match lib3iUnsupportedSignatureReason ty with
      | some reason => .trap (unsupportedMessage l.moduleName name ty reason)
      | none => .portal l.moduleName name handlerCage fnPtr
  | none =>
      if l.forceInterposed && !isLindRuntimeGlue name then
        .trap (interposedMessage l.moduleName name)
      else .nested l.inst name

namespace Loader

/-- A portal also gets a slot of the table, and its index is cached. -/
def addPortal (l : Library) (name : String) (f : Func) (s : Loader) : Loader :=
  match f with
  | .portal .. =>
      if l.updatesGot then
        { s with table := s.table ++ [some f], got := s.got.cacheSymbol name s.table.length }
      else s
  | _ => s

/-- One export of `instance_dylink`. -/
def linkExport (c : Config) (l : Library) (s : Loader) (e : Export) : Loader × Option String :=
  if l.skips e.name then (s, none)
  else if l.moduleName == "env" && isDylinkDedupSymbol e.name
      && (s.map (l.moduleName, e.name)).isSome then
    (s, none)
  else
    match e.item with
    | .func ty =>
        (s.addPortal l e.name (l.link c e.name ty)).insert (l.moduleName, e.name)
          (.func (l.link c e.name ty))
    | _ => s.insert (l.moduleName, e.name) (.item l.inst e.name)

/-- The loop of `instance_dylink`, which stops at the first error. -/
def linkExports (c : Config) (l : Library) : Loader → List Export → Loader × Option String
  | s, [] => (s, none)
  | s, e :: es =>
      match s.linkExport c l e with
      | (s', none) => linkExports c l s' es
      | (s', some err) => (s', some err)

def instanceDylink (c : Config) (l : Library) (s : Loader) : Loader × Option String :=
  s.linkExports c l l.module.exports

/-! ## The loads -/

/-- Reserve a library's slots, null until its element segments are written. -/
def growTable (s : Loader) (n : ℕ) : Loader := { s with table := s.table ++ List.replicate n none }

/-- Instantiate a module whose slots start at `base`. -/
def instantiate (s : Loader) (inst : Inst) (m : WasmModule) (base : ℕ) : Loader :=
  { s with table := initElements base (m.elementSlots inst) s.table }

/-- `module_with_preload`, with the growth of the table before it. -/
def moduleWithPreload (c : Config) (s : Loader) (name : String) (m : WasmModule) (memoryBase : ℕ)
    (forceInterposed : Bool) : Option Loader :=
  let inst := Inst.preload s.modules.length
  let l : Library := ⟨name, m, .preload s.modules.length forceInterposed⟩
  let s₁ := (s.growTable m.elements.length).instantiate inst m s.table.length
  match (s₁.applyGotRelocs c inst m memoryBase).instanceDylink c l with
  | (s', none) => some { s' with modules := s'.modules ++ [(name, m)], loaded := s'.loaded ++ [l] }
  | (_, some _) => none

/-- `load_main_module`, with the trap definitions before it. The main module has the first slots of
the table, and is linked without the offset table. -/
def loadMainModule (c : Config) (s : Loader) (memoryBase : ℕ) : Option Loader :=
  let l : Library := ⟨"env", s.mainModule, .main⟩
  let s₁ := (s.defineUnknownImportsAsTraps s.mainModule).instantiate .main s.mainModule 0
  match (s₁.applyGotRelocs c .main s.mainModule memoryBase).instanceDylink c l with
  | (s', none) => some { s' with loaded := s'.loaded ++ [l] }
  | (_, some _) => none

variable {memoryBase : ℕ} {c : Config}

/-- A preload that goes through is linked, and then recorded. -/
theorem moduleWithPreload_eq_some {s s' : Loader} {name : String} {m : WasmModule} {force : Bool}
    (h : s.moduleWithPreload c name m memoryBase force = some s') :
    ∃ t, (((s.growTable m.elements.length).instantiate (.preload s.modules.length) m
        s.table.length).applyGotRelocs c (.preload s.modules.length) m memoryBase).instanceDylink c
          ⟨name, m, .preload s.modules.length force⟩ = (t, none) ∧
      s' = { t with
        modules := t.modules ++ [(name, m)]
        loaded := t.loaded ++ [⟨name, m, .preload s.modules.length force⟩] } := by
  unfold moduleWithPreload at h
  dsimp only at h
  split at h
  · next t hdylink => exact ⟨t, hdylink, (some.inj h).symm⟩
  · cases h

theorem loadMainModule_eq_some {s s' : Loader} (h : s.loadMainModule c memoryBase = some s') :
    ∃ t, (((s.defineUnknownImportsAsTraps s.mainModule).instantiate .main s.mainModule
        0).applyGotRelocs c .main s.mainModule memoryBase).instanceDylink c
          ⟨"env", s.mainModule, .main⟩ = (t, none) ∧
      s' = { t with loaded := t.loaded ++ [⟨"env", s.mainModule, .main⟩] } := by
  unfold loadMainModule at h
  dsimp only at h
  split at h
  · next t hdylink => exact ⟨t, hdylink, (some.inj h).symm⟩
  · cases h

/-- The namespace `module_with_caller` builds: every relocated function with its own index, and the
globals that have a cell. -/
def openedSymbols (c : Config) (s : Loader) (m : WasmModule) (memoryBase : ℕ)
    (symbols : SymbolMap) : SymbolMap :=
  let funcs := ((m.relocFuncs c.fpcast).map Prod.snd).zipIdx s.table.length
  let globals := (m.relocGlobals memoryBase).filter fun p => s.got.hasEntry p.1
  (funcs ++ globals).foldl (fun symbols p => symbols.add p.1 p.2) symbols

/-- `module_with_caller` on the instantiated `n`-th opened library. Only a library of global scope
is linked, and an error of that is dropped. -/
def moduleWithCaller (c : Config) (s : Loader) (n : ℕ) (path : String) (m : WasmModule)
    (memoryBase : ℕ) (mode : BitVec 32) (inode : ℕ) (initOk : Bool) : Loader :=
  let opened := s.openedSymbols c m memoryBase (.new mode inode)
  let linked := initOk && !opened.isLocal
  let s₁ := s.applyGotRelocs c (.opened n) m memoryBase
  let added := s₁.symbols.add opened
  let l : Library := ⟨path, m, .opened n added.2 linked⟩
  let s₂ := { s₁ with symbols := added.1, loaded := s₁.loaded ++ [l] }
  if linked then (s₂.instanceDylink c l).1 else s₂

/-- `load_library_module` on a file that is a library. Whatever becomes of it, the module is
recorded. -/
def loadLibraryModule (c : Config) (s : Loader) (path : String) (m : WasmModule) (memoryBase : ℕ)
    (mode : BitVec 32) (inode : ℕ) (outcome : DlopenOutcome) : Loader :=
  match s.symbols.checkLibraryLoaded inode with
  | some (symbols, _) => { s with symbols }
  | none =>
      let n := s.dlopenModules.length
      let s₁ := (s.growTable m.elements.length).defineGotDispatcher m
      let instantiated := s₁.instantiate (.opened n) m s.table.length
      let s₂ := match outcome with
        | .notInstantiated _ => s₁
        | .ok => instantiated.moduleWithCaller c n path m memoryBase mode inode true
        | .initFailed => instantiated.moduleWithCaller c n path m memoryBase mode inode false
      { s₂ with dlopenModules := s.dlopenModules ++ [(m, outcome)] }

/-- `dlclose`, whose error is dropped. -/
def detachLibrary (s : Loader) (handle : ℤ) : Loader :=
  match s.symbols.deleteByHandler handle with
  | .ok symbols => { s with symbols }
  | .error _ => s

end Loader

/-- What happens in a cage's life as a loader. -/
inductive Action
  /-- placeholder cells for a module that will be loaded -/
  | dispatch (m : WasmModule)
  | preload (name : String) (m : WasmModule) (memoryBase : ℕ) (forceInterposed : Bool)
  | main (memoryBase : ℕ)
  | dlopen (path : String) (m : WasmModule) (memoryBase : ℕ) (mode : BitVec 32) (inode : ℕ)
      (outcome : DlopenOutcome)
  | dlclose (handle : ℤ)

def load (c : Config) (s : Loader) : Action → Option Loader
  | .dispatch m => some (s.defineGotDispatcher m)
  | .preload name m memoryBase force => s.moduleWithPreload c name m memoryBase force
  | .main memoryBase => s.loadMainModule c memoryBase
  | .dlopen path m memoryBase mode inode outcome =>
      some (s.loadLibraryModule c path m memoryBase mode inode outcome)
  | .dlclose handle => some (s.detachLibrary handle)

end LindWasm.Dylink

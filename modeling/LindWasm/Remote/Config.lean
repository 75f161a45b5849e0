import Mathlib.Data.List.Induction

/-!
# Remote/Config — what the two configurations say of a function

    routing config --build_routing_state--> symbol ↦ route, symbol ↦ argument list
    server config  --run------------------> call id ↦ function, argument list

The client looks a function up by its symbol, the server by the call id that goes over the wire.
Each reads the argument list out of its own file.
-/

namespace LindWasm.Remote

open Function Option List

/-! ## Arguments -/

/-- Direction of a pointer argument relative to the call. -/
inductive Direction where
  | dirIn
  | dirOut
  | dirInOut
  deriving DecidableEq

/-- How the size of a pointer argument is determined: by the argument at an index, by the terminator
found in memory, or as that of the pointer argument at an index. -/
inductive PtrSizeSpec where
  | arg (j : ℕ)
  | nullTerminated
  | sameAsPtrArg (j : ℕ)
  deriving DecidableEq

inductive ArgSpec where
  | scalar
  | ptr (direction : Direction) (size : PtrSizeSpec)
  deriving DecidableEq

/-- An argument as either side's configuration has it. The server reads no more than the type, the
direction and `size_arg`. -/
structure ArgSpecConfig where
  ty : String := "scalar"
  direction : Option String := none
  sizeArg : Option ℕ := none
  nullTerminated : Bool := false
  sameAsArg : Option ℕ := none

variable (a : ArgSpecConfig)

def ArgSpecConfig.parseDirection : Direction :=
  if a.direction = some "in" then .dirIn
  else if a.direction = some "out" then .dirOut
  else if a.direction = some "inout" then .dirInOut
  else .dirIn

/-- The client's reading of an argument. -/
def ArgSpecConfig.spec : ArgSpec :=
  if a.ty = "ptr" then
    .ptr a.parseDirection
      (if a.nullTerminated then .nullTerminated
       else match a.sameAsArg with
         | some j => .sameAsPtrArg j
         | none => .arg (a.sizeArg.getD 0))
  else .scalar

/-! ## The client's routing state -/

inductive RouteDecision where
  | goLocal
  | remote (callId : BitVec 32) (endpoint : String)

structure RouteEntryConfig where
  symbol : String
  route : String
  remote : Option String := none
  callId : Option (BitVec 32) := none
  args : List ArgSpecConfig := []
  cageid : Option ℕ := none

structure RoutingConfigFile where
  /-- The endpoint of each named remote. -/
  remotes : String → Option String
  routes : List RouteEntryConfig

structure FunctionMeta where
  args : List ArgSpec

structure RoutingState where
  routeTable : String → Option RouteDecision
  perCageRouteTable : ℕ → String → Option RouteDecision
  metaTable : String → Option FunctionMeta

/-- Without a configuration everything is local. -/
def RoutingState.empty : RoutingState := ⟨fun _ => none, fun _ _ => none, fun _ => none⟩

variable (remotes : String → Option String)

def RouteEntryConfig.decision (e : RouteEntryConfig) :
    RouteDecision :=
  if e.route = "remote" then
    .remote (e.callId.getD 0) ((remotes (e.remote.getD "")).getD "")
  else .goLocal

/-- The argument list of an entry goes to its symbol, for every cage. -/
def RouteEntryConfig.addMeta (e : RouteEntryConfig) (table : String → Option FunctionMeta) :
    String → Option FunctionMeta :=
  if e.args.isEmpty then table
  else update table e.symbol (some ⟨e.args.map ArgSpecConfig.spec⟩)

/-- One entry of the file. -/
def RoutingState.addEntry (st : RoutingState)
    (e : RouteEntryConfig) : RoutingState :=
  match e.cageid with
  | some id =>
      ⟨st.routeTable,
        update st.perCageRouteTable id
          (update (st.perCageRouteTable id) e.symbol (some (e.decision remotes))),
        e.addMeta st.metaTable⟩
  | none =>
      ⟨update st.routeTable e.symbol (some (e.decision remotes)), st.perCageRouteTable,
        e.addMeta st.metaTable⟩

/-- `build_routing_state`; there may be no file, or one that cannot be read. -/
def buildRoutingState (file : Option RoutingConfigFile) : RoutingState :=
  match file with
  | none => .empty
  | some file => file.routes.foldl (RoutingState.addEntry file.remotes) .empty

variable (st : RoutingState) (symbol : String)

def RoutingState.getRoute (cageId : Option ℕ) :
    RouteDecision :=
  match cageId.bind fun id => st.perCageRouteTable id symbol with
  | some decision => decision
  | none => (st.routeTable symbol).getD .goLocal

def RoutingState.getMeta : Option FunctionMeta :=
  st.metaTable symbol

/-! ## The server's registry -/

inductive ParsedArgSpec where
  | scalar
  | ptr (direction : Direction) (sizeArg : ℕ)

/-- The server's reading of an argument. -/
def ArgSpecConfig.parsed : ParsedArgSpec :=
  if a.ty = "ptr" then .ptr a.parseDirection (a.sizeArg.getD 0) else .scalar

structure FunctionEntry where
  callId : BitVec 32
  symbol : String
  ret : String
  args : List ArgSpecConfig := []

/-- A function of the native library, found under its symbol. -/
structure LoadedFn (N : Type) where
  ptr : N
  ret : String
  argSpecs : List ParsedArgSpec

/-- The registry `run` builds: functions the library does not have are left out. -/
def buildRegistry {N : Type} (dlsym : String → Option N) (functions : List FunctionEntry) :
    BitVec 32 → Option (LoadedFn N) :=
  functions.foldl (fun registry e =>
    match dlsym e.symbol with
    | none => registry
    | some ptr => update registry e.callId
        (some ⟨ptr, e.ret, e.args.map ArgSpecConfig.parsed⟩)) fun _ => none

/-! ## What both sides have to agree on -/

/-- The direction of a pointer argument; none for a scalar. -/
def ArgSpec.direction : ArgSpec → Option Direction
  | .scalar => none
  | .ptr d _ => some d

def ParsedArgSpec.direction : ParsedArgSpec → Option Direction
  | .scalar => none
  | .ptr d _ => some d

/-- The argument list the client has for a symbol: the kinds and directions in order. -/
def RoutingState.argList : List (Option Direction) :=
  ((st.getMeta symbol).map fun m => m.args.map ArgSpec.direction).getD []

/-- …and the server for a function. -/
def LoadedFn.argList {N : Type} (fn : LoadedFn N) : List (Option Direction) :=
  fn.argSpecs.map ParsedArgSpec.direction

/-- The test of `FunctionMeta::has_ptrs`, which the server makes too, in words of its own. -/
def hasPtrs (args : List (Option Direction)) : Bool := args.any Option.isSome

/-- Every argument list in the table is nonempty. -/
def NonemptyMeta (table : String → Option FunctionMeta) : Prop :=
  ∀ s m, table s = some m → m.args ≠ []

theorem RouteEntryConfig.nonempty_addMeta (e : RouteEntryConfig)
    {table : String → Option FunctionMeta} (h : NonemptyMeta table) :
    NonemptyMeta (e.addMeta table) := by
  rw [addMeta]
  split
  · exact h
  · next hne =>
    intro s m hm
    by_cases hs : s = e.symbol
    · rw [hs, update_self] at hm
      cases hm
      exact fun hnil => hne (isEmpty_iff.mpr (map_eq_nil_iff.mp hnil))
    · rw [update_of_ne hs] at hm
      exact h s m hm

theorem RoutingState.metaTable_addEntry (remotes : String → Option String) (st : RoutingState)
    (e : RouteEntryConfig) : (st.addEntry remotes e).metaTable = e.addMeta st.metaTable := by
  rw [addEntry]
  split <;> rfl

/-- **A function without arguments in the file has no metadata**: an entry that is there lists
some. -/
theorem nonemptyMeta_buildRoutingState (file : Option RoutingConfigFile) :
    NonemptyMeta (buildRoutingState file).metaTable := by
  have hempty : NonemptyMeta RoutingState.empty.metaTable := fun s m hm =>
    absurd hm.symm (some_ne_none m)
  cases file with
  | none => exact hempty
  | some file =>
    refine foldlRecOn (motive := fun st : RoutingState => NonemptyMeta st.metaTable)
      file.routes _ hempty fun st hst e _ => ?_
    rw [RoutingState.metaTable_addEntry]
    exact e.nonempty_addMeta hst

/-! ## Routes -/

/-- The table of a cage, or the one for all cages. -/
def RoutingState.routesOf : Option ℕ → String → Option RouteDecision
  | some id => st.perCageRouteTable id
  | none => st.routeTable

/-- The last entry of a file for a symbol and a cage, or for a symbol and all cages. -/
def RoutingConfigFile.lastEntry (file : RoutingConfigFile) (cageid : Option ℕ) :
    Option RouteEntryConfig :=
  file.routes.reverse.find? fun e => e.symbol = symbol ∧ e.cageid = cageid

theorem RoutingState.routesOf_addEntry {e : RouteEntryConfig} {cageid : Option ℕ} :
    (st.addEntry remotes e).routesOf cageid symbol
      = if e.symbol = symbol ∧ e.cageid = cageid then some (e.decision remotes)
        else st.routesOf cageid symbol := by
  rw [addEntry]
  cases e.cageid <;> cases cageid <;> simp only [routesOf, update_apply] <;> grind

/-- An entry replaces those before it, for its symbol and its cage. -/
theorem routesOf_buildRoutingState (file : RoutingConfigFile) (cageid : Option ℕ) :
    (buildRoutingState (some file)).routesOf cageid symbol
      = (file.lastEntry symbol cageid).map (·.decision file.remotes) := by
  obtain ⟨remotes, routes⟩ := file
  simp only [buildRoutingState, RoutingConfigFile.lastEntry]
  induction routes using reverseRecOn with
  | nil => cases cageid <;> rfl
  | append_singleton routes e ih =>
    rw [foldl_append, foldl_cons, foldl_nil, RoutingState.routesOf_addEntry, ih, reverse_append]
    by_cases h : e.symbol = symbol ∧ e.cageid = cageid <;> simp [h]

/-- **The route of a symbol is what the file says last**: for the cage if it has an entry of its
own, else for all cages, and local if there is none. -/
theorem getRoute_buildRoutingState (file : RoutingConfigFile) (cageId : Option ℕ) :
    (buildRoutingState (some file)).getRoute symbol cageId =
      (((cageId.bind fun id => file.lastEntry symbol (some id)) <|> file.lastEntry symbol none).map
        (·.decision file.remotes)).getD .goLocal := by
  have hall := routesOf_buildRoutingState symbol file none
  unfold RoutingState.getRoute
  cases cageId with
  | none => exact congrArg (getD · RouteDecision.goLocal) hall
  | some id =>
    have hcage := routesOf_buildRoutingState symbol file (some id)
    simp only [RoutingState.routesOf] at hall hcage
    simp only [bind_some, hall, hcage]
    cases file.lastEntry symbol (some id) <;> rfl

end LindWasm.Remote

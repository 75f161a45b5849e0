import LindWasm.Machinery.Overwrite

/-!
# Dylink/Got — the global offset table of a cage

    GOT.func.f -┐
                ├--> one u32 cell per import, 0 while unresolved
    GOT.mem.f  -┘

`LindGot` knows one cell for a name, the first that was registered, and one value, the first that
was cached; the second import module under the same name has a cell that is never written.
-/

namespace LindWasm.Dylink

/-- The two import modules whose globals are offset-table cells. -/
inductive GotModule
  | func
  | mem
deriving DecidableEq

def GotModule.importModule : GotModule → String
  | .func => "GOT.func"
  | .mem => "GOT.mem"

/-- `LindGOT`, with the cells it points into: a cell is named by its import. -/
structure LindGot where
  globalOffsetTable : String → Option GotModule
  symbolCache : String → Option ℕ
  cell : GotModule → String → ℕ

namespace LindGot

def new : LindGot := ⟨fun _ => none, fun _ => none, fun _ _ => 0⟩

variable (g : LindGot)

/-- Write one cell. -/
def store (k : GotModule) (name : String) (val : ℕ) : LindGot :=
  { g with cell := fun k' name' => if k' = k ∧ name' = name then val else g.cell k' name' }

/-- Register a cell for a name, with the cached value if there is one; a later one is ignored. -/
def newEntry (k : GotModule) (name : String) : LindGot :=
  if (g.globalOffsetTable name).isSome then g
  else
    let filled := match g.symbolCache name with
      | some val => g.store k name val
      | none => g
    { filled with globalOffsetTable := setNew g.globalOffsetTable name k }

variable (name : String)

/-- Write the cell of a name if it is still 0. -/
def updateEntryIfUnresolved (val : ℕ) : LindGot :=
  match g.globalOffsetTable name with
  | none => g
  | some k => if g.cell k name = 0 then g.store k name val else g

/-- Record the value of an exported symbol and fill its cell. -/
def cacheSymbol (val : ℕ) : LindGot :=
  updateEntryIfUnresolved { g with symbolCache := setNew g.symbolCache name val } name val

def hasEntry : Bool := (g.globalOffsetTable name).isSome

variable {g : LindGot} {k k' : GotModule} {name name' : String} {val : ℕ}

theorem store_cell_of_ne (h : name' ≠ name) :
    (g.store k name val).cell k' name' = g.cell k' name' := by simp [store, h]

theorem store_cell_of_module_ne (h : k' ≠ k) :
    (g.store k name val).cell k' name' = g.cell k' name' := by simp [store, h]

/-- What registering a name leaves in the cells: that of a new name is filled from the cache. -/
theorem newEntry_cell : (g.newEntry k name).cell k' name' =
    if name' = name ∧ k' = k ∧ g.globalOffsetTable name = none then
      (g.symbolCache name).getD (g.cell k' name')
    else g.cell k' name' := by
  unfold newEntry store
  cases hreg : g.globalOffsetTable name with
  | some k => simp
  | none =>
    cases hcache : g.symbolCache name with
    | some val => simp [and_comm]
    | none => simp

theorem newEntry_cell_of_ne (h : name' ≠ name) :
    (g.newEntry k name).cell k' name' = g.cell k' name' :=
  newEntry_cell.trans (if_neg fun h' => h h'.1)

theorem newEntry_cell_of_module_ne (h : k' ≠ k) :
    (g.newEntry k name).cell k' name' = g.cell k' name' :=
  newEntry_cell.trans (if_neg fun h' => h h'.2.1)

theorem newEntry_cell_of_none (hnew : g.globalOffsetTable name = none)
    (hcache : g.symbolCache name = some val) : (g.newEntry k name).cell k name = val := by
  rw [newEntry_cell, if_pos ⟨rfl, rfl, hnew⟩, hcache]
  rfl

theorem newEntry_symbolCache : (g.newEntry k name).symbolCache = g.symbolCache := by
  unfold newEntry
  split
  · rfl
  · cases g.symbolCache name <;> rfl

theorem newEntry_globalOffsetTable :
    (g.newEntry k name).globalOffsetTable = setNew g.globalOffsetTable name k := by
  unfold newEntry
  cases hreg : g.globalOffsetTable name with
  | some k' => exact (setNew_eq_self hreg).symm
  | none => rfl

theorem cacheSymbol_globalOffsetTable :
    (g.cacheSymbol name val).globalOffsetTable = g.globalOffsetTable := by
  unfold cacheSymbol updateEntryIfUnresolved
  split
  · rfl
  · split <;> rfl

theorem cacheSymbol_symbolCache :
    (g.cacheSymbol name val).symbolCache = setNew g.symbolCache name val := by
  unfold cacheSymbol updateEntryIfUnresolved
  split
  · rfl
  · split <;> rfl

/-- What caching a name leaves in the cells: the registered one is resolved if it was not. -/
theorem cacheSymbol_cell : (g.cacheSymbol name val).cell k' name' =
    if name' = name ∧ g.globalOffsetTable name = some k' ∧ g.cell k' name' = 0 then val
    else g.cell k' name' := by
  unfold cacheSymbol updateEntryIfUnresolved store
  grind

theorem cacheSymbol_cell_of_ne (h : name' ≠ name) :
    (g.cacheSymbol name val).cell k' name' = g.cell k' name' :=
  cacheSymbol_cell.trans (if_neg fun h' => h h'.1)

theorem cacheSymbol_cell_of_resolved (h : g.cell k' name' ≠ 0) :
    (g.cacheSymbol name val).cell k' name' = g.cell k' name' :=
  cacheSymbol_cell.trans (if_neg fun h' => h h'.2.2)

theorem cacheSymbol_cell_self (hreg : g.globalOffsetTable name = some k)
    (hzero : g.cell k name = 0) : (g.cacheSymbol name val).cell k name = val :=
  cacheSymbol_cell.trans (if_pos ⟨rfl, hreg, hzero⟩)

end LindGot

end LindWasm.Dylink

import Mathlib.Algebra.Order.Ring.Int
import Mathlib.Data.List.Sort

/-!
# Dylink/Symbols — the symbol namespaces of the libraries a cage has opened

    dlopen --> handle --> SymbolMap          dlsym (handle, name) --> index or address

Only libraries opened with `dlopen` have one. Handles are counted up by an `i32`, and a file is open
at most once: a second `dlopen` of its inode only adds a reference.
-/

namespace LindWasm.Dylink

def rtldGlobal : BitVec 32 := 0x100
def rtldNodelete : BitVec 32 := 0x1000

/-- What an `AtomicI32` holds of a number. -/
def wrapI32 (n : ℤ) : ℤ := n.bmod (2 ^ 32)

/-- The namespace of one opened library; `symbols` lists the newest binding of a name first. -/
structure SymbolMap where
  symbols : List (String × ℕ)
  mode : BitVec 32
  handler : ℤ
  inode : ℕ
  refCount : ℤ

namespace SymbolMap

def new (mode : BitVec 32) (inode : ℕ) : SymbolMap := ⟨[], mode, -1, inode, 1⟩

variable (m : SymbolMap)

def add (name : String) (val : ℕ) : SymbolMap :=
  { m with symbols := (name, val) :: m.symbols }

def find (name : String) : Option ℕ := m.symbols.lookup name

def isLocal : Bool := m.mode &&& rtldGlobal == 0

def deletable : Bool := m.mode &&& rtldNodelete == 0

def setHandler (handler : ℤ) (m : SymbolMap) : SymbolMap := { m with handler }

def incrementRef : SymbolMap := { m with refCount := wrapI32 (m.refCount + 1) }

/-- One reference less, and whether it was the last. -/
def decrementRef : SymbolMap × Bool :=
  ({ m with refCount := wrapI32 (m.refCount - 1) }, m.refCount == 1)

end SymbolMap

/-- The ordered skip list: a map goes before the first whose handler is not below its own. -/
def insertMap (m : SymbolMap) (maps : List SymbolMap) : List SymbolMap :=
  maps.orderedInsert (·.handler ≤ ·.handler) m

/-- Change the first map of a handler, or take it out. -/
def changeMap (f : SymbolMap → Option SymbolMap) (handler : ℤ) : List SymbolMap → List SymbolMap
  | [] => []
  | m :: maps =>
      if m.handler = handler then (f m).toList ++ maps else m :: changeMap f handler maps

/-- `SymbolTable`: the maps in the order of their handlers. -/
structure SymbolTable where
  maps : List SymbolMap
  nextHandler : ℤ
  inodeMap : ℕ → Option ℤ

namespace SymbolTable

def new : SymbolTable := ⟨[], 1, fun _ => none⟩

variable (t : SymbolTable)

/-- Give a library the next handler. -/
def add (m : SymbolMap) : SymbolTable × ℤ :=
  (⟨insertMap (m.setHandler t.nextHandler) t.maps,
      wrapI32 (t.nextHandler + 1),
      fun inode => if inode = m.inode then some t.nextHandler else t.inodeMap inode⟩,
    t.nextHandler)

variable (handler : ℤ)

/-- The map of a handler. -/
def mapOf : Option SymbolMap :=
  t.maps.find? (·.handler = handler)

/-- Drop one reference; the last one of a deletable library removes it. -/
def deleteByHandler : Except String SymbolTable :=
  match t.mapOf handler with
  | none => .error "handler does not exist"
  | some m =>
      if m.decrementRef.2 && m.deletable then
        .ok ⟨changeMap (fun _ => none) handler t.maps, t.nextHandler,
          fun inode => if inode = m.inode then none else t.inodeMap inode⟩
      else .ok { t with maps := changeMap (some ·.decrementRef.1) handler t.maps }

def findSymbolFromHandler (name : String) : Option ℕ :=
  (t.mapOf handler).bind (·.find name)

/-- The handler of a library opened before, with one more reference. -/
def checkLibraryLoaded (inode : ℕ) : Option (SymbolTable × ℤ) :=
  (t.inodeMap inode).map fun handler =>
    ({ t with maps := changeMap (some ·.incrementRef) handler t.maps }, handler)

end SymbolTable

end LindWasm.Dylink

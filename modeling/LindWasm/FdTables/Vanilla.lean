import LindWasm.FdTables.Basic

/-!
# FdTables/Vanilla — the descriptor table as a hash map behind one lock

    GLOBALFDTABLE : Mutex⟨cage ↦ fd ↦ entry⟩        GLOBALFDCOUNT : (fdkind, underfd) ↦ count

The same operations as on the array, with a map for the row of a cage. A map is gone through in no
particular order, which is a parameter of each call. A wrong cage is found out with the lock held,
so that its panic poisons the lock; from then on every call that takes it panics.
-/

namespace LindWasm.FdTables.Vanilla

/-! ## The tables -/

/-- The descriptors of one cage. -/
abbrev FdMap := AList fun _ : ℕ => FDTableEntry

/-- An order to go through a map in. -/
structure IterOrder where
  entries : FdMap → List (Sigma fun _ : ℕ => FDTableEntry)
  perm : ∀ m, (entries m).Perm m.entries

/-- The entries of a map, in the order it is gone through. -/
def IterOrder.values (order : IterOrder) (m : FdMap) : List FDTableEntry :=
  (order.entries m).map Sigma.snd

/-- The order of insertion. -/
def IterOrder.stored : IterOrder := ⟨AList.entries, fun _ => List.Perm.refl _⟩

/-- The global tables, the handler calls made so far, and whether the lock of the table is
poisoned. -/
structure State where
  fdtable : AList fun _ : ℕ => FdMap
  fdcount : AList fun _ : ℕ × ℕ => ℕ
  closehandlertable : ℕ → Option CloseHandlers
  calls : List CloseCall
  poisoned : Bool

/-- Nothing is open and nothing registered. -/
def State.init : State := ⟨∅, ∅, fun _ => none, [], false⟩

/-- A result for the caller with the tables after it, or a panic. -/
abbrev Outcome (α : Type) := Except Panic (Except FdError α × State)

variable (v : State) (cageid : ℕ)

/-- The map of a cage that must exist. -/
def getMap : Except Panic FdMap :=
  match v.fdtable.lookup cageid with
  | some m => .ok m
  | none => .error .unknownCage

def setMap (m : FdMap) : State :=
  { v with fdtable := v.fdtable.insert cageid m }

/-! ## The count

The functions on the count have the same text as with the array. -/

/-- The tables that the two have in common. -/
def State.common : FdTables.State := ⟨∅, v.fdcount, v.closehandlertable, v.calls⟩

/-- Put the count and the calls back. -/
def State.recount (s : FdTables.State) : State :=
  { v with fdcount := s.fdcount, calls := s.calls }

def incrementFdcount (v : State) (entry : FDTableEntry) : State :=
  v.recount (FdTables.incrementFdcount v.common entry)

def decrementFdcount (v : State) (entry : FDTableEntry) : Except Panic (Except ℤ Unit × State) :=
  (FdTables.decrementFdcount v.common entry).map (Prod.map id v.recount)

/-- Count in order. -/
def incrementAll (l : List FDTableEntry) : State := l.foldl incrementFdcount v

/-- Decrement in order; a handler that fails is a panic. -/
def decrementAll : State → List FDTableEntry → Except Panic State
  | v, [] => .ok v
  | v, entry :: rest =>
      match decrementFdcount v entry with
      | .error p => .error p
      | .ok (.error errno, _) => .error (.closeHandlerFailed errno)
      | .ok (.ok (), v') => decrementAll v' rest

/-- Decrement once; a handler's failure is reported to the caller. -/
def decrementOne (entry : FDTableEntry) : Outcome Unit :=
  match decrementFdcount v entry with
  | .error p => .error p
  | .ok (.error errno, v') => .ok (.error (.handler errno), v')
  | .ok (.ok (), v') => .ok (.ok (), v')

/-! ## The operations -/

def initEmptyCage : Outcome Unit :=
  match v.fdtable.lookup cageid with
  | some _ => .error .knownCage
  | none => .ok (.ok (), setMap v cageid ∅)

def translateVirtualFd (virtualfd : ℕ) :
    Except Panic (Except FdError FDTableEntry) :=
  match getMap v cageid with
  | .error p => .error p
  | .ok m =>
      if virtualfd ≥ fdPerProcessMax then .ok (.error (.errno .EBADFD))
      else
        match m.lookup virtualfd with
        | some tableentry => .ok (.ok tableentry)
        | none => .ok (.error (.errno .EBADFD))

/-- The first vacant descriptor from `start` on. -/
def firstVacant (m : FdMap) (start : ℕ) : Option ℕ :=
  (List.range fdPerProcessMax).find? fun fd => start ≤ fd ∧ m.lookup fd = none

/-- Give the entry the first vacant descriptor from `start` on. -/
def allocateFrom (myentry : FDTableEntry) (start : ℕ) : Outcome ℕ :=
  match getMap v cageid with
  | .error p => .error p
  | .ok m =>
      match firstVacant m start with
      | some fd => .ok (.ok fd, incrementFdcount (setMap v cageid (m.insert fd myentry)) myentry)
      | none => .ok (.error (.errno .EMFILE), v)

def getUnusedVirtualFd (fdkind underfd : ℕ) (shouldCloexec : Bool)
    (perfdinfo : ℕ) : Outcome ℕ :=
  allocateFrom v cageid { fdkind, underfd, shouldCloexec, perfdinfo } 0

def getUnusedVirtualFdFromStartfd (fdkind underfd : ℕ) (shouldCloexec : Bool)
    (perfdinfo arg : ℕ) : Outcome ℕ :=
  allocateFrom v cageid { fdkind, underfd, shouldCloexec, perfdinfo } arg

/-- Here a handler that fails for the old entry is a panic, and `fdPerProcessMax` itself is a key
like any other. -/
def getSpecificVirtualFd (requestedVirtualfd fdkind underfd : ℕ)
    (shouldCloexec : Bool) (perfdinfo : ℕ) : Outcome Unit :=
  match getMap v cageid with
  | .error p => .error p
  | .ok m =>
      if requestedVirtualfd > fdPerProcessMax then .ok (.error (.errno .EBADF), v)
      else
        let myentry : FDTableEntry := { fdkind, underfd, shouldCloexec, perfdinfo }
        let v := setMap (incrementFdcount v myentry) cageid (m.insert requestedVirtualfd myentry)
        match m.lookup requestedVirtualfd with
        | some entry => (decrementAll v [entry]).map (Prod.mk (.ok ()))
        | none => .ok (.ok (), v)

/-- Edit the entry of a descriptor in place. -/
def modifyEntry (virtualfd : ℕ) (f : FDTableEntry → FDTableEntry) :
    Outcome Unit :=
  match getMap v cageid with
  | .error p => .error p
  | .ok m =>
      match m.lookup virtualfd with
      | some tableentry => .ok (.ok (), setMap v cageid (m.insert virtualfd (f tableentry)))
      | none => .ok (.error (.errno .EBADFD), v)

def setCloexec (virtualfd : ℕ) (isCloexec : Bool) : Outcome Unit :=
  modifyEntry v cageid virtualfd fun tableentry => { tableentry with shouldCloexec := isCloexec }

def setPerfdinfo (virtualfd perfdinfo : ℕ) : Outcome Unit :=
  modifyEntry v cageid virtualfd fun tableentry => { tableentry with perfdinfo }

def copyFdtableForCage (order : IterOrder) (v : State) (srccageid newcageid : ℕ) : Outcome Unit :=
  match getMap v srccageid with
  | .error p => .error p
  | .ok hmcopy =>
      match v.fdtable.lookup newcageid with
      | some _ => .error .knownCage
      | none => .ok (.ok (), setMap (incrementAll v (order.values hmcopy)) newcageid hmcopy)

/-- A cage that is not there is no error. -/
def removeCageFromFdtable (order : IterOrder) (v : State) (cageid : ℕ) : Except Panic State :=
  match v.fdtable.lookup cageid with
  | none => .ok v
  | some cagetable =>
      decrementAll { v with fdtable := v.fdtable.erase cageid } (order.values cagetable)

/-- The entries to keep go into a new map, those to close into a list. -/
def drain : List (Sigma fun _ : ℕ => FDTableEntry) → FdMap → List FDTableEntry →
    FdMap × List FDTableEntry
  | [], withoutCloexec, withCloexec => (withoutCloexec, withCloexec)
  | kv :: rest, withoutCloexec, withCloexec =>
      if kv.2.shouldCloexec then drain rest withoutCloexec (withCloexec ++ [kv.2])
      else drain rest (withoutCloexec.insert kv.1 kv.2) withCloexec

def emptyFdsForExec (order : IterOrder) (v : State) (cageid : ℕ) : Except Panic State :=
  match getMap v cageid with
  | .error p => .error p
  | .ok m =>
      let drained := drain (order.entries m) ∅ []
      decrementAll (setMap v cageid drained.1) drained.2

/-- The bound is tested before the lock is taken. -/
def closeVirtualfd (virtfd : ℕ) : Outcome Unit :=
  if virtfd ≥ fdPerProcessMax then .ok (.error (.errno .EBADFD), v)
  else
    match getMap v cageid with
    | .error p => .error p
    | .ok m =>
        match m.lookup virtfd with
        | some entry => decrementOne (setMap v cageid (m.erase virtfd)) entry
        | none => .ok (.error (.errno .EBADFD), v)

def registerCloseHandlers (fdkind : ℕ) (handlers : CloseHandlers) : State :=
  { v with closehandlertable := Function.update v.closehandlertable fdkind (some handlers) }

end LindWasm.FdTables.Vanilla

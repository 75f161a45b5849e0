import Mathlib.Algebra.BigOperators.Fin
import LindWasm.Machinery.Run
import LindWasm.Machinery.Tally

/-!
# FdTables/Basic — virtual file descriptors and the global count of what lies under them

    fdtable : cage ↦ row of FD_PER_PROCESS_MAX entries        fdcount : (fdkind, underfd) ↦ count

Each operation edits one row and, separately, the count of the pairs it adds or drops; dropping a
pair calls the close handler its kind registered — `last` when the count reaches zero. Handler
calls are recorded in order. An operation that panics answers with the panic.
-/

namespace LindWasm.FdTables

/-! ## The tables -/

def fdPerProcessMax : ℕ := 1024

/-- What a virtual descriptor stands for. -/
structure FDTableEntry where
  fdkind : ℕ
  underfd : ℕ
  shouldCloexec : Bool
  perfdinfo : ℕ
  deriving DecidableEq

/-- The key the count is kept under. -/
def FDTableEntry.pair (e : FDTableEntry) : ℕ × ℕ := (e.fdkind, e.underfd)

/-- The descriptors of one cage. -/
abbrev FdRow := Fin fdPerProcessMax → Option FDTableEntry

/-- The handlers registered for a kind; the second argument is the count that remains. -/
structure CloseHandlers where
  intermediate : FDTableEntry → ℕ → Except ℤ Unit
  last : FDTableEntry → ℕ → Except ℤ Unit

/-- The handler of a kind that registered none. -/
def nullFunc (_ : FDTableEntry) (_ : ℕ) : Except ℤ Unit := .ok ()

/-- One call of a close handler. -/
structure CloseCall where
  last : Bool
  entry : FDTableEntry
  count : ℕ
  deriving DecidableEq

/-- The global tables, and the handler calls made so far. -/
structure State where
  fdtable : AList fun _ : ℕ => FdRow
  fdcount : AList fun _ : ℕ × ℕ => ℕ
  closehandlertable : ℕ → Option CloseHandlers
  calls : List CloseCall

/-- Nothing is open and nothing registered. -/
def State.init : State := ⟨∅, ∅, fun _ => none, []⟩

inductive Errno where
  | EBADF
  | EBADFD
  | EMFILE
  deriving DecidableEq

/-- What an operation reports to its caller: an errno of its own, or a handler's. -/
inductive FdError where
  | errno (e : Errno)
  | handler (e : ℤ)
  deriving DecidableEq

inductive Panic where
  | unknownCage
  | knownCage
  | indexOutOfBounds
  | fdcountUnderflow
  | fdcountMissing
  | closeHandlerFailed (errno : ℤ)
  deriving DecidableEq

/-- A result for the caller with the tables after it, or a panic. -/
abbrev Outcome (α : Type) := Except Panic (Except FdError α × State)

/-- The entries of a row, in order of their descriptor. -/
def rowEntries (row : FdRow) : List FDTableEntry := (List.finRange fdPerProcessMax).filterMap row

variable (s : State) (cageid : ℕ)

/-- The row of a cage that must exist. -/
def getRow : Except Panic FdRow :=
  match s.fdtable.lookup cageid with
  | some row => .ok row
  | none => .error .unknownCage

def setRow (row : FdRow) : State :=
  { s with fdtable := s.fdtable.insert cageid row }

/-! ## The count -/

def incrementFdcount (entry : FDTableEntry) : State :=
  match s.fdcount.lookup entry.pair with
  | some count => { s with fdcount := s.fdcount.insert entry.pair (count + 1) }
  | none => { s with fdcount := s.fdcount.insert entry.pair 1 }

/-- The handlers of the entry's kind. -/
def handlersOf (entry : FDTableEntry) : CloseHandlers :=
  (s.closehandlertable entry.fdkind).getD ⟨nullFunc, nullFunc⟩

def decrementFdcount (entry : FDTableEntry) :
    Except Panic (Except ℤ Unit × State) :=
  match s.fdcount.lookup entry.pair with
  | none => .error .fdcountMissing
  | some 0 => .error .fdcountUnderflow
  | some (newcount + 1) =>
      if 0 < newcount then
        .ok ((handlersOf s entry).intermediate entry newcount,
          { s with
            fdcount := s.fdcount.insert entry.pair newcount
            calls := s.calls ++ [⟨false, entry, newcount⟩] })
      else
        .ok ((handlersOf s entry).last entry 0,
          { s with
            fdcount := s.fdcount.erase entry.pair
            calls := s.calls ++ [⟨true, entry, 0⟩] })

/-- Decrement in order; here a handler that fails is a panic. -/
def decrementAll : State → List FDTableEntry → Except Panic State
  | s, [] => .ok s
  | s, entry :: rest =>
      match decrementFdcount s entry with
      | .error p => .error p
      | .ok (.error errno, _) => .error (.closeHandlerFailed errno)
      | .ok (.ok (), s') => decrementAll s' rest

/-- Decrement once; here a handler's failure is reported to the caller. -/
def decrementOne (entry : FDTableEntry) : Outcome Unit :=
  match decrementFdcount s entry with
  | .error p => .error p
  | .ok (.error errno, s') => .ok (.error (.handler errno), s')
  | .ok (.ok (), s') => .ok (.ok (), s')

/-! ## The operations -/

def initEmptyCage : Outcome Unit :=
  match s.fdtable.lookup cageid with
  | some _ => .error .knownCage
  | none => .ok (.ok (), setRow s cageid fun _ => none)

def translateVirtualFd (virtualfd : ℕ) :
    Except Panic (Except FdError FDTableEntry) :=
  match getRow s cageid with
  | .error p => .error p
  | .ok row =>
      if h : virtualfd < fdPerProcessMax then
        match row ⟨virtualfd, h⟩ with
        | some entry => .ok (.ok entry)
        | none => .ok (.error (.errno .EBADFD))
      else .ok (.error (.errno .EBADFD))

/-- The first unused descriptor from `start` on. -/
def firstUnused (row : FdRow) (start : ℕ) : Option (Fin fdPerProcessMax) :=
  (List.finRange fdPerProcessMax).find? fun fd => start ≤ fd ∧ row fd = none

/-- Give the entry the first unused descriptor from `start` on. -/
def allocateFrom (myentry : FDTableEntry) (start : ℕ) : Outcome ℕ :=
  match getRow s cageid with
  | .error p => .error p
  | .ok row =>
      match firstUnused row start with
      | some fd =>
          .ok (.ok fd, incrementFdcount (setRow s cageid (Function.update row fd (some myentry)))
            myentry)
      | none => .ok (.error (.errno .EMFILE), s)

def getUnusedVirtualFd (fdkind underfd : ℕ) (shouldCloexec : Bool)
    (perfdinfo : ℕ) : Outcome ℕ :=
  allocateFrom s cageid { fdkind, underfd, shouldCloexec, perfdinfo } 0

def getUnusedVirtualFdFromStartfd (fdkind underfd : ℕ) (shouldCloexec : Bool)
    (perfdinfo arg : ℕ) : Outcome ℕ :=
  allocateFrom s cageid { fdkind, underfd, shouldCloexec, perfdinfo } arg

/-- The new entry is counted and stored before the old one is dropped, so replacing a pair by
itself calls the intermediate handler. -/
def getSpecificVirtualFd (requestedVirtualfd fdkind underfd : ℕ)
    (shouldCloexec : Bool) (perfdinfo : ℕ) : Outcome Unit :=
  match getRow s cageid with
  | .error p => .error p
  | .ok row =>
      if requestedVirtualfd > fdPerProcessMax then .ok (.error (.errno .EBADF), s)
      else
        let myentry : FDTableEntry := { fdkind, underfd, shouldCloexec, perfdinfo }
        let s := incrementFdcount s myentry
        -- the bound test lets `fdPerProcessMax` itself through to the index
        if h : requestedVirtualfd < fdPerProcessMax then
          let s := setRow s cageid (Function.update row ⟨requestedVirtualfd, h⟩ (some myentry))
          match row ⟨requestedVirtualfd, h⟩ with
          | some entry => decrementOne s entry
          | none => .ok (.ok (), s)
        else .error .indexOutOfBounds

/-- Edit the entry of a descriptor in place. -/
def modifyEntry (virtualfd : ℕ) (f : FDTableEntry → FDTableEntry) :
    Outcome Unit :=
  match getRow s cageid with
  | .error p => .error p
  | .ok row =>
      if h : virtualfd < fdPerProcessMax then
        match row ⟨virtualfd, h⟩ with
        | none => .ok (.error (.errno .EBADFD), s)
        | some entry =>
            .ok (.ok (), setRow s cageid (Function.update row ⟨virtualfd, h⟩ (some (f entry))))
      else .error .indexOutOfBounds

def setCloexec (virtualfd : ℕ) (isCloexec : Bool) : Outcome Unit :=
  modifyEntry s cageid virtualfd fun entry => { entry with shouldCloexec := isCloexec }

def setPerfdinfo (virtualfd perfdinfo : ℕ) : Outcome Unit :=
  modifyEntry s cageid virtualfd fun entry => { entry with perfdinfo }

def copyFdtableForCage (srccageid newcageid : ℕ) : Outcome Unit :=
  match getRow s srccageid with
  | .error p => .error p
  | .ok hmcopy =>
      match s.fdtable.lookup newcageid with
      | some _ => .error .knownCage
      | none =>
          .ok (.ok (), setRow ((rowEntries hmcopy).foldl incrementFdcount s) newcageid hmcopy)

/-- A cage that is not there is no error. -/
def removeCageFromFdtable : Except Panic State :=
  match s.fdtable.lookup cageid with
  | none => .ok s
  | some myfdrow =>
      decrementAll { s with fdtable := s.fdtable.erase cageid } (rowEntries myfdrow)

def emptyFdsForExec : Except Panic State :=
  match getRow s cageid with
  | .error p => .error p
  | .ok row =>
      let closevec := (rowEntries row).filter (·.shouldCloexec)
      decrementAll (setRow s cageid fun fd => (row fd).filter (!·.shouldCloexec)) closevec

/-- The bound is tested before the cage is looked up. -/
def closeVirtualfd (virtfd : ℕ) : Outcome Unit :=
  if h : virtfd < fdPerProcessMax then
    match getRow s cageid with
    | .error p => .error p
    | .ok row =>
        match row ⟨virtfd, h⟩ with
        | none => .ok (.error (.errno .EBADFD), s)
        | some entry => decrementOne (setRow s cageid (Function.update row ⟨virtfd, h⟩ none)) entry
  else .ok (.error (.errno .EBADFD), s)

def registerCloseHandlers (fdkind : ℕ) (handlers : CloseHandlers) : State :=
  { s with closehandlertable := Function.update s.closehandlertable fdkind (some handlers) }

/-! ## Runs of operations -/

inductive Op where
  | initEmptyCage (cageid : ℕ)
  | getUnusedVirtualFd (cageid fdkind underfd : ℕ) (shouldCloexec : Bool) (perfdinfo : ℕ)
  | getUnusedVirtualFdFromStartfd (cageid fdkind underfd : ℕ) (shouldCloexec : Bool)
      (perfdinfo arg : ℕ)
  | getSpecificVirtualFd (cageid requestedVirtualfd fdkind underfd : ℕ) (shouldCloexec : Bool)
      (perfdinfo : ℕ)
  | setCloexec (cageid virtualfd : ℕ) (isCloexec : Bool)
  | setPerfdinfo (cageid virtualfd perfdinfo : ℕ)
  | copyFdtableForCage (srccageid newcageid : ℕ)
  | removeCageFromFdtable (cageid : ℕ)
  | emptyFdsForExec (cageid : ℕ)
  | closeVirtualfd (cageid virtfd : ℕ)
  | registerCloseHandlers (fdkind : ℕ) (handlers : CloseHandlers)

/-- The tables after an operation, or its panic. -/
def exec : Op → Except Panic State
  | .initEmptyCage c => (initEmptyCage s c).map Prod.snd
  | .getUnusedVirtualFd c k u x i => (getUnusedVirtualFd s c k u x i).map Prod.snd
  | .getUnusedVirtualFdFromStartfd c k u x i a =>
      (getUnusedVirtualFdFromStartfd s c k u x i a).map Prod.snd
  | .getSpecificVirtualFd c r k u x i => (getSpecificVirtualFd s c r k u x i).map Prod.snd
  | .setCloexec c v x => (setCloexec s c v x).map Prod.snd
  | .setPerfdinfo c v i => (setPerfdinfo s c v i).map Prod.snd
  | .copyFdtableForCage src new => (copyFdtableForCage s src new).map Prod.snd
  | .removeCageFromFdtable c => removeCageFromFdtable s c
  | .emptyFdsForExec c => emptyFdsForExec s c
  | .closeVirtualfd c v => (closeVirtualfd s c v).map Prod.snd
  | .registerCloseHandlers k h => .ok (registerCloseHandlers s k h)

/-- One operation of a run; a panic stops the run. -/
def step (op : Op) : Option State := (exec s op).toOption

end LindWasm.FdTables

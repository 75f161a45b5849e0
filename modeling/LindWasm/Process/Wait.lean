import Mathlib.Data.Int.Notation
import Mathlib.Data.List.Nodup
import LindWasm.Machinery.Run
import LindWasm.Machinery.Slots

/-!
# Process/Wait — exits of children and `waitpid`

    cage_finalize   running --child_num--> counted --zombies--> published --cage table--> removed
    waitpid         called --> checking --> sleeping --> answered

A child's exit becomes visible to its parent in three steps, and `waitpid` reads the three places
separately. `ExactlyOnce`, `Found`, `Immediate` and `EchildRight` are what a parent is promised.
-/

namespace LindWasm.Wait

/-! ## Children and calls -/

inductive ExitStatus where
  | exited (code : ℤ)
  | signaled (signo : ℤ) (coreDump : Bool)
  deriving DecidableEq

structure Zombie where
  cageid : ℕ
  exitCode : ExitStatus
  deriving DecidableEq

/-- How far `cage_finalize` has come with a child. -/
inductive Stage where
  | running
  | counted
  | published
  | removed
  deriving DecidableEq

structure Child where
  cageid : ℕ
  stage : Stage
  finalExitStatus : Option ExitStatus
  deriving DecidableEq

/-- The entry `cage_finalize` makes for the child. -/
def Child.zombie (c : Child) : Zombie := ⟨c.cageid, c.finalExitStatus.getD (.exited 0)⟩

/-- The exit of the child, once it is published. -/
def Child.exit (c : Child) : Option Zombie :=
  match c.stage with
  | .running | .counted => none
  | .published | .removed => some c.zombie

inductive Answer where
  | echild
  | zero
  | eintr
  | reaped (z : Zombie)
  deriving DecidableEq

/-- Where a call of `waitpid` is; in `checking` it holds the lock of the zombie list. -/
inductive CallPhase where
  | called
  | checking
  | sleeping
  | answered (a : Answer)
  deriving DecidableEq

/-- A `waitpid`, and how far it is. -/
structure Call where
  cageIdToWait : ℤ
  wnohang : Bool
  phase : CallPhase
  deriving DecidableEq

/-- The exit a call has returned. -/
def Call.reaped (c : Call) : Option Zombie :=
  match c.phase with
  | .answered (.reaped z) => some z
  | _ => none

/-- A parent: the children it has had, and the calls its threads have made. -/
structure State where
  children : List Child
  childNum : ℕ
  zombies : List Zombie
  calls : List Call

def State.start : State := ⟨[], 0, [], []⟩

/-- The exits returned so far. -/
def State.reaped (s : State) : List Zombie := s.calls.filterMap Call.reaped

variable (s : State)

/-- Nobody holds the lock of the zombie list. -/
def State.Unlocked : Prop := ∀ call ∈ s.calls, call.phase ≠ .checking
deriving Decidable

/-! ## The steps of `waitpid` -/

/-- The entry a call takes out of the list: the first one, or the one it names. -/
def pick (zombies : List Zombie) (cageIdToWait : ℤ) : Option (Zombie × List Zombie) :=
  if cageIdToWait ≤ 0 then zombies.head?.map fun z => (z, zombies.tail)
  else
    (zombies.find? fun z => (z.cageid : ℤ) = cageIdToWait).map fun z =>
      (z, zombies.eraseP fun z => (z.cageid : ℤ) = cageIdToWait)

variable (i : ℕ)

def State.goto (call : Call) (phase : CallPhase) : State :=
  { s with calls := s.calls.set i { call with phase } }

/-- A child with the id is still in the cage table. -/
def State.Present (cageid : ℤ) : Prop :=
  ∃ c ∈ s.children, (c.cageid : ℤ) = cageid ∧ c.stage ≠ .removed
deriving Decidable

/-- The first look at the list, with the lock on it. -/
def State.look (call : Call) : State :=
  if s.zombies = [] ∧ s.childNum = 0 then s.goto i call (.answered .echild)
  else
    match pick s.zombies call.cageIdToWait with
    | some (z, rest) => { s with zombies := rest }.goto i call (.answered (.reaped z))
    | none =>
        if call.cageIdToWait ≤ 0 then
          if call.wnohang then s.goto i call (.answered .zero) else s.goto i call .sleeping
        else s.goto i call .checking

/-- Whether the named cage is a child that can still exit. A cage with another parent and a cage
that does not exist get the same answer. -/
def State.check (call : Call) : State :=
  if s.Present call.cageIdToWait then s.goto i call .sleeping
  else s.goto i call (.answered .echild)

/-- One more turn of the loop, with or without a signal pending. -/
def State.relook (call : Call) (signal : Bool) : State :=
  match pick s.zombies call.cageIdToWait with
  | some (z, rest) => { s with zombies := rest }.goto i call (.answered (.reaped z))
  | none =>
      if call.wnohang = false ∧ signal = true then s.goto i call (.answered .eintr) else s

/-! ## Runs -/

/-- A step on a child's way out. -/
inductive ChildOp where
  | recordExitStatus (status : ExitStatus)
  | subChildNum
  | pushZombie
  | removeCage

/-- A step of a call of `waitpid`. -/
inductive CallOp where
  | look
  | check
  | relook (signal : Bool)

inductive Op where
  | fork (cageid : ℕ)
  | child (i : ℕ) (op : ChildOp)
  | waitpid (cageIdToWait : ℤ) (wnohang : Bool)
  | call (i : ℕ) (op : CallOp)

/-- A status is recorded while the child has threads; the push needs the lock. -/
def ChildOp.Possible (c : Child) : ChildOp → Prop
  | .recordExitStatus _ | .subChildNum => c.stage = .running
  | .pushZombie => c.stage = .counted ∧ s.Unlocked
  | .removeCage => c.stage = .published

/-- The child after the step; of its statuses the first one counts. -/
def ChildOp.next (c : Child) : ChildOp → Child
  | .recordExitStatus status => { c with finalExitStatus := c.finalExitStatus.or (some status) }
  | .subChildNum => { c with stage := .counted }
  | .pushZombie => { c with stage := .published }
  | .removeCage => { c with stage := .removed }

def ChildOp.apply (c : Child) (op : ChildOp) : State :=
  let s := { s with children := s.children.set i (op.next c) }
  match op with
  | .subChildNum => { s with childNum := s.childNum - 1 }
  | .pushZombie => { s with zombies := s.zombies ++ [c.zombie] }
  | .recordExitStatus _ | .removeCage => s

def CallOp.Possible (call : Call) : CallOp → Prop
  | .look => call.phase = .called ∧ s.Unlocked
  | .check => call.phase = .checking
  | .relook _ => call.phase = .sleeping ∧ s.Unlocked

def CallOp.apply (call : Call) : CallOp → State
  | .look => s.look i call
  | .check => s.check i call
  | .relook signal => s.relook i call signal

instance decidableChildPossible (s : State) (c : Child) : (op : ChildOp) →
    Decidable (op.Possible s c) :=
  fun op => by cases op <;> dsimp only [ChildOp.Possible] <;> infer_instance

instance decidableCallPossible (s : State) (call : Call) : (op : CallOp) →
    Decidable (op.Possible s call) :=
  fun op => by cases op <;> dsimp only [CallOp.Possible] <;> infer_instance

def State.fork (cageid : ℕ) : State :=
  { s with children := s.children ++ [⟨cageid, .running, none⟩], childNum := s.childNum + 1 }

def State.waitpid (cageIdToWait : ℤ) (wnohang : Bool) : State :=
  { s with calls := s.calls ++ [⟨cageIdToWait, wnohang, .called⟩] }

def step : Op → Option State
  | .fork cageid => if cageid ∈ s.children.map Child.cageid then none else some (s.fork cageid)
  | .child i op =>
      s.children[i]?.bind fun c => if op.Possible s c then some (op.apply s i c) else none
  | .waitpid cageIdToWait wnohang => some (s.waitpid cageIdToWait wnohang)
  | .call i op =>
      s.calls[i]?.bind fun call => if op.Possible s call then some (op.apply s i call) else none

/-! ## What is promised -/

/-- The child's exit has not been returned yet. -/
def State.Waitable (cageid : ℤ) : Prop :=
  ∃ c ∈ s.children, (c.cageid : ℤ) = cageid ∧ ∀ z ∈ s.reaped, (z.cageid : ℤ) ≠ cageid

/-- The entries of a child, waiting or returned, are its exit, once. -/
def ExactlyOnce : Prop :=
  (∀ c ∈ s.children,
    (s.zombies ++ s.reaped).filter (fun z => z.cageid = c.cageid) = c.exit.toList) ∧
  ∀ z ∈ s.zombies ++ s.reaped, ∃ c ∈ s.children, c.exit = some z

/-- A call that looks while an exit it asks for is there takes one. -/
def Found : Prop :=
  ∀ z ∈ s.zombies, ∀ cageIdToWait : ℤ, cageIdToWait ≤ 0 ∨ cageIdToWait = z.cageid →
    (pick s.zombies cageIdToWait).isSome = true

/-- A call with `WNOHANG` does not wait. -/
def Immediate : Prop :=
  ∀ call ∈ s.calls, call.wnohang = true → call.phase ≠ .sleeping

/-- The step answers `ECHILD` only to a call that has no child to wait for. -/
def EchildRight (s' : State) : Prop :=
  ∀ (i : ℕ) (call call' : Call), s.calls[i]? = some call → s'.calls[i]? = some call' →
    call'.phase = .answered .echild → call.phase ≠ .answered .echild →
    (∀ c, ¬ s.Waitable c) ∨ 0 < call.cageIdToWait ∧ ¬ s.Waitable call.cageIdToWait

/-- The condition on the steps: no first look at an empty list while a child is between the two
counts, and no check of `WNOHANG` for a child that is still in the table. -/
def CallOp.Orderly (call : Call) : CallOp → Prop
  | .look => s.zombies = [] → s.childNum = 0 → ∀ c ∈ s.children, c.stage ≠ .counted
  | .check => call.wnohang = true → ¬ s.Present call.cageIdToWait
  | .relook _ => True

def Op.Orderly (s : State) : Op → Prop
  | .call i op => ∀ call ∈ s.calls[i]?, op.Orderly s call
  | _ => True

instance decidableCallOrderly (s : State) (call : Call) : (op : CallOp) →
    Decidable (op.Orderly s call) :=
  fun op => by cases op <;> dsimp only [CallOp.Orderly] <;> infer_instance

instance decidableOrderly (s : State) : (op : Op) → Decidable (op.Orderly s) :=
  fun op => by cases op <;> dsimp only [Op.Orderly] <;> infer_instance

end LindWasm.Wait

import LindWasm.Machinery.Table
import Mathlib.Data.Int.Notation

/-!
# Signal/Basic — pending signals, the signal mask and the epoch words of a cage

    kill --> pending_signals --> epoch word of the main thread --> signal_handler
                   ▲                                                     │
                   └------------ sigset (blocked signals) <--------------┘

A signal waits in `pending` until the main thread looks at it, and it looks when its epoch word is
not `normal`. The mask, the pending list, the dispositions and the words are separate fields; this
module has the functions that change them, each on the cage alone.
-/

namespace LindWasm.Signal

open Function Option List

/-! ## Signals and masks -/

abbrev Sigset := BitVec 64

/-- The bit of a signal from 1 to 31; past them the code's shift, of an `i32`, is another. -/
def convertSignalMask (signo : ℤ) : Sigset := 1#64 <<< (signo - 1).toNat

/-- The signal's bit is set in the mask. -/
def Blocks (mask : Sigset) (signo : ℤ) : Prop := mask &&& convertSignalMask signo ≠ 0
deriving Decidable

variable {signo : ℤ} {a b : Sigset}

theorem blocks_iff {mask : Sigset} : Blocks mask signo ↔ mask.getLsbD (signo - 1).toNat = true := by
  have hmask : convertSignalMask signo = BitVec.twoPow 64 (signo - 1).toNat := rfl
  rw [Blocks, hmask, BitVec.and_twoPow]
  generalize (signo - 1).toNat = bit
  split
  next hbit =>
    refine iff_of_true (fun hzero => ?_) hbit
    have := congrArg (·.getLsbD bit) hzero
    simp [BitVec.lt_of_getLsbD hbit] at this
  next hbit => exact iff_of_false (fun h => h rfl) hbit

@[simp] theorem blocks_or : Blocks (a ||| b) signo ↔ Blocks a signo ∨ Blocks b signo := by
  simp [blocks_iff]

theorem blocks_and_not : Blocks (a &&& ~~~b) signo ↔ Blocks a signo ∧ ¬ Blocks b signo := by
  simp only [blocks_iff, BitVec.getLsbD_and, BitVec.getLsbD_not, Bool.and_eq_true,
    Bool.not_eq_true', decide_eq_true_eq, Bool.not_eq_true]
  exact ⟨fun h => ⟨h.1, h.2.2⟩, fun h => ⟨h.1, BitVec.lt_of_getLsbD h.1, h.2⟩⟩

/-- The signals that a change of mask unblocks: `(curr ^ set) & curr`. -/
theorem blocks_xor_and {curr set : Sigset} :
    Blocks ((curr ^^^ set) &&& curr) signo ↔ Blocks curr signo ∧ ¬ Blocks set signo := by
  simp only [blocks_iff, BitVec.getLsbD_and, BitVec.getLsbD_xor]
  cases curr.getLsbD (signo - 1).toNat <;> cases set.getLsbD (signo - 1).toNat <;> simp

/-! ## Dispositions -/

def sigDfl : BitVec 32 := 0
def sigIgn : BitVec 32 := 1

def saNodefer : BitVec 32 := 0x40000000
def saResethand : BitVec 32 := 0x80000000

structure Sigaction where
  saHandler : BitVec 32
  saMask : Sigset
  saFlags : BitVec 32
  deriving DecidableEq

/-- What `lind_get_first_signal` adds to the mask for the time of the handler. -/
def Sigaction.blockedWhile (act : Sigaction) (signo : ℤ) : Sigset :=
  act.saMask ||| if act.saFlags &&& saNodefer ≠ 0 then 0 else convertSignalMask signo

/-- The action left behind when the signal is taken. -/
def Sigaction.afterTaken (act : Sigaction) : Sigaction :=
  if act.saFlags &&& saResethand ≠ 0 then { act with saHandler := sigDfl } else act

inductive SignalDefaultHandler
  | terminate
  | ignore
  | stop
  | cont
  | nonexist
  deriving DecidableEq

def sigkill : ℤ := 9
def sigusr1 : ℤ := 10
def sigchld : ℤ := 17
def sigstop : ℤ := 19

def signalDefaultHandlerDispatcher (signo : ℤ) : SignalDefaultHandler :=
  if signo ∈ ([17, 23, 28] : List ℤ) then .ignore              -- SIGCHLD, SIGURG, SIGWINCH
  else if signo = 18 then .cont                                -- SIGCONT
  else if signo ∈ ([19, 20, 21, 22] : List ℤ) then .stop       -- SIGSTOP, SIGTSTP, SIGTTIN, SIGTTOU
  else if 1 ≤ signo ∧ signo ≤ 31 then .terminate
  else .nonexist

/-- The disposition is the default one and the default is to ignore the signal. -/
def IgnoredByDefault (handler : BitVec 32) (signo : ℤ) : Prop :=
  handler = sigDfl ∧ signalDefaultHandlerDispatcher signo = .ignore
deriving Decidable

/-! ## Threads -/

inductive Epoch
  | normal
  | signal
  | killed
  deriving DecidableEq

inductive How
  | block
  | unblock
  | setmask
  deriving DecidableEq

/-- The system calls that replace the mask, with the set they were given. -/
inductive MaskCall
  | sigprocmask (how : How) (set : Sigset)
  | sigsuspend (set : Sigset)
  | ppoll (sigmask : Sigset)
  deriving DecidableEq

/-- What `lind_get_first_signal` answers. The restorer is the mask it puts back. -/
structure Taken where
  signo : ℤ
  handler : BitVec 32
  restorer : Sigset
  deriving DecidableEq

/-- Where a thread is. The places inside `signal_handler` are those between two critical sections
of its loop; `loaded` is a mask call that has read the mask and not yet written it, and
`suspending` a `sigsuspend` that has looked at the pending signals and not yet written it. -/
inductive Place
  | guest
  | waiting
  | loaded (call : MaskCall) (curr : Sigset)
  | polling (oldMask ppollMask : Sigset)
  | suspending (set : Sigset)
  | suspended
  | taking
  | taken (sig : Taken)
  | resetting (sig : Taken)
  | dispatching (sig : Taken)
  | execing
  | exiting
  | stale
  | crashed
  deriving DecidableEq

/-- A signal handler on the stack of a thread. An unwound frame is finished by the rewind branch
of `signal_handler`. -/
structure Frame where
  restorer : Sigset
  rewound : Bool
  deriving DecidableEq

structure Thread where
  place : Place
  frames : List Frame
  epoch : Epoch
  deriving DecidableEq

/-- The stack is unwound and rewound, as it is for `fork` and for `pthread_create`. -/
def Thread.rewind (th : Thread) : Thread :=
  { th with frames := th.frames.map fun f => { f with rewound := true } }

def threadStartId : ℤ := 1

/-! ## The cage -/

/-- The signal fields of a cage. `threads` is `epoch_handler` with the word each pointer leads to;
`unborn` is the thread of a forked cage that `lind_signal_init` has not registered yet. -/
structure Cage where
  parent : ℕ
  pending : List ℤ
  sigset : Sigset
  signalhandler : ℤ → Option Sigaction
  threads : List (ℤ × Thread)
  mainThreadId : ℤ
  unborn : Option Thread
  isDead : Bool
  exitGroupInitiated : Bool

namespace Cage

variable (c : Cage)

def main : Option Thread := c.threads.lookup c.mainThreadId

variable (t : ℤ)

/-- Changes the entry of one thread, if it is registered. -/
def modify (f : Thread → Thread) : Cage :=
  { c with threads := Table.mapVal (fun t' th => if t' = t then f th else th) c.threads }

def move (place : Place) : Cage := c.modify t fun th => { th with place }

/-- Writes the epoch word of the main thread, if it is registered. -/
def setEpoch (epoch : Epoch) : Cage := c.modify c.mainThreadId fun th => { th with epoch }

def signalEpochTrigger : Cage := c.setEpoch .signal

def signalEpochReset : Cage := c.setEpoch .normal

def signalCheckTrigger : Bool := c.main.any fun th => th.epoch ≠ .normal

def threadCheckKilled : Bool := (c.threads.lookup t).all fun th => th.epoch = .killed

/-- Marks every thread except the caller. -/
def epochKillAll (caller : ℤ) : Cage :=
  let mark (t : ℤ) (th : Thread) := if t = caller then th else { th with epoch := .killed }
  { c with threads := Table.mapVal mark c.threads }

def signalGetHandler (signo : ℤ) : BitVec 32 :=
  (c.signalhandler signo).elim sigDfl Sigaction.saHandler

/-- Triggers the epoch when one of these signals is pending. -/
def triggerIfPending (set : Sigset) : Cage :=
  if c.pending.any fun signo => Blocks set signo then c.signalEpochTrigger else c

def lindSendSignal (signo : ℤ) : Cage :=
  if IgnoredByDefault (c.signalGetHandler signo) signo then c
  else
    let c := { c with pending := c.pending ++ [signo] }
    if Blocks c.sigset signo then c else c.signalEpochTrigger

/-- The first unblocked pending signal, taken out of the list, with the mask widened for its
handler where an action is registered for it. -/
def lindGetFirstSignal : Option (Taken × Cage) := do
  let index ← c.pending.findIdx? fun signo => ¬ Blocks c.sigset signo
  let signo ← c.pending[index]?
  let sig : Taken := ⟨signo, c.signalGetHandler signo, c.sigset⟩
  let c := { c with pending := c.pending.eraseIdx index }
  match c.signalhandler signo with
  | some act => some (sig,
      { c with sigset := c.sigset ||| act.blockedWhile signo
               signalhandler := update c.signalhandler signo (some act.afterTaken) })
  | none => some (sig, c)

def lindCheckNoPendingSignal : Bool := c.pending.all fun signo => Blocks c.sigset signo

def lindSignalInit (th : Thread) (isMainthread : Bool) : Cage :=
  { c with
    threads := Table.insert c.threads t th
    mainThreadId := if isMainthread then t else c.mainThreadId }

/-- A thread that is not the last one leaves. `heir` is the entry the iteration of the map finds
first; it takes the main role over, and a raised epoch word with it. -/
def lindThreadExit (th : Thread) (heir : ℤ) : Cage :=
  let rest := { c with threads := Table.erase c.threads t }
  let migrate (t : ℤ) (h : Thread) :=
    if t = heir ∧ th.epoch = .signal ∧ h.epoch ≠ .killed then { h with epoch := .signal } else h
  if t = c.mainThreadId then
    { rest with mainThreadId := heir, threads := Table.mapVal migrate rest.threads }
  else rest

def signalMayTrigger : Cage := if c.pending = [] then c else c.signalEpochTrigger

/-! ## System calls -/

def sigactionSyscall (sig : ℤ) (act : Sigaction) : Cage :=
  if sig = sigkill ∨ sig = sigstop then c
  else { c with signalhandler := update c.signalhandler sig (some act) }

/-- The second half of `sigprocmask`, with the mask it loaded. -/
def sigprocmaskSyscall (how : How) (set curr : Sigset) : Cage :=
  match how with
  | .block => { c with sigset := curr ||| set }
  | .unblock => { c with sigset := curr &&& ~~~set }.triggerIfPending set
  | .setmask => { c.triggerIfPending ((curr ^^^ set) &&& curr) with sigset := set }

/-- What `ppoll` does when its wait is over. -/
def ppollRestore (oldMask ppollMask : Sigset) : Cage :=
  { c with sigset := oldMask }.triggerIfPending (ppollMask &&& ~~~oldMask)

/-- What a successful `exec` does to the cage. Pending signals stay. -/
def execSyscall : Cage := { c with signalhandler := fun _ => none, sigset := 0 }

/-- The cage of a child forked by thread `th` of cage `id`. -/
def forkSyscall (id : ℕ) (th : Thread) : Cage where
  parent := id
  pending := []
  sigset := 0
  signalhandler := c.signalhandler
  threads := []
  mainThreadId := 0
  unborn := some { th.rewind with place := .guest }
  isDead := false
  exitGroupInitiated := false

/-- The cage is marked for death by one of its threads. -/
def die (caller : ℤ) : Cage := { c with isDead := true }.epochKillAll caller

/-! ## What the operations leave alone -/

variable {c} {t t' : ℤ} {f : Thread → Thread} {set : Sigset}

@[simp] theorem lookup_modify : (c.modify t f).threads.lookup t'
    = (c.threads.lookup t').map fun th => if t' = t then f th else th := by
  simp only [modify, Table.lookup_mapVal]

@[simp] theorem main_modify : (c.modify t f).main
    = c.main.map fun th => if c.mainThreadId = t then f th else th := lookup_modify

theorem triggerIfPending_eq (c : Cage) (set : Sigset) :
    c.triggerIfPending set = c.signalEpochTrigger ∧ (∃ signo ∈ c.pending, Blocks set signo)
    ∨ c.triggerIfPending set = c ∧ ∀ signo ∈ c.pending, ¬ Blocks set signo := by
  unfold triggerIfPending
  split
  next h => exact .inl ⟨rfl, by simpa using h⟩
  next h => exact .inr ⟨rfl, by simpa using h⟩

/-- **A taken signal was pending and unblocked**, it leaves the list, and the mask only grows. -/
theorem lindGetFirstSignal_eq_some {sig : Taken} {c' : Cage}
    (h : c.lindGetFirstSignal = some (sig, c')) :
    ∃ index, c.pending[index]? = some sig.signo ∧ ¬ Blocks c.sigset sig.signo
      ∧ sig = ⟨sig.signo, c.signalGetHandler sig.signo, c.sigset⟩
      ∧ c' = match c.signalhandler sig.signo with
        | some act =>
            { c with
              pending := c.pending.eraseIdx index
              sigset := c.sigset ||| act.blockedWhile sig.signo
              signalhandler :=
                update c.signalhandler sig.signo (some act.afterTaken) }
        | none => { c with pending := c.pending.eraseIdx index } := by
  simp only [lindGetFirstSignal, bind_eq_bind, bind_eq_some_iff] at h
  obtain ⟨index, hindex, signo, hsigno, h⟩ := h
  have hfree : ¬ Blocks c.sigset signo := by
    obtain ⟨hlt, hfound, -⟩ := findIdx?_eq_some_iff_getElem.mp hindex
    rw [getElem?_eq_getElem hlt, some.injEq] at hsigno
    simpa [hsigno] using hfound
  cases hact : c.signalhandler signo with
  | some act =>
    simp only [hact, some.injEq, Prod.mk.injEq] at h
    obtain ⟨rfl, rfl⟩ := h
    exact ⟨index, hsigno, hfree, rfl, by simp only [hact]⟩
  | none =>
    simp only [hact, some.injEq, Prod.mk.injEq] at h
    obtain ⟨rfl, rfl⟩ := h
    exact ⟨index, hsigno, hfree, rfl, by simp only [hact]⟩

/-- …and where none is taken, none is both pending and unblocked. -/
theorem lindGetFirstSignal_eq_none (h : c.lindGetFirstSignal = none) :
    ∀ signo ∈ c.pending, Blocks c.sigset signo := by
  cases hindex : c.pending.findIdx? fun signo => ¬ Blocks c.sigset signo with
  | none => simpa using hindex
  | some index =>
    obtain ⟨hlt, -⟩ := findIdx?_eq_some_iff_getElem.mp hindex
    have hget := getElem?_eq_getElem hlt
    simp only [lindGetFirstSignal, bind_eq_bind, hindex, hget, bind_some] at h
    split at h <;> exact absurd h (some_ne_none _)

end Cage

end LindWasm.Signal

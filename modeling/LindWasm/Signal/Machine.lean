import LindWasm.Signal.Basic

/-!
# Signal/Machine — the steps of threads, and of cages that signal each other

                     ┌---------- deliver ----------┐
    guest --> taking --> taken --> [resetting -->] dispatching --> guest, in a handler
      ▲          ▲                                     │               │
      └-- none --┘<------------- skip -----------------┘               │
                 └<---------------- restorer --------------------------┘

A step of a thread is one operation, or the part of one between two points at which it holds no
lock on the pending list and another party can come in between: the rounds of `signal_handler`,
a mask call between its load and its store, `sigsuspend` between its look at the pending signals
and its store. `World` has one slot per cage id.
-/

namespace LindWasm.Signal

open Function Option

/-! ## Delivery -/

/-- The branches of `signal_handler` for one signal. -/
inductive Disposition
  | terminate
  | unreachable
  | skip
  | invoke
  deriving DecidableEq

def Taken.disposition (sig : Taken) : Disposition :=
  if sig.handler = sigDfl then
    match signalDefaultHandlerDispatcher sig.signo with
    | .terminate => .terminate
    | .ignore => .unreachable
    | .stop | .cont | .nonexist => .skip
  else if sig.handler = sigIgn then .skip
  else .invoke

/-! ## The steps of a thread -/

/-- A step of one thread. -/
inductive Op
  | enter (call : MaskCall)
  | commit
  | store
  | wait
  | pause
  | wake
  | deliver
  | take
  | check
  | reset
  | dispatch
  | handlerReturn
  | handlerThrow
  | handlerCrash
  | sigaction (sig : ℤ) (act : Sigaction)
  | clone (tid : ℤ)
  | exec
  | execStart
  | exit
  | exitGroup
  | leave (heir : ℤ)
  deriving DecidableEq

namespace Cage

variable (c : Cage) (t : ℤ)

/-- A mask call that has loaded the mask goes on. -/
def commit (curr : Sigset) : MaskCall → Cage
  | .sigprocmask how set => (c.sigprocmaskSyscall how set curr).move t .guest
  | .sigsuspend set =>
      (c.triggerIfPending ((curr ^^^ set) &&& curr)).move t (.suspending set)
  | .ppoll sigmask => { c with sigset := sigmask }.move t (.polling curr sigmask)

/-- A wait ends; `sigsuspend` waits for the epoch word. -/
def wake : Place → Option Cage
  | .waiting => some (c.move t .guest)
  | .polling oldMask ppollMask => some ((c.ppollRestore oldMask ppollMask).move t .guest)
  | .suspended => if c.signalCheckTrigger then some (c.move t .guest) else none
  | _ => none

def take : Cage :=
  match c.lindGetFirstSignal with
  | some (sig, c) => c.move t (.taken sig)
  | none => c.move t .guest

def dispatch (sig : Taken) : Cage :=
  match sig.disposition with
  | .terminate => (c.die t).move t .exiting
  | .unreachable => c.move t .crashed
  | .skip => c.move t .taking
  | .invoke => c.modify t fun th =>
      { th with place := .guest, frames := ⟨sig.restorer, false⟩ :: th.frames }

/-- A handler returns. The loop calls the restorer and goes on; the rewind branch does neither. -/
def handlerReturn (frame : Frame) (frames : List Frame) : Cage :=
  if frame.rewound then c.modify t fun th => { th with frames }
  else { c with sigset := frame.restorer }.modify t fun th => { th with place := .taking, frames }

/-- The new program of the cage is instantiated and its main thread registered. -/
def execStart : Cage :=
  ((c.move t .stale).lindSignalInit threadStartId ⟨.guest, [], .normal⟩ true).signalMayTrigger

def exitGroup : Cage :=
  if c.exitGroupInitiated then c else { c.die t with exitGroupInitiated := true }

/-- One step of thread `t`, whose entry is `th`. -/
def threadStep (th : Thread) : Op → Option Cage
  | .enter call => if th.place = .guest then some (c.move t (.loaded call c.sigset)) else none
  | .commit =>
      match th.place with
      | .loaded call curr => some (c.commit t curr call)
      | _ => none
  | .store =>
      match th.place with
      | .suspending set => some ({ c with sigset := set }.move t .suspended)
      | _ => none
  | .wait => if th.place = .guest then some (c.move t .waiting) else none
  | .pause => if th.place = .guest then some (c.move t .suspended) else none
  | .wake => c.wake t th.place
  | .deliver =>
      if th.place = .guest then
        some (c.move t (if c.threadCheckKilled t then .exiting else .taking))
      else none
  | .take => if th.place = .taking then some (c.take t) else none
  | .check =>
      match th.place with
      | .taken sig =>
          some (c.move t (if c.lindCheckNoPendingSignal then .resetting sig else .dispatching sig))
      | _ => none
  | .reset =>
      match th.place with
      | .resetting sig => some (c.signalEpochReset.move t (.dispatching sig))
      | _ => none
  | .dispatch =>
      match th.place with
      | .dispatching sig => some (c.dispatch t sig)
      | _ => none
  | .handlerReturn =>
      match th.place, th.frames with
      | .guest, frame :: frames => some (c.handlerReturn t frame frames)
      | _, _ => none
  | .handlerThrow =>
      match th.place, th.frames with
      | .guest, _ :: frames => some (c.modify t fun th => { th with frames })
      | _, _ => none
  | .handlerCrash =>
      match th.place, th.frames with
      | .guest, _ :: _ => some ((c.die t).move t .exiting)
      | _, _ => none
  | .sigaction sig act => if th.place = .guest then some (c.sigactionSyscall sig act) else none
  | .clone tid =>
      if th.place = .guest ∧ c.threads.lookup tid = none ∧ tid ≠ c.mainThreadId then
        some ((c.modify t Thread.rewind).lindSignalInit tid ⟨.guest, [], th.epoch⟩ false)
      else none
  | .exec => if th.place = .guest then some (c.execSyscall.move t .execing) else none
  | .execStart => if th.place = .execing then some (c.execStart t) else none
  | .exit => if th.place = .guest then some (c.move t .exiting) else none
  | .exitGroup => if th.place = .guest then some ((c.exitGroup t).move t .exiting) else none
  | .leave heir =>
      if th.place = .exiting ∧ heir ≠ t ∧ (c.threads.lookup heir).isSome = true then
        some (c.lindThreadExit t th heir)
      else none

variable {c t} {c' : Cage} {th : Thread} {op : Op} {place : Place}

/-- The steps of a thread as a relation: from which place, to which cage. -/
inductive Moves (c : Cage) (t : ℤ) (th : Thread) : Op → Cage → Prop
  | enter {call} : th.place = .guest → Moves c t th (.enter call) (c.move t (.loaded call c.sigset))
  | commit {call curr} : th.place = .loaded call curr → Moves c t th .commit (c.commit t curr call)
  | store {set} : th.place = .suspending set →
      Moves c t th .store ({ c with sigset := set }.move t .suspended)
  | wait : th.place = .guest → Moves c t th .wait (c.move t .waiting)
  | pause : th.place = .guest → Moves c t th .pause (c.move t .suspended)
  | wake {c' : Cage} : c.wake t th.place = some c' → Moves c t th .wake c'
  | deliver : th.place = .guest →
      Moves c t th .deliver (c.move t (if c.threadCheckKilled t then .exiting else .taking))
  | take : th.place = .taking → Moves c t th .take (c.take t)
  | check {sig} : th.place = .taken sig → Moves c t th .check
      (c.move t (if c.lindCheckNoPendingSignal then .resetting sig else .dispatching sig))
  | reset {sig} : th.place = .resetting sig →
      Moves c t th .reset (c.signalEpochReset.move t (.dispatching sig))
  | dispatch {sig} : th.place = .dispatching sig → Moves c t th .dispatch (c.dispatch t sig)
  | handlerReturn {frame frames} : th.place = .guest → th.frames = frame :: frames →
      Moves c t th .handlerReturn (c.handlerReturn t frame frames)
  | handlerThrow {frame frames} : th.place = .guest → th.frames = frame :: frames →
      Moves c t th .handlerThrow (c.modify t fun th => { th with frames })
  | handlerCrash {frame frames} : th.place = .guest → th.frames = frame :: frames →
      Moves c t th .handlerCrash ((c.die t).move t .exiting)
  | sigaction {sig act} : th.place = .guest →
      Moves c t th (.sigaction sig act) (c.sigactionSyscall sig act)
  | clone {tid} :
      th.place = .guest ∧ c.threads.lookup tid = none ∧ tid ≠ c.mainThreadId →
      Moves c t th (.clone tid)
        ((c.modify t Thread.rewind).lindSignalInit tid ⟨.guest, [], th.epoch⟩ false)
  | exec : th.place = .guest → Moves c t th .exec (c.execSyscall.move t .execing)
  | execStart : th.place = .execing → Moves c t th .execStart (c.execStart t)
  | exit : th.place = .guest → Moves c t th .exit (c.move t .exiting)
  | exitGroup : th.place = .guest → Moves c t th .exitGroup ((c.exitGroup t).move t .exiting)
  | leave {heir} :
      th.place = .exiting ∧ heir ≠ t ∧ (c.threads.lookup heir).isSome = true →
      Moves c t th (.leave heir) (c.lindThreadExit t th heir)

/-- **Every step is one of them.** -/
theorem moves_of_threadStep (h : c.threadStep t th op = some c') : c.Moves t th op c' := by
  cases op with
  | wake => exact .wake h
  | _ =>
    simp only [threadStep] at h
    split at h
    · cases h
      constructor <;> assumption
    · cases h

/-! ### Threads send nothing -/

/-- Nothing is added to the pending list, and no forked cage is registered. -/
def Sheds (c c' : Cage) : Prop := c'.pending.Sublist c.pending ∧ c'.unborn = c.unborn

theorem sheds_of_eq (hpending : c'.pending = c.pending) (hunborn : c'.unborn = c.unborn) :
    c.Sheds c' := ⟨hpending ▸ List.Sublist.refl _, hunborn⟩

theorem pending_triggerIfPending {set : Sigset} : (c.triggerIfPending set).pending = c.pending := by
  unfold triggerIfPending
  split <;> rfl

theorem unborn_triggerIfPending {set : Sigset} : (c.triggerIfPending set).unborn = c.unborn := by
  unfold triggerIfPending
  split <;> rfl

theorem sheds_sigset_triggerIfPending {mask set : Sigset} :
    c.Sheds (({ c with sigset := mask }.triggerIfPending set).move t place) :=
  sheds_of_eq pending_triggerIfPending unborn_triggerIfPending

theorem sheds_commit {curr : Sigset} {call : MaskCall} : c.Sheds (c.commit t curr call) := by
  cases call with
  | sigprocmask how set =>
    cases how with
    | block => exact sheds_of_eq rfl rfl
    | unblock => exact sheds_sigset_triggerIfPending
    | setmask => exact sheds_of_eq pending_triggerIfPending unborn_triggerIfPending
  | sigsuspend set => exact sheds_of_eq pending_triggerIfPending unborn_triggerIfPending
  | ppoll sigmask => exact sheds_of_eq rfl rfl

theorem sheds_wake (h : c.wake t place = some c') : c.Sheds c' := by
  cases place with
  | waiting =>
    cases h
    exact sheds_of_eq rfl rfl
  | polling oldMask ppollMask =>
    cases h
    exact sheds_sigset_triggerIfPending
  | suspended =>
    obtain ⟨-, h⟩ := ite_none_right_eq_some.mp h
    cases h
    exact sheds_of_eq rfl rfl
  | _ => exact absurd h nofun

theorem sheds_take : c.Sheds (c.take t) := by
  unfold take
  split
  next sig c' hget =>
    obtain ⟨index, -, -, -, rfl⟩ := lindGetFirstSignal_eq_some hget
    cases c.signalhandler sig.signo <;> exact ⟨List.eraseIdx_sublist .., rfl⟩
  · exact sheds_of_eq rfl rfl

theorem sheds_dispatch {sig : Taken} : c.Sheds (c.dispatch t sig) := by
  unfold dispatch
  split <;> exact sheds_of_eq rfl rfl

theorem sheds_handlerReturn {frame : Frame} {frames : List Frame} :
    c.Sheds (c.handlerReturn t frame frames) := by
  unfold handlerReturn
  split <;> exact sheds_of_eq rfl rfl

theorem sheds_sigactionSyscall {sig : ℤ} {act : Sigaction} :
    c.Sheds (c.sigactionSyscall sig act) := by
  unfold sigactionSyscall
  split <;> exact sheds_of_eq rfl rfl

theorem sheds_execStart : c.Sheds (c.execStart t) := by
  unfold execStart signalMayTrigger
  split <;> exact sheds_of_eq rfl rfl

theorem sheds_exitGroup : c.Sheds ((c.exitGroup t).move t .exiting) := by
  unfold exitGroup
  split <;> exact sheds_of_eq rfl rfl

theorem sheds_lindThreadExit {heir : ℤ} : c.Sheds (c.lindThreadExit t th heir) := by
  unfold lindThreadExit
  split <;> exact sheds_of_eq rfl rfl

/-- **No step of a thread adds a pending signal.** -/
theorem sheds_threadStep (h : c.threadStep t th op = some c') : c.Sheds c' := by
  cases moves_of_threadStep h with
  | commit => exact sheds_commit
  | wake hwake => exact sheds_wake hwake
  | take => exact sheds_take
  | dispatch => exact sheds_dispatch
  | handlerReturn => exact sheds_handlerReturn
  | sigaction => exact sheds_sigactionSyscall
  | execStart => exact sheds_execStart
  | exitGroup => exact sheds_exitGroup
  | leave => exact sheds_lindThreadExit
  | _ => exact sheds_of_eq rfl rfl

end Cage

/-! ## Cages -/

abbrev World := ℕ → Option Cage

inductive Action
  | thread (id : ℕ) (t : ℤ) (op : Op)
  | kill (target : ℕ) (sig : ℤ)
  | fork (id : ℕ) (t : ℤ) (child : ℕ)
  | start (id : ℕ)
  | finish (id : ℕ) (t : ℤ)

namespace World

variable (w : World)

def send (target : ℕ) (signo : ℤ) : World :=
  match w target with
  | some c => update w target (some (c.lindSendSignal signo))
  | none => w

def killSyscall (target : ℕ) (sig : ℤ) : World :=
  if sig ≤ 0 ∨ sig ≥ 32 then w else w.send target sig

/-- The last thread of a cage has left. -/
def cageFinalize (id : ℕ) (c : Cage) : World :=
  update (if c.parent = id then w else w.send c.parent sigchld) id none

/-- `fork` gives the child the next free id and answers when the parent has been rewound. -/
def fork (id : ℕ) (t : ℤ) (child : ℕ) (c : Cage) (th : Thread) : World :=
  update (update w id (some (c.modify t Thread.rewind))) child
    (some (c.forkSyscall id th))

def step : Action → Option World
  | .thread id t op => do
      let c ← w id
      let th ← c.threads.lookup t
      let c ← c.threadStep t th op
      some (update w id (some c))
  | .kill target sig => some (w.killSyscall target sig)
  | .fork id t child => do
      let c ← w id
      let th ← c.threads.lookup t
      if th.place = .guest ∧ (w child).isNone = true then some (w.fork id t child c th) else none
  | .start id => do
      let c ← w id
      let th ← c.unborn
      some (update w id
        (some ({ c with unborn := none }.lindSignalInit threadStartId th true)))
  | .finish id t => do
      let c ← w id
      let th ← c.threads.lookup t
      if th.place = .exiting ∧ Table.erase c.threads t = [] then some (w.cageFinalize id c)
      else none

/-- The first cage, with its main thread in guest code. -/
def boot : World := update (fun _ => none) 1 <| some
  { parent := 1
    pending := []
    sigset := 0
    signalhandler := fun _ => none
    threads := [(threadStartId, ⟨.guest, [], .normal⟩)]
    mainThreadId := threadStartId
    unborn := none
    isDead := false
    exitGroupInitiated := false }

/-! ### Properties of every cage -/

variable {w} {w' : World} {P : Cage → Prop} {id : ℕ} {c : Cage}

def All (P : Cage → Prop) (w : World) : Prop := ∀ id c, w id = some c → P c

/-- The action sends a signal to this cage. -/
def Sends (w : World) (target : ℕ) : Action → Prop
  | .kill target' _ => target' = target
  | .finish id _ => ∃ c, w id = some c ∧ c.parent = target
  | _ => False

theorem All.update (h : w.All P) (hc : P c) : All P (update w id (some c)) := by
  intro id' c' hc'
  by_cases heq : id' = id
  · subst heq
    rw [update_self] at hc'
    exact some.inj hc' ▸ hc
  · rw [update_of_ne heq] at hc'
    exact h id' c' hc'

theorem All.remove (h : w.All P) : All P (Function.update w id none) := by
  intro id' c' hc'
  by_cases heq : id' = id
  · subst heq
    rw [update_self] at hc'
    exact absurd hc' nofun
  · rw [update_of_ne heq] at hc'
    exact h id' c' hc'

theorem All.send (h : w.All P) {target : ℕ} {signo : ℤ}
    (hsend : ∀ c, w target = some c → P (c.lindSendSignal signo)) :
    All P (w.send target signo) := by
  unfold World.send
  split
  next c hc => exact h.update (hsend c hc)
  · exact h

theorem all_boot (h : ∀ c : Cage, c.pending = [] → c.unborn = none →
    c.threads = [(threadStartId, ⟨.guest, [], .normal⟩)] → P c) : All P boot :=
  All.update (fun _ _ hc => absurd hc nofun) (h _ rfl rfl rfl)

/-- **The step rule**: a property of every cage is kept by an action if the thread that steps keeps
it, the signal that is sent keeps it, and a fork keeps it on both sides. -/
theorem All.step {a : Action} (h : w.All P)
    (hthread : ∀ id t op c th c', a = .thread id t op → w id = some c →
      c.threads.lookup t = some th → c.threadStep t th op = some c' → P c')
    (hsend : ∀ target c signo, Sends w target a → w target = some c → P (c.lindSendSignal signo))
    (hparent : ∀ c t th, P c → c.threads.lookup t = some th → P (c.modify t Thread.rewind))
    (hchild : ∀ c id th, P c → P (Cage.forkSyscall c id th))
    (hstart : ∀ c th, P c → c.unborn = some th →
      P ({ c with unborn := none }.lindSignalInit threadStartId th true))
    (hstep : w.step a = some w') : w'.All P := by
  cases a with
  | thread id t op =>
    simp only [World.step, bind_eq_bind, bind_eq_some_iff] at hstep
    obtain ⟨c, hc, th, ht, c', hc', hw'⟩ := hstep
    exact some.inj hw' ▸ h.update (hthread id t op c th c' rfl hc ht hc')
  | kill target sig =>
    cases hstep
    unfold World.killSyscall
    split
    · exact h
    · exact h.send fun c hc => hsend target c sig rfl hc
  | fork id t child =>
    simp only [World.step, bind_eq_bind, bind_eq_some_iff] at hstep
    obtain ⟨c, hc, th, ht, hstep⟩ := hstep
    obtain ⟨-, hw'⟩ := ite_none_right_eq_some.mp hstep
    have hP := h id c hc
    exact some.inj hw' ▸ (h.update (hparent c t th hP ht)).update (hchild c id th hP)
  | start id =>
    simp only [World.step, bind_eq_bind, bind_eq_some_iff] at hstep
    obtain ⟨c, hc, th, hborn, hw'⟩ := hstep
    exact some.inj hw' ▸ h.update (hstart c th (h id c hc) hborn)
  | finish id t =>
    simp only [World.step, bind_eq_bind, bind_eq_some_iff] at hstep
    obtain ⟨c, hc, th, ht, hstep⟩ := hstep
    obtain ⟨-, hw'⟩ := ite_none_right_eq_some.mp hstep
    refine some.inj hw' ▸ All.remove ?_
    split
    · exact h
    · exact h.send fun p hp => hsend c.parent p sigchld ⟨c, hc, rfl⟩ hp

end World

end LindWasm.Signal

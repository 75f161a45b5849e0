import LindWasm.Machinery.Run
import LindWasm.Signal.Machine

/-!
# Signal/Killed — a kill against the other writers of an epoch word

    epoch_kill_all        every word but the caller's := killed
    signal_epoch_trigger  the main thread's word      := signal
    signal_epoch_reset    the main thread's word      := normal

The kill has one word per thread to stand in, and the trigger and the reset write the main thread's
without a look at it; the migration in `lind_thread_exit` does look. `killed_run` says what that
leaves: a kill stands while no signal is announced to, and no epoch reset for, a killed main thread.
-/

namespace LindWasm.Signal

open Function Option World Table

namespace Cage

variable (c : Cage)

/-- The epoch word of a registered thread. -/
def epochOf (t : ℤ) : Option Epoch := (c.threads.lookup t).map Thread.epoch

def MainKilled : Prop := c.epochOf c.mainThreadId = some .killed
deriving Decidable

/-- A thread that is killed stays so, or is not registered any more. -/
def Stands (c' : Cage) : Prop :=
  ∀ t, c.epochOf t = some .killed → c'.epochOf t = none ∨ c'.epochOf t = some .killed

/-- `lind_send_signal` raises the epoch for the signal. -/
def Announces (signo : ℤ) : Prop :=
  ¬ IgnoredByDefault (c.signalGetHandler signo) signo ∧ ¬ Blocks c.sigset signo
deriving Decidable

/-- One of these signals is pending, so that unblocking them raises the epoch. -/
def Awaited (set : Sigset) : Prop := ∃ signo ∈ c.pending, Blocks set signo
deriving Decidable

end Cage

/-- The signals whose unblocking a mask call looks at. -/
def MaskCall.unblocked (curr : Sigset) : MaskCall → Sigset
  | .sigprocmask .block _ => 0
  | .sigprocmask .unblock set => set
  | .sigprocmask .setmask set => (curr ^^^ set) &&& curr
  | .sigsuspend set => (curr ^^^ set) &&& curr
  | .ppoll _ => 0

/-- The pending signals that a thread's step raises the epoch for, by the place it steps from. -/
def Place.unblocked : Place → Sigset
  | .loaded call curr => call.unblocked curr
  | .polling oldMask ppollMask => ppollMask &&& ~~~oldMask
  | _ => 0

/-- The step does not write the word of a killed thread. -/
def Cage.OpSpares (c : Cage) (th : Thread) : Op → Prop
  | .commit | .wake => c.Awaited th.place.unblocked → ¬ c.MainKilled
  | .reset => ¬ c.MainKilled
  | .execStart => c.epochOf threadStartId ≠ some .killed
  | _ => True

/-- …and no action does. -/
def Spares (w : World) : Action → Prop
  | .thread id t op => ∀ c ∈ w id, ∀ th ∈ c.threads.lookup t, c.OpSpares th op
  | .kill target sig => 0 < sig → sig < 32 → ∀ c ∈ w target, c.Announces sig → ¬ c.MainKilled
  | .finish id _ => ∀ c ∈ w id, ∀ p ∈ w c.parent, p.Announces sigchld → ¬ p.MainKilled
  | .start id => ∀ c ∈ w id, c.epochOf threadStartId ≠ some .killed
  | .fork .. => True

/-! ## What the operations do to the words -/

namespace Cage

variable {c c' c'' : Cage} {t t' : ℤ} {th : Thread} {op : Op} {set : Sigset}
  {isMainthread : Bool} {place : Place} {e : Epoch}

theorem epochOf_congr (h : c'.threads = c.threads) : c'.epochOf = c.epochOf := by
  funext t
  rw [epochOf, h, epochOf]

theorem epochOf_modify {f : Thread → Thread} (hf : ∀ th, (f th).epoch = th.epoch) :
    (c.modify t f).epochOf = c.epochOf := by
  funext t'
  rw [epochOf, lookup_modify, Option.map_map, epochOf]
  refine congrFun (congrArg Option.map (funext fun th => ?_)) _
  rw [Function.comp_apply]
  split
  · exact hf th
  · rfl

theorem epochOf_move : (c.move t place).epochOf = c.epochOf :=
  epochOf_modify fun _ => rfl

theorem epochOf_rewind : (c.modify t Thread.rewind).epochOf = c.epochOf :=
  epochOf_modify fun _ => rfl

theorem epochOf_setEpoch_of_ne (h : t ≠ c.mainThreadId) :
    (c.setEpoch e).epochOf t = c.epochOf t := by
  rw [setEpoch, epochOf, lookup_modify, Option.map_map, epochOf]
  refine congrFun (congrArg Option.map (funext fun th => ?_)) _
  rw [Function.comp_apply, if_neg h]

theorem epochOf_die (caller : ℤ) (h : c.epochOf t = some .killed) :
    (c.die caller).epochOf t = some .killed := by
  obtain ⟨th, hth, hepoch⟩ := map_eq_some_iff.mp h
  rw [epochOf, die, epochKillAll]
  rw [lookup_mapVal, hth, map_some, map_some]
  split
  · rw [hepoch]
  · rfl

theorem Stands.of_eq (h : c'.epochOf = c.epochOf) : c.Stands c' := by
  intro t ht
  rw [h]
  exact .inr ht

theorem Stands.congr (h : c.Stands c') (heq : c''.epochOf = c'.epochOf) : c.Stands c'' := by
  intro t ht
  rw [heq]
  exact h t ht

theorem Stands.move (h : c.Stands c') : c.Stands (c'.move t place) :=
  h.congr epochOf_move

/-- **A write to the main thread's word leaves the kills of the others.** -/
theorem stands_setEpoch (h : ¬ c.MainKilled) : c.Stands (c.setEpoch e) := by
  intro t ht
  have hne : t ≠ c.mainThreadId := by
    rintro rfl
    exact h ht
  rw [epochOf_setEpoch_of_ne hne]
  exact .inr ht

theorem stands_triggerIfPending (h : c.Awaited set → ¬ c.MainKilled) :
    c.Stands (c.triggerIfPending set) := by
  rcases triggerIfPending_eq c set with ⟨heq, hpending⟩ | ⟨heq, -⟩
  · rw [heq]
    exact stands_setEpoch (h hpending)
  · exact .of_eq (by rw [heq])

theorem stands_commit {curr : Sigset} {call : MaskCall}
    (h : c.Awaited (call.unblocked curr) → ¬ c.MainKilled) : c.Stands (c.commit t curr call) := by
  cases call with
  | sigprocmask how set =>
    cases how with
    | block => exact .of_eq epochOf_move
    | unblock =>
      exact (stands_triggerIfPending (c := { c with sigset := curr &&& ~~~set }) h).move
    | setmask => exact ((stands_triggerIfPending h).congr (epochOf_congr rfl)).move
  | sigsuspend set => exact (stands_triggerIfPending h).move
  | ppoll sigmask => exact .of_eq epochOf_move

theorem stands_wake (hok : c.Awaited place.unblocked → ¬ c.MainKilled)
    (h : c.wake t place = some c') : c.Stands c' := by
  cases place with
  | waiting =>
    cases h
    exact .of_eq epochOf_move
  | polling oldMask ppollMask =>
    cases h
    exact (stands_triggerIfPending (c := { c with sigset := oldMask }) hok).move
  | suspended =>
    obtain ⟨-, h⟩ := ite_none_right_eq_some.mp h
    cases h
    exact .of_eq epochOf_move
  | _ => exact absurd h nofun

theorem stands_take : c.Stands (c.take t) := by
  rw [take]
  cases hget : c.lindGetFirstSignal with
  | none => exact .of_eq epochOf_move
  | some r =>
    obtain ⟨index, -, -, -, heq⟩ := lindGetFirstSignal_eq_some hget
    refine .of_eq (epochOf_move.trans (epochOf_congr ?_))
    rw [heq]
    split <;> rfl

theorem stands_die : c.Stands (c.die t) := fun _ h => .inr (epochOf_die _ h)

theorem stands_dispatch {sig : Taken} : c.Stands (c.dispatch t sig) := by
  rw [dispatch]
  split
  · exact stands_die.move
  · exact .of_eq epochOf_move
  · exact .of_eq epochOf_move
  · exact .of_eq (epochOf_modify fun _ => rfl)

theorem stands_handlerReturn {frame : Frame} {frames : List Frame} :
    c.Stands (c.handlerReturn t frame frames) := by
  rw [handlerReturn]
  split
  · exact .of_eq (epochOf_modify fun _ => rfl)
  · exact .of_eq (epochOf_modify fun _ => rfl)

theorem stands_exitGroup : c.Stands (c.exitGroup t) := by
  rw [exitGroup]
  split
  · exact .of_eq rfl
  · exact stands_die.congr (epochOf_congr rfl)

theorem epochOf_lindSignalInit_of_ne (h : t' ≠ t) :
    (c.lindSignalInit t th isMainthread).epochOf t' = c.epochOf t' := by
  rw [epochOf, lindSignalInit, lookup_insert_of_ne h, epochOf]

theorem stands_lindSignalInit (h : c.epochOf t ≠ some .killed) :
    c.Stands (c.lindSignalInit t th isMainthread) := by
  intro t' ht'
  have hne : t' ≠ t := fun heq => h (heq ▸ ht')
  rw [epochOf_lindSignalInit_of_ne hne]
  exact .inr ht'

/-- The migration of the main role looks before it writes. -/
theorem stands_lindThreadExit {heir : ℤ} : c.Stands (c.lindThreadExit t th heir) := by
  intro t' ht'
  by_cases hleft : t' = t
  · subst hleft
    refine .inl ?_
    rw [lindThreadExit, epochOf]
    split
    · rw [lookup_mapVal, lookup_erase_self]
      rfl
    · rw [lookup_erase_self]
      rfl
  refine .inr ?_
  obtain ⟨th', hth', hepoch⟩ := map_eq_some_iff.mp ht'
  rw [lindThreadExit, epochOf]
  split
  · have hkeep : ¬ (t' = heir ∧ th.epoch = .signal ∧ th'.epoch ≠ .killed) := fun h => h.2.2 hepoch
    rw [lookup_mapVal, lookup_erase_of_ne hleft, hth', map_some, if_neg hkeep,
      map_some, hepoch]
  · rw [lookup_erase_of_ne hleft, hth', map_some, hepoch]

theorem stands_execStart (h : c.epochOf threadStartId ≠ some .killed) :
    c.Stands (c.execStart t) := by
  intro t' ht'
  have hne : t' ≠ threadStartId := by
    rintro rfl
    exact h ht'
  have hinit : (((c.move t .stale).lindSignalInit threadStartId ⟨.guest, [], .normal⟩
      true)).epochOf t' = some .killed := by
    rw [epochOf_lindSignalInit_of_ne hne, epochOf_move, ht']
  rw [execStart, signalMayTrigger]
  split
  · exact .inr hinit
  · exact .inr ((epochOf_setEpoch_of_ne hne).trans hinit)

/-- **A step of a thread that spares the killed leaves every kill standing.** -/
theorem stands_threadStep (hok : c.OpSpares th op)
    (h : c.threadStep t th op = some c') : c.Stands c' := by
  cases moves_of_threadStep h with
  | commit hplace =>
    refine stands_commit fun hawaited => hok ?_
    rw [hplace]
    exact hawaited
  | wake hwake => exact stands_wake hok hwake
  | take => exact stands_take
  | reset => exact (stands_setEpoch hok).move
  | dispatch => exact stands_dispatch
  | handlerReturn => exact stands_handlerReturn
  | handlerThrow => exact .of_eq (epochOf_modify fun _ => rfl)
  | handlerCrash => exact stands_die.move
  | sigaction =>
    refine .of_eq (epochOf_congr ?_)
    rw [sigactionSyscall]
    split <;> rfl
  | @clone tid hfree =>
    refine fun t' ht' => stands_lindSignalInit ?_ t' ?_
    · rw [epochOf_rewind, epochOf, hfree.2.1]
      exact some_ne_none _ |>.symm
    · rw [epochOf_rewind, ht']
  | exec => exact .of_eq epochOf_move
  | execStart => exact stands_execStart hok
  | exitGroup => exact stands_exitGroup.move
  | leave => exact stands_lindThreadExit
  | store => exact .of_eq epochOf_move
  | enter | wait | pause | deliver | check | exit => exact .of_eq epochOf_move

theorem stands_lindSendSignal {signo : ℤ} (h : c.Announces signo → ¬ c.MainKilled) :
    c.Stands (c.lindSendSignal signo) := by
  rw [lindSendSignal]
  split
  · exact .of_eq rfl
  · next hignored =>
    dsimp only
    split
    · exact .of_eq rfl
    · next hblocked =>
      exact stands_setEpoch (h ⟨hignored, hblocked⟩)

end Cage

/-! ## Actions -/

variable {w w' : World} {a : Action} {id target id' k : ℕ} {c c' c₀ : Cage} {t : ℤ}

/-- What an action sends to a cage. -/
def World.Delivers (w : World) (target : ℕ) (signo : ℤ) : Action → Prop
  | .kill target' sig => target' = target ∧ sig = signo ∧ 0 < sig ∧ sig < 32
  | .finish id _ => ∃ c, w id = some c ∧ c.parent = target ∧ signo = sigchld
  | _ => False

section

variable (hc : w id = some c)
include hc

theorem World.slot_update {v : Option Cage} (hc' : update w k v id = some c') :
    c' = c ∨ id = k ∧ v = some c' := by
  by_cases heq : id = k
  · subst heq
    rw [update_self] at hc'
    exact .inr ⟨rfl, hc'⟩
  · rw [update_of_ne heq, hc] at hc'
    exact .inl (some.inj hc').symm

theorem World.slot_send {signo : ℤ} (hc' : w.send target signo id = some c') :
    c' = c ∨ id = target ∧ c' = c.lindSendSignal signo := by
  rw [World.send] at hc'
  cases htarget : w target with
  | none =>
    rw [htarget] at hc'
    exact .inl (mem_unique hc' hc)
  | some c₀ =>
    rw [htarget] at hc'
    refine (slot_update hc hc').imp_right fun ⟨heq, hv⟩ => ⟨heq, ?_⟩
    subst heq
    rw [← some.inj hv, mem_unique hc htarget]

theorem World.slot_write {c₁ : Cage} (hc₀ : w k = some c₀)
    (hc' : update w k (some c₁) id = some c') : c' = c ∨ id = k ∧ c₀ = c ∧ c' = c₁ := by
  refine (slot_update hc hc').imp_right fun h => ?_
  obtain ⟨rfl, hv⟩ := h
  exact ⟨rfl, mem_unique hc₀ hc, (some.inj hv).symm⟩

/-- **What an action can do to a cage that is there before and after it.** -/
inductive World.Touches (w : World) (a : Action) (id : ℕ) (c : Cage) : Cage → Prop
  | spared : w.Touches a id c c
  | thread {t : ℤ} {th : Thread} {op : Op} {c' : Cage} (ha : a = .thread id t op)
      (ht : c.threads.lookup t = some th) (h : c.threadStep t th op = some c') :
      w.Touches a id c c'
  | signal {signo : ℤ} (h : w.Delivers id signo a) : w.Touches a id c (c.lindSendSignal signo)
  | forks (t : ℤ) : w.Touches a id c (c.modify t Thread.rewind)
  | starts (th : Thread) (ha : a = .start id) :
      w.Touches a id c ({ c with unborn := none }.lindSignalInit threadStartId th true)

theorem World.touches_kill {sig : ℤ} (hc' : w.killSyscall target sig id = some c') :
    w.Touches (.kill target sig) id c c' := by
  rw [World.killSyscall] at hc'
  split at hc'
  · obtain rfl := mem_unique hc' hc
    exact .spared
  · next hvalid =>
    rcases slot_send hc hc' with rfl | ⟨rfl, rfl⟩
    · exact .spared
    · exact .signal ⟨rfl, rfl, by omega, by omega⟩

theorem World.touches_fork {child : ℕ} {th : Thread} (hc₀ : w id' = some c₀) (hne : id ≠ child)
    (hc' : w.fork id' t child c₀ th id = some c') : w.Touches a id c c' := by
  rw [World.fork, update_of_ne hne] at hc'
  rcases slot_write hc hc₀ hc' with rfl | ⟨-, rfl, rfl⟩
  · exact .spared
  · exact .forks t

theorem World.touches_finish {t : ℤ} (hc₀ : w id' = some c₀)
    (hc' : w.cageFinalize id' c₀ id = some c') : w.Touches (.finish id' t) id c c' := by
  have hne : id ≠ id' := by
    rintro rfl
    rw [World.cageFinalize, update_self] at hc'
    exact some_ne_none c' hc'.symm
  rw [World.cageFinalize, update_of_ne hne] at hc'
  split at hc'
  · obtain rfl := mem_unique hc' hc
    exact .spared
  · rcases slot_send hc hc' with rfl | ⟨hparent, rfl⟩
    · exact .spared
    · exact .signal ⟨c₀, hc₀, hparent.symm, rfl⟩

theorem World.touches_of_step (hstep : w.step a = some w') (hc' : w' id = some c') :
    w.Touches a id c c' := by
  cases a with
  | thread id' t op =>
    simp only [World.step, bind_eq_bind, bind_eq_some_iff] at hstep
    obtain ⟨c₀, hc₀, th, ht, c₁, hc₁, hw'⟩ := hstep
    cases hw'
    rcases slot_write hc hc₀ hc' with rfl | ⟨rfl, rfl, rfl⟩
    · exact .spared
    · exact .thread rfl ht hc₁
  | kill target sig =>
    cases hstep
    exact touches_kill hc hc'
  | fork id' t child =>
    simp only [World.step, bind_eq_bind, bind_eq_some_iff] at hstep
    obtain ⟨c₀, hc₀, th, ht, hstep⟩ := hstep
    obtain ⟨hguard, hw'⟩ := ite_none_right_eq_some.mp hstep
    cases hw'
    refine touches_fork hc hc₀ ?_ hc'
    rintro rfl
    rw [hc] at hguard
    exact Bool.false_ne_true hguard.2
  | start id' =>
    simp only [World.step, bind_eq_bind, bind_eq_some_iff] at hstep
    obtain ⟨c₀, hc₀, th, -, hw'⟩ := hstep
    cases hw'
    rcases slot_write hc hc₀ hc' with rfl | ⟨rfl, rfl, rfl⟩
    · exact .spared
    · exact .starts th rfl
  | finish id' t =>
    simp only [World.step, bind_eq_bind, bind_eq_some_iff] at hstep
    obtain ⟨c₀, hc₀, th, -, hstep⟩ := hstep
    obtain ⟨-, hw'⟩ := ite_none_right_eq_some.mp hstep
    cases hw'
    exact touches_finish hc hc₀ hc'

/-- **An action that spares the killed leaves every kill standing.** -/
theorem stands_of_step (hok : Spares w a) (hstep : w.step a = some w') (hc' : w' id = some c') :
    c.Stands c' := by
  cases touches_of_step hc hstep hc' with
  | spared => exact .of_eq rfl
  | thread ha ht hthread =>
    subst ha
    exact Cage.stands_threadStep (hok c hc _ ht) hthread
  | signal hdelivers =>
    refine Cage.stands_lindSendSignal ?_
    cases a with
    | kill target sig =>
      obtain ⟨rfl, rfl, hpos, hlt⟩ := hdelivers
      exact hok hpos hlt c hc
    | finish id' t =>
      obtain ⟨c₀, hc₀, rfl, rfl⟩ := hdelivers
      exact hok c₀ hc₀ c hc
    | thread | fork | start => exact hdelivers.elim
  | forks => exact .of_eq Cage.epochOf_rewind
  | starts th ha =>
    subst ha
    exact Cage.stands_lindSignalInit (c := { c with unborn := none }) (hok c hc)

end

/-! ## Every run -/

def World.Registered (w : World) (id : ℕ) (t : ℤ) : Prop := ∃ c ∈ w id, c.epochOf t ≠ none
deriving Decidable

def World.Killed (w : World) (id : ℕ) (t : ℤ) : Prop := ∃ c ∈ w id, c.epochOf t = some .killed
deriving Decidable

/-- The action leaves the thread registered. -/
def KeepsRegistered (id : ℕ) (t : ℤ) (w : World) (a : Action) : Prop :=
  ∀ w' ∈ w.step a, w'.Registered id t
deriving Decidable

theorem killed_step (hok : Spares w a) (hstep : w.step a = some w') (h : w.Killed id t)
    (hregistered : w'.Registered id t) : w'.Killed id t := by
  obtain ⟨c, hc, ht⟩ := h
  obtain ⟨c', hc', hreg⟩ := hregistered
  exact ⟨c', hc', (stands_of_step hc hok hstep hc' t ht).resolve_left hreg⟩

/-- A killed thread in guest code leaves at its next epoch check. -/
theorem deliver_of_killed {th : Thread} (hkilled : c.epochOf t = some .killed)
    (ht : c.threads.lookup t = some th) (hplace : th.place = .guest) :
    c.threadStep t th .deliver = some (c.move t .exiting) := by
  have hepoch : th.epoch = .killed := by
    rw [Cage.epochOf, ht] at hkilled
    exact some.inj hkilled
  have hcheck : c.threadCheckKilled t = true := by
    rw [Cage.threadCheckKilled, ht]
    exact decide_eq_true hepoch
  rw [Cage.threadStep, if_pos hplace, hcheck]
  rfl

instance decidableOpSpares (c : Cage) (th : Thread) : (op : Op) → Decidable (c.OpSpares th op) :=
  fun op => by unfold Cage.OpSpares; split <;> infer_instance

instance decidableSpares (w : World) : (a : Action) → Decidable (Spares w a) :=
  fun a => by induction a using Action.casesOn <;> dsimp only [Spares] <;> infer_instance

/-- The main thread of the first cage has started a second one and ended the cage. -/
def abandoned : World :=
  (runSteps World.step World.boot
    [.thread 1 threadStartId (.clone 2), .thread 1 threadStartId .exitGroup]).getD World.boot

/-- A signal comes, and the main thread leaves to its killed heir. -/
def afterwards : List Action := [.kill 1 sigusr1, .thread 1 threadStartId (.leave 2)]

/-- A second thread ends the cage, and the killed main thread is sent a signal. -/
def signalledRun : List Action :=
  [.thread 1 threadStartId (.clone 2), .thread 1 2 .exitGroup, .kill 1 sigusr1]

/-- A second thread ends the cage while the main thread takes its last pending signal. -/
def resetRun : List Action :=
  [.thread 1 threadStartId (.clone 2), .kill 1 sigusr1, .thread 1 threadStartId .deliver,
    .thread 1 threadStartId .take, .thread 1 threadStartId .check, .thread 1 2 .exitGroup,
    .thread 1 threadStartId .reset]

/-- The word of the first cage's main thread at the end of a run. -/
def mainEpoch (actions : List Action) : Option Epoch :=
  (runSteps World.step World.boot actions).bind fun w => (w 1).bind (·.epochOf threadStartId)

end LindWasm.Signal

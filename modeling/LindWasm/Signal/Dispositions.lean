import LindWasm.Signal.Machine
import LindWasm.Machinery.Run
import Mathlib.Data.List.Perm.Basic

/-!
# Signal/Dispositions — a signal that would be ignored is not queued

    sent --> [filter: default disposition, ignored by default] --> pending --> taken --> dispatch

The filter looks at the disposition when the signal is sent, and the loop treats the filtered case
as unreachable when it is delivered. In between, `sigaction`, `SA_RESETHAND` and `exec` make
dispositions default again. `Guarded` is what the loop relies on: about the pending list, and about
every signal already taken from it. It holds along the runs in which those three leave queued
signals alone (`noneIgnored_run`); otherwise the loop arrives there (`not_noneIgnored_sigchld`).
-/

namespace LindWasm.Signal

open Option List Table

variable {c c' : Cage} {t : ℤ} {th : Thread} {f : Thread → Thread} {mask set curr : Sigset}
  {op : Op} {w w' : World} {sig : Taken}

/-! ## The property -/

/-- No pending signal has the default disposition and is ignored by default, and no thread has come
to the unreachable branch. -/
def Cage.NoneIgnored (c : Cage) : Prop :=
  (∀ signo ∈ c.pending, ¬ IgnoredByDefault (c.signalGetHandler signo) signo)
    ∧ ∀ t th, c.threads.lookup t = some th → th.place ≠ .crashed

/-! ## The condition -/

/-- `sigaction` does not make a queued signal ignored by default; `exec` finds none queued whose
default is to be ignored; and none that the loop can take, and whose action is reset when it is
taken, is queued twice. -/
def Cage.KeepsQueued (c : Cage) : Op → Prop
  | .sigaction sig act => IgnoredByDefault act.saHandler sig → sig ∉ c.pending
  | .exec => ∀ signo ∈ c.pending, signalDefaultHandlerDispatcher signo ≠ .ignore
  | .take => ∀ signo ∈ c.pending, ¬ Blocks c.sigset signo →
      signalDefaultHandlerDispatcher signo = .ignore →
      ∀ act ∈ c.signalhandler signo, act.saFlags &&& saResethand ≠ 0 → c.pending.count signo ≤ 1
  | _ => True

instance : Decidable (c.KeepsQueued op) := by
  cases op <;> unfold Cage.KeepsQueued <;> infer_instance

def QueueOk (w : World) : Action → Prop
  | .thread id _ op => ∀ c ∈ w id, c.KeepsQueued op
  | _ => True

instance (w : World) (a : Action) : Decidable (QueueOk w a) := by
  cases a <;> unfold QueueOk <;> infer_instance

/-! ## The invariant -/

/-- What a thread holds of a signal it has taken is not what the loop treats as unreachable. -/
def Place.Safe : Place → Prop
  | .taken sig | .resetting sig | .dispatching sig => ¬ IgnoredByDefault sig.handler sig.signo
  | .crashed => False
  | _ => True

/-- Nothing queued or taken would be ignored. -/
structure Cage.Guarded (c : Cage) : Prop where
  pending : ∀ signo ∈ c.pending, ¬ IgnoredByDefault (c.signalGetHandler signo) signo
  places : ∀ t th, c.threads.lookup t = some th → th.place.Safe
  unborn : ∀ th ∈ c.unborn, th.place.Safe

theorem Taken.disposition_ne_unreachable (h : ¬ IgnoredByDefault sig.handler sig.signo) :
    sig.disposition ≠ .unreachable := by
  unfold Taken.disposition
  split
  next hdfl =>
    split
    · exact Disposition.noConfusion
    next hignore => exact absurd ⟨hdfl, hignore⟩ h
    all_goals exact Disposition.noConfusion
  · split <;> exact Disposition.noConfusion

namespace Cage

section

variable (h : c.Guarded) {place : Place}
include h

theorem Guarded.noneIgnored : c.NoneIgnored :=
  ⟨h.pending, fun t th ht hcrashed => (hcrashed ▸ h.places t th ht : Place.crashed.Safe)⟩

/-! ### One change of a field at a time -/

/-- The entries of the threads are rewritten, each to one at a safe place. -/
theorem Guarded.mapVal {g : ℤ → Thread → Thread}
    (hg : ∀ t th, c.threads.lookup t = some th → (g t th).place.Safe) :
    Guarded { c with threads := Table.mapVal g c.threads } := by
  refine ⟨h.pending, fun t th ht => ?_, h.unborn⟩
  obtain ⟨th₀, hth₀, rfl⟩ := map_eq_some_iff.mp ((lookup_mapVal g).symm.trans ht)
  exact hg t th₀ hth₀

theorem Guarded.modify
    (hf : ∀ th, c.threads.lookup t = some th → (f th).place.Safe) : (c.modify t f).Guarded := by
  refine h.mapVal fun t' th ht => ?_
  split
  next heq => exact hf th (heq ▸ ht)
  · exact h.places t' th ht

theorem Guarded.move (hplace : place.Safe) : (c.move t place).Guarded := h.modify fun _ _ => hplace

theorem Guarded.setEpoch {e : Epoch} : (c.setEpoch e).Guarded :=
  h.modify fun th ht => h.places _ th ht

theorem Guarded.sigset : Guarded { c with sigset := mask } :=
  ⟨h.pending, h.places, h.unborn⟩

theorem Guarded.triggerIfPending : (c.triggerIfPending set).Guarded := by
  rcases triggerIfPending_eq c set with ⟨heq, -⟩ | ⟨heq, -⟩
  · exact heq ▸ h.setEpoch
  · rw [heq]
    exact h

theorem Guarded.die : (c.die t).Guarded := by
  refine Guarded.mapVal (c := { c with isDead := true }) ⟨h.pending, h.places, h.unborn⟩
    fun t' th ht => ?_
  split <;> exact h.places t' th ht

theorem Guarded.register {tid : ℤ} (hplace : th.place.Safe) {isMainthread : Bool} :
    (c.lindSignalInit tid th isMainthread).Guarded := by
  refine ⟨h.pending, fun t' th' ht' => ?_, h.unborn⟩
  by_cases heq : t' = tid
  · subst heq
    exact mem_unique lookup_insert_self ht' ▸ hplace
  · exact h.places t' th' ((lookup_insert_of_ne heq).symm.trans ht')

/-! ### The operations -/

theorem Guarded.commit {call : MaskCall} : (c.commit t curr call).Guarded := by
  cases call with
  | sigprocmask how set =>
    cases how with
    | block => exact h.sigset.move trivial
    | unblock => exact h.sigset.triggerIfPending.move trivial
    | setmask => exact h.triggerIfPending.sigset.move trivial
  | sigsuspend set => exact h.triggerIfPending.move trivial
  | ppoll sigmask => exact h.sigset.move trivial

theorem Guarded.wake (hstep : c.wake t place = some c') : c'.Guarded := by
  cases place with
  | waiting => exact some.inj hstep ▸ h.move trivial
  | polling oldMask ppollMask =>
    cases hstep
    exact h.sigset.triggerIfPending.move trivial
  | suspended =>
    obtain ⟨-, hstep⟩ := ite_none_right_eq_some.mp hstep
    exact some.inj hstep ▸ h.move trivial
  | _ => exact absurd hstep nofun

end

variable {act : Sigaction} {signo : ℤ}

theorem saHandler_afterTaken (h : act.saFlags &&& saResethand = 0) :
    act.afterTaken = act := if_neg (not_not.mpr h)

theorem not_mem_eraseIdx {l : List ℤ} {index : ℕ} (hget : l[index]? = some signo)
    (hcount : l.count signo ≤ 1) : signo ∉ l.eraseIdx index := by
  obtain ⟨hlt, rfl⟩ := List.getElem?_eq_some_iff.mp hget
  rw [← (List.getElem_cons_eraseIdx_perm hlt).count_eq, List.count_cons_self] at hcount
  exact List.count_eq_zero.mp (Nat.le_zero.mp (Nat.le_of_succ_le_succ hcount))

theorem signalGetHandler_update {signo' : ℤ} :
    Cage.signalGetHandler
        { c with signalhandler := Function.update c.signalhandler signo (some act) } signo'
      = if signo' = signo then act.saHandler else c.signalGetHandler signo' := by
  by_cases heq : signo' = signo
  · subst heq
    simp [signalGetHandler]
  · simp [signalGetHandler, heq]

section

variable (h : c.Guarded)
include h

/-- The signal leaves the list with its handler, and the rest of the list keeps theirs: an action
that is reset has no second signal waiting for it. -/
theorem Guarded.take (hok : c.KeepsQueued .take) : (c.take t).Guarded := by
  unfold Cage.take
  split
  next sig c' hget =>
    obtain ⟨index, hindex, hfree, hsig, rfl⟩ := lindGetFirstSignal_eq_some hget
    have hmem : sig.signo ∈ c.pending := mem_of_getElem? hindex
    have hsafe : (Place.taken sig).Safe := by
      rw [hsig]
      exact h.pending sig.signo hmem
    refine Guarded.move ?_ hsafe
    cases hact : c.signalhandler sig.signo with
    | none =>
      exact ⟨fun signo hleft => h.pending signo (mem_of_mem_eraseIdx hleft), h.places, h.unborn⟩
    | some act =>
      refine ⟨fun signo hleft => ?_, h.places, h.unborn⟩
      have hkept := h.pending signo (mem_of_mem_eraseIdx hleft)
      rintro ⟨hdfl, hignore⟩
      refine hkept ⟨?_, hignore⟩
      replace hdfl := signalGetHandler_update.symm.trans hdfl
      split at hdfl
      next heq =>
        subst heq
        have hreset : act.saFlags &&& saResethand = 0 := by
          by_contra hset
          exact not_mem_eraseIdx hindex (hok _ hmem hfree hignore act hact hset) hleft
        rw [saHandler_afterTaken hreset] at hdfl
        rw [signalGetHandler, hact, elim_some, hdfl]
      · exact hdfl
  next hget => exact h.move trivial

theorem Guarded.dispatch (hplace : (Place.dispatching sig).Safe) : (c.dispatch t sig).Guarded := by
  unfold Cage.dispatch
  split
  · exact h.die.move trivial
  next hbad => exact absurd hbad (Taken.disposition_ne_unreachable hplace)
  · exact h.move trivial
  · exact h.modify fun _ _ => trivial

theorem Guarded.handlerReturn {frame : Frame} {frames : List Frame} :
    (c.handlerReturn t frame frames).Guarded := by
  unfold Cage.handlerReturn
  split
  · exact h.modify fun th ht => h.places _ th ht
  · exact h.sigset.modify fun _ _ => trivial

theorem Guarded.sigactionSyscall {sig : ℤ} (hok : c.KeepsQueued (.sigaction sig act)) :
    (c.sigactionSyscall sig act).Guarded := by
  unfold Cage.sigactionSyscall
  split
  · exact h
  refine ⟨fun signo hmem => ?_, h.places, h.unborn⟩
  rw [signalGetHandler_update]
  split
  next heq => exact fun hbad => hok (heq ▸ hbad) (heq ▸ hmem)
  · exact h.pending signo hmem

theorem Guarded.execSyscall (hok : c.KeepsQueued .exec) : c.execSyscall.Guarded :=
  ⟨fun signo hmem hbad => hok signo hmem hbad.2, h.places, h.unborn⟩

theorem Guarded.execStart : (c.execStart t).Guarded := by
  unfold Cage.execStart signalMayTrigger
  have hmoved : (c.move t .stale).Guarded := h.move trivial
  have hstart :
      ((c.move t .stale).lindSignalInit threadStartId ⟨.guest, [], .normal⟩ true).Guarded :=
    hmoved.register (show Place.guest.Safe from trivial)
  split
  · exact hstart
  · exact hstart.setEpoch

theorem Guarded.exitGroup : ((c.exitGroup t).move t .exiting).Guarded := by
  unfold Cage.exitGroup
  split
  · exact h.move trivial
  · have hdie : (c.die t).Guarded := h.die
    exact Guarded.move (c := { c.die t with exitGroupInitiated := true })
      ⟨hdie.pending, hdie.places, hdie.unborn⟩ trivial

theorem Guarded.lindThreadExit {heir : ℤ} : (c.lindThreadExit t th heir).Guarded := by
  have hrest : Guarded { c with threads := Table.erase c.threads t } := by
    refine ⟨h.pending, fun t' th' ht' => ?_, h.unborn⟩
    by_cases heq : t' = t
    · subst heq
      exact absurd (lookup_erase_self.symm.trans ht') nofun
    · exact h.places t' th' ((lookup_erase_of_ne heq).symm.trans ht')
  unfold Cage.lindThreadExit
  split
  · refine Guarded.mapVal (c := { c with threads := Table.erase c.threads t, mainThreadId := heir })
      ⟨hrest.pending, hrest.places, hrest.unborn⟩ fun t' th' ht' => ?_
    split <;> exact hrest.places t' th' ht'
  · exact hrest

/-- **A step that leaves queued signals alone keeps the guard.** -/
theorem Guarded.threadStep (ht : c.threads.lookup t = some th)
    (hok : c.KeepsQueued op) (hstep : c.threadStep t th op = some c') : c'.Guarded := by
  have hplace := h.places t th ht
  cases moves_of_threadStep hstep with
  | commit => exact h.commit
  | store => exact h.sigset.move trivial
  | wake hwake => exact h.wake hwake
  | take => exact h.take hok
  | deliver => split <;> exact h.move trivial
  | check heq =>
    rw [heq] at hplace
    split <;> exact h.move hplace
  | reset heq =>
    rw [heq] at hplace
    exact h.setEpoch.move hplace
  | dispatch heq =>
    rw [heq] at hplace
    exact h.dispatch hplace
  | handlerReturn => exact h.handlerReturn
  | handlerThrow => exact h.modify fun th ht => h.places _ th ht
  | handlerCrash => exact h.die.move trivial
  | sigaction => exact h.sigactionSyscall hok
  | clone =>
    have hrewound : (c.modify t Thread.rewind).Guarded := h.modify fun th ht => h.places _ th ht
    exact hrewound.register (show Place.guest.Safe from trivial)
  | exec => exact (h.execSyscall hok).move trivial
  | execStart => exact h.execStart
  | exitGroup => exact h.exitGroup
  | leave => exact h.lindThreadExit
  | enter | wait | pause | exit => exact h.move trivial

theorem Guarded.lindSendSignal (signo : ℤ) : (c.lindSendSignal signo).Guarded := by
  unfold Cage.lindSendSignal
  split
  · exact h
  next hkept =>
    have hpush : Guarded { c with pending := c.pending ++ [signo] } := by
      refine ⟨fun signo' hmem => ?_, h.places, h.unborn⟩
      rcases mem_append.mp hmem with hmem | hmem
      · exact h.pending signo' hmem
      · exact mem_singleton.mp hmem ▸ hkept
    dsimp only
    split
    · exact hpush
    · exact hpush.setEpoch

end

end Cage

/-! ## Runs -/

theorem guarded_step {a : Action} (h : w.All Cage.Guarded) (hok : QueueOk w a)
    (hstep : w.step a = some w') : w'.All Cage.Guarded := by
  refine h.step ?_ ?_ ?_ ?_ ?_ hstep
  · rintro id t op c th c' rfl hc ht hc'
    exact (h id c hc).threadStep ht (hok c hc) hc'
  · exact fun target c signo _ hc => (h target c hc).lindSendSignal signo
  · exact fun c t th hc ht => hc.modify fun th ht => hc.places _ th ht
  · intro c id th _
    exact ⟨fun _ hmem => absurd hmem not_mem_nil, fun _ _ ht => absurd ht nofun,
      fun th' hth' => some.inj hth' ▸ trivial⟩
  · intro c th hc hborn
    exact Cage.Guarded.register (c := { c with unborn := none })
      ⟨hc.pending, hc.places, fun _ hth => absurd hth nofun⟩ (hc.unborn th hborn)

theorem guarded_boot : World.boot.All Cage.Guarded := by
  refine World.all_boot fun c hnil hborn hthreads => ⟨fun _ hmem => ?_, fun t th ht => ?_, ?_⟩
  · exact absurd (hnil ▸ hmem) not_mem_nil
  · rw [hthreads, lookup_cons] at ht
    split at ht
    · exact some.inj ht ▸ trivial
    · exact absurd ht nofun
  · exact fun th hth => absurd (hborn ▸ hth) nofun

/-- **No signal that would be ignored is pending, and the loop never arrives at its unreachable
branch**, in every state that a run reaches whose steps leave queued signals alone. -/
theorem noneIgnored_run (actions : List Action)
    (hok : StepsOk World.step QueueOk World.boot actions)
    (hrun : runSteps World.step World.boot actions = some w) : w.All Cage.NoneIgnored := by
  have hguarded : w.All Cage.Guarded :=
    inv_of_stepsOk (fun _ _ _ h hok' hstep => guarded_step h hok' hstep) guarded_boot hok hrun
  exact fun id c hc => (hguarded id c hc).noneIgnored

/-- A handler for `SIGCHLD` with the signal blocked, and a child that exits. -/
def childExits : List Action :=
  [.thread 1 threadStartId (.sigaction sigchld ⟨7, 0, 0⟩),
   .thread 1 threadStartId (.enter (.sigprocmask .block (convertSignalMask sigchld))),
   .thread 1 threadStartId .commit, .fork 1 threadStartId 2, .start 2,
   .thread 2 threadStartId .exitGroup, .finish 2 threadStartId]

/-- The signal is unblocked, and the loop takes it up to the dispatch. -/
def unblockAndDeliver : List Action :=
  [.thread 1 threadStartId (.enter (.sigprocmask .unblock (convertSignalMask sigchld))),
   .thread 1 threadStartId .commit, .thread 1 threadStartId .deliver,
   .thread 1 threadStartId .take, .thread 1 threadStartId .check, .thread 1 threadStartId .reset,
   .thread 1 threadStartId .dispatch]

theorem noneIgnored_childExits :
    ∃ w, runSteps World.step World.boot (childExits ++ unblockAndDeliver) = some w
      ∧ w.All Cage.NoneIgnored := by
  have hok : StepsOk World.step QueueOk World.boot (childExits ++ unblockAndDeliver) := by
    decide +kernel
  obtain ⟨w, hw⟩ := isSome_iff_exists.mp
    (show (runSteps World.step World.boot (childExits ++ unblockAndDeliver)).isSome by
      decide +kernel)
  exact ⟨w, hw, noneIgnored_run _ hok hw⟩

/-- The handler is taken back while the signal is queued. -/
def takeBackHandler : Action := .thread 1 threadStartId (.sigaction sigchld ⟨sigDfl, 0, 0⟩)

/-- **A program that takes its `SIGCHLD` handler back brings the loop to its unreachable
branch.** -/
theorem not_noneIgnored_sigchld :
    ∃ w, runSteps World.step World.boot
        (childExits ++ takeBackHandler :: unblockAndDeliver) = some w
      ∧ ¬ w.All Cage.NoneIgnored := by
  obtain ⟨w, hw, c, hc, th, hth, hcrash⟩ : ∃ w ∈ runSteps World.step World.boot
      (childExits ++ takeBackHandler :: unblockAndDeliver), ∃ c ∈ w 1,
      ∃ th ∈ c.threads.lookup threadStartId, th.place = .crashed := by decide +kernel
  exact ⟨w, hw, fun h => (h 1 c hc).2 threadStartId th hth hcrash⟩

end LindWasm.Signal

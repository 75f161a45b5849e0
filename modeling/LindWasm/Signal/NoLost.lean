import LindWasm.Signal.Machine
import LindWasm.Machinery.Run

/-!
# Signal/NoLost — an unblocked pending signal is announced

    unblocked signal pending  -->  epoch word of the main thread not normal      (`Linked`)

`Linked` is kept at every place of the main thread but the inside of the delivery loop and of
`exec`, where the code itself will look at the pending list again. An operation that unblocks
signals keeps it if it looks at the pending list under the mask it writes; those that do not, and
those another party can overtake, are the conditions of `StepOk`. `noLostSignal_run` is the result
for every run that meets them, and `not_noLostSignal_ppoll` a run that does not.
-/

namespace LindWasm.Signal

open Option List Table

variable {c c' : Cage} {t : ℤ} {th : Thread} {f : Thread → Thread} {mask set curr : Sigset}
  {op : Op} {w w' : World}

/-! ## The property -/

/-- Guest code, or a wait inside `poll`, `select`, `waitpid` or `sigsuspend`. -/
def Place.listens : Place → Bool
  | .guest | .waiting | .polling .. | .suspended => true
  | _ => false

namespace Cage

/-- A signal is pending that the mask does not block. -/
def Exposed (c : Cage) : Prop := ∃ signo ∈ c.pending, ¬ Blocks c.sigset signo

def NoLostSignal (c : Cage) : Prop :=
  ∀ th ∈ c.main, th.place.listens = true → c.Exposed → th.epoch ≠ .normal

/-! ## The condition -/

/-- The epoch word of the main thread is not normal. -/
def Raised (c : Cage) : Prop := ∀ th ∈ c.main, th.epoch ≠ .normal

/-- To write the mask would unblock a pending signal while the epoch word is normal. -/
def Uncovers (c : Cage) (mask : Sigset) : Prop :=
  ¬ c.Raised ∧ ∃ signo ∈ c.pending, Blocks c.sigset signo ∧ ¬ Blocks mask signo

instance : Decidable c.Exposed := inferInstanceAs (Decidable (∃ _ ∈ _, _))
instance : Decidable c.Raised := inferInstanceAs (Decidable (∀ _ ∈ _, _))
instance : Decidable (c.Uncovers mask) := inferInstanceAs (Decidable (_ ∧ _))
instance : Decidable c.NoLostSignal := inferInstanceAs (Decidable (∀ _ ∈ _, _))

/-- A system call that writes the mask finds the one it loaded or wrote before; `ppoll` and
`sigsuspend` uncover no pending signal. -/
def WriteOk (c : Cage) : Place → Prop
  | .loaded (.sigprocmask ..) curr => c.sigset = curr
  | .loaded (.ppoll sigmask) _ => ¬ c.Uncovers sigmask
  | .suspending set => ¬ c.Uncovers set
  | .polling _ ppollMask => c.sigset = ppollMask
  | _ => True

/-- When a step of a thread leaves no unblocked signal unannounced: it writes the mask as above; the
loop invokes no handler, with another unblocked signal waiting, under a normal epoch word; no signal
has arrived since the loop found none; handlers and `exec` run on the main thread or uncover
nothing; and a killed main thread hands over to a thread that is marked as well. -/
def OpOk (c : Cage) (t : ℤ) (th : Thread) : Op → Prop
  | .commit | .store | .wake => c.WriteOk th.place
  | .check => t = c.mainThreadId → c.Exposed → c.Raised
  | .reset => ¬ c.Exposed
  | .handlerReturn => t ≠ c.mainThreadId →
      ∀ frame ∈ th.frames.head?, frame.rewound = true ∨ ¬ c.Uncovers frame.restorer
  | .exec => t ≠ c.mainThreadId → ¬ c.Uncovers 0
  | .leave heir => t = c.mainThreadId → c.isDead = true ∨ th.epoch = .killed →
      ∀ h ∈ c.threads.lookup heir, h.epoch ≠ .normal ∨ c.isDead = true ∧ h.place = .exiting
  | _ => True

instance (place : Place) : Decidable (c.WriteOk place) := by
  unfold WriteOk
  split <;> infer_instance

instance : (op : Op) → Decidable (c.OpOk t th op) :=
  fun op => by induction op using Op.casesOn <;> dsimp only [OpOk] <;> infer_instance

end Cage

/-- …and a signal is not sent to a forked cage before its main thread is registered. -/
def StepOk (w : World) : Action → Prop
  | .thread id t op => ∀ c ∈ w id, ∀ th ∈ c.threads.lookup t, c.OpOk t th op
  | .kill target _ => ∀ c ∈ w target, c.unborn = none
  | .finish id _ => ∀ c ∈ w id, ∀ p ∈ w c.parent, p.unborn = none
  | .fork .. | .start _ => True

instance (w : World) : (a : Action) → Decidable (StepOk w a) :=
  fun a => by induction a using Action.casesOn <;> dsimp only [StepOk] <;> infer_instance

/-! ## The invariant -/

/-- The places from which the main thread does not look at the pending list again by itself. In a
cage that is being torn down an exiting thread has nothing left to look at. -/
def Place.Watched (dead : Bool) : Place → Prop
  | .taking | .taken _ | .resetting _ | .execing | .stale | .crashed => False
  | .exiting => dead = false
  | _ => True

def Cage.Linked (c : Cage) : Prop :=
  c.Exposed → ∀ th ∈ c.main, th.place.Watched c.isDead → th.epoch ≠ .normal

/-- The invariant of a run. -/
structure Cage.Sound (c : Cage) : Prop where
  linked : c.Linked
  unborn : c.unborn ≠ none → c.pending = []

theorem Place.watched_of_listens {p : Place} {dead : Bool} (h : p.listens = true) :
    p.Watched dead := by
  cases p <;> trivial

namespace Cage

theorem Sound.noLostSignal (h : c.Sound) : c.NoLostSignal :=
  fun th hth hlistens hexp => h.linked hexp th hth (Place.watched_of_listens hlistens)

/-! ### One change of a field at a time -/

section

variable (ht : c.threads.lookup t = some th)
include ht

theorem main_eq_some (heq : t = c.mainThreadId) : c.main = some th := by
  rw [main, ← heq, ht]

theorem linked_modify (hothers : t ≠ c.mainThreadId → c.Linked)
    (hmain : t = c.mainThreadId → c.Exposed → (f th).place.Watched c.isDead →
      (f th).epoch ≠ .normal) : (c.modify t f).Linked := by
  intro hexp th' hth'
  rw [main_modify] at hth'
  obtain ⟨th₀, hth₀, rfl⟩ := map_eq_some_iff.mp hth'
  by_cases heq : c.mainThreadId = t
  · obtain rfl : th = th₀ := some.inj (ht.symm.trans (heq ▸ hth₀))
    rw [if_pos heq]
    exact hmain heq.symm hexp
  · rw [if_neg heq]
    exact hothers (Ne.symm heq) hexp th₀ hth₀

/-- A thread that keeps its word goes from a watched place to another, or leaves them. -/
theorem Linked.modify (h : c.Linked) (hepoch : (f th).epoch = th.epoch)
    (hplace : (f th).place.Watched c.isDead → th.place.Watched c.isDead) :
    (c.modify t f).Linked := by
  refine linked_modify ht (fun _ => h) fun heq hexp hwatched => ?_
  rw [hepoch]
  exact h hexp th (main_eq_some ht heq) (hplace hwatched)

end

theorem Linked.move (h : c.Linked) (ht : c.threads.lookup t = some th) {place : Place}
    (hplace : place.Watched c.isDead → th.place.Watched c.isDead) : (c.move t place).Linked :=
  h.modify ht rfl hplace

theorem raised_trigger : c.signalEpochTrigger.Raised := by
  intro th hth
  rw [signalEpochTrigger, setEpoch, main_modify] at hth
  obtain ⟨th₀, -, rfl⟩ := map_eq_some_iff.mp hth
  simp

theorem Raised.linked (h : c.Raised) : c.Linked := fun _ th hth _ => h th hth

theorem Linked.sigset (h : c.Linked) (hcover : ¬ c.Uncovers mask) :
    Linked { c with sigset := mask } := by
  rintro ⟨signo, hmem, hfree⟩ th hth hwatched
  by_cases hblocks : Blocks c.sigset signo
  · have hraised : c.Raised := by
      by_contra hlow
      exact hcover ⟨hlow, signo, hmem, hblocks, hfree⟩
    exact hraised th hth
  · exact h ⟨signo, hmem, hblocks⟩ th hth hwatched

theorem not_uncovers_of_raised (h : c.Raised) : ¬ c.Uncovers mask := fun hu => hu.1 h

theorem not_uncovers_of_forall
    (h : ∀ signo ∈ c.pending, Blocks c.sigset signo → Blocks mask signo) :
    ¬ c.Uncovers mask := fun ⟨_, signo, hmem, hblocks, hfree⟩ => hfree (h signo hmem hblocks)

/-! ### The system calls -/

section

variable (h : c.Linked)
include h

theorem Linked.triggerIfPending : (c.triggerIfPending set).Linked := by
  rcases triggerIfPending_eq c set with ⟨heq, -⟩ | ⟨heq, -⟩
  · exact heq ▸ raised_trigger.linked
  · exact heq.symm ▸ h

section

variable (hset : ∀ signo, Blocks c.sigset signo → ¬ Blocks mask signo → Blocks set signo)
include hset

/-- To write a mask and then look for what it has unblocked keeps the link. -/
theorem Linked.sigset_triggerIfPending :
    ({ c with sigset := mask }.triggerIfPending set).Linked := by
  rcases triggerIfPending_eq { c with sigset := mask } set
    with ⟨heq, -⟩ | ⟨heq, hnone⟩
  · exact heq ▸ raised_trigger.linked
  · rw [heq]
    refine h.sigset (not_uncovers_of_forall fun signo hmem hblocks => ?_)
    by_contra hfree
    exact hnone signo hmem (hset signo hblocks hfree)

theorem Linked.triggerIfPending_sigset : Linked { c.triggerIfPending set with sigset := mask } := by
  refine Linked.sigset h.triggerIfPending ?_
  rcases triggerIfPending_eq c set with ⟨heq, -⟩ | ⟨heq, hnone⟩
  · exact heq ▸ not_uncovers_of_raised raised_trigger
  · rw [heq]
    refine not_uncovers_of_forall fun signo hmem hblocks => ?_
    by_contra hfree
    exact hnone signo hmem (hset signo hblocks hfree)

end

theorem Linked.sigprocmaskSyscall (hcurr : c.sigset = curr) {how : How} :
    (c.sigprocmaskSyscall how set curr).Linked := by
  subst hcurr
  cases how with
  | block => exact h.sigset (not_uncovers_of_forall fun _ _ hb => blocks_or.mpr (.inl hb))
  | unblock =>
    refine h.sigset_triggerIfPending fun signo hblocks hfree => ?_
    by_contra hset
    exact hfree (blocks_and_not.mpr ⟨hblocks, hset⟩)
  | setmask => exact h.triggerIfPending_sigset fun _ hb hf => blocks_xor_and.mpr ⟨hb, hf⟩

theorem Linked.ppollRestore {oldMask : Sigset} (hmask : c.sigset = mask) :
    (c.ppollRestore oldMask mask).Linked :=
  h.sigset_triggerIfPending fun _ hb hf => blocks_and_not.mpr ⟨hmask ▸ hb, hf⟩

/-- Fewer signals are pending and more are blocked. -/
theorem Linked.take {sig : Taken} (hget : c.lindGetFirstSignal = some (sig, c')) : c'.Linked := by
  obtain ⟨index, -, -, -, rfl⟩ := lindGetFirstSignal_eq_some hget
  rintro ⟨signo, hmem, hfree⟩ th hth hwatched
  cases hact : c.signalhandler sig.signo with
  | none =>
    simp only [hact] at hmem hfree hth hwatched
    exact h ⟨signo, mem_of_mem_eraseIdx hmem, hfree⟩ th hth hwatched
  | some act =>
    simp only [hact] at hmem hfree hth hwatched
    exact h ⟨signo, mem_of_mem_eraseIdx hmem, fun hb => hfree (blocks_or.mpr (.inl hb))⟩ th hth
      hwatched

theorem Linked.lindSendSignal (signo : ℤ) : (c.lindSendSignal signo).Linked := by
  unfold Cage.lindSendSignal
  split
  · exact h
  dsimp only
  split
  next hblocks =>
    rintro ⟨signo', hmem, hfree⟩
    rcases mem_append.mp hmem with hmem | hmem
    · exact h ⟨signo', hmem, hfree⟩
    · exact absurd (mem_singleton.mp hmem ▸ hblocks) hfree
  · exact raised_trigger.linked

end

/-! ### The life of a thread -/

theorem lookup_die {t' : ℤ} : (c.die t).threads.lookup t'
    = (c.threads.lookup t').map fun th => if t' = t then th else { th with epoch := .killed } := by
  simp only [die, epochKillAll, lookup_mapVal]

/-- The thread that marks the cage leaves; if it is not the main thread, the main thread is
marked. -/
theorem linked_die (ht : c.threads.lookup t = some th) : ((c.die t).move t .exiting).Linked := by
  have hself : (c.die t).threads.lookup t = some th := by
    rw [lookup_die, ht, map_some, if_pos rfl]
  refine linked_modify hself (fun hne => ?_) fun _ _ hwatched => ?_
  · refine Raised.linked fun th' hth' => ?_
    obtain ⟨th₀, -, rfl⟩ := map_eq_some_iff.mp (lookup_die.symm.trans hth')
    rw [if_neg (Ne.symm hne)]
    exact Epoch.noConfusion
  · exact absurd hwatched Bool.true_eq_false.mp

theorem Linked.register (h : c.Linked) {tid : ℤ} (hne : tid ≠ c.mainThreadId) (th : Thread) :
    (c.lindSignalInit tid th false).Linked := by
  intro hexp th' hth'
  have hmain : (c.lindSignalInit tid th false).main = c.main := lookup_insert_of_ne hne.symm
  exact h hexp th' (hmain ▸ hth')

theorem linked_signalMayTrigger : c.signalMayTrigger.Linked := by
  unfold signalMayTrigger
  split
  next hnil => exact fun ⟨signo, hmem, _⟩ => absurd (hnil ▸ hmem) not_mem_nil
  · exact raised_trigger.linked

/-- The main role and a raised word pass to the heir. -/
theorem Linked.lindThreadExit (h : c.Linked) (ht : c.threads.lookup t = some th) {heir : ℤ}
    (hplace : th.place = .exiting) (hne : heir ≠ t) (hok : c.OpOk t th (.leave heir)) :
    (c.lindThreadExit t th heir).Linked := by
  unfold Cage.lindThreadExit
  split
  next heq =>
    intro hexp th' hth' hwatched
    rw [mem_def, main, lookup_mapVal, lookup_erase_of_ne hne] at hth'
    obtain ⟨h₀, hh₀, rfl⟩ := map_eq_some_iff.mp hth'
    have hword : h₀.epoch ≠ .normal → (if heir = heir ∧ th.epoch = .signal ∧ h₀.epoch ≠ .killed
        then { h₀ with epoch := .signal } else h₀).epoch ≠ .normal := by
      intro hraised
      split
      · exact Epoch.noConfusion
      · exact hraised
    by_cases hgone : c.isDead = true ∨ th.epoch = .killed
    · rcases hok heq hgone h₀ hh₀ with hraised | ⟨hdead, hexit⟩
      · exact hword hraised
      · have : (Place.exiting).Watched c.isDead := by
          convert hwatched using 1
          split <;> exact hexit.symm
        exact absurd (hdead.symm.trans this) Bool.true_eq_false.mp
    · rw [not_or, Bool.not_eq_true] at hgone
      have hlow : th.epoch ≠ .normal := h hexp th (main_eq_some ht heq) (hplace ▸ hgone.1)
      have hsignal : th.epoch = .signal := by
        cases hepoch : th.epoch with
        | normal => exact absurd hepoch hlow
        | signal => rfl
        | killed => exact absurd hepoch hgone.2
      by_cases hkilled : h₀.epoch = .killed
      · exact hword (hkilled ▸ Epoch.noConfusion)
      · rw [if_pos ⟨rfl, hsignal, hkilled⟩]
        exact Epoch.noConfusion
  next hneq =>
    intro hexp th' hth'
    rw [mem_def, main, lookup_erase_of_ne (Ne.symm hneq)] at hth'
    exact h hexp th' hth'

/-! ### One step of a thread -/

section

variable (ht : c.threads.lookup t = some th)
include ht

/-- The thread is still registered when the epoch word or the mask has been written. -/
theorem lookup_triggerIfPending (set : Sigset) :
    ∃ th', (c.triggerIfPending set).threads.lookup t = some th' ∧ th'.place = th.place := by
  rcases triggerIfPending_eq c set with ⟨heq, -⟩ | ⟨heq, -⟩
  · rw [heq, signalEpochTrigger, setEpoch, lookup_modify, ht]
    refine ⟨_, rfl, ?_⟩
    split <;> rfl
  · exact ⟨th, by rw [heq, ht], rfl⟩

theorem lookup_sigprocmaskSyscall {how : How} :
    ∃ th', (c.sigprocmaskSyscall how set curr).threads.lookup t = some th'
      ∧ th'.place = th.place := by
  cases how with
  | block => exact ⟨th, ht, rfl⟩
  | unblock => exact lookup_triggerIfPending (c := { c with sigset := curr &&& ~~~set }) ht set
  | setmask => exact lookup_triggerIfPending ht _

variable (h : c.Linked)
include h

theorem Linked.commit {call : MaskCall} (hplace : th.place = .loaded call curr)
    (hok : c.WriteOk th.place) : (c.commit t curr call).Linked := by
  have hwatched (dead : Bool) : th.place.Watched dead := hplace ▸ trivial
  rw [hplace] at hok
  cases call with
  | sigprocmask how set =>
    obtain ⟨th', ht', hplace'⟩ := lookup_sigprocmaskSyscall ht
    exact (h.sigprocmaskSyscall hok).move ht' fun _ => hplace' ▸ hwatched _
  | sigsuspend set =>
    obtain ⟨th', ht', hplace'⟩ := lookup_triggerIfPending ht _
    exact h.triggerIfPending.move ht' fun _ => hplace' ▸ hwatched _
  | ppoll sigmask => exact (h.sigset hok).move ht fun _ => hwatched _

theorem Linked.wake (hok : c.WriteOk th.place)
    (hstep : c.wake t th.place = some c') : c'.Linked := by
  cases hplace : th.place with
  | waiting =>
    rw [hplace] at hstep
    exact some.inj hstep ▸ h.move ht fun _ => hplace ▸ trivial
  | polling oldMask ppollMask =>
    rw [hplace] at hstep hok
    obtain ⟨th', ht', hplace'⟩ :=
      lookup_triggerIfPending (c := { c with sigset := oldMask }) ht (ppollMask &&& ~~~oldMask)
    exact some.inj hstep ▸ (h.ppollRestore hok).move ht' fun _ => by
      rw [hplace', hplace]
      trivial
  | suspended =>
    rw [hplace] at hstep
    obtain ⟨-, hstep⟩ := ite_none_right_eq_some.mp hstep
    exact some.inj hstep ▸ h.move ht fun _ => hplace ▸ trivial
  | _ => exact absurd (hplace ▸ hstep) nofun

/-- A signal is taken out of the list, or the loop has found none and ends. -/
theorem Linked.takeStep : (c.take t).Linked := by
  unfold Cage.take
  split
  next sig c' hget =>
    have hthreads : c'.threads = c.threads := by
      obtain ⟨index, -, -, -, rfl⟩ := lindGetFirstSignal_eq_some hget
      split <;> rfl
    exact linked_modify (hthreads ▸ ht) (fun _ => h.take hget) fun _ _ hwatched => hwatched.elim
  next hget =>
    have hnone := lindGetFirstSignal_eq_none hget
    exact fun ⟨signo, hmem, hfree⟩ => absurd (hnone signo hmem) hfree

theorem Linked.dispatch {sig : Taken}
    (hplace : th.place = .dispatching sig) : (c.dispatch t sig).Linked := by
  unfold Cage.dispatch
  split
  · exact linked_die ht
  · exact h.move ht fun hw => hw.elim
  · exact h.move ht fun hw => hw.elim
  · exact h.modify ht rfl fun _ => hplace ▸ trivial

theorem Linked.handlerReturn {frame : Frame} {frames : List Frame}
    (hframes : th.frames = frame :: frames)
    (hok : c.OpOk t th .handlerReturn) : (c.handlerReturn t frame frames).Linked := by
  unfold Cage.handlerReturn
  split
  · exact h.modify ht rfl id
  next hrewound =>
    refine linked_modify ht (fun hne => h.sigset ?_)
      fun _ _ hw => hw.elim
    exact (hok hne frame (by rw [hframes]; rfl)).resolve_left hrewound

theorem Linked.exitGroup
    (hplace : th.place = .guest) : ((c.exitGroup t).move t .exiting).Linked := by
  unfold Cage.exitGroup
  split
  · exact h.move ht fun _ => hplace ▸ trivial
  · exact linked_die ht

/-- **A step that meets its condition keeps the link.** -/
theorem Linked.threadStep
    (hok : c.OpOk t th op) (hstep : c.threadStep t th op = some c') : c'.Linked := by
  cases moves_of_threadStep hstep with
  | commit hplace => exact h.commit ht hplace hok
  | store hplace =>
    rw [OpOk, hplace] at hok
    exact (h.sigset hok).move ht fun _ => hplace ▸ trivial
  | wake hwake => exact h.wake ht hok hwake
  | take => exact h.takeStep ht
  | check =>
    refine linked_modify ht (fun _ => h) fun heq hexp hwatched => ?_
    exact hok heq hexp th (main_eq_some ht heq)
  | reset => exact fun hexp => absurd hexp hok
  | dispatch hplace => exact h.dispatch ht hplace
  | handlerReturn _ hframes => exact h.handlerReturn ht hframes hok
  | handlerThrow => exact h.modify ht rfl id
  | handlerCrash => exact linked_die ht
  | sigaction =>
    unfold sigactionSyscall
    split <;> exact h
  | clone hok' => exact (h.modify ht rfl id).register hok'.2.2 _
  | exec =>
    exact linked_modify ht (fun hne => h.sigset (hok hne)) fun _ _ hw => hw.elim
  | execStart => exact linked_signalMayTrigger
  | exitGroup hplace => exact h.exitGroup ht hplace
  | leave hok' => exact h.lindThreadExit ht hok'.1 hok'.2.1 hok
  | enter hplace | wait hplace | pause hplace | deliver hplace | exit hplace =>
    exact h.move ht fun _ => hplace ▸ trivial

end

end Cage

/-! ## Runs -/

theorem Cage.Sound.send (h : c.Sound) (hborn : c.unborn = none) (signo : ℤ) :
    (c.lindSendSignal signo).Sound := by
  refine ⟨h.linked.lindSendSignal signo, fun hne => absurd ?_ hne⟩
  unfold Cage.lindSendSignal
  dsimp only
  split <;> [skip; split] <;> exact hborn

theorem Cage.Sound.threadStep (h : c.Sound) (ht : c.threads.lookup t = some th)
    (hok : c.OpOk t th op) (hstep : c.threadStep t th op = some c') : c'.Sound := by
  obtain ⟨hpending, hunborn⟩ := Cage.sheds_threadStep hstep
  refine ⟨h.linked.threadStep ht hok hstep, fun hne => ?_⟩
  exact sublist_nil.mp (h.unborn (hunborn ▸ hne) ▸ hpending)

theorem Cage.Sound.start (h : c.Sound) (hborn : c.unborn = some th) :
    ({ c with unborn := none }.lindSignalInit threadStartId th true).Sound := by
  have hnil : c.pending = [] := h.unborn (hborn ▸ some_ne_none th)
  refine ⟨fun ⟨signo, hmem, _⟩ => ?_, fun hne => absurd rfl hne⟩
  exact absurd (hnil ▸ hmem) not_mem_nil

theorem sound_step {a : Action} (h : w.All Cage.Sound) (hok : StepOk w a)
    (hstep : w.step a = some w') : w'.All Cage.Sound := by
  refine h.step ?_ ?_ ?_ ?_ (fun c th hc hborn => hc.start hborn) hstep
  · rintro id t op c th c' rfl hc ht hc'
    exact (h id c hc).threadStep ht (hok c hc th ht) hc'
  · intro target c signo hsends hc
    refine (h target c hc).send ?_ signo
    cases a with
    | kill target' sig => exact hok c (hsends ▸ hc)
    | finish id t =>
      obtain ⟨c₀, hc₀, rfl⟩ := hsends
      exact hok c₀ hc₀ c hc
    | thread | fork | start => exact hsends.elim
  · exact fun c t th hc ht => ⟨hc.linked.modify ht rfl fun hw => hw, hc.unborn⟩
  · exact fun c id th _ => ⟨fun ⟨_, hmem, _⟩ => absurd hmem not_mem_nil, fun _ => rfl⟩

theorem sound_boot : World.boot.All Cage.Sound :=
  World.all_boot fun _ hnil hborn _ =>
    ⟨fun ⟨_, hmem, _⟩ => absurd (hnil ▸ hmem) not_mem_nil, fun hne => absurd hborn hne⟩

/-- **No signal is lost along a run whose steps meet `StepOk`**: in every state it reaches, while
the main thread of a cage is in guest code or waits, an unblocked pending signal of the cage finds
its epoch word raised. -/
theorem noLostSignal_run (actions : List Action)
    (hok : StepsOk World.step StepOk World.boot actions)
    (hrun : runSteps World.step World.boot actions = some w) : w.All Cage.NoLostSignal := by
  have hsound : w.All Cage.Sound :=
    inv_of_stepsOk (fun _ _ _ h hok' hstep => sound_step h hok' hstep) sound_boot hok hrun
  exact fun id c hc => (hsound id c hc).noLostSignal

/-- The mask that blocks `SIGUSR1` alone. -/
def usr1Mask : Sigset := convertSignalMask sigusr1

/-- The main thread of the first cage. -/
def mainOp (op : Op) : Action := .thread 1 threadStartId op

/-- A handler for `SIGUSR1`; a child signals its parent, which has the signal blocked and unblocks
it, and exits. -/
def sampleRun : List Action :=
  [mainOp (.sigaction sigusr1 ⟨7, 0, 0⟩), mainOp (.enter (.sigprocmask .block usr1Mask)),
   mainOp .commit, .fork 1 threadStartId 2, .start 2, .kill 1 sigusr1,
   mainOp (.enter (.sigprocmask .unblock usr1Mask)), mainOp .commit, mainOp .deliver, mainOp .take,
   mainOp .check, mainOp .reset, mainOp .dispatch, mainOp .handlerReturn, mainOp .take,
   .thread 2 threadStartId .exitGroup, .finish 2 threadStartId, mainOp .wait]

theorem noLostSignal_sampleRun :
    ∃ w, runSteps World.step World.boot sampleRun = some w ∧ w.All Cage.NoLostSignal := by
  have hok : StepsOk World.step StepOk World.boot sampleRun := by decide +kernel
  obtain ⟨w, hw⟩ := isSome_iff_exists.mp
    (show (runSteps World.step World.boot sampleRun).isSome by decide +kernel)
  exact ⟨w, hw, noLostSignal_run sampleRun hok hw⟩

/-- A signal is blocked and sent, and `ppoll` is called with a mask that unblocks it. -/
def ppollRun : List Action :=
  [mainOp (.enter (.sigprocmask .block usr1Mask)), mainOp .commit, .kill 1 sigusr1,
   mainOp (.enter (.ppoll 0)), mainOp .commit]

/-- **`ppoll` waits with an unblocked signal pending and the epoch word normal.** -/
theorem not_noLostSignal_ppoll :
    ∃ w, runSteps World.step World.boot ppollRun = some w ∧ ¬ w.All Cage.NoLostSignal := by
  obtain ⟨w, hw, c, hc, hlost⟩ : ∃ w ∈ runSteps World.step World.boot ppollRun, ∃ c ∈ w 1,
      ¬ c.NoLostSignal := by decide +kernel
  exact ⟨w, hw, fun h => hlost (h 1 c hc)⟩

end LindWasm.Signal

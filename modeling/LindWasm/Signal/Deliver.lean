import LindWasm.Signal.Machine
import LindWasm.Machinery.Run

/-!
# Signal/Deliver — what the delivery loop leaves behind

    mask σ --take--> σ ∪ added --handler returns, restorer--> σ
                        │
                        ├-- SIG_IGN, stop, continue --> σ ∪ added      (no restorer)
                        └-- handler rewound         --> σ ∪ added      (no restorer)

`deliver` is `signal_handler` run by the main thread, over any behaviour of the handlers that leaves
the mask as it found it. `deliveries` is the same loop with the mask put back after every signal.
The loop ends with the mask it began with, and a normal epoch word, exactly when each of those
deliveries is undone by the code and the last one does not leave the word raised
(`deliver_restores_iff`).
-/

namespace LindWasm.Signal

open Option List Cage

variable {c c' c₁ : Cage} {sig : Taken}

/-! ## The loop -/

/-- How the call of a handler ends: it returns; it forks, so that the frame is unwound and the
rewind branch finishes it; it is left by an exception; or it traps. -/
inductive Ending
  | returned
  | rewound
  | thrown
  | crashed
  deriving DecidableEq

/-- What the handlers of a program do to the cage, each leaving the mask as it found it. -/
structure Behaviour where
  run : Taken → Cage → Cage × Ending
  keepsMask : ∀ sig c, (run sig c).1.sigset = c.sigset

/-- How the delivery ends: the loop has run out of signals, or it was left before. -/
inductive Delivered
  | ran (c : Cage)
  | left

/-- The head of the loop: a signal is taken, and the epoch reset if no other is unblocked. -/
def Cage.round (c : Cage) : Option (Taken × Cage) :=
  c.lindGetFirstSignal.map fun (sig, c) =>
    (sig, if c.lindCheckNoPendingSignal then c.signalEpochReset else c)

/-- The delivery, for at most `fuel` signals. After a rewound handler the guest goes on, and comes
back to `signal_handler` at its next epoch check if the word is raised. -/
def deliver (b : Behaviour) : (fuel : ℕ) → Cage → Option Delivered
  | 0, _ => none
  | fuel + 1, c =>
      match c.round with
      | none => some (.ran c)
      | some (sig, c) =>
          match sig.disposition with
          | .terminate | .unreachable => some .left
          | .skip => deliver b fuel c
          | .invoke =>
              let c' := (b.run sig c).1
              match (b.run sig c).2 with
              | .returned => deliver b fuel { c' with sigset := sig.restorer }
              | .rewound =>
                  if c'.signalCheckTrigger then
                    if c'.threadCheckKilled c'.mainThreadId then some .left else deliver b fuel c'
                  else some (.ran c')
              | .thrown | .crashed => some .left

/-! ## The condition -/

/-- What the mask gains while the signal is handled. -/
def Cage.added (c : Cage) (signo : ℤ) : Sigset :=
  (c.signalhandler signo).elim 0 fun act => act.blockedWhile signo

/-- One signal that is delivered: what the mask gains for it, whether a handler was called for it
and returned, and whether a handler left the epoch word raised. -/
structure Delivery where
  added : Sigset
  returned : Bool
  raised : Bool

/-- The signals delivered when the mask is put back after every one. -/
def deliveries (b : Behaviour) : (fuel : ℕ) → Cage → List Delivery
  | 0, _ => []
  | fuel + 1, c =>
      match c.round with
      | none => []
      | some (sig, c₁) =>
          match sig.disposition with
          | .terminate | .unreachable => []
          | .skip =>
              ⟨c.added sig.signo, false, false⟩ :: deliveries b fuel { c₁ with sigset := c.sigset }
          | .invoke =>
              let c' := (b.run sig c₁).1
              match (b.run sig c₁).2 with
              | .returned => ⟨c.added sig.signo, true, c'.signalCheckTrigger⟩
                  :: deliveries b fuel { c' with sigset := c.sigset }
              | .rewound => ⟨c.added sig.signo, false, c'.signalCheckTrigger⟩
                  :: if c'.signalCheckTrigger then deliveries b fuel { c' with sigset := c.sigset }
                    else []
              | .thrown | .crashed => []

/-- The handler returned, or the mask gains nothing that it does not block already. -/
def Delivery.Undone (mask : Sigset) (d : Delivery) : Prop :=
  d.returned = true ∨ mask ||| d.added = mask
deriving Decidable

/-- The epoch word is normal after the last delivery; where nothing is delivered, it was before. -/
def LeavesWordNormal (c : Cage) (ds : List Delivery) : Prop :=
  (ds.getLast?.map Delivery.raised).getD c.signalCheckTrigger = false
deriving Decidable

/-! ## One round -/

theorem round_eq_none (h : c.round = none) : ∀ signo ∈ c.pending, Blocks c.sigset signo :=
  lindGetFirstSignal_eq_none (map_eq_none_iff.mp h)

theorem signalCheckTrigger_reset : c.signalEpochReset.signalCheckTrigger = false := by
  rw [signalCheckTrigger, signalEpochReset, setEpoch, main_modify]
  cases c.main <;> simp

/-- **A round widens the mask by what the action adds**, remembers the mask before, and leaves the
epoch word normal if it was the last one. -/
theorem round_eq_some (h : c.round = some (sig, c₁)) :
    sig.restorer = c.sigset ∧ c₁.sigset = c.sigset ||| c.added sig.signo
      ∧ (c₁.lindCheckNoPendingSignal = true → c₁.signalCheckTrigger = false) := by
  obtain ⟨⟨sig', c₀⟩, hget, hround⟩ := map_eq_some_iff.mp h
  obtain ⟨rfl, rfl⟩ := Prod.mk.inj hround
  obtain ⟨index, -, -, hsig, hc₀⟩ := lindGetFirstSignal_eq_some hget
  have hmask : c₀.sigset = c.sigset ||| c.added sig'.signo := by
    rw [hc₀, Cage.added]
    cases c.signalhandler sig'.signo with
    | none => exact (BitVec.or_zero).symm
    | some act => rfl
  refine ⟨by rw [hsig], ?_, ?_⟩
  · rw [← hmask]
    split <;> rfl
  · split
    · exact fun _ => signalCheckTrigger_reset
    next hmore => exact fun hnone => absurd hnone hmore

/-! ### As steps of the thread -/

variable {t : ℤ} {th : Thread} {p q : Place}

/-! ## The loop and the deliveries, one signal at a time -/

variable {b : Behaviour} {fuel : ℕ}

/-- The ways in which a delivery that runs out of signals begins, with its deliveries. -/
inductive Begins (b : Behaviour) (fuel : ℕ) (c c' : Cage) : List Delivery → Prop
  | nothing : (∀ signo ∈ c.pending, Blocks c.sigset signo) → c' = c → Begins b fuel c c' []
  | skipped (sig : Taken) (c₁ : Cage) : c.round = some (sig, c₁) →
      deliver b fuel c₁ = some (.ran c') →
      Begins b fuel c c' (⟨c.added sig.signo, false, false⟩
        :: deliveries b fuel { c₁ with sigset := c.sigset })
  | returned (sig : Taken) (c₁ c₂ : Cage) : c.round = some (sig, c₁) →
      deliver b fuel { c₂ with sigset := c.sigset } = some (.ran c') →
      Begins b fuel c c' (⟨c.added sig.signo, true, c₂.signalCheckTrigger⟩
        :: deliveries b fuel { c₂ with sigset := c.sigset })
  | rewound (sig : Taken) (c₁ c₂ : Cage) : c.round = some (sig, c₁) → c₂.sigset = c₁.sigset →
      deliver b fuel c₂ = some (.ran c') →
      Begins b fuel c c' (⟨c.added sig.signo, false, c₂.signalCheckTrigger⟩
        :: deliveries b fuel { c₂ with sigset := c.sigset })
  | ended (sig : Taken) (c₁ : Cage) : c.round = some (sig, c₁) → c'.sigset = c₁.sigset →
      c'.signalCheckTrigger = false →
      Begins b fuel c c' [⟨c.added sig.signo, false, false⟩]

theorem begins_of_deliver (h : deliver b (fuel + 1) c = some (.ran c')) :
    Begins b fuel c c' (deliveries b (fuel + 1) c) := by
  unfold deliver at h
  unfold deliveries
  cases hround : c.round with
  | none =>
    simp only [hround] at h
    exact .nothing (round_eq_none hround) (Delivered.ran.inj (some.inj h)).symm
  | some taken =>
    obtain ⟨sig, c₁⟩ := taken
    simp only [hround] at h ⊢
    cases hdisp : sig.disposition with
    | terminate | unreachable =>
      simp only [hdisp] at h
      exact absurd (some.inj h) nofun
    | skip =>
      simp only [hdisp] at h ⊢
      exact .skipped sig c₁ hround h
    | invoke =>
      simp only [hdisp] at h ⊢
      cases hend : (b.run sig c₁).2 with
      | returned =>
        simp only [hend, (round_eq_some hround).1] at h ⊢
        exact .returned sig c₁ _ hround h
      | rewound =>
        simp only [hend] at h ⊢
        have hmask := b.keepsMask sig c₁
        by_cases hraised : (b.run sig c₁).1.signalCheckTrigger = true
        · simp only [hraised, if_true] at h ⊢
          split at h
          · exact absurd (some.inj h) nofun
          · exact hraised ▸ .rewound sig c₁ _ hround hmask h
        · rw [Bool.not_eq_true] at hraised
          simp only [hraised, Bool.false_eq_true, if_false] at h ⊢
          obtain rfl := Delivered.ran.inj (some.inj h)
          exact .ended sig c₁ hround hmask hraised
      | thrown | crashed =>
        simp only [hend] at h
        exact absurd (some.inj h) nofun

section

variable (h : deliver b fuel c = some (.ran c'))
include h

/-- **The loop never unblocks a signal.** -/
theorem or_sigset_of_deliver : c.sigset ||| c'.sigset = c'.sigset := by
  induction fuel generalizing c with
  | zero => exact absurd h nofun
  | succ fuel ih =>
    have hwider {sig : Taken} {c₁ : Cage} {mask : Sigset} (hround : c.round = some (sig, c₁))
        (hm : c₁.sigset ||| mask = mask) : c.sigset ||| mask = mask := by
      rw [← hm, (round_eq_some hround).2.1, BitVec.or_assoc, ← BitVec.or_assoc c.sigset,
        BitVec.or_self]
    have hbegins := begins_of_deliver h
    generalize deliveries b (fuel + 1) c = ds at hbegins
    cases hbegins with
    | nothing _ heq => rw [heq, BitVec.or_self]
    | skipped sig c₁ hround hrest => exact hwider hround (ih hrest)
    | returned sig c₁ c₂ hround hrest => exact ih (c := { c₂ with sigset := c.sigset }) hrest
    | rewound sig c₁ c₂ hround hmask hrest => exact hwider hround (hmask ▸ ih hrest)
    | ended sig c₁ hround hmask hlow => exact hwider hround (by rw [hmask, BitVec.or_self])

/-- A mask that the loop gains and does not give back shows in the end. -/
theorem or_added_of_deliver {mask added : Sigset} (hmask : c.sigset = mask ||| added)
    (hsame : c'.sigset = mask) : mask ||| added = mask := by
  have := or_sigset_of_deliver h
  rw [hmask, hsame, BitVec.or_assoc, BitVec.or_comm added,
    ← BitVec.or_assoc, BitVec.or_self] at this
  exact this

theorem eq_of_deliveries_eq_nil (hnil : deliveries b fuel c = []) : c' = c := by
  cases fuel with
  | zero => exact absurd h nofun
  | succ fuel =>
    have hbegins := begins_of_deliver h
    rw [hnil] at hbegins
    cases hbegins with
    | nothing _ heq => exact heq

end

variable {d : Delivery} {ds : List Delivery}

theorem leavesWordNormal_cons (h : ds = [] → c'.signalCheckTrigger = d.raised) :
    LeavesWordNormal c (d :: ds) ↔ LeavesWordNormal c' ds := by
  cases ds with
  | nil => simp [LeavesWordNormal, h rfl]
  | cons e es =>
    rw [LeavesWordNormal, LeavesWordNormal, getLast?_cons_cons, getLast?_cons]
    rfl

/-! ## The result -/

/-- What is to be shown of a delivery, with its deliveries. -/
def RestoresIff (c c' : Cage) (ds : List Delivery) : Prop :=
  c'.sigset = c.sigset ∧ c'.signalCheckTrigger = false
    ↔ (∀ d ∈ ds, d.Undone c.sigset) ∧ LeavesWordNormal c ds

/-- A delivery that the code undoes: the rest decides. -/
theorem RestoresIff.cons (h : RestoresIff c₁ c' ds) (hmask : c₁.sigset = c.sigset)
    (hundone : d.Undone c.sigset) (hlast : ds = [] → c₁.signalCheckTrigger = d.raised) :
    RestoresIff c c' (d :: ds) := by
  rw [RestoresIff, hmask] at h
  rw [RestoresIff, h, forall_mem_cons, leavesWordNormal_cons hlast]
  simp only [hundone, true_and]

/-- One that it does not undo: the mask stays wider. -/
theorem restoresIff_of_not_undone (hwider : c'.sigset = c.sigset → d.Undone c.sigset)
    (hd : ¬ d.Undone c.sigset) : RestoresIff c c' (d :: ds) :=
  iff_of_false (fun h => hd (hwider h.1)) fun h => hd (h.1 d mem_cons_self)

/-- The loop goes on with the wider mask. -/
theorem restoresIff_of_unrestored {signo : ℤ} {raised : Bool}
    (hmask : c₁.sigset = c.sigset ||| c.added signo) (hrest : deliver b fuel c₁ = some (.ran c'))
    (hlast : deliveries b fuel c₁ = [] → c₁.signalCheckTrigger = raised)
    (ih : RestoresIff c₁ c' (deliveries b fuel c₁)) :
    RestoresIff c c' (⟨c.added signo, false, raised⟩
      :: deliveries b fuel { c₁ with sigset := c.sigset }) := by
  by_cases hundone : c.sigset ||| c.added signo = c.sigset
  · rw [hundone] at hmask
    have hsame : { c₁ with sigset := c.sigset } = c₁ := by rw [← hmask]
    rw [hsame]
    exact ih.cons hmask (.inr hundone) hlast
  · exact restoresIff_of_not_undone (fun hsame => .inr (or_added_of_deliver hrest hmask hsame))
      fun h => h.elim Bool.false_ne_true hundone

/-- **The delivery leaves the mask and the epoch word as it should exactly when the code undoes each
of its deliveries and the last one leaves the word normal.** -/
theorem deliver_restores_iff (b : Behaviour) (fuel : ℕ) (c c' : Cage)
    (hrun : deliver b fuel c = some (.ran c')) (hdone : c'.lindCheckNoPendingSignal = true) :
    c'.sigset = c.sigset ∧ c'.signalCheckTrigger = false
      ↔ (∀ d ∈ deliveries b fuel c, d.Undone c.sigset)
        ∧ LeavesWordNormal c (deliveries b fuel c) := by
  change RestoresIff c c' (deliveries b fuel c)
  induction fuel generalizing c with
  | zero => exact absurd hrun nofun
  | succ fuel ih =>
    have hbegins := begins_of_deliver hrun
    generalize deliveries b (fuel + 1) c = ds at hbegins ⊢
    cases hbegins with
    | nothing _ heq => simp [RestoresIff, LeavesWordNormal, heq]
    | skipped sig c₁ hround hrest =>
      obtain ⟨-, hmask, hlow⟩ := round_eq_some hround
      refine restoresIff_of_unrestored hmask hrest (fun hnil => hlow ?_) (ih _ hrest)
      exact eq_of_deliveries_eq_nil hrest hnil ▸ hdone
    | returned sig c₁ c₂ hround hrest => exact (ih _ hrest).cons rfl (.inl rfl) fun _ => rfl
    | rewound sig c₁ c₂ hround hmask hrest =>
      exact restoresIff_of_unrestored (hmask.trans (round_eq_some hround).2.1) hrest (fun _ => rfl)
        (ih _ hrest)
    | ended sig c₁ hround hmask hlow =>
      rw [(round_eq_some hround).2.1] at hmask
      by_cases hundone : c.sigset ||| c.added sig.signo = c.sigset
      · simp [RestoresIff, LeavesWordNormal, Delivery.Undone, hmask, hundone, hlow]
      · refine restoresIff_of_not_undone (fun hsame => .inr (hmask.symm.trans hsame)) fun h => ?_
        exact h.elim Bool.false_ne_true hundone

/-- Handlers that return at once. -/
def quietHandlers : Behaviour where
  run _ c := (c, .returned)
  keepsMask _ _ := rfl

/-- A cage whose main thread has these signals to deliver. -/
def cageWith (pending : List ℤ) (signalhandler : ℤ → Option Sigaction) : Cage where
  parent := 1
  pending := pending
  sigset := 0
  signalhandler := signalhandler
  threads := [(threadStartId, ⟨.taking, [], .signal⟩)]
  mainThreadId := threadStartId
  unborn := none
  isDead := false
  exitGroupInitiated := false

/-- `SIGUSR1` has a handler, and `SIGCONT` is left at its default. -/
def handledCage : Cage :=
  cageWith [18, sigusr1, 18] fun signo => if signo = sigusr1 then some ⟨7, 0, 0⟩ else none

theorem deliver_restores_handled :
    ∃ c', deliver quietHandlers 4 handledCage = some (.ran c')
      ∧ c'.sigset = handledCage.sigset ∧ c'.signalCheckTrigger = false := by
  have hran : ∃ c', deliver quietHandlers 4 handledCage = some (.ran c')
      ∧ c'.lindCheckNoPendingSignal = true := ⟨_, rfl, by decide +kernel⟩
  obtain ⟨c', hc', hdone⟩ := hran
  refine ⟨c', hc', (deliver_restores_iff quietHandlers 4 handledCage c' hc' hdone).mpr ⟨?_, ?_⟩⟩
  · decide +kernel
  · decide +kernel

/-- `SIGUSR1` is ignored. -/
def ignoringCage : Cage :=
  cageWith [sigusr1] fun signo => if signo = sigusr1 then some ⟨sigIgn, 0, 0⟩ else none

/-- **An ignored signal stays blocked after it has been delivered.** -/
theorem not_restored_ignored :
    ∃ c', deliver quietHandlers 2 ignoringCage = some (.ran c')
      ∧ c'.lindCheckNoPendingSignal = true
      ∧ c'.sigset = convertSignalMask sigusr1 ∧ c'.sigset ≠ ignoringCage.sigset :=
  ⟨_, rfl, by decide +kernel, by decide +kernel, by decide +kernel⟩

end LindWasm.Signal

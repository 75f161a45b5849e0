import LindWasm.Machinery.Run
import LindWasm.Machinery.Slots
import Mathlib.Data.List.Range
import Mathlib.Tactic.TFAE

/-!
# Grate/Pool — the workers of a grate, and the calls that wait for one

    submit --> admitted --gate--> entered --> running w --> returned --> done
                                     │ ▴
                            no worker▾ │notified
                                   waiting

A call takes a worker from the queue or waits on the condition variable; a worker that comes back
wakes one waiter, but only if the queue was empty. Two workers that come back one after the other
wake one waiter for two workers. `no_stranded_iff`:

* a waiter can be left behind with workers in the queue exactly if calls run in parallel on two
  workers or more;
* it is not along any run in which no worker comes back past a waiter it should have woken.
-/

namespace LindWasm.Grate

open Option List

/-! ## The handler -/

inductive ConcurrencyMode where
  | serialized
  | parallel
  deriving DecidableEq

/-- Where a `submit` call is. -/
inductive Place where
  /-- counted as active, before the gate of serialized calls -/
  | admitted
  /-- about to lock the pool in `take_worker_blocking` -/
  | entered
  /-- on the condition variable -/
  | waiting
  /-- off the condition variable, about to lock the pool again -/
  | woken
  | running (worker : ℕ)
  /-- the worker is back; the gate is still held -/
  | returned
  | done
  deriving DecidableEq

/-- The queue of workers, and the calls. -/
structure GrateHandler where
  concurrencyMode : ConcurrencyMode
  workers : List ℕ
  calls : List Place
  deriving DecidableEq

variable (mode : ConcurrencyMode)

/-- A handler with `n` workers, before any call. -/
def GrateHandler.init (n : ℕ) : GrateHandler :=
  ⟨mode, List.range' 1 n, []⟩

def Place.waits : Place → Bool
  | .waiting => true
  | _ => false

def Place.wakes : Place → Bool
  | .woken => true
  | _ => false

def Place.runs : Place → Bool
  | .running _ => true
  | _ => false

/-- Past the gate, and not yet out. -/
def Place.inside : Place → Bool
  | .entered | .waiting | .woken | .running _ | .returned => true
  | .admitted | .done => false

variable (h : GrateHandler) {i : ℕ} {p : Place} {t : GrateHandler}

/-- The calls on the condition variable. -/
def GrateHandler.waiting : ℕ := h.calls.countP Place.waits

/-- The calls with a wake-up pending. -/
def GrateHandler.woken : ℕ := h.calls.countP Place.wakes

/-! ## The critical sections -/

/-- Pop a worker, or wait: the lock is held from the look at the queue to the wait. -/
def takeWorkerBlocking (i : ℕ) : GrateHandler :=
  match h.workers with
  | worker :: rest => ⟨h.concurrencyMode, rest, h.calls.set i (.running worker)⟩
  | [] => ⟨h.concurrencyMode, [], h.calls.set i .waiting⟩

/-- Wake call `j`, if it waits; with no call waiting the notification is lost. -/
def notifyOne (calls : List Place) (j : ℕ) : Option (List Place) :=
  if calls.countP Place.waits = 0 then some calls
  else if calls[j]? = some .waiting then some (calls.set j .woken)
  else none

/-- Push the worker of call `i` back, and notify if the queue was empty. -/
def returnWorker (i worker j : ℕ) : Option GrateHandler :=
  let calls := h.calls.set i .returned
  let workers := h.workers ++ [worker]
  if h.workers = [] then
    (notifyOne calls j).map fun calls => ⟨h.concurrencyMode, workers, calls⟩
  else some ⟨h.concurrencyMode, workers, calls⟩

inductive PoolOp where
  | submit
  | enter (i : ℕ)
  | take (i : ℕ)
  /-- call `i` returns its worker, and `j` is the one to be woken -/
  | ret (i j : ℕ)
  | leave (i : ℕ)
  /-- a condition variable may also wake a call for no reason -/
  | spurious (i : ℕ)

/-- Nobody holds the gate, or there is none. -/
def GrateHandler.GateFree : Prop :=
  h.concurrencyMode = .serialized → h.calls.countP Place.inside = 0
deriving Decidable

/-- Call `i` is at `p`. -/
def GrateHandler.move (i : ℕ) (p : Place) : GrateHandler :=
  ⟨h.concurrencyMode, h.workers, h.calls.set i p⟩

def poolStep : PoolOp → Option GrateHandler
  | .submit => some ⟨h.concurrencyMode, h.workers, h.calls ++ [.admitted]⟩
  | .enter i =>
      if h.calls[i]? = some .admitted ∧ h.GateFree then some (h.move i .entered) else none
  | .take i =>
      if h.calls[i]? = some .entered ∨ h.calls[i]? = some .woken then some (takeWorkerBlocking h i)
      else none
  | .ret i j =>
      match h.calls[i]? with
      | some (.running worker) => returnWorker h i worker j
      | _ => none
  | .leave i => if h.calls[i]? = some .returned then some (h.move i .done) else none
  | .spurious i => if h.calls[i]? = some .waiting then some (h.move i .woken) else none

/-! ## A call left behind -/

/-- Workers are in the queue, a call waits for one, and no wake-up is pending. -/
def Unheeded : Prop := h.workers ≠ [] ∧ h.waiting ≠ 0 ∧ h.woken = 0

/-- …and nobody else is left to do anything: every other call is over. -/
def Stranded : Prop :=
  Unheeded h ∧ ∀ p ∈ h.calls, p = .waiting ∨ p = .done

/-- A worker that comes back to others in the queue leaves no call waiting, or there are woken calls
enough for all of them. -/
def Heeded : PoolOp → Prop
  | .ret _ _ => h.workers = [] ∨ h.waiting = 0 ∨ h.workers.length < h.woken
  | _ => True

/-! ## What a step can do -/

/-- A step, with the state it is taken from: one case for each outcome of a critical section. -/
inductive Steps (h : GrateHandler) : PoolOp → GrateHandler → Prop where
  | submit : Steps h .submit ⟨h.concurrencyMode, h.workers, h.calls ++ [.admitted]⟩
  | enter {i : ℕ} (hi : h.calls[i]? = some .admitted) (hgate : h.GateFree) :
      Steps h (.enter i) (h.move i .entered)
  | takes {i w : ℕ} {p : Place} {rest : List ℕ} (hi : h.calls[i]? = some p)
      (hp : p = .entered ∨ p = .woken) (hw : h.workers = w :: rest) :
      Steps h (.take i) ⟨h.concurrencyMode, rest, h.calls.set i (.running w)⟩
  | waits {i : ℕ} {p : Place} (hi : h.calls[i]? = some p) (hp : p = .entered ∨ p = .woken)
      (hw : h.workers = []) : Steps h (.take i) (h.move i .waiting)
  | returns {i j w : ℕ} (hi : h.calls[i]? = some (.running w))
      (hquiet : h.workers = [] → (h.calls.set i .returned).countP Place.waits = 0) :
      Steps h (.ret i j) ⟨h.concurrencyMode, h.workers ++ [w], h.calls.set i .returned⟩
  | wakes {i j w : ℕ} (hi : h.calls[i]? = some (.running w)) (hw : h.workers = [])
      (hj : (h.calls.set i .returned)[j]? = some .waiting) :
      Steps h (.ret i j) ⟨h.concurrencyMode, [w], (h.calls.set i .returned).set j .woken⟩
  | leave {i : ℕ} (hi : h.calls[i]? = some .returned) : Steps h (.leave i) (h.move i .done)
  | spurious {i : ℕ} (hi : h.calls[i]? = some .waiting) : Steps h (.spurious i) (h.move i .woken)

section Steps

variable {h t : GrateHandler} {i j : ℕ} {p : Place} {op : PoolOp}

theorem steps_take (hi : h.calls[i]? = some p) (hp : p = .entered ∨ p = .woken) :
    Steps h (.take i) (takeWorkerBlocking h i) := by
  obtain ⟨mode, workers, calls⟩ := h
  cases workers with
  | nil => exact .waits hi hp rfl
  | cons w rest => exact .takes hi hp rfl

theorem steps_returnWorker {w : ℕ} (hi : h.calls[i]? = some (.running w))
    (hs : returnWorker h i w j = some t) : Steps h (.ret i j) t := by
  rw [returnWorker] at hs
  by_cases hw : h.workers = []
  · rw [if_pos hw] at hs
    obtain ⟨calls, hcalls, rfl⟩ := map_eq_some_iff.mp hs
    rw [notifyOne] at hcalls
    by_cases hquiet : (h.calls.set i .returned).countP Place.waits = 0
    · rw [if_pos hquiet] at hcalls
      exact some.inj hcalls ▸ .returns hi fun _ => hquiet
    · rw [if_neg hquiet, ite_none_right_eq_some] at hcalls
      obtain ⟨hj, hcalls⟩ := hcalls
      rw [hw, ← some.inj hcalls]
      exact .wakes hi hw hj
  · rw [if_neg hw] at hs
    exact some.inj hs ▸ .returns hi fun hnil => absurd hnil hw

/-- **Every step is one of these.** -/
theorem steps_of_poolStep (hs : poolStep h op = some t) : Steps h op t := by
  cases op with
  | submit => exact some.inj hs ▸ .submit
  | enter i =>
    rw [poolStep, ite_none_right_eq_some] at hs
    exact some.inj hs.2 ▸ .enter hs.1.1 hs.1.2
  | take i =>
    rw [poolStep, ite_none_right_eq_some] at hs
    obtain ⟨hi | hi, hs⟩ := hs
    · exact some.inj hs ▸ steps_take hi (.inl rfl)
    · exact some.inj hs ▸ steps_take hi (.inr rfl)
  | ret i j =>
    rw [poolStep] at hs
    split at hs
    · next w hi => exact steps_returnWorker hi hs
    · cases hs
  | leave i =>
    rw [poolStep, ite_none_right_eq_some] at hs
    exact some.inj hs.2 ▸ .leave hs.1
  | spurious i =>
    rw [poolStep, ite_none_right_eq_some] at hs
    exact some.inj hs.2 ▸ .spurious hs.1

end Steps

/-! ## Where calls wait, a wake-up is pending for each worker -/

/-- While a call waits, each worker in the queue has a woken call coming for it. -/
def Fed : Prop := h.waiting ≠ 0 → h.workers.length ≤ h.woken

section Fed

variable {h t : GrateHandler} {op : PoolOp} {mode : ConcurrencyMode} {workers : List ℕ}
  {calls : List Place}

theorem Fed.not_unheeded (hfed : Fed h) : ¬ Unheeded h := by
  rintro ⟨hworkers, hwaiting, hwoken⟩
  have := hfed hwaiting
  rw [hwoken, Nat.le_zero, length_eq_zero_iff] at this
  exact hworkers this

theorem fed_set (hi : calls[i]? = some p) (q : Place) :
    Fed ⟨mode, workers, calls.set i q⟩ ↔
      (calls.countP Place.waits + q.waits.toNat ≠ p.waits.toNat →
        workers.length + p.wakes.toNat ≤ calls.countP Place.wakes + q.wakes.toNat) := by
  have h1 := countP_set_add (p := Place.waits) hi q
  have h2 := countP_set_add (p := Place.wakes) hi q
  simp only [Fed, GrateHandler.waiting, GrateHandler.woken]
  omega

theorem countP_pos_of_getElem? (hi : calls[i]? = some p) {c : Place → Bool} (hc : c p = true) :
    0 < calls.countP c :=
  countP_pos_iff.mpr ⟨p, mem_of_getElem? hi, hc⟩

/-- **A step keeps them fed exactly if it is heeded.** -/
theorem fed_iff_heeded (hfed : Fed h) (hs : Steps h op t) : Fed t ↔ Heeded h op := by
  have hfed' : h.waiting ≠ 0 → h.workers.length ≤ h.woken := hfed
  cases hs with
  | submit =>
    refine iff_of_true ?_ trivial
    simpa [Fed, GrateHandler.waiting, GrateHandler.woken, Place.waits, Place.wakes] using hfed
  | enter hi => exact iff_of_true ((fed_set hi _).mpr hfed) trivial
  | leave hi => exact iff_of_true ((fed_set hi _).mpr hfed) trivial
  | spurious hi =>
    have hpos : h.waiting ≠ 0 := (countP_pos_of_getElem? hi rfl).ne'
    exact iff_of_true ((fed_set hi _).mpr fun _ => Nat.le_succ_of_le (hfed' hpos)) trivial
  | takes hi hp hw =>
    rw [hw, length_cons] at hfed'
    refine iff_of_true ((fed_set hi _).mpr fun hwait => ?_) trivial
    obtain rfl | rfl := hp
    · exact Nat.le_of_succ_le (hfed' hwait)
    · exact hfed' hwait
  | waits hi hp hw =>
    refine iff_of_true ((fed_set hi _).mpr fun _ => ?_) trivial
    rw [hw]
    obtain rfl | rfl := hp
    · exact Nat.zero_le _
    · exact countP_pos_of_getElem? hi rfl
  | wakes hi hw hj =>
    exact iff_of_true ((fed_set hj _).mpr fun _ => Nat.le_add_left 1 _) (.inl hw)
  | returns hi hquiet =>
    have hwaiting := countP_set_add (p := Place.waits) hi .returned
    refine (fed_set hi _).trans ?_
    rw [length_append, length_singleton]
    constructor
    · intro hlt
      by_cases hwait : h.waiting = 0
      · exact .inr (.inl hwait)
      · exact .inr (.inr (hlt hwait))
    · rintro (hw | hwait | hlt) hne
      · exact absurd (hwaiting.symm.trans (hquiet hw)) hne
      · exact absurd hwait hne
      · exact hlt

end Fed

/-! ## One worker, or one call at a time -/

section Inv

variable {h t : GrateHandler} {op : PoolOp} {mode : ConcurrencyMode} {n : ℕ} {workers : List ℕ}
  {calls : List Place}

/-- Each worker is in the queue or with a call. -/
def Whole (n : ℕ) (h : GrateHandler) : Prop := h.workers.length + h.calls.countP Place.runs = n

/-- Serialized calls are past the gate one at a time. -/
def Solo (h : GrateHandler) : Prop :=
  h.concurrencyMode = .serialized → h.calls.countP Place.inside ≤ 1

theorem whole_set (hi : calls[i]? = some p) (q : Place) :
    Whole n ⟨mode, workers, calls.set i q⟩ ↔
      workers.length + calls.countP Place.runs + q.runs.toNat = n + p.runs.toNat := by
  have h1 := countP_set_add (p := Place.runs) hi q
  simp only [Whole]
  omega

theorem Whole.step (hwhole : Whole n h) (hs : Steps h op t) : Whole n t := by
  have hn : h.workers.length + h.calls.countP Place.runs = n := hwhole
  cases hs with
  | submit => simpa [Whole, Place.runs] using hn
  | enter hi | leave hi | spurious hi => exact (whole_set hi _).mpr hn
  | waits hi hp =>
    refine (whole_set hi _).mpr ?_
    obtain rfl | rfl := hp <;> exact hn
  | takes hi hp hw =>
    rw [hw, length_cons] at hn
    refine (whole_set hi _).mpr ?_
    obtain rfl | rfl := hp <;> simp only [Place.runs, Bool.toNat_true, Bool.toNat_false] <;> omega
  | returns hi =>
    refine (whole_set hi _).mpr ?_
    rw [length_append, length_singleton]
    simp only [Place.runs, Bool.toNat_true, Bool.toNat_false]
    omega
  | wakes hi hw hj =>
    have h1 := countP_set_add (p := Place.runs) hi .returned
    rw [hw, length_nil] at hn
    refine (whole_set hj _).mpr ?_
    rw [length_singleton]
    simp only [Place.runs, Bool.toNat_true, Bool.toNat_false] at h1 ⊢
    omega

theorem solo_set (hi : calls[i]? = some p) (q : Place) :
    Solo ⟨mode, workers, calls.set i q⟩ ↔ (mode = .serialized →
      calls.countP Place.inside + q.inside.toNat ≤ 1 + p.inside.toNat) := by
  have h1 := countP_set_add (p := Place.inside) hi q
  refine imp_congr_right fun _ => ?_
  show (calls.set i q).countP Place.inside ≤ 1 ↔ _
  omega

theorem Solo.step (hsolo : Solo h) (hs : Steps h op t) : Solo t := by
  cases hs with
  | submit => simpa [Solo, Place.inside] using hsolo
  | enter hi hgate =>
    refine (solo_set hi _).mpr fun hmode => ?_
    rw [hgate hmode]
    exact Nat.le_refl 1
  | leave hi => exact (solo_set hi _).mpr fun hmode => Nat.le_succ_of_le (hsolo hmode)
  | spurious hi => exact (solo_set hi _).mpr fun hmode => Nat.succ_le_succ (hsolo hmode)
  | returns hi => exact (solo_set hi _).mpr fun hmode => Nat.succ_le_succ (hsolo hmode)
  | waits hi hp | takes hi hp =>
    refine (solo_set hi _).mpr fun hmode => ?_
    obtain rfl | rfl := hp <;> exact Nat.succ_le_succ (hsolo hmode)
  | wakes hi hw hj =>
    refine (solo_set hj _).mpr fun hmode => ?_
    rw [countP_set_of_eq (a := .returned) hi rfl]
    exact Nat.succ_le_succ (hsolo hmode)

/-- A call that waits and one that runs are two that are past the gate. -/
theorem waits_add_runs_le (calls : List Place) :
    calls.countP Place.waits + calls.countP Place.runs ≤ calls.countP Place.inside := by
  induction calls with
  | nil => exact Nat.le_refl 0
  | cons p calls ih =>
    rw [countP_cons, countP_cons, countP_cons]
    cases p <;> simp only [Place.waits, Place.runs, Place.inside] <;> grind

theorem waits_add_wakes_le (calls : List Place) :
    calls.countP Place.waits + calls.countP Place.wakes ≤ calls.countP Place.inside := by
  induction calls with
  | nil => exact Nat.le_refl 0
  | cons p calls ih =>
    rw [countP_cons, countP_cons, countP_cons]
    cases p <;> simp only [Place.waits, Place.wakes, Place.inside] <;> grind

/-- **One worker, or one call at a time**: a worker never comes back to others with a call
waiting. -/
theorem heeded_of_few (hwhole : Whole n h) (hsolo : Solo h)
    (hfew : h.concurrencyMode = .serialized ∨ n ≤ 1) (hs : Steps h op t) : Heeded h op := by
  have key : 0 < h.calls.countP Place.runs →
      h.workers = [] ∨ h.waiting = 0 ∨ h.workers.length < h.woken := by
    intro hruns
    obtain hmode | hn := hfew
    · have h1 := waits_add_runs_le h.calls
      have h2 := hsolo hmode
      exact .inr (.inl (by unfold GrateHandler.waiting; omega))
    · refine .inl (length_eq_zero_iff.mp ?_)
      have hsum : h.workers.length + h.calls.countP Place.runs = n := hwhole
      omega
  cases hs with
  | returns hi => exact key (countP_pos_of_getElem? hi rfl)
  | wakes hi => exact key (countP_pos_of_getElem? hi rfl)
  | _ => exact trivial

theorem mode_step (hs : Steps h op t) : t.concurrencyMode = h.concurrencyMode := by
  cases hs <;> rfl

section

variable (mode) (n)

theorem whole_init : Whole n (.init mode n) :=
  length_range'

theorem solo_init : Solo (.init mode n) := fun _ => Nat.zero_le 1

theorem fed_init : Fed (.init mode n) := fun h => absurd rfl h

end

end Inv

/-! ## A call left behind -/

section Run

variable {mode : ConcurrencyMode} {u : GrateHandler}

/-- Some run leads from one to the other. -/
def Reaches (h t : GrateHandler) : Prop := ∃ ops, runSteps poolStep h ops = some t

theorem Reaches.refl (h : GrateHandler) : Reaches h h := ⟨[], rfl⟩

theorem Reaches.trans {h : GrateHandler} : Reaches h t → Reaches t u → Reaches h u := by
  rintro ⟨ops, hops⟩ ⟨ops', hops'⟩
  exact ⟨ops ++ ops', runSteps_append.mpr ⟨t, hops, hops'⟩⟩

theorem Reaches.step {h : GrateHandler} (op : PoolOp) (hs : poolStep h op = some t)
    (hr : Reaches t u) : Reaches h u := by
  obtain ⟨ops, hops⟩ := hr
  exact ⟨op :: ops, runSteps_cons_eq_some.mpr ⟨t, hs, hops⟩⟩

/-! ### A call in the list, and its move -/

variable {before after : List Place} {p q : Place} {workers : List ℕ}

theorem getElem?_mid : (before ++ p :: after)[before.length]? = some p := by
  rw [getElem?_append_right (Nat.le_refl _), Nat.sub_self]
  rfl

theorem set_mid : (before ++ p :: after).set before.length q = before ++ q :: after := by
  rw [set_append_right _ _ (Nat.le_refl _), Nat.sub_self]
  rfl

section

variable (w : ℕ) (workers : List ℕ) (calls before after : List Place)

theorem reaches_entered :
    Reaches ⟨.parallel, workers, calls⟩ ⟨.parallel, workers, calls ++ [.entered]⟩ := by
  have hgate : GrateHandler.GateFree ⟨.parallel, workers, calls ++ [.admitted]⟩ :=
    fun hmode => ConcurrencyMode.noConfusion hmode
  refine .step .submit rfl (.step (.enter calls.length) ?_ (.refl _))
  rw [poolStep, if_pos ⟨getElem?_mid, hgate⟩]
  exact congrArg (fun c => some (GrateHandler.mk _ workers c)) set_mid

theorem reaches_running :
    Reaches ⟨.parallel, w :: workers, calls⟩ ⟨.parallel, workers, calls ++ [.running w]⟩ := by
  refine (reaches_entered _ calls).trans (.step (.take calls.length) ?_ (.refl _))
  rw [poolStep, if_pos (.inl getElem?_mid)]
  exact congrArg (fun c => some (GrateHandler.mk _ workers c)) set_mid

theorem reaches_waiting : Reaches ⟨.parallel, [], calls⟩ ⟨.parallel, [], calls ++ [.waiting]⟩ := by
  refine (reaches_entered _ calls).trans (.step (.take calls.length) ?_ (.refl _))
  rw [poolStep, if_pos (.inl getElem?_mid)]
  exact congrArg (fun c => some (GrateHandler.mk _ [] c)) set_mid

theorem reaches_all_running :
    Reaches ⟨.parallel, workers, calls⟩ ⟨.parallel, [], calls ++ workers.map .running⟩ := by
  induction workers generalizing calls with
  | nil => exact (append_nil calls).symm ▸ .refl _
  | cons w workers ih =>
    have hnext := ih (calls ++ [.running w])
    rw [append_assoc, singleton_append] at hnext
    exact (reaches_running w workers calls).trans hnext

theorem reaches_done :
    Reaches ⟨mode, workers, before ++ .returned :: after⟩
      ⟨mode, workers, before ++ .done :: after⟩ := by
  refine .step (.leave before.length) ?_ (.refl _)
  rw [poolStep, if_pos getElem?_mid]
  exact congrArg (fun c => some (GrateHandler.mk _ workers c)) set_mid

theorem reaches_taken :
    Reaches ⟨mode, w :: workers, before ++ .woken :: after⟩
      ⟨mode, workers, before ++ .running w :: after⟩ := by
  refine .step (.take before.length) ?_ (.refl _)
  rw [poolStep, if_pos (.inr getElem?_mid)]
  exact congrArg (fun c => some (GrateHandler.mk mode workers c)) set_mid

end

/-- A worker comes back to others, and nobody is told. -/
theorem reaches_back (hne : workers ≠ []) (w : ℕ) (before after : List Place) :
    Reaches ⟨mode, workers, before ++ .running w :: after⟩
      ⟨mode, workers ++ [w], before ++ .done :: after⟩ := by
  refine .step (.ret before.length 0) ?_ (reaches_done _ before after)
  rw [poolStep, getElem?_mid]
  dsimp only
  rw [returnWorker, if_neg hne]
  exact congrArg (fun c => some (GrateHandler.mk _ (workers ++ [w]) c)) set_mid

theorem reaches_all_back (given : List ℕ) (hne : workers ≠ []) (before after : List Place) :
    Reaches ⟨mode, workers, before ++ (given.map .running ++ after)⟩
      ⟨mode, workers ++ given, before ++ (given.map (fun _ => .done) ++ after)⟩ := by
  induction given generalizing workers before with
  | nil => exact (append_nil workers).symm ▸ .refl _
  | cons w given ih =>
    refine (reaches_back hne w before _).trans ?_
    have hnext := ih (append_ne_nil_of_left_ne_nil hne [w]) (before ++ [.done])
    simpa using hnext

/-- The first worker comes back to an empty queue, and wakes the first of two that wait. -/
theorem reaches_woken (w : ℕ) (mid after : List Place) :
    Reaches ⟨mode, [], .running w :: (mid ++ .waiting :: after)⟩
      ⟨mode, [w], .done :: (mid ++ .woken :: after)⟩ := by
  refine .step (.ret 0 (mid.length + 1)) ?_ (reaches_done [w] [] (mid ++ .woken :: after))
  show returnWorker ⟨mode, [], .running w :: (mid ++ .waiting :: after)⟩ 0 w (mid.length + 1) = _
  have hj : (Place.returned :: mid ++ .waiting :: after)[(Place.returned :: mid).length]?
      = some .waiting := getElem?_mid
  have hwaits : (Place.returned :: mid ++ .waiting :: after).countP Place.waits ≠ 0 :=
    (countP_pos_of_getElem? hj rfl).ne'
  rw [returnWorker, if_pos rfl]
  show (notifyOne (.returned :: mid ++ .waiting :: after) (Place.returned :: mid).length).map _ = _
  rw [notifyOne, if_neg hwaits, if_pos hj, set_mid]
  rfl

theorem stranded_of {calls : List Place} (hworkers : workers ≠ []) (hwaiting : .waiting ∈ calls)
    (hall : ∀ p ∈ calls, p = .waiting ∨ p = .done) : Stranded ⟨mode, workers, calls⟩ := by
  refine ⟨⟨hworkers, ?_, ?_⟩, hall⟩
  · exact (countP_pos_iff.mpr ⟨_, hwaiting, rfl⟩).ne'
  · refine countP_eq_zero.mpr fun p hp => ?_
    obtain rfl | rfl := hall p hp
    · exact Bool.false_ne_true
    · exact Bool.false_ne_true

/-- **Two workers or more**: the first to come back wakes one of two calls that wait, the others
come back past the second, and so does the worker of the one that was woken. -/
theorem exists_stranded (w w' : ℕ) (workers : List ℕ) :
    ∃ t, Reaches ⟨.parallel, w :: w' :: workers, []⟩ t ∧ Stranded t := by
  let mid : List Place := (w' :: workers).map .running
  let gone : List Place := .done :: (w' :: workers).map fun _ => .done
  have h1 : Reaches ⟨.parallel, w :: w' :: workers, []⟩
      ⟨.parallel, [], .running w :: (mid ++ .waiting :: [.waiting])⟩ := by
    have := ((reaches_all_running (w :: w' :: workers) []).trans (reaches_waiting _)).trans
      (reaches_waiting _)
    simpa [mid] using this
  have h2 : Reaches _ ⟨.parallel, [w], .done :: (mid ++ .woken :: [.waiting])⟩ :=
    reaches_woken w mid [.waiting]
  have h3 : Reaches _ ⟨.parallel, w :: w' :: workers, gone ++ .woken :: [.waiting]⟩ :=
    reaches_all_back (w' :: workers) (cons_ne_nil w []) [.done] (.woken :: [.waiting])
  have h4 : Reaches _ ⟨.parallel, w' :: workers, gone ++ .running w :: [.waiting]⟩ :=
    reaches_taken w (w' :: workers) gone [.waiting]
  have h5 : Reaches _ ⟨.parallel, w' :: workers ++ [w], gone ++ .done :: [.waiting]⟩ :=
    reaches_back (cons_ne_nil w' workers) w gone [.waiting]
  refine ⟨_, (((h1.trans h2).trans h3).trans h4).trans h5, stranded_of ?_ ?_ ?_⟩
  · exact cons_ne_nil w' _
  · exact mem_append_right _ (mem_cons_of_mem _ mem_cons_self)
  · intro p hp
    rw [mem_append, mem_pair, mem_cons] at hp
    obtain (rfl | hp) | rfl | rfl := hp
    · exact .inr rfl
    · obtain ⟨-, -, rfl⟩ := mem_map.mp hp
      exact .inr rfl
    · exact .inr rfl
    · exact .inl rfl

end Run

/-! ## The handlers that strand nobody -/

/-- What every run of a handler with `n` workers keeps. -/
structure PoolInv (n : ℕ) (h : GrateHandler) : Prop where
  mode_eq : h.concurrencyMode = mode
  whole : Whole n h
  solo : Solo h

theorem PoolInv.step {mode : ConcurrencyMode} {n : ℕ} {h : GrateHandler} {op : PoolOp}
    (hinv : PoolInv mode n h) (hs : Steps h op t) : PoolInv mode n t :=
  ⟨(mode_step hs).trans hinv.mode_eq, hinv.whole.step hs, hinv.solo.step hs⟩

section Handlers

variable {mode : ConcurrencyMode} {n : ℕ} {ops : List PoolOp} {t : GrateHandler}

theorem poolInv_init (mode : ConcurrencyMode) (n : ℕ) : PoolInv mode n (.init mode n) :=
  ⟨rfl, whole_init mode n, solo_init mode n⟩

theorem fed_of_stepsOk (hrun : runSteps poolStep (.init mode n) ops = some t)
    (hok : StepsOk poolStep Heeded (.init mode n) ops) : Fed t :=
  inv_of_stepsOk (fun _ _ _ hfed hop hs => (fed_iff_heeded hfed (steps_of_poolStep hs)).mpr hop)
    (fed_init mode n) hok hrun

/-- With one worker, or one call at a time, every step of every run is heeded. -/
theorem stepsOk_of_few (hfew : mode = .serialized ∨ n ≤ 1)
    (hrun : runSteps poolStep (.init mode n) ops = some t) :
    StepsOk poolStep Heeded (.init mode n) ops := by
  have hheeded : ∀ h op u, Fed h ∧ PoolInv mode n h → poolStep h op = some u → Heeded h op :=
    fun h op u hinv hs => heeded_of_few hinv.2.whole hinv.2.solo (hinv.2.mode_eq.symm ▸ hfew)
      (steps_of_poolStep hs)
  have hstep : ∀ h op u, Fed h ∧ PoolInv mode n h → poolStep h op = some u →
      (Fed u ∧ PoolInv mode n u ↔ Heeded h op) := fun h op u hinv hs =>
    (and_iff_left (hinv.2.step (steps_of_poolStep hs))).trans
      (fed_iff_heeded hinv.1 (steps_of_poolStep hs))
  have hinit := And.intro (fed_init mode n) (poolInv_init mode n)
  refine (stepsOk_iff_forall_inv hstep hinit hrun).mp fun bs cs u _ hu => ?_
  exact inv_of_runSteps (fun h op u hinv hs => (hstep h op u hinv hs).mpr (hheeded h op u hinv hs))
    hinit hu

theorem few_of_not_stranded
    (hnone : ∀ ops t, runSteps poolStep (.init mode n) ops = some t → ¬ Stranded t) :
    mode = .serialized ∨ n ≤ 1 := by
  by_contra hmany
  obtain ⟨hmode, hn⟩ := not_or.mp hmany
  obtain ⟨k, rfl⟩ : ∃ k, n = k + 2 := ⟨n - 2, by omega⟩
  cases mode with
  | serialized => exact hmode rfl
  | parallel =>
    obtain ⟨t, ⟨ops, hops⟩, hstranded⟩ := exists_stranded 1 2 (range' 3 k)
    exact hnone ops t hops hstranded

/-- **No call is left behind** with workers in the queue along a run in which no worker comes back
past a call it should have woken.  All runs of a handler are such, and none strands a call, exactly
if it takes one call at a time or has at most one worker. -/
theorem no_stranded_iff (mode : ConcurrencyMode) (n : ℕ) :
    (∀ ops t, runSteps poolStep (.init mode n) ops = some t →
      StepsOk poolStep Heeded (.init mode n) ops → ¬ Unheeded t) ∧
    List.TFAE [
      ∀ ops t, runSteps poolStep (.init mode n) ops = some t → ¬ Stranded t,
      ∀ ops t, runSteps poolStep (.init mode n) ops = some t → ¬ Unheeded t,
      ∀ ops t, runSteps poolStep (.init mode n) ops = some t →
        StepsOk poolStep Heeded (.init mode n) ops,
      mode = .serialized ∨ n ≤ 1] := by
  have hheeded : ∀ ops t, runSteps poolStep (.init mode n) ops = some t →
      StepsOk poolStep Heeded (.init mode n) ops → ¬ Unheeded t :=
    fun ops t hrun hok => (fed_of_stepsOk hrun hok).not_unheeded
  refine ⟨hheeded, ?_⟩
  tfae_have 1 → 4 := few_of_not_stranded
  tfae_have 4 → 3 := fun hfew ops t hrun => stepsOk_of_few hfew hrun
  tfae_have 3 → 2 := fun hok ops t hrun => hheeded ops t hrun (hok ops t hrun)
  tfae_have 2 → 1 := fun hnone ops t hrun hstranded => hnone ops t hrun hstranded.1
  tfae_finish

/-- **Serialized calls exclude each other and never wait**: one of them is past the gate at a time,
and if there is a worker at all it finds one in the queue. -/
theorem serialized_run (n : ℕ) (ops : List PoolOp) (hn : 0 < n)
    (hrun : runSteps poolStep (.init .serialized n) ops = some t) :
    t.calls.countP Place.inside ≤ 1 ∧ t.waiting = 0 := by
  have hinv : PoolInv .serialized n t :=
    inv_of_runSteps (fun _ _ _ hinv hs => hinv.step (steps_of_poolStep hs)) (poolInv_init _ n) hrun
  have hsolo := hinv.solo hinv.mode_eq
  refine ⟨hsolo, ?_⟩
  by_contra hwaiting
  -- a call that waits is alone inside: the workers are all in the queue, and no wake-up is pending
  have hfed := fed_of_stepsOk hrun (stepsOk_of_few (.inl rfl) hrun) hwaiting
  have hwhole : t.workers.length + t.calls.countP Place.runs = n := hinv.whole
  have hruns := waits_add_runs_le t.calls
  have hwakes := waits_add_wakes_le t.calls
  simp only [GrateHandler.waiting, GrateHandler.woken] at hwaiting hfed
  omega

theorem serialized_run_two : ∃ t,
    runSteps poolStep (.init .serialized 2) [.submit, .submit, .enter 0, .take 0, .ret 0 0] = some t
      ∧ t.calls.countP Place.inside ≤ 1 ∧ t.waiting = 0 :=
  ⟨_, rfl, serialized_run 2 [.submit, .submit, .enter 0, .take 0, .ret 0 0] (by decide) rfl⟩

/-- Two calls run on the two workers and two wait; the worker that comes back first wakes one of
them, and when the second is back and that one is through, the other is still there. -/
def strandingRun : List PoolOp :=
  [.submit, .submit, .submit, .submit, .enter 0, .enter 1, .enter 2, .enter 3,
   .take 0, .take 1, .take 2, .take 3, .ret 0 2, .leave 0, .ret 1 0, .leave 1,
   .take 2, .ret 2 0, .leave 2]

/-- **A call waits for ever with both workers in the queue.** -/
theorem not_no_stranded :
    ∃ t, runSteps poolStep (.init .parallel 2) strandingRun = some t ∧
      t.workers = [2, 1] ∧ t.calls = [.done, .done, .done, .waiting] ∧ Stranded t := by
  refine ⟨_, rfl, rfl, rfl, ⟨cons_ne_nil _ _, ?_, rfl⟩, ?_⟩
  · decide
  · decide

end Handlers

end LindWasm.Grate

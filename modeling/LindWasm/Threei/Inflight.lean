import LindWasm.Machinery.Run
import LindWasm.Machinery.Slots

/-!
# Threei/Inflight — calls into a grate against its removal

    dispatch   enter (count up) --> test is_dead --> run --> return --> leave (count down)
    teardown   set is_dead --> observe a count of 0 --> remove

`make_syscall` and `dispatch_lib_call` enter a grate the same way, and every exit path ends in
`cage_finalize`. A dispatch touches the words of one cage only, so that the state is that of one
cage with any number of calls into it. The count is right while the cage is there (`inflight_run`);
that no call runs in a removed cage, and that the count is right to the end, takes a dead cage at
the observation (`quiet_run`), which the path that ends with the last thread's exit does not provide
(`not_quiet_lastThread`).
-/

namespace LindWasm.Threei.Inflight

open List

/-- Where a dispatch is; `returned` has left the grate and not yet counted down. -/
inductive Phase where
  | entered
  | running
  | returned
  | done
  deriving DecidableEq

/-- The call is between its increment and its decrement. -/
def Phase.counted : Phase → Bool
  | .entered | .running | .returned => true
  | .done => false

/-- The cage's words, the calls into it so far, and whether `cage_finalize` has seen a count of
0. -/
structure State where
  present : Bool
  isDead : Bool
  grateInflight : ℕ
  calls : List Phase
  observed : Bool

/-- A cage no call has been made into yet. -/
def State.start : State := ⟨true, false, 0, [], false⟩

inductive Op where
  | enter
  | test (i : ℕ)
  | ret (i : ℕ)
  | leave (i : ℕ)
  | setDead
  | observe
  | remove

/-- The look-up and the increment; a call into a removed cage is over at once. -/
def State.enter (s : State) : State :=
  if s.present then
    { s with grateInflight := s.grateInflight + 1, calls := s.calls ++ [.entered] }
  else { s with calls := s.calls ++ [.done] }

/-- The second look at `is_dead`, which takes the call back in a dead cage. -/
def State.test (s : State) (i : ℕ) : State :=
  if s.isDead then
    { s with grateInflight := s.grateInflight - 1, calls := s.calls.set i .done }
  else { s with calls := s.calls.set i .running }

/-- The decrement, for which the cage is looked up again. -/
def State.leave (s : State) (i : ℕ) : State :=
  { s with
    grateInflight := if s.present then s.grateInflight - 1 else s.grateInflight
    calls := s.calls.set i .done }

def Op.Possible (s : State) : Op → Prop
  | .enter | .setDead => True
  | .test i => s.calls[i]? = some .entered
  | .ret i => s.calls[i]? = some .running
  | .leave i => s.calls[i]? = some .returned
  | .observe => s.grateInflight = 0
  | .remove => s.observed = true

def Op.apply (s : State) : Op → State
  | .enter => s.enter
  | .test i => s.test i
  | .ret i => { s with calls := s.calls.set i .returned }
  | .leave i => s.leave i
  | .setDead => { s with isDead := true }
  | .observe => { s with observed := true }
  | .remove => { s with present := false }

instance decidablePossible (s : State) : (op : Op) → Decidable (op.Possible s) :=
  fun op => by cases op <;> dsimp only [Op.Possible] <;> infer_instance

/-- One step of a dispatch or of the teardown; the spinning loop of `cage_finalize` goes on until a
count of 0 is there to observe. -/
def step : State → Op → Option State := guardedStep (fun s op => op.Possible s) Op.apply

/-- The count is 0 while no call is under way. -/
def Counted (s : State) : Prop := (∀ p ∈ s.calls, p.counted = false) → s.grateInflight = 0

/-- No call runs in a cage that has been removed. -/
def Quiet (s : State) : Prop := s.present = false → Phase.running ∉ s.calls

/-! ## The count -/

variable {s s' : State} {i : ℕ} {op : Op}

/-- The count is the number of calls under way. -/
def Exact (s : State) : Prop := s.grateInflight = s.calls.countP Phase.counted

theorem Exact.enter (h : Exact s) : Exact s.enter := by
  rw [State.enter]
  split
  · rw [Exact, countP_append, ← h]
    rfl
  · rw [Exact, countP_append]
    exact h

theorem Exact.test (h : Exact s) (hi : s.calls[i]? = some .entered) : Exact (s.test i) := by
  rw [State.test]
  split
  · exact (congrArg (· - 1) h).trans (countP_set_of_neg hi rfl rfl).symm
  · exact h.trans (countP_set_of_eq (a := .running) hi rfl).symm

/-- **Every step keeps the count**, if a call that leaves finds the cage. -/
theorem Exact.apply (h : Exact s) (hop : op.Possible s)
    (hpresent : ∀ i, op = .leave i → s.present = true) : Exact (op.apply s) := by
  cases op with
  | enter => exact h.enter
  | test i => exact h.test hop
  | ret i => exact h.trans (countP_set_of_eq (a := .returned) hop rfl).symm
  | leave i =>
    rw [Op.apply, State.leave, Exact, if_pos (hpresent i rfl), countP_set_of_neg hop rfl rfl, h]
  | setDead | observe | remove => exact h

theorem Exact.counted (h : Exact s) : Counted s := by
  intro hcalls
  rw [h, countP_eq_zero]
  intro p hmem
  rw [hcalls p hmem]
  exact Bool.false_ne_true

theorem present_of_apply (h : (op.apply s).present = true) : s.present = true := by
  cases op with
  | remove => cases h
  | enter =>
    rw [Op.apply, State.enter] at h
    split at h <;> exact h
  | test i =>
    rw [Op.apply, State.test] at h
    split at h <;> exact h
  | ret | leave | setDead | observe => exact h

/-! ## The removal -/

/-- What `cage_finalize` may rely on from its observation on: the cage is dead, and no call got past
the test. -/
structure Drained (s : State) : Prop where
  observed : s.present = false → s.observed = true
  isDead : s.observed = true → s.isDead = true
  halted : s.observed = true → ∀ p ∈ s.calls, p = .entered ∨ p = .done

/-- The cage is dead when a count of 0 is observed. -/
def Op.DeadFirst (s : State) : Op → Prop
  | .observe => s.isDead = true
  | _ => True

instance decidableDeadFirst (s : State) : (op : Op) → Decidable (op.DeadFirst s) :=
  fun op => by cases op <;> dsimp only [Op.DeadFirst] <;> infer_instance

theorem Exact.observe (h : Exact s) (hdead : s.isDead = true)
    (hzero : s.grateInflight = 0) : Drained { s with observed := true } := by
  refine ⟨fun _ => rfl, fun _ => hdead, fun _ p hp => .inr ?_⟩
  rw [h, countP_eq_zero] at hzero
  cases p with
  | done => rfl
  | entered | running | returned => exact absurd rfl (hzero _ hp)

section

variable (h : Drained s)
include h

theorem Drained.enter : Drained s.enter := by
  rw [State.enter]
  split
  · refine ⟨h.observed, h.isDead, fun hobs p hp => ?_⟩
    rcases mem_append.mp hp with hold | hnew
    · exact h.halted hobs p hold
    · exact .inl (mem_singleton.mp hnew)
  · refine ⟨h.observed, h.isDead, fun hobs p hp => ?_⟩
    rcases mem_append.mp hp with hold | hnew
    · exact h.halted hobs p hold
    · exact .inr (mem_singleton.mp hnew)

/-- A call that gets past the test does so before the observation. -/
theorem Drained.test : Drained (s.test i) := by
  rw [State.test]
  split
  · refine ⟨h.observed, h.isDead, fun hobs p hp => ?_⟩
    rcases mem_or_eq_of_mem_set hp with hold | rfl
    · exact h.halted hobs p hold
    · exact .inr rfl
  · next halive => exact ⟨h.observed, h.isDead, fun hobs => absurd (h.isDead hobs) halive⟩

/-- After the observation there is no call to return or to leave. -/
theorem Drained.not_observed {p : Phase} (hi : s.calls[i]? = some p)
    (hentered : p ≠ .entered) (hdone : p ≠ .done) : s.observed ≠ true := by
  intro hobs
  rcases h.halted hobs p (mem_of_getElem? hi) with heq | heq
  · exact hentered heq
  · exact hdone heq

theorem Drained.apply (hexact : Exact s) (hop : op.Possible s) (hok : op.DeadFirst s) :
    Drained (op.apply s) := by
  cases op with
  | enter => exact h.enter
  | test i => exact h.test
  | ret i =>
    have hobs := h.not_observed hop (by decide) (by decide)
    exact ⟨h.observed, h.isDead, fun habs => absurd habs hobs⟩
  | leave i =>
    have hobs := h.not_observed hop (by decide) (by decide)
    exact ⟨h.observed, h.isDead, fun habs => absurd habs hobs⟩
  | setDead => exact ⟨h.observed, fun _ => rfl, h.halted⟩
  | observe => exact hexact.observe hok hop
  | remove => exact ⟨fun _ => hop, h.isDead, h.halted⟩

theorem Drained.quiet : Quiet s := by
  intro hgone hrunning
  rcases h.halted (h.observed hgone) _ hrunning with heq | heq <;> cases heq

end

/-! ## Every run -/

theorem exact_start : Exact .start := rfl

theorem drained_start : Drained .start :=
  ⟨fun h => absurd h.symm Bool.false_ne_true, fun h => absurd h Bool.false_ne_true,
    fun h => absurd h Bool.false_ne_true⟩

theorem exact_step (h : s.present = true → Exact s) (hstep : step s op = some s')
    (hpresent : s'.present = true) : Exact s' := by
  obtain ⟨hop, rfl⟩ := guardedStep_eq_some.mp hstep
  have hpresent := present_of_apply hpresent
  exact (h hpresent).apply hop fun _ _ => hpresent

/-- **The count is the number of calls under way in every run** while the cage is there, whichever
way it ends: a call that is to count down finds it above 0. -/
theorem inflight_run (ops : List Op) (hrun : runSteps step .start ops = some s)
    (hpresent : s.present = true) : s.grateInflight = s.calls.countP Phase.counted ∧
      ∀ p ∈ s.calls, p.counted = true → 0 < s.grateInflight := by
  have hexact : s.grateInflight = _ :=
    inv_of_runSteps (fun _ _ _ h hstep => exact_step h hstep) (fun _ => exact_start) hrun hpresent
  refine ⟨hexact, fun p hmem hp => ?_⟩
  rw [hexact]
  exact countP_pos_iff.mpr ⟨p, hmem, hp⟩

theorem inflight_run_two : ∃ s, runSteps step .start [.enter, .test 0, .enter, .ret 0] = some s ∧
    s.grateInflight = s.calls.countP Phase.counted ∧
      ∀ p ∈ s.calls, p.counted = true → 0 < s.grateInflight :=
  ⟨_, rfl, inflight_run [.enter, .test 0, .enter, .ret 0] rfl rfl⟩

/-- What holds along the runs that observe the count of a dead cage only. -/
structure Sound (s : State) : Prop where
  exact : Exact s
  drained : Drained s

theorem Sound.step (h : Sound s) (hok : op.DeadFirst s) (hstep : step s op = some s') :
    Sound s' := by
  obtain ⟨hop, rfl⟩ := guardedStep_eq_some.mp hstep
  refine ⟨h.exact.apply hop fun i hi => ?_, h.drained.apply h.exact hop hok⟩
  -- a call that is to leave is there, so that nothing has been observed yet
  subst hi
  by_contra hgone
  exact h.drained.not_observed hop (by decide) (by decide)
    (h.drained.observed (Bool.eq_false_iff.mpr hgone))

/-- **No call runs in a removed cage, in any run that observes the count of a dead cage only**, and
the count is right throughout, after the removal too. -/
theorem quiet_run {ops : List Op} (hok : StepsOk step (fun u op => op.DeadFirst u) .start ops)
    (hrun : runSteps step .start ops = some s) : Quiet s ∧ Counted s := by
  have hsound : Sound s := inv_of_stepsOk (fun _ _ _ h hdead hstep => h.step hdead hstep)
    ⟨exact_start, drained_start⟩ hok hrun
  exact ⟨hsound.drained.quiet, hsound.exact.counted⟩

/-- Two calls, one of which comes too late, around the end of the cage. -/
def orderlyRun : List Op :=
  [.enter, .test 0, .setDead, .enter, .ret 0, .leave 0, .test 1, .observe, .enter, .remove, .test 2]

theorem quiet_run_orderly :
    ∃ s, runSteps step .start orderlyRun = some s ∧ s.present = false ∧ Quiet s ∧ Counted s := by
  have hok : StepsOk step (fun u op => op.DeadFirst u) .start orderlyRun := by decide
  exact ⟨_, rfl, rfl, quiet_run hok rfl⟩

/-- **A call gets in between the observation and the removal** of a cage nobody declared dead, as
when its last thread leaves by `exit`; its decrement then finds no cage. -/
theorem not_quiet_lastThread :
    ∃ s, runSteps step .start [.observe, .enter, .test 0, .remove] = some s ∧ ¬ Quiet s ∧
      ∃ s', runSteps step s [.ret 0, .leave 0] = some s' ∧ ¬ Counted s' :=
  ⟨_, rfl, fun h => h rfl mem_cons_self, _, rfl, fun h => absurd (h (by decide)) (by decide)⟩

end LindWasm.Threei.Inflight

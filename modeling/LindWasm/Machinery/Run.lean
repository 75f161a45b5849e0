import Mathlib.Data.List.Forall2

/-!
# Machinery/Run — runs of a partial step function

    s --a₁--> s₁ --a₂--> ⋯ --aₙ--> t          (`runSteps step s [a₁, …, aₙ] = some t`)

A step that answers `none` stops the run there. `StepsOk` says that every step of a run meets a
condition in the state it is taken from; `inv_of_stepsOk` is the one induction every safety result
over runs goes through.
-/

open List Option

variable {S A : Type*} {step : S → A → Option S} {Ok : S → A → Prop} {Inv : S → Prop} {s t : S}
  {a : A} {as : List A}

/-- The state a list of actions leads to, `none` once a step has none. -/
def runSteps (step : S → A → Option S) : S → List A → Option S
  | s, [] => some s
  | s, a :: as => (step s a).bind fun s' => runSteps step s' as

/-- Every step of the run meets `Ok` in the state it is taken from. -/
def StepsOk (step : S → A → Option S) (Ok : S → A → Prop) : S → List A → Prop
  | _, [] => True
  | s, a :: as => Ok s a ∧ ∀ s', step s a = some s' → StepsOk step Ok s' as

instance decidableStepsOk {Ok : S → A → Prop} [∀ s a, Decidable (Ok s a)] :
    (s : S) → (as : List A) → Decidable (StepsOk step Ok s as)
  | _, [] => isTrue trivial
  | s, a :: as =>
      have (s' : S) : Decidable (StepsOk step Ok s' as) := decidableStepsOk s' as
      inferInstanceAs (Decidable (Ok s a ∧ ∀ s' ∈ step s a, StepsOk step Ok s' as))

/-- A step that is taken where it is possible. -/
def guardedStep (possible : S → A → Prop) [∀ s a, Decidable (possible s a)] (apply : S → A → S)
    (s : S) (a : A) : Option S :=
  if possible s a then some (apply s a) else none

theorem guardedStep_eq_some {possible : S → A → Prop} [∀ s a, Decidable (possible s a)]
    {apply : S → A → S} :
    guardedStep possible apply s a = some t ↔ possible s a ∧ apply s a = t := by
  rw [guardedStep, ite_none_right_eq_some, some_inj]

@[simp] theorem runSteps_nil (s : S) : runSteps step s [] = some s := rfl

theorem runSteps_cons_eq_some :
    runSteps step s (a :: as) = some t
      ↔ ∃ s', step s a = some s' ∧ runSteps step s' as = some t := bind_eq_some_iff

/-- A run splits at any point into the run before it and the run after it. -/
theorem runSteps_append {bs : List A} :
    runSteps step s (as ++ bs) = some t
      ↔ ∃ u, runSteps step s as = some u ∧ runSteps step u bs = some t := by
  induction as generalizing s with
  | nil => simp
  | cons a as ih =>
    simp only [cons_append, runSteps_cons_eq_some, ih]
    constructor
    · rintro ⟨s', hs, u, hu, ht⟩
      exact ⟨u, ⟨s', hs, hu⟩, ht⟩
    · rintro ⟨u, ⟨s', hs, hu⟩, ht⟩
      exact ⟨s', hs, u, hu, ht⟩

/-- **An invariant that every good step keeps holds at the end of every good run.** -/
theorem inv_of_stepsOk (hstep : ∀ s a s', Inv s → Ok s a → step s a = some s' → Inv s') {t : S}
    (h0 : Inv s) (hok : StepsOk step Ok s as) (hrun : runSteps step s as = some t) : Inv t := by
  induction as generalizing s with
  | nil => exact some.inj hrun ▸ h0
  | cons a as ih =>
    obtain ⟨s', hs, hrest⟩ := runSteps_cons_eq_some.mp hrun
    exact ih (hstep s a s' h0 hok.1 hs) (hok.2 s' hs) hrest

/-- …and one that the actions of a run keep, at its end. -/
theorem inv_of_runSteps_mem (hstep : ∀ s a s', a ∈ as → Inv s → step s a = some s' → Inv s')
    (h0 : Inv s) (hrun : runSteps step s as = some t) : Inv t := by
  induction as generalizing s with
  | nil => exact some.inj hrun ▸ h0
  | cons a as ih =>
    obtain ⟨s', hs, hrest⟩ := runSteps_cons_eq_some.mp hrun
    exact ih (fun u b u' hb => hstep u b u' (mem_cons_of_mem _ hb))
      (hstep s a s' mem_cons_self h0 hs) hrest

/-- …and one that every step keeps, at the end of every run. -/
theorem inv_of_runSteps (hstep : ∀ s a s', Inv s → step s a = some s' → Inv s') {t : S}
    (h0 : Inv s) (hrun : runSteps step s as = some t) : Inv t :=
  inv_of_runSteps_mem (fun u a u' _ => hstep u a u') h0 hrun

/-- **The exact form**: where the actions of a run keep the invariant just when they meet the
condition, it holds in every state of the run just when every step of it meets the condition. -/
theorem stepsOk_iff_forall_inv_mem
    (hstep : ∀ s a s', a ∈ as → Inv s → step s a = some s' → (Inv s' ↔ Ok s a)) (h0 : Inv s)
    (hrun : runSteps step s as = some t) :
    (∀ bs cs u, as = bs ++ cs → runSteps step s bs = some u → Inv u) ↔ StepsOk step Ok s as := by
  induction as generalizing s with
  | nil =>
    refine ⟨fun _ => trivial, fun _ bs cs u hsplit hu => ?_⟩
    obtain ⟨rfl, rfl⟩ := append_eq_nil_iff.mp hsplit.symm
    exact some.inj hu ▸ h0
  | cons a as ih =>
    obtain ⟨s', hs, hrest⟩ := runSteps_cons_eq_some.mp hrun
    have ih := ih (s := s') fun u b u' hb => hstep u b u' (mem_cons_of_mem _ hb)
    have hhead := hstep s a s' mem_cons_self h0 hs
    constructor
    · intro hall
      have h1 : Inv s' := hall [a] as s' rfl (runSteps_cons_eq_some.mpr ⟨s', hs, rfl⟩)
      refine ⟨hhead.mp h1, fun s'' hs'' => ?_⟩
      obtain rfl : s' = s'' := mem_unique hs hs''
      refine (ih h1 hrest).mp fun bs cs u hsplit hu => ?_
      exact hall (a :: bs) cs u (by rw [hsplit, cons_append])
        (runSteps_cons_eq_some.mpr ⟨s', hs, hu⟩)
    · rintro ⟨hok, hoks⟩ bs cs u hsplit hu
      have h1 : Inv s' := hhead.mpr hok
      cases bs with
      | nil => exact some.inj hu ▸ h0
      | cons b bs =>
        obtain ⟨rfl, rfl⟩ := cons_eq_cons.mp (hsplit.trans (cons_append ..))
        obtain ⟨s'', hs'', hu'⟩ := runSteps_cons_eq_some.mp hu
        obtain rfl : s' = s'' := mem_unique hs hs''
        exact (ih h1 hrest).mpr (hoks s' hs) bs cs u rfl hu'

/-- …and where every step does, in every run. -/
theorem stepsOk_iff_forall_inv (hstep : ∀ s a s', Inv s → step s a = some s' → (Inv s' ↔ Ok s a))
    (h0 : Inv s) (hrun : runSteps step s as = some t) :
    (∀ bs cs u, as = bs ++ cs → runSteps step s bs = some u → Inv u) ↔ StepsOk step Ok s as :=
  stepsOk_iff_forall_inv_mem (fun u a u' _ => hstep u a u') h0 hrun

/-! ## Lockstep

Two machines that always answer are compared by their answers. Where related states answer alike
just when the operation is `Ok`, and stay related then, whole runs are alike just when every step of
them is `Ok`. -/

section Lockstep

variable {S T A O O' : Type*}

/-- The answers to a list of operations. -/
def answers (step : S → A → S × O) : S → List A → List O
  | _, [] => []
  | s, a :: as => (step s a).2 :: answers step (step s a).1 as

/-- Both machines take the step. -/
def bothStep (step : S → A → S × O) (step' : T → A → T × O') (p : S × T) (a : A) :
    Option (S × T) :=
  some ((step p.1 a).1, (step' p.2 a).1)

variable {step : S → A → S × O} {step' : T → A → T × O'} {R : S → T → Prop} {E : O → O' → Prop}
  {Ok : S × T → A → Prop}

/-- **Lockstep**: the answers of two runs are alike exactly if every step is `Ok`. -/
theorem forall₂_answers_iff (hout : ∀ s t a, R s t → (E (step s a).2 (step' t a).2 ↔ Ok (s, t) a))
    (hrel : ∀ s t a, R s t → Ok (s, t) a → R (step s a).1 (step' t a).1) {s : S} {t : T}
    (h : R s t) (as : List A) :
    Forall₂ E (answers step s as) (answers step' t as) ↔
      StepsOk (bothStep step step') Ok (s, t) as := by
  induction as generalizing s t with
  | nil => exact iff_of_true .nil trivial
  | cons a as ih =>
    refine forall₂_cons.trans ((and_congr_left' (hout s t a h)).trans ?_)
    refine and_congr_right fun hok => (ih (hrel s t a h hok)).trans ?_
    constructor
    · rintro hrest p hp
      cases hp
      exact hrest
    · exact fun hrest => hrest _ rfl

end Lockstep

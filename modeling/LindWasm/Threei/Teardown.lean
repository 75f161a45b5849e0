import LindWasm.Threei.Routing

/-!
# Threei/Teardown — what is left of a cage that has ended

    exit_group · fatal signal · crash     mark, finalize
    the last thread leaves by exit                finalize
    trigger_harsh_cage_exit               harshExit, finalize

Each way to end a cage does its own part of the teardown. `Gone` is what all of them should leave
behind, and no way does by itself (`not_gone_ending`). In `gone_run` it holds of every cage removed
in a run, where each removal finds the rest of the work done.
-/

namespace LindWasm.Threei

open Option CageTable Finset

open Dylink (LibHandlerTable)

/-! ## The ways to end a cage -/

inductive Ending where
  | exitGroup
  | fatalSignal
  | crash
  | lastThread
  | harsh

/-- The steps of an ending, up to the removal of the cage. -/
def Ending.ops (c : ℕ) : Ending → List Op
  | .exitGroup | .fatalSignal | .crash => [.mark c, .finalize c]
  | .lastThread => [.finalize c]
  | .harsh => [.harshExit c, .finalize c]

/-- The cage was there and is not any more. -/
def State.Removed (s : State) (c : ℕ) : Prop :=
  CageTable.cageStartId ≤ c ∧ c ≤ s.cages.nextCageid ∧ s.cages.isDead c = none

/-- No library call of any cage goes to the grate. -/
def NoLibRoute (t : LibHandlerTable) (grateid : ℕ) : Prop :=
  ∀ cageId libName symbolName handler,
    t.get cageId libName symbolName = some handler → handler.1 ≠ grateid

/-- Calls to the cage are refused, and neither table knows it. -/
structure Gone (s : State) (c : ℕ) : Prop where
  refused : ∀ self n, self ≠ c → n ≠ exitSyscall → n ≠ exitGroupSyscall →
    makeSyscall s self n c = .esrch
  noTable : s.handlers.lookup c = none
  noRoute : ∀ c', ¬ Routes s.handlers c' c
  noLibTable : s.libHandlers c = none
  noLibRoute : NoLibRoute s.libHandlers c

/-- The cage is marked as exiting and out of the tables but for the routes to it, which the mark
takes away. -/
structure Swept (s : State) (c : ℕ) : Prop where
  exiting : c ∈ s.exiting
  noTable : s.handlers.lookup c = none
  noLibTable : s.libHandlers c = none
  noLibRoute : NoLibRoute s.libHandlers c

/-- What a removal has to find, and what must not come after it. -/
def Op.Clean (s : State) : Op → Prop
  | .finalize c => Swept s c
  | .harshExit c => ¬ s.Removed c
  | .registerLibHandler c _ _ h _ => ¬ s.Removed c ∧ ¬ s.Removed h
  | .registerHandler .. | .copyHandlerTable .. | .fork _ | .mark _ => True

/-! ## Exiting cages are no handlers -/

/-- No call is routed to a cage that is exiting. -/
def Unrouted (s : State) : Prop := ∀ g ∈ s.exiting, ∀ c, ¬ Routes s.handlers c g

variable {s s' : State} {c g src dst n addr : ℕ}

theorem routes_copyHandlerTable (h : Routes (copyHandlerTableToCage s src dst).handlers c g) :
    ∃ c', Routes s.handlers c' g := by
  rw [copyHandlerTableToCage] at h
  split at h
  · exact ⟨c, h⟩
  · cases hcopy : copyHandlerTableToCageImpl s.handlers src dst with
    | none =>
      rw [hcopy] at h
      exact ⟨c, h⟩
    | some t =>
      rw [hcopy] at h
      exact Routes.of_copy hcopy h

theorem exiting_copyHandlerTable (s : State) (src dst : ℕ) :
    (copyHandlerTableToCage s src dst).exiting = s.exiting := by
  rw [copyHandlerTableToCage]
  split <;> rfl

theorem exiting_registerHandler (s : State) (c n h a : ℕ) :
    (registerHandler s c n h a).exiting = s.exiting := by
  rw [registerHandler]
  split <;> rfl

variable {c' handler : ℕ} {op : Op}

theorem routes_registerHandler (hg : g ∈ s.exiting)
    (h : Routes (registerHandler s c' n handler addr).handlers c g) : Routes s.handlers c g := by
  rw [registerHandler] at h
  split at h
  · exact h
  · next hexit =>
    refine (Routes.of_register h).resolve_left fun heq => ?_
    exact hexit (.inr (heq ▸ hg))

theorem routes_mark (hg : g ∈ (s.mark c').exiting) (h : Routes (s.mark c').handlers c g) :
    g ∈ s.exiting ∧ Routes s.handlers c g := by
  rcases mem_insert.mp hg with rfl | hg
  · exact absurd h (not_routes_rmGrate_self s.handlers c g)
  · exact ⟨hg, h.of_rmGrate⟩

theorem routes_harshExit (hg : g ∈ (triggerHarshCageExit s c').exiting)
    (h : Routes (triggerHarshCageExit s c').handlers c g) :
    g ∈ s.exiting ∧ Routes s.handlers c g := by
  rcases harshExit_eq s c' with heq | heq
  · rw [heq] at hg h
    exact routes_mark hg h
  · rw [heq] at hg h
    exact routes_mark (mem_of_mem_erase hg) h.of_rmGrate.of_rmCage

/-- **A route to an exiting cage is an old one**, whichever the step. -/
theorem routes_apply (hg : g ∈ (op.apply s).exiting) (h : Routes (op.apply s).handlers c g) :
    g ∈ s.exiting ∧ ∃ c', Routes s.handlers c' g := by
  cases op with
  | registerHandler c' n handler addr =>
    rw [Op.apply, exiting_registerHandler] at hg
    exact ⟨hg, c, routes_registerHandler hg h⟩
  | copyHandlerTable src dst =>
    rw [Op.apply, exiting_copyHandlerTable] at hg
    exact ⟨hg, routes_copyHandlerTable h⟩
  | fork parent =>
    rw [Op.apply, State.fork, exiting_copyHandlerTable] at hg
    exact ⟨hg, routes_copyHandlerTable (s := { s with cages := s.cages.add }) h⟩
  | mark c' => exact (routes_mark hg h).imp_right fun hr => ⟨c, hr⟩
  | harshExit c' => exact (routes_harshExit hg h).imp_right fun hr => ⟨c, hr⟩
  | registerLibHandler c' l y handler p => exact ⟨hg, c, h⟩
  | finalize c' => exact ⟨hg, c, h⟩

theorem Unrouted.apply (h : Unrouted s) (op : Op) : Unrouted (op.apply s) := by
  intro g hg c hroute
  obtain ⟨hg', c', hroute'⟩ := routes_apply hg hroute
  exact h g hg' c' hroute'

/-! ## Removed cages stay swept -/

/-- Only `cage_finalize` removes a cage. -/
theorem removed_of_apply (h : (op.apply s).Removed c) : s.Removed c ∨ op = .finalize c := by
  have ⟨hstart, hle, hnone⟩ := h
  have hkept (hcages : (op.apply s).cages = s.cages) : s.Removed c := by
    rwa [State.Removed, hcages] at h
  cases op with
  | registerHandler => exact .inl (hkept (cages_registerHandler ..))
  | copyHandlerTable => exact .inl (hkept (cages_copyHandlerTable ..))
  | harshExit => exact .inl (hkept (cages_harshExit ..))
  | registerLibHandler => exact .inl (hkept rfl)
  | mark c' => exact .inl ⟨hstart, hle, isDead_setDead_eq_none.mp hnone⟩
  | fork parent =>
    rw [Op.apply, State.fork, cages_copyHandlerTable] at hle hnone
    have hne : c ≠ s.cages.nextCageid + 1 := by
      rintro rfl
      rw [isDead_add_self] at hnone
      exact some_ne_none _ hnone
    rw [isDead_add_of_ne hne] at hnone
    exact .inl ⟨hstart, Nat.le_of_lt_succ (Nat.lt_of_le_of_ne hle hne), hnone⟩
  | finalize c' =>
    by_cases hc : c = c'
    · exact .inr (by rw [hc])
    · exact .inl ⟨hstart, hle, (isDead_remove_of_ne hc).symm.trans hnone⟩

section

variable (h : Swept s c)
include h

theorem Swept.registerHandler : Swept (registerHandler s c' n handler addr) c := by
  rw [Threei.registerHandler]
  split
  · exact h
  · next hexit =>
    have hne : c ≠ c' := fun heq => hexit (.inl (heq ▸ h.exiting))
    exact ⟨h.exiting, (lookup_register_of_ne hne).trans h.noTable, h.noLibTable, h.noLibRoute⟩

theorem Swept.copyHandlerTable : Swept (copyHandlerTableToCage s src dst) c := by
  rw [copyHandlerTableToCage]
  split
  · exact h
  · next hexit =>
    have hne : c ≠ dst := fun heq => hexit (.inl (heq ▸ h.exiting))
    refine ⟨h.exiting, ?_, h.noLibTable, h.noLibRoute⟩
    cases hcopy : copyHandlerTableToCageImpl s.handlers src dst with
    | none => exact h.noTable
    | some t => exact (lookup_copy_of_ne hcopy hne).trans h.noTable

theorem Swept.registerLibHandler {p : ℕ} {l y : String} (hc : c' ≠ c) (hh : handler ≠ c) :
    Swept { s with libHandlers := s.libHandlers.register c' l y (handler, p) } c := by
  refine ⟨h.exiting, h.noTable, ?_, ?_⟩
  · exact (LibHandlerTable.register_apply_of_ne (Ne.symm hc)).trans h.noLibTable
  · intro cageId libName symbolName dest hget
    rcases LibHandlerTable.get_register hget with rfl | hold
    · exact hh
    · exact h.noLibRoute _ _ _ _ hold

theorem Swept.harshExit (hc : c' ≠ c) : Swept (triggerHarshCageExit s c') c := by
  rcases harshExit_eq s c' with heq | heq
  · rw [heq]
    exact ⟨mem_insert_of_mem h.exiting, lookup_rmGrate_eq_none.mpr h.noTable, h.noLibTable,
      h.noLibRoute⟩
  · rw [heq]
    refine ⟨?_, ?_, h.noLibTable, h.noLibRoute⟩
    · exact mem_erase.mpr ⟨Ne.symm hc, mem_insert_of_mem h.exiting⟩
    · refine lookup_rmGrate_eq_none.mpr ?_
      rw [rmCageFromHandler, Table.lookup_erase_of_ne (Ne.symm hc)]
      exact lookup_rmGrate_eq_none.mpr h.noTable

theorem Swept.apply (hremoved : s.Removed c) (hclean : op.Clean s) : Swept (op.apply s) c := by
  cases op with
  | registerHandler c' n handler addr => exact h.registerHandler
  | copyHandlerTable src dst => exact h.copyHandlerTable
  | fork parent => exact Swept.copyHandlerTable ⟨h.exiting, h.noTable, h.noLibTable, h.noLibRoute⟩
  | registerLibHandler c' l y handler p =>
    exact h.registerLibHandler (fun heq => hclean.1 (heq ▸ hremoved))
      (fun heq => hclean.2 (heq ▸ hremoved))
  | mark c' =>
    exact ⟨mem_insert_of_mem h.exiting, lookup_rmGrate_eq_none.mpr h.noTable, h.noLibTable,
      h.noLibRoute⟩
  | harshExit c' => exact h.harshExit fun heq => hclean (heq ▸ hremoved)
  | finalize c' => exact ⟨h.exiting, h.noTable, h.noLibTable, h.noLibRoute⟩

/-! ## Every run -/

theorem Swept.gone (hunrouted : Unrouted s) :
    Gone s c where
  refused _ _ hself hexit hgroup := if_pos ⟨.inr h.exiting, hexit, hgroup, hself⟩
  noTable := h.noTable
  noRoute := hunrouted c h.exiting
  noLibTable := h.noLibTable
  noLibRoute := h.noLibRoute

end

/-- Exiting cages are no handlers, and removed cages are swept. -/
structure Settled (s : State) : Prop where
  unrouted : Unrouted s
  swept : ∀ c, s.Removed c → Swept s c

theorem settled_init : Settled .init where
  unrouted g hg := absurd hg (notMem_empty g)
  swept c := by
    rintro ⟨hstart, hle, hnone⟩
    obtain rfl := Nat.le_antisymm hle hstart
    exact absurd hnone (some_ne_none false)

theorem Settled.step (h : Settled s) (hclean : op.Clean s) (hstep : step s op = some s') :
    Settled s' := by
  rw [eq_apply_of_step hstep]
  refine ⟨h.unrouted.apply op, fun c hc => ?_⟩
  rcases removed_of_apply hc with hold | rfl
  · exact (h.swept c hold).apply hold hclean
  · exact ⟨hclean.exiting, hclean.noTable, hclean.noLibTable, hclean.noLibRoute⟩

/-- **In a run whose steps are clean every cage removed so far is gone.** -/
theorem gone_run {ops : List Op} (hok : StepsOk step (fun u op => op.Clean u) .init ops)
    (hrun : runSteps step .init ops = some s) (hremoved : s.Removed c) : Gone s c := by
  have hsettled : Settled s :=
    inv_of_stepsOk (fun _ _ _ h hclean hstep => h.step hclean hstep) settled_init hok hrun
  exact (hsettled.swept c hremoved).gone hsettled.unrouted

theorem stepsOk_cons {Ok : State → Op → Prop} {ops : List Op} (h : Ok s op)
    (hrest : StepsOk step Ok (op.apply s) ops) : StepsOk step Ok s (op :: ops) :=
  ⟨h, fun _ hstep => eq_apply_of_step hstep ▸ hrest⟩

/-- A grate takes a call of its parent, its own table is taken apart, and it leaves. -/
def tidyRun : List Op :=
  [.registerHandler 1 0 rawposixCageid 16, .fork 1, .registerHandler 1 0 2 64,
    .registerHandler 2 0 threeiDeregister 0, .mark 2, .finalize 2]

theorem gone_run_tidy : ∃ s, runSteps step .init tidyRun = some s ∧ s.Removed 2 ∧ Gone s 2 := by
  have hok : StepsOk step (fun u op => op.Clean u) .init tidyRun := by
    refine stepsOk_cons trivial (stepsOk_cons trivial (stepsOk_cons trivial (stepsOk_cons trivial
      (stepsOk_cons trivial (stepsOk_cons ⟨by decide, by decide, rfl, ?_⟩ trivial)))))
    intro cageId libName symbolName handler hget
    cases hget
  refine ⟨_, rfl, ⟨by decide, by decide, rfl⟩, gone_run hok rfl ⟨by decide, by decide, rfl⟩⟩

/-- A cage with a handler for one call and for its exit, and a grate for one of its library
calls. -/
def bootRun : List Op :=
  [.registerHandler 1 0 rawposixCageid 16, .registerHandler 1 exitSyscall rawposixCageid 32,
    .fork 1, .registerLibHandler 1 "libm.so" "sin" 2 64]

/-- Ended this way, the grate is not gone: library calls are still routed to it, and it has a table
or is open to calls that reach the host. -/
def Ending.Leaves (e : Ending) : Prop :=
  ∃ s, runSteps step .init (bootRun ++ e.ops 2) = some s ∧ s.Removed 2 ∧ ¬ Gone s 2 ∧
    s.libHandlers.get 1 "libm.so" "sin" = some (2, 64) ∧
    (s.handlers.lookup 2 ≠ none ∨ makeSyscall s 1 0 2 = .rawposix 16)

/-- **No way to end a cage does all of it.** -/
theorem not_gone_ending :
    Ending.Leaves .exitGroup ∧ Ending.Leaves .fatalSignal ∧ Ending.Leaves .crash ∧
      Ending.Leaves .lastThread ∧ Ending.Leaves .harsh := by
  have hlib : ∀ {s : State}, s.libHandlers.get 1 "libm.so" "sin" = some (2, 64) → ¬ Gone s 2 :=
    fun hget hgone => hgone.noLibRoute _ _ _ _ hget rfl
  have hmarked : Ending.Leaves .exitGroup :=
    ⟨_, rfl, ⟨by decide, by decide, rfl⟩, hlib rfl, rfl, .inl (by decide)⟩
  refine ⟨hmarked, hmarked, hmarked, ?_, ?_⟩
  · exact ⟨_, rfl, ⟨by decide, by decide, rfl⟩, hlib rfl, rfl, .inr (by decide)⟩
  · exact ⟨_, rfl, ⟨by decide, by decide, rfl⟩, hlib rfl, rfl, .inr (by decide)⟩

end LindWasm.Threei

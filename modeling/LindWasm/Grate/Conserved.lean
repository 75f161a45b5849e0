import LindWasm.Grate.Pool
import Mathlib.Algebra.Ring.Nat

/-!
# Grate/Conserved — no worker is lost, and none is lent twice

    arena ├ guard ┼ stack of 1 ┼ guard ┼ stack of 2 ┼ guard ┼ stack of 3 ┤ …

The lease of a worker gives it back when it is dropped, whether the call has returned or trapped:
the workers in the queue and those with the calls are always the ones that were made. Each has a
stack of its own in the arena, so calls that run at the same time have no stack address in common
(`leased_run`).
-/

namespace LindWasm.Grate

open List

/-! ## The workers -/

def Place.worker? : Place → Option ℕ
  | .running worker => some worker
  | _ => none

/-- The workers that are out, one for each call that runs. -/
def GrateHandler.held (h : GrateHandler) : List ℕ := h.calls.filterMap Place.worker?

/-- The workers in the queue and those that are out are the `n` that were made. -/
def Conserved (n : ℕ) (h : GrateHandler) : Prop := (h.workers ++ h.held).Perm (range' 1 n)

section Conserved

variable {h t : GrateHandler} {op : PoolOp} {n i w : ℕ} {p q : Place}

theorem held_set_of_eq {mode : ConcurrencyMode} {workers : List ℕ} {calls : List Place}
    (hi : calls[i]? = some p) (hq : q.worker? = p.worker?) :
    GrateHandler.held ⟨mode, workers, calls.set i q⟩ = calls.filterMap Place.worker? :=
  filterMap_set_of_eq hi hq

theorem perm_held_returned (hi : h.calls[i]? = some (.running w)) :
    (w :: (h.calls.set i .returned).filterMap Place.worker?).Perm h.held :=
  (perm_filterMap_set (f := Place.worker?) hi rfl rfl).symm

theorem Conserved.step (hc : Conserved n h) (hs : Steps h op t) : Conserved n t := by
  refine Perm.trans ?_ hc
  cases hs with
  | submit => exact .of_eq (congrArg _ (filterMap_append.trans (append_nil _)))
  | enter hi | leave hi | spurious hi => exact .of_eq (congrArg _ (held_set_of_eq hi rfl))
  | waits hi hp =>
    obtain rfl | rfl := hp <;> exact .of_eq (congrArg _ (held_set_of_eq hi rfl))
  | takes hi hp hw =>
    rw [hw]
    refine Perm.trans ((filterMap_set_perm (f := Place.worker?) hi ?_ rfl).append_left _)
      perm_middle
    obtain rfl | rfl := hp <;> rfl
  | returns hi =>
    rw [append_assoc]
    exact (perm_held_returned hi).append_left _
  | wakes hi hw hj =>
    rw [hw, held_set_of_eq (q := .woken) hj rfl]
    exact perm_held_returned hi

theorem conserved_init (mode : ConcurrencyMode) (n : ℕ) : Conserved n (.init mode n) :=
  .of_eq (append_nil _)

section

variable (hc : Conserved n h)
include hc

theorem Conserved.nodup_held : h.held.Nodup :=
  (nodup_append.mp (hc.nodup_iff.mpr nodup_range')).2.1

theorem Conserved.worker_mem (hi : h.calls[i]? = some (.running w)) : 1 ≤ w ∧ w ≤ n := by
  have hmem : w ∈ h.held := mem_filterMap.mpr ⟨_, mem_of_getElem? hi, rfl⟩
  have hrange := mem_range'_1.mp (hc.mem_iff.mp (mem_append_right _ hmem))
  omega

theorem Conserved.call_unique {j : ℕ} (hi : h.calls[i]? = some (.running w))
    (hj : h.calls[j]? = some (.running w)) : i = j := by
  obtain ⟨hi, hwi⟩ := List.getElem?_eq_some_iff.mp hi
  obtain ⟨hj, hwj⟩ := List.getElem?_eq_some_iff.mp hj
  have hpairs := pairwise_iff_getElem.mp (pairwise_filterMap.mp hc.nodup_held)
  rcases Nat.lt_trichotomy i j with hlt | heq | hlt
  · exact absurd rfl (hpairs i j hi hj hlt w (hwi ▸ rfl) w (hwj ▸ rfl))
  · exact heq
  · exact absurd rfl (hpairs j i hj hi hlt w (hwj ▸ rfl) w (hwi ▸ rfl))

theorem Conserved.runs_le : h.calls.countP Place.runs ≤ n := by
  have hlen := hc.length_eq
  have hheld : h.held.length = h.calls.countP Place.runs := by
    rw [GrateHandler.held, length_filterMap_eq_countP]
    refine congrArg (countP · _) (funext fun p => ?_)
    cases p <;> rfl
  rw [length_append, length_range', hheld] at hlen
  omega

end

end Conserved

/-! ## The stacks -/

def maxGrateWorkers : ℕ := 32
def grateStackSlotSize : ℕ := 8 * 1024 * 1024
def grateStackGuardSize : ℕ := 4 * 1024

/-- `configured_grate_workers`; `value` is what the environment variable parses to. -/
def configuredGrateWorkers (value : Option ℕ) : ℕ :=
  match value.filter (0 < ·) with
  | some count => min count maxGrateWorkers
  | none => maxGrateWorkers

/-- What is reserved for the stacks of a grate when its memory is laid out, inside 32 bits. -/
def stackArenaSize : ℕ := maxGrateWorkers * (grateStackGuardSize + grateStackSlotSize)

/-- In the arithmetic of `u32`. -/
def workerStackBase (stackArenaBase workerid : ℕ) : ℕ :=
  (stackArenaBase + (workerid - 1) * (grateStackGuardSize + grateStackSlotSize)
    + grateStackGuardSize) % 2 ^ 32

def workerStackTop (stackArenaBase workerid : ℕ) : ℕ :=
  (workerStackBase stackArenaBase workerid + grateStackSlotSize) % 2 ^ 32

/-- The stack of one ends a guard before that of the other begins. -/
def StackBelow (arena w w' : ℕ) : Prop :=
  workerStackTop arena w + grateStackGuardSize ≤ workerStackBase arena w'

section Stacks

variable {arena w w' : ℕ} (hfits : arena + stackArenaSize < 2 ^ 32)
include hfits

theorem workerStackBase_eq (hpos : 1 ≤ w) (hw : w ≤ maxGrateWorkers) :
    workerStackBase arena w
      = arena + (w - 1) * (grateStackGuardSize + grateStackSlotSize) + grateStackGuardSize := by
  refine Nat.mod_eq_of_lt ?_
  simp only [stackArenaSize, maxGrateWorkers, grateStackGuardSize, grateStackSlotSize] at *
  omega

theorem workerStackTop_eq (hpos : 1 ≤ w) (hw : w ≤ maxGrateWorkers) :
    workerStackTop arena w = workerStackBase arena w + grateStackSlotSize := by
  rw [workerStackTop, workerStackBase_eq hfits hpos hw]
  refine Nat.mod_eq_of_lt ?_
  simp only [stackArenaSize, maxGrateWorkers, grateStackGuardSize, grateStackSlotSize] at *
  omega

theorem stackBelow_of_lt (hpos : 1 ≤ w) (hlt : w < w') (hw : w' ≤ maxGrateWorkers) :
    StackBelow arena w w' := by
  have hle : w ≤ maxGrateWorkers := by omega
  rw [StackBelow, workerStackTop_eq hfits hpos hle, workerStackBase_eq hfits hpos hle,
    workerStackBase_eq hfits (by omega) hw]
  simp only [grateStackGuardSize, grateStackSlotSize]
  omega

end Stacks

theorem configuredGrateWorkers_le (value : Option ℕ) :
    configuredGrateWorkers value ≤ maxGrateWorkers := by
  unfold configuredGrateWorkers
  split
  · exact min_le_right _ _
  · exact le_rfl

/-! ## Every run -/

/-- The workers are those that were made, no more calls run than there are workers, and the stacks
of two that run are apart. -/
structure Leased (n arena : ℕ) (h : GrateHandler) : Prop where
  conserved : Conserved n h
  runs_le : h.calls.countP Place.runs ≤ n
  stack : ∀ (i w : ℕ), h.calls[i]? = some (.running w) →
    workerStackTop arena w = workerStackBase arena w + grateStackSlotSize
  apart : ∀ (i j w w' : ℕ),
    h.calls[i]? = some (.running w) → h.calls[j]? = some (.running w') → i ≠ j →
    w ≠ w' ∧ (StackBelow arena w w' ∨ StackBelow arena w' w)

/-- **Every interleaving of calls conserves the workers**, and calls that run together share no
stack address. -/
theorem leased_run (mode : ConcurrencyMode) (value : Option ℕ) (arena : ℕ)
    (hfits : arena + stackArenaSize < 2 ^ 32) (ops : List PoolOp) {t : GrateHandler}
    (hrun : runSteps poolStep (.init mode (configuredGrateWorkers value)) ops = some t) :
    Leased (configuredGrateWorkers value) arena t := by
  have hmax := configuredGrateWorkers_le value
  have hc : Conserved (configuredGrateWorkers value) t :=
    inv_of_runSteps (fun _ _ _ hc hs => hc.step (steps_of_poolStep hs)) (conserved_init mode _) hrun
  refine ⟨hc, hc.runs_le, fun i w hi => ?_, fun i j w w' hi hj hij => ?_⟩
  · obtain ⟨hpos, hle⟩ := hc.worker_mem hi
    exact workerStackTop_eq hfits hpos (hle.trans hmax)
  · obtain ⟨hpos, hle⟩ := hc.worker_mem hi
    obtain ⟨hpos', hle'⟩ := hc.worker_mem hj
    have hne : w ≠ w' := by
      rintro rfl
      exact hij (hc.call_unique hi hj)
    refine ⟨hne, (Nat.lt_or_gt_of_ne hne).imp (fun hlt => ?_) fun hlt => ?_⟩
    · exact stackBelow_of_lt hfits hpos hlt (hle'.trans hmax)
    · exact stackBelow_of_lt hfits hpos' hlt (hle.trans hmax)

/-- Two calls take the two workers of a grate and a third waits; the first ends, by a return or by a
trap, and its worker goes to the third. -/
def threeCalls : List PoolOp :=
  [.submit, .submit, .submit, .enter 0, .enter 1, .enter 2, .take 0, .take 1, .take 2,
   .ret 0 2, .leave 0, .take 2]

theorem leased_threeCalls :
    ∃ t, runSteps poolStep (.init .parallel 2) threeCalls = some t ∧
      t.calls = [.done, .running 2, .running 1] ∧ Leased 2 65536 t :=
  ⟨_, rfl, rfl, leased_run .parallel (some 2) 65536 (by decide) threeCalls rfl⟩

end LindWasm.Grate

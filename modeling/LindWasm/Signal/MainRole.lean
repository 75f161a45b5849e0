import LindWasm.Signal.Killed

/-!
# Signal/MainRole — who is the main thread, until the last one leaves

Threads come by `lind_signal_init`, the first one as the main thread, and go by `lind_thread_exit`.
A leaving main thread hands its role and a raised epoch word on, so there is a main thread as long
as there is any, and one call is told that it was the last (`mainRole_run`). The role of the last
thread is left with its number: a thread that came after it would find no main thread.
-/

namespace LindWasm.Signal

open Option List

inductive RoleOp
  | init (t : ℤ) (epoch : Epoch) (isMainthread : Bool)
  | exit (t heir : ℤ)

/-- A cage, the threads that have come to it, and what the calls of `lind_thread_exit` answered,
the latest first. -/
structure Roles where
  cage : Cage
  seen : List ℤ
  answers : List Bool

/-- A thread comes once, the first one as the main thread. The heir of a role is any thread that
stays. -/
def Roles.step (s : Roles) : RoleOp → Option Roles
  | .init t epoch isMainthread =>
    if t ∉ s.seen ∧ (isMainthread ↔ s.seen = []) then
      some ⟨s.cage.lindSignalInit t ⟨.guest, [], epoch⟩ isMainthread, t :: s.seen, s.answers⟩
    else none
  | .exit t heir =>
    (s.cage.threads.lookup t).bind fun th =>
      if Table.erase s.cage.threads t = [] then
        some ⟨{ s.cage with threads := [] }, s.seen, true :: s.answers⟩
      else if heir ≠ t ∧ (s.cage.threads.lookup heir).isSome then
        some ⟨s.cage.lindThreadExit t th heir, s.seen, false :: s.answers⟩
      else none

/-- No thread comes once the last one has left. -/
def InTime (s : Roles) : RoleOp → Prop
  | .init .. => true ∉ s.answers
  | .exit .. => True

/-- There is a main thread while there is any, and one that left was told it was the last once there
is none. -/
structure Roles.Sound (s : Roles) : Prop where
  main : s.cage.threads ≠ [] → s.cage.main.isSome
  seen : s.cage.threads ≠ [] → s.seen ≠ []
  last : s.answers.count true = if s.seen ≠ [] ∧ s.cage.threads = [] then 1 else 0

variable {s s' : Roles} {t heir : ℤ} {th : Thread} {ops : List RoleOp} {c : Cage}

/-- **The two ways to leave**: as the last thread, or with an heir. -/
theorem exit_cases (h : s.step (.exit t heir) = some s') :
    ∃ th, s.cage.threads.lookup t = some th ∧ s'.seen = s.seen ∧
      (s'.cage.threads = [] ∧ s'.answers = true :: s.answers ∨
        heir ≠ t ∧ (s.cage.threads.lookup heir).isSome ∧ s'.cage.threads ≠ [] ∧
          s'.cage = s.cage.lindThreadExit t th heir ∧ s'.answers = false :: s.answers) := by
  obtain ⟨th, hth, h⟩ := bind_eq_some_iff.mp h
  refine ⟨th, hth, ?_⟩
  split at h
  · cases h
    exact ⟨rfl, .inl ⟨rfl, rfl⟩⟩
  next hrest =>
    obtain ⟨⟨hne, hheir⟩, heq⟩ := ite_none_right_eq_some.mp h
    cases heq
    refine ⟨rfl, .inr ⟨hne, hheir, ?_, rfl, rfl⟩⟩
    dsimp only [Cage.lindThreadExit]
    split
    · exact fun hnil => hrest (map_eq_nil_iff.mp hnil)
    · exact hrest

theorem main_lindSignalInit {b : Bool} (h : b = true ∨ c.main.isSome) :
    (c.lindSignalInit t th b).main.isSome := by
  rw [Cage.main, Cage.lindSignalInit]
  by_cases ht : (if b then t else c.mainThreadId) = t
  · simp [ht]
  · obtain ⟨hb, -⟩ := ite_eq_left_iff.not.mp ht |> not_forall.mp
    rw [Table.lookup_insert_of_ne ht, if_neg hb]
    exact h.resolve_left hb

theorem main_lindThreadExit (hne : heir ≠ t) (hheir : (c.threads.lookup heir).isSome)
    (hmain : c.main.isSome) : (c.lindThreadExit t th heir).main.isSome := by
  unfold Cage.lindThreadExit
  split
  · rw [Cage.main, Table.lookup_mapVal, isSome_map, Table.lookup_erase_of_ne hne]
    exact hheir
  next h =>
    rw [Cage.main, Table.lookup_erase_of_ne (Ne.symm h)]
    exact hmain

/-- **One call** in time. -/
theorem Roles.Sound.step {op : RoleOp} (h : s.Sound) (hok : InTime s op)
    (hs : s.step op = some s') : s'.Sound := by
  have hlast := h.last
  cases op with
  | init t epoch isMainthread =>
    obtain ⟨⟨-, hfirst⟩, heq⟩ := ite_none_right_eq_some.mp hs
    cases heq
    rw [count_eq_zero.mpr hok] at hlast
    refine ⟨fun _ => main_lindSignalInit ?_, fun _ => cons_ne_nil _ _, ?_⟩
    · refine or_iff_not_imp_left.mpr fun hb => h.main fun hnil => ?_
      rw [if_pos ⟨mt hfirst.mpr hb, hnil⟩] at hlast
      cases hlast
    · rw [count_eq_zero.mpr hok, if_neg fun hnil => cons_ne_nil _ _ hnil.2]
  | exit t heir =>
    obtain ⟨th, hth, hseen, hcase⟩ := exit_cases hs
    have hthreads : s.cage.threads ≠ [] := fun hnil => by simp [hnil] at hth
    rw [if_neg fun hnil => hthreads hnil.2] at hlast
    rcases hcase with ⟨hnil, hans⟩ | ⟨hne, hheir, hleft, hcage, hans⟩
    · refine ⟨fun hne => absurd hnil hne, fun hne => absurd hnil hne, ?_⟩
      rw [hans, count_cons_self, hlast, hseen, if_pos ⟨h.seen hthreads, hnil⟩]
    · refine ⟨fun _ => hcage ▸ main_lindThreadExit hne hheir (h.main hthreads),
        fun _ => hseen ▸ h.seen hthreads, ?_⟩
      rw [hans, count_cons_of_ne Bool.false_ne_true, hlast, if_neg fun hnil => hleft hnil.2]

/-- **The main role along every run of calls in time**, and what a call answers and hands on in any
state. -/
theorem mainRole_run (hc : c.threads = []) (hok : StepsOk Roles.step InTime ⟨c, [], []⟩ ops)
    (hrun : runSteps Roles.step ⟨c, [], []⟩ ops = some s) :
    (s.cage.threads ≠ [] → s.cage.main.isSome) ∧
    s.answers.count true = (if s.seen ≠ [] ∧ s.cage.threads = [] then 1 else 0) ∧
    ∀ u t heir u', Roles.step u (.exit t heir) = some u' →
      u'.answers = decide (u'.cage.threads = []) :: u.answers ∧
      (t = u.cage.mainThreadId → u'.cage.threads ≠ [] → u.cage.epochOf t = some .signal →
        u'.cage.mainThreadId = heir ∧ u'.cage.epochOf heir
          = if u.cage.epochOf heir = some .killed then some .killed else some .signal) := by
  have hstart : Roles.Sound ⟨c, [], []⟩ := ⟨fun h => absurd hc h, fun h => absurd hc h, rfl⟩
  have hsound := inv_of_stepsOk (fun _ _ _ => Roles.Sound.step) hstart hok hrun
  refine ⟨hsound.main, hsound.last, fun u t heir u' hu => ?_⟩
  obtain ⟨th, hth, -, ⟨hnil, hans⟩ | ⟨hne, hheir, hleft, hcage, hans⟩⟩ := exit_cases hu
  · exact ⟨by rw [hans, decide_eq_true hnil], fun _ hne => absurd hnil hne⟩
  refine ⟨by rw [hans, decide_eq_false hleft], fun hmain _ hsignal => ?_⟩
  obtain ⟨h₀, hh₀⟩ := isSome_iff_exists.mp hheir
  have hepoch : th.epoch = .signal := by simpa [Cage.epochOf, hth] using hsignal
  rw [hcage, Cage.lindThreadExit, if_pos hmain]
  refine ⟨rfl, ?_⟩
  simp only [Cage.epochOf, Table.lookup_mapVal, Table.lookup_erase_of_ne hne, hh₀, map_some]
  by_cases hkilled : h₀.epoch = .killed <;> simp [hepoch, hkilled]

def freshCage : Cage := ⟨1, [], 0, fun _ => none, [], 0, none, false, false⟩

theorem mainRole_handedOn : ∃ s, runSteps Roles.step ⟨freshCage, [], []⟩
      [.init 1 .signal true, .init 2 .normal false, .exit 1 2] = some s ∧ s.cage.main.isSome := by
  have hok : StepsOk Roles.step InTime ⟨freshCage, [], []⟩
      [.init 1 .signal true, .init 2 .normal false, .exit 1 2] := by
    simp [StepsOk, InTime, Roles.step]
  exact ⟨_, rfl, (mainRole_run rfl hok rfl).1 (cons_ne_nil _ _)⟩

/-- **A thread that comes after the last one has left** is without a main thread, and is told once
more that it was the last. -/
theorem mainRole_lost : let run := runSteps Roles.step ⟨freshCage, [], []⟩
    (run [.init 1 .normal true, .exit 1 0, .init 2 .normal false]).map
        (fun s => (s.cage.threads.map Prod.fst, s.cage.main)) = some ([2], none) ∧
      (run [.init 1 .normal true, .exit 1 0, .init 2 .normal false, .exit 2 0]).map Roles.answers
        = some [true, true] := by
  decide

end LindWasm.Signal

import Mathlib.Data.Nat.Bitwise
import LindWasm.Process.WaitRight

/-!
# Process/Status — the status word `waitpid` stores

    recorded first --> final_exit_status --> zombie --encode--> word --decode--> what was recorded

Of the statuses recorded for a cage the first one counts, and a cage without one has exited with 0.
`storedWord_run` follows a word back to the cage it is about.
-/

namespace LindWasm.Wait

open Option BitVec

/-! ## The word -/

def encodeWaitStatus : ExitStatus → BitVec 32
  | .exited code => (BitVec.ofInt 32 code &&& 0xff) <<< 8
  | .signaled sig core =>
      let s := BitVec.ofInt 32 sig &&& 0x7f
      if core then s ||| 0x80 else s

variable (status : BitVec 32)

/-- `WTERMSIG`: 0 for a normal exit, 127 for a child that is stopped. -/
def wtermsig : ℕ := status.toNat % 128

def wexitstatus : ℕ := status.toNat / 256 % 256

/-- What the macros make of the word. -/
def Decodes : ExitStatus → Prop
  | .exited code => wtermsig status = 0 ∧ wexitstatus status = code % 256
  | .signaled sig _ => 1 ≤ wtermsig status ∧ wtermsig status ≤ 126 ∧ wtermsig status = sig

theorem toNat_and_low {k : ℕ} (hk : k ≤ 32) (x : BitVec 32) :
    (x &&& BitVec.ofNat 32 (2 ^ k - 1)).toNat = x.toNat % 2 ^ k := by
  have hlt : 2 ^ k - 1 < 2 ^ 32 := by
    have := Nat.pow_le_pow_right (n := 2) (by decide) hk
    omega
  rw [toNat_and, toNat_ofNat, Nat.mod_eq_of_lt hlt, Nat.and_two_pow_sub_one_eq_mod]

theorem decodes_exited (code : ℤ) : Decodes (encodeWaitStatus (.exited code)) (.exited code) := by
  have hlow : (BitVec.ofInt 32 code &&& 0xff).toNat = (code % 256).toNat := by
    refine (toNat_and_low (k := 8) (by decide) _).trans ?_
    rw [toNat_ofInt]
    omega
  have hword : (encodeWaitStatus (.exited code)).toNat = (code % 256).toNat * 256 := by
    rw [encodeWaitStatus, toNat_shiftLeft, hlow, Nat.shiftLeft_eq]
    omega
  rw [Decodes, wtermsig, wexitstatus, hword]
  omega

theorem decodes_signaled {sig : ℤ} (hsig : 1 ≤ sig ∧ sig ≤ 126) (core : Bool) :
    Decodes (encodeWaitStatus (.signaled sig core)) (.signaled sig core) := by
  have hlow : (BitVec.ofInt 32 sig &&& 0x7f).toNat = sig.toNat := by
    refine (toNat_and_low (k := 7) (by decide) _).trans ?_
    rw [toNat_ofInt]
    omega
  have hterm : wtermsig (encodeWaitStatus (.signaled sig core)) = sig.toNat := by
    rw [wtermsig, encodeWaitStatus]
    cases core with
    | false =>
      rw [if_neg Bool.false_ne_true, hlow]
      omega
    | true =>
      rw [if_pos rfl, toNat_or, hlow, Nat.lor_comm]
      refine (congrArg (· % 128) (Nat.two_pow_add_eq_or_of_lt (i := 7) (by omega) 1).symm).trans ?_
      omega
  rw [Decodes, hterm]
  omega

/-! ## The status recorded first -/

/-- The status the step records for the `i`-th child. -/
def Op.records (i : ℕ) : Op → Option ExitStatus
  | .child j (.recordExitStatus status) => if j = i then some status else none
  | _ => none

def firstRecorded (ops : List Op) (i : ℕ) : Option ExitStatus := ops.findSome? (Op.records i)

def State.statusOf (s : State) (i : ℕ) : Option ExitStatus :=
  s.children[i]?.bind Child.finalExitStatus

variable {s s' : State} {i : ℕ}

theorem statusOf_step {op : Op} (h : step s op = some s') :
    s'.statusOf i = (s.statusOf i).or (op.records i) := by
  cases steps_of_step h with
  | fork hnew =>
    refine Eq.trans ?_ or_none.symm
    rw [State.statusOf, State.fork, State.statusOf, List.getElem?_append]
    split
    · rfl
    · next hi =>
      rw [List.getElem?_eq_none (Nat.le_of_not_lt hi)]
      rcases i - s.children.length with _ | k <;> rfl
  | @child j c op hc =>
    rw [State.statusOf, children_apply, List.getElem?_set, State.statusOf]
    by_cases hj : j = i
    · subst hj
      rw [if_pos rfl, if_pos (List.getElem?_eq_some_iff.mp hc).1, hc]
      cases op <;> simp [ChildOp.next, Op.records]
    · rw [if_neg hj]
      cases op <;> simp [Op.records, hj]
  | waitpid | stays | moves | takes => exact or_none.symm

/-- **A child ends with the status recorded first.** -/
theorem statusOf_run {ops : List Op} (h : runSteps step s ops = some s') (i : ℕ) :
    s'.statusOf i = (s.statusOf i).or (firstRecorded ops i) := by
  induction ops generalizing s with
  | nil =>
    cases h
    exact or_none.symm
  | cons op ops ih =>
    obtain ⟨u, hstep, hrun⟩ := runSteps_cons_eq_some.mp h
    rw [ih hrun, statusOf_step hstep, Option.or_assoc, firstRecorded, firstRecorded,
      List.findSome?_cons]
    cases op.records i <;> rfl

/-! ## The word stored -/

/-- What a call has returned: the id of a child and the word it has stored. -/
def Call.stored (call : Call) : Option (ℕ × BitVec 32) :=
  call.reaped.map fun z => (z.cageid, encodeWaitStatus z.exitCode)

/-- **The word stored for a child decodes to the status recorded for it first**, or to an exit with
0, and the child is the only one with the id, in every run in which the signals recorded are 1 to
126. -/
theorem storedWord_run (ops : List Op) (hrun : runSteps step .start ops = some s)
    (hsig : ∀ i sig core, firstRecorded ops i = some (.signaled sig core) → 1 ≤ sig ∧ sig ≤ 126)
    {call : Call} (hcall : call ∈ s.calls) {id : ℕ} {word : BitVec 32}
    (hword : call.stored = some (id, word)) :
    ∃ i c, s.children[i]? = some c ∧ c.cageid = id ∧
      (∀ j c', s.children[j]? = some c' → c'.cageid = id → j = i) ∧
      Decodes word ((firstRecorded ops i).getD (.exited 0)) := by
  have hledger : Ledger s := (inv_of_runSteps (fun _ _ _ h hstep => Invariant.step h hstep)
    invariant_start hrun).ledger
  obtain ⟨z, hz, heq⟩ := map_eq_some_iff.mp hword
  cases heq
  obtain ⟨c, hc, hexit⟩ := (exactlyOnce_run hrun).2 z
    (List.mem_append_right _ (List.mem_filterMap.mpr ⟨call, hcall, hz⟩))
  obtain ⟨i, hi⟩ := List.mem_iff_getElem?.mp hc
  have hstatus : c.finalExitStatus = firstRecorded ops i := by
    have := statusOf_run hrun i
    rwa [State.statusOf, hi] at this
  obtain ⟨hid, hcode⟩ : c.cageid = z.cageid ∧ c.zombie.exitCode = z.exitCode := by
    rw [Child.exit] at hexit
    split at hexit <;> cases hexit <;> exact ⟨rfl, rfl⟩
  refine ⟨i, c, hi, hid, fun j c' hj hid' => ?_, ?_⟩
  · have hlt : j < (s.children.map Child.cageid).length := by
      rw [List.length_map]
      exact (List.getElem?_eq_some_iff.mp hj).1
    refine (List.getElem?_inj hlt hledger.distinct).mp ?_
    rw [List.getElem?_map, List.getElem?_map, hj, hi, map_some, map_some, hid, hid']
  · rw [← hcode, Child.zombie, hstatus]
    cases hfirst : firstRecorded ops i with
    | none => exact decodes_exited 0
    | some status =>
      cases status with
      | exited code => exact decodes_exited code
      | signaled sig core => exact decodes_signaled (hsig i sig core hfirst) core

/-- A child whose first status is a signal, and its second an exit. -/
def killedRun : List Op :=
  [.fork 2, .child 0 (.recordExitStatus (.signaled 9 true)),
    .child 0 (.recordExitStatus (.exited 3)),
    .child 0 .subChildNum, .child 0 .pushZombie, .waitpid 2 false, .call 0 .look]

theorem storedWord_killed :
    ∃ s call, runSteps step .start killedRun = some s ∧ call ∈ s.calls ∧
      call.stored = some (2, 0x89) ∧ Decodes 0x89 (.signaled 9 true) := by
  have hsig : ∀ i sig core, firstRecorded killedRun i = some (.signaled sig core) →
      1 ≤ sig ∧ sig ≤ 126 := by
    rintro (_ | i) sig core h
    · cases h
      decide
    · cases h
  refine ⟨_, _, rfl, List.mem_cons_self, rfl, ?_⟩
  obtain ⟨i, c, hi, -, -, h⟩ := storedWord_run killedRun rfl hsig List.mem_cons_self rfl
  rcases i with _ | i
  · exact h
  · cases hi

end LindWasm.Wait

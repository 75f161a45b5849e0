import LindWasm.Marshal.Footprint
import LindWasm.Marshal.Logged
import Mathlib.Data.List.TakeWhile

/-!
# Marshal/FailClosed — what has failed never reaches the handler

    ✓ ✓ … ✗                                   trap, the handler is not called
    ✓ ✓ … ✓  called  returned  scratch ✗      trap, and nothing is written for the struct

Before the call nothing can be missing and passed over: the first read, allocation, size or handle
that is not there is the last thing a dispatch does. Writes come after the handler's return. The
one thing that is still asked for after it is the scratch space of a struct's way back, so a full
arena may trap a call that the handler has already seen.
-/

namespace LindWasm.Marshal.Logged

open List Guarded Traced

variable {c : Call} {spec : MarshalSpec} {shadows : List Shadow} {g : Grate}

/-! ## The phases of a log -/

variable (log : List Event)

/-- Up to the call of the handler. -/
def beforeCall : List Event := log.takeWhile fun e => !e.isCalled

/-- From the call on. -/
def sinceCall : List Event := log.dropWhile fun e => !e.isCalled

/-- Up to the handler's return. -/
def beforeReturn : List Event := log.takeWhile fun e => !e.isReturned

variable (x : Acts ℕ)

/-- The dispatch trapped and the handler was never called. -/
def TrapsUncalled : Prop := x.value = none ∧ ∀ e ∈ x.trace, e.isCalled = false

/-- Nothing is written before the handler has returned, and whatever fails, the handler is not
called. -/
structure FailsClosed : Prop where
  writes : writes (beforeReturn x.trace) = []
  traps : (∃ e ∈ x.trace, e.failed) → TrapsUncalled x

/-- Nothing is written before the handler has returned; whatever fails before the call, the handler
is not called; and after it only the scratch space can fail, which is then the last event. -/
structure FailsClosedAtCall : Prop where
  writes : writes (beforeReturn x.trace) = []
  traps : (∃ e ∈ beforeCall x.trace, e.failed) → TrapsUncalled x
  after : ∀ e ∈ sinceCall x.trace, e.failed →
    (∃ n, e = .scratch n false) ∧ x.value = none ∧ x.trace.getLast? = some e

/-! ## The way back only writes -/

/-- An event of the way back. -/
def IsBack : Event → Prop
  | .scratch _ _ | .write _ => True
  | .check _ | .called _ | .returned _ => False

theorem copyOut_back (role : Role) (dest len : ℕ) (data : Mem) :
    (copyOut c g role dest len data).All IsBack := by
  refine all_ite (all_bind (all_emit _ trivial) fun _ => ?_) all_stop
  exact all_ite all_stop (all_pure g)

theorem copyChildren_back (checked : List (Track × ℕ × ℕ)) :
    (copyChildren c checked g).All IsBack := by
  induction checked generalizing g with
  | nil => exact all_pure g
  | cons x rest ih =>
    exact all_ite (all_bind (copyOut_back _ _ _ _) fun _ => ih) ih

theorem allocScratch_back (used n : ℕ) : (allocScratch c used n).All IsBack := by
  refine all_ite (all_pure used) (all_ite all_stop ?_)
  exact all_attempt _ (fun _ => trivial) _

theorem postStruct_back (s : Shadow) : (postStruct c s g).All IsBack := by
  refine all_ite (all_pure g) (all_ite all_stop ?_)
  refine all_bind (allocScratch_back _ _) fun used => ?_
  refine all_bind (all_ofOption _) fun checked => ?_
  refine all_bind (copyChildren_back _) fun g => ?_
  exact all_ite (copyOut_back _ _ _ _) (all_pure g)

theorem postShadow_back (as : ArgSpec) (s : Shadow) : (postShadow c as shadows s g).All IsBack := by
  refine all_ite ?_ (all_ite (postStruct_back s) ?_)
  · exact all_bind (all_ofOption _) fun _ => copyOut_back _ _ _ _
  · exact all_ite (copyOut_back _ _ _ _) (all_pure g)

theorem postShadows_back (rest : List Shadow) : (postShadows c spec shadows rest g).All IsBack := by
  induction rest generalizing g with
  | nil => exact all_pure g
  | cons s rest ih =>
    rw [postShadows]
    cases spec.args[s.argIndex]? with
    | none => exact all_pure g
    | some as => exact all_bind (postShadow_back as s) fun _ => ih

theorem IsBack.eq_scratch {e : Event} (h : IsBack e) (hfail : e.failed) :
    ∃ n, e = .scratch n false := by
  cases e with
  | scratch n met =>
    cases met with
    | false => exact ⟨n, rfl⟩
    | true => exact absurd hfail Bool.false_ne_true
  | write w => exact absurd hfail Bool.false_ne_true
  | check k | called args | returned ret => exact h.elim

/-! ## The order of a dispatch -/

section Order

variable {nargs : ℕ} {handler : Handler} {mem : Mem} {ks : List Check} {e : Event}

theorem checks_not_called (he : e ∈ ks.map .check) : e.isCalled = false := by
  obtain ⟨k, -, rfl⟩ := mem_map.mp he
  rfl

theorem checks_not_returned (he : e ∈ ks.map .check) : e.isReturned = false := by
  obtain ⟨k, -, rfl⟩ := mem_map.mp he
  rfl

/-- A trap before the call: there is nothing but checks. -/
theorem failsClosedAtCall_of_none (h : Marshal.preCall c spec nargs mem = none) :
    FailsClosedAtCall (dispatch c spec nargs handler mem) := by
  obtain ⟨htrace, hvalue⟩ := Traced.ext_iff.mp (dispatch_of_none h)
  constructor
  · rw [htrace, beforeReturn, takeWhile_eq_self_iff.mpr, writes_checks]
    exact fun e he => congrArg (!·) (checks_not_returned he)
  · exact fun _ => ⟨hvalue, htrace ▸ fun e he => checks_not_called he⟩
  · rw [htrace, sinceCall, dropWhile_eq_nil_iff.mpr]
    · exact forall_mem_nil _
    · exact fun e he => congrArg (!·) (checks_not_called he)

/-- With the handler called, everything before was there, and what comes after is the way back. -/
theorem failsClosedAtCall_of_some {args : List ℕ} {shadows : List Shadow} {st : PreState}
    (h : Marshal.preCall c spec nargs mem = some (args, shadows, st)) :
    FailsClosedAtCall (dispatch c spec nargs handler mem) := by
  have htrace := (Traced.ext_iff.mp (dispatch_of_some handler h)).1
  have hchecks := (preCall c spec nargs mem).stops.good ((value_preCall _ _).trans h)
  set ks := (preCall c spec nargs mem).trace
  have hcalled : ∀ e ∈ ks.map Event.check, (!e.isCalled) = true :=
    fun e he => congrArg (!·) (checks_not_called he)
  have hreturned : ∀ e ∈ ks.map Event.check, (!e.isReturned) = true :=
    fun e he => congrArg (!·) (checks_not_returned he)
  constructor
  · rw [htrace, beforeReturn, takeWhile_append_of_pos hreturned, writes_append, writes_checks]
    rfl
  · rintro ⟨e, he, hfail⟩
    rw [htrace, beforeCall, takeWhile_append_of_pos hcalled] at he
    obtain ⟨k, hk, rfl⟩ := mem_map.mp (append_nil (ks.map _) ▸ he)
    exact absurd hfail (Bool.eq_false_iff.mp (hchecks k hk))
  · intro e he hfail
    refine ⟨?_, (dispatch c spec nargs handler mem).stops.eq_last
      ((dropWhile_sublist _).subset he) hfail⟩
    rw [htrace, sinceCall, dropWhile_append_of_pos hcalled] at he
    rcases mem_cons.mp he with rfl | he
    · exact absurd hfail Bool.false_ne_true
    · rcases mem_cons.mp he with rfl | he
      · exact absurd hfail Bool.false_ne_true
      · exact (postShadows_back shadows e he).eq_scratch hfail

end Order

/-- **Fail closed.**  Without its log this is the dispatch; and in the log nothing is written before
the handler has returned, the handler is not called after anything has failed, and after the call
only the scratch space can fail. -/
theorem dispatch_failsClosedAtCall (c : Call) (spec : MarshalSpec) (nargs : ℕ) (handler : Handler)
    (mem : Mem) :
    outcome (dispatch c spec nargs handler mem) = Marshal.dispatch c spec nargs handler mem ∧
      FailsClosedAtCall (dispatch c spec nargs handler mem) := by
  refine ⟨outcome_dispatch, ?_⟩
  cases hpre : Marshal.preCall c spec nargs mem with
  | none => exact failsClosedAtCall_of_none hpre
  | some r => exact failsClosedAtCall_of_some hpre

/-- A struct with a buffer to be filled, which leaves eight bytes of the arena: the struct takes
eight, the table of its field 48. -/
def crowdedPtr : ArgSpec := structPtr .ptrInout 8 [(0, bytesPtr .ptrOut (arenaSize - 64))]

/-- **A full arena is found out too late**: the scratch space for the one tracked field takes twice
eight bytes, and the handler has been called by then. -/
theorem not_failsClosed_crowded :
    ¬ FailsClosed (dispatch (smallCall [(0x100, 0x200)] 0x100) ⟨[crowdedPtr], voidReturn⟩ 1
      idleHandler fun _ => 0) := by
  intro h
  have hfailed : ∃ e ∈ (dispatch (smallCall [(0x100, 0x200)] 0x100) ⟨[crowdedPtr], voidReturn⟩ 1
      idleHandler fun _ => 0).trace, e.failed := by decide +kernel
  exact absurd (h.traps hfailed).2 (by decide +kernel)

end LindWasm.Marshal.Logged

import Mathlib.Algebra.Ring.Nat

/-!
# Signal/Timer — `setitimer` and the thread that ticks

    itimerval --(sec, usec)--> Duration::new(sec, nanos) --tick--> SIGALRM
                                   │
    itimerval <--(as_secs, subsec_millis)

The microseconds of an `itimerval` go in as nanoseconds and come out as milliseconds, and a zero
`it_value` stops the timer without a word to the durations that are reported. A duration is kept
in nanoseconds here, an instant likewise.
-/

namespace LindWasm.Signal

@[ext] structure TimeVal where
  tvSec : BitVec 64
  tvUsec : BitVec 64
deriving DecidableEq

@[ext] structure ITimerVal where
  itInterval : TimeVal
  itValue : TimeVal
deriving DecidableEq

/-- `Duration::new`; `none` when the seconds overflow. -/
def durationNew (secs nanos : ℕ) : Option ℕ :=
  if secs + nanos / 10 ^ 9 < 2 ^ 64 then some (secs * 10 ^ 9 + nanos) else none

/-- `as_secs` and `subsec_millis`, as `setitimer` reports them. -/
def TimeVal.ofDuration (d : ℕ) : TimeVal :=
  ⟨BitVec.ofNat 64 (d / 10 ^ 9), BitVec.ofNat 64 (d % 10 ^ 9 / 10 ^ 6)⟩

def TimeVal.duration (v : TimeVal) : Option ℕ :=
  durationNew v.tvSec.toNat (v.tvUsec.setWidth 32).toNat

/-- `_IntervalTimer`. A timer that ticks has something to count. -/
structure IntervalTimer where
  startInstant : ℕ
  currDuration : ℕ
  nextDuration : ℕ
  isTicking : Bool
  counts : isTicking → 0 < currDuration

namespace IntervalTimer

/-- `_set_itimer`: a zero duration stops the timer, and leaves the durations as they are. -/
def setItimer (t : IntervalTimer) (now curr next : ℕ) : IntervalTimer :=
  if h : curr = 0 then { t with isTicking := false, counts := nofun }
  else ⟨now, curr, next, true, fun _ => Nat.pos_of_ne_zero h⟩

/-- One pass of the loop of `tick`: whether it sends `SIGALRM`, and the timer after it. -/
def tick (t : IntervalTimer) (now : ℕ) : Bool × IntervalTimer :=
  if t.isTicking ∧ t.currDuration - (now - t.startInstant) = 0 then
    (true, t.setItimer now t.nextDuration t.nextDuration)
  else (false, t)

/-- The passes, among those at `ticks`, that send `SIGALRM`. -/
def alarms (t : IntervalTimer) : List ℕ → List ℕ
  | [] => []
  | now :: ticks =>
    if (t.tick now).1 then now :: (t.tick now).2.alarms ticks else (t.tick now).2.alarms ticks

/-- What `get_itimer` gives, as `setitimer` reports it. -/
def report (t : IntervalTimer) : ITimerVal :=
  ⟨.ofDuration t.nextDuration, .ofDuration t.currDuration⟩

end IntervalTimer

def itimerReal : BitVec 32 := 0

/-- `setitimer_syscall`, with the old value it writes if there is a pointer for it; `none` when it
panics. -/
def setitimer (which : BitVec 32) (newValue : Option ITimerVal) (oldValue : Bool) (now : ℕ)
    (t : IntervalTimer) : Option (Option ITimerVal × IntervalTimer) :=
  if which = itimerReal then do
    let old := if oldValue then some t.report else none
    match newValue with
    | none => some (old, t)
    | some v => some (old, t.setItimer now (← v.itValue.duration) (← v.itInterval.duration))
  else some (none, t)

/-! ## What is asked for -/

/-- Seconds that are not negative, and microseconds below a second. -/
def TimeVal.Valid (v : TimeVal) : Prop := 0 ≤ v.tvSec.toInt ∧ v.tvUsec.toNat < 10 ^ 6
deriving Decidable

def ITimerVal.Valid (v : ITimerVal) : Prop := v.itValue.Valid ∧ v.itInterval.Valid
deriving Decidable

/-- The time a `timeval` names, in nanoseconds. -/
def TimeVal.nanos (v : TimeVal) : ℕ := v.tvSec.toNat * 10 ^ 9 + v.tvUsec.toNat * 10 ^ 3

/-- The passes that find a timer expired which runs for `value` from `start`, and from then on for
`interval` again and again; a timer for no time does not run. -/
def expiries (start value interval : ℕ) : List ℕ → List ℕ
  | [] => []
  | now :: ticks =>
    if 0 < value ∧ start + value ≤ now then now :: expiries now interval interval ticks
    else expiries start value interval ticks

section Expiries

variable {start value interval now : ℕ} {ticks : List ℕ}

theorem expiries_of_le (h : 0 < value) (hle : start + value ≤ now) :
    expiries start value interval (now :: ticks) = now :: expiries now interval interval ticks :=
  if_pos ⟨h, hle⟩

theorem expiries_of_not (h : ¬ (0 < value ∧ start + value ≤ now)) :
    expiries start value interval (now :: ticks) = expiries start value interval ticks := if_neg h

theorem expiries_zero : expiries start 0 interval ticks = [] := by
  induction ticks with
  | nil => rfl
  | cons now ticks ih => rw [expiries_of_not (by omega), ih]

theorem expiries_setItimer (t : IntervalTimer) (curr next : ℕ) :
    (if (t.setItimer now curr next).isTicking then
      expiries (t.setItimer now curr next).startInstant (t.setItimer now curr next).currDuration
        (t.setItimer now curr next).nextDuration ticks else []) = expiries now curr next ticks := by
  unfold IntervalTimer.setItimer
  split
  · next h => rw [h, expiries_zero, if_neg nofun]
  · rfl

/-- **The ticking thread keeps to the durations it is given.** -/
theorem IntervalTimer.alarms_eq (t : IntervalTimer) : t.alarms ticks
    = if t.isTicking then expiries t.startInstant t.currDuration t.nextDuration ticks else [] := by
  induction ticks generalizing t with
  | nil => exact (ite_self _).symm
  | cons now ticks ih =>
    rw [alarms]
    by_cases htick : t.isTicking = true
    · have hpos := t.counts htick
      rw [if_pos htick]
      by_cases hdue : t.startInstant + t.currDuration ≤ now
      · have h : t.tick now = (true, _) := if_pos ⟨htick, by omega⟩
        rw [h, if_pos rfl, ih, expiries_setItimer, expiries_of_le hpos hdue]
      · have h : t.tick now = (false, t) := if_neg (by omega)
        rw [h, if_neg nofun, ih, if_pos htick, expiries_of_not (by omega)]
    · have h : t.tick now = (false, t) := if_neg fun h => htick h.1
      rw [h, if_neg nofun, ih, if_neg htick, if_neg htick]

end Expiries

/-! ## What is set -/

/-- The nanoseconds `setitimer` makes of a `timeval`. -/
def TimeVal.taken (v : TimeVal) : ℕ := v.tvSec.toNat * 10 ^ 9 + v.tvUsec.toNat

theorem TimeVal.taken_eq_nanos {v : TimeVal} (h : v.tvUsec = 0) : v.taken = v.nanos := by
  unfold taken nanos
  rw [h]
  rfl

theorem TimeVal.taken_eq_zero {v : TimeVal} : v.taken = 0 ↔ v = ⟨0, 0⟩ := by
  constructor
  · intro h
    unfold taken at h
    ext1 <;> refine BitVec.eq_of_toNat_eq (Eq.trans ?_ rfl : _ = 0) <;> omega
  · rintro rfl
    rfl

section

variable {v : TimeVal} (hv : v.Valid)
include hv

theorem TimeVal.Valid.duration_eq : v.duration = some v.taken := by
  obtain ⟨-, hlt⟩ := hv
  have hsec := v.tvSec.isLt
  unfold duration durationNew taken
  rw [BitVec.toNat_setWidth, Nat.mod_eq_of_lt (by omega), if_pos (by omega)]

/-- The microseconds are gone when the duration is reported. -/
theorem TimeVal.Valid.ofDuration_eq_iff : ofDuration v.taken = v ↔ v.tvUsec = 0 := by
  obtain ⟨-, hlt⟩ := hv
  have hsec : v.taken / 10 ^ 9 = v.tvSec.toNat := by unfold taken; omega
  have husec : v.taken % 10 ^ 9 / 10 ^ 6 = 0 := by unfold taken; omega
  unfold ofDuration
  rw [hsec, husec, BitVec.ofNat_toNat, BitVec.setWidth_eq]
  constructor <;> intro h
  · rw [← h]
    rfl
  · exact congrArg (TimeVal.mk v.tvSec) h.symm

end

section

variable {v : ITimerVal} (hv : v.Valid) {old : Bool} {now : ℕ} {t : IntervalTimer}

include hv

/-- The call itself: the durations of the new value, and the report of the old one. -/
theorem ITimerVal.Valid.setitimer_eq : setitimer itimerReal (some v) old now t
    = some (if old then some t.report else none,
      t.setItimer now v.itValue.taken v.itInterval.taken) := by
  unfold setitimer
  rw [if_pos rfl]
  dsimp only
  rw [hv.1.duration_eq, hv.2.duration_eq]
  rfl

theorem ITimerVal.Valid.report_setItimer :
    (t.setItimer now v.itValue.taken v.itInterval.taken).report = v ↔
      if v.itValue = ⟨0, 0⟩ then t.report = v
      else v.itValue.tvUsec = 0 ∧ v.itInterval.tvUsec = 0 := by
  unfold IntervalTimer.setItimer
  by_cases h0 : v.itValue = ⟨0, 0⟩
  · rw [if_pos h0, dif_pos (TimeVal.taken_eq_zero.mpr h0)]
    rfl
  · rw [if_neg h0, dif_neg (mt TimeVal.taken_eq_zero.mp h0), ← hv.1.ofDuration_eq_iff,
      ← hv.2.ofDuration_eq_iff, ITimerVal.ext_iff, and_comm]
    rfl

/-- **The timer runs, and is reported, as it was set just when there are no microseconds in it** —
and one that is stopped is reported as it was told just when it was so before. -/
theorem setitimer_exact_iff {w : ITimerVal} (hw : w.Valid) {now' : ℕ} :
    (∃ x t' t'', setitimer itimerReal (some v) old now t = some (x, t') ∧
      (∀ ticks, t'.alarms ticks = expiries now v.itValue.nanos v.itInterval.nanos ticks) ∧
      setitimer itimerReal (some w) true now' t' = some (some v, t'')) ↔
    if v.itValue = ⟨0, 0⟩ then t.report = v
      else v.itValue.tvUsec = 0 ∧ v.itInterval.tvUsec = 0 := by
  rw [hv.setitimer_eq, ← hv.report_setItimer]
  constructor
  · rintro ⟨x, t', t'', ht', -, ht''⟩
    cases ht'
    rw [hw.setitimer_eq] at ht''
    exact Option.some.inj (congrArg Prod.fst (Option.some.inj ht''))
  · intro h
    refine ⟨_, _, t.setItimer now v.itValue.taken v.itInterval.taken |>.setItimer now'
      w.itValue.taken w.itInterval.taken, rfl, fun ticks => ?_, ?_⟩
    · rw [IntervalTimer.alarms_eq, expiries_setItimer]
      rw [hv.report_setItimer] at h
      split at h
      · next h0 =>
        rw [h0]
        exact expiries_zero.trans expiries_zero.symm
      · rw [TimeVal.taken_eq_nanos h.1, TimeVal.taken_eq_nanos h.2]
    · rw [hw.setitimer_eq, h, if_pos rfl]

end

/-- A second, and then two at a time. -/
theorem setitimer_exact_seconds : let v : ITimerVal := ⟨⟨2, 0⟩, ⟨1, 0⟩⟩
    ∃ x t' t'', setitimer itimerReal (some v) false 5 ⟨0, 0, 0, false, nofun⟩ = some (x, t') ∧
      (∀ ticks, t'.alarms ticks = expiries 5 v.itValue.nanos v.itInterval.nanos ticks) ∧
      setitimer itimerReal (some v) true 5 t' = some (some v, t'') :=
  (setitimer_exact_iff (by decide) (by decide)).mpr (by decide)

/-- Half a second goes off after half a millisecond, and reads as none at all. -/
theorem setitimer_half_second : ∃ t', setitimer itimerReal (some ⟨⟨0, 0⟩, ⟨0, 500000⟩⟩) false 0
      ⟨0, 0, 0, false, nofun⟩ = some (none, t') ∧ t'.alarms [500000] = [500000] ∧
    expiries 0 (TimeVal.nanos ⟨0, 500000⟩) 0 [500000] = [] ∧ t'.report = ⟨⟨0, 0⟩, ⟨0, 0⟩⟩ :=
  ⟨_, rfl, by decide⟩

end LindWasm.Signal

import Mathlib.Data.Int.Notation
import Mathlib.Data.Nat.Notation
import Mathlib.Logic.Function.Basic

/-!
# Grate/Errno — the errno of a call that ran in a grate

    portal --seed--> NEXT_GRATE_ERRNO_SEED --take--> worker --> grate code, nested calls
    portal <--take-- LAST_GRATE_ERRNO <--set-- worker <---------┘

Two thread-local slots carry errno into a grate call and out of it. Only portals take from the
second slot, and only a worker empties the first; an interposed system call fills the second for
nobody, and a call to a dead grate leaves both as they are. `faithful_iff` says exactly for which
trees of calls no value reaches a call it was not meant for.
-/

namespace LindWasm.Grate

open Function Option List

/-! ## Calls -/

/-- Where an instance keeps errno: no `__errno_location`, one whose address cannot be read, or an
address. -/
inductive ErrnoAccess
  | absent
  | unreadable
  | at (loc : ℕ)
deriving DecidableEq

/-- A library call through a portal, from a cage, or an interposed system call. -/
inductive CallKind
  | portal (caller : ErrnoAccess)
  | syscall
deriving DecidableEq

/-- What guest code does on one thread, as far as errno goes: its stores, and its calls into grates.
A refused call finds the grate dead or shutting down; a call that runs has the code of the grate as
its body, and ends normally or with a trap. -/
inductive Prog
  | done
  | store (loc : ℕ) (val : ℤ) (rest : Prog)
  | refused (kind : CallKind) (rest : Prog)
  | ran (kind : CallKind) (grate : ErrnoAccess) (body : Prog) (traps : Bool) (rest : Prog)

/-- What a call did with a value: the grate left its errno, a portal wrote into its caller the errno
of the call `src`, a worker took the seed of the call `src`. -/
inductive Entry
  | left (call : ℕ) (val : ℤ)
  | wrote (call src : ℕ) (val : ℤ)
  | took (call src : ℕ)
deriving DecidableEq

/-- The thread: its two slots, each value with the call it comes from, and the memory the errno
locations point into. -/
structure Thread where
  last : Option (ℕ × ℤ)
  seed : Option (ℕ × ℤ)
  mem : ℕ → ℤ
  clock : ℕ
  log : List Entry

def Thread.start (mem : ℕ → ℤ) : Thread := ⟨none, none, mem, 0, []⟩

/-! ## The relay -/

variable (kind : CallKind)

/-- The portal before the dispatch: the caller's errno becomes the seed. -/
def storeSeed (call : ℕ) (s : Thread) : Thread :=
  match kind with
  | .portal (.at loc) => { s with seed := some (call, s.mem loc) }
  | .portal .unreadable => { s with seed := none }
  | .portal .absent | .syscall => s

/-- A call gets the next number. -/
def callBegin (s : Thread) : Thread :=
  storeSeed kind s.clock { s with clock := s.clock + 1 }

/-- The worker before the grate's code: the last errno is reset, the seed taken and stored. -/
def runStart (grate : ErrnoAccess) (call : ℕ) (s : Thread) : Thread :=
  match s.seed with
  | none => { s with last := none }
  | some (src, val) =>
      { s with
        last := none
        seed := none
        mem := match grate with
          | .at loc => update s.mem loc val
          | _ => s.mem
        log := .took call src :: s.log }

/-- The worker after it: the grate's errno is recorded, unless its code trapped. -/
def runEnd (grate : ErrnoAccess) (traps : Bool) (call : ℕ) (s : Thread) : Thread :=
  match grate with
  | .at loc =>
      { s with
        last := if traps then s.last else some (call, s.mem loc)
        log := .left call (s.mem loc) :: s.log }
  | _ => s

/-- The portal after the dispatch, whatever it returned: the last errno is taken and written. -/
def callEnd (call : ℕ) (s : Thread) : Thread :=
  match kind, s.last with
  | .portal (.at loc), some (src, val) =>
      { s with
        last := none
        mem := update s.mem loc val
        log := .wrote call src val :: s.log }
  | .portal _, _ => { s with last := none }
  | .syscall, _ => s

def exec : Prog → Thread → Thread
  | .done, s => s
  | .store loc val rest, s => exec rest { s with mem := update s.mem loc val }
  | .refused kind rest, s => exec rest (callEnd kind s.clock (callBegin kind s))
  | .ran kind grate body traps rest, s =>
      exec rest (callEnd kind s.clock (runEnd grate traps s.clock
        (exec body (runStart grate s.clock (callBegin kind s)))))

/-- Every errno written is the one the grate of that very call left, and every seed taken is the one
stored for that very call. -/
def Faithful (log : List Entry) : Prop :=
  ∀ e ∈ log, match e with
    | .left .. => True
    | .wrote call src val => src = call ∧ .left call val ∈ log
    | .took call src => src = call

/-! ## The condition -/

/-- Which of the slots is waiting to be taken. -/
structure Waiting where
  errno : Bool
  seed : Bool
deriving DecidableEq

def CallKind.isPortal : CallKind → Bool
  | .portal _ => true
  | .syscall => false

/-- The portal has a place to write an errno to. -/
def CallKind.writes : CallKind → Bool
  | .portal (.at _) => true
  | _ => false

/-- The call leaves the seed slot as it finds it. -/
def CallKind.keepsSeed : CallKind → Bool
  | .portal .absent | .syscall => true
  | _ => false

def ErrnoAccess.isAt : ErrnoAccess → Bool
  | .at _ => true
  | _ => false

/-- After a refused call: a portal took the errno, and its own seed is waiting. -/
def Waiting.refuse (w : Waiting) : Waiting where
  errno := !kind.isPortal && w.errno
  seed := kind.writes || kind.keepsSeed && w.seed

/-- After a call that ran: an interposed system call leaves an errno waiting if its grate has one
and ended normally, or if its body left one. -/
def Waiting.finish (grate : ErrnoAccess) (traps : Bool) (body : Waiting) :
    Waiting where
  errno := !kind.isPortal && (grate.isAt && !traps || body.errno)
  seed := body.seed

def waits : Prog → Waiting → Waiting
  | .done, w => w
  | .store _ _ rest, w => waits rest w
  | .refused kind rest, w => waits rest (w.refuse kind)
  | .ran kind grate body traps rest, _ =>
      waits rest (.finish kind grate traps (waits body ⟨false, false⟩))

/-- No portal that gets no errno of its own finds one waiting, and no call that stores no seed of
its own runs while one is. -/
def Clean : Prog → Waiting → Prop
  | .done, _ => True
  | .store _ _ rest, w => Clean rest w
  | .refused kind rest, w =>
      (kind.writes = true → w.errno = false) ∧ Clean rest (w.refuse kind)
  | .ran kind grate body traps rest, w =>
      (kind.keepsSeed = true → w.seed = false)
        ∧ Clean body ⟨false, false⟩
        ∧ (kind.writes = true →
            (grate.isAt && !traps) = true ∨ (waits body ⟨false, false⟩).errno = false)
        ∧ Clean rest (.finish kind grate traps (waits body ⟨false, false⟩))

/-! ## The slots, step by step -/

/-- The entry is about one call only. -/
def Entry.Own : Entry → Prop
  | .left .. => True
  | .wrote call src _ => src = call
  | .took call src => src = call

def AllOwn (log : List Entry) : Prop := ∀ e ∈ log, e.Own

/-- The slots are as the condition tracks them, their values from earlier calls, and every errno
that moves was left by the call it is said to come from. -/
structure Tracks (s : Thread) (w : Waiting) : Prop where
  errno : s.last.isSome = w.errno
  seed : s.seed.isSome = w.seed
  last_lt : ∀ src val, s.last = some (src, val) → src < s.clock ∧ .left src val ∈ s.log
  seed_lt : ∀ src val, s.seed = some (src, val) → src < s.clock
  wrote : ∀ call src val, .wrote call src val ∈ s.log → .left src val ∈ s.log

variable {s : Thread} {w : Waiting} {kind : CallKind} {grate : ErrnoAccess} {traps : Bool}
  {call : ℕ} {p : Prog}

theorem allOwn_cons {e : Entry} {log : List Entry} : AllOwn (e :: log) ↔ e.Own ∧ AllOwn log :=
  forall_mem_cons

theorem tracks_start (mem : ℕ → ℤ) : Tracks (.start mem) ⟨false, false⟩ :=
  ⟨rfl, rfl, nofun, nofun, nofun⟩

/-- An errno that moved was left where it is said to come from, so only the call can be wrong. -/
theorem Tracks.faithful_iff_allOwn (h : Tracks s w) : Faithful s.log ↔ AllOwn s.log := by
  constructor
  · intro hf e he
    have hown := hf e he
    cases e with
    | left => trivial
    | wrote call src val => exact hown.1
    | took call src => exact hown
  · intro hall e he
    have hown := hall e he
    cases e with
    | left => trivial
    | wrote call src val =>
      obtain rfl : src = call := hown
      exact ⟨rfl, h.wrote _ _ _ he⟩
    | took call src => exact hown

theorem CallKind.keepsSeed_of_writes (kind : CallKind) (h : kind.writes = true) :
    kind.keepsSeed = false := by
  cases kind with
  | syscall => cases h
  | portal caller => cases caller <;> first | rfl | cases h

@[simp] theorem callBegin_last : (callBegin kind s).last = s.last := by
  unfold callBegin storeSeed
  split <;> rfl

@[simp] theorem callBegin_log : (callBegin kind s).log = s.log := by
  unfold callBegin storeSeed
  split <;> rfl

@[simp] theorem callBegin_clock : (callBegin kind s).clock = s.clock + 1 := by
  unfold callBegin storeSeed
  split <;> rfl

variable {src : ℕ} {val : ℤ}

/-- After a call has begun, the seed is its own, or the one found where it stores none. -/
theorem callBegin_seed (h : (callBegin kind s).seed = some (src, val)) :
    kind.writes = true ∧ src = s.clock ∨ kind.keepsSeed = true ∧ s.seed = some (src, val) := by
  unfold callBegin storeSeed at h
  split at h
  · exact .inl ⟨rfl, (Prod.mk.inj (some.inj h)).1.symm⟩
  · cases h
  · exact .inr ⟨rfl, h⟩
  · exact .inr ⟨rfl, h⟩

theorem callBegin_seed_isSome (kind : CallKind) (s : Thread) :
    (callBegin kind s).seed.isSome = (kind.writes || kind.keepsSeed && s.seed.isSome) := by
  cases kind with
  | syscall => rfl
  | portal caller => cases caller <;> rfl

theorem tracks_callBegin (kind : CallKind) (h : Tracks s w) :
    Tracks (callBegin kind s) ⟨w.errno, kind.writes || kind.keepsSeed && w.seed⟩ := by
  refine ⟨?_, ?_, fun src val hlast => ?_, fun src val hseed => ?_, fun call src val hmem => ?_⟩
  · rw [callBegin_last, h.errno]
  · rw [callBegin_seed_isSome, h.seed]
  · rw [callBegin_last] at hlast
    obtain ⟨hlt, hleft⟩ := h.last_lt src val hlast
    rw [callBegin_clock, callBegin_log]
    exact ⟨Nat.lt_succ_of_lt hlt, hleft⟩
  · rw [callBegin_clock]
    obtain ⟨_, rfl⟩ | ⟨_, hold⟩ := callBegin_seed hseed
    · exact Nat.lt_succ_self _
    · exact Nat.lt_succ_of_lt (h.seed_lt src val hold)
  · rw [callBegin_log] at hmem ⊢
    exact h.wrote call src val hmem

theorem tracks_runStart (grate : ErrnoAccess) (call : ℕ) (h : Tracks s w) :
    Tracks (runStart grate call s) ⟨false, false⟩ := by
  unfold runStart
  split
  · rename_i hnone
    exact ⟨rfl, by rw [hnone]; rfl, nofun, h.seed_lt, h.wrote⟩
  · refine ⟨rfl, rfl, nofun, nofun, fun c src val hmem => ?_⟩
    obtain hnew | hold := mem_cons.mp hmem
    · cases hnew
    · exact mem_cons_of_mem _ (h.wrote c src val hold)

@[simp] theorem runStart_last : (runStart grate call s).last = none := by
  unfold runStart
  split <;> rfl

@[simp] theorem runStart_clock : (runStart grate call s).clock = s.clock := by
  unfold runStart
  split <;> rfl

/-- The seed a worker takes is the call's own exactly if the call stores one or finds none. -/
theorem allOwn_runStart (h : Tracks s w) :
    AllOwn (runStart grate s.clock (callBegin kind s)).log
      ↔ AllOwn s.log ∧ (kind.keepsSeed = true → w.seed = false) := by
  have hnew := callBegin_seed_isSome kind s
  unfold runStart
  split
  · rename_i hnone
    rw [hnone, h.seed] at hnew
    rw [callBegin_log, iff_self_and]
    intro _ hkeeps
    rw [hkeeps, Bool.true_and] at hnew
    exact (Bool.or_eq_false_iff.mp hnew.symm).2
  · rename_i src val hsome
    rw [allOwn_cons, callBegin_log, and_comm]
    refine and_congr_right fun _ => ?_
    obtain ⟨hwrites, rfl⟩ | ⟨hkeeps, hold⟩ := callBegin_seed hsome
    · refine iff_of_true rfl fun hkeeps => ?_
      rw [kind.keepsSeed_of_writes hwrites] at hkeeps
      cases hkeeps
    · refine iff_of_false (Nat.ne_of_lt (h.seed_lt src val hold)) fun hno => ?_
      have hseed := hno hkeeps
      rw [← h.seed, hold] at hseed
      cases hseed

@[simp] theorem runEnd_clock : (runEnd grate traps call s).clock = s.clock := by
  unfold runEnd
  split <;> rfl

theorem allOwn_runEnd : AllOwn (runEnd grate traps call s).log ↔ AllOwn s.log := by
  unfold runEnd
  split
  · rw [allOwn_cons]
    exact and_iff_right trivial
  · rfl

theorem tracks_runEnd (grate : ErrnoAccess) (traps : Bool) (h : Tracks s w)
    (hcall : call < s.clock) :
    Tracks (runEnd grate traps call s) ⟨grate.isAt && !traps || w.errno, w.seed⟩ := by
  unfold runEnd
  split
  · rename_i loc
    refine ⟨?_, h.seed, fun src val hlast => ?_, h.seed_lt, fun c src val hmem => ?_⟩
    · cases traps
      · rfl
      · simp [ErrnoAccess.isAt, h.errno]
    · cases traps with
      | false =>
        cases hlast
        exact ⟨hcall, mem_cons_self⟩
      | true =>
        obtain ⟨hlt, hleft⟩ := h.last_lt src val hlast
        exact ⟨hlt, mem_cons_of_mem _ hleft⟩
    · obtain hnew | hold := mem_cons.mp hmem
      · cases hnew
      · exact mem_cons_of_mem _ (h.wrote c src val hold)
  · rename_i hno
    have hat : grate.isAt = false := by
      cases grate with
      | «at» loc => exact absurd rfl (hno loc)
      | _ => rfl
    rw [hat, Bool.false_and, Bool.false_or]
    exact h

@[simp] theorem callEnd_clock : (callEnd kind call s).clock = s.clock := by
  unfold callEnd
  split <;> rfl

theorem tracks_callEnd (kind : CallKind) (call : ℕ) (h : Tracks s w) :
    Tracks (callEnd kind call s) ⟨!kind.isPortal && w.errno, w.seed⟩ := by
  unfold callEnd
  split
  · rename_i loc src val hlast
    refine ⟨rfl, h.seed, nofun, h.seed_lt, fun c src' val' hmem => ?_⟩
    obtain hnew | hold := mem_cons.mp hmem
    · cases hnew
      exact mem_cons_of_mem _ (h.last_lt src val hlast).2
    · exact mem_cons_of_mem _ (h.wrote c src' val' hold)
  · exact ⟨rfl, h.seed, nofun, h.seed_lt, h.wrote⟩
  · exact h

/-- The errno a portal writes is its own call's exactly if that call is where it comes from. -/
theorem allOwn_callEnd : AllOwn (callEnd kind call s).log
    ↔ AllOwn s.log ∧ (kind.writes = true → ∀ src val, s.last = some (src, val) → src = call) := by
  unfold callEnd
  split
  · rename_i loc src val hlast
    rw [allOwn_cons, and_comm]
    refine and_congr_right fun _ =>
      ⟨fun hown _ src' val' hlast' => ?_, fun h => h rfl src val hlast⟩
    rw [hlast] at hlast'
    cases hlast'
    exact hown
  · rename_i caller hno
    rw [iff_self_and]
    intro _ hwrites src val hlast
    cases caller with
    | «at» loc => exact (hno loc src val hlast rfl).elim
    | _ => cases hwrites
  · rw [iff_self_and]
    exact fun _ hwrites => nomatch hwrites

/-! ## Whole trees -/

/-- A worker that relays an errno relays that of its call, and one that does not leaves the slot. -/
theorem runEnd_last_eq : if grate.isAt && !traps then
      ∃ val, (runEnd grate traps call s).last = some (call, val)
    else (runEnd grate traps call s).last = s.last := by
  cases grate with
  | «at» loc =>
    cases traps with
    | false => exact ⟨_, rfl⟩
    | true => rfl
  | _ => rfl

theorem runEnd_last (h : (runEnd grate traps call s).last = some (src, val)) :
    src = call ∨ s.last = some (src, val) := by
  have heq := @runEnd_last_eq s grate traps call
  split at heq
  · obtain ⟨val', hval⟩ := heq
    exact .inl (Prod.mk.inj (mem_unique h hval)).1
  · exact .inr (heq.symm.trans h)

theorem callEnd_last (h : (callEnd kind call s).last = some (src, val)) :
    s.last = some (src, val) := by
  unfold callEnd at h
  split at h
  · cases h
  · cases h
  · exact h

/-- After any code the last errno is the one found, or of a call made since. -/
theorem exec_last (p : Prog) (s : Thread) : s.clock ≤ (exec p s).clock
    ∧ ∀ src val, (exec p s).last = some (src, val) → s.last = some (src, val) ∨ s.clock ≤ src := by
  induction p generalizing s with
  | done => exact ⟨Nat.le_refl _, fun _ _ h => .inl h⟩
  | store loc val rest ih => exact ih { s with mem := update s.mem loc val }
  | refused kind rest ih =>
    obtain ⟨hclock, hlast⟩ := ih (callEnd kind s.clock (callBegin kind s))
    rw [callEnd_clock, callBegin_clock] at hclock hlast
    refine ⟨Nat.le_of_succ_le hclock, fun src val h => ?_⟩
    refine (hlast src val h).imp (fun hold => ?_) Nat.le_of_succ_le
    have hbegin := callEnd_last hold
    rwa [callBegin_last] at hbegin
  | ran kind grate body traps rest ihb ihr =>
    obtain ⟨hclockb, hlastb⟩ := ihb (runStart grate s.clock (callBegin kind s))
    rw [runStart_clock, callBegin_clock] at hclockb hlastb
    obtain ⟨hclock, hlast⟩ := ihr (callEnd kind s.clock (runEnd grate traps s.clock
      (exec body (runStart grate s.clock (callBegin kind s)))))
    rw [callEnd_clock, runEnd_clock] at hclock hlast
    refine ⟨Nat.le_of_succ_le (Nat.le_trans hclockb hclock), fun src val h => .inr ?_⟩
    obtain hold | hnew := hlast src val h
    · obtain rfl | hbody := runEnd_last (callEnd_last hold)
      · exact Nat.le_refl _
      · obtain hstart | hle := hlastb src val hbody
        · rw [runStart_last] at hstart
          cases hstart
        · exact Nat.le_of_succ_le hle
    · exact Nat.le_of_succ_le (Nat.le_trans hclockb hnew)

/-- An errno left waiting by the body of a call is not the call's own. -/
theorem exec_last_ne (body : Prog)
    (h : (exec body (runStart grate s.clock (callBegin kind s))).last = some (src, val)) :
    src ≠ s.clock := by
  obtain hstart | hle := (exec_last body _).2 src val h
  · rw [runStart_last] at hstart
    cases hstart
  · rw [runStart_clock, callBegin_clock] at hle
    exact Nat.ne_of_gt (Nat.lt_of_succ_le hle)

/-- All that may wait is the call's own, and what waits is not: then nothing does. -/
theorem forall_last_eq_iff (hne : ∀ src val, s.last = some (src, val) → src ≠ call) :
    (∀ src val, s.last = some (src, val) → src = call) ↔ s.last.isSome = false := by
  cases hlast : s.last with
  | none => simp
  | some x =>
    refine iff_of_false (fun h => hne x.1 x.2 hlast (h x.1 x.2 rfl)) ?_
    simp

/-- What a call writes to its caller is its own if its worker relays an errno, or if the body has
left none. -/
theorem runEnd_own_iff {body : Prog} {w' : Waiting}
    (hbody : Tracks (exec body (runStart grate s.clock (callBegin kind s))) w') :
    (∀ src val, (runEnd grate traps s.clock (exec body
        (runStart grate s.clock (callBegin kind s)))).last = some (src, val) → src = s.clock)
      ↔ (grate.isAt && !traps) = true ∨ w'.errno = false := by
  have heq := @runEnd_last_eq (exec body (runStart grate s.clock (callBegin kind s))) grate traps
    s.clock
  split at heq
  · rename_i hrelays
    obtain ⟨val, hval⟩ := heq
    refine iff_of_true (fun src val' hlast => ?_) (.inl hrelays)
    exact (Prod.mk.inj (mem_unique hlast hval)).1
  · rename_i hrelays
    rw [heq, ← hbody.errno, or_iff_right hrelays]
    exact forall_last_eq_iff fun _ _ => exec_last_ne body

/-- **The condition tracks the slots through any code, and every value reaches its own call exactly
if the code meets it.** -/
theorem exec_tracks (p : Prog) (h : Tracks s w) :
    Tracks (exec p s) (waits p w) ∧ (AllOwn (exec p s).log ↔ AllOwn s.log ∧ Clean p w) := by
  induction p generalizing s w with
  | done => exact ⟨h, (and_iff_left trivial).symm⟩
  | store loc val rest ih =>
    have hs : Tracks { s with mem := update s.mem loc val } w := ⟨h.1, h.2, h.3, h.4, h.5⟩
    exact ih hs
  | refused kind rest ih =>
    obtain ⟨htracks, hown⟩ := ih (tracks_callEnd kind s.clock (tracks_callBegin kind h))
    refine ⟨htracks, hown.trans ?_⟩
    rw [allOwn_callEnd, callBegin_log, callBegin_last, and_assoc]
    refine and_congr_right fun _ => and_congr_left fun _ => imp_congr_right fun _ => ?_
    rw [← h.errno]
    exact forall_last_eq_iff fun src val hlast => Nat.ne_of_lt (h.last_lt src val hlast).1
  | ran kind grate body traps rest ihb ihr =>
    obtain ⟨hbody, hbodyOwn⟩ :=
      ihb (tracks_runStart grate s.clock (tracks_callBegin kind h))
    have hclock := (exec_last body (runStart grate s.clock (callBegin kind s))).1
    rw [runStart_clock, callBegin_clock] at hclock
    obtain ⟨htracks, hown⟩ := ihr (tracks_callEnd kind s.clock
      (tracks_runEnd grate traps hbody (Nat.lt_of_succ_le hclock)))
    refine ⟨htracks, hown.trans ?_⟩
    rw [allOwn_callEnd, runEnd_own_iff hbody, allOwn_runEnd, hbodyOwn, allOwn_runStart h]
    simp only [and_assoc]
    rfl

/-- **Every errno written and every seed taken belongs to its own call exactly in the trees that
meet the condition**: calls of both kinds to any depth, to any mix of grates and cages with and
without an errno, ending in any way. -/
theorem faithful_iff (p : Prog) (mem : ℕ → ℤ) :
    Faithful (exec p (.start mem)).log ↔ Clean p ⟨false, false⟩ := by
  obtain ⟨htracks, hown⟩ := exec_tracks p (tracks_start mem)
  rw [htracks.faithful_iff_allOwn, hown]
  exact and_iff_right nofun

/-- **A refused library call hands its caller the errno of an earlier system call**, which a grate
left in the slot for nobody. -/
theorem not_faithful_refused :
    ¬ Faithful (exec (.ran .syscall (.at 1) (.store 1 9 .done) false
      (.refused (.portal (.at 2)) .done)) (.start fun _ => 0)).log := by
  intro h
  have hwrote := h (.wrote 1 0 9) (by decide)
  exact absurd hwrote.1 (by decide)

end LindWasm.Grate

import Mathlib.Data.Finset.Basic
import LindWasm.Dylink.Inherit
import LindWasm.Threei.Handlers

/-!
# Threei/Routing — where a system call goes

    make_syscall : target gone? --> -ESRCH
                   handler of (self, number) --> RawPOSIX · 3i · a grate --dead?--> -ESRCH
                   no handler --> panic

A registration takes the place of the handler a call had before, so that the death of the grate
leaves the call with none. `served_run_iff` says which registrations and deaths a cage survives.
-/

namespace LindWasm.Threei

open Function Option

open Dylink (LibHandlerTable)

/-! ## Cages -/

/-- The cage table: for each cage in it whether it is dead. Ids are given out once. -/
structure CageTable where
  isDead : ℕ → Option Bool
  nextCageid : ℕ
  allocated : ∀ c, isDead c ≠ none → c ≤ nextCageid

namespace CageTable

def cageStartId : ℕ := 1

def maxCageid : ℕ := 2048

/-- The initial cage alone. -/
def init : CageTable where
  isDead c := if c = cageStartId then some false else none
  nextCageid := cageStartId
  allocated c h := by
    by_contra hc
    exact h (if_neg fun heq => hc (Nat.le_of_eq heq))

/-- A new cage, with an id never used before. -/
def add (t : CageTable) : CageTable where
  isDead := update t.isDead (t.nextCageid + 1) (some false)
  nextCageid := t.nextCageid + 1
  allocated c h := by
    by_cases hc : c = t.nextCageid + 1
    · exact Nat.le_of_eq hc
    · rw [update_of_ne hc] at h
      exact Nat.le_succ_of_le (t.allocated c h)

def setDead (t : CageTable) (c : ℕ) : CageTable where
  isDead := update t.isDead c ((t.isDead c).map fun _ => true)
  nextCageid := t.nextCageid
  allocated c' h := by
    by_cases hc : c' = c
    · subst hc
      rw [update_self, Ne, Option.map_eq_none_iff] at h
      exact t.allocated c' h
    · rw [update_of_ne hc] at h
      exact t.allocated c' h

def remove (t : CageTable) (c : ℕ) : CageTable where
  isDead := update t.isDead c none
  nextCageid := t.nextCageid
  allocated c' h := by
    by_cases hc : c' = c
    · subst hc
      rw [update_self] at h
      exact absurd rfl h
    · rw [update_of_ne hc] at h
      exact t.allocated c' h

variable {t : CageTable} {c c' : ℕ}

theorem isDead_add_of_ne (h : c ≠ t.nextCageid + 1) : t.add.isDead c = t.isDead c :=
  update_of_ne h ..

theorem isDead_add_self (t : CageTable) : t.add.isDead (t.nextCageid + 1) = some false :=
  update_self ..

theorem isDead_setDead_eq_none : (t.setDead c').isDead c = none ↔ t.isDead c = none := by
  rw [setDead]
  by_cases hc : c = c'
  · subst hc
    dsimp only
    rw [update_self, map_eq_none_iff]
  · dsimp only
    rw [update_of_ne hc]

theorem isDead_remove_of_ne (h : c ≠ c') : (t.remove c').isDead c = t.isDead c :=
  update_of_ne h ..

end CageTable

/-! ## The state of 3i -/

/-- The tables of 3i with the cage table; `panicked` names the cage whose call brought the runtime
down. -/
structure State where
  handlers : CageHandlerTable
  libHandlers : LibHandlerTable
  exiting : Finset ℕ
  cages : CageTable
  panicked : Option ℕ

def State.init : State := ⟨[], .new, ∅, .init, none⟩

def rawposixCageid : ℕ := 777777

def wasmtimeCageid : ℕ := 888888

def threeiCageid : ℕ := 999999

def exitSyscall : ℕ := 60

def exitGroupSyscall : ℕ := 231

/-- Where a call ends up. -/
inductive Routed where
  | esrch
  | rawposix (addr : ℕ)
  | threei (addr : ℕ)
  | grate (grateid addr : ℕ)
  | panic (p : HandlerPanic)
  deriving DecidableEq

/-- A call from another cage to one that is dead or exiting. -/
def State.Blocked (s : State) (selfCageid syscallNum targetCageid : ℕ) : Prop :=
  (s.cages.isDead targetCageid = some true ∨ targetCageid ∈ s.exiting) ∧
    syscallNum ≠ exitSyscall ∧ syscallNum ≠ exitGroupSyscall ∧ selfCageid ≠ targetCageid
deriving Decidable

def makeSyscall (s : State) (selfCageid syscallNum targetCageid : ℕ) : Routed :=
  if s.Blocked selfCageid syscallNum targetCageid then .esrch
  else
    match getHandler s.handlers selfCageid syscallNum with
    | .error p => .panic p
    | .ok none => .panic .noTarget
    | .ok (some (grateid, addr)) =>
        if grateid = rawposixCageid ∨ grateid = wasmtimeCageid then
          if s.Blocked selfCageid syscallNum targetCageid then .esrch else .rawposix addr
        else if grateid = threeiCageid then .threei addr
        else
          match s.cages.isDead grateid with
          | some false => .grate grateid addr
          | some true => .esrch
          | none => .esrch

/-- `register_handler`, which leaves alone what is exiting. -/
def registerHandler (s : State) (targetcage targetcallnum handlefunccage addr : ℕ) : State :=
  if targetcage ∈ s.exiting ∨ handlefunccage ∈ s.exiting then s
  else
    { s with
      handlers := registerHandlerImpl s.handlers targetcage targetcallnum handlefunccage addr }

def copyHandlerTableToCage (s : State) (srccage targetcage : ℕ) : State :=
  if targetcage ∈ s.exiting ∨ srccage ∈ s.exiting then s
  else
    { s with
      handlers := (copyHandlerTableToCageImpl s.handlers srccage targetcage).getD s.handlers }

/-- What `exit_group`, a fatal signal and a crash do first: the cage is dead and exiting, and is no
longer a handler. -/
def State.mark (s : State) (cageid : ℕ) : State :=
  { s with
    cages := s.cages.setDead cageid
    exiting := insert cageid s.exiting
    handlers := rmGrateFromHandler s.handlers cageid }

/-- The last step of `cage_finalize`. -/
def State.finalize (s : State) (cageid : ℕ) : State := { s with cages := s.cages.remove cageid }

/-- `trigger_harsh_cage_exit`, with the exit call it makes for the cage. -/
def triggerHarshCageExit (s : State) (targetcage : ℕ) : State :=
  let s := { s with
    exiting := insert targetcage s.exiting
    handlers := rmGrateFromHandler s.handlers targetcage }
  match makeSyscall s targetcage exitSyscall targetcage with
  | .panic _ => { s with panicked := some targetcage }
  | _ =>
      { s with
        handlers := rmGrateFromHandler (rmCageFromHandler s.handlers targetcage) targetcage
        exiting := s.exiting.erase targetcage }

/-- A harsh exit ends in a panic, with the cage still marked, or with its tables gone. -/
theorem harshExit_eq (s : State) (c : ℕ) :
    triggerHarshCageExit s c = { s with
        exiting := insert c s.exiting
        handlers := rmGrateFromHandler s.handlers c
        panicked := some c } ∨
      triggerHarshCageExit s c = { s with
        exiting := (insert c s.exiting).erase c
        handlers :=
          rmGrateFromHandler (rmCageFromHandler (rmGrateFromHandler s.handlers c) c) c } := by
  rw [triggerHarshCageExit]
  split
  · exact .inl rfl
  · exact .inr rfl

/-- The new cage of a fork, which inherits the handlers of system calls. -/
def State.fork (s : State) (parent : ℕ) : State :=
  let child := s.cages.nextCageid + 1
  copyHandlerTableToCage { s with cages := s.cages.add } parent child

inductive Op where
  | registerHandler (targetcage targetcallnum handlefunccage addr : ℕ)
  | copyHandlerTable (srccage targetcage : ℕ)
  | registerLibHandler (cageId : ℕ) (libName symbolName : String) (handler fnPtr : ℕ)
  | fork (parent : ℕ)
  | mark (cageid : ℕ)
  | finalize (cageid : ℕ)
  | harshExit (targetcage : ℕ)

def Op.apply (s : State) : Op → State
  | .registerHandler c n h a => Threei.registerHandler s c n h a
  | .copyHandlerTable src dst => copyHandlerTableToCage s src dst
  | .registerLibHandler c l y h p => { s with libHandlers := s.libHandlers.register c l y (h, p) }
  | .fork parent => s.fork parent
  | .mark c => s.mark c
  | .finalize c => s.finalize c
  | .harshExit c => triggerHarshCageExit s c

/-- Only a cage in the table forks, and only while there is an id left. -/
def Op.possible (s : State) : Op → Bool
  | .fork parent =>
      (s.cages.isDead parent).isSome && decide (s.cages.nextCageid + 1 < CageTable.maxCageid)
  | _ => true

/-- One step; none is taken after a panic. -/
def step : State → Op → Option State :=
  guardedStep (fun s op => s.panicked = none ∧ op.possible s = true) Op.apply

theorem eq_apply_of_step {s s' : State} {op : Op} (h : step s op = some s') : s' = op.apply s :=
  (guardedStep_eq_some.mp h).2.symm

/-! ## Served cages -/

/-- No call of the cage, to whichever target, brings the runtime down. -/
def Served (s : State) (c : ℕ) (nums : Finset ℕ) : Prop :=
  ∀ n ∈ nums, ∀ target p, makeSyscall s c n target ≠ .panic p

/-- The operation ends the cage. -/
def Op.Ends (c : ℕ) : Op → Prop
  | .mark c' | .finalize c' | .harshExit c' => c' = c
  | _ => False

/-- What the calls of a cage survive: a grate dies that is not the only handler of any of them, no
handler is taken back, and a table copied over the cage's own handles them all. -/
def Op.Spares (s : State) (c : ℕ) (nums : Finset ℕ) : Op → Prop
  | .registerHandler c' n h _ =>
      h ≠ threeiDeregister ∨ c' ≠ c ∨ n ∉ nums ∨ c' ∈ s.exiting ∨ h ∈ s.exiting
  | .copyHandlerTable src dst =>
      dst ≠ c ∨ dst ∈ s.exiting ∨ src ∈ s.exiting ∨ s.handlers.lookup src = none ∨
        ∀ n ∈ nums, Handled s.handlers src n
  | .mark g | .harshExit g => ∀ n ∈ nums, HandledBesides s.handlers c n g
  | .registerLibHandler .. | .fork _ | .finalize _ => True

instance decidableSpares (s : State) (c : ℕ) (nums : Finset ℕ) :
    (op : Op) → Decidable (op.Spares s c nums) :=
  fun op => by cases op <;> dsimp only [Op.Spares] <;> infer_instance

variable {s s' : State} {c n g : ℕ} {nums : Finset ℕ}

/-- A call with a handler does not panic, … -/
theorem makeSyscall_ne_panic (h : Handled s.handlers c n) (target : ℕ) (p : HandlerPanic) :
    makeSyscall s c n target ≠ .panic p := by
  obtain ⟨⟨grateid, addr⟩, hget⟩ := handled_iff_getHandler.mp h
  rw [makeSyscall, hget]
  dsimp only
  repeat' split
  all_goals exact Routed.noConfusion

/-- … and one without does, made by the cage for itself. -/
theorem exists_makeSyscall_eq_panic (h : ¬ Handled s.handlers c n) :
    ∃ p, makeSyscall s c n c = .panic p := by
  have hself : ¬ s.Blocked c n c := fun hb => hb.2.2.2 rfl
  rw [makeSyscall, if_neg hself]
  cases hget : getHandler s.handlers c n with
  | error p => exact ⟨p, rfl⟩
  | ok o =>
    cases o with
    | none => exact ⟨.noTarget, rfl⟩
    | some dest => exact absurd (handled_iff_getHandler.mpr ⟨dest, hget⟩) h

/-- **A cage is served just when each of its calls has a handler.** -/
theorem served_iff : Served s c nums ↔ ∀ n ∈ nums, Handled s.handlers c n := by
  constructor
  · intro h n hn
    by_contra hnot
    obtain ⟨p, hp⟩ := exists_makeSyscall_eq_panic hnot
    exact h n hn c p hp
  · intro h n hn
    exact makeSyscall_ne_panic (h n hn)

/-! ## One step -/

/-- Every call of the cage has a handler. -/
def AllHandled (s : State) (c : ℕ) (nums : Finset ℕ) : Prop := ∀ n ∈ nums, Handled s.handlers c n

theorem allHandled_congr (h : ∀ n, targets s'.handlers c n = targets s.handlers c n) :
    AllHandled s' c nums ↔ AllHandled s c nums :=
  forall₂_congr fun n _ => handled_congr (h n)

theorem allHandled_registerHandler_iff {c' handler addr : ℕ} (h : AllHandled s c nums) :
    AllHandled (registerHandler s c' n handler addr) c nums
      ↔ Op.Spares s c nums (.registerHandler c' n handler addr) := by
  rw [registerHandler, Op.Spares]
  by_cases hexit : c' ∈ s.exiting ∨ handler ∈ s.exiting
  · rw [if_pos hexit]
    exact iff_of_true h (.inr (.inr (.inr hexit)))
  rw [if_neg hexit]
  have hiff : ∀ m ∈ nums, (Handled (registerHandlerImpl s.handlers c' n handler addr) c m
      ↔ handler ≠ threeiDeregister ∨ (c, m) ≠ (c', n)) := fun m hm => handled_register_iff (h m hm)
  constructor
  · intro hall
    by_cases hn : n ∈ nums
    · rcases (hiff n hn).mp (hall n hn) with hreg | hne
      · exact .inl hreg
      · exact .inr (.inl fun hc => hne (by rw [hc]))
    · exact .inr (.inr (.inl hn))
  · rintro hspares m hm
    refine (hiff m hm).mpr ?_
    rcases hspares with hreg | hc | hn | hex
    · exact .inl hreg
    · exact .inr fun heq => hc (Prod.mk.inj heq).1.symm
    · exact .inr fun heq => hn ((Prod.mk.inj heq).2 ▸ hm)
    · exact absurd hex hexit

theorem allHandled_copyHandlerTable_of_ne {src dst : ℕ} (hne : c ≠ dst) :
    AllHandled (copyHandlerTableToCage s src dst) c nums ↔ AllHandled s c nums := by
  refine allHandled_congr fun n => ?_
  rw [copyHandlerTableToCage]
  split
  · rfl
  · cases hcopy : copyHandlerTableToCageImpl s.handlers src dst with
    | none => rfl
    | some t => exact targets_copy_of_ne hcopy hne

theorem allHandled_copyHandlerTable_iff {src dst : ℕ} (h : AllHandled s c nums) :
    AllHandled (copyHandlerTableToCage s src dst) c nums
      ↔ Op.Spares s c nums (.copyHandlerTable src dst) := by
  by_cases hne : c = dst
  swap
  · exact iff_of_true ((allHandled_copyHandlerTable_of_ne hne).mpr h) (.inl (Ne.symm hne))
  subst hne
  rw [copyHandlerTableToCage, Op.Spares]
  by_cases hexit : c ∈ s.exiting ∨ src ∈ s.exiting
  · rw [if_pos hexit]
    refine iff_of_true h (.inr ?_)
    rcases hexit with hdst | hsrc
    · exact .inl hdst
    · exact .inr (.inl hsrc)
  rw [if_neg hexit]
  obtain ⟨hdst, hsrc⟩ := not_or.mp hexit
  simp only [ne_eq, not_true_eq_false, hdst, hsrc, false_or]
  cases hcopy : copyHandlerTableToCageImpl s.handlers src c with
  | none => exact iff_of_true h (.inl (map_eq_none_iff.mp hcopy))
  | some t =>
    obtain ⟨entry, hentry, -⟩ := map_eq_some_iff.mp hcopy
    rw [hentry]
    simp only [reduceCtorEq, false_or]
    exact forall₂_congr fun n _ => handled_copy_self hcopy

theorem allHandled_mark_iff : AllHandled (s.mark g) c nums ↔ Op.Spares s c nums (.mark g) :=
  forall₂_congr fun _ _ => handled_rmGrate_iff

/-- Whether its exit call panics or not, a grate that is ended harshly takes no other cage's
handlers but its own with it. -/
theorem allHandled_harshExit_iff (hne : c ≠ g) :
    AllHandled (triggerHarshCageExit s g) c nums ↔ Op.Spares s c nums (.harshExit g) := by
  refine Iff.trans ?_ allHandled_mark_iff
  rcases harshExit_eq s g with heq | heq
  · exact allHandled_congr fun n => by rw [heq, State.mark]
  · refine allHandled_congr fun n => ?_
    rw [heq, State.mark]
    rw [targets_rmGrate, targets_rmCage_of_ne hne, ← targets_rmGrate, targets_rmGrate_rmGrate]

theorem cages_registerHandler (s : State) (c n h a : ℕ) :
    (registerHandler s c n h a).cages = s.cages := by
  rw [registerHandler]
  split <;> rfl

theorem cages_copyHandlerTable (s : State) (src dst : ℕ) :
    (copyHandlerTableToCage s src dst).cages = s.cages := by
  rw [copyHandlerTableToCage]
  split <;> rfl

theorem cages_harshExit (s : State) (c : ℕ) : (triggerHarshCageExit s c).cages = s.cages := by
  rcases harshExit_eq s c with heq | heq <;> rw [heq]

/-- Ids are never given back. -/
theorem nextCageid_le_apply (s : State) (op : Op) :
    s.cages.nextCageid ≤ (op.apply s).cages.nextCageid := by
  cases op with
  | registerHandler c n h a => rw [Op.apply, cages_registerHandler]
  | copyHandlerTable src dst => rw [Op.apply, cages_copyHandlerTable]
  | harshExit c => rw [Op.apply, cages_harshExit]
  | fork parent =>
    rw [Op.apply, State.fork, cages_copyHandlerTable]
    exact Nat.le_succ _
  | registerLibHandler c l y h p => exact Nat.le_refl _
  | mark c => exact Nat.le_refl _
  | finalize c => exact Nat.le_refl _

/-- **What one step does to the calls of a cage it does not end.** -/
theorem allHandled_apply_iff {op : Op} (hc : c ≤ s.cages.nextCageid) (h : AllHandled s c nums)
    (hends : ¬ op.Ends c) : AllHandled (op.apply s) c nums ↔ op.Spares s c nums := by
  cases op with
  | registerHandler c' n handler addr => exact allHandled_registerHandler_iff h
  | copyHandlerTable src dst => exact allHandled_copyHandlerTable_iff h
  | mark g => exact allHandled_mark_iff
  | harshExit g => exact allHandled_harshExit_iff (Ne.symm hends)
  | fork parent =>
    have hne : c ≠ s.cages.nextCageid + 1 := by omega
    exact iff_of_true ((allHandled_copyHandlerTable_of_ne hne).mpr h) trivial
  | registerLibHandler c' l y handler p => exact iff_of_true h trivial
  | finalize c' => exact iff_of_true h trivial

/-! ## Every run -/

/-- **A cage is served in every state of a run it lives through just when no step of the run takes
away the last handler of one of its calls.** -/
theorem served_run_iff {ops : List Op} (hpresent : s.cages.isDead c ≠ none)
    (hstart : ∀ n ∈ nums, Handled s.handlers c n) (hends : ∀ op ∈ ops, ¬ op.Ends c)
    (hrun : runSteps step s ops = some s') :
    (∀ before after u, ops = before ++ after → runSteps step s before = some u →
        Served u c nums)
      ↔ StepsOk step (fun u op => op.Spares u c nums) s ops := by
  have hle : ∀ {u u' op}, c ≤ u.cages.nextCageid → step u op = some u' →
      c ≤ u'.cages.nextCageid := fun h hstep =>
    Nat.le_trans h (eq_apply_of_step hstep ▸ nextCageid_le_apply ..)
  have hstep : ∀ (u : State) (op : Op) (u' : State), op ∈ ops →
      (c ≤ u.cages.nextCageid ∧ AllHandled u c nums) → step u op = some u' →
      ((c ≤ u'.cages.nextCageid ∧ AllHandled u' c nums) ↔ op.Spares u c nums) := by
    intro u op u' hop hinv hu
    rw [and_iff_right (hle hinv.1 hu), eq_apply_of_step hu]
    exact allHandled_apply_iff hinv.1 hinv.2 (hends op hop)
  rw [← stepsOk_iff_forall_inv_mem hstep ⟨s.cages.allocated c hpresent, hstart⟩ hrun]
  refine forall_congr' fun before => forall_congr' fun after => forall_congr' fun u =>
    forall₂_congr fun _ hu => ?_
  have hcu : c ≤ u.cages.nextCageid := inv_of_runSteps (fun u op u' => hle)
    (s.cages.allocated c hpresent) hu
  rw [and_iff_right hcu, served_iff]
  rfl

/-- A cage that has the host behind two calls. -/
def hosted : State :=
  { State.init with
    handlers := [(1, [(0, [(rawposixCageid, 16)]), (exitSyscall, [(rawposixCageid, 32)])])] }

/-- A grate takes over a call, hands it to the next one and dies. -/
def relayed : List Op :=
  [.fork 1, .fork 1, .registerHandler 1 0 2 64, .registerHandler 1 0 3 96, .mark 2, .finalize 2]

theorem served_run_relayed :
    ∃ u, runSteps step hosted relayed = some u ∧ Served u 1 {0, exitSyscall} := by
  obtain ⟨u, hrun⟩ := isSome_iff_exists.mp
    (show (runSteps step hosted relayed).isSome = true by decide)
  have hends : ∀ op ∈ relayed, ¬ op.Ends 1 := by simp [relayed, Op.Ends]
  have hserved : ∀ before after u, relayed = before ++ after →
      runSteps step hosted before = some u → Served u 1 {0, exitSyscall} :=
    (served_run_iff (by decide) (by decide) hends hrun).mpr (by decide)
  exact ⟨u, hrun, hserved relayed [] u (List.append_nil _).symm hrun⟩

/-- The same cage beside the grate whose id is the one that means deregistration. -/
def crowded : State :=
  { hosted with
    cages := ⟨fun c => if c = 1 ∨ c = 500 then some false else none, 500, by
      intro c h
      by_contra hc
      exact h (if_neg (by omega))⟩ }

/-- **A grate takes over a call and dies: the call has no handler left.**  So it is
where the grate that takes it over is the one with the id that means deregistration. -/
theorem not_served_orphaned :
    (∀ n ∈ ({0, exitSyscall} : Finset ℕ), Handled hosted.handlers 1 n) ∧
      (runSteps step hosted [.fork 1, .registerHandler 1 0 2 64, .mark 2]).map
          (fun u => (u.cages.isDead 1, makeSyscall u 1 0 1))
        = some (some false, .panic .noTarget) ∧
      (runSteps step crowded [.registerHandler 1 0 500 64]).map
          (fun u => (u.cages.isDead 1, u.cages.isDead 500, makeSyscall u 1 0 1))
        = some (some false, some false, .panic .noCall) :=
  ⟨by decide, by decide, by decide⟩

end LindWasm.Threei

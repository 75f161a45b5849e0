import LindWasm.Threei.Backends
import LindWasm.Threei.Routing

/-!
# Threei/Installed — how long a handler stays

    register (c, n) ↦ (g, f) --> … --> (c, n) goes to (g, f)      until the pair, c or g is touched
    copy p to c              --> … --> c answers as p did         whatever is registered for p

The value that takes a handler back is 500, which is also the id of the 500th cage. So
`installed_iff` says that a registration lasts exactly if it is not for that grate. A copy is one
of values: `copy_apart` says that nothing connects the two cages afterwards.
-/

namespace LindWasm.Threei

open Option List

variable {s : State} {c n g f c' : ℕ} {t : CageHandlerTable}

/-! ## A registration -/

def elindEsrch : ℕ := 0xE0010002

/-- What `register_handler` returns. -/
def registerHandlerCode (s : State) (targetcage handlefunccage : ℕ) : ℕ :=
  if targetcage ∈ s.exiting ∨ handlefunccage ∈ s.exiting then elindEsrch else 0

/-- What ends the registration of `g` for a pair: another one for it, the table of another cage
copied over the cage's own, and the removal of the cage or of the grate. -/
def Op.Displaces (s : State) (c n g : ℕ) : Op → Prop
  | .registerHandler c' n' _ _ => c' = c ∧ n' = n
  | .copyHandlerTable src dst => dst = c ∧ src ≠ c
  | .fork _ => s.cages.nextCageid + 1 = c
  | .mark c' | .finalize c' | .harshExit c' => c' = c ∨ c' = g
  | .registerLibHandler .. => False

instance decidableDisplaces (s : State) (c n g : ℕ) : (op : Op) → Decidable (op.Displaces s c n g)
  | .registerHandler c' n' _ _ => inferInstanceAs (Decidable (c' = c ∧ n' = n))
  | .copyHandlerTable src dst => inferInstanceAs (Decidable (dst = c ∧ src ≠ c))
  | .fork _ => inferInstanceAs (Decidable (s.cages.nextCageid + 1 = c))
  | .mark c' | .finalize c' | .harshExit c' => inferInstanceAs (Decidable (c' = c ∨ c' = g))
  | .registerLibHandler .. => .isFalse id

/-- The pair goes to one place. -/
def Installed (c n g f : ℕ) (s : State) : Prop := targets s.handlers c n = some [(g, f)]

theorem Installed.copy (h : Installed c n g f s) {src dst : ℕ} (hdst : dst = c → src = c) :
    Installed c n g f (copyHandlerTableToCage s src dst) := by
  rw [copyHandlerTableToCage]
  split
  · exact h
  · cases hcopy : copyHandlerTableToCageImpl s.handlers src dst with
    | none => exact h
    | some t =>
      by_cases hc : dst = c
      · rw [hdst hc, hc] at hcopy
        exact (targets_copy_self hcopy).trans (congrArg (Option.map (copyTargets [])) h)
      · exact (targets_copy_of_ne hcopy (Ne.symm hc)).trans h

theorem targets_rmGrate_kept {g' : ℕ} (h : targets t c n = some [(g, f)]) (hg : g' ≠ g) :
    targets (rmGrateFromHandler t g') c n = some [(g, f)] := by
  rw [targets_rmGrate, h, map_some, filter_cons_of_pos (by simpa using Ne.symm hg), filter_nil]

/-- **Nothing else touches it.** -/
theorem Installed.apply {op : Op} (h : Installed c n g f s) (hop : ¬ op.Displaces s c n g) :
    Installed c n g f (op.apply s) := by
  cases op with
  | registerHandler c' n' handler addr =>
    rw [Op.apply, registerHandler]
    split
    · exact h
    · refine (targets_register_of_ne fun heq => hop ?_).trans h
      cases heq
      exact ⟨rfl, rfl⟩
  | copyHandlerTable src dst => exact h.copy fun hc => not_not.mp fun hne => hop ⟨hc, hne⟩
  | fork parent =>
    exact Installed.copy (s := { s with cages := s.cages.add }) h fun hc => absurd hc hop
  | mark c' => exact targets_rmGrate_kept h fun heq => hop (.inr heq)
  | harshExit c' =>
    have hg : c' ≠ g := fun heq => hop (.inr heq)
    have hc : c ≠ c' := fun heq => hop (.inl heq.symm)
    rcases harshExit_eq s c' with heq | heq <;> rw [Installed, Op.apply, heq]
    · exact targets_rmGrate_kept h hg
    · exact targets_rmGrate_kept
        ((targets_rmCage_of_ne hc).trans (targets_rmGrate_kept h hg)) hg
  | registerLibHandler | finalize => exact h

/-- **A registration lasts**, if it is one: after `register_handler` has returned 0 for the grate
`g`, in whichever state, every lookup of the pair finds what was registered until it is displaced,
exactly if `g` is not the id that means the opposite. -/
theorem installed_iff (hcode : registerHandlerCode s c g = 0) :
    (∀ ops t, StepsOk step (fun s op => ¬ op.Displaces s c n g) (registerHandler s c n g f) ops →
      runSteps step (registerHandler s c n g f) ops = some t →
      getHandler t.handlers c n = .ok (some (g, f))) ↔ g ≠ threeiDeregister := by
  have hlive : ¬ (c ∈ s.exiting ∨ g ∈ s.exiting) := fun hexit => by
    rw [registerHandlerCode, if_pos hexit] at hcode
    exact absurd hcode (by decide)
  constructor
  · rintro h rfl
    have hnone := h [] _ trivial rfl
    rw [registerHandler, if_neg hlive] at hnone
    obtain ⟨m, hm, -⟩ := handled_iff_getHandler.mpr ⟨_, hnone⟩
    rw [mem_def, targets_deregister_self] at hm
    cases hm
  · intro hg ops t hok hrun
    have hstart : Installed c n g f (registerHandler s c n g f) := by
      rw [registerHandler, if_neg hlive]
      exact targets_register_self hg
    have hstep : ∀ s op s', Installed c n g f s → ¬ op.Displaces s c n g → step s op = some s' →
        Installed c n g f s' := fun s op s' h hop hs => eq_apply_of_step hs ▸ h.apply hop
    exact getHandler_of_targets (inv_of_stepsOk hstep hstart hok hrun)

/-- The cage with a live grate, `2`, and with another cage, `3`. -/
def withGrate : State := (hosted.fork 1).fork 1

/-- What else happens: a cage is made whose call goes to the grate as well, the table of the first
is copied over the third, and the two others end. -/
def besides : List Op :=
  [.fork 1, .registerHandler 4 0 2 9, .copyHandlerTable 1 3, .harshExit 4, .mark 3,
    .registerHandler 1 exitSyscall 2 8]

theorem installed_besides :
    withGrate.cages.isDead 2 = some false ∧ registerHandlerCode withGrate 1 2 = 0 ∧
      ∃ t, runSteps step (registerHandler withGrate 1 0 2 7) besides = some t ∧
        getHandler t.handlers 1 0 = .ok (some (2, 7)) := by
  have hcode : registerHandlerCode withGrate 1 2 = 0 := by decide
  obtain ⟨t, hrun⟩ := isSome_iff_exists.mp
    (show (runSteps step (registerHandler withGrate 1 0 2 7) besides).isSome = true by decide)
  exact ⟨by decide, hcode, t, hrun,
    (installed_iff hcode).mpr (by decide) besides t (by decide) hrun⟩

theorem run_forks {k : ℕ} (hk : k + 1 < CageTable.maxCageid) :
    ∃ s, runSteps step .init (replicate k (.fork 1)) = some s ∧ s.cages.nextCageid = k + 1 ∧
      s.cages.isDead (k + 1) = some false ∧ s.cages.isDead 1 = some false ∧ s.exiting = ∅ ∧
      s.panicked = none := by
  induction k with
  | zero => exact ⟨.init, rfl, rfl, rfl, rfl, rfl, rfl⟩
  | succ k ih =>
    obtain ⟨s, hrun, hnext, -, hfirst, hexiting, hpanicked⟩ := ih (by omega)
    have hcages : (s.fork 1).cages = s.cages.add := by
      rw [State.fork, copyHandlerTableToCage]
      split <;> rfl
    have hstep : step s (.fork 1) = some (s.fork 1) := by
      refine guardedStep_eq_some.mpr ⟨⟨hpanicked, ?_⟩, rfl⟩
      rw [Op.possible, hfirst, hnext]
      exact decide_eq_true hk
    refine ⟨s.fork 1, ?_, ?_, ?_, ?_, ?_, ?_⟩
    · rw [replicate_succ']
      exact runSteps_append.mpr ⟨s, hrun, by rw [runSteps, hstep]; rfl⟩
    · rw [hcages]
      exact congrArg (· + 1) hnext
    · rw [hcages, ← hnext]
      exact CageTable.isDead_add_self s.cages
    · rw [hcages, CageTable.isDead_add_of_ne (by omega), hfirst]
    · rw [State.fork, copyHandlerTableToCage]
      split <;> exact hexiting
    · rw [State.fork, copyHandlerTableToCage]
      split <;> exact hpanicked

/-- **The 500th cage cannot be a grate**: what is registered for it is nowhere. -/
theorem not_installed_deregister :
    ∃ ops s, runSteps step .init ops = some s ∧ s.cages.isDead 500 = some false ∧
      registerHandlerCode s 1 500 = 0 ∧
      getHandler (registerHandler s 1 60 500 7).handlers 1 60 ≠ .ok (some (500, 7)) := by
  obtain ⟨s, hrun, -, hdead, -, hexiting, -⟩ := run_forks (k := 499) (by decide)
  have hcode : registerHandlerCode s 1 500 = 0 := by simp [registerHandlerCode, hexiting]
  refine ⟨_, s, hrun, hdead, hcode, fun hget => ?_⟩
  obtain ⟨m, hm, -⟩ := handled_iff_getHandler.mpr ⟨_, hget⟩
  rw [registerHandler, if_neg (by simp [hexiting])] at hm
  have hnone : targets (registerHandlerImpl s.handlers 1 60 threeiDeregister 7) 1 60 = none :=
    targets_deregister_self
  exact absurd (hm.symm.trans hnone) (some_ne_none m)

/-! ## A copy -/

/-- The table a sequence of calls leads to. -/
def tableAfter (ops : List TableOp) : CageHandlerTable :=
  (ops.foldl (fun s op => (HashTable.step s op).1) HashTable.empty).table

/-- A sequence of registrations for one cage. -/
def registerAll (t : CageHandlerTable) (c : ℕ) (regs : List (ℕ × ℕ × ℕ)) : CageHandlerTable :=
  regs.foldl (fun t r => registerHandlerImpl t c r.1 r.2.1 r.2.2) t

theorem getHandler_congr {t' : CageHandlerTable} (h : t.lookup c = t'.lookup c') (n : ℕ) :
    getHandler t c n = getHandler t' c' n := by
  rw [getHandler, h, getHandler]

theorem lookup_registerAll (hne : c' ≠ c) (t : CageHandlerTable) (regs : List (ℕ × ℕ × ℕ)) :
    (registerAll t c regs).lookup c' = t.lookup c' := by
  induction regs generalizing t with
  | nil => rfl
  | cons r regs ih => exact (ih _).trans (lookup_register_of_ne hne)

/-- The cage `c` has got the table of `p`, and not the other way round ever after. -/
structure CopiedFrom (t t' : CageHandlerTable) (p c : ℕ) : Prop where
  same : ∀ n, getHandler t' c n = getHandler t' p n
  replaced : ∀ n, getHandler t' c n = getHandler t p n
  source : ∀ regs n, getHandler (registerAll t' p regs) c n = getHandler t' c n
  copy : ∀ regs n, getHandler (registerAll t' c regs) p n = getHandler t' p n

/-- The loops of a copy give the target the handlers of the source, for where there is one handler
they rebuild the innermost map as it was. -/
theorem getHandler_copy {t' : CageHandlerTable} {p : ℕ} (hsingle : Single t)
    (hcopy : copyHandlerTableToCageImpl t p c = some t') (n : ℕ) :
    getHandler t' c n = getHandler t p n := by
  obtain ⟨entry, hentry, hc⟩ := lookup_copy_self hcopy
  rw [getHandler, hc, getHandler, hentry]
  dsimp only
  rw [lookup_copyCalls]
  cases hn : entry.lookup n with
  | none => rfl
  | some m =>
    rw [Option.map_some, copyTargets_of_length (hsingle p entry hentry n m hn)]

/-- **Each call has at most one handler, and a copy is a value**, in every table any sequence of
calls leads to. -/
theorem copy_apart (ops : List TableOp) :
    (∀ c n m, targets (tableAfter ops) c n = some m → m.length ≤ 1) ∧
    ∀ p c t', p ≠ c → copyHandlerTableToCageImpl (tableAfter ops) p c = some t' →
      CopiedFrom (tableAfter ops) t' p c := by
  have hsingle : Single (tableAfter ops) := (single_run ops).1
  constructor
  · intro c n m hm
    obtain ⟨callMap, hc, hn⟩ := bind_eq_some_iff.mp hm
    exact hsingle c callMap hc n m hn
  · intro p c t' hne hcopy
    have hreplaced := getHandler_copy hsingle hcopy
    have hsource := getHandler_congr (lookup_copy_of_ne hcopy hne)
    exact ⟨fun n => (hreplaced n).trans (hsource n).symm, hreplaced,
      fun regs => getHandler_congr (lookup_registerAll (Ne.symm hne) t' regs),
      fun regs => getHandler_congr (lookup_registerAll hne t' regs)⟩

/-- A cage with two calls, one of which goes to a grate that dies, and a cage with a third. -/
def twoTables : List TableOp :=
  [.register 1 0 2 7, .register 1 60 4 8, .register 3 9 2 5, .rmGrate 4]

/-- Copied over, the second has the calls of the first, and its own no longer. -/
theorem copy_apart_twoTables :
    getHandler (tableAfter twoTables) 3 9 = .ok (some (2, 5)) ∧
      ∃ t, copyHandlerTableToCageImpl (tableAfter twoTables) 1 3 = some t ∧
        CopiedFrom (tableAfter twoTables) t 1 3 ∧ getHandler t 3 0 = .ok (some (2, 7)) ∧
        getHandler t 3 60 = .ok none ∧ getHandler t 3 9 = .error .noCall :=
  ⟨rfl, _, rfl, (copy_apart twoTables).2 1 3 _ (by decide) rfl, rfl, rfl, rfl⟩

end LindWasm.Threei

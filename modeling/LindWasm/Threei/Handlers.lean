import LindWasm.Machinery.Table

/-!
# Threei/Handlers — the handler table of system calls

    HANDLERTABLE : cage ↦ call number ↦ (grate ↦ address)

A registration replaces whatever a (cage, call number) pair had, so that each innermost map has one
entry; the death of a grate empties the maps it is in and leaves them where they are. Every result
about the table goes through `targets`, the innermost map of a pair.
-/

namespace LindWasm.Threei

open Option List Table

abbrev TargetCageMap := List (ℕ × ℕ)

abbrev CallnumMap := List (ℕ × TargetCageMap)

abbrev CageHandlerTable := List (ℕ × CallnumMap)

/-- Why no handler is found. -/
inductive HandlerPanic where
  | noTable
  | noCall
  | noTarget
  deriving DecidableEq

/-- The first entry of the innermost map; the maps around it must exist. -/
def getHandler (t : CageHandlerTable) (selfCageid syscallNum : ℕ) :
    Except HandlerPanic (Option (ℕ × ℕ)) :=
  match t.lookup selfCageid with
  | none => .error .noTable
  | some callMap =>
      match callMap.lookup syscallNum with
      | none => .error .noCall
      | some targetMap => .ok targetMap.head?

def rmGrateFromHandler (t : CageHandlerTable) (grateid : ℕ) : CageHandlerTable :=
  Table.mapVal (fun _ callmap =>
    Table.mapVal (fun _ targetMap => targetMap.filter fun dest => dest.1 ≠ grateid) callmap) t

def rmCageFromHandler (t : CageHandlerTable) (cageid : ℕ) : CageHandlerTable := Table.erase t cageid

def threeiDeregister : ℕ := 500

def registerHandlerImpl (t : CageHandlerTable) (srccage targetcallnum handlefunccage addr : ℕ) :
    CageHandlerTable :=
  if handlefunccage = threeiDeregister then
    match t.lookup srccage with
    | none => t
    | some callMap =>
        let callMap := Table.erase callMap targetcallnum
        if callMap = [] then Table.erase t srccage else Table.insert t srccage callMap
  else
    let callMap := (t.lookup srccage).getD []
    Table.insert t srccage (Table.insert callMap targetcallnum [(handlefunccage, addr)])

/-- The inner loop of a copy, which leaves alone the handlers that are there:
`entry(handlefunc).or_insert(handlefunccage)`. -/
def copyTargets (targetCallnumMap callnumMap : TargetCageMap) : TargetCageMap :=
  Table.merge (fun present addr => present.getD addr) targetCallnumMap callnumMap

/-- The outer loop: `entry(callnum).or_insert_with(HashMap::new)`, and the inner one on it. -/
def copyCalls (targetEntry srcEntry : CallnumMap) : CallnumMap :=
  Table.merge (fun present callnumMap => copyTargets (present.getD []) callnumMap) targetEntry
    srcEntry

/-- `none` if the source has no table. -/
def copyHandlerTableToCageImpl (t : CageHandlerTable) (srccage targetcage : ℕ) :
    Option CageHandlerTable :=
  (t.lookup srccage).map fun srcEntry =>
    -- the whole target is overwritten before the loops fill it
    let t := Table.insert t targetcage []
    Table.insert t targetcage (copyCalls ((t.lookup targetcage).getD []) srcEntry)

/-! ## The innermost maps -/

/-- The innermost map of a cage and a call number. -/
def targets (t : CageHandlerTable) (cageid callnum : ℕ) : Option TargetCageMap :=
  (t.lookup cageid).bind fun callMap => callMap.lookup callnum

variable {t t' : CageHandlerTable} {c n g : ℕ}

theorem getHandler_of_targets {m : TargetCageMap} (h : targets t c n = some m) :
    getHandler t c n = .ok m.head? := by
  obtain ⟨callMap, hc, hn⟩ := bind_eq_some_iff.mp h
  rw [getHandler, hc]
  dsimp only
  rw [hn]

theorem targets_rmGrate (t : CageHandlerTable) (g c n : ℕ) :
    targets (rmGrateFromHandler t g) c n
      = (targets t c n).map fun m => m.filter fun dest => dest.1 ≠ g := by
  rw [targets, targets, rmGrateFromHandler, lookup_mapVal]
  cases t.lookup c with
  | none => rfl
  | some callMap => exact lookup_mapVal _

theorem targets_rmGrate_rmGrate (t : CageHandlerTable) (g c n : ℕ) :
    targets (rmGrateFromHandler (rmGrateFromHandler t g) g) c n
      = targets (rmGrateFromHandler t g) c n := by
  simp only [targets_rmGrate, Option.map_map]
  refine congrFun (congrArg Option.map (funext fun m => ?_)) _
  rw [Function.comp_apply, List.filter_filter]
  simp only [Bool.and_self]

theorem lookup_rmGrate_eq_none : (rmGrateFromHandler t g).lookup c = none ↔ t.lookup c = none := by
  rw [rmGrateFromHandler, lookup_mapVal, map_eq_none_iff]

theorem targets_rmCage_of_ne (h : c ≠ g) : targets (rmCageFromHandler t g) c n = targets t c n := by
  rw [targets, rmCageFromHandler, lookup_erase_of_ne h, targets]

theorem lookup_rmCage_self (t : CageHandlerTable) (c : ℕ) :
    (rmCageFromHandler t c).lookup c = none := lookup_erase_self

variable {handler addr c' n' src dst g' : ℕ}

/-- A registration replaces the map of its pair. -/
theorem targets_register_self (h : handler ≠ threeiDeregister) :
    targets (registerHandlerImpl t c n handler addr) c n = some [(handler, addr)] := by
  rw [targets, registerHandlerImpl, if_neg h, lookup_insert_self, bind_some,
    lookup_insert_self]

theorem targets_deregister_self :
    targets (registerHandlerImpl t c n threeiDeregister addr) c n = none := by
  rw [targets, registerHandlerImpl, if_pos rfl]
  cases hc : t.lookup c with
  | none => rw [hc, bind_none]
  | some callMap =>
    dsimp only
    split
    · rw [lookup_erase_self, bind_none]
    · rw [lookup_insert_self, bind_some, lookup_erase_self]

/-- …and no other map, … -/
theorem targets_deregister_of_ne (hne : (c', n') ≠ (c, n)) :
    targets (registerHandlerImpl t c n threeiDeregister addr) c' n' = targets t c' n' := by
  rw [targets, targets, registerHandlerImpl, if_pos rfl]
  cases hc : t.lookup c with
  | none => rfl
  | some callMap =>
    dsimp only
    by_cases heq : c' = c
    · subst heq
      have hn : n' ≠ n := fun hn => hne (by rw [hn])
      rw [hc, bind_some, ← lookup_erase_of_ne hn]
      split
      · next hempty => rw [lookup_erase_self, hempty, bind_none, lookup_nil]
      · rw [lookup_insert_self, bind_some]
    · split
      · rw [lookup_erase_of_ne heq]
      · rw [lookup_insert_of_ne heq]

/-- …whether it installs a handler or takes one back. -/
theorem targets_register_of_ne (hne : (c', n') ≠ (c, n)) :
    targets (registerHandlerImpl t c n handler addr) c' n' = targets t c' n' := by
  by_cases h : handler = threeiDeregister
  · subst h
    exact targets_deregister_of_ne hne
  rw [targets, targets, registerHandlerImpl, if_neg h]
  by_cases hc : c' = c
  · subst hc
    have hn : n' ≠ n := fun hn => hne (by rw [hn])
    rw [lookup_insert_self, bind_some, lookup_insert_of_ne hn]
    cases t.lookup c' <;> rfl
  · rw [lookup_insert_of_ne hc]

theorem lookup_register_of_ne (hne : c' ≠ c) :
    (registerHandlerImpl t c n handler addr).lookup c' = t.lookup c' := by
  rw [registerHandlerImpl]
  split
  · cases t.lookup c with
    | none => rfl
    | some callMap =>
      dsimp only
      split
      · exact lookup_erase_of_ne hne
      · exact lookup_insert_of_ne hne
  · exact lookup_insert_of_ne hne

/-! ## A copy -/

section

variable {m : TargetCageMap} {entry : CallnumMap}

/-- The inner loop rebuilds the innermost map, … -/
theorem lookup_copyTargets : (copyTargets [] m).lookup g = m.lookup g := by
  rw [copyTargets, lookup_merge]
  simp

theorem copyTargets_eq_nil : copyTargets [] m = [] ↔ m = [] := by
  simp only [eq_nil_iff, lookup_copyTargets]

/-- … to the entry where there is one, … -/
theorem copyTargets_of_length (hm : m.length ≤ 1) : copyTargets [] m = m := by
  obtain _ | ⟨dest, _ | ⟨dest', m⟩⟩ := m
  · rfl
  · rfl
  · exact absurd hm (by simp)

/-- … and the outer loop the table of the cage. -/
theorem lookup_copyCalls :
    (copyCalls [] entry).lookup n = (entry.lookup n).map (copyTargets []) := by
  rw [copyCalls, lookup_merge]
  simp

theorem copyCalls_eq_nil : copyCalls [] entry = [] ↔ entry = [] := by
  simp only [eq_nil_iff, lookup_copyCalls, map_eq_none_iff]

end

/-- **A copy gives the target the table of the source, rebuilt.** -/
theorem copyHandlerTableToCageImpl_eq (t : CageHandlerTable) (src dst : ℕ) :
    copyHandlerTableToCageImpl t src dst
      = (t.lookup src).map fun entry => Table.insert t dst (copyCalls [] entry) := by
  simp only [copyHandlerTableToCageImpl, lookup_insert_self, getD_some, insert_insert]

section

variable (h : copyHandlerTableToCageImpl t src dst = some t')
include h

theorem lookup_copy_self :
    ∃ entry, t.lookup src = some entry ∧ t'.lookup dst = some (copyCalls [] entry) := by
  rw [copyHandlerTableToCageImpl_eq] at h
  obtain ⟨entry, hentry, rfl⟩ := map_eq_some_iff.mp h
  exact ⟨entry, hentry, lookup_insert_self⟩

theorem lookup_copy_of_ne (hne : c ≠ dst) : t'.lookup c = t.lookup c := by
  rw [copyHandlerTableToCageImpl_eq] at h
  obtain ⟨entry, -, rfl⟩ := map_eq_some_iff.mp h
  exact lookup_insert_of_ne hne

theorem targets_copy_of_ne (hne : c ≠ dst) : targets t' c n = targets t c n := by
  rw [targets, lookup_copy_of_ne h hne, targets]

theorem targets_copy_self : targets t' dst n = (targets t src n).map (copyTargets []) := by
  obtain ⟨entry, hentry, hcopy⟩ := lookup_copy_self h
  rw [targets, hcopy, targets, hentry]
  exact lookup_copyCalls

end

/-! ## Routes and handled calls -/

/-- Some call of the cage goes to the grate. -/
def Routes (t : CageHandlerTable) (cageid grateid : ℕ) : Prop :=
  ∃ n m addr, targets t cageid n = some m ∧ (grateid, addr) ∈ m

/-- The call has a handler, … -/
def Handled (t : CageHandlerTable) (cageid callnum : ℕ) : Prop :=
  ∃ m ∈ targets t cageid callnum, m ≠ []
deriving Decidable

/-- … and one in another cage than the given one. -/
def HandledBesides (t : CageHandlerTable) (cageid callnum grateid : ℕ) : Prop :=
  ∃ m ∈ targets t cageid callnum, ∃ dest ∈ m, dest.1 ≠ grateid
deriving Decidable

theorem handled_congr (h : targets t c n = targets t' c n) : Handled t c n ↔ Handled t' c n := by
  rw [Handled, Handled, h]

/-- **A call keeps a handler just when it finds one.** -/
theorem handled_iff_getHandler : Handled t c n ↔ ∃ dest, getHandler t c n = .ok (some dest) := by
  rw [getHandler]
  cases hc : t.lookup c with
  | none => simp [Handled, targets, hc]
  | some callMap =>
    cases hn : callMap.lookup n with
    | none => simp [Handled, targets, hc, hn]
    | some m => cases m <;> simp [Handled, targets, hc, hn]

theorem handled_copy_self (h : copyHandlerTableToCageImpl t src dst = some t') :
    Handled t' dst n ↔ Handled t src n := by
  rw [Handled, targets_copy_self h, Handled]
  cases targets t src n with
  | none => simp
  | some m => simp [copyTargets_eq_nil]

theorem handled_register_iff (h : Handled t c n) :
    Handled (registerHandlerImpl t c' n' handler addr) c n
      ↔ handler ≠ threeiDeregister ∨ (c, n) ≠ (c', n') := by
  by_cases heq : (c, n) = (c', n')
  · cases heq
    by_cases hreg : handler = threeiDeregister
    · subst hreg
      rw [Handled, targets_deregister_self]
      simp
    · exact iff_of_true ⟨_, targets_register_self hreg, cons_ne_nil _ _⟩ (.inl hreg)
  · exact iff_of_true ((handled_congr (targets_register_of_ne heq)).mpr h) (.inr heq)

/-- **The death of a grate leaves a call with the handlers in other cages**, and with none if there
is no other. -/
theorem handled_rmGrate_iff : Handled (rmGrateFromHandler t g) c n ↔ HandledBesides t c n g := by
  rw [Handled, HandledBesides, targets_rmGrate]
  constructor
  · rintro ⟨m, hm, hne⟩
    obtain ⟨m', hm', rfl⟩ := map_eq_some_iff.mp hm
    obtain ⟨dest, hdest⟩ := exists_mem_of_ne_nil _ hne
    obtain ⟨hmem, hg⟩ := mem_filter.mp hdest
    exact ⟨m', hm', dest, hmem, of_decide_eq_true hg⟩
  · rintro ⟨m, hm, dest, hmem, hg⟩
    refine ⟨_, map_eq_some_iff.mpr ⟨m, hm, rfl⟩, ?_⟩
    exact ne_nil_of_mem (mem_filter.mpr ⟨hmem, decide_eq_true hg⟩)

/-- No route is left to a grate that is removed, … -/
theorem not_routes_rmGrate_self (t : CageHandlerTable) (c g : ℕ) :
    ¬ Routes (rmGrateFromHandler t g) c g := by
  rintro ⟨n, m, addr, hm, hmem⟩
  rw [targets_rmGrate] at hm
  obtain ⟨m', -, rfl⟩ := map_eq_some_iff.mp hm
  exact of_decide_eq_true (mem_filter.mp hmem).2 rfl

/-- … and none is made. -/
theorem Routes.of_rmGrate (h : Routes (rmGrateFromHandler t g) c g') : Routes t c g' := by
  obtain ⟨n, m, addr, hm, hmem⟩ := h
  rw [targets_rmGrate] at hm
  obtain ⟨m', hm', rfl⟩ := map_eq_some_iff.mp hm
  exact ⟨n, m', addr, hm', (mem_filter.mp hmem).1⟩

theorem Routes.of_rmCage (h : Routes (rmCageFromHandler t g) c g') : Routes t c g' := by
  obtain ⟨n, m, addr, hm, hmem⟩ := h
  by_cases hc : c = g
  · subst hc
    rw [targets, lookup_rmCage_self] at hm
    cases hm
  · rw [targets_rmCage_of_ne hc] at hm
    exact ⟨n, m, addr, hm, hmem⟩

/-- A registration makes a route to the handler it names, … -/
theorem Routes.of_register {n : ℕ} (h : Routes (registerHandlerImpl t c' n handler addr) c g') :
    g' = handler ∨ Routes t c g' := by
  obtain ⟨n', m, a, hm, hmem⟩ := h
  by_cases heq : (c, n') = (c', n)
  · cases heq
    by_cases hreg : handler = threeiDeregister
    · subst hreg
      rw [targets_deregister_self] at hm
      cases hm
    · rw [targets_register_self hreg] at hm
      cases hm
      exact .inl (Prod.mk.inj (mem_singleton.mp hmem)).1
  · rw [targets_register_of_ne heq] at hm
    exact .inr ⟨n', m, a, hm, hmem⟩

/-- … and a copy none that is new to the table. -/
theorem Routes.of_copy (hcopy : copyHandlerTableToCageImpl t src dst = some t')
    (h : Routes t' c g') : ∃ c', Routes t c' g' := by
  obtain ⟨n, m, a, hm, hmem⟩ := h
  by_cases hc : c = dst
  · subst hc
    rw [targets_copy_self hcopy] at hm
    obtain ⟨m', hm', rfl⟩ := map_eq_some_iff.mp hm
    have hfound := lookup_copyTargets ▸ lookup_ne_none.mpr ⟨a, hmem⟩
    obtain ⟨a', hmem'⟩ := lookup_ne_none.mp hfound
    exact ⟨src, n, m', a', hm', hmem'⟩
  · rw [targets_copy_of_ne hcopy hc] at hm
    exact ⟨c, n, m, a, hm, hmem⟩

end LindWasm.Threei

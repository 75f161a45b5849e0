import LindWasm.Dylink.Got

/-!
# Dylink/Resolve — which definition an import gets

    cache f 7 --> entry f --> cell 7          entry f --> cell 0 --> cache f 7 --> cell 7

An import and the definitions of its name may come in any order. Whatever the order, the cell
registered for a name ends up with the first value that was cached for it (`cell_eq_first`), whether
the module that imports it is linked before its providers or after them.
-/

namespace LindWasm.Dylink

open List LindGot

inductive GotOp
  | newEntry (k : GotModule) (name : String)
  | cacheSymbol (name : String) (val : ℕ)

/-- The cells that calls register, in order… -/
def entries (ops : List GotOp) : List (String × GotModule) :=
  ops.filterMap fun
    | .newEntry k name => some (name, k)
    | .cacheSymbol _ _ => none

/-- …and the values that they cache. `lookup` finds the first of a name. -/
def caches (ops : List GotOp) : List (String × ℕ) :=
  ops.filterMap fun
    | .newEntry _ _ => none
    | .cacheSymbol name val => some (name, val)

namespace LindGot

variable (g : LindGot)

/-- The table of a child: no cell is registered yet, and those that will be are zero. -/
def cloneWithCache : LindGot := { new with symbolCache := g.symbolCache }

def step : GotOp → LindGot
  | .newEntry k name => g.newEntry k name
  | .cacheSymbol name val => g.cacheSymbol name val

def run (ops : List GotOp) : LindGot := ops.foldl step g

/-- The cell registered for a name holds what is cached for it, and every other one is zero. -/
structure Settled (name : String) : Prop where
  cell : ∀ k, g.cell k name
    = if g.globalOffsetTable name = some k then (g.symbolCache name).getD 0 else 0
  nonzero : g.symbolCache name ≠ some 0

variable {g : LindGot} {k : GotModule} {name n : String} {val : ℕ} {ops : List GotOp}

section

variable (h : Settled g name)
include h

theorem Settled.newEntry : Settled (g.newEntry k n) name := by
  constructor
  · intro k'
    rw [newEntry_cell, newEntry_globalOffsetTable, newEntry_symbolCache, h.cell]
    by_cases hn : name = n
    · subst hn
      cases hreg : g.globalOffsetTable name with
      | some k => simp [setNew_self_of_some hreg]
      | none => simp [setNew_self_of_none hreg, eq_comm]
    · simp [setNew_of_ne hn, hn]
  · rw [newEntry_symbolCache]
    exact h.nonzero

theorem Settled.cacheSymbol (hval : val ≠ 0) : Settled (g.cacheSymbol n val) name := by
  constructor
  · intro k'
    rw [cacheSymbol_cell, cacheSymbol_globalOffsetTable, cacheSymbol_symbolCache, h.cell]
    by_cases hn : name = n
    · subst hn
      have hnonzero := h.nonzero
      cases hcache : g.symbolCache name with
      | some w => simp_all [setNew_self_of_some hcache]
      | none => simp [setNew_self_of_none hcache]
    · simp [setNew_of_ne hn, hn]
  · rw [cacheSymbol_symbolCache]
    intro hzero
    rcases eq_or_of_setNew hzero with hzero | ⟨-, hzero⟩
    · exact h.nonzero hzero
    · exact hval hzero.symm

theorem Settled.cloneWithCache : Settled g.cloneWithCache name :=
  ⟨fun _ => rfl, h.nonzero⟩

end

/-- What a run leaves for a name: the first cell, and the first value. -/
theorem run_reading (g : LindGot) (name : String) (ops : List GotOp) :
    (g.run ops).globalOffsetTable name = (g.globalOffsetTable name).or ((entries ops).lookup name) ∧
      (g.run ops).symbolCache name = (g.symbolCache name).or ((caches ops).lookup name) := by
  induction ops generalizing g with
  | nil => simp [run, entries, caches]
  | cons op ops ih =>
    obtain ⟨hgot, hcache⟩ := ih (g.step op)
    cases op with
    | newEntry k n =>
      refine ⟨hgot.trans ?_, hcache.trans ?_⟩
      · rw [step, newEntry_globalOffsetTable, setNew_or_lookup]
        rfl
      · rw [step, newEntry_symbolCache]
        rfl
    | cacheSymbol n val =>
      refine ⟨hgot.trans ?_, hcache.trans ?_⟩
      · rw [step, cacheSymbol_globalOffsetTable]
        rfl
      · rw [step, cacheSymbol_symbolCache, setNew_or_lookup]
        rfl

theorem Settled.run (h : Settled g name) (hval : ∀ x ∈ caches ops, x.2 ≠ 0) :
    Settled (g.run ops) name := by
  induction ops generalizing g with
  | nil => exact h
  | cons op ops ih =>
    cases op with
    | newEntry k n => exact ih h.newEntry hval
    | cacheSymbol n val =>
      obtain ⟨hfirst, hrest⟩ := forall_mem_cons.mp hval
      exact ih (h.cacheSymbol hfirst) hrest

/-- **The law**, from a table that has no cell for the name. -/
theorem Settled.cell_run (h : Settled g name) (hnone : g.globalOffsetTable name = none)
    (hval : ∀ x ∈ caches ops, x.2 ≠ 0) (hk : (entries ops).lookup name = some k) :
    (g.run ops).cell k name = ((g.symbolCache name).or ((caches ops).lookup name)).getD 0 := by
  obtain ⟨hgot, hcache⟩ := run_reading g name ops
  rw [hnone, Option.none_or] at hgot
  rw [(h.run hval).cell, hgot, if_pos hk, hcache]

theorem settled_new (name : String) : Settled new name := ⟨fun _ => rfl, nofun⟩

end LindGot

/-- **The first cell of a name gets the first value of the name**, or stays zero: in a table, and in
one that was cloned from it with the values it had.  Where the imports stand among the definitions
does not matter. -/
theorem cell_eq_first {ops ops' : List GotOp} (hval : ∀ x ∈ caches (ops ++ ops'), x.2 ≠ 0) :
    (∀ name k, (entries ops).lookup name = some k →
      (LindGot.new.run ops).cell k name = ((caches ops).lookup name).getD 0) ∧
    (∀ name k, (entries ops').lookup name = some k →
      ((LindGot.new.run ops).cloneWithCache.run ops').cell k name
        = ((caches (ops ++ ops')).lookup name).getD 0) ∧
    (caches ops = caches ops' → ∀ name k k', (entries ops).lookup name = some k →
      (entries ops').lookup name = some k' →
      (LindGot.new.run ops).cell k name = (LindGot.new.run ops').cell k' name) := by
  have happend : caches (ops ++ ops') = caches ops ++ caches ops' := filterMap_append
  rw [happend, forall_mem_append] at hval
  obtain ⟨hval, hval'⟩ := hval
  have hlaw : ∀ name k, (entries ops).lookup name = some k →
      (LindGot.new.run ops).cell k name = ((caches ops).lookup name).getD 0 := fun name k hk =>
    (settled_new name).cell_run rfl hval hk
  refine ⟨hlaw, fun name k hk => ?_, fun hsame name k k' hk hk' => ?_⟩
  · have hclone := ((settled_new name).run hval).cloneWithCache
    have hcache :
        (LindGot.new.run ops).cloneWithCache.symbolCache name = (caches ops).lookup name :=
      (run_reading .new name ops).2
    rw [hclone.cell_run rfl hval' hk, happend, lookup_append, hcache]
  · rw [hlaw name k hk, (settled_new name).cell_run rfl hval' hk', hsame]
    rfl

/-- An import before its providers, and one after them. -/
def importFirst : List GotOp := [.newEntry .func "f", .cacheSymbol "f" 7, .cacheSymbol "f" 9]

def importLast : List GotOp := [.cacheSymbol "f" 7, .cacheSymbol "f" 9, .newEntry .func "f"]

/-- Each has the first provider's value, and so has the second in a table cloned from the first. -/
theorem cell_eq_first_import :
    (LindGot.new.run importFirst).cell .func "f" = 7 ∧
      ((LindGot.new.run importFirst).cloneWithCache.run importLast).cell .func "f" = 7 ∧
      (LindGot.new.run importFirst).cell .func "f" =
        (LindGot.new.run importLast).cell .func "f" := by
  obtain ⟨hfirst, hclone, hsame⟩ := @cell_eq_first importFirst importLast (by decide)
  exact ⟨hfirst "f" .func rfl, hclone "f" .func rfl, hsame rfl "f" .func .func rfl rfl⟩

end LindWasm.Dylink

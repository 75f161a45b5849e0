import LindWasm.Dylink.Linker

/-!
# Dylink/Growth — what no load takes back

    s --any load--> s'          definitions kept, slots kept, resolved cells kept

A load only ever adds: `Grows` is that order on loaders. Everything but the creation of placeholder
cells also adds no cell (`Links`).
-/

namespace LindWasm.Dylink

open List LindGot Loader

/-- The modules and libraries a loader has on record. -/
def Loader.record (s : Loader) :
    WasmModule × List (String × WasmModule) × List (WasmModule × DlopenOutcome) × List Library :=
  (s.mainModule, s.modules, s.dlopenModules, s.loaded)

/-- `s'` has every definition, every slot and every resolved cell of `s`, and the same record. -/
structure Grows (s s' : Loader) : Prop where
  map : Keeps s.map s'.map
  table : ∃ slots, s'.table = s.table ++ slots
  cell : ∀ (k : GotModule) name, s.map (k.importModule, name) = some .gotCell →
    s.got.cell k name ≠ 0 → s'.got.cell k name = s.got.cell k name
  record : s'.record = s.record

/-- …and no cell that `s` has not. -/
structure Links (s s' : Loader) : Prop extends Grows s s' where
  cells : ∀ key, s'.map key = some .gotCell → s.map key = some .gotCell
  registered : s'.got.globalOffsetTable = s.got.globalOffsetTable

variable {c : Config} {l : Library} {s s' s'' : Loader} {m : WasmModule} {inst : Inst}
  {key : String × String} {d : Definition}

namespace Grows

theorem refl (s : Loader) : Grows s s := ⟨.refl _, ⟨[], by simp⟩, fun _ _ _ _ => rfl, rfl⟩

section

variable (h : Grows s s')
include h

theorem trans (h' : Grows s' s'') : Grows s s'' := by
  refine ⟨h.map.trans h'.map, ?_, fun k name hkey hne => ?_, h'.record.trans h.record⟩
  · obtain ⟨slots, hslots⟩ := h.table
    obtain ⟨slots', hslots'⟩ := h'.table
    exact ⟨slots ++ slots', by rw [hslots', hslots, append_assoc]⟩
  · have heq := h.cell k name hkey hne
    rw [← heq]
    exact h'.cell k name (h.map _ _ hkey) (heq ▸ hne)

theorem table_ne_nil (hne : s.table ≠ []) : s'.table ≠ [] := by
  obtain ⟨slots, hslots⟩ := h.table
  rw [hslots]
  exact append_ne_nil_of_left_ne_nil hne slots

theorem mainModule : s'.mainModule = s.mainModule := congrArg Prod.fst h.record

theorem modules : s'.modules = s.modules := congrArg (·.2.1) h.record

theorem dlopenModules : s'.dlopenModules = s.dlopenModules :=
  congrArg (·.2.2.1) h.record

theorem loaded : s'.loaded = s.loaded := congrArg (·.2.2.2) h.record

theorem slot {i : ℕ} {f : Func} (hi : s.table[i]? = some (some f)) :
    s'.table[i]? = some (some f) := by
  obtain ⟨slots, hslots⟩ := h.table
  rw [hslots, List.getElem?_append_left (List.getElem?_eq_some_iff.mp hi).1, hi]

end

end Grows

namespace Links

theorem refl (s : Loader) : Links s s := ⟨.refl s, fun _ h => h, rfl⟩

theorem trans (h : Links s s') (h' : Links s' s'') : Links s s'' :=
  ⟨h.toGrows.trans h'.toGrows, fun key hkey => h.cells key (h'.cells key hkey),
    h'.registered.trans h.registered⟩

end Links

/-! ## The steps of a load -/

/-- Definitions, slots and a cached symbol, each kept or added to. -/
theorem links_of_cacheSymbol {name : String} {val : ℕ} (hmap : s'.map = s.map)
    (htable : ∃ slots, s'.table = s.table ++ slots)
    (hgot : s'.got = s.got.cacheSymbol name val) (hrecord : s'.record = s.record) : Links s s' := by
  refine ⟨⟨hmap ▸ .refl _, htable, fun k n _ hne => ?_, hrecord⟩, fun key h => hmap ▸ h, ?_⟩
  · rw [hgot]
    exact cacheSymbol_cell_of_resolved hne
  · rw [hgot, cacheSymbol_globalOffsetTable]

theorem links_of_setNew (hd : d ≠ .gotCell)
    (hmap : s'.map = setNew s.map key d) (htable : s'.table = s.table) (hgot : s'.got = s.got)
    (hrecord : s'.record = s.record) : Links s s' := by
  refine ⟨⟨hmap ▸ keeps_setNew _ _ _, ⟨[], by simp [htable]⟩, fun _ _ _ _ => by rw [hgot], hrecord⟩,
    fun key' h => ?_, by rw [hgot]⟩
  rw [hmap] at h
  exact (eq_or_of_setNew h).resolve_right fun hnew => hd hnew.2.symm

theorem links_insert (hd : d ≠ .gotCell) : Links s (s.insert key d).1 := by
  unfold Loader.insert
  split
  · exact .refl s
  · exact links_of_setNew hd rfl rfl rfl rfl

theorem links_addPortal (name : String) (f : Func) : Links s (s.addPortal l name f) := by
  unfold addPortal
  split
  · split
    · exact links_of_cacheSymbol rfl ⟨_, rfl⟩ rfl rfl
    · exact .refl s
  · exact .refl s

theorem links_linkExport (e : Export) : Links s (s.linkExport c l e).1 := by
  unfold linkExport
  split
  · exact .refl s
  · split
    · exact .refl s
    · split
      · exact (links_addPortal _ _).trans (links_insert nofun)
      · exact links_insert nofun

theorem links_linkExports (es : List Export) : Links s (s.linkExports c l es).1 := by
  induction es generalizing s with
  | nil => exact .refl s
  | cons e es ih =>
    have he : Links s (s.linkExport c l e).1 := links_linkExport e
    unfold linkExports
    split
    · rename_i s' heq
      rw [heq] at he
      exact he.trans ih
    · rename_i s' err heq
      rw [heq] at he
      exact he

theorem links_instanceDylink : Links s (s.instanceDylink c l).1 := links_linkExports _

theorem links_of_dylink (h : s.instanceDylink c l = (s', none)) : Links s s' := by
  simpa [h] using links_instanceDylink (s := s) (c := c) (l := l)

theorem links_applyGotRelocs (inst : Inst) (memoryBase : ℕ) :
    Links s (s.applyGotRelocs c inst m memoryBase) := by
  have hfuncs : Links s ((m.relocFuncs c.fpcast).foldl (relocFunc inst) s) :=
    foldlRecOn _ _ (motive := Links s) (.refl s)
      fun _ h _ _ => h.trans (links_of_cacheSymbol rfl ⟨_, rfl⟩ rfl rfl)
  exact foldlRecOn _ _ (motive := Links s) hfuncs
    fun _ h _ _ => h.trans (links_of_cacheSymbol rfl ⟨[], by simp [relocGlobal]⟩ rfl rfl)

theorem links_defineTrap (key : String × String) : Links s (s.defineTrap key) := by
  refine links_of_setNew ?_ rfl rfl rfl rfl
  exact nofun

theorem links_defineUnknownImportsAsTraps : Links s (s.defineUnknownImportsAsTraps m) :=
  foldlRecOn _ _ (motive := Links s) (.refl s)
    fun _ h key _ => h.trans (links_defineTrap key)

theorem initElements_fresh (slots table : List (Option Func)) {n : ℕ} (hn : slots.length = n) :
    initElements table.length slots (table ++ List.replicate n none) = table ++ slots := by
  simp [initElements, hn]

theorem WasmModule.length_elementSlots (m : WasmModule) (inst : Inst) :
    (m.elementSlots inst).length = m.elements.length := length_map _

theorem links_instantiate (inst : Inst) :
    Links s ((s.growTable m.elements.length).instantiate inst m s.table.length) := by
  refine ⟨⟨.refl _, ⟨m.elementSlots inst, ?_⟩, fun _ _ _ _ => rfl, rfl⟩, fun _ h => h, rfl⟩
  exact initElements_fresh _ _ (m.length_elementSlots inst)

/-! ## Placeholder cells -/

variable (p : GotModule × String) (table : List (Option Func))

theorem grows_defineGotCell : Grows s (s.defineGotCell p) := by
  unfold defineGotCell
  split
  · exact .refl s
  · rename_i hnone
    refine ⟨keeps_setNew _ _ _, ⟨[], by simp⟩, fun k name hkey _ => ?_, rfl⟩
    -- a cell that is there belongs to another import, and so to another cell
    have hne : ¬(k = p.1 ∧ name = p.2) := by
      rintro ⟨rfl, rfl⟩
      rw [hnone] at hkey
      cases hkey
    by_cases hname : name = p.2
    · subst hname
      have hk : k ≠ p.1 := fun h => hne ⟨h, rfl⟩
      exact (newEntry_cell_of_module_ne hk).trans (store_cell_of_module_ne hk)
    · exact (newEntry_cell_of_ne hname).trans (store_cell_of_ne hname)

theorem grows_defineGotDispatcher : Grows s (s.defineGotDispatcher m) :=
  foldlRecOn _ _ (motive := Grows s) (.refl s)
    fun _ h p _ => h.trans (grows_defineGotCell p)

/-- Cells and slots are apart: the table may be written before or after. -/
theorem defineGotCell_setTable :
    defineGotCell { s with table } p = { s.defineGotCell p with table } := by
  unfold defineGotCell
  cases s.map (p.1.importModule, p.2) <;> rfl

theorem defineGotDispatcher_setTable :
    defineGotDispatcher { s with table } m = { s.defineGotDispatcher m with table } := by
  unfold defineGotDispatcher
  induction m.gotImports generalizing s with
  | nil => rfl
  | cons p ps ih => rw [foldl_cons, foldl_cons, defineGotCell_setTable, ih]

theorem defineGotDispatcher_table : (s.defineGotDispatcher m).table = s.table :=
  foldlRecOn _ _ (motive := fun t : Loader => t.table = s.table) rfl fun t h p _ => by
    rw [← h]
    unfold defineGotCell
    split <;> rfl

/-- A library may be instantiated before its cells are created. -/
theorem defineGotDispatcher_instantiate {n base : ℕ} :
    ((s.growTable n).defineGotDispatcher m).instantiate inst m base
      = ((s.growTable n).instantiate inst m base).defineGotDispatcher m := by
  have htable := defineGotDispatcher_table (s := s.growTable n) (m := m)
  unfold Loader.instantiate
  rw [htable]
  exact (defineGotDispatcher_setTable _).symm

end LindWasm.Dylink

import LindWasm.Dylink.Growth
import LindWasm.Machinery.Run

/-!
# Dylink/Interpose — on which paths an interposed function is reached

    link mn.f   --> linker definition            portal or trap, always
    GOT.func.f  --> cell --> slot                the index cached first: the function itself
    dlsym f     --> symbol map --> slot          the function itself

A portal is cached after the function it stands for, and a trap not at all, so the last two paths
are interposed only where nothing is on them. In every run that keeps such functions off them
(`LoadOk`) the property holds throughout (`interposed_run`).
-/

namespace LindWasm.Dylink

open Option List LindGot Loader

variable {c : Config} {l : Library} {s s' : Loader} {m : WasmModule} {name : String}

/-! ## The property -/

/-- The library links this export, and it is a function. -/
def Library.Exposes (l : Library) (e : Export) : Prop :=
  e.item.isFunc = true ∧ l.skips e.name = false

/-- A handler is registered for the symbol, or the library is interposed and the symbol is not
runtime glue. -/
def Library.MustInterpose (c : Config) (l : Library) (name : String) : Prop :=
  (c.handlers l.moduleName name).isSome = true
    ∨ l.forceInterposed = true ∧ isLindRuntimeGlue name = false

/-- What such a symbol is to resolve to: the portal of its handler or the trap for a signature it
cannot carry, and without a handler the trap of the interposed mode. -/
def Library.Interposes (c : Config) (l : Library) (name : String) (f : Func) : Prop :=
  match c.handlers l.moduleName name with
  | some (handlerCage, fnPtr) =>
      f = .portal l.moduleName name handlerCage fnPtr
        ∨ ∃ ty reason, lib3iUnsupportedSignatureReason ty = some reason
          ∧ f = .trap (unsupportedMessage l.moduleName name ty reason)
  | none => f = .trap (interposedMessage l.moduleName name)

/-- The slot holds a function that interposes the symbol. -/
def Library.InterposesSlot (c : Config) (l : Library) (name : String) (s : Loader) (i : ℕ) : Prop :=
  ∃ f, s.table[i]? = some (some f) ∧ l.Interposes c name f

/-- The three paths to a symbol of a library, each leading to what interposes it. -/
structure Resolved (c : Config) (s : Loader) (l : Library) (name : String) : Prop where
  direct : ∀ d, s.map (l.moduleName, name) = some d → ∃ f, d = .func f ∧ l.Interposes c name f
  linked : l.handle = none → (s.map (l.moduleName, name)).isSome = true
  got : s.map (GotModule.func.importModule, name) = some .gotCell →
    l.InterposesSlot c name s (s.got.cell .func name)
  dlsym : ∀ handle, l.handle = some handle → ∀ i,
    s.symbols.findSymbolFromHandler handle name = some i → l.InterposesSlot c name s i

def Interposed (c : Config) (s : Loader) : Prop :=
  ∀ l ∈ s.loaded, ∀ e ∈ l.module.exports, l.Exposes e → l.MustInterpose c e.name →
    Resolved c s l e.name

/-! ## The condition -/

def Func.isPortal : Func → Bool
  | .portal .. => true
  | _ => false

/-- The export is linked to a portal. -/
def Library.linksPortal (c : Config) (l : Library) (e : Export) : Bool :=
  match e.item with
  | .func ty => (l.link c e.name ty).isPortal
  | _ => false

/-- The offset-table cell of the export is there, unresolved, and the portal is the first to be
cached for it: no relocated function of the library has its name. -/
def PortalFirst (c : Config) (s : Loader) (l : Library) (e : Export) : Prop :=
  l.updatesGot = true ∧ l.linksPortal c e = true
    ∧ s.got.globalOffsetTable e.name = some .func ∧ s.got.cell .func e.name = 0
    ∧ e.name ∉ (l.module.relocFuncs c.fpcast).map Prod.snd
    ∧ s.map (l.moduleName, e.name) = none ∧ s.table ≠ []

/-- The definition of an export is what the library links for it. -/
def Library.LinkedAs (c : Config) (l : Library) (e : Export) (s : Loader) : Prop :=
  match e.item with
  | .func ty => s.map (l.moduleName, e.name) = some (.func (l.link c e.name ty))
  | _ => False

/-- A symbol to be interposed has no offset-table cell, or one its portal fills; and where the first
definition of its name wins, it is the first or the same. -/
def LibraryOk (c : Config) (s : Loader) (l : Library) : Prop :=
  ∀ e ∈ l.module.exports, l.Exposes e → l.MustInterpose c e.name →
    (s.map (GotModule.func.importModule, e.name) ≠ some .gotCell ∨ PortalFirst c s l e)
      ∧ (l.moduleName = "env" ∧ isDylinkDedupSymbol e.name = true →
          s.map (l.moduleName, e.name) = none ∨ l.LinkedAs c e s)

/-- The cached index of a symbol is that of what the library links for it. -/
def Library.CachedAs (c : Config) (l : Library) (e : Export) (s : Loader) : Prop :=
  match e.item, s.got.symbolCache e.name with
  | .func ty, some i => i ≠ 0 ∧ s.table[i]? = some (some (l.link c e.name ty))
  | _, _ => False

/-- A new offset-table cell is not that of an interposed symbol, unless its portal was cached. -/
def DispatchOk (c : Config) (s : Loader) (m : WasmModule) : Prop :=
  ∀ l ∈ s.loaded, ∀ e ∈ l.module.exports, l.Exposes e → l.MustInterpose c e.name →
    (.func, e.name) ∈ m.gotImports → s.map (GotModule.func.importModule, e.name) = none →
      s.got.globalOffsetTable e.name = none ∧ (.mem, e.name) ∉ m.gotImports ∧ l.CachedAs c e s

/-- A library opened at run time exports no function to be interposed. -/
def OpenOk (c : Config) (l : Library) : Prop :=
  ∀ e ∈ l.module.exports, l.Exposes e → ¬ l.MustInterpose c e.name

/-- The library a preload links, and the one `dlopen` links. -/
def preloaded (s : Loader) (name : String) (m : WasmModule) (force : Bool) : Library :=
  ⟨name, m, .preload s.modules.length force⟩

def opened (s : Loader) (path : String) (m : WasmModule) : Library :=
  ⟨path, m, .opened s.dlopenModules.length s.symbols.nextHandler true⟩

def DlopenOutcome.instantiates : DlopenOutcome → Bool
  | .notInstantiated _ => false
  | _ => true

def LoadOk (c : Config) (s : Loader) : Action → Prop
  | .dispatch m => DispatchOk c s m
  | .preload name m _ force => LibraryOk c s (preloaded s name m force)
  | .main _ => LibraryOk c s ⟨"env", s.mainModule, .main⟩
  | .dlopen path m _ _ inode outcome =>
      (s.symbols.checkLibraryLoaded inode).isSome = true
        ∨ DispatchOk c s m ∧ (outcome.instantiates = true → OpenOk c (opened s path m))
  | .dlclose _ => True

section Decidable

variable (c : Config) (l : Library) (s : Loader) (e : Export)

instance : Decidable (l.Exposes e) := inferInstanceAs (Decidable (_ ∧ _))

instance : Decidable (l.MustInterpose c name) := inferInstanceAs (Decidable (_ ∨ _ ∧ _))

instance : Decidable (PortalFirst c s l e) :=
  inferInstanceAs (Decidable (_ ∧ _ ∧ _ ∧ _ ∧ _ ∧ _ ∧ _))

instance : Decidable (l.LinkedAs c e s) := by unfold Library.LinkedAs; split <;> infer_instance

instance : Decidable (l.CachedAs c e s) := by unfold Library.CachedAs; split <;> infer_instance

instance : Decidable (LibraryOk c s l) := by unfold LibraryOk; infer_instance

instance : Decidable (DispatchOk c s m) := inferInstanceAs (Decidable (∀ e ∈ _, _))

instance : Decidable (OpenOk c l) := by unfold OpenOk; infer_instance

instance (a : Action) : Decidable (LoadOk c s a) := by
  cases a <;> unfold LoadOk <;> infer_instance

end Decidable

/-! ## What a load installs, and what stays installed -/

theorem Library.interposes_link (hmust : l.MustInterpose c name) (ty : FuncType) :
    l.Interposes c name (l.link c name ty) := by
  unfold Library.Interposes Library.link
  cases hh : c.handlers l.moduleName name with
  | some h =>
    cases hr : lib3iUnsupportedSignatureReason ty with
    | some reason => exact .inr ⟨ty, reason, hr, rfl⟩
    | none => exact .inl rfl
  | none =>
    obtain hsome | ⟨hforce, hglue⟩ := hmust
    · simp [hh] at hsome
    · simp [hforce, hglue]

/-- What holds of a symbol of a library that no handle leads to. -/
structure Held (c : Config) (s : Loader) (l : Library) (name : String) : Prop where
  direct : ∃ f, s.map (l.moduleName, name) = some (.func f) ∧ l.Interposes c name f
  got : s.map (GotModule.func.importModule, name) = some .gotCell →
    s.got.cell .func name ≠ 0 ∧ l.InterposesSlot c name s (s.got.cell .func name)

theorem Held.resolved (h : Held c s l name) (hhandle : l.handle = none) : Resolved c s l name := by
  obtain ⟨f, hf, hint⟩ := h.direct
  refine ⟨fun d hd => ⟨f, ?_, hint⟩, fun _ => by rw [hf]; rfl, fun hcell => (h.got hcell).2, ?_⟩
  · exact mem_unique hd hf
  · intro handle hsome
    rw [hhandle] at hsome
    cases hsome

/-- A symbol stays interposed where the state grows, if a new cell of its name is. -/
theorem Held.grows (h : Held c s l name) (hg : Grows s s')
    (hnew : s.map (GotModule.func.importModule, name) = none →
      s'.map (GotModule.func.importModule, name) = some .gotCell →
        s'.got.cell .func name ≠ 0 ∧ l.InterposesSlot c name s' (s'.got.cell .func name)) :
    Held c s' l name := by
  obtain ⟨f, hf, hint⟩ := h.direct
  refine ⟨⟨f, hg.map _ _ hf, hint⟩, fun hcell => ?_⟩
  cases hkey : s.map (GotModule.func.importModule, name) with
  | none => exact hnew hkey hcell
  | some d =>
    obtain rfl : d = .gotCell := some.inj ((hg.map _ _ hkey).symm.trans hcell)
    obtain ⟨hne, g, hg', hint'⟩ := h.got hkey
    rw [hg.cell .func name hkey hne]
    exact ⟨hne, g, hg.slot hg', hint'⟩

theorem Held.links (h : Held c s l name) (hl : Links s s') : Held c s' l name := by
  refine h.grows hl.toGrows fun hnone hcell => ?_
  rw [hl.cells _ hcell] at hnone
  cases hnone

/-! ## New offset-table cells -/

section Dispatch

variable {p : GotModule × String} {k : GotModule} {ps : List (GotModule × String)}

theorem importModule_key_ne (h : p.2 ≠ name) :
    ((k.importModule, name) : String × String) ≠ (p.1.importModule, p.2) :=
  fun heq => h (Prod.mk.inj heq).2.symm

theorem defineGotCell_map_of_ne (h : p.2 ≠ name) :
    (s.defineGotCell p).map (k.importModule, name) = s.map (k.importModule, name) := by
  unfold defineGotCell
  split
  · rfl
  · exact setNew_of_ne (importModule_key_ne h)

theorem defineGotCell_symbolCache : (s.defineGotCell p).got.symbolCache = s.got.symbolCache := by
  unfold defineGotCell
  split
  · rfl
  · exact newEntry_symbolCache

theorem defineGotCell_registered_of_ne (h : p.2 ≠ name) :
    (s.defineGotCell p).got.globalOffsetTable name = s.got.globalOffsetTable name := by
  unfold defineGotCell
  split
  · rfl
  · exact (congrFun newEntry_globalOffsetTable _).trans (setNew_of_ne h.symm)

theorem defineGotCells_cell {i : ℕ} (hi : i ≠ 0)
    (hkey : s.map (GotModule.func.importModule, name) = none)
    (hreg : s.got.globalOffsetTable name = none) (hcache : s.got.symbolCache name = some i)
    (hmem : (.mem, name) ∉ ps) (hfunc : (.func, name) ∈ ps) :
    (ps.foldl defineGotCell s).got.cell .func name = i := by
  induction ps generalizing s with
  | nil => cases hfunc
  | cons p ps ih =>
    rw [foldl_cons]
    by_cases hp : p = (.func, name)
    · -- this import creates the cell, and the later ones leave a resolved cell alone
      subst hp
      have hcell : (s.defineGotCell (.func, name)).got.cell .func name = i := by
        simp only [defineGotCell, hkey]
        exact newEntry_cell_of_none hreg hcache
      have hmap : (s.defineGotCell (.func, name)).map (GotModule.func.importModule, name)
          = some .gotCell := by
        simp only [defineGotCell, hkey]
        exact setNew_self_of_none hkey
      have hrest : Grows (s.defineGotCell (.func, name))
          (ps.foldl defineGotCell (s.defineGotCell (.func, name))) :=
        foldlRecOn _ _ (motive := Grows _) (.refl _)
          fun _ h p _ => h.trans (grows_defineGotCell p)
      rw [hrest.cell .func name hmap (hcell ▸ hi), hcell]
    · have hne : p.2 ≠ name := by
        rintro rfl
        rcases p with ⟨_ | _, n⟩
        · exact hp rfl
        · exact hmem mem_cons_self
      refine ih ?_ ?_ ?_ (fun h => hmem (mem_cons_of_mem _ h)) ?_
      · rw [defineGotCell_map_of_ne hne, hkey]
      · rw [defineGotCell_registered_of_ne hne, hreg]
      · rw [defineGotCell_symbolCache, hcache]
      · exact (mem_cons.mp hfunc).resolve_left (Ne.symm hp)

theorem defineGotCells_map_of_not_mem (hfunc : (k, name) ∉ ps) :
    (ps.foldl defineGotCell s).map (k.importModule, name) = s.map (k.importModule, name) := by
  refine foldlRecOn ps _
    (motive := fun t : Loader => t.map (k.importModule, name) = s.map (k.importModule, name)) rfl
    fun t ht p hp => ?_
  rw [← ht]
  by_cases hne : p.2 = name
  · unfold defineGotCell
    split
    · rfl
    · refine setNew_of_ne fun heq => hfunc ?_
      have hk : k = p.1 := by
        have h1 := (Prod.mk.inj heq).1
        revert h1
        cases k <;> cases p.1 <;> simp [GotModule.importModule]
      rw [hk, ← hne]
      exact hp
  · exact defineGotCell_map_of_ne hne

end Dispatch

/-! ## The slots of the main module -/

/-- The first slots of the table are null, or filled by the main module itself. -/
def MainSlots (s : Loader) : Prop :=
  s.mainModule.elements.length ≤ s.table.length ∧ ∀ i < s.mainModule.elements.length,
    ∀ f, s.table[i]? = some (some f) → ∃ k, f = .elem .main k

theorem MainSlots.grows (h : MainSlots s) (hg : Grows s s') : MainSlots s' := by
  obtain ⟨slots, hslots⟩ := hg.table
  rw [MainSlots, hg.mainModule, hslots]
  refine ⟨h.1.trans (by simp), fun i hi f hf => h.2 i hi f ?_⟩
  rwa [getElem?_append_left (hi.trans_le h.1)] at hf

theorem instantiate_main_slot (i : ℕ) :
    (s.instantiate .main s.mainModule 0).table[i]?
      = if i < s.mainModule.elements.length then (s.mainModule.elementSlots .main)[i]?
        else s.table[i]? := by
  have hlen := s.mainModule.length_elementSlots .main
  simp only [Loader.instantiate, initElements, take_zero, nil_append, hlen, Nat.zero_add]
  split
  · next hi => exact getElem?_append_left (hlen.symm ▸ hi)
  · next hi =>
    rw [getElem?_append_right (by omega), getElem?_drop, hlen, Nat.add_sub_cancel' (by omega)]

theorem mainSlots_instantiate (s : Loader) : MainSlots (s.instantiate .main s.mainModule 0) := by
  refine ⟨?_, fun i hi f hf => ?_⟩
  · simp [Loader.instantiate, initElements, WasmModule.length_elementSlots]
  · have hi : i < s.mainModule.elements.length := hi
    rw [instantiate_main_slot, if_pos hi, WasmModule.elementSlots, getElem?_map] at hf
    obtain ⟨k, -, hk⟩ := map_eq_some_iff.mp hf
    obtain ⟨n, -, rfl⟩ := map_eq_some_iff.mp hk
    exact ⟨n, rfl⟩

theorem Library.not_interposes_elem {inst : Inst} {k : ℕ} :
    ¬ l.Interposes c name (.elem inst k) := by
  unfold Library.Interposes
  split
  · rintro (h | ⟨ty, reason, -, h⟩) <;> cases h
  · nofun

/-- The invariant of a run: what is to be interposed is, and is behind no handle. -/
def AllHeld (c : Config) (s : Loader) : Prop :=
  MainSlots s ∧ ∀ l ∈ s.loaded, ∀ e ∈ l.module.exports, l.Exposes e → l.MustInterpose c e.name →
    l.handle = none ∧ Held c s l e.name

theorem AllHeld.interposed (h : AllHeld c s) : Interposed c s := fun l hl e he hexp hmust =>
  (h.2 l hl e he hexp hmust).2.resolved (h.2 l hl e he hexp hmust).1

theorem AllHeld.of_forall (h : AllHeld c s) (hmain : MainSlots s') (hloaded : s'.loaded = s.loaded)
    (hheld : ∀ l name, Held c s l name → Held c s' l name) : AllHeld c s' := by
  refine ⟨hmain, fun l hmem e he hexp hmust => ?_⟩
  rw [hloaded] at hmem
  exact (h.2 l hmem e he hexp hmust).imp_right (hheld l e.name)

/-- Handles and records are apart from what is linked. -/
theorem AllHeld.reopen (h : AllHeld c s) (symbols : SymbolTable)
    (dlopenModules : List (WasmModule × DlopenOutcome)) :
    AllHeld c { s with symbols, dlopenModules } :=
  h.of_forall h.1 rfl fun _ _ hheld => ⟨hheld.direct, hheld.got⟩

/-- One more library, whose functions are held too. -/
theorem AllHeld.add (h : AllHeld c s) (symbols : SymbolTable) (modules : List (String × WasmModule))
    (hl : ∀ e ∈ l.module.exports, l.Exposes e → l.MustInterpose c e.name →
      l.handle = none ∧ Held c s l e.name) :
    AllHeld c { s with symbols, modules, loaded := s.loaded ++ [l] } := by
  refine ⟨h.1, fun l₀ hmem e he hexp hmust => ?_⟩
  have hheld : l₀.handle = none ∧ Held c s l₀ e.name := by
    obtain hold | hnew := mem_append.mp hmem
    · exact h.2 l₀ hold e he hexp hmust
    · obtain rfl := mem_singleton.mp hnew
      exact hl e he hexp hmust
  exact ⟨hheld.1, hheld.2.direct, hheld.2.got⟩

theorem AllHeld.links (h : AllHeld c s) (hl : Links s s') : AllHeld c s' :=
  h.of_forall (h.1.grows hl.toGrows) hl.loaded fun _ _ hheld => hheld.links hl

/-- No slot that interposes a symbol is one of the main module's. -/
theorem AllHeld.instantiate (h : AllHeld c s) : AllHeld c (s.instantiate .main s.mainModule 0) := by
  refine h.of_forall (mainSlots_instantiate s) rfl fun l name hheld =>
    ⟨hheld.direct, fun hcell => ?_⟩
  obtain ⟨hne, f, hf, hint⟩ := hheld.got hcell
  refine ⟨hne, f, ?_, hint⟩
  rw [instantiate_main_slot, if_neg fun hi => ?_]
  · exact hf
  · obtain ⟨k, rfl⟩ := h.1.2 _ hi f hf
    exact Library.not_interposes_elem hint

/-- The condition on new cells is not lost where slots are appended. -/
theorem DispatchOk.appendSlots (h : DispatchOk c s m) (hl : Links s s') (hmap : s'.map = s.map)
    (hgot : s'.got = s.got) : DispatchOk c s' m := by
  intro l hmem e he hexp hmust himp hnone
  rw [hl.loaded] at hmem
  obtain ⟨hreg, hmem', hcached⟩ := h l hmem e he hexp hmust himp (hmap ▸ hnone)
  refine ⟨hgot ▸ hreg, hmem', ?_⟩
  unfold Library.CachedAs at hcached ⊢
  rw [hgot]
  split at hcached
  · exact ⟨hcached.1, hl.slot hcached.2⟩
  · exact hcached.elim

theorem allHeld_defineGotDispatcher (h : AllHeld c s) (hok : DispatchOk c s m) :
    AllHeld c (s.defineGotDispatcher m) := by
  refine ⟨h.1.grows grows_defineGotDispatcher, fun l hmem e he hexp hmust => ?_⟩
  rw [grows_defineGotDispatcher.loaded] at hmem
  obtain ⟨hhandle, hheld⟩ := h.2 l hmem e he hexp hmust
  refine ⟨hhandle, hheld.grows grows_defineGotDispatcher fun hnone hcell => ?_⟩
  have himp : (.func, e.name) ∈ m.gotImports := by
    by_contra hno
    rw [defineGotDispatcher, defineGotCells_map_of_not_mem hno, hnone] at hcell
    cases hcell
  obtain ⟨hreg, hmem', hcached⟩ := hok l hmem e he hexp hmust himp hnone
  unfold Library.CachedAs at hcached
  split at hcached
  · rename_i ty i _ hcache
    obtain ⟨hi, hslot⟩ := hcached
    have hval : (s.defineGotDispatcher m).got.cell .func e.name = i :=
      defineGotCells_cell hi hnone hreg hcache hmem' himp
    rw [hval]
    exact ⟨hi, _, grows_defineGotDispatcher.slot hslot, l.interposes_link hmust ty⟩
  · exact hcached.elim

/-! ## Linking a library -/

section Link

variable {e : Export} {key : String × String} {d : Definition} {es : List Export}

/-- What linking asks of a symbol to be interposed, in the state it starts from. -/
def LinkOk (c : Config) (t : Loader) (l : Library) (e : Export) : Prop :=
  (l.moduleName = "env" ∧ isDylinkDedupSymbol e.name = true →
      t.map (l.moduleName, e.name) = none ∨ l.LinkedAs c e t)
    ∧ (t.map (GotModule.func.importModule, e.name) ≠ some .gotCell
      ∨ l.updatesGot = true ∧ l.linksPortal c e = true
        ∧ t.got.globalOffsetTable e.name = some .func ∧ t.got.cell .func e.name = 0
        ∧ t.map (l.moduleName, e.name) = none ∧ t.table ≠ [])

theorem Library.LinkedAs.congr (hmap : s'.map (l.moduleName, e.name) = s.map (l.moduleName, e.name))
    (h : l.LinkedAs c e s) : l.LinkedAs c e s' := by
  unfold Library.LinkedAs at h ⊢
  rw [hmap]
  exact h

theorem insert_eq_none (h : s.insert key d = (s', none)) :
    s.map key = none ∧ s' = { s with map := setNew s.map key d } := by
  unfold Loader.insert at h
  split at h
  · cases h
  · rename_i hnone
    exact ⟨hnone, (Prod.mk.inj h).1.symm⟩

theorem addPortal_map (f : Func) : (s.addPortal l name f).map = s.map := by
  unfold addPortal
  split
  · split <;> rfl
  · rfl

theorem addPortal_of_isPortal {f : Func} (hgot : l.updatesGot = true) (hf : f.isPortal = true) :
    s.addPortal l name f = { s with
      table := s.table ++ [some f], got := s.got.cacheSymbol name s.table.length } := by
  cases f with
  | portal _ _ _ _ => simp [addPortal, hgot]
  | _ => cases hf

theorem insert_map_of_ne {key' : String × String} (h : key' ≠ key) :
    (s.insert key d).1.map key' = s.map key' := by
  unfold Loader.insert
  split
  · rfl
  · exact setNew_of_ne h

theorem insert_got : (s.insert key d).1.got = s.got := by
  unfold Loader.insert
  split <;> rfl

theorem insert_table : (s.insert key d).1.table = s.table := by
  unfold Loader.insert
  split <;> rfl

/-- Linking an export defines nothing under another name… -/
theorem linkExport_map_of_ne (h : name ≠ e.name) :
    (s.linkExport c l e).1.map (l.moduleName, name) = s.map (l.moduleName, name) := by
  have hkey : (l.moduleName, name) ≠ (l.moduleName, e.name) := fun heq => h (Prod.mk.inj heq).2
  unfold linkExport
  split
  · rfl
  · split
    · rfl
    · split
      · rw [insert_map_of_ne hkey, addPortal_map]
      · rw [insert_map_of_ne hkey]

/-- …and fills no cell of another name. -/
theorem linkExport_cell_of_ne (h : name ≠ e.name) (k : GotModule) :
    (s.linkExport c l e).1.got.cell k name = s.got.cell k name := by
  unfold linkExport
  split
  · rfl
  · split
    · rfl
    · split
      · rw [insert_got]
        unfold addPortal
        split
        · split
          · exact cacheSymbol_cell_of_ne h
          · rfl
        · rfl
      · rw [insert_got]

section

variable (hok : s.linkExport c l e = (s', none)) (hexp : l.Exposes e)
  (hmust : l.MustInterpose c e.name)
include hok hexp hmust

theorem linkExport_direct (hcond : LinkOk c s l e) :
    ∃ f, s'.map (l.moduleName, e.name) = some (.func f) ∧ l.Interposes c e.name f := by
  obtain ⟨hfunc, hskip⟩ := hexp
  cases hitem : e.item with
  | global _ => simp [hitem, Item.isFunc] at hfunc
  | other => simp [hitem, Item.isFunc] at hfunc
  | func ty =>
    refine ⟨_, ?_, l.interposes_link hmust ty⟩
    simp only [linkExport, hskip, Bool.false_eq_true, ↓reduceIte, hitem] at hok
    split at hok
    · -- the name was defined already, and by the condition in the same way
      rename_i hthere
      simp only [Bool.and_eq_true, beq_iff_eq] at hthere
      obtain hnone | hlinked := hcond.1 hthere.1
      · simp [hnone] at hthere
      · obtain rfl := (Prod.mk.inj hok).1
        simpa [Library.LinkedAs, hitem] using hlinked
    · obtain ⟨hnone, rfl⟩ := insert_eq_none hok
      exact setNew_self_of_none hnone

theorem linkExport_cell (hgot : l.updatesGot = true) (hportal : l.linksPortal c e = true)
    (hreg : s.got.globalOffsetTable e.name = some .func) (hzero : s.got.cell .func e.name = 0)
    (hnew : s.map (l.moduleName, e.name) = none) (htable : s.table ≠ []) :
    s'.got.cell .func e.name ≠ 0 ∧ l.InterposesSlot c e.name s' (s'.got.cell .func e.name) := by
  obtain ⟨hfunc, hskip⟩ := hexp
  unfold Library.linksPortal at hportal
  split at hportal
  · rename_i ty hitem
    simp only [linkExport, hskip, hnew, isSome_none, Bool.and_false,
      Bool.false_eq_true, ↓reduceIte, hitem] at hok
    have hs' : s' = ((s.addPortal l e.name (l.link c e.name ty)).insert (l.moduleName, e.name)
        (.func (l.link c e.name ty))).1 := by rw [hok]
    have hadd := @addPortal_of_isPortal l s e.name _ hgot hportal
    have hcell : s'.got.cell .func e.name = s.table.length := by
      rw [hs', insert_got, hadd]
      exact cacheSymbol_cell_self hreg hzero
    refine ⟨?_, l.link c e.name ty, ?_, l.interposes_link hmust ty⟩
    · rw [hcell]
      exact fun h => htable (length_eq_zero_iff.mp h)
    · rw [hcell, hs', insert_table, hadd, getElem?_append_right (Nat.le_refl _)]
      simp
  · cases hportal

end

theorem linkExports_cons_eq_none (h : s.linkExports c l (e :: es) = (s', none)) :
    ∃ t, s.linkExport c l e = (t, none) ∧ t.linkExports c l es = (s', none) := by
  unfold linkExports at h
  split at h
  · rename_i t ht
    exact ⟨t, ht, h⟩
  · cases h

/-- The loop over the exports interposes every one of them that is to be. -/
theorem linkExports_held (hok : s.linkExports c l es = (s', none))
    (hnodup : (es.map Export.name).Nodup) (he : e ∈ es) (hexp : l.Exposes e)
    (hmust : l.MustInterpose c e.name) (hcond : LinkOk c s l e) : Held c s' l e.name := by
  induction es generalizing s with
  | nil => cases he
  | cons x xs ih =>
    obtain ⟨t, ht, hrest⟩ := linkExports_cons_eq_none hok
    have htl : Links s t := by simpa [ht] using links_linkExport (s := s) (c := c) (l := l) x
    rw [map_cons, nodup_cons] at hnodup
    obtain rfl | hxs := mem_cons.mp he
    · have hheld : Held c t l e.name := by
        refine ⟨linkExport_direct ht hexp hmust hcond, fun hgotCell => ?_⟩
        obtain hno | ⟨hgot, hportal, hreg, hzero, hnew, htable⟩ := hcond.2
        · exact (hno (htl.cells _ hgotCell)).elim
        · exact linkExport_cell ht hexp hmust hgot hportal hreg hzero hnew htable
      have hl : Links t s' := by
        simpa [hrest] using links_linkExports (s := t) (c := c) (l := l) xs
      exact hheld.links hl
    · have hne : e.name ≠ x.name := fun h =>
        hnodup.1 (h ▸ mem_map_of_mem hxs)
      have hmap : t.map (l.moduleName, e.name) = s.map (l.moduleName, e.name) := by
        simpa [ht] using linkExport_map_of_ne (c := c) (l := l) (s := s) hne
      have hval : t.got.cell .func e.name = s.got.cell .func e.name := by
        simpa [ht] using linkExport_cell_of_ne (c := c) (l := l) (s := s) hne .func
      refine ih hrest hnodup.2 hxs ⟨fun henv => (hcond.1 henv).imp (hmap.trans ·) (.congr hmap), ?_⟩
      refine hcond.2.imp (fun hno h => hno (htl.cells _ h)) ?_
      rintro ⟨hgot, hportal, hreg, hzero, hnew, htable⟩
      exact ⟨hgot, hportal, htl.registered ▸ hreg, hval.trans hzero, hmap.trans hnew,
        htl.table_ne_nil htable⟩

end Link

/-! ## The steps -/

section Steps

variable {inst : Inst} {memoryBase inode : ℕ} {mode : BitVec 32} {path : String}

theorem applyGotRelocs_map : (s.applyGotRelocs c inst m memoryBase).map = s.map := by
  have hfuncs : ((m.relocFuncs c.fpcast).foldl (relocFunc inst) s).map = s.map :=
    foldlRecOn _ _ (motive := fun t : Loader => t.map = s.map) rfl fun _ h _ _ => h
  exact foldlRecOn _ _ (motive := fun t : Loader => t.map = s.map) hfuncs fun _ h _ _ => h

theorem applyGotRelocs_cell (k : GotModule) (hfunc : name ∉ (m.relocFuncs c.fpcast).map Prod.snd)
    (hglobal : name ∉ (m.relocGlobals memoryBase).map Prod.fst) :
    (s.applyGotRelocs c inst m memoryBase).got.cell k name = s.got.cell k name := by
  have hfuncs : ((m.relocFuncs c.fpcast).foldl (relocFunc inst) s).got.cell k name
      = s.got.cell k name := by
    refine foldlRecOn _ _
      (motive := fun t : Loader => t.got.cell k name = s.got.cell k name) rfl fun t h p hp => ?_
    rw [← h]
    exact cacheSymbol_cell_of_ne fun heq => hfunc (heq ▸ mem_map_of_mem hp)
  refine foldlRecOn _ _
    (motive := fun t : Loader => t.got.cell k name = s.got.cell k name) hfuncs fun t h p hp => ?_
  rw [← h]
  exact cacheSymbol_cell_of_ne fun heq => hglobal (heq ▸ mem_map_of_mem hp)

/-- An exported function is not a relocated global: export names are distinct. -/
theorem func_not_mem_relocGlobals {e : Export} (he : e ∈ m.exports) (hfunc : e.item.isFunc = true) :
    e.name ∉ (m.relocGlobals memoryBase).map Prod.fst := by
  intro hmem
  obtain ⟨p, hp, hname⟩ := mem_map.mp hmem
  obtain ⟨e', he', hsome⟩ := mem_filterMap.mp hp
  have hglobal : e'.item.isFunc = false ∧ p.1 = e'.name := by
    split at hsome
    · rename_i hitem
      split at hsome
      · cases hsome
        exact ⟨by simp [hitem, Item.isFunc], rfl⟩
      · cases hsome
    · cases hsome
  have heq : e' = e := inj_on_of_nodup_map m.exports_nodup he' he (hglobal.2.symm.trans hname)
  rw [heq, hfunc] at hglobal
  cases hglobal.1

variable (h : AllHeld c s)
include h

/-- A library linked from a state that only grew is interposed with all the others. -/
theorem allHeld_instanceDylink {t : Loader} (hl : Links s t)
    (hdylink : t.instanceDylink c l = (s', none)) (hhandle : l.handle = none)
    (hcond : ∀ e ∈ l.module.exports, l.Exposes e → l.MustInterpose c e.name → LinkOk c t l e)
    (modules : List (String × WasmModule)) :
    AllHeld c { s' with modules, loaded := s'.loaded ++ [l] } := by
  exact (h.links (hl.trans (links_of_dylink hdylink))).add _ _ fun e he hexp hmust => ⟨hhandle,
    linkExports_held hdylink l.module.exports_nodup he hexp hmust (hcond e he hexp hmust)⟩

theorem allHeld_preload {force : Bool} (hok : LibraryOk c s (preloaded s name m force))
    (hstep : s.moduleWithPreload c name m memoryBase force = some s') : AllHeld c s' := by
  obtain ⟨t, hdylink, rfl⟩ := moduleWithPreload_eq_some hstep
  have hgrow := links_instantiate (s := s) (m := m) (.preload s.modules.length)
  have hall := hgrow.trans
    (links_applyGotRelocs (c := c) (m := m) (.preload s.modules.length) memoryBase)
  refine allHeld_instanceDylink h hall hdylink rfl ?_ _
  intro e he hexp hmust
  obtain ⟨hcell, hdedup⟩ := hok e he hexp hmust
  unfold LinkOk
  rw [applyGotRelocs_map]
  refine ⟨fun henv => (hdedup henv).imp id (.congr (congrFun applyGotRelocs_map _)), ?_⟩
  refine hcell.imp id ?_
  rintro ⟨hgot, hportal, hreg, hzero, hfunc, hnew, htable⟩
  exact ⟨hgot, hportal, hall.registered ▸ hreg,
    (applyGotRelocs_cell .func hfunc (func_not_mem_relocGlobals he hexp.1)).trans hzero, hnew,
    hall.table_ne_nil htable⟩

theorem allHeld_main (hok : LibraryOk c s ⟨"env", s.mainModule, .main⟩)
    (hstep : s.loadMainModule c memoryBase = some s') : AllHeld c s' := by
  obtain ⟨t, hdylink, rfl⟩ := loadMainModule_eq_some hstep
  have htraps := links_defineUnknownImportsAsTraps (s := s) (m := s.mainModule)
  have hmain := (h.links htraps).instantiate
  rw [htraps.mainModule] at hmain
  have hreloc := links_applyGotRelocs (c := c) (m := s.mainModule)
    (s := (s.defineUnknownImportsAsTraps s.mainModule).instantiate .main s.mainModule 0) .main
    memoryBase
  refine allHeld_instanceDylink hmain hreloc hdylink rfl ?_ _
  intro e he hexp hmust
  refine ⟨fun henv => ?_, ?_⟩
  · -- the one symbol of that kind is on the skiplist of the main module
    have hname : e.name = "signal_callback" := by simpa [isDylinkDedupSymbol] using henv.2
    have hskip := hexp.2
    simp [Library.skips, Library.skiplist, hname] at hskip
  · obtain hno | hfirst := (hok e he hexp hmust).1
    · exact .inl fun hcell => hno (htraps.cells _ (hreloc.cells _ hcell))
    · cases hfirst.1

/-- Opening a library none of whose functions is to be interposed. -/
theorem allHeld_moduleWithCaller {initOk : Bool} {n : ℕ}
    (hok : ∀ handle linked, OpenOk c ⟨path, m, .opened n handle linked⟩) :
    AllHeld c (s.moduleWithCaller c n path m memoryBase mode inode initOk) := by
  have hreloc : AllHeld c (s.applyGotRelocs c (.opened n) m memoryBase) :=
    h.links (links_applyGotRelocs (.opened n) memoryBase)
  have hadd (symbols : SymbolTable) (handle : ℤ) (linked : Bool) :=
    hreloc.add (l := ⟨path, m, .opened n handle linked⟩) symbols
      (s.applyGotRelocs c (.opened n) m memoryBase).modules fun e he hexp hmust =>
        (hok handle linked e he hexp hmust).elim
  unfold moduleWithCaller
  dsimp only
  split
  · exact (hadd _ _ _).links links_instanceDylink
  · exact hadd _ _ _

theorem allHeld_dlopen {outcome : DlopenOutcome}
    (hok : (s.symbols.checkLibraryLoaded inode).isSome = true
      ∨ DispatchOk c s m ∧ (outcome.instantiates = true → OpenOk c (opened s path m))) :
    AllHeld c (s.loadLibraryModule c path m memoryBase mode inode outcome) := by
  unfold loadLibraryModule
  split
  · exact h.reopen _ _
  · rename_i hnone
    obtain hsome | ⟨hdispatch, hopen⟩ := hok
    · simp [hnone] at hsome
    · have hinst := links_instantiate (s := s) (m := m) (.opened s.dlopenModules.length)
      have hcells := allHeld_defineGotDispatcher (h.links hinst)
        (hdispatch.appendSlots hinst rfl rfl)
      rw [← defineGotDispatcher_instantiate] at hcells
      have hlinked (initOk : Bool) (hinst : outcome.instantiates = true) :
          AllHeld c ((((s.growTable m.elements.length).defineGotDispatcher m).instantiate
            (.opened s.dlopenModules.length) m s.table.length).moduleWithCaller c
              s.dlopenModules.length path m memoryBase mode inode initOk) :=
        allHeld_moduleWithCaller hcells fun _ _ => hopen hinst
      cases outcome with
      | notInstantiated _ =>
        have hgrow : Links s (s.growTable m.elements.length) :=
          ⟨⟨.refl _, ⟨_, rfl⟩, fun _ _ _ _ => rfl, rfl⟩, fun _ h => h, rfl⟩
        exact (allHeld_defineGotDispatcher (h.links hgrow)
          (hdispatch.appendSlots hgrow rfl rfl)).reopen _ _
      | ok => exact (hlinked true rfl).reopen _ _
      | initFailed => exact (hlinked false rfl).reopen _ _

theorem allHeld_load {a : Action} (hok : LoadOk c s a) (hstep : load c s a = some s') :
    AllHeld c s' := by
  cases a with
  | dispatch m =>
    cases hstep
    exact allHeld_defineGotDispatcher h hok
  | preload name m memoryBase force => exact allHeld_preload h hok hstep
  | main memoryBase => exact allHeld_main h hok hstep
  | dlopen path m memoryBase mode inode outcome =>
    cases hstep
    exact allHeld_dlopen h hok
  | dlclose handle =>
    cases hstep
    unfold detachLibrary
    split
    · exact h.reopen _ _
    · exact h

end Steps

/-! ## Runs -/

/-- **What is to be interposed is, on every path, along every run that keeps it off the two paths
the loader leaves open**: whatever the host defines, whatever handlers are registered before the
loads, in whatever order the modules are loaded. -/
theorem interposed_run (c : Config) (host : String × String → Option Definition)
    (main : WasmModule) (actions : List Action)
    (hok : StepsOk (load c) (LoadOk c) (Loader.start host main) actions)
    (hrun : runSteps (load c) (Loader.start host main) actions = some s) : Interposed c s := by
  have hstart : AllHeld c (Loader.start host main) := by
    refine ⟨⟨by simp [Loader.start], fun i hi f hf => ?_⟩, nofun⟩
    cases eq_of_mem_replicate (mem_of_getElem? hf)
  exact (inv_of_stepsOk (fun _ _ _ h => allHeld_load h) hstart hok hrun).interposed

/-- A library with one function to be handled by a grate, one without a handler and a piece of
glue. -/
def sampleLibrary : WasmModule where
  gotImports := []
  funcImports := []
  exports := [⟨"open", .func ⟨[.i32, .i32], [.i32]⟩⟩, ⟨"read", .func ⟨[.i32], [.i32]⟩⟩,
    ⟨"make_threei_call", .func ⟨[.i64], [.i32]⟩⟩, ⟨"environ", .global (some 16)⟩]
  elements := [some 0, none]
  exports_nodup := by decide

/-- A program that calls the first of them directly and through the offset table. -/
def sampleMain : WasmModule where
  gotImports := [(.func, "open"), (.mem, "environ")]
  funcImports := [("env", "open"), ("env", "missing")]
  exports := [⟨"_start", .func ⟨[], []⟩⟩]
  elements := [none, some 3]
  exports_nodup := by decide

def samplePlugin : WasmModule where
  gotImports := [(.func, "open")]
  funcImports := [("env", "open")]
  exports := [⟨"plugin_init", .func ⟨[], [.i32]⟩⟩]
  elements := [some 1]
  exports_nodup := by decide

/-- Cage 2 handles `env.open`. -/
def sampleConfig (fpcast : Bool) : Config where
  handlers := fun moduleName name =>
    if moduleName = "env" ∧ name = "open" then some (2, 77) else none
  fpcast := fpcast

/-- Preload the library in interposed mode, start the program, open and close a plugin. -/
def sampleActions : List Action :=
  [.dispatch sampleMain, .dispatch sampleLibrary, .preload "env" sampleLibrary 65536 true, .main 0,
   .dlopen "/lib/plugin.cwasm" samplePlugin 131072 rtldGlobal 7 .ok, .dlclose 1]

theorem interposed_sampleActions :
    ∃ s, runSteps (load (sampleConfig true)) (Loader.start (fun _ => none) sampleMain) sampleActions
      = some s ∧ Interposed (sampleConfig true) s := by
  have hok : StepsOk (load (sampleConfig true)) (LoadOk (sampleConfig true))
      (Loader.start (fun _ => none) sampleMain) sampleActions := by decide +kernel
  obtain ⟨s, hs⟩ := isSome_iff_exists.mp
    (show (runSteps (load (sampleConfig true)) (Loader.start (fun _ => none) sampleMain)
      sampleActions).isSome by decide +kernel)
  exact ⟨s, hs, interposed_run (sampleConfig true) _ sampleMain sampleActions hok hs⟩

theorem Library.not_interposes_real (c : Config) (l : Library) (name : String) (inst : Inst)
    (name' : String) : ¬ l.Interposes c name (.real inst name') := by
  unfold Library.Interposes
  split
  · rintro (h | ⟨_, _, _, h⟩) <;> cases h
  · exact nofun

/-- **Through the offset table the program reaches the library's own function**: its index is cached
when the library is relocated, before the portal's. -/
theorem not_interposed_gotCell :
    ¬ ∀ s, runSteps (load (sampleConfig false)) (Loader.start (fun _ => none) sampleMain)
      [.dispatch sampleMain, .preload "env" sampleLibrary 65536 true] = some s →
        Interposed (sampleConfig false) s := by
  intro h
  obtain ⟨s, hs, ⟨l, hl, e, he, hname, hexp, hmust⟩, hcell, hslot⟩ :
      ∃ t ∈ runSteps (load (sampleConfig false)) (Loader.start (fun _ => none) sampleMain)
        [.dispatch sampleMain, .preload "env" sampleLibrary 65536 true],
      (∃ l ∈ t.loaded, ∃ e ∈ l.module.exports, e.name = "open" ∧ l.Exposes e
        ∧ l.MustInterpose (sampleConfig false) e.name)
      ∧ t.map ("GOT.func", "open") = some .gotCell
      ∧ t.table[t.got.cell .func "open"]? = some (some (.real (.preload 0) "open")) := by
    decide +kernel
  obtain ⟨f, hf, hint⟩ := (h s hs l hl e he hexp hmust).got (hname ▸ hcell)
  rw [hname, hslot] at hf
  rw [← some.inj (some.inj hf)] at hint
  exact Library.not_interposes_real _ _ _ _ _ hint

end LindWasm.Dylink

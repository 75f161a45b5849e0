import LindWasm.Dylink.Interpose

/-!
# Dylink/Replay — the function table of a forked child or a new thread

    parent   main's slots │ slots funcs portals │ … │ main's funcs │ slots funcs portals │ nulls │ …
    replay   main's slots │ slots funcs         │ … │ main's funcs │ slots funcs         │ ⋯     │ …

The recorded modules are instantiated again in their order, without an offset table: no portal gets
a slot, and a library whose first instantiation failed gets those of a complete one. The two tables
agree exactly when the parent's has no portal and no failed library left a mark
(`replayTable_eq_iff`).
-/

namespace LindWasm.Dylink

open Option List Loader

variable {c : Config} {l : Library} {s s' : Loader} {m : WasmModule} {inst : Inst} {fpcast : Bool}

/-! ## The replay -/

/-- The slots `apply_GOT_relocs` appends. -/
def WasmModule.funcSlots (m : WasmModule) (fpcast : Bool) (inst : Inst) : List (Option Func) :=
  (m.relocFuncs fpcast).map fun p => some (.real inst p.1)

/-- `module_with_child` on the table, with the growth before it. -/
def moduleWithChild (fpcast : Bool) (table : List (Option Func)) (inst : Inst) (m : WasmModule) :
    List (Option Func) :=
  initElements table.length (m.elementSlots inst)
      (table ++ List.replicate m.elements.length none)
    ++ m.funcSlots fpcast inst

/-- The table built for a fork or a thread: a table of the main module's size, the preloads, the
main module, the libraries opened since. An instantiation that fails ends the child. -/
def replayTable (fpcast : Bool) (s : Loader) : Option (List (Option Func)) :=
  let table := List.replicate s.mainModule.elements.length none
  let table := s.modules.zipIdx.foldl
    (fun table p => moduleWithChild fpcast table (.preload p.2) p.1.2) table
  let table := initElements 0 (s.mainModule.elementSlots .main) table
    ++ s.mainModule.funcSlots fpcast .main
  s.dlopenModules.zipIdx.foldlM
    (fun table p =>
      if p.1.2 = .notInstantiated false then none
      else some (moduleWithChild fpcast table (.opened p.2) p.1.1)) table

/-- A failed library the replay does not see: it is instantiated now, and has nothing to put into
the table. -/
def LeavesNoMark (fpcast : Bool) (p : WasmModule × DlopenOutcome) : Prop :=
  match p.2 with
  | .notInstantiated replays =>
      replays = true ∧ p.1.relocFuncs fpcast = [] ∧ ∀ i ∈ p.1.elements, i = none
  | _ => True

/-! ## The slots of one module -/

/-- A slot without a portal. -/
def plain : Option Func → Bool
  | some f => !f.isPortal
  | none => true

/-- All the slots of an instance. -/
def segment (fpcast : Bool) (inst : Inst) (m : WasmModule) : List (Option Func) :=
  m.elementSlots inst ++ m.funcSlots fpcast inst

/-- The slots `dlopen` appended, portals apart. -/
def openSegment (fpcast : Bool) (p : (WasmModule × DlopenOutcome) × ℕ) : List (Option Func) :=
  match p.1.2 with
  | .notInstantiated _ => List.replicate p.1.1.elements.length none
  | _ => segment fpcast (.opened p.2) p.1.1

theorem moduleWithChild_eq (table : List (Option Func)) :
    moduleWithChild fpcast table inst m = table ++ segment fpcast inst m := by
  unfold moduleWithChild segment
  rw [initElements_fresh _ _ (m.length_elementSlots inst), append_assoc]

variable {x : Option Func} {memoryBase inode : ℕ} {α β : Type*}
  {p : (String → String → Option (ℕ × ℕ)) × Action} {mode : BitVec 32} {path : String} {as : List α}

theorem plain_of_mem_elementSlots (h : x ∈ m.elementSlots inst) : plain x = true := by
  obtain ⟨i, _, rfl⟩ := mem_map.mp h
  cases i <;> rfl

theorem plain_of_mem_funcSlots (h : x ∈ m.funcSlots fpcast inst) : plain x = true := by
  obtain ⟨p, _, rfl⟩ := mem_map.mp h
  rfl

theorem plain_of_mem_segment (h : x ∈ segment fpcast inst m) : plain x = true :=
  (mem_append.mp h).elim plain_of_mem_elementSlots plain_of_mem_funcSlots

/-! ## What each load does to the slots without a portal -/

/-- The table with its portals left out. -/
def Loader.plainTable (s : Loader) : List (Option Func) := s.table.filter plain

theorem linkExport_plainTable (e : Export) : (s.linkExport c l e).1.plainTable = s.plainTable := by
  have hadd (name : String) (f : Func) : (s.addPortal l name f).plainTable = s.plainTable := by
    unfold addPortal plainTable
    split
    · split
      · simp [plain, Func.isPortal]
      · rfl
    · rfl
  unfold linkExport
  split
  · rfl
  · split
    · rfl
    · split
      · exact (congrArg (filter plain) insert_table).trans (hadd _ _)
      · exact congrArg (filter plain) insert_table

theorem instanceDylink_plainTable : (s.instanceDylink c l).1.plainTable = s.plainTable := by
  unfold instanceDylink
  induction l.module.exports generalizing s with
  | nil => rfl
  | cons e es ih =>
    have he := linkExport_plainTable (s := s) (c := c) (l := l) e
    unfold linkExports
    split
    · rename_i t ht
      rw [ht] at he
      exact ih.trans he
    · rename_i t err ht
      rw [ht] at he
      exact he

theorem plainTable_of_dylink (h : s.instanceDylink c l = (s', none)) :
    s'.plainTable = s.plainTable := by
  simpa [h] using instanceDylink_plainTable (s := s) (c := c) (l := l)

theorem applyGotRelocs_table (memoryBase : ℕ) :
    (s.applyGotRelocs c inst m memoryBase).table = s.table ++ m.funcSlots c.fpcast inst := by
  have hglobals (ps : List (String × ℕ)) (t : Loader) :
      (ps.foldl relocGlobal t).table = t.table :=
    foldlRecOn _ _ (motive := fun u : Loader => u.table = t.table) rfl fun _ h _ _ => h
  have hfuncs (ps : List (String × String)) (t : Loader) :
      (ps.foldl (relocFunc inst) t).table
        = t.table ++ ps.map fun p => some (.real inst p.1) := by
    induction ps generalizing t with
    | nil => simp
    | cons p ps ih => simp [ih, relocFunc]
  exact (hglobals _ _).trans (hfuncs _ _)

theorem plainTable_congr (h : s'.table = s.table) : s'.plainTable = s.plainTable :=
  congrArg (filter plain) h

theorem applyGotRelocs_plainTable (memoryBase : ℕ) :
    (s.applyGotRelocs c inst m memoryBase).plainTable
      = s.plainTable ++ m.funcSlots c.fpcast inst := by
  unfold plainTable
  rw [applyGotRelocs_table, filter_append,
    filter_eq_self.mpr fun _ => plain_of_mem_funcSlots]

theorem instantiate_plainTable :
    ((s.growTable m.elements.length).instantiate inst m s.table.length).plainTable
      = s.plainTable ++ m.elementSlots inst := by
  have htable : ((s.growTable m.elements.length).instantiate inst m s.table.length).table
      = s.table ++ m.elementSlots inst := initElements_fresh _ _ (m.length_elementSlots inst)
  unfold plainTable
  rw [htable, filter_append, filter_eq_self.mpr fun _ => plain_of_mem_elementSlots]

theorem initElements_main (m : WasmModule) (slots : List (Option Func)) :
    initElements 0 (m.elementSlots .main) (List.replicate m.elements.length none ++ slots)
      = m.elementSlots .main ++ slots := by
  simp [initElements, WasmModule.length_elementSlots]

theorem moduleWithCaller_plainTable {n : ℕ} {initOk : Bool} :
    (s.moduleWithCaller c n path m memoryBase mode inode initOk).plainTable
      = s.plainTable ++ m.funcSlots c.fpcast (.opened n) := by
  rw [← applyGotRelocs_plainTable memoryBase]
  unfold moduleWithCaller
  dsimp only
  split
  · exact instanceDylink_plainTable
  · rfl

theorem moduleWithCaller_record (n : ℕ) (path : String) (memoryBase inode : ℕ) (mode : BitVec 32)
    (initOk : Bool) :
    (s.moduleWithCaller c n path m memoryBase mode inode initOk).mainModule = s.mainModule
      ∧ (s.moduleWithCaller c n path m memoryBase mode inode initOk).modules = s.modules := by
  have hreloc := links_applyGotRelocs (s := s) (c := c) (m := m) (.opened n) memoryBase
  unfold moduleWithCaller
  dsimp only
  split
  · exact ⟨links_instanceDylink.mainModule.trans hreloc.mainModule,
      links_instanceDylink.modules.trans hreloc.modules⟩
  · exact ⟨hreloc.mainModule, hreloc.modules⟩

/-! ## The phases of a history -/

def preloadSlots (fpcast : Bool) (modules : List (String × WasmModule)) : List (Option Func) :=
  modules.zipIdx.flatMap fun p => segment fpcast (.preload p.2) p.1.2

def openSlots (fpcast : Bool) (modules : List (WasmModule × DlopenOutcome)) :
    List (Option Func) :=
  modules.zipIdx.flatMap (openSegment fpcast)

/-- Before the main module is loaded. -/
structure Startup (fpcast : Bool) (s : Loader) : Prop where
  opened : s.dlopenModules = []
  table : ∃ slots, s.table = List.replicate s.mainModule.elements.length none ++ slots
    ∧ slots.filter plain = preloadSlots fpcast s.modules

/-- The slots of everything loaded before the first `dlopen`. -/
def startSlots (fpcast : Bool) (s : Loader) : List (Option Func) :=
  s.mainModule.elementSlots .main ++ preloadSlots fpcast s.modules
    ++ s.mainModule.funcSlots fpcast .main

/-- After it. -/
def Running (fpcast : Bool) (s : Loader) : Prop :=
  s.plainTable = startSlots fpcast s ++ openSlots fpcast s.dlopenModules

theorem startup_start (host : String × String → Option Definition) (main : WasmModule) :
    Startup fpcast (Loader.start host main) :=
  ⟨rfl, [], (append_nil _).symm, rfl⟩

theorem startup_dispatch (h : Startup fpcast s) : Startup fpcast (s.defineGotDispatcher m) := by
  have hg := grows_defineGotDispatcher (s := s) (m := m)
  refine ⟨hg.dlopenModules.trans h.opened, ?_⟩
  rw [defineGotDispatcher_table, hg.mainModule, hg.modules]
  exact h.table

theorem startup_preload {name : String} {force : Bool} (h : Startup c.fpcast s)
    (hstep : s.moduleWithPreload c name m memoryBase force = some s') : Startup c.fpcast s' := by
  obtain ⟨t, hdylink, rfl⟩ := moduleWithPreload_eq_some hstep
  have hall := (links_instantiate (s := s) (m := m) (.preload s.modules.length)).trans
    (links_applyGotRelocs (c := c) (m := m) (.preload s.modules.length) memoryBase)
  have hlink := hall.trans (links_of_dylink hdylink)
  have htable : t.plainTable = s.plainTable ++ segment c.fpcast (.preload s.modules.length) m := by
    rw [plainTable_of_dylink hdylink, applyGotRelocs_plainTable, instantiate_plainTable,
      append_assoc]
    rfl
  obtain ⟨slots, hslots, hpreloads⟩ := h.table
  obtain ⟨new, hnew⟩ := hlink.table
  have hsegment : new.filter plain = segment c.fpcast (.preload s.modules.length) m := by
    unfold plainTable at htable
    rw [hnew, filter_append] at htable
    exact append_cancel_left htable
  refine ⟨hlink.dlopenModules.trans h.opened, slots ++ new, ?_, ?_⟩
  · exact hnew.trans (by rw [hslots, append_assoc, hlink.mainModule])
  · rw [filter_append, hpreloads, hsegment, hlink.modules]
    simp [preloadSlots, zipIdx_append]

theorem running_main (h : Startup c.fpcast s) (hstep : s.loadMainModule c memoryBase = some s') :
    Running c.fpcast s' := by
  obtain ⟨t, hdylink, rfl⟩ := loadMainModule_eq_some hstep
  have htraps := links_defineUnknownImportsAsTraps (s := s) (m := s.mainModule)
  obtain ⟨u, hu⟩ : ∃ u, u = (s.defineUnknownImportsAsTraps s.mainModule).instantiate .main
      s.mainModule 0 := ⟨_, rfl⟩
  rw [← hu] at hdylink
  have hlink : Links u t := (links_applyGotRelocs .main memoryBase).trans (links_of_dylink hdylink)
  have hrecord : u.record = s.record := hu ▸ htraps.record
  obtain ⟨slots, hslots, hpreloads⟩ := h.table
  have hmain : u.table = s.mainModule.elementSlots .main ++ slots := by
    have htrapTable : (s.defineUnknownImportsAsTraps s.mainModule).table = s.table :=
      foldlRecOn _ _ (motive := fun t : Loader => t.table = s.table) rfl fun _ h _ _ => h
    rw [hu, Loader.instantiate, htrapTable, hslots]
    exact initElements_main _ _
  have htable : t.plainTable = s.mainModule.elementSlots .main ++ preloadSlots c.fpcast s.modules
      ++ s.mainModule.funcSlots c.fpcast .main := by
    rw [plainTable_of_dylink hdylink, applyGotRelocs_plainTable, plainTable, hmain, filter_append,
      hpreloads, filter_eq_self.mpr fun _ => plain_of_mem_elementSlots]
  obtain ⟨hmodule, hmodules, hopened, -⟩ : t.mainModule = s.mainModule ∧ t.modules = s.modules ∧
      t.dlopenModules = s.dlopenModules ∧ t.loaded = s.loaded := by
    simpa [Loader.record] using hlink.record.trans hrecord
  change t.plainTable = startSlots c.fpcast t ++ openSlots c.fpcast t.dlopenModules
  unfold startSlots
  rw [htable, hmodule, hmodules, hopened, h.opened]
  simp [openSlots]

theorem openSlots_append (modules : List (WasmModule × DlopenOutcome))
    (p : WasmModule × DlopenOutcome) :
    openSlots fpcast (modules ++ [p])
      = openSlots fpcast modules ++ openSegment fpcast (p, modules.length) := by
  simp [openSlots, zipIdx_append]

theorem Running.append {p : WasmModule × DlopenOutcome} (h : Running fpcast s)
    (hmain : s'.mainModule = s.mainModule) (hmodules : s'.modules = s.modules)
    (hopened : s'.dlopenModules = s.dlopenModules ++ [p])
    (htable : s'.plainTable = s.plainTable ++ openSegment fpcast (p, s.dlopenModules.length)) :
    Running fpcast s' := by
  unfold Running startSlots
  rw [hmain, hmodules, hopened, openSlots_append, htable, h, append_assoc]
  rfl

theorem plainTable_growTable (s : Loader) (n : ℕ) :
    (s.growTable n).plainTable = s.plainTable ++ List.replicate n none := by
  unfold plainTable growTable
  rw [filter_append]
  refine congrArg _ (filter_eq_self.mpr fun x hx => ?_)
  rw [eq_of_mem_replicate hx]
  rfl

theorem running_dlopen {outcome : DlopenOutcome} (h : Running c.fpcast s) :
    Running c.fpcast (s.loadLibraryModule c path m memoryBase mode inode outcome) := by
  unfold loadLibraryModule
  split
  · exact h
  · obtain ⟨n, hn⟩ : ∃ n, n = s.dlopenModules.length := ⟨_, rfl⟩
    obtain ⟨t, ht⟩ : ∃ t, t = ((s.growTable m.elements.length).defineGotDispatcher m).instantiate
        (.opened n) m s.table.length := ⟨_, rfl⟩
    have hcomm := ht.trans defineGotDispatcher_instantiate
    have hg : Grows s t :=
      hcomm ▸ (links_instantiate (.opened n)).toGrows.trans grows_defineGotDispatcher
    have hfull (initOk : Bool) :
        (t.moduleWithCaller c n path m memoryBase mode inode initOk).plainTable
          = s.plainTable ++ segment c.fpcast (.opened n) m := by
      rw [moduleWithCaller_plainTable, hcomm, plainTable_congr defineGotDispatcher_table,
        instantiate_plainTable, append_assoc]
      rfl
    have hmain (initOk : Bool) :=
      @moduleWithCaller_record c t m n path memoryBase inode mode initOk
    dsimp only
    rw [← hn, ← ht]
    cases outcome with
    | ok =>
      exact h.append ((hmain true).1.trans hg.mainModule) ((hmain true).2.trans hg.modules) rfl
        ((hfull true).trans (hn ▸ rfl))
    | initFailed =>
      exact h.append ((hmain false).1.trans hg.mainModule) ((hmain false).2.trans hg.modules) rfl
        ((hfull false).trans (hn ▸ rfl))
    | notInstantiated replays =>
      have hcells := grows_defineGotDispatcher (s := s.growTable m.elements.length) (m := m)
      exact h.append hcells.mainModule hcells.modules rfl
        ((plainTable_congr defineGotDispatcher_table).trans (plainTable_growTable s _))

/-! ## Concatenations -/

theorem foldlM_append_eq (bad : α → Prop) [DecidablePred bad] (f : α → List β) (as : List α)
    (init : List β) :
    as.foldlM (fun acc a => if bad a then none else some (acc ++ f a)) init
      = if ∀ a ∈ as, ¬ bad a then some (init ++ as.flatMap f) else none := by
  induction as generalizing init with
  | nil => simp
  | cons a as ih =>
    rw [foldlM_cons]
    by_cases ha : bad a
    · simp [ha]
    · simp [ha, ih]

/-- Two concatenations of which one has the longer pieces agree only piece by piece. -/
theorem eq_of_flatMap_eq {f g : α → List β} (hle : ∀ a ∈ as, (g a).length ≤ (f a).length)
    (h : as.flatMap f = as.flatMap g) : ∀ a ∈ as, f a = g a := by
  have hsum : ∀ bs : List α, (∀ b ∈ bs, (g b).length ≤ (f b).length) →
      (bs.flatMap g).length ≤ (bs.flatMap f).length := by
    intro bs hbs
    induction bs with
    | nil => exact Nat.le_refl _
    | cons b bs ih =>
      have hb := hbs b mem_cons_self
      have hrest := ih fun x hx => hbs x (mem_cons_of_mem _ hx)
      simp only [flatMap_cons, length_append]
      omega
  induction as with
  | nil => exact nofun
  | cons a as ih =>
    have hrest : ∀ b ∈ as, (g b).length ≤ (f b).length := fun b hb =>
      hle b (mem_cons_of_mem _ hb)
    have ha := hle a mem_cons_self
    have htail := hsum as hrest
    have hlen := congrArg length h
    simp only [flatMap_cons, length_append] at h hlen
    obtain ⟨hhead, htail'⟩ := append_inj h (by omega)
    intro b hb
    obtain rfl | hb := mem_cons.mp hb
    · exact hhead
    · exact ih hrest htail' b hb

/-! ## The comparison -/

/-- The slots of the opened libraries, each instantiated anew. -/
def replaySlots (fpcast : Bool) (modules : List (WasmModule × DlopenOutcome)) :
    List (Option Func) :=
  modules.zipIdx.flatMap fun p => segment fpcast (.opened p.2) p.1.1

theorem replayTable_eq : replayTable fpcast s
    = if ∀ p ∈ s.dlopenModules.zipIdx, ¬ p.1.2 = .notInstantiated false then
        some (startSlots fpcast s ++ replaySlots fpcast s.dlopenModules)
      else none := by
  have hpre : s.modules.zipIdx.foldl
      (fun table p => moduleWithChild fpcast table (.preload p.2) p.1.2)
      (replicate s.mainModule.elements.length none)
      = replicate s.mainModule.elements.length none ++ preloadSlots fpcast s.modules := by
    simp only [moduleWithChild_eq]
    exact foldl_append_eq_append ..
  unfold replayTable
  dsimp only
  rw [hpre, initElements_main]
  simp only [moduleWithChild_eq]
  exact foldlM_append_eq (fun p : (WasmModule × DlopenOutcome) × ℕ =>
    p.1.2 = .notInstantiated false) _ _ _

theorem length_openSegment_le (p : (WasmModule × DlopenOutcome) × ℕ) :
    (openSegment fpcast p).length ≤ (segment fpcast (.opened p.2) p.1.1).length := by
  unfold openSegment
  split
  · simp [segment, WasmModule.length_elementSlots]
  · exact Nat.le_refl _

theorem segment_eq_openSegment_iff (p : (WasmModule × DlopenOutcome) × ℕ)
    (hreplays : ¬ p.1.2 = .notInstantiated false) :
    segment fpcast (.opened p.2) p.1.1 = openSegment fpcast p ↔ LeavesNoMark fpcast p.1 := by
  obtain ⟨⟨m, outcome⟩, n⟩ := p
  cases outcome with
  | ok => exact iff_of_true rfl trivial
  | initFailed => exact iff_of_true rfl trivial
  | notInstantiated replays =>
    have hr : replays = true := by
      cases replays
      · exact absurd rfl hreplays
      · rfl
    have hslots : m.elementSlots (.opened n) = replicate m.elements.length none
        ↔ ∀ i ∈ m.elements, i = none := by
      unfold WasmModule.elementSlots
      rw [eq_replicate_iff]
      simp
    change m.elementSlots (.opened n) ++ m.funcSlots fpcast (.opened n)
      = replicate m.elements.length none ↔ _
    constructor
    · intro h
      have hlen := congrArg length h
      rw [length_append, m.length_elementSlots, length_replicate] at hlen
      have hfuncs : m.relocFuncs fpcast = [] := by
        have hnil : (m.relocFuncs fpcast).length = 0 := by
          simpa [WasmModule.funcSlots] using hlen
        exact length_eq_zero_iff.mp hnil
      refine ⟨hr, hfuncs, hslots.mp ?_⟩
      simpa [WasmModule.funcSlots, hfuncs] using h
    · rintro ⟨-, hfuncs, helems⟩
      simpa [WasmModule.funcSlots, hfuncs] using hslots.mpr helems

theorem plain_of_mem_flatMap_segment {inst : α → Inst} {m : α → WasmModule}
    (h : x ∈ as.flatMap fun a => segment fpcast (inst a) (m a)) : plain x = true := by
  obtain ⟨a, _, ha⟩ := mem_flatMap.mp h
  exact plain_of_mem_segment ha

theorem plain_of_mem_startSlots (h : x ∈ startSlots fpcast s) : plain x = true := by
  obtain h | h := mem_append.mp h
  · exact (mem_append.mp h).elim plain_of_mem_elementSlots plain_of_mem_flatMap_segment
  · exact plain_of_mem_funcSlots h

/-- The replayed table is the parent's, for a parent in the running phase. -/
theorem Running.replay_iff (h : Running fpcast s) :
    replayTable fpcast s = some s.table
      ↔ (∀ slot ∈ s.table, plain slot = true) ∧ ∀ p ∈ s.dlopenModules, LeavesNoMark fpcast p := by
  have hfilter (hplain : ∀ slot ∈ s.table, plain slot = true) :
      s.table = startSlots fpcast s ++ openSlots fpcast s.dlopenModules :=
    (filter_eq_self.mpr hplain).symm.trans h
  rw [replayTable_eq]
  constructor
  · intro heq
    split at heq
    · rename_i hreplays
      have htable := some.inj heq
      have hplain : ∀ slot ∈ s.table, plain slot = true := by
        intro slot hslot
        rw [← htable] at hslot
        exact (mem_append.mp hslot).elim plain_of_mem_startSlots plain_of_mem_flatMap_segment
      have hslots := append_cancel_left (htable.trans (hfilter hplain))
      refine ⟨hplain, fun p hp => ?_⟩
      obtain ⟨n, hget⟩ := mem_iff_getElem?.mp hp
      have hn : (p, n) ∈ s.dlopenModules.zipIdx := mk_mem_zipIdx_iff_getElem?.mpr hget
      have hpiece := eq_of_flatMap_eq (fun q _ => length_openSegment_le q) hslots (p, n) hn
      exact (segment_eq_openSegment_iff (p, n) (hreplays (p, n) hn)).mp hpiece
    · cases heq
  · rintro ⟨hplain, hmarks⟩
    have hmem : ∀ q ∈ s.dlopenModules.zipIdx, LeavesNoMark fpcast q.1 := fun q hq =>
      hmarks q.1 (fst_mem_of_mem_zipIdx hq)
    have hreplays : ∀ q ∈ s.dlopenModules.zipIdx, ¬ q.1.2 = .notInstantiated false := by
      intro q hq hbad
      have hmark := hmem q hq
      unfold LeavesNoMark at hmark
      rw [hbad] at hmark
      cases hmark.1
    rw [if_pos hreplays, hfilter hplain]
    refine congrArg (fun slots => some (_ ++ slots)) (flatMap_congr fun q hq => ?_)
    exact (segment_eq_openSegment_iff q (hreplays q hq)).mpr (hmem q hq)

/-! ## Histories -/

/-- A load with the handlers registered at its time. -/
def loadWith (fpcast : Bool) (s : Loader)
    (p : (String → String → Option (ℕ × ℕ)) × Action) : Option Loader :=
  load ⟨p.1, fpcast⟩ s p.2

/-- What happens before the main module runs… -/
def Action.isStartup : Action → Bool
  | .dispatch _ | .preload .. => true
  | _ => false

/-- …and what the running program does. -/
def Action.isRuntime : Action → Bool
  | .dlopen .. | .dlclose _ => true
  | _ => false

theorem startup_loadWith (hp : p.2.isStartup = true) (h : Startup fpcast s)
    (hstep : loadWith fpcast s p = some s') : Startup fpcast s' := by
  obtain ⟨handlers, a⟩ := p
  cases a with
  | dispatch m =>
    cases hstep
    exact startup_dispatch h
  | preload name m memoryBase force => exact startup_preload h hstep
  | _ => cases hp

theorem running_loadWith (hp : p.2.isRuntime = true) (h : Running fpcast s)
    (hstep : loadWith fpcast s p = some s') : Running fpcast s' := by
  obtain ⟨handlers, a⟩ := p
  cases a with
  | dlopen path m memoryBase mode inode outcome =>
    cases hstep
    exact running_dlopen h
  | dlclose handle =>
    cases hstep
    unfold detachLibrary
    split
    · exact h
    · exact h
  | _ => cases hp

/-- **The replayed table is the parent's exactly when no portal has a slot and no failed library
left a mark**, after every history: placeholder cells and preloads, the main module, then any
`dlopen` and `dlclose`, each under the handlers registered at its time. -/
theorem replayTable_eq_iff (fpcast : Bool) (host : String × String → Option Definition)
    (main : WasmModule) (startup runtime : List ((String → String → Option (ℕ × ℕ)) × Action))
    (handlers : String → String → Option (ℕ × ℕ)) (memoryBase : ℕ)
    (hstartup : ∀ p ∈ startup, p.2.isStartup = true)
    (hruntime : ∀ p ∈ runtime, p.2.isRuntime = true)
    (hrun : runSteps (loadWith fpcast) (Loader.start host main)
      (startup ++ (handlers, .main memoryBase) :: runtime) = some s) :
    replayTable fpcast s = some s.table
      ↔ (∀ slot ∈ s.table, plain slot = true) ∧ ∀ p ∈ s.dlopenModules, LeavesNoMark fpcast p := by
  obtain ⟨t, ht, hrest⟩ := runSteps_append.mp hrun
  obtain ⟨u, hu, hopen⟩ := runSteps_cons_eq_some.mp hrest
  have hpre : Startup fpcast t :=
    inv_of_runSteps_mem (fun _ p _ hp => startup_loadWith (hstartup p hp))
      (startup_start host main) ht
  have hmain : Running fpcast u := running_main (c := ⟨handlers, fpcast⟩) hpre hu
  exact (inv_of_runSteps_mem (fun _ p _ hp => running_loadWith (hruntime p hp))
    hmain hopen).replay_iff

/-- The handlers of `sampleConfig`, and none. -/
def sampleHandlers : String → String → Option (ℕ × ℕ) := (sampleConfig false).handlers

def noHandlers : String → String → Option (ℕ × ℕ) := fun _ _ => none

/-- Preload the library, start the program, open a plugin, and fail to open it from another file. -/
def sampleHistory (handlers : String → String → Option (ℕ × ℕ)) :
    List ((String → String → Option (ℕ × ℕ)) × Action) :=
  [(handlers, .dispatch sampleMain), (handlers, .preload "env" sampleLibrary 65536 false)]

def sampleOpens : List ((String → String → Option (ℕ × ℕ)) × Action) :=
  [(noHandlers, .dlopen "/lib/plugin.cwasm" samplePlugin 131072 rtldGlobal 7 .ok),
   (noHandlers, .dlopen "/lib/copy.cwasm" samplePlugin 196608 rtldGlobal 8 .initFailed),
   (noHandlers, .dlclose 1)]

theorem replayTable_sampleHistory :
    ∃ s, runSteps (loadWith false) (Loader.start (fun _ => none) sampleMain)
        (sampleHistory noHandlers ++ (noHandlers, .main 0) :: sampleOpens) = some s
      ∧ replayTable false s = some s.table := by
  obtain ⟨s, hs, hplain, hmarks⟩ : ∃ t ∈ runSteps (loadWith false)
      (Loader.start (fun _ => none) sampleMain)
      (sampleHistory noHandlers ++ (noHandlers, .main 0) :: sampleOpens),
      (∀ slot ∈ t.table, plain slot = true)
        ∧ ∀ p ∈ t.dlopenModules,
          ¬ p.2 = .notInstantiated true ∧ ¬ p.2 = .notInstantiated false := by
    decide +kernel
  refine ⟨s, hs, (replayTable_eq_iff false _ sampleMain (sampleHistory noHandlers) sampleOpens
    noHandlers 0 (by decide) (by decide) hs).mpr ⟨hplain, fun p hp => ?_⟩⟩
  obtain ⟨htrue, hfalse⟩ := hmarks p hp
  unfold LeavesNoMark
  split
  · rename_i replays houtcome
    cases replays
    · exact absurd houtcome hfalse
    · exact absurd houtcome htrue
  · trivial

/-- **One portal, and every later index of the child denotes another function.** -/
theorem replayTable_ne_portal :
    ¬ ∀ s, runSteps (loadWith false) (Loader.start (fun _ => none) sampleMain)
        (sampleHistory sampleHandlers ++ (sampleHandlers, .main 0) :: sampleOpens) = some s →
      replayTable false s = some s.table := by
  intro h
  obtain ⟨s, hs, hne⟩ : ∃ t ∈ runSteps (loadWith false) (Loader.start (fun _ => none) sampleMain)
      (sampleHistory sampleHandlers ++ (sampleHandlers, .main 0) :: sampleOpens),
      replayTable false t ≠ some t.table := by decide +kernel
  exact hne (h s hs)

end LindWasm.Dylink

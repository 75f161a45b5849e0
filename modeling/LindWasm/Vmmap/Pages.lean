import LindWasm.Vmmap.Spec

/-!
# Vmmap/Pages — the mutators, page by page

    attributes of page q   =   (prot, maxprot, flags, backing)  of the entry that covers q, if any

            update ⟦p,p+n⟧         the new ones inside, the old ones outside
            update … remove        none inside, the old ones outside
            changeProt ⟦p,p+n⟧     the new `prot` on mapped pages inside, the old ones outside

The attributes are what a page lookup tells a caller: `mutators_pagewise` says what each mutator
does to them, and `attributesAt_run` what a run does. `updateInPlace` is `update` on the map itself,
write by write, so that a refusal has a map to leave alone.
-/

namespace LindWasm

open IntervalMap LawfulOnValid LawfulIntervalMap Function Option

/-- What a mapping grants and what is behind it. -/
structure Attributes where
  prot : BitVec 32
  maxprot : BitVec 32
  flags : BitVec 32
  backing : MemoryBackingType
  deriving DecidableEq

/-- The attributes of an entry. -/
def VmmapEntry.attributes (e : VmmapEntry) : Attributes :=
  { prot := e.prot, maxprot := e.maxprot, flags := e.flags, backing := e.backing }

namespace Vmmap

variable {M : Type} [IntervalMap M VmmapEntry] {vm vm' : Vmmap M} {pageNum npages cageId : ℕ}
  {prot newProt maxprot flags : BitVec 32} {backing : MemoryBackingType} {remove : Bool}
  {fileOffset fileSize : ℤ}

/-- The attributes of a page. -/
def attributesAt (vm : Vmmap M) (q : ℕ) : Option Attributes :=
  (vm.findPage q).map VmmapEntry.attributes

/-! ## Maps whose bounds are 32-bit numbers

A key is made by `ie` from a 32-bit end, so its last page is one below a 32-bit number: the
`end() + 1` of `changeProt` does not overflow. -/

/-- The ends of the keys, and of the map, are 32-bit numbers. -/
structure Sized (vm : Vmmap M) : Prop where
  keys : ∀ kv ∈ iter vm.entries, kv.1.last < u32Max
  stop : vm.endAddress ≤ u32Max

theorem Sized.checkAddrMapping {r : Option ℕ} (hs : vm.Sized)
    (h : vm.checkAddrMapping pageNum npages prot = some (r, vm')) : vm'.Sized := by
  rw [checkAddrMapping_eq_some h]
  exact ⟨hs.keys, hs.stop⟩

section Sized

variable [LawfulIntervalMap M]

theorem sized_new : (new : Vmmap M).Sized := by
  refine ⟨fun kv hkv => absurd hkv (by simp [new, iter_new]), ?_⟩
  change defaultVmmapSize ≤ u32Max
  decide

theorem Sized.update (hs : vm.Sized)
    (h : vm.update pageNum npages prot maxprot flags backing remove fileOffset fileSize cageId
      = .ok vm') : vm'.Sized := by
  obtain ⟨hn, hfit, hvm'⟩ := update_eq_ok.mp h
  refine ⟨?_, by rw [hvm']; exact hs.stop⟩
  rintro ⟨j, w⟩ hj
  rcases (mem_iter_update h).mp hj with ⟨-, rfl, -⟩ | ⟨k, hk, hpiece⟩
  · simp only [region]
    omega
  · obtain ⟨-, -, hlast, -⟩ := hpiece.spec ((sorted_iter _).valid _ hk)
    exact hlast.trans_lt (hs.keys _ hk)

theorem Sized.changeProt (hs : vm.Sized) (h : vm.changeProt pageNum npages newProt = some vm') :
    vm'.Sized := by
  obtain ⟨hlt, hvm'⟩ := changeProt_eq_some.mp h
  refine ⟨fun x hx => ?_, by rw [hvm']; exact hs.stop⟩
  rcases (mem_iter_changeProt h).mp hx with ⟨hx, -⟩ | ⟨y, hy, hov, hxy⟩
  · exact hs.keys x hx
  · obtain ⟨-, -, hlast⟩ := pieces_inside ((sorted_iter _).valid y hy) hlt hov hxy
    exact hlast.trans_lt (hs.keys y hy)

theorem Sized.step {op : Op} (hs : vm.Sized) (h : vm.step op = some vm') : vm'.Sized :=
  inv_of_step h hs sized_new hs.update hs.changeProt hs.checkAddrMapping

/-- **Every map a run builds is sized.** -/
theorem sized_run {ops : List Op} (hrun : runSteps Vmmap.step (new : Vmmap M) ops = some vm) :
    vm.Sized :=
  inv_of_runSteps (fun _ _ _ hs h => hs.step h) sized_new hrun

end Sized

/-- The end of the range `changeProt` looks at: the map's end is the closer bound. -/
theorem Sized.changeProtEnd_eq (hs : vm.Sized) (pageNum npages : ℕ) :
    vm.changeProtEnd pageNum npages = min (pageNum + npages) vm.endAddress := by
  have := hs.stop
  unfold changeProtEnd saturatingAdd32
  omega

/-! ## `update`, in place -/

/-- `update` as writes to the map: an overwrite, and a removal if asked for. What was written
before an error would stay written. -/
def updateInPlace (pageNum npages : ℕ) (prot maxprot flags : BitVec 32)
    (backing : MemoryBackingType) (remove : Bool) (fileOffset fileSize : ℤ) (cageId : ℕ) :
    ExceptT UpdateError (StateM (Vmmap M)) Unit := do
  if npages = 0 then
    throw .zeroPages
  match checkedAdd32 pageNum npages with
  | none => throw .overflow
  | some newRegionEndPage =>
    let newRegion : Interval := ⟨pageNum, newRegionEndPage - 1⟩
    let newEntry : VmmapEntry :=
      { pageNum, npages, prot, maxprot, flags, backing, fileOffset, fileSize, removed := false,
        cageId }
    modify fun vm => { vm with entries := insertOverwrite vm.entries newRegion newEntry }
    if remove then
      modify fun vm => { vm with entries := removeOverlapping vm.entries newRegion }

/-- **In place, an update either is `update` or has written nothing.** -/
theorem run_updateInPlace (vm : Vmmap M) (pageNum npages : ℕ) (prot maxprot flags : BitVec 32)
    (backing : MemoryBackingType) (remove : Bool) (fileOffset fileSize : ℤ) (cageId : ℕ) :
    (updateInPlace pageNum npages prot maxprot flags backing remove fileOffset fileSize cageId
      : ExceptT UpdateError (StateM (Vmmap M)) Unit).run vm
      = match vm.update pageNum npages prot maxprot flags backing remove fileOffset fileSize
          cageId with
        | .ok vm' => (.ok (), vm')
        | .error e => (.error e, vm) := by
  unfold updateInPlace update
  by_cases hn : npages = 0
  · simp only [hn, if_true]
    rfl
  · simp only [hn, if_false]
    cases checkedAdd32 pageNum npages with
    | none => rfl
    | some stop => cases remove <;> rfl

/-- A successful update in place is `update`… -/
theorem update_of_run
    (h : (updateInPlace pageNum npages prot maxprot flags backing remove fileOffset fileSize cageId
      : ExceptT UpdateError (StateM (Vmmap M)) Unit).run vm = (.ok (), vm')) :
    vm.update pageNum npages prot maxprot flags backing remove fileOffset fileSize cageId
      = .ok vm' := by
  rw [run_updateInPlace] at h
  split at h
  · next heq =>
    cases h
    exact heq
  · cases (Prod.mk.inj h).1

/-- …and a refused one leaves the map alone. -/
theorem eq_of_run_error {e : UpdateError}
    (h : (updateInPlace pageNum npages prot maxprot flags backing remove fileOffset fileSize cageId
      : ExceptT UpdateError (StateM (Vmmap M)) Unit).run vm = (.error e, vm')) : vm' = vm := by
  rw [run_updateInPlace] at h
  split at h
  · cases (Prod.mk.inj h).1
  · exact (Prod.mk.inj h).2.symm

/-! ## Page by page -/

section Pagewise

variable [LawfulIntervalMap M]

theorem attributesAt_update
    (h : vm.update pageNum npages prot maxprot flags backing remove fileOffset fileSize cageId
      = .ok vm') (q : ℕ) :
    vm'.attributesAt q = if pageNum ≤ q ∧ q < pageNum + npages then
        if remove then none else some ⟨prot, maxprot, flags, backing⟩
      else vm.attributesAt q := by
  rw [attributesAt, findPage_update h, attributesAt]
  split
  · cases remove <;> rfl
  · rfl

/-- The attributes after `changeProt`: the pieces' bounds are not among them. -/
theorem attributesAt_changeProt (h : vm.changeProt pageNum npages newProt = some vm') (q : ℕ) :
    vm'.attributesAt q = (vm.attributesAt q).map fun a =>
      if pageNum ≤ q ∧ q < vm.changeProtEnd pageNum npages then { a with prot := newProt }
      else a := by
  obtain ⟨start, n, hfind⟩ := findPage_changeProt h q
  rw [attributesAt, hfind, attributesAt, map_map, map_map]
  refine map_congr fun e _ => ?_
  simp only [comp, reprotect, VmmapEntry.attributes]
  split <;> rfl

/-- **The mutators, page by page.**  An update sets the attributes of the pages of its range, or
unmaps them, and changes no other page; a refused one changes nothing.  `changeProt` over a range
that starts below its end does not panic, and sets the protection of the mapped pages of the range;
it changes nothing else and maps and unmaps no page. -/
theorem mutators_pagewise (hs : vm.Sized) (pageNum npages : ℕ) (prot maxprot flags : BitVec 32)
    (backing : MemoryBackingType) (fileOffset fileSize : ℤ) (cageId : ℕ) (newProt : BitVec 32) :
    (∀ (remove : Bool) (answer : Except UpdateError Unit) (vm' : Vmmap M),
      (updateInPlace pageNum npages prot maxprot flags backing remove fileOffset fileSize
        cageId).run vm = (answer, vm') →
      (answer = .ok () → ∀ q, vm'.attributesAt q =
        if pageNum ≤ q ∧ q < pageNum + npages then
          if remove then none else some ⟨prot, maxprot, flags, backing⟩
        else vm.attributesAt q) ∧
      (∀ e, answer = .error e → vm' = vm)) ∧
    (pageNum < min (pageNum + npages) vm.endAddress →
      ∃ vm', vm.changeProt pageNum npages newProt = some vm' ∧
        ∀ q, vm'.attributesAt q = (vm.attributesAt q).map fun a =>
          if pageNum ≤ q ∧ q < min (pageNum + npages) vm.endAddress then { a with prot := newProt }
          else a) := by
  constructor
  · intro remove answer vm' hrun
    constructor
    · rintro rfl
      exact attributesAt_update (update_of_run hrun)
    · rintro e rfl
      exact eq_of_run_error hrun
  · intro hlt
    rw [← hs.changeProtEnd_eq] at hlt ⊢
    obtain ⟨vm', h⟩ : ∃ vm', vm.changeProt pageNum npages newProt = some vm' :=
      ⟨_, changeProt_eq_some.mpr ⟨hlt, rfl⟩⟩
    exact ⟨vm', h, attributesAt_changeProt h⟩

end Pagewise

/-- Map ten pages. -/
def tenPages : List Op := [.addEntryWithOverwrite 0 10 3 3 2 .anonymous 0 0 1]

/-- Two of them mapped anew, or made read-only, the others as they were. -/
theorem mutators_pagewise_tenPages :
    ∃ vm : Vmmap (SortedList VmmapEntry), runSteps step new tenPages = some vm ∧
      (∃ vm', (updateInPlace 3 2 1 3 2 .anonymous false 0 0 1).run vm = (.ok (), vm') ∧
        ∀ q, vm'.attributesAt q =
          if 3 ≤ q ∧ q < 3 + 2 then some ⟨1, 3, 2, .anonymous⟩ else vm.attributesAt q) ∧
      ∃ vm', vm.changeProt 3 2 1 = some vm' ∧
        ∀ q, vm'.attributesAt q = (vm.attributesAt q).map fun a =>
          if 3 ≤ q ∧ q < min (3 + 2) vm.endAddress then { a with prot := 1 } else a := by
  have hsized := sized_run
    (show runSteps step (new : Vmmap (SortedList VmmapEntry)) tenPages = some _ from rfl)
  have hpages := mutators_pagewise hsized 3 2 1 3 2 .anonymous 0 0 1 1
  exact ⟨_, rfl, ⟨_, rfl, (hpages.1 false (.ok ()) _ rfl).1 rfl⟩, hpages.2 (by decide)⟩

/-! ## A table without intervals -/

/-- The attributes of every page. -/
abbrev PageTable := ℕ → Option Attributes

namespace PageTable

variable (pages : PageTable)

/-- The pages of a range are given the attributes, if its end is a 32-bit number. -/
def set (pageNum npages : ℕ) (a : Option Attributes) : PageTable := fun q =>
  if pageNum + npages ≤ u32Max ∧ pageNum ≤ q ∧ q < pageNum + npages then a else pages q

/-- What an operation on the map is for. -/
def step : Op → PageTable
  | .update pageNum npages prot maxprot flags backing remove .. =>
      pages.set pageNum npages (if remove then none else some ⟨prot, maxprot, flags, backing⟩)
  | .addEntryWithOverwrite pageNum npages prot maxprot flags backing .. =>
      pages.set pageNum npages (some ⟨prot, maxprot, flags, backing⟩)
  | .removeEntry pageNum npages => pages.set pageNum npages none
  | .changeProt pageNum npages newProt => fun q => (pages q).map fun a =>
      if pageNum ≤ q ∧ q < min (pageNum + npages) defaultVmmapSize then { a with prot := newProt }
      else a
  | .clear => fun _ => none
  | .checkAddrMapping .. => pages

end PageTable

section Flat

variable [LawfulIntervalMap M] {pages : PageTable} {op : Op}

/-- The map stands for the table. -/
structure Flat (pages : PageTable) (vm : Vmmap M) : Prop where
  stop : vm.endAddress = defaultVmmapSize
  attributes : vm.attributesAt = pages

theorem flat_new : Flat (fun _ => none) (new : Vmmap M) :=
  ⟨rfl, funext fun _ => by simp [attributesAt, findPage, new]⟩

theorem Flat.orKeep_update (remove : Bool) (h : Flat pages vm) : Flat
    (pages.set pageNum npages (if remove then none else some ⟨prot, maxprot, flags, backing⟩))
    (vm.orKeep
      (vm.update pageNum npages prot maxprot flags backing remove fileOffset fileSize cageId)) := by
  rcases orKeep_update_cases vm pageNum npages prot maxprot flags backing remove fileOffset fileSize
    cageId with ⟨hno, heq⟩ | ⟨hok, hr⟩
  · rw [heq]
    refine ⟨h.stop, h.attributes.trans (funext fun q => (if_neg fun hq => hno ?_).symm)⟩
    exact ⟨by omega, hq.1⟩
  · obtain ⟨-, -, hvm⟩ := update_eq_ok.mp hr
    refine ⟨by rw [hvm]; exact h.stop, funext fun q => ?_⟩
    rw [attributesAt_update hr, h.attributes]
    exact if_congr (and_iff_right hok.2).symm rfl rfl

theorem Flat.changeProt (h : Flat pages vm) (hs : vm.changeProt pageNum npages newProt = some vm') :
    Flat (pages.step (.changeProt pageNum npages newProt)) vm' := by
  have hend : vm.changeProtEnd pageNum npages = min (pageNum + npages) defaultVmmapSize := by
    have : defaultVmmapSize ≤ u32Max := by decide
    rw [changeProtEnd, saturatingAdd32, h.stop]
    omega
  refine ⟨?_, funext fun q => ?_⟩
  · obtain ⟨-, rfl⟩ := changeProt_eq_some.mp hs
    exact h.stop
  · rw [attributesAt_changeProt hs, hend, h.attributes]
    rfl

/-- **One operation** does to the map what it does to the table. -/
theorem Flat.step (h : Flat pages vm) (hs : vm.step op = some vm') : Flat (pages.step op) vm' := by
  cases op with
  | update =>
    cases hs
    exact h.orKeep_update _
  | addEntryWithOverwrite =>
    cases hs
    exact h.orKeep_update false
  | removeEntry =>
    cases hs
    exact h.orKeep_update true
  | changeProt => exact h.changeProt hs
  | clear =>
    cases hs
    exact flat_new
  | checkAddrMapping =>
    obtain ⟨⟨r, u⟩, hu, rfl⟩ := map_eq_some_iff.mp hs
    rw [checkAddrMapping_eq_some hu]
    exact ⟨h.stop, h.attributes⟩

theorem Flat.run {ops : List Op} (h : Flat pages vm)
    (hrun : runSteps Vmmap.step vm ops = some vm') :
    Flat (ops.foldl PageTable.step pages) vm' := by
  induction ops generalizing vm pages with
  | nil => exact some.inj hrun ▸ h
  | cons op ops ih =>
    obtain ⟨u, hs, hrest⟩ := runSteps_cons_eq_some.mp hrun
    exact ih (h.step hs) hrest

/-- **The map is a table of pages**: after every run its pages have the attributes that the same
operations give those of a table without intervals, whatever was cut, cloned or refused. -/
theorem attributesAt_run (ops : List Op)
    (hrun : runSteps Vmmap.step (new : Vmmap M) ops = some vm) :
    vm.attributesAt = ops.foldl PageTable.step fun _ => none :=
  (flat_new.run hrun).attributes

end Flat

theorem attributesAt_run_tenPages :
    ∃ vm : Vmmap (SortedList VmmapEntry),
      runSteps step new (tenPages ++ [Op.changeProt 3 2 1]) = some vm ∧
      vm.attributesAt = (tenPages ++ [Op.changeProt 3 2 1]).foldl PageTable.step fun _ => none :=
  ⟨_, rfl, attributesAt_run (tenPages ++ [Op.changeProt 3 2 1]) rfl⟩

end Vmmap

end LindWasm

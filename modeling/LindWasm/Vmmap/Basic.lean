import Mathlib.Algebra.Ring.Nat
import LindWasm.Machinery.IntervalMap
import LindWasm.Machinery.Run

/-!
# Vmmap/Basic — the virtual memory map of a cage

    Vmmap  =  entries : page interval ↦ VmmapEntry   +   one cached entry   +   the cage's bounds

The map library keys each entry by its interval; the entry carries a second copy of those bounds
(`pageNum`, `npages`), which only some operations rewrite. The library is a parameter: everything
here is over an arbitrary `IntervalMap`. An operation that panics answers `none`.
-/

namespace LindWasm

open IntervalMap

/-! ## Constants and fixed-width arithmetic -/

def protNone : BitVec 32 := 0
def protRead : BitVec 32 := 1
def protWrite : BitVec 32 := 2
def protExec : BitVec 32 := 4

def pageShift : ℕ := 12
def pageSize : ℕ := 2 ^ pageShift

/-- The number of pages of a 32-bit address space. -/
def defaultVmmapSize : ℕ := 2 ^ (32 - pageShift)

def u32Max : ℕ := 2 ^ 32 - 1

/-- `u32::checked_add`. -/
def checkedAdd32 (a b : ℕ) : Option ℕ := if a + b ≤ u32Max then some (a + b) else none

theorem checkedAdd32_eq_some {a b c : ℕ} :
    checkedAdd32 a b = some c ↔ a + b ≤ u32Max ∧ a + b = c := by simp [checkedAdd32]

/-- `u32::saturating_add`. -/
def saturatingAdd32 (a b : ℕ) : ℕ := min (a + b) u32Max

/-- Every bit of `prot` is among `flags`. -/
def Allows (flags prot : BitVec 32) : Prop := prot &&& ~~~flags = 0
deriving Decidable

@[simp] theorem Allows.refl (a : BitVec 32) : Allows a a := BitVec.and_not_self a

theorem allows_iff {a b : BitVec 32} :
    Allows a b ↔ ∀ i, b.getLsbD i = true → a.getLsbD i = true := by
  constructor
  · intro h i hb
    have hi := congrArg (fun x : BitVec 32 => x.getLsbD i) h
    have hlt : i < 32 := BitVec.lt_of_getLsbD hb
    simpa [hb, hlt] using hi
  · intro h
    refine BitVec.eq_of_getLsbD_eq fun i hi => ?_
    have := h i
    cases hb : b.getLsbD i <;> simp_all

theorem Allows.trans {a b c : BitVec 32} (hab : Allows a b) (hbc : Allows b c) : Allows a c :=
  allows_iff.mpr fun i hi => allows_iff.mp hab i (allows_iff.mp hbc i hi)

/-! ## Entries and the map -/

/-- What backs a mapping. -/
inductive MemoryBackingType where
  | none
  | anonymous
  | sharedMemory (shmid : ℕ)
  | fileDescriptor (fd : ℕ)
  deriving DecidableEq

/-- One mapping, with its own copy of the bounds it is stored under. -/
structure VmmapEntry where
  pageNum : ℕ
  npages : ℕ
  prot : BitVec 32
  maxprot : BitVec 32
  flags : BitVec 32
  removed : Bool
  fileOffset : ℤ
  fileSize : ℤ
  cageId : ℕ
  backing : MemoryBackingType
  deriving DecidableEq

namespace VmmapEntry

/-- One past the last page the entry says it maps. -/
def endPage (e : VmmapEntry) : ℕ := e.pageNum + e.npages

/-- The pages the entry says it maps. -/
def Names (e : VmmapEntry) (q : ℕ) : Prop := e.pageNum ≤ q ∧ q < e.endPage
deriving Decidable

end VmmapEntry

/-- The protection a check grants: `PROT_READ` is implied by any protection. -/
def effectiveProt (prot : BitVec 32) : BitVec 32 :=
  if prot &&& (protExec ||| protRead ||| protWrite) ≠ protNone then prot ||| protRead else prot

/-- The virtual memory map of one cage. -/
structure Vmmap (M : Type*) where
  entries : M
  cachedEntry : Option VmmapEntry
  baseAddress : Option ℕ
  startAddress : ℕ
  endAddress : ℕ
  heapStart : ℕ

/-- Why `update` refuses a range. -/
inductive UpdateError where
  | zeroPages
  | overflow
  deriving DecidableEq

/-- The text of the refusal; its kind is `InvalidInput` in both cases. -/
def UpdateError.message : UpdateError → String
  | .zeroPages => "Number of pages cannot be zero"
  | .overflow => "page_num + npages overflows 32-bit address space"

namespace Vmmap

variable {M : Type*} [IntervalMap M VmmapEntry]

/-- An empty map. -/
def new : Vmmap M :=
  { entries := IntervalMap.new
    cachedEntry := none
    baseAddress := none
    startAddress := 0
    endAddress := defaultVmmapSize
    heapStart := 0 }

/-- Back to an empty map, for `exec`. -/
def clear (_ : Vmmap M) : Vmmap M :=
  { entries := IntervalMap.new
    cachedEntry := none
    baseAddress := none
    startAddress := 0
    endAddress := defaultVmmapSize
    heapStart := 0 }

/-! ## The mutators -/

variable (vm : Vmmap M) (pageNum : ℕ) (npages : ℕ) (prot : BitVec 32)

/-- Insert an entry over `[pageNum, pageNum + npages)`, or remove what is there. -/
def update (maxprot flags : BitVec 32)
    (backing : MemoryBackingType) (remove : Bool) (fileOffset fileSize : ℤ) (cageId : ℕ) :
    Except UpdateError (Vmmap M) :=
  if npages = 0 then .error .zeroPages
  else
    match checkedAdd32 pageNum npages with
    | none => .error .overflow
    | some newRegionEndPage =>
      let newRegion : Interval := ⟨pageNum, newRegionEndPage - 1⟩
      let newEntry : VmmapEntry :=
        { pageNum, npages, prot, maxprot, flags, backing, fileOffset, fileSize,
          removed := false, cageId }
      let entries := insertOverwrite vm.entries newRegion newEntry
      .ok { vm with entries := if remove then removeOverlapping entries newRegion else entries }

/-- Map a range, overwriting what is there. -/
def addEntryWithOverwrite (maxprot flags : BitVec 32)
    (backing : MemoryBackingType) (fileOffset fileSize : ℤ) (cageId : ℕ) :
    Except UpdateError (Vmmap M) :=
  vm.update pageNum npages prot maxprot flags backing false fileOffset fileSize cageId

/-- Unmap a range, mapped or not. -/
def removeEntry : Except UpdateError (Vmmap M) :=
  vm.update pageNum npages 0 0 0 .none true 0 0 0

/-- An overlapping entry `changeProt` collected: its bounds, its overlap with the region, a
clone. -/
structure EntryToModify where
  entStart : ℕ
  entEnd : ℕ
  overlapStart : ℕ
  overlapEnd : ℕ
  originalEntry : VmmapEntry

/-- The clone `e` of a collected entry, rewritten to name `[start, stop)`. -/
def rebound (e : VmmapEntry) (start stop : ℕ) : VmmapEntry :=
  { e with pageNum := start, npages := stop - start }

/-- Re-insert one collected entry, split around the region if its protection changes. -/
def modifyEntry (newProt : BitVec 32) (m : M) (x : EntryToModify) : M :=
  let m := removeOverlapping m ⟨x.entStart, x.entEnd - 1⟩
  if x.originalEntry.prot = newProt then
    insertOverwrite m ⟨x.entStart, x.entEnd - 1⟩ x.originalEntry
  else
    -- before the region, inside it, after it
    let m := if x.entStart < x.overlapStart then
        insertOverwrite m ⟨x.entStart, x.overlapStart - 1⟩
          (rebound x.originalEntry x.entStart x.overlapStart)
      else m
    let m := if x.overlapStart < x.overlapEnd then
        insertOverwrite m ⟨x.overlapStart, x.overlapEnd - 1⟩
          { rebound x.originalEntry x.overlapStart x.overlapEnd with prot := newProt }
      else m
    if x.overlapEnd < x.entEnd then
      insertOverwrite m ⟨x.overlapEnd, x.entEnd - 1⟩
        (rebound x.originalEntry x.overlapEnd x.entEnd)
    else m

/-- One past the last page `changeProt` looks at. -/
def changeProtEnd : ℕ :=
  min (saturatingAdd32 pageNum npages) vm.endAddress

/-- The entry at `kv`, as `changeProt` collects it. -/
def collect (regionStart regionEnd : ℕ) (kv : Interval × VmmapEntry) : EntryToModify :=
  { entStart := kv.1.start
    entEnd := kv.1.last + 1
    overlapStart := max kv.1.start regionStart
    overlapEnd := min (kv.1.last + 1) regionEnd
    originalEntry := kv.2 }

/-- Change the protection of the mapped pages of a range; panics on an empty range. -/
def changeProt (newProt : BitVec 32) : Option (Vmmap M) :=
  let regionEnd := vm.changeProtEnd pageNum npages
  (ie M pageNum regionEnd).map fun region =>
    let entriesToModify := (overlapping vm.entries region).map (collect pageNum regionEnd)
    { vm with entries := entriesToModify.foldl (modifyEntry newProt) vm.entries }

/-! ## The checks -/

/-- The entry covering a page. -/
def findPage : Option VmmapEntry := getAtPoint vm.entries pageNum

/-- The walk of `checkExistingMapping` over the overlapping entries. -/
def existingWalk (regionEnd : ℕ) (prot : BitVec 32) :
    List (Interval × VmmapEntry) → ℕ → Bool
  | [], _ => false
  | (_, entry) :: rest, currentPage =>
      let entEndPage := saturatingAdd32 entry.pageNum entry.npages
      let flags := entry.maxprot
      if entry.pageNum ≤ currentPage ∧ regionEnd ≤ entEndPage then decide (Allows flags prot)
      else if entry.pageNum ≤ currentPage ∧ currentPage < entEndPage then
        if ¬ Allows flags prot then false
        -- the gap test of the same round sees the advanced page
        else if entEndPage < entry.pageNum then false
        else existingWalk regionEnd prot rest entEndPage
      else if currentPage < entry.pageNum then false
      else existingWalk regionEnd prot rest currentPage

/-- Is the whole range mapped with a `maxprot` that contains `prot`?  Panics on an empty range. -/
def checkExistingMapping : Option Bool :=
  match checkedAdd32 pageNum npages with
  | none => some false
  | some regionEndPage =>
    (ie M pageNum regionEndPage).map fun region =>
      existingWalk regionEndPage prot (overlapping vm.entries region) pageNum

/-- Does the cached entry answer the check? -/
def cacheHit (cachedEntry : Option VmmapEntry) (pageNum regionEnd : ℕ) (prot : BitVec 32) :
    Option ℕ :=
  cachedEntry.bind fun e =>
    let entEndPage := saturatingAdd32 e.pageNum e.npages
    if e.pageNum ≤ pageNum ∧ regionEnd ≤ entEndPage then
      if Allows (effectiveProt e.prot) prot then some entEndPage else none
    else none

/-- The walk of `checkAddrMapping` over the overlapping entries: the answer and the new cache. -/
def addrWalk (regionEnd : ℕ) (prot : BitVec 32) :
    List (Interval × VmmapEntry) → ℕ → Option VmmapEntry → Option ℕ × Option VmmapEntry
  | [], _, cache => (none, cache)
  | (_, entry) :: rest, currentPage, cache =>
      let entEndPage := saturatingAdd32 entry.pageNum entry.npages
      let flags := effectiveProt entry.prot
      if entry.pageNum ≤ currentPage ∧ regionEnd ≤ entEndPage then
        -- the cache is set even when the protection is refused, and the walk then goes on
        if Allows flags prot then (some entEndPage, some entry)
        else addrWalk regionEnd prot rest currentPage (some entry)
      else if entry.pageNum ≤ currentPage ∧ currentPage < entEndPage then
        if ¬ Allows flags prot then (none, cache)
        else addrWalk regionEnd prot rest entEndPage cache
      else if currentPage < entry.pageNum then (none, cache)
      else addrWalk regionEnd prot rest currentPage cache

/-- Is the whole range mapped with an effective protection that contains `prot`?  The answer is the
end of the entry that settles it. A walk over an empty range panics. -/
def checkAddrMapping :
    Option (Option ℕ × Vmmap M) :=
  match checkedAdd32 pageNum npages with
  | none => some (none, vm)
  | some regionEndPage =>
    match cacheHit vm.cachedEntry pageNum regionEndPage prot with
    | some entEndPage => some (some entEndPage, vm)
    | none =>
      (ie M pageNum regionEndPage).map fun region =>
        let (answer, cache) :=
          addrWalk regionEndPage prot (overlapping vm.entries region) pageNum vm.cachedEntry
        (answer, { vm with cachedEntry := cache })

/-! ## Runs of operations -/

/-- The operations on a map. -/
inductive Op where
  | update (pageNum npages : ℕ) (prot maxprot flags : BitVec 32) (backing : MemoryBackingType)
      (remove : Bool) (fileOffset fileSize : ℤ) (cageId : ℕ)
  | addEntryWithOverwrite (pageNum npages : ℕ) (prot maxprot flags : BitVec 32)
      (backing : MemoryBackingType) (fileOffset fileSize : ℤ) (cageId : ℕ)
  | removeEntry (pageNum npages : ℕ)
  | changeProt (pageNum npages : ℕ) (newProt : BitVec 32)
  | clear
  | checkAddrMapping (pageNum npages : ℕ) (prot : BitVec 32)

/-- A refused update leaves the map as it was. -/
def orKeep : Except UpdateError (Vmmap M) → Vmmap M
  | .ok vm' => vm'
  | .error _ => vm

/-- One operation; `none` when it panics. -/
def step : Op → Option (Vmmap M)
  | .update pageNum npages prot maxprot flags backing remove fileOffset fileSize cageId =>
      some (vm.orKeep (vm.update pageNum npages prot maxprot flags backing remove fileOffset
        fileSize cageId))
  | .addEntryWithOverwrite pageNum npages prot maxprot flags backing fileOffset fileSize cageId =>
      some (vm.orKeep (vm.addEntryWithOverwrite pageNum npages prot maxprot flags backing fileOffset
        fileSize cageId))
  | .removeEntry pageNum npages => some (vm.orKeep (vm.removeEntry pageNum npages))
  | .changeProt pageNum npages newProt => vm.changeProt pageNum npages newProt
  | .clear => some vm.clear
  | .checkAddrMapping pageNum npages prot => (vm.checkAddrMapping pageNum npages prot).map Prod.snd

end Vmmap

end LindWasm

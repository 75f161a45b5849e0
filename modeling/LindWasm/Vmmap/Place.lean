import LindWasm.Vmmap.Spec

/-!
# Vmmap/Place — where a mapping goes, and which addresses it has on the host

    user address  --userToSys-->  base + user address  --sysToUser-->  user address

`findMapSpaceFrom` picks the last pages of the first gap that is long enough, one short of the gap's
end; `findUnmappableRanges` lists what an unmap has to take away on the host, and leaves out what a
System V segment backs.
-/

namespace LindWasm

open IntervalMap LawfulOnValid LawfulIntervalMap Option List Interval

/-- The backing is a System V segment. -/
def MemoryBackingType.IsSharedMemory : MemoryBackingType → Prop
  | .sharedMemory _ => True
  | _ => False

instance : (b : MemoryBackingType) → Decidable b.IsSharedMemory
  | .sharedMemory _ => isTrue trivial
  | .none | .anonymous | .fileDescriptor _ => isFalse id

namespace Vmmap

variable {M : Type*} {vm : Vmmap M}

/-! ## Addresses -/

/-- The host address of a user address; panics without a base, or past the end of 64 bits. -/
def userToSys (vm : Vmmap M) (address : ℕ) : Option ℕ :=
  vm.baseAddress.bind fun base => if address + base < 2 ^ 64 then some (address + base) else none

/-- The user address of a host address; panics below the base and past 32 bits. -/
def sysToUser (vm : Vmmap M) (address : ℕ) : Option ℕ :=
  vm.baseAddress.bind fun base =>
    if address < base then none
    else if address - base ≤ u32Max then some (address - base) else none

theorem userToSys_eq_some {base address sys : ℕ} (hb : vm.baseAddress = some base) :
    vm.userToSys address = some sys ↔ address + base < 2 ^ 64 ∧ sys = address + base := by
  simp [userToSys, hb, eq_comm]

theorem sysToUser_eq_some {base address user : ℕ} (hb : vm.baseAddress = some base) :
    vm.sysToUser address = some user ↔ user ≤ u32Max ∧ address = user + base := by
  simp only [sysToUser, hb, bind_some]
  split
  · simp only [reduceCtorEq, false_iff]
    omega
  · split <;> simp only [some.injEq, reduceCtorEq, false_iff] <;> omega

/-! ## Finding space -/

variable [IntervalMap M VmmapEntry]

/-- `npages` up to a multiple of `pagesPerMap`, clamped to the largest one. -/
def roundPageNumUpToMapMultiple (npages pagesPerMap : ℕ) : ℕ :=
  match checkedAdd32 npages (pagesPerMap - 1) with
  | some n => n &&& (u32Max - (pagesPerMap - 1))
  | none => u32Max &&& (u32Max - (pagesPerMap - 1))

/-- `npages` down to a multiple of `pagesPerMap`. -/
def truncPageNumDownToMapMultiple (npages pagesPerMap : ℕ) : ℕ :=
  npages &&& (u32Max - (pagesPerMap - 1))

/-- The search both variants make, from `start`: the end of the first gap that is long enough.
The outer `none` is the panic on an empty range. -/
def findMapSpaceFrom (vm : Vmmap M) (start numPages pagesPerMap : ℕ) : Option (Option Interval) :=
  let roundedNumPages := roundPageNumUpToMapMultiple numPages pagesPerMap
  (ie M start vm.endAddress).bind fun range =>
    let fits (gap : Interval) : Bool :=
      -- the end of a gap is its last page, not one past it
      roundedNumPages ≤ roundPageNumUpToMapMultiple gap.last pagesPerMap
        - truncPageNumDownToMapMultiple gap.start pagesPerMap
    match (gapsTrimmed vm.entries range).find? fits with
    | none => some none
    | some gap =>
      let alignedEndPage := roundPageNumUpToMapMultiple gap.last pagesPerMap
      (ie M (alignedEndPage - roundedNumPages) alignedEndPage).map some

/-- Space anywhere. -/
def findMapSpace (vm : Vmmap M) (numPages pagesPerMap : ℕ) : Option (Option Interval) :=
  vm.findMapSpaceFrom vm.startAddress numPages pagesPerMap

/-- Space from the hint on. -/
def findMapSpaceWithHint (vm : Vmmap M) (numPages pagesPerMap hint : ℕ) :
    Option (Option Interval) :=
  vm.findMapSpaceFrom hint numPages pagesPerMap

variable {n reqStart reqEnd q : ℕ} {r : ℕ × ℕ}

theorem and_u32Max : n &&& u32Max = n % 2 ^ 32 := Nat.and_two_pow_sub_one_eq_mod n 32

theorem roundPageNumUp_one (h : n ≤ u32Max) : roundPageNumUpToMapMultiple n 1 = n := by
  have hlt : n < 2 ^ 32 := Nat.lt_of_le_of_lt h (by decide)
  simp only [roundPageNumUpToMapMultiple, checkedAdd32, Nat.sub_self, Nat.add_zero, h, if_true,
    Nat.sub_zero, and_u32Max]
  exact Nat.mod_eq_of_lt hlt

theorem truncPageNumDown_one (h : n ≤ u32Max) : truncPageNumDownToMapMultiple n 1 = n := by
  have hlt : n < 2 ^ 32 := Nat.lt_of_le_of_lt h (by decide)
  simp only [truncPageNumDownToMapMultiple, Nat.sub_self, Nat.sub_zero, and_u32Max]
  exact Nat.mod_eq_of_lt hlt

/-- **The space found is free**: it has the pages asked for, inside the range that was searched,
and no entry covers any of them. -/
theorem findMapSpaceFrom_free_of_pos [LawfulOnValid M] {start numPages : ℕ} {space : Interval}
    (hend : vm.endAddress ≤ u32Max) (hlt : start < vm.endAddress) (hpos : 0 < numPages)
    (hn : numPages ≤ u32Max) (h : vm.findMapSpaceFrom start numPages 1 = some (some space)) :
    space.last + 1 = space.start + numPages ∧ start ≤ space.start ∧
      space.last < vm.endAddress ∧ ∀ q ∈ space, vm.findPage q = none := by
  obtain ⟨range, hrange, h⟩ := bind_eq_some_iff.mp h
  obtain rfl := some.inj ((ie_of_lt hlt).symm.trans hrange)
  rw [roundPageNumUp_one hn] at h
  dsimp only at h
  split at h
  · exact absurd (some.inj h) nofun
  · next gap hgap =>
    obtain ⟨hvalid, hfree⟩ :=
      of_mem_gapsTrimmed vm.entries (Interval.valid_of_lt hlt) (mem_of_find?_eq_some hgap)
    have hfits := find?_some hgap
    rw [decide_eq_true_eq] at hfits
    have hstart := (hfree gap.start ⟨le_rfl, hvalid⟩).1
    have hlast := (hfree gap.last ⟨hvalid, le_rfl⟩).1
    rw [Interval.mem_def] at hstart hlast
    dsimp only at hstart hlast
    rw [roundPageNumUp_one (by omega), truncPageNumDown_one (by omega)] at hfits
    rw [roundPageNumUp_one (by omega)] at h
    obtain ⟨i, hi, hspace⟩ := map_eq_some_iff.mp h
    cases hspace
    obtain rfl := some.inj ((ie_of_lt (by omega)).symm.trans hi)
    dsimp only
    refine ⟨by omega, by omega, by omega, fun q hq => ?_⟩
    rw [Interval.mem_def] at hq
    dsimp only at hq
    exact (hfree q ⟨by omega, by omega⟩).2

theorem findMapSpaceFrom_free [LawfulIntervalMap M] {start numPages : ℕ} {space : Interval}
    (hend : vm.endAddress ≤ u32Max) (hn : numPages ≤ u32Max)
    (h : vm.findMapSpaceFrom start numPages 1 = some (some space)) :
    0 < numPages ∧ space.last + 1 = space.start + numPages ∧ start ≤ space.start ∧
      space.last < vm.endAddress ∧ ∀ q ∈ space, vm.findPage q = none := by
  obtain ⟨range, hrange, hfound⟩ := bind_eq_some_iff.mp h
  have hlt := (ie_eq_some.mp hrange).1
  have hpos : 0 < numPages := by
    rw [roundPageNumUp_one hn] at hfound
    dsimp only at hfound
    split at hfound
    · exact absurd (some.inj hfound) nofun
    · obtain ⟨i, hi, -⟩ := map_eq_some_iff.mp hfound
      have := (ie_eq_some.mp hi).1
      omega
  exact ⟨hpos, findMapSpaceFrom_free_of_pos hend hlt hpos hn h⟩

/-! ## What an unmap takes away -/

/-- The parts of `[reqStart, reqEnd)` under entries that no System V segment backs. -/
def findUnmappableRanges (vm : Vmmap M) (reqStart reqEnd : ℕ) : List (ℕ × ℕ) :=
  if reqEnd ≤ reqStart then []
  else
    ((overlapping vm.entries ⟨reqStart, reqEnd - 1⟩).filter
      fun kv => ¬ kv.2.backing.IsSharedMemory).map fun kv =>
        (max kv.1.start reqStart, min (saturatingAdd32 kv.1.last 1) reqEnd)

/-- The ranges come from the entries that overlap the request, and end with them or with it. -/
theorem mem_findUnmappableRanges_iff [LawfulOnValid M] :
    r ∈ vm.findUnmappableRanges reqStart reqEnd ↔
      ∃ kv ∈ iter vm.entries, kv.1.start < reqEnd ∧ reqStart ≤ kv.1.last ∧ reqStart < reqEnd ∧
        ¬ kv.2.backing.IsSharedMemory ∧
        r = (max kv.1.start reqStart, min (saturatingAdd32 kv.1.last 1) reqEnd) := by
  unfold findUnmappableRanges
  by_cases hlt : reqStart < reqEnd
  · simp only [if_neg (Nat.not_le.mpr hlt), List.mem_map, mem_filter, decide_eq_true_eq,
      mem_overlapping (valid_of_lt hlt), Interval.Overlaps, hlt, true_and]
    constructor
    · rintro ⟨kv, ⟨⟨hkv, hov⟩, hb⟩, rfl⟩
      exact ⟨kv, hkv, by omega, hov.2, hb, rfl⟩
    · rintro ⟨kv, hkv, hs, hl, hb, rfl⟩
      exact ⟨kv, ⟨⟨hkv, by omega, hl⟩, hb⟩, rfl⟩
  · simp [Nat.le_of_not_lt hlt, hlt]

/-- **A page of the request is in a range just when such an entry covers it**, where the end of a
key survives in 32 bits or the request ends there. -/
theorem mem_unmappable_of [LawfulOnValid M] (hsat : ∀ kv ∈ iter vm.entries,
      min (saturatingAdd32 kv.1.last 1) reqEnd = min (kv.1.last + 1) reqEnd) :
    (∃ r ∈ vm.findUnmappableRanges reqStart reqEnd, r.1 ≤ q ∧ q < r.2) ↔
      (reqStart ≤ q ∧ q < reqEnd) ∧
        ∃ e, vm.findPage q = some e ∧ ¬ e.backing.IsSharedMemory := by
  simp only [mem_findUnmappableRanges_iff, findPage, getAtPoint_eq_some]
  constructor
  · rintro ⟨r, ⟨⟨k, e⟩, hk, hs, hl, hlt, hb, rfl⟩, hq⟩
    rw [hsat _ hk] at hq
    dsimp only at hq
    exact ⟨by omega, e, ⟨k, hk, by omega, by omega⟩, hb⟩
  · rintro ⟨hq, e, ⟨k, hk, hqk⟩, hb⟩
    rw [Interval.mem_def] at hqk
    refine ⟨_, ⟨(k, e), hk, by dsimp only; omega, by dsimp only; omega, by omega, hb, rfl⟩, ?_⟩
    rw [hsat _ hk]
    dsimp only
    omega

theorem mem_findUnmappableRanges [LawfulOnValid M]
    (hkeys : ∀ kv ∈ iter vm.entries, kv.1.last < u32Max) :
    (∃ r ∈ vm.findUnmappableRanges reqStart reqEnd, r.1 ≤ q ∧ q < r.2) ↔
      (reqStart ≤ q ∧ q < reqEnd) ∧
        ∃ e, vm.findPage q = some e ∧ ¬ e.backing.IsSharedMemory := by
  refine mem_unmappable_of fun kv hkv => ?_
  have := hkeys kv hkv
  unfold saturatingAdd32
  omega

/-- **The ranges are not empty and stand in increasing order, without a common page.** -/
theorem findUnmappableRanges_sorted [LawfulOnValid M] (hend : reqEnd ≤ u32Max) :
    (∀ r ∈ vm.findUnmappableRanges reqStart reqEnd, r.1 < r.2) ∧
      (vm.findUnmappableRanges reqStart reqEnd).Pairwise fun a b => a.2 ≤ b.1 := by
  constructor
  · intro r hr
    obtain ⟨kv, hkv, hs, hl, hlt, -, rfl⟩ := mem_findUnmappableRanges_iff.mp hr
    have hvalid : kv.1.start ≤ kv.1.last := (sorted_iter vm.entries).valid kv hkv
    unfold saturatingAdd32
    omega
  · unfold findUnmappableRanges
    by_cases hlt : reqStart < reqEnd
    · rw [if_neg (Nat.not_le.mpr hlt), overlapping_eq _ (valid_of_lt hlt)]
      have hsorted := (((sorted_iter vm.entries).filter
        fun kv => kv.1.Overlaps ⟨reqStart, reqEnd - 1⟩).filter
        fun kv => ¬ kv.2.backing.IsSharedMemory).sorted
      refine pairwise_map.mpr (hsorted.imp fun {a b} hab => ?_)
      unfold saturatingAdd32
      omega
    · rw [if_pos (Nat.le_of_not_lt hlt)]
      exact List.Pairwise.nil

/-- A range lies inside the request, below the end of the entry it comes from. -/
theorem findUnmappableRanges_bounds [LawfulOnValid M] {bound : ℕ}
    (hkeys : ∀ kv ∈ iter vm.entries, kv.1.last < bound)
    (hr : r ∈ vm.findUnmappableRanges reqStart reqEnd) :
    reqStart ≤ r.1 ∧ r.2 ≤ reqEnd ∧ r.1 < bound ∧ r.2 ≤ bound := by
  obtain ⟨kv, hkv, hs, hl, hlt, -, rfl⟩ := mem_findUnmappableRanges_iff.mp hr
  have hlast := hkeys kv hkv
  have hvalid : kv.1.start ≤ kv.1.last := (sorted_iter vm.entries).valid kv hkv
  unfold saturatingAdd32
  omega

end Vmmap

end LindWasm

import LindWasm.Memory.Unmap
import LindWasm.Vmmap.Space

/-!
# Memory/Placed — a mapping the cage leaves to the runtime to place

    mmap(hint, len) without MAP_FIXED  -->  an error, the vmmap as it was
                                       └->  free pages [a, a + ⌈len⌉) below the end of the map

`mmap_placed_iff`: that is what every such call does, whatever the host and the descriptor table
answer — except that a length whose pages are a multiple of 2³² asks the search for no page. What
becomes of it then is up to the empty range the search answers with: it panics, or the length is
refused later on, unless it was rounded up to zero and nothing is mapped.
-/

namespace LindWasm.Memory

open IntervalMap LawfulOnValid LawfulIntervalMap Option Vmmap

variable {M : Type*} [IntervalMap M VmmapEntry] {s s' : State M} {r : Region}
  {addr len off : BitVec 64} {prot flags fildes : BitVec 32} {fd : FdView} {granted : Bool}

/-! ## A placed mapping -/

/-- What is to back the mapping. -/
def requestedBacking (flags fildes : BitVec 32) : MemoryBackingType :=
  if flags &&& mapAnonymous ≠ 0 then .anonymous
  else .fileDescriptor (fildes.signExtend 64).toNat

/-- `npages` pages from `page` on were free, and are now mapped as asked for; nothing else
changed. -/
structure PlacedAt (s s' : State M) (page npages : ℕ) (prot : BitVec 32)
    (backing : MemoryBackingType) : Prop where
  free : ∀ q, page ≤ q → q < page + npages → s.vm.findPage q = none
  inside : page + npages ≤ s.vm.endAddress
  mapped : ∀ q, page ≤ q → q < page + npages →
    ∃ e, s'.vm.findPage q = some e ∧ e.prot = prot ∧ e.backing = backing
  others : ∀ q, ¬ (page ≤ q ∧ q < page + npages) → s'.vm.findPage q = s.vm.findPage q

/-- The call fails and leaves the vmmap alone, or it returns the address of pages it placed. -/
def Places (s : State M) (len : BitVec 64) (prot flags fildes : BitVec 32) : Outcome M → Prop
  | none => False
  | some (.error _, s') => s'.vm = s.vm
  | some (.ok a, s') => ∃ page, a.toNat = page * pageSize ∧
      PlacedAt s s' page (pageCount len) prot (requestedBacking flags fildes)

theorem places_refuse {errno : Errno} {syscall message : String} :
    Places s len prot flags fildes (refuse s errno syscall message) := rfl

/-! ## The search -/

/-- Where the search starts: at the hint, or at the start of the map without one. -/
def searchStart (s : State M) (addr : BitVec 64) : ℕ :=
  if addr.toNat % 2 ^ 32 = 0 then s.vm.startAddress else addr.toNat % 2 ^ 32 / pageSize

/-- The container makes an interval of an empty range, … -/
def AcceptsEmpty (M : Type*) [IntervalMap M VmmapEntry] : Prop := ∀ p, emptyRange M p p ≠ none

/-- … or panics at it. -/
def PanicsOnEmpty (M : Type*) [IntervalMap M VmmapEntry] : Prop := ∀ p, emptyRange M p p = none

/-- The call gets to the search, which looks at a free page and is asked for none. -/
structure SearchesNothing (s : State M) (addr len : BitVec 64) (flags : BitVec 32)
    (off : BitVec 64) : Prop where
  no_hugetlb : flags &&& mapHugetlb = 0
  off_nonneg : 0 ≤ off.toInt
  off_aligned : off.toNat % pageSize = 0
  no_pages : pageCount len % 2 ^ 32 = 0
  free : ∃ q, searchStart s addr ≤ q ∧ q < s.vm.endAddress ∧ s.vm.findPage q = none

theorem mapAddress_eq (hfixed : flags &&& mapFixed = 0) :
    mapAddress s addr.toNat flags (roundUpPage len.toNat)
      = (s.vm.findMapSpaceFrom (searchStart s addr) (pageCount len % 2 ^ 32) 1).map fun space =>
          space.map fun i => i.start * pageSize % 2 ^ 32 := by
  unfold mapAddress searchStart
  rw [if_pos hfixed, roundUpPage_pages]
  split <;> rfl

theorem roundUpPage_eq_pages (len : BitVec 64) :
    roundUpPage len.toNat = pageCount len * pageSize % 2 ^ 64 := by
  have hlt := len.isLt
  unfold roundUpPage pageCount
  rw [pageSize_eq]
  split <;> omega

/-! ## The mapping itself -/

section

variable [LawfulOnValid M] (hstop : s.vm.endAddress ≤ defaultVmmapSize)
include hstop

theorem placedAt_addMapping {s₁ : State M} (hvm : s₁.vm = s.vm) {page n l : ℕ} (hn : 0 < n)
    (hle : page + n ≤ s.vm.endAddress)
    (hfree : ∀ q, page ≤ q → q < page + n → s.vm.findPage q = none) (maxprot : BitVec 32)
    (backing : MemoryBackingType) :
    PlacedAt s (addMapping s₁ (page * pageSize) l (n * pageSize) prot maxprot flags backing off)
      page n prot backing := by
  have hpage : page * pageSize / pageSize = page := Nat.mul_div_cancel page (by decide)
  have hcount : n * pageSize / pageSize % 2 ^ 32 = n := by
    rw [Nat.mul_div_cancel n (by decide)]
    refine Nat.mod_eq_of_lt ?_
    rw [defaultVmmapSize_eq] at hstop
    omega
  have hfit : page + n ≤ u32Max := (hle.trans hstop).trans (by decide)
  have hok : s.vm.update page n prot maxprot flags backing false off.toInt
      (BitVec.ofNat 64 l).toInt s₁.cageId
      = .ok (addMapping s₁ (page * pageSize) l (n * pageSize)
        prot maxprot flags backing off).vm := by
    unfold addMapping
    rw [hpage, hcount, hvm]
    exact update_eq_orKeep ⟨hn, hfit⟩
  refine ⟨hfree, hle, fun q hq hq' => ?_, fun q hq => ?_⟩
  · rw [findPage_update hok, if_pos ⟨hq, hq'⟩]
    exact ⟨_, rfl, rfl, rfl⟩
  · rw [findPage_update hok, if_neg hq]

/-- At free pages of the region, `mapAt` fails without touching the vmmap or places the mapping. -/
theorem places_mapAt (hb : s.vm.baseAddress = some r.base) {page : ℕ} (hn : 0 < pageCount len)
    (hlen : roundUpPage len.toNat = pageCount len * pageSize)
    (hle : page + pageCount len ≤ s.vm.endAddress)
    (hfree : ∀ q, page ≤ q → q < page + pageCount len → s.vm.findPage q = none) :
    Places s len prot flags fildes
      (mapAt s (page * pageSize) (page * pageSize + r.base) len.toNat (roundUpPage len.toNat) prot
        (flags ||| mapFixed) fildes off fd) := by
  have hmax : page * pageSize < 2 ^ 32 := by
    rw [defaultVmmapSize_eq] at hstop
    rw [pageSize_eq]
    omega
  have haddr : (BitVec.ofNat 32 (page * pageSize)).toNat = page * pageSize := by
    rw [BitVec.toNat_ofNat, Nat.mod_eq_of_lt hmax]
  unfold mapAt
  dsimp only
  rw [or_fixed_and_anonymous, hlen]
  cases hinner : mmapInner s (page * pageSize + r.base) (pageCount len * pageSize) prot
    (flags ||| mapFixed) (if flags &&& mapAnonymous ≠ 0 then -1 else fildes) off.toNat fd with
  | none => rfl
  | some s₁ =>
    obtain ⟨file, -, rfl⟩ := map_eq_some_iff.mp hinner
    have huser : s.vm.sysToUser (page * pageSize + r.base) = some (page * pageSize) :=
      (sysToUser_eq_some hb).mpr ⟨by unfold u32Max; omega, rfl⟩
    dsimp only
    rw [huser, bind_some, if_neg (not_not.mpr rfl)]
    by_cases hanon : flags &&& mapAnonymous ≠ 0
    · rw [if_pos hanon]
      refine ⟨page, haddr, ?_⟩
      rw [requestedBacking, if_pos hanon]
      refine placedAt_addMapping hstop ?_ hn hle hfree _ _
      rfl
    · rw [if_neg hanon]
      split
      · exact rfl
      · refine ⟨page, haddr, ?_⟩
        rw [requestedBacking, if_neg hanon]
        refine placedAt_addMapping hstop ?_ hn hle hfree _ _
        rfl

/-! ## The whole call -/

theorem mapAddress_placed (hlo : searchStart s addr < s.vm.endAddress)
    (hpos : 0 < pageCount len % 2 ^ 32) (hfixed : flags &&& mapFixed = 0) {useraddr : ℕ}
    (h : mapAddress s addr.toNat flags (roundUpPage len.toNat) = some (some useraddr)) :
    ∃ page, useraddr = page * pageSize ∧ page + pageCount len % 2 ^ 32 ≤ s.vm.endAddress ∧
      ∀ q, page ≤ q → q < page + pageCount len % 2 ^ 32 → s.vm.findPage q = none := by
  rw [mapAddress_eq hfixed] at h
  obtain ⟨space, hspace, h⟩ := map_eq_some_iff.mp h
  obtain ⟨i, rfl, rfl⟩ := map_eq_some_iff.mp h
  have hmod : pageCount len % 2 ^ 32 ≤ u32Max := by
    unfold u32Max
    omega
  obtain ⟨hsize, -, hlast, hfree⟩ :=
    findMapSpaceFrom_free_of_pos (hstop.trans (by decide)) hlo hpos hmod hspace
  refine ⟨i.start, ?_, by omega, fun q hq hq' => hfree q ⟨hq, by omega⟩⟩
  rw [defaultVmmapSize_eq] at hstop
  rw [pageSize_eq]
  omega

/-- What `mmap` does from the address on that was found. -/
def mmapFound (granted : Bool) (s : State M) (useraddr : ℕ) (len : BitVec 64)
    (prot flags fildes : BitVec 32) (off : BitVec 64) (fd : FdView) : Outcome M :=
  if 2 ^ 32 < (useraddr + roundUpPage len.toNat) % 2 ^ 64 then
    refuse s .EINVAL "mmap" "address range overflows 32-bit space"
  else if (flags ||| mapFixed) &&& mapPrivate = 0 ↔ (flags ||| mapFixed) &&& mapShared = 0 then
    refuse s .EINVAL "mmap" "invalid flags"
  else (s.vm.userToSys useraddr).bind fun sysaddr =>
    if roundUpPage len.toNat = 0 then answer s useraddr
    else mapAtIf granted s useraddr sysaddr len.toNat (roundUpPage len.toNat) prot
      (flags ||| mapFixed) fildes off fd

theorem places_found (hb : s.vm.baseAddress = some r.base) {page : ℕ}
    (hpos : 0 < pageCount len % 2 ^ 32) (hle : page + pageCount len % 2 ^ 32 ≤ s.vm.endAddress)
    (hfree : ∀ q, page ≤ q → q < page + pageCount len % 2 ^ 32 → s.vm.findPage q = none) :
    Places s len prot flags fildes
      (mmapFound granted s (page * pageSize) len prot flags fildes off fd) := by
  unfold mmapFound
  by_cases hover : 2 ^ 32 < (page * pageSize + roundUpPage len.toNat) % 2 ^ 64
  · rw [if_pos hover]
    exact places_refuse
  rw [if_neg hover]
  split
  · exact places_refuse
  have hmax : pageCount len ≤ 2 ^ 52 := by
    have := len.isLt
    unfold pageCount
    rw [pageSize_eq]
    omega
  rw [roundUpPage_eq_pages, pageSize_eq] at hover
  rw [defaultVmmapSize_eq] at hstop
  -- more pages than 32 bits count do not pass the check, and so none were dropped
  have hcount : pageCount len % 2 ^ 32 = pageCount len := by omega
  have hlen : roundUpPage len.toNat = pageCount len * pageSize := by
    rw [roundUpPage_eq_pages, pageSize_eq]
    omega
  rw [hcount] at hpos hle hfree
  have hsys : s.vm.userToSys (page * pageSize) = some (page * pageSize + r.base) := by
    have hfits := r.fits
    rw [pageSize_eq]
    exact (userToSys_eq_some hb).mpr ⟨by omega, rfl⟩
  have hne : roundUpPage len.toNat ≠ 0 := by
    rw [hlen, pageSize_eq]
    omega
  rw [hsys, bind_some, if_neg hne]
  unfold mapAtIf
  split
  · exact places_mapAt (hstop.trans (by decide)) hb hpos hlen hle hfree
  · rfl

omit [LawfulOnValid M] in
/-- After a search for no page that came back with an address, the length is refused, unless it is
rounded up to zero: then the address is returned, with nothing behind it. -/
theorem places_foundNothing (hb : s.vm.baseAddress = some r.base) {useraddr : ℕ}
    (haddr : useraddr < 2 ^ 32) (hlen : len ≠ 0) (hnone : pageCount len % 2 ^ 32 = 0) :
    Places s len prot flags fildes (mmapFound granted s useraddr len prot flags fildes off fd)
      ↔ ¬ (roundUpPage len.toNat = 0 ∧
        ¬ ((flags ||| mapFixed) &&& mapPrivate = 0 ↔ (flags ||| mapFixed) &&& mapShared = 0)) := by
  have hround := roundUpPage_eq_pages len
  rw [pageSize_eq] at hround
  unfold mmapFound
  by_cases hzero : roundUpPage len.toNat = 0
  · rw [if_neg (by omega)]
    split
    · next hflags => exact iff_of_true places_refuse fun h => h.2 hflags
    · next hflags =>
      have hsys : s.vm.userToSys useraddr = some (useraddr + r.base) := by
        have hfits := r.fits
        exact (userToSys_eq_some hb).mpr ⟨by omega, rfl⟩
      rw [hsys, bind_some]
      refine iff_of_false ?_ (not_not.mpr ⟨hzero, hflags⟩)
      rintro ⟨page, -, hplaced⟩
      have hpos : 0 < len.toNat := Nat.pos_of_ne_zero fun h => hlen (BitVec.eq_of_toNat_eq h)
      have hinside := hplaced.inside
      rw [defaultVmmapSize_eq] at hstop
      unfold pageCount at hinside hnone
      rw [pageSize_eq] at hinside hnone
      omega
  · rw [if_pos (by omega)]
    exact iff_of_true places_refuse fun h => hzero h.1

end

/-- **A mapping left to the runtime to place** fails without touching the vmmap or is placed on free
pages, for every map, length, hint and host, unless the search is asked for no page and finds a free
one: if the empty range panics, so does the call, and if not, a length that rounds up to zero is
answered with an address and not mapped. -/
theorem mmap_placed_iff [LawfulOnValid M] (hempty : PanicsOnEmpty M ∨ AcceptsEmpty M)
    (hb : s.vm.baseAddress = some r.base) (hlen : len ≠ 0)
    (hstart : s.vm.startAddress < s.vm.endAddress) (hstop : s.vm.endAddress ≤ defaultVmmapSize)
    (haddr : addr.toNat % pageSize = 0)
    (hhint : addr.toNat % 2 ^ 32 / pageSize < s.vm.endAddress)
    (hfixed : flags &&& mapFixed = 0) :
    Places s len prot flags fildes (mmapIf granted s addr len prot flags fildes off fd)
      ↔ ¬ (SearchesNothing s addr len flags off ∧ (PanicsOnEmpty M ∨ roundUpPage len.toNat = 0 ∧
        ¬ ((flags ||| mapFixed) &&& mapPrivate = 0
          ↔ (flags ||| mapFixed) &&& mapShared = 0))) := by
  have hlo : searchStart s addr < s.vm.endAddress := by
    unfold searchStart
    split
    · exact hstart
    · exact hhint
  unfold mmapIf
  by_cases htlb : flags &&& mapHugetlb ≠ 0
  · rw [if_pos htlb]
    exact iff_of_true places_refuse fun h => htlb h.1.no_hugetlb
  rw [if_neg htlb, if_neg (not_not.mpr (roundUpPage_eq_self.mpr haddr))]
  by_cases hneg : off.toInt < 0
  · rw [if_pos hneg]
    exact iff_of_true places_refuse fun h => absurd h.1.off_nonneg (not_le.mpr hneg)
  rw [if_neg hneg]
  by_cases hoff : roundUpPage off.toNat ≠ off.toNat
  · rw [if_pos hoff]
    exact iff_of_true places_refuse fun h => hoff (roundUpPage_eq_self.mpr h.1.off_aligned)
  rw [if_neg hoff]
  dsimp only
  by_cases hfree : ∃ q, searchStart s addr ≤ q ∧ q < s.vm.endAddress ∧ s.vm.findPage q = none
  swap
  · rw [mapAddress_eq hfixed, findMapSpaceFrom_of_not_free hlo hfree]
    exact iff_of_true places_refuse fun h => hfree h.1.free
  rcases Nat.eq_zero_or_pos (pageCount len % 2 ^ 32) with hnone | hpos
  · have hsearch : SearchesNothing s addr len flags off :=
      ⟨not_not.mp htlb, not_lt.mp hneg, roundUpPage_eq_self.mp (not_not.mp hoff), hnone, hfree⟩
    obtain ⟨p, hp⟩ := findMapSpaceFrom_zero hlo hfree
    rw [mapAddress_eq hfixed, hnone, hp, and_iff_right hsearch]
    rcases hempty with hpanics | haccepts
    · rw [hpanics p]
      exact iff_of_false id (not_not.mpr (.inl hpanics))
    · obtain ⟨i, hi⟩ := ne_none_iff_exists'.mp (haccepts p)
      rw [or_iff_right fun hpanics => haccepts p (hpanics p), hi]
      exact places_foundNothing hstop hb (Nat.mod_lt _ (by decide)) hlen hnone
  · refine iff_of_true ?_ fun h => hpos.ne' h.1.no_pages
    cases hfound : mapAddress s addr.toNat flags (roundUpPage len.toNat) with
    | none =>
      rw [mapAddress_eq hfixed, map_eq_none_iff] at hfound
      exact absurd hfound (findMapSpaceFrom_ne_none hlo (hstop.trans (by decide)) hpos)
    | some found =>
      rw [bind_some]
      cases found with
      | none => exact places_refuse
      | some useraddr =>
        obtain ⟨page, rfl, hle, hfree⟩ := mapAddress_placed hstop hlo hpos hfixed hfound
        exact places_found hstop hb hpos hle hfree

/-- Placed by the runtime in the sample cage: the last three pages but one of the map. -/
theorem mmap_placed_threePages :
    Places sampleCage 0x2800 3 0x22 0
      (mmapIf true sampleCage 0 0x2800 3 0x22 0 0 ⟨none, 0⟩) := by
  refine (mmap_placed_iff (r := sampleRegion) (.inl fun _ => rfl)
    (by decide +kernel) (by decide) (by decide +kernel) (by decide +kernel) (by decide) (by decide)
    (by decide)).mpr fun h => ?_
  exact absurd h.1.no_pages (by decide)

/-- **A length of all but nothing of the 64 bits is not refused**: rounded up to pages it is
zero. -/
theorem not_places_hugeLength :
    ¬ Places sampleCage 0xffffffffffffffff 3 0x22 0
      (mmapIf true sampleCage 0 0xffffffffffffffff 3 0x22 0 0 ⟨none, 0⟩) := by
  have hpanic : (mmapIf true sampleCage 0 0xffffffffffffffff 3 0x22 0 0 ⟨none, 0⟩).isNone := by
    decide +kernel
  rw [isNone_iff_eq_none.mp hpanic]
  exact id

end LindWasm.Memory

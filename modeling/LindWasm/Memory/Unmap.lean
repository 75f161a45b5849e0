import LindWasm.Memory.Sync

/-!
# Memory/Unmap — what a successful `munmap` takes away

    request   [first, first + count)            pages of the cage, from the address and the length
    host      one call for each entry in it that no segment backs
    vmmap     the whole request removed

The ranges of the host calls are right for every map (`findUnmappableRanges_sorted`,
`mem_unmappable_of`). What `munmap` makes of them is not: the number of pages is cut to 32 bits
before it is checked, and a range's first page is shifted to an address in 32 bits.
`munmap_exact_iff` says when neither matters.
-/

namespace LindWasm.Memory

open IntervalMap LawfulOnValid LawfulIntervalMap Option List Vmmap

variable {M : Type*} {s s' : State M} {r : Region} {addr len : BitVec 64}

/-! ## The request -/

/-- The first page of a request. -/
def firstPage (r : Region) (addr : BitVec 64) : ℕ := (addr.toNat - r.base) / pageSize

/-- The number of pages `len` bytes need. -/
def pageCount (len : BitVec 64) : ℕ := (len.toNat + (pageSize - 1)) / pageSize

/-- The page is one of the request. -/
def Requested (r : Region) (addr len : BitVec 64) (q : ℕ) : Prop :=
  firstPage r addr ≤ q ∧ q < firstPage r addr + pageCount len
deriving Decidable

/-- What the code counts are the pages modulo 32 bits. -/
theorem roundUpPage_pages (len : BitVec 64) :
    roundUpPage len.toNat / pageSize % 2 ^ 32 = pageCount len % 2 ^ 32 := by
  unfold roundUpPage pageCount
  rw [pageSize_eq]
  split <;> omega

/-! ## The host calls -/

/-- The host calls for some ranges: first page on the host and number of pages. -/
def unmapCalls (vm : Vmmap M) (ranges : List (ℕ × ℕ)) : Option (List (ℕ × ℕ)) :=
  ranges.mapM fun x => (vm.userToSys (x.1 * pageSize % 2 ^ 32)).map fun sysaddr =>
    (sysaddr / pageSize, x.2 - x.1)

/-- The host after some calls, each of which makes its pages inaccessible. -/
def afterCalls (host : Host) (calls : List (ℕ × ℕ)) : Host :=
  calls.foldl (fun h c => h.map c.1 c.2 protNone none) host

theorem unmapRanges_eq (vm : Vmmap M) (host : Host) (ranges : List (ℕ × ℕ)) :
    unmapRanges vm host ranges = (unmapCalls vm ranges).map (afterCalls host) := by
  unfold unmapRanges unmapCalls
  induction ranges generalizing host with
  | nil => rfl
  | cons x ranges ih =>
    rw [foldlM_cons, mapM_cons]
    cases vm.userToSys (x.1 * pageSize % 2 ^ 32) with
    | none => rfl
    | some sysaddr =>
      simp only [map_some, bind_eq_bind, bind_some, ih]
      cases ranges.mapM fun x => (vm.userToSys (x.1 * pageSize % 2 ^ 32)).map fun sysaddr =>
        (sysaddr / pageSize, x.2 - x.1) with
      | none => rfl
      | some calls => rfl

/-- In a region no address is out of reach, and a range's first page is taken modulo its size. -/
theorem unmapCalls_eq {vm : Vmmap M} (hb : vm.baseAddress = some r.base) (ranges : List (ℕ × ℕ)) :
    unmapCalls vm ranges
      = some (ranges.map fun x => (r.page (x.1 % defaultVmmapSize), x.2 - x.1)) := by
  unfold unmapCalls
  induction ranges with
  | nil => rfl
  | cons x ranges ih =>
    have hfits := r.fits
    have hsys : vm.userToSys (x.1 * pageSize % 2 ^ 32)
        = some (x.1 * pageSize % 2 ^ 32 + r.base) :=
      (userToSys_eq_some hb).mpr ⟨by omega, rfl⟩
    have hpage : x.1 * pageSize % 2 ^ 32 / pageSize = x.1 % defaultVmmapSize := by
      rw [pageSize_eq, defaultVmmapSize_eq]
      omega
    rw [mapM_cons, ih, hsys]
    simp only [map_some, bind_eq_bind, bind_some, map_cons,
      r.div_pageSize, hpage]
    rfl

variable [IntervalMap M VmmapEntry]

/-- The host calls of a `munmap`. -/
def munmapCalls (s : State M) (addr len : BitVec 64) : Option (List (ℕ × ℕ)) :=
  (s.vm.sysToUser addr.toNat).bind fun useraddr =>
    let reqStart := useraddr / pageSize
    unmapCalls s.vm
      (s.vm.findUnmappableRanges reqStart (reqStart + roundUpPage len.toNat / pageSize % 2 ^ 32))

/-- **What a successful `munmap` is**: its calls, and a removal of as many pages as it counts. -/
theorem munmap_eq_ok {v : BitVec 32} (hb : s.vm.baseAddress = some r.base)
    (h : munmap s addr len = some (.ok v, s')) :
    firstPage r addr < defaultVmmapSize ∧
      firstPage r addr + pageCount len % 2 ^ 32 ≤ u32Max ∧
      ∃ calls, munmapCalls s addr len = some calls ∧
        calls = (s.vm.findUnmappableRanges (firstPage r addr)
          (firstPage r addr + pageCount len % 2 ^ 32)).map
            (fun x => (r.page (x.1 % defaultVmmapSize), x.2 - x.1)) ∧
        s' = { s with
          vm := s.vm.orKeep (s.vm.removeEntry (firstPage r addr) (pageCount len % 2 ^ 32))
          host := afterCalls s.host calls } := by
  unfold munmap at h
  split at h
  · exact absurd (Prod.mk.inj (some.inj h)).1 nofun
  split at h
  · exact absurd (Prod.mk.inj (some.inj h)).1 nofun
  obtain ⟨useraddr, huser, h⟩ := bind_eq_some_iff.mp h
  obtain ⟨hmax, haddr⟩ := (sysToUser_eq_some hb).mp huser
  have hfirst : firstPage r addr = useraddr / pageSize := by
    rw [firstPage, haddr, Nat.add_sub_cancel]
  dsimp only at h
  rw [roundUpPage_pages, ← hfirst] at h
  split at h
  · exact absurd (Prod.mk.inj (some.inj h)).1 nofun
  next reqEnd hend =>
  obtain ⟨hle, rfl⟩ := checkedAdd32_eq_some.mp hend
  obtain ⟨host, hhost, h⟩ := bind_eq_some_iff.mp h
  rw [unmapRanges_eq, unmapCalls_eq hb] at hhost
  cases hhost
  rw [Nat.add_sub_cancel_left] at h
  refine ⟨?_, hle, _, ?_, rfl, of_answer h⟩
  · rw [hfirst, pageSize_eq, defaultVmmapSize_eq]
    unfold u32Max at hmax
    omega
  · unfold munmapCalls
    rw [huser, bind_some]
    rw [roundUpPage_pages, ← hfirst, unmapCalls_eq hb]

/-! ## The request, taken away -/

/-- A page that an entry covers and no segment backs. -/
def Unmappable (vm : Vmmap M) (q : ℕ) : Prop :=
  ∃ e, vm.findPage q = some e ∧ ¬ e.backing.IsSharedMemory

/-- The calls make the request's unmappable pages inaccessible and no other page of the host, and
the vmmap loses the request's pages and no other. -/
structure UnmapsRequest (r : Region) (s s' : State M) (addr len : BitVec 64)
    (calls : List (ℕ × ℕ)) : Prop where
  issued : munmapCalls s addr len = some calls
  host : s'.host = afterCalls s.host calls
  pages : ∀ p, (∃ c ∈ calls, c.1 ≤ p ∧ p < c.1 + c.2)
    ↔ ∃ q, p = r.page q ∧ Requested r addr len q ∧ Unmappable s.vm q
  vm : ∀ q, s'.vm.findPage q = if Requested r addr len q then none else s.vm.findPage q

/-- No page of the request past the ones that are counted is mapped, and every entry that is taken
away starts inside the region. -/
structure MunmapExact (r : Region) (s : State M) (addr len : BitVec 64) : Prop where
  rest_free : ∀ q, Requested r addr len q → firstPage r addr + pageCount len % 2 ^ 32 ≤ q →
    s.vm.findPage q = none
  starts_inside : ∀ kv ∈ iter s.vm.entries, ¬ kv.2.backing.IsSharedMemory →
    kv.1.start < firstPage r addr + pageCount len % 2 ^ 32 → firstPage r addr ≤ kv.1.last →
      kv.1.start < defaultVmmapSize

section Exact

variable [LawfulIntervalMap M] {v : BitVec 32} {ranges : List (ℕ × ℕ)}

/-- The host pages of the calls, when every range starts inside the region. -/
theorem pages_of_inside (hlt : ∀ x ∈ ranges, x.1 < defaultVmmapSize) (p : ℕ) :
    (∃ c ∈ ranges.map fun x => (r.page (x.1 % defaultVmmapSize), x.2 - x.1),
        c.1 ≤ p ∧ p < c.1 + c.2)
      ↔ ∃ q, p = r.page q ∧ ∃ x ∈ ranges, x.1 ≤ q ∧ q < x.2 := by
  simp only [List.mem_map]
  constructor
  · rintro ⟨_, ⟨x, hx, rfl⟩, hle, hp⟩
    rw [Nat.mod_eq_of_lt (hlt x hx)] at hle hp
    unfold Region.page at *
    exact ⟨p - r.base / pageSize, by omega, x, hx, by omega⟩
  · rintro ⟨q, rfl, x, hx, hq⟩
    refine ⟨_, ⟨x, hx, rfl⟩, ?_⟩
    rw [Nat.mod_eq_of_lt (hlt x hx)]
    unfold Region.page
    omega

/-- **A range that starts past the region is not taken away**: the last page of the last range is
in no call. -/
theorem inside_of_pages (hpos : ∀ x ∈ ranges, x.1 < x.2)
    (hsorted : ranges.Pairwise fun a b => a.2 ≤ b.1)
    (h : ∀ q, (∃ x ∈ ranges, x.1 ≤ q ∧ q < x.2) →
      ∃ c ∈ ranges.map fun x => (r.page (x.1 % defaultVmmapSize), x.2 - x.1),
        c.1 ≤ r.page q ∧ r.page q < c.1 + c.2) : ∀ x ∈ ranges, x.1 < defaultVmmapSize := by
  rcases eq_nil_or_concat ranges with rfl | ⟨init, z, rfl⟩
  · exact nofun
  rw [concat_eq_append] at *
  have hlast : ∀ x ∈ init ++ [z], x = z ∨ x.2 ≤ z.1 := fun x hx => by
    rcases mem_append.mp hx with hx | hx
    · exact .inr ((pairwise_append.mp hsorted).2.2 x hx z (mem_singleton_self z))
    · exact .inl (mem_singleton.mp hx)
  have hz : z ∈ init ++ [z] := by simp
  have hzpos := hpos z hz
  have hzlt : z.1 < defaultVmmapSize := by
    by_contra hge
    obtain ⟨c, hc, hle, hlt⟩ := h (z.2 - 1) ⟨z, hz, by omega, by omega⟩
    obtain ⟨x, hx, rfl⟩ := mem_map.mp hc
    have hmod : x.1 % defaultVmmapSize ≤ x.1 := Nat.mod_le _ _
    have hmodlt : x.1 % defaultVmmapSize < defaultVmmapSize := Nat.mod_lt _ (by decide)
    have hxpos := hpos x hx
    unfold Region.page at hlt
    rcases hlast x hx with rfl | hxz
    · omega
    · omega
  intro x hx
  rcases hlast x hx with rfl | hxz
  · exact hzlt
  · exact (hpos x hx).trans_le (hxz.trans hzlt.le)

theorem mem_ranges_iff {first count q : ℕ} (hle : first + count ≤ u32Max) :
    (∃ x ∈ s.vm.findUnmappableRanges first (first + count), x.1 ≤ q ∧ q < x.2)
      ↔ (first ≤ q ∧ q < first + count) ∧ Unmappable s.vm q := by
  refine mem_unmappable_of fun kv _ => ?_
  unfold saturatingAdd32
  omega

section

variable (hb : s.vm.baseAddress = some r.base) (h : munmap s addr len = some (.ok v, s'))
include hb h

/-- A call that takes away exactly its request counts every mapped page of it, and takes away no
entry that starts past the region… -/
theorem munmapExact_of_unmaps {calls : List (ℕ × ℕ)}
    (hunmaps : UnmapsRequest r s s' addr len calls) : MunmapExact r s addr len := by
  obtain ⟨hfirst, hle, calls', hcalls, hcallsEq, rfl⟩ := munmap_eq_ok hb h
  obtain rfl := mem_unique hcalls hunmaps.issued
  have hmod : pageCount len % 2 ^ 32 ≤ pageCount len := Nat.mod_le _ _
  refine ⟨fun q hq hrest => ?_, fun kv hkv hshared hstart hlast => ?_⟩
  · have hvm := hunmaps.vm q
    rw [if_pos hq] at hvm
    rw [← hvm]
    exact ((findPage_removeEntry hle q).trans (if_neg (by omega))).symm
  · rcases Nat.eq_zero_or_pos (pageCount len % 2 ^ 32) with hzero | hcount
    · omega
    obtain ⟨hpos, hsorted⟩ :
        (∀ x ∈ s.vm.findUnmappableRanges (firstPage r addr) _, x.1 < x.2) ∧ _ :=
      findUnmappableRanges_sorted hle
    have hinside := inside_of_pages hpos hsorted fun q hq => by
      obtain ⟨hin, hun⟩ := (mem_ranges_iff hle).mp hq
      rw [← hcallsEq]
      exact (hunmaps.pages _).mpr ⟨q, rfl, ⟨hin.1, by omega⟩, hun⟩
    have hrange := hinside _ (mem_findUnmappableRanges_iff.mpr
      ⟨kv, hkv, hstart, hlast, by omega, hshared, rfl⟩)
    omega

/-- …and that is enough. -/
theorem unmaps_of_munmapExact (hexact : MunmapExact r s addr len) :
    ∃ calls, UnmapsRequest r s s' addr len calls := by
  obtain ⟨hfirst, hle, calls, hcalls, hcallsEq, rfl⟩ := munmap_eq_ok hb h
  have hmod : pageCount len % 2 ^ 32 ≤ pageCount len := Nat.mod_le _ _
  have hinside : ∀ x ∈ s.vm.findUnmappableRanges (firstPage r addr)
      (firstPage r addr + pageCount len % 2 ^ 32), x.1 < defaultVmmapSize := fun x hx => by
    obtain ⟨kv, hkv, hstart, hlast, -, hshared, rfl⟩ := mem_findUnmappableRanges_iff.mp hx
    have := hexact.starts_inside kv hkv hshared hstart hlast
    omega
  -- a mapped page of the request is one of those counted
  have hcounted : ∀ q, Requested r addr len q → s.vm.findPage q ≠ none →
      q < firstPage r addr + pageCount len % 2 ^ 32 := fun q hq hmapped => by
    by_contra hge
    exact hmapped (hexact.rest_free q hq (not_lt.mp hge))
  refine ⟨calls, hcalls, rfl, fun p => ?_, fun q => ?_⟩
  · rw [hcallsEq, pages_of_inside hinside]
    refine exists_congr fun q => and_congr_right fun _ => ?_
    rw [mem_ranges_iff hle]
    refine and_congr_left fun ⟨e, he, _⟩ => ⟨fun hq => ⟨hq.1, by omega⟩, fun hq => ⟨hq.1, ?_⟩⟩
    exact hcounted q hq (by rw [he]; nofun)
  · refine (findPage_removeEntry hle q).trans ?_
    by_cases hin : firstPage r addr ≤ q ∧ q < firstPage r addr + pageCount len % 2 ^ 32
    · rw [if_pos hin, if_pos ⟨hin.1, by omega⟩]
    · rw [if_neg hin]
      split
      · next hq => exact hexact.rest_free q hq (by have := hq.1; omega)
      · rfl

end

/-- **`munmap`, page by page.**  The ranges to take away stand in increasing order, without a common
page, and hold exactly the unmappable pages of the range asked for.  A successful call takes away
exactly its request just when no page past the counted ones is mapped and no entry it takes away
starts past the region. -/
theorem munmap_exact_iff (reqStart : ℕ) {reqEnd : ℕ} (hreq : reqEnd ≤ u32Max) :
    ((∀ x ∈ s.vm.findUnmappableRanges reqStart reqEnd, x.1 < x.2) ∧
      (s.vm.findUnmappableRanges reqStart reqEnd).Pairwise (fun a b => a.2 ≤ b.1) ∧
      ∀ q, (∃ x ∈ s.vm.findUnmappableRanges reqStart reqEnd, x.1 ≤ q ∧ q < x.2)
        ↔ (reqStart ≤ q ∧ q < reqEnd) ∧ Unmappable s.vm q) ∧
    (s.vm.baseAddress = some r.base → munmap s addr len = some (.ok v, s') →
      ((∃ calls, UnmapsRequest r s s' addr len calls) ↔ MunmapExact r s addr len)) := by
  obtain ⟨hpos, hsorted⟩ : (∀ x ∈ s.vm.findUnmappableRanges reqStart _, x.1 < x.2) ∧ _ :=
    findUnmappableRanges_sorted hreq
  refine ⟨⟨hpos, hsorted, fun q => mem_unmappable_of fun kv _ => ?_⟩, fun hb h => ?_⟩
  · unfold saturatingAdd32
    omega
  · exact ⟨fun ⟨_, hunmaps⟩ => munmapExact_of_unmaps hb h hunmaps, unmaps_of_munmapExact hb h⟩

end Exact

/-- A cage with the pages from 16 to 31 mapped. -/
def sixteenPages : State (SortedList VmmapEntry) :=
  (runSteps step sampleCage [.mmap 0x10000 0x10000 3 0x32 0 0 ⟨none, 0⟩]).getD sampleCage

/-- Two of them taken away. -/
theorem munmap_exact_twoPages :
    ∃ s', munmap sixteenPages 0x100012000 0x2000 = some (.ok 0, s') ∧
      ∃ calls, UnmapsRequest sampleRegion sixteenPages s' 0x100012000 0x2000 calls := by
  have hok : (munmap sixteenPages 0x100012000 0x2000).map Prod.fst = some (.ok 0) := by
    decide +kernel
  obtain ⟨⟨x, s'⟩, h, rfl⟩ := map_eq_some_iff.mp hok
  have hbase : sixteenPages.vm.baseAddress = some sampleRegion.base := by decide +kernel
  refine ⟨s', h, ((munmap_exact_iff 0 (Nat.zero_le u32Max)).2 hbase h).mpr ⟨?_, ?_⟩⟩
  · intro q hq hrest
    have hcount : pageCount 0x2000 = 2 := by decide
    have hlt := hq.2
    rw [hcount] at hlt hrest
    omega
  · have hkeys : ∀ kv ∈ iter sixteenPages.vm.entries, kv.1.start < defaultVmmapSize := by
      decide +kernel
    exact fun kv hkv _ _ _ => hkeys kv hkv

/-- **A length of sixteen tebibytes and a page takes one page away**, and the call succeeds: the
other mapped pages of the request stay. -/
theorem not_unmapsRequest_hugeLength :
    ∃ s', munmap sixteenPages 0x100010000 0x100000001000 = some (.ok 0, s') ∧
      ¬ ∃ calls, UnmapsRequest sampleRegion sixteenPages s' 0x100010000 0x100000001000 calls := by
  have hok : (munmap sixteenPages 0x100010000 0x100000001000).map Prod.fst = some (.ok 0) := by
    decide +kernel
  obtain ⟨⟨x, s'⟩, h, rfl⟩ := map_eq_some_iff.mp hok
  refine ⟨s', h, fun ⟨calls, hunmaps⟩ => ?_⟩
  have hstays : ∀ y ∈ munmap sixteenPages 0x100010000 0x100000001000,
      y.2.vm.findPage 20 ≠ none := by decide +kernel
  have hreq : Requested sampleRegion 0x100010000 0x100000001000 20 := by decide
  exact hstays _ h ((hunmaps.vm 20).trans (if_pos hreq))

end LindWasm.Memory

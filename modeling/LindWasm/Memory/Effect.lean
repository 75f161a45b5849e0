import LindWasm.Memory.Refusing

/-!
# Memory/Effect — what each syscall can do to the vmmap and to the host

    mmap, shmat   map [p, p+n) on both sides          (`Maps`)
    munmap        unmap on the host what no segment backs, remove everything from the vmmap
    mprotect      protect every page on the host, the mapped ones in the vmmap
    brk           resize the heap's entry, remap what lies between the old end and the new
    shmdt         unmap [p, p+n) on both sides        (`Unmaps`)

One inversion lemma per syscall, page by page and in the cage's own page numbers; every invariant of
the two sides is read off these. Each lemma is under the condition that keeps the two sides
together: where it fails, one side changes without the other.
-/

namespace LindWasm.Memory

open IntervalMap LawfulOnValid LawfulIntervalMap Function Option List Vmmap

variable {M : Type*} {s s' : State M} {r : Region}

/-! ## Pages and rounding -/

theorem pageSize_eq : pageSize = 4096 := rfl

theorem defaultVmmapSize_eq : defaultVmmapSize = 2 ^ 20 := rfl

theorem u32Max_eq : u32Max = 2 ^ 32 - 1 := rfl

theorem Region.div_pageSize (r : Region) (address : ℕ) :
    (address + r.base) / pageSize = r.page (address / pageSize) := by
  have := r.base_aligned
  rw [pageSize_eq] at *
  unfold Region.page
  rw [pageSize_eq]
  omega

variable {q n p address oldBrk : ℕ} {errno : Errno} {syscall message : String}
  {x : Except SyscallError (BitVec 32)} {vm : Vmmap M} {heap : VmmapEntry}

@[simp] theorem Region.page_le_page : r.page p ≤ r.page q ↔ p ≤ q :=
  Nat.add_le_add_iff_left

theorem Region.page_lt_page_add : r.page q < r.page p + n ↔ q < p + n := by
  unfold Region.page
  omega

theorem roundUpPage_mod (n : ℕ) : roundUpPage n % pageSize = 0 := by
  unfold roundUpPage
  split
  · assumption
  · rw [pageSize_eq]
    omega

theorem roundUpPage_eq_self : roundUpPage n = n ↔ n % pageSize = 0 :=
  ⟨fun h => h ▸ roundUpPage_mod n, fun h => if_pos h⟩

theorem roundUpPage_lt (h : n < 2 ^ 64) : roundUpPage n < 2 ^ 64 := by
  unfold roundUpPage
  split
  · exact h
  · exact Nat.mod_lt _ (by decide)

/-! ## The host, page by page -/

section Host

variable {h : Host} {p n q : ℕ} {prot : BitVec 32} {object : Option (MemObject × ℕ)}

theorem Host.map_page :
    h.map (r.page p) n prot object (r.page q) = if p ≤ q ∧ q < p + n then
      ⟨prot, object.map fun o => (o.1, o.2 + (q - p))⟩ else h (r.page q) := by
  have hsub : r.page q - r.page p = q - p := by
    unfold Region.page
    omega
  simp only [Host.map, Region.page_le_page, Region.page_lt_page_add, hsub]

theorem Host.protect_page :
    h.protect (r.page p) n prot (r.page q)
      = if p ≤ q ∧ q < p + n then { h (r.page q) with prot := prot } else h (r.page q) := by
  simp only [Host.protect, Region.page_le_page, Region.page_lt_page_add]

@[simp] theorem Host.map_zero : h.map p 0 prot object = h := by
  funext x
  exact if_neg (by omega)

@[simp] theorem Host.protect_zero : h.protect p 0 prot = h := by
  funext x
  exact if_neg (by omega)

end Host

/-! ## Where the entries of a cage lie -/

/-- The map belongs to the region: its base, its size, and every entry inside, by its key and by
the bounds it names. -/
structure Laid [IntervalMap M VmmapEntry] (r : Region) (vm : Vmmap M) : Prop where
  base : vm.baseAddress = some r.base
  stop : vm.endAddress = defaultVmmapSize
  heap : vm.heapStart < 2 ^ 32
  keys : ∀ kv ∈ iter vm.entries, kv.1.last < defaultVmmapSize
  names : ∀ kv ∈ iter vm.entries, kv.2.endPage ≤ defaultVmmapSize

section Laid

variable [IntervalMap M VmmapEntry] [LawfulIntervalMap M] {vm vm' : Vmmap M} {page npages : ℕ}
  {prot maxprot flags : BitVec 32} {backing : MemoryBackingType} {remove : Bool}
  {fileOffset fileSize : ℤ} {cageId : ℕ}

section

variable (hl : Laid r vm)
include hl

/-- An update inside the region, or a removal anywhere, keeps the entries inside. -/
theorem Laid.update (hin : remove = false → page + npages ≤ defaultVmmapSize)
    (h : vm.update page npages prot maxprot flags backing remove fileOffset fileSize cageId
      = .ok vm') : Laid r vm' := by
  obtain ⟨hn, -, hvm⟩ := update_eq_ok.mp h
  refine ⟨hvm ▸ hl.base, hvm ▸ hl.stop, hvm ▸ hl.heap, ?_, ?_⟩ <;> rintro ⟨j, w⟩ hj <;>
    rcases (mem_iter_update h).mp hj with ⟨hremove, rfl, rfl⟩ | ⟨k, hk, hpiece⟩
  · have := hin hremove
    unfold Vmmap.region
    dsimp only
    omega
  · exact (hpiece.spec ((sorted_iter _).valid _ hk)).2.2.1.trans_lt (hl.keys _ hk)
  · exact hin hremove
  · exact hl.names (k, w) hk

theorem Laid.removeEntry (h : vm.removeEntry page npages = .ok vm') : Laid r vm' := by
  refine hl.update ?_ h
  exact nofun

theorem Laid.orKeep_update (hin : remove = false → page + npages ≤ defaultVmmapSize) :
    Laid r (vm.orKeep (vm.update page npages prot maxprot flags backing remove fileOffset fileSize
      cageId)) :=
  orKeep_induction hl (hl.update hin)

theorem Laid.changeProt (h : vm.changeProt page npages prot = some vm') : Laid r vm' := by
  obtain ⟨hlt, hvm⟩ := changeProt_eq_some.mp h
  refine ⟨hvm ▸ hl.base, hvm ▸ hl.stop, hvm ▸ hl.heap, ?_, ?_⟩ <;> intro x hx <;>
    rcases (mem_iter_changeProt h).mp hx with ⟨hx, -⟩ | ⟨y, hy, hov, hxy⟩
  · exact hl.keys x hx
  · obtain ⟨-, -, hlast⟩ := pieces_inside ((sorted_iter _).valid y hy) hlt hov hxy
    exact hlast.trans_lt (hl.keys y hy)
  · exact hl.names x hx
  · obtain ⟨-, -, hlast⟩ := pieces_inside ((sorted_iter _).valid y hy) hlt hov hxy
    rcases pieces_bounds hxy with ⟨-, rfl⟩ | ⟨-, hend⟩
    · exact hl.names x hy
    · exact hend.trans_le (Nat.succ_le_of_lt (hlast.trans_lt (hl.keys y hy)))

end

theorem Laid.resizeHeap (hl : Laid r s.vm) {newBrk : ℕ} (hnew : newBrk ≤ defaultVmmapSize)
    (hle : (heapEntry s).pageNum ≤ newBrk) : Laid r (resizeHeap s newBrk) := by
  have hremoved : Laid r (s.vm.orKeep
      (s.vm.removeEntry (heapEntry s).pageNum (heapEntry s).npages)) := hl.orKeep_update nofun
  exact hremoved.orKeep_update fun _ => by omega

end Laid

/-- Neither side has changed. -/
def Unchanged (s s' : State M) : Prop := s'.vm = s.vm ∧ s'.host = s.host

theorem Unchanged.refl (s : State M) : Unchanged s s := ⟨rfl, rfl⟩

theorem of_refuse (h : refuse s errno syscall message = some (x, s')) :
    s' = s := (Prod.mk.inj (some.inj h)).2.symm

theorem of_answer (h : answer s address = some (x, s')) :
    s' = s := (Prod.mk.inj (some.inj h)).2.symm

/-- A test that refuses: the call ends there and has changed nothing, or it goes on. -/
theorem of_ite_refuse {p : Prop} [Decidable p] {rest : Outcome M}
    (h : (if p then refuse s errno syscall message else rest) = some (x, s')) :
    s' = s ∨ (¬ p ∧ rest = some (x, s')) := by
  by_cases hp : p
  · rw [if_pos hp] at h
    exact .inl (of_refuse h)
  · rw [if_neg hp] at h
    exact .inr ⟨hp, h⟩

variable [IntervalMap M VmmapEntry]

/-- Both sides map `[page, page + npages)`, the host with `object`. -/
structure Maps (r : Region) (s s' : State M) (page npages : ℕ) (prot flags : BitVec 32)
    (backing : MemoryBackingType) (object : Option (MemObject × ℕ)) : Prop where
  pos : 0 < npages
  le : page + npages ≤ defaultVmmapSize
  host : s'.host = s.host.map (r.page page) npages prot object
  vm : ∃ maxprot fileOffset fileSize cageId, s.vm.update page npages prot maxprot flags backing
    false fileOffset fileSize cageId = .ok s'.vm

/-- Both sides unmap `[page, page + npages)`. -/
structure Unmaps (r : Region) (s s' : State M) (page npages : ℕ) : Prop where
  host : s'.host = s.host.map (r.page page) npages protNone none
  vm : s.vm.removeEntry page npages = .ok s'.vm

/-! ## `mmap` -/

/-- A fixed mapping does not wrap 64 bits, and a mapping of an open descriptor can read that
descriptor's flags. -/
def MmapOk (addr len : BitVec 64) (flags fildes : BitVec 32) (fd : FdView) : Prop :=
  (flags &&& mapFixed ≠ 0 → addr.toNat % 2 ^ 32 + roundUpPage len.toNat < 2 ^ 64) ∧
  (flags &&& mapAnonymous ≠ 0 ∨ (fildes ≠ -1 ∧ fd.file = none) ∨ 0 ≤ fd.getfl.toInt)

instance (addr len : BitVec 64) (flags fildes : BitVec 32) (fd : FdView) :
    Decidable (MmapOk addr len flags fildes fd) := inferInstanceAs (Decidable (_ ∧ _))

theorem or_fixed_and_anonymous (flags : BitVec 32) :
    (flags ||| mapFixed) &&& mapAnonymous = flags &&& mapAnonymous := by
  rw [BitVec.and_comm, BitVec.and_or_distrib_left, BitVec.and_comm mapAnonymous mapFixed]
  simp [mapFixed, mapAnonymous, BitVec.and_comm]

omit [IntervalMap M VmmapEntry] in
theorem mapObject_isSome {flags : BitVec 32} {file : Option ℕ} {off : ℕ} :
    (mapObject s flags file off).isSome ↔ flags &&& mapShared ≠ 0 := by
  unfold mapObject
  split
  · simp_all
  · cases file <;> simp_all

section Mmap

variable {addr len off : BitVec 64} {prot flags fildes : BitVec 32} {fd : FdView}
  {x : Except SyscallError (BitVec 32)}

variable {roundedLength useraddr a l : ℕ}

/-- Where a mapping goes: to the address asked for if it is fixed, else to free pages. -/
theorem mapAddress_cases [LawfulIntervalMap M] (hstop : s.vm.endAddress = defaultVmmapSize)
    (h : mapAddress s a flags roundedLength = some (some useraddr)) :
    (flags &&& mapFixed ≠ 0 ∧ useraddr = a % 2 ^ 32) ∨
      ∃ start, useraddr = start * pageSize ∧
        start + roundedLength / pageSize % 2 ^ 32 ≤ defaultVmmapSize ∧
        0 < roundedLength / pageSize % 2 ^ 32 ∧
        ∀ q, start ≤ q → q < start + roundedLength / pageSize % 2 ^ 32 →
          s.vm.findPage q = none := by
  unfold mapAddress at h
  split at h
  · obtain ⟨space, hspace, h⟩ := map_eq_some_iff.mp h
    obtain ⟨i, rfl, rfl⟩ := map_eq_some_iff.mp h
    obtain ⟨start, hfind⟩ : ∃ start,
        s.vm.findMapSpaceFrom start (roundedLength / pageSize % 2 ^ 32) 1 = some (some i) := by
      split at hspace <;> exact ⟨_, hspace⟩
    obtain ⟨hpos, hsize, -, hlast, hfree⟩ := findMapSpaceFrom_free (hstop ▸ by decide)
      (by rw [u32Max_eq]; omega) hfind
    rw [hstop, defaultVmmapSize_eq] at hlast
    refine .inr ⟨i.start, ?_, ?_, hpos, fun q hle hlt => hfree q ⟨hle, by omega⟩⟩
    · rw [pageSize_eq]
      omega
    · rw [defaultVmmapSize_eq]
      omega
  · next hf => exact .inl ⟨hf, (some.inj (some.inj h)).symm⟩

/-- The address of a mapping is a page of the cage, and does not wrap when the length is added. -/
theorem mapAddress_spec [LawfulIntervalMap M] (hl : Laid r s.vm) (ha : a % pageSize = 0)
    (hlen : roundedLength % pageSize = 0) (hlt : roundedLength < 2 ^ 64)
    (hfixed : flags &&& mapFixed ≠ 0 → a % 2 ^ 32 + roundedLength < 2 ^ 64)
    (h : mapAddress s a flags roundedLength = some (some useraddr)) :
    useraddr % pageSize = 0 ∧ useraddr + roundedLength < 2 ^ 64 := by
  rcases mapAddress_cases hl.stop h with ⟨hf, rfl⟩ | ⟨start, rfl, hle, hpos, -⟩
  · have := hfixed hf
    rw [pageSize_eq] at *
    omega
  · -- found space has no more pages than the region
    rw [pageSize_eq, defaultVmmapSize_eq] at *
    omega

section

variable (ha : useraddr % pageSize = 0) (hlen : roundedLength % pageSize = 0)
  (hpos : roundedLength ≠ 0) (hle : useraddr + roundedLength ≤ 2 ^ 32)
include ha hlen hpos hle

theorem Maps.of_addMapping {maxprot : BitVec 32} {backing : MemoryBackingType}
    {object : Option (MemObject × ℕ)} {s₁ : State M} (hvm : s₁.vm = s.vm)
    (hhost : s₁.host
      = s.host.map (r.page (useraddr / pageSize)) (roundedLength / pageSize) prot object) :
    Maps r s (addMapping s₁ useraddr l roundedLength prot maxprot flags backing off)
      (useraddr / pageSize) (roundedLength / pageSize) prot flags backing object := by
  have hn : 0 < roundedLength / pageSize := by
    rw [pageSize_eq] at *
    omega
  have hp : useraddr / pageSize + roundedLength / pageSize ≤ 2 ^ 20 := by
    rw [pageSize_eq] at *
    omega
  have hmod : roundedLength / pageSize % 2 ^ 32 = roundedLength / pageSize :=
    Nat.mod_eq_of_lt (((Nat.le_add_left _ _).trans hp).trans_lt (by decide))
  refine ⟨hn, hp, hhost, maxprot, off.toInt, (BitVec.ofNat 64 l).toInt, s₁.cageId, ?_⟩
  have hacc : Vmmap.Accepts (useraddr / pageSize) (roundedLength / pageSize) :=
    ⟨hn, hp.trans (by decide)⟩
  rw [← hvm]
  simp only [addMapping, hmod]
  exact update_eq_orKeep hacc

/-- **The mapping itself**: an error that changes nothing, or both sides map the range. -/
theorem mapAt_effect
    (hfd : flags &&& mapAnonymous ≠ 0 ∨ (fildes ≠ -1 ∧ fd.file = none) ∨ 0 ≤ fd.getfl.toInt)
    (h : mapAt s useraddr (useraddr + r.base) l roundedLength prot flags fildes off fd
      = some (x, s')) :
    Unchanged s s' ∨ ∃ page npages backing object, ¬ backing.IsSharedMemory ∧
      (object.isSome ↔ flags &&& mapShared ≠ 0) ∧
      Maps r s s' page npages prot flags backing object := by
  unfold mapAt at h
  dsimp only at h
  split at h
  · cases h
    exact .inl (Unchanged.refl s)
  · next s₁ hinner =>
    obtain ⟨file, hfile, rfl⟩ := map_eq_some_iff.mp hinner
    obtain ⟨result, -, h⟩ := bind_eq_some_iff.mp h
    rw [r.div_pageSize] at h
    split at h
    · exact absurd h nofun
    · split at h
      · obtain rfl := of_answer h
        exact .inr ⟨_, _, _, _, id, mapObject_isSome,
          Maps.of_addMapping ha hlen hpos hle rfl rfl⟩
      · next hanon =>
        split at h
        · -- a descriptor that translates answers `F_GETFL`
          next hneg =>
          rcases hfd with hfd | ⟨hfildes, hnone⟩ | hfd
          · exact absurd hfd hanon
          · rw [if_neg hanon, if_neg hfildes, hnone] at hfile
            exact absurd hfile nofun
          · omega
        · obtain rfl := of_answer h
          exact .inr ⟨_, _, _, _, id, mapObject_isSome,
            Maps.of_addMapping ha hlen hpos hle rfl rfl⟩

end

/-- …so it changes the host, and at most adds an entry. -/
theorem mapAt_reaches {sysaddr : ℕ}
    (h : mapAt s useraddr sysaddr l roundedLength prot flags fildes off fd = some (x, s')) :
    ∃ host nextObject, let s₁ := { s with host, nextObject }
      s' = s₁ ∨ ∃ maxprot backing, ¬ backing.IsSharedMemory ∧
        s' = addMapping s₁ useraddr l roundedLength prot maxprot flags backing off := by
  unfold mapAt at h
  dsimp only at h
  split at h
  · cases h
    exact ⟨_, _, .inl rfl⟩
  next s₁ hinner =>
  obtain ⟨file, -, rfl⟩ := map_eq_some_iff.mp hinner
  obtain ⟨result, -, h⟩ := bind_eq_some_iff.mp h
  split at h
  · exact absurd h nofun
  split at h
  · exact ⟨_, _, .inr ⟨_, _, id, of_answer h⟩⟩
  rcases of_ite_refuse h with rfl | ⟨-, h⟩
  · exact ⟨_, _, .inl rfl⟩
  · exact ⟨_, _, .inr ⟨_, _, id, of_answer h⟩⟩

/-- `mmap` fails or does nothing, or gets as far as the mapping itself. -/
theorem mmapIf_reaches {granted : Bool}
    (h : mmapIf granted s addr len prot flags fildes off fd = some (x, s')) :
    s' = s ∨ granted = true ∧ ∃ useraddr ∈ mapsAt s addr len flags off, ∃ sysaddr,
      addr.toNat % pageSize = 0 ∧
      mapAddress s addr.toNat flags (roundUpPage len.toNat) = some (some useraddr) ∧
      (useraddr + roundUpPage len.toNat) % 2 ^ 64 ≤ 2 ^ 32 ∧
      s.vm.userToSys useraddr = some sysaddr ∧ roundUpPage len.toNat ≠ 0 ∧
      mapAt s useraddr sysaddr len.toNat (roundUpPage len.toNat) prot (flags ||| mapFixed) fildes
        off fd = some (x, s') := by
  rcases of_ite_refuse h with hs | ⟨hhuge, h⟩
  · exact .inl hs
  rcases of_ite_refuse h with hs | ⟨haddr, h⟩
  · exact .inl hs
  rcases of_ite_refuse h with hs | ⟨hneg, h⟩
  · exact .inl hs
  rcases of_ite_refuse h with hs | ⟨hoff, h⟩
  · exact .inl hs
  obtain ⟨found, hfound, h⟩ := bind_eq_some_iff.mp h
  cases found with
  | none => exact .inl (of_refuse h)
  | some useraddr =>
    rcases of_ite_refuse h with hs | ⟨hle, h⟩
    · exact .inl hs
    rcases of_ite_refuse h with hs | ⟨hkind, h⟩
    · exact .inl hs
    obtain ⟨sysaddr, hsys, h⟩ := bind_eq_some_iff.mp h
    split at h
    · exact .inl (of_answer h)
    next hpos =>
    have hat : useraddr ∈ mapsAt s addr len flags off := by
      unfold mapsAt
      rw [if_neg (by tauto), hfound]
      exact filter_eq_some_iff.mpr ⟨rfl, decide_eq_true ⟨not_lt.mp hle, hkind⟩⟩
    cases granted with
    | true =>
      exact .inr ⟨rfl, useraddr, hat, sysaddr, roundUpPage_eq_self.mp (not_not.mp haddr), hfound,
        not_lt.mp hle, hsys, hpos, h⟩
    | false =>
      cases h
      exact .inl rfl

/-- **What `mmap` can do**: change nothing, or map one range on both sides. -/
theorem mmap_effect [LawfulIntervalMap M] (hl : Laid r s.vm)
    (hok : MmapOk addr len flags fildes fd)
    (h : mmap s addr len prot flags fildes off fd = some (x, s')) :
    Unchanged s s' ∨ ∃ page npages backing object, ¬ backing.IsSharedMemory ∧
      (object.isSome ↔ (flags ||| mapFixed) &&& mapShared ≠ 0) ∧
      Maps r s s' page npages prot (flags ||| mapFixed) backing object := by
  rcases mmapIf_reaches (mmapIf_true s .. ▸ h) with
    rfl | ⟨-, useraddr, -, sysaddr, haddr, hfound, hle, hsys, hpos, h⟩
  · exact .inl (Unchanged.refl _)
  · obtain ⟨ha, hsum⟩ := mapAddress_spec hl haddr (roundUpPage_mod _) (roundUpPage_lt len.isLt)
      hok.1 hfound
    rw [Nat.mod_eq_of_lt hsum] at hle
    obtain ⟨-, rfl⟩ := (userToSys_eq_some hl.base).mp hsys
    refine mapAt_effect ha (roundUpPage_mod _) hpos hle ?_ h
    rw [or_fixed_and_anonymous]
    exact hok.2

end Mmap

/-! ## `munmap` -/

/-- The request meets no accessible mapping of a System V segment. -/
def MunmapOk (s : State M) (addr len : BitVec 64) : Prop :=
  ∀ useraddr ∈ s.vm.sysToUser addr.toNat, ∀ kv ∈ iter s.vm.entries,
    kv.2.backing.IsSharedMemory → kv.2.prot ≠ protNone →
      ¬ (kv.1.start < useraddr / pageSize + roundUpPage len.toNat / pageSize % 2 ^ 32 ∧
        useraddr / pageSize ≤ kv.1.last)

instance (s : State M) (addr len : BitVec 64) : Decidable (MunmapOk s addr len) :=
  inferInstanceAs (Decidable (∀ useraddr ∈ _, _))

omit [IntervalMap M VmmapEntry] in
/-- The host after the calls of an unmap: what is in a range is gone. -/
theorem unmapRanges_page (hb : vm.baseAddress = some r.base) {ranges : List (ℕ × ℕ)} {h h' : Host}
    (hlt : ∀ x ∈ ranges, x.1 < defaultVmmapSize) (hrun : unmapRanges vm h ranges = some h')
    (q : ℕ) :
    h' (r.page q) = if ∃ x ∈ ranges, x.1 ≤ q ∧ q < x.2 then ⟨protNone, none⟩
      else h (r.page q) := by
  unfold unmapRanges at hrun
  induction ranges generalizing h with
  | nil => simp [some.inj hrun]
  | cons x ranges ih =>
    rw [foldlM_cons] at hrun
    obtain ⟨h₁, hx, hrest⟩ := bind_eq_some_iff.mp hrun
    obtain ⟨sysaddr, hsys, rfl⟩ := map_eq_some_iff.mp hx
    obtain ⟨-, rfl⟩ := (userToSys_eq_some hb).mp hsys
    obtain ⟨hx1, hlt⟩ := forall_mem_cons.mp hlt
    have hpage : x.1 * pageSize % 2 ^ 32 / pageSize = x.1 := by
      rw [pageSize_eq]
      rw [defaultVmmapSize_eq] at hx1
      omega
    rw [ih hlt hrest, r.div_pageSize, hpage, Host.map_page]
    by_cases hin : ∃ y ∈ ranges, y.1 ≤ q ∧ q < y.2
    · rw [if_pos hin, if_pos]
      obtain ⟨y, hy, hq⟩ := hin
      exact ⟨y, mem_cons_of_mem _ hy, hq⟩
    · simp only [hin, if_false, exists_mem_cons_iff, or_false, map_none]
      refine if_congr ?_ rfl rfl
      omega

section Munmap

variable [LawfulIntervalMap M] {addr len : BitVec 64} {x : Except SyscallError (BitVec 32)}

omit [LawfulIntervalMap M] in
/-- `munmap` fails, or removes the pages it counts after its host calls. -/
theorem munmap_reaches (h : munmap s addr len = some (x, s')) :
    s' = s ∨ ∃ useraddr ∈ s.vm.sysToUser addr.toNat,
      let page := useraddr / pageSize
      let npages := roundUpPage len.toNat / pageSize % 2 ^ 32
      page + npages ≤ u32Max ∧ ∃ host,
        unmapRanges s.vm s.host (s.vm.findUnmappableRanges page (page + npages)) = some host ∧
        s' = { s with vm := s.vm.orKeep (s.vm.removeEntry page npages), host } := by
  rcases of_ite_refuse h with rfl | ⟨-, h⟩
  · exact .inl rfl
  rcases of_ite_refuse h with rfl | ⟨-, h⟩
  · exact .inl rfl
  obtain ⟨useraddr, huser, h⟩ := bind_eq_some_iff.mp h
  dsimp only at h
  split at h
  · exact .inl (of_refuse h)
  next reqEnd hend =>
  obtain ⟨hle, rfl⟩ := checkedAdd32_eq_some.mp hend
  obtain ⟨host, hhost, h⟩ := bind_eq_some_iff.mp h
  rw [Nat.add_sub_cancel_left] at h
  exact .inr ⟨useraddr, huser, hle, host, hhost, of_answer h⟩

/-- **What `munmap` can do**: change nothing, or remove a range from the vmmap and unmap the part of
it that no segment backs. -/
theorem munmap_effect (hl : Laid r s.vm) (h : munmap s addr len = some (x, s')) :
    Unchanged s s' ∨ ∃ useraddr ∈ s.vm.sysToUser addr.toNat, ∃ page npages,
      page = useraddr / pageSize ∧ npages = roundUpPage len.toNat / pageSize % 2 ^ 32 ∧
      page + npages ≤ u32Max ∧ s'.vm = s.vm.orKeep (s.vm.removeEntry page npages) ∧
      ∀ q, s'.host (r.page q) =
        if (page ≤ q ∧ q < page + npages) ∧
            ∃ e, s.vm.findPage q = some e ∧ ¬ e.backing.IsSharedMemory
          then ⟨protNone, none⟩ else s.host (r.page q) := by
  rcases munmap_reaches h with rfl | ⟨useraddr, huser, hle, host, hhost, rfl⟩
  · exact .inl (Unchanged.refl _)
  refine .inr ⟨useraddr, huser, _, _, rfl, rfl, hle, rfl, fun q => ?_⟩
  have hkeys : ∀ kv ∈ iter s.vm.entries, kv.1.last < u32Max := fun kv hkv =>
    (hl.keys kv hkv).trans (by decide)
  refine (unmapRanges_page hl.base
    (fun y hy => (findUnmappableRanges_bounds hl.keys hy).2.2.1) hhost q).trans ?_
  simp only [mem_findUnmappableRanges hkeys]

end Munmap

/-! ## `mprotect` -/

/-- The protection of the entry over a page, none where there is no entry. -/
def pageProt (vm : Vmmap M) (q : ℕ) : BitVec 32 :=
  ((vm.findPage q).map VmmapEntry.prot).getD protNone

theorem pageProt_of_findPage {e : VmmapEntry} (h : vm.findPage q = some e) :
    pageProt vm q = e.prot := by
  unfold pageProt
  rw [h]
  rfl

/-- The protections `mprotect` accepts. -/
def ValidProt (prot : BitVec 32) : Prop :=
  prot &&& ~~~(protRead ||| protWrite ||| protExec ||| protNone) = 0 ∧ prot &&& protExec = 0

instance (prot : BitVec 32) : Decidable (ValidProt prot) := inferInstanceAs (Decidable (_ ∧ _))

/-- Every page of an accepted request has the protection already, or has an entry — and is among
the pages whose number survives in 32 bits. -/
def MprotectOk (s : State M) (addr len : BitVec 64) (prot : BitVec 32) : Prop :=
  ValidProt prot → addr.toNat % pageSize = 0 →
    ∀ useraddr ∈ s.vm.sysToUser addr.toNat, ∀ i < roundUpPage len.toNat / pageSize,
      useraddr / pageSize + i < defaultVmmapSize →
        pageProt s.vm (useraddr / pageSize + i) = prot ∨
          ((s.vm.findPage (useraddr / pageSize + i)).isSome ∧
            i < roundUpPage len.toNat / pageSize % 2 ^ 32)

instance (s : State M) (addr len : BitVec 64) (prot : BitVec 32) :
    Decidable (MprotectOk s addr len prot) :=
  inferInstanceAs (Decidable (_ → _ → ∀ useraddr ∈ _, _))

section Mprotect

variable {addr len : BitVec 64} {prot : BitVec 32} {x : Except SyscallError (BitVec 32)}

theorem mprotect_reaches (h : mprotect s addr len prot = some (x, s')) :
    s' = s ∨ ValidProt prot ∧ addr.toNat % pageSize = 0 ∧
      ∃ useraddr ∈ s.vm.sysToUser addr.toNat, ∃ vm,
        s.vm.changeProt (useraddr / pageSize) (roundUpPage len.toNat / pageSize % 2 ^ 32) prot
          = some vm ∧
        s' = { s with
          vm
          host := s.host.protect (addr.toNat / pageSize) (roundUpPage len.toNat / pageSize) prot }
    := by
  rcases of_ite_refuse h with rfl | ⟨hvalid, h⟩
  · exact .inl rfl
  rcases of_ite_refuse h with rfl | ⟨hexec, h⟩
  · exact .inl rfl
  rcases of_ite_refuse h with rfl | ⟨haddr, h⟩
  · exact .inl rfl
  split at h
  · next hzero =>
    refine .inl ((of_answer h).trans ?_)
    simp only [hzero, Nat.zero_div, Host.protect_zero]
  · obtain ⟨useraddr, huser, h⟩ := bind_eq_some_iff.mp h
    obtain ⟨vm, hvm, h⟩ := bind_eq_some_iff.mp h
    exact .inr ⟨⟨not_not.mp hvalid, not_not.mp hexec⟩, not_not.mp haddr, useraddr, huser, vm, hvm,
      of_answer h⟩

/-- **What `mprotect` can do**: change nothing, or protect every page of a range on the host and
the mapped ones of it in the vmmap. -/
theorem mprotect_effect (hl : Laid r s.vm) (h : mprotect s addr len prot = some (x, s')) :
    Unchanged s s' ∨ (ValidProt prot ∧ addr.toNat % pageSize = 0 ∧
      ∃ useraddr ∈ s.vm.sysToUser addr.toNat,
        s'.host = s.host.protect (r.page (useraddr / pageSize)) (roundUpPage len.toNat / pageSize)
          prot ∧
        s.vm.changeProt (useraddr / pageSize) (roundUpPage len.toNat / pageSize % 2 ^ 32) prot
          = some s'.vm) := by
  rcases mprotect_reaches h with rfl | ⟨hvalid, haddr, useraddr, huser, vm, hvm, rfl⟩
  · exact .inl (Unchanged.refl _)
  · obtain ⟨-, hsys⟩ := (sysToUser_eq_some hl.base).mp huser
    refine .inr ⟨hvalid, haddr, useraddr, huser, ?_, hvm⟩
    simp only [hsys, r.div_pageSize]

end Mprotect

/-! ## `brk` -/

/-- The call returns before it touches the map: it asks for the break, or is refused. -/
def BrkReturns (s : State M) (newBrk : BitVec 32) : Prop :=
  newBrk = 0 ∨ brkPage newBrk < s.vm.heapStart ∨
  (oldBrkPage s < brkPage newBrk ∧
    s.vm.checkExistingMapping (oldBrkPage s) (brkPage newBrk - oldBrkPage s) 0 = some true)

/-- The call returns early, or the heap ends inside the region before and after, and what stays of
it has the heap's protection throughout. -/
def BrkOk (s : State M) (newBrk : BitVec 32) : Prop :=
  BrkReturns s newBrk ∨
  (oldBrkPage s < defaultVmmapSize ∧ brkPage newBrk < defaultVmmapSize ∧
    ∀ i < min (oldBrkPage s) (brkPage newBrk) - s.vm.heapStart,
      pageProt s.vm (s.vm.heapStart + i) = (heapEntry s).prot)

instance (s : State M) (newBrk : BitVec 32) : Decidable (BrkReturns s newBrk) :=
  inferInstanceAs (Decidable (_ ∨ _))

instance (s : State M) (newBrk : BitVec 32) : Decidable (BrkOk s newBrk) :=
  inferInstanceAs (Decidable (_ ∨ _))

omit [IntervalMap M VmmapEntry] in
theorem moveBreak_eq {newBrk : ℕ} (h : moveBreak s oldBrk newBrk heap = some s') :
    ∃ host nextObject, s' = { s with host, nextObject } := by
  obtain ⟨_, -, h⟩ := bind_eq_some_iff.mp h
  obtain ⟨_, -, h⟩ := bind_eq_some_iff.mp h
  split at h
  · obtain ⟨_, -, rfl⟩ := map_eq_some_iff.mp h
    exact ⟨_, _, rfl⟩
  split at h
  · obtain ⟨_, -, rfl⟩ := map_eq_some_iff.mp h
    exact ⟨_, _, rfl⟩
  · cases h
    exact ⟨_, _, rfl⟩

omit [IntervalMap M VmmapEntry] in
/-- The host calls of a moved break: between the two ends, and in one direction only. -/
theorem moveBreak_host (hb : s.vm.baseAddress = some r.base) {newBrk : ℕ}
    (hold : oldBrk < defaultVmmapSize) (hnew : newBrk < defaultVmmapSize)
    (h : moveBreak s oldBrk newBrk heap = some s') :
    s'.vm = s.vm ∧ s'.host = (s.host.map (r.page newBrk) (oldBrk - newBrk) protNone none).map
      (r.page oldBrk) (newBrk - oldBrk) heap.prot
      (mapObject s (heap.flags ||| mapFixed) none 0) := by
  obtain ⟨oldEnd, hoe, h⟩ := bind_eq_some_iff.mp h
  obtain ⟨newEnd, hne, h⟩ := bind_eq_some_iff.mp h
  obtain ⟨-, rfl⟩ := (userToSys_eq_some hb).mp hoe
  obtain ⟨-, rfl⟩ := (userToSys_eq_some hb).mp hne
  rw [defaultVmmapSize_eq] at hold hnew
  have hpages : ∀ a b : ℕ, a < 2 ^ 20 → (a - b) * pageSize % 2 ^ 32 / pageSize = a - b := by
    intro a b ha
    rw [pageSize_eq]
    omega
  have hpage : ∀ a : ℕ, a * pageSize / pageSize = a := fun a => Nat.mul_div_cancel a (by decide)
  split at h
  · next hlt =>
    obtain ⟨file, hfile, rfl⟩ := map_eq_some_iff.mp h
    cases hfile
    refine ⟨rfl, ?_⟩
    simp only [r.div_pageSize, hpages _ _ hnew, hpage, Nat.sub_eq_zero_of_le hlt.le, Host.map_zero]
  · split at h
    · next hlt =>
      obtain ⟨file, hfile, rfl⟩ := map_eq_some_iff.mp h
      cases hfile
      refine ⟨rfl, ?_⟩
      simp only [r.div_pageSize, hpages _ _ hold, hpage, Nat.sub_eq_zero_of_le hlt.le,
        Host.map_zero, mapObject]
      rfl
    · cases h
      obtain rfl : oldBrk = newBrk := by omega
      simp

section Brk

variable [LawfulIntervalMap M] {newBrk : BitVec 32} {x : Except SyscallError (BitVec 32)}

omit [LawfulIntervalMap M] in
/-- `brk` returns early, or resizes the heap's entry — and then fails, or makes its host calls. -/
theorem brk_reaches (h : brk s newBrk = some (x, s')) :
    s' = s ∨ (¬ BrkReturns s newBrk ∧ s.vm.heapStart ≤ brkPage newBrk ∧
      (heapEntry s).pageNum = s.vm.heapStart ∧
      ((s' = { s with vm := resizeHeap s (brkPage newBrk) } ∧
          (u32Max < oldBrkPage s * pageSize ∨ u32Max < brkPage newBrk * pageSize)) ∨
        moveBreak { s with vm := resizeHeap s (brkPage newBrk) } (oldBrkPage s) (brkPage newBrk)
          (heapEntry s) = some s')) := by
  unfold brk at h
  dsimp only at h
  split at h
  · exact absurd h nofun
  next hstart =>
  split at h
  · exact .inl (of_answer h)
  next hzero =>
  rcases of_ite_refuse h with hs | ⟨hbelow, h⟩
  · exact .inl hs
  obtain ⟨taken, htaken, h⟩ := bind_eq_some_iff.mp h
  cases taken with
  | true => exact .inl (of_refuse h)
  | false =>
    have hgoes : ¬ BrkReturns s newBrk := by
      rintro (hzero' | hbelow' | ⟨hlt, htrue⟩)
      · exact hzero hzero'
      · exact hbelow hbelow'
      · rw [if_pos hlt, htrue] at htaken
        exact absurd htaken nofun
    refine .inr ⟨hgoes, not_lt.mp hbelow, not_not.mp hstart, ?_⟩
    dsimp only at h
    split at h
    · next hlate => exact .inl ⟨of_refuse h, hlate⟩
    · obtain ⟨s₁, hmove, h⟩ := bind_eq_some_iff.mp h
      obtain rfl := of_answer h
      exact .inr hmove

/-- **What `brk` can do**: change nothing, or move the end of the heap's entry and map or unmap on
the host what lies between the two ends. -/
theorem brk_effect (hl : Laid r s.vm) (hok : BrkOk s newBrk) (h : brk s newBrk = some (x, s')) :
    Unchanged s s' ∨ (¬ BrkReturns s newBrk ∧ oldBrkPage s < defaultVmmapSize ∧
      brkPage newBrk < defaultVmmapSize ∧ s.vm.heapStart ≤ brkPage newBrk ∧
      (heapEntry s).pageNum = s.vm.heapStart ∧ s'.vm = resizeHeap s (brkPage newBrk) ∧
      ∃ object, (object.isSome ↔ ((heapEntry s).flags ||| mapFixed) &&& mapShared ≠ 0) ∧
        s'.host = (s.host.map (r.page (brkPage newBrk)) (oldBrkPage s - brkPage newBrk)
          protNone none).map (r.page (oldBrkPage s)) (brkPage newBrk - oldBrkPage s)
          (heapEntry s).prot object) := by
  rcases brk_reaches h with rfl | ⟨hgoes, hle, hstart, h⟩
  · exact .inl (Unchanged.refl _)
  · obtain ⟨hold, hnew, -⟩ := hok.resolve_left hgoes
    rcases h with ⟨-, hlate⟩ | hmove
    · rw [defaultVmmapSize_eq] at hold hnew
      rw [u32Max_eq, pageSize_eq] at hlate
      omega
    · obtain ⟨hvm, hhost⟩ := moveBreak_host
        (hl.resizeHeap hnew.le (hstart ▸ hle)).base hold hnew hmove
      exact .inr ⟨hgoes, hold, hnew, hle, hstart, hvm, _, mapObject_isSome, hhost⟩

end Brk

/-! ## `shmat` and `shmdt` -/

section Shm

variable {shmid shmaddr shmflg : BitVec 32} {x : Except SyscallError (BitVec 32)}

/-- The segment is mapped at free pages and recorded under their host address. -/
structure Attaches (r : Region) (s s' : State M) (shmid shmflg : BitVec 32)
    (segment : ShmSegment) (useraddr : ℕ) : Prop where
  found : s.shmtable shmid = some segment
  aligned : useraddr % pageSize = 0
  le : useraddr + segment.size ≤ 2 ^ 32
  free : ∀ q, useraddr / pageSize ≤ q → q < useraddr / pageSize + segment.size / pageSize →
    s.vm.findPage q = none
  vm : s.vm.update (useraddr / pageSize) (segment.size / pageSize) (shmProt shmflg)
    (shmProt shmflg) 0 (.sharedMemory (shmid.signExtend 64).toNat) false 0 segment.size s.cageId
      = .ok s'.vm
  host : s'.host = s.host.map (r.page (useraddr / pageSize)) (segment.size / pageSize)
    (shmProt shmflg) (some (.segment shmid, 0))
  revShm : s'.revShm = s.revShm ++ [(useraddr + r.base, shmid)]
  shmtable : s'.shmtable = update s.shmtable shmid (some (segment.attach s.cageId))

/-- The pages `shmat` finds for a segment that fits behind them are free. -/
theorem shmat_free [LawfulIntervalMap M] (hstop : s.vm.endAddress = defaultVmmapSize)
    {size useraddr : ℕ} {space : Interval} (hsize : size % pageSize = 0)
    (hle : space.start * pageSize % 2 ^ 32 + size ≤ 2 ^ 32)
    (h : (if useraddr = 0 then s.vm.findMapSpace (size / pageSize % 2 ^ 32) 1
      else s.vm.findMapSpaceWithHint (size % 2 ^ 32 / pageSize) 1 (useraddr / pageSize))
        = some (some space)) :
    ∀ q, space.start * pageSize % 2 ^ 32 / pageSize ≤ q →
      q < space.start * pageSize % 2 ^ 32 / pageSize + size / pageSize →
      s.vm.findPage q = none := by
  have hend : s.vm.endAddress ≤ u32Max := hstop ▸ by decide
  obtain ⟨start, numPages, hnum, hfind⟩ : ∃ start numPages,
      (numPages = size / pageSize % 2 ^ 32 ∨ numPages = size % 2 ^ 32 / pageSize) ∧
        s.vm.findMapSpaceFrom start numPages 1 = some (some space) := by
    split at h
    · exact ⟨_, _, .inl rfl, h⟩
    · exact ⟨_, _, .inr rfl, h⟩
  rw [pageSize_eq] at *
  obtain ⟨hpos, hpages, -, hlast, hfree⟩ :=
    findMapSpaceFrom_free hend (by rw [u32Max_eq]; omega) hfind
  rw [hstop, defaultVmmapSize_eq] at hlast
  exact fun q hq hq' => hfree q ⟨by omega, by omega⟩

section

variable (hbase : s.vm.baseAddress = some r.base) (hstop : s.vm.endAddress = defaultVmmapSize)
  (h : shmat s shmid shmaddr shmflg = some (x, s'))
include hbase hstop h

/-- **What `shmat` can do**: fail and change nothing, or attach a segment and return its address. -/
theorem shmat_cases [LawfulIntervalMap M] :
    (s' = s ∧ ∃ e, x = .error e) ∨ ∃ segment useraddr, x = .ok (BitVec.ofNat 32 useraddr) ∧
      Attaches r s s' shmid shmflg segment useraddr := by
  have failed : ∀ {errno message}, refuse s errno "shmat" message = some (x, s') →
      s' = s ∧ ∃ e, x = .error e := by
    intro errno message hrefuse
    cases hrefuse
    exact ⟨rfl, _, rfl⟩
  unfold shmat at h
  split at h
  · exact .inl (failed h)
  next segment hsegment =>
  dsimp only at h
  split at h
  · exact .inl (failed h)
  obtain ⟨found, hfound, h⟩ := bind_eq_some_iff.mp h
  cases found with
  | none => exact .inl (failed h)
  | some space =>
    have hsize := segment.size_lt
    have hround : roundUpPage segment.size = segment.size :=
      roundUpPage_eq_self.mpr segment.size_aligned
    dsimp only at h
    rw [hround] at h hfound
    rw [Nat.mod_eq_of_lt (by omega)] at h
    split at h
    · exact .inl (failed h)
    next hle =>
    obtain ⟨sysaddr, hsys, h⟩ := bind_eq_some_iff.mp h
    obtain ⟨-, rfl⟩ := (userToSys_eq_some hbase).mp hsys
    obtain ⟨result, -, h⟩ := bind_eq_some_iff.mp h
    split at h
    · exact absurd h nofun
    split at h
    · exact absurd h nofun
    next vm hvm =>
    cases h
    have hpages : segment.size / pageSize % 2 ^ 32 = segment.size / pageSize := by
      rw [pageSize_eq]
      omega
    rw [hpages] at hvm
    refine .inr ⟨segment, _, rfl, hsegment, ?_, not_lt.mp hle,
      shmat_free hstop segment.size_aligned (not_lt.mp hle) hfound, hvm, ?_, rfl, rfl⟩
    · rw [pageSize_eq]
      omega
    · simp only [shmatHelper, r.div_pageSize]

theorem shmat_attaches [LawfulIntervalMap M] :
    s' = s ∨ ∃ segment useraddr, Attaches r s s' shmid shmflg segment useraddr := by
  rcases shmat_cases hbase hstop h with ⟨hs, -⟩ | ⟨segment, useraddr, -, ha⟩
  · exact .inl hs
  · exact .inr ⟨segment, useraddr, ha⟩

end

/-- …which maps the segment on both sides. -/
theorem shmat_effect [LawfulIntervalMap M] (hl : Laid r s.vm)
    (h : shmat s shmid shmaddr shmflg = some (x, s')) :
    Unchanged s s' ∨ ∃ page npages,
      Maps r s s' page npages (shmProt shmflg) 0 (.sharedMemory (shmid.signExtend 64).toNat)
        (some (.segment shmid, 0)) := by
  rcases shmat_attaches hl.base hl.stop h with rfl | ⟨segment, useraddr, ha⟩
  · exact .inl (Unchanged.refl _)
  · obtain ⟨hpos, -, -⟩ := update_eq_ok.mp ha.vm
    refine .inr ⟨_, _, hpos, ?_, ha.host, _, _, _, _, ha.vm⟩
    have haligned := ha.aligned
    have hle := ha.le
    rw [defaultVmmapSize_eq]
    rw [pageSize_eq] at *
    omega

/-- The segment at the address is shorter than 2 GiB. -/
def ShmdtOk (s : State M) (shmaddr : BitVec 64) : Prop :=
  ∀ index ∈ s.revShm.findIdx? (fun val => val.1 = shmaddr.toNat), ∀ val ∈ s.revShm[index]?,
    ∀ segment ∈ s.shmtable val.2, segment.size < 2 ^ 31

instance (s : State M) (shmaddr : BitVec 64) : Decidable (ShmdtOk s shmaddr) :=
  inferInstanceAs (Decidable (∀ index ∈ _, ∀ val ∈ _, ∀ segment ∈ _, _))

/-- The segment recorded at the host address of `useraddr` is unmapped and forgotten. -/
structure Detaches (r : Region) (s s' : State M) (index : ℕ) (shmid : BitVec 32)
    (segment : ShmSegment) (useraddr : ℕ) : Prop where
  recorded : s.revShm[index]? = some (useraddr + r.base, shmid)
  found : s.shmtable shmid = some segment
  aligned : useraddr % pageSize = 0
  vm : s.vm.removeEntry (useraddr / pageSize) (segment.size / pageSize) = .ok s'.vm
  host : s'.host = s.host.map (r.page (useraddr / pageSize)) (segment.size / pageSize) protNone none
  revShm : s'.revShm = swapRemove s.revShm index
  shmtable : ∀ id seg, s'.shmtable id = some seg →
    ∃ seg₀, s.shmtable id = some seg₀ ∧ seg.size = seg₀.size

omit [IntervalMap M VmmapEntry] in
/-- The table after a detachment has the same segments, or one less. -/
theorem size_of_detached {cageid : ℕ} {segment segment' : ShmSegment} {shmid : BitVec 32}
    {rm : Prop} [Decidable rm] (hfound : s.shmtable shmid = some segment)
    (hdetach : segment.detach cageid = some segment') {id : BitVec 32} {seg : ShmSegment}
    (h : update s.shmtable shmid (if rm then none else some segment') id = some seg) :
    ∃ seg₀, s.shmtable id = some seg₀ ∧ seg.size = seg₀.size := by
  by_cases hid : id = shmid
  · subst hid
    rw [update_self] at h
    split at h
    · exact absurd h nofun
    · cases h
      unfold ShmSegment.detach at hdetach
      split at hdetach
      · exact absurd hdetach nofun
      · cases hdetach
        exact ⟨segment, hfound, rfl⟩
  · rw [update_of_ne hid] at h
    exact ⟨seg, h, rfl⟩

omit [IntervalMap M VmmapEntry] in
/-- What the helper does: fail, or take the attachment at the address away, but for the vmmap. -/
theorem shmdtHelper_cases (h : shmdtHelper s address = some (x, s')) :
    (s' = s ∧ ∃ e, x = .error e) ∨ ∃ index shmid segment,
      s.revShm.findIdx? (fun val => val.1 = address) = some index ∧
      s.revShm[index]? = some (address, shmid) ∧ s.shmtable shmid = some segment ∧
      x = .ok (BitVec.ofNat 32 segment.size) ∧ s'.vm = s.vm ∧
      s'.host = s.host.map (address / pageSize) (segment.size / pageSize) protNone none ∧
      s'.revShm = swapRemove s.revShm index ∧
      ∀ id seg, s'.shmtable id = some seg →
        ∃ seg₀, s.shmtable id = some seg₀ ∧ seg.size = seg₀.size := by
  unfold shmdtHelper at h
  split at h
  · cases h
    exact .inl ⟨rfl, _, rfl⟩
  next index hindex =>
  obtain ⟨⟨address', shmid⟩, hval, h⟩ := bind_eq_some_iff.mp h
  obtain ⟨segment, hsegment, h⟩ := bind_eq_some_iff.mp h
  obtain ⟨segment', hdetach, h⟩ := map_eq_some_iff.mp h
  cases h
  obtain ⟨hlt, heq, -⟩ := findIdx?_eq_some_iff_getElem.mp hindex
  obtain rfl : address' = address := by
    rw [getElem?_eq_getElem hlt] at hval
    rw [some.inj hval] at heq
    exact of_decide_eq_true heq
  exact .inr ⟨index, shmid, segment, hindex, hval, hsegment, rfl, rfl, rfl, rfl,
    fun id seg => size_of_detached hsegment hdetach⟩

theorem length_of_lt {n : ℕ} (h : n < 2 ^ 31) :
    (BitVec.ofNat 32 n).toNat = n ∧ ¬ (BitVec.ofNat 32 n).toInt < 0 := by
  have hn : (BitVec.ofNat 32 n).toNat = n := by
    rw [BitVec.toNat_ofNat]
    omega
  refine ⟨hn, ?_⟩
  rw [BitVec.toInt_eq_toNat_of_lt (by omega), hn]
  omega

section

variable {shmaddr : BitVec 64} (hok : ShmdtOk s shmaddr) (h : shmdt s shmaddr = some (x, s'))
include hok h

/-- **What `shmdt` can do**: change nothing, or detach the segment at the address. -/
theorem shmdt_detaches (hbase : s.vm.baseAddress = some r.base) :
    (s' = s ∧ ∃ e, x = .error e) ∨ ∃ index shmid segment useraddr,
      shmaddr.toNat = useraddr + r.base ∧ Detaches r s s' index shmid segment useraddr := by
  unfold shmdt at h
  split at h
  · cases h
    exact .inl ⟨rfl, _, rfl⟩
  next haligned =>
  obtain ⟨⟨y, s₁⟩, hhelper, h⟩ := bind_eq_some_iff.mp h
  rcases shmdtHelper_cases hhelper with ⟨rfl, e, rfl⟩ |
    ⟨index, shmid, segment, hindex, hval, hsegment, rfl, hvm₁, hhost, hrev, htable⟩
  · cases h
    exact .inl ⟨rfl, _, rfl⟩
  obtain ⟨hnat, hsign⟩ := length_of_lt (hok index hindex _ hval segment hsegment)
  dsimp only at h
  split at h
  · next hneg => exact absurd hneg hsign
  · obtain ⟨useraddr, huser, h⟩ := bind_eq_some_iff.mp h
    rw [hvm₁] at h huser
    obtain ⟨-, hsys⟩ := (sysToUser_eq_some hbase).mp huser
    rw [hnat] at h
    split at h
    · exact absurd h nofun
    next vm hvm =>
    obtain rfl := of_answer h
    have hbase' := r.base_aligned
    refine .inr ⟨index, shmid, segment, useraddr, hsys, hsys ▸ hval, hsegment, ?_, hvm, ?_, hrev,
      htable⟩
    · rw [pageSize_eq] at *
      omega
    · rw [hsys, r.div_pageSize] at hhost
      exact hhost

/-- …which unmaps it on both sides. -/
theorem shmdt_effect (hl : Laid r s.vm) :
    Unchanged s s' ∨ ∃ page npages, Unmaps r s s' page npages := by
  rcases shmdt_detaches hok h hl.base with ⟨rfl, -⟩ | ⟨_, _, _, _, -, hd⟩
  · exact .inl (Unchanged.refl _)
  · exact .inr ⟨_, _, hd.host, hd.vm⟩

end

end Shm

end LindWasm.Memory

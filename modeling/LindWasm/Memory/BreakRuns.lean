import LindWasm.Memory.Break

/-!
# Memory/BreakRuns — the break along a run

    brk(a) --> ok --> ⋯ mmap, munmap, mprotect ⋯ --> brk(0) = a ?

Nothing stores the break: `brk` reads it off the bounds in the entry over `heap_start`. A run
carries the last break that was set beside the cage, and `breakKept_run` says which steps leave the
two equal. A `mprotect` of a part of the heap does not: it splits the entry, and the break is then
the end of the first piece.
-/

namespace LindWasm.Memory

open IntervalMap LawfulOnValid LawfulIntervalMap Option List Vmmap

variable {M : Type*} [IntervalMap M VmmapEntry] {s s' : State M} {vm vm' : Vmmap M}

/-! ## Runs that remember the break -/

/-- The calls, each with the host's answer. -/
inductive HeapCall where
  | mmap (granted : Bool) (addr len : BitVec 64) (prot flags fildes : BitVec 32) (off : BitVec 64)
      (fd : FdView)
  | munmap (granted : ℕ) (addr len : BitVec 64)
  | mprotect (granted : Bool) (addr len : BitVec 64) (prot : BitVec 32)
  | brk (granted : Bool) (newBrk : BitVec 32)

/-- One call, with what it returns. -/
def callIf (s : State M) : HeapCall → Outcome M
  | .mmap granted addr len prot flags fildes off fd =>
      mmapIf granted s addr len prot flags fildes off fd
  | .munmap granted addr len => munmapIf granted s addr len
  | .mprotect granted addr len prot => mprotectIf granted s addr len prot
  | .brk granted newBrk => brkIf granted s newBrk

/-- A cage beside the page of the last break that was set. -/
structure Tracked (M : Type*) where
  state : State M
  lastBreak : ℕ

/-- The last break after a call: a successful `brk` of an address returns it. -/
def breakAfter (lastBreak : ℕ) : HeapCall → Except SyscallError (BitVec 32) → ℕ
  | .brk _ newBrk, .ok address => if newBrk = 0 then lastBreak else address.toNat / pageSize
  | _, _ => lastBreak

variable (t : Tracked M)

/-- One call; `none` when it panics. -/
def trackedStep (c : HeapCall) : Option (Tracked M) :=
  (callIf t.state c).map fun y => ⟨y.2, breakAfter t.lastBreak c y.1⟩

/-- A new cage, its break at `heap_start`. -/
def Tracked.fresh (r : Region) (heapStart : BitVec 32) (cageId : ℕ)
    (shmtable : BitVec 32 → Option ShmSegment) : Tracked M :=
  ⟨State.fresh r heapStart cageId shmtable, heapStart.toNat⟩

/-- `brk(0)` returns the last break that was set, and the assertion of `brk` holds. -/
def BreakKept : Prop :=
  (heapEntry t.state).pageNum = t.state.vm.heapStart ∧
    ∀ granted, brkIf granted t.state 0 = answer t.state (pageSize * t.lastBreak)

/-! ## The steps that keep the break -/

/-- `npages` pages from `page` on are none of `[first, stop)`. -/
def KeepsOff (page npages first stop : ℕ) : Prop :=
  stop ≤ first ∨ page + npages ≤ first ∨ stop ≤ page
deriving Decidable

/-- `mmap` and `munmap` keep off the heap. -/
def LeavesHeap : HeapCall → Prop
  | .mmap granted addr len _ flags _ off _ => granted = true →
      ∀ useraddr ∈ mapsAt t.state addr len flags off,
        KeepsOff (useraddr / pageSize) (roundUpPage len.toNat / pageSize % 2 ^ 32)
          t.state.vm.heapStart t.lastBreak
  | .munmap _ addr len => len ≠ 0 → roundUpPage addr.toNat = addr.toNat →
      ∀ useraddr ∈ t.state.vm.sysToUser addr.toNat,
        KeepsOff (useraddr / pageSize) (roundUpPage len.toNat / pageSize % 2 ^ 32)
          t.state.vm.heapStart t.lastBreak
  | .mprotect .. => True
  | .brk .. => True

/-- What the break needs besides:

* no mapping over `heap_start` while the heap is empty: it would be taken for the heap;
* no `mprotect` of a part of the heap, unless the heap has the protection already;
* no `brk` that fails after it has moved the heap's entry. -/
def LeavesBreak : HeapCall → Prop
  | .mmap granted addr len _ flags _ off _ => granted = true →
      ∀ useraddr ∈ mapsAt t.state addr len flags off,
        t.state.vm.heapStart < t.lastBreak ∨
          KeepsOff (useraddr / pageSize) (roundUpPage len.toNat / pageSize % 2 ^ 32)
            t.state.vm.heapStart (t.state.vm.heapStart + 1)
  | .munmap .. => True
  | .mprotect granted addr len prot => granted = true → ValidProt prot →
      addr.toNat % pageSize = 0 →
      ∀ useraddr ∈ t.state.vm.sysToUser addr.toNat,
        let page := useraddr / pageSize
        let stop := t.state.vm.changeProtEnd page (roundUpPage len.toNat / pageSize % 2 ^ 32)
        KeepsOff page (stop - page) t.state.vm.heapStart t.lastBreak ∨
          (page ≤ t.state.vm.heapStart ∧ t.lastBreak ≤ stop) ∨ (heapEntry t.state).prot = prot
  | .brk granted newBrk =>
      newBrk = 0 ∨ brkPage newBrk < t.state.vm.heapStart ∨ BrkBlocked t.state newBrk ∨
        (BrkInside t.state newBrk ∧ (granted = true ∨ oldBrkPage t.state = brkPage newBrk))

instance (t : Tracked M) (c : HeapCall) : Decidable (LeavesHeap t c) := by
  cases c <;> unfold LeavesHeap <;> infer_instance

instance (t : Tracked M) (c : HeapCall) : Decidable (LeavesBreak t c) := by
  cases c <;> unfold LeavesBreak <;> infer_instance

/-! ## The heap's entry -/

/-- The heap ends at `brk`: one entry is stored under the pages up to there and names them. Without
a page the heap has no entry. -/
structure HeapEnds (vm : Vmmap M) (brk : ℕ) : Prop where
  le : vm.heapStart ≤ brk
  fits : brk < 2 ^ 32
  empty : brk = vm.heapStart → vm.findPage vm.heapStart = none
  entry : vm.heapStart < brk →
    ∃ e, (Vmmap.region vm.heapStart (brk - vm.heapStart), e) ∈ iter vm.entries ∧
      e.pageNum = vm.heapStart ∧ e.npages = brk - vm.heapStart

section Lawful

variable [LawfulIntervalMap M] {brk page npages : ℕ} {prot : BitVec 32}

theorem HeapEnds.heapEntry (h : HeapEnds s.vm brk) :
    (heapEntry s).pageNum = s.vm.heapStart ∧ (heapEntry s).npages = brk - s.vm.heapStart := by
  unfold Memory.heapEntry
  rcases Nat.eq_or_lt_of_le h.le with heq | hlt
  · rw [h.empty heq.symm, ← heq, Nat.sub_self]
    exact ⟨rfl, rfl⟩
  · obtain ⟨e, he, hpage, hn⟩ := h.entry hlt
    have hfind : s.vm.findPage s.vm.heapStart = some e :=
      getAtPoint_of_mem he ((mem_region (by omega)).mpr ⟨le_rfl, by omega⟩)
    rw [hfind]
    exact ⟨hpage, hn⟩

theorem HeapEnds.oldBrkPage (h : HeapEnds s.vm brk) : oldBrkPage s = brk := by
  obtain ⟨hpage, hn⟩ := h.heapEntry
  unfold Memory.oldBrkPage
  rw [hpage, hn, Nat.add_sub_cancel' h.le, Nat.mod_eq_of_lt h.fits]

/-- So `brk(0)` returns the end of the heap. -/
theorem HeapEnds.breakKept {t : Tracked M} (h : HeapEnds t.state.vm t.lastBreak) : BreakKept t := by
  obtain ⟨hpage, -⟩ := h.heapEntry
  refine ⟨hpage, fun granted => ?_⟩
  unfold brkIf
  rw [if_neg (not_not.mpr hpage), if_pos rfl, h.oldBrkPage]

/-! ## What keeps the end of the heap -/

/-- An update off the heap keeps it, if it puts no entry over `heap_start` of an empty one. -/
theorem HeapEnds.orKeep_update (h : HeapEnds vm brk) {maxprot flags : BitVec 32}
    {backing : MemoryBackingType} {remove : Bool} {fileOffset fileSize : ℤ} {cageId : ℕ}
    (hoff : KeepsOff page npages vm.heapStart brk)
    (hfirst : remove = true ∨ vm.heapStart < brk ∨
      KeepsOff page npages vm.heapStart (vm.heapStart + 1)) :
    HeapEnds (vm.orKeep (vm.update page npages prot maxprot flags backing remove fileOffset fileSize
      cageId)) brk := by
  refine orKeep_induction (P := (HeapEnds · brk)) h fun {u} hok => ?_
  obtain ⟨hn, -, hu⟩ := update_eq_ok.mp hok
  have hstart : u.heapStart = vm.heapStart := by rw [hu]
  refine ⟨hstart ▸ h.le, h.fits, fun heq => ?_, fun hlt => ?_⟩ <;> rw [hstart] at *
  · rw [findPage_update hok, h.empty heq]
    split
    · next hin =>
      rcases hfirst with rfl | hlt | hfirst
      · rfl
      · omega
      · unfold KeepsOff at hfirst
        omega
    · rfl
  · obtain ⟨e, he, hbounds⟩ := h.entry hlt
    have hpos : 0 < brk - vm.heapStart := by omega
    refine ⟨e, (mem_iter_update hok).mpr (.inr ⟨_, he, ?_⟩), hbounds⟩
    refine (Interval.isPiece_of_not_overlaps (region_valid hpos) (region_valid hn)
      ?_).mpr rfl
    unfold Interval.Overlaps Vmmap.region
    unfold KeepsOff at hoff
    dsimp only
    omega

/-- A change of protection keeps it off the heap, over all of it, and where nothing changes. -/
theorem HeapEnds.changeProt (h : HeapEnds s.vm brk)
    (hchange : s.vm.changeProt page npages prot = some vm')
    (hok : KeepsOff page (s.vm.changeProtEnd page npages - page) s.vm.heapStart brk ∨
      (page ≤ s.vm.heapStart ∧ brk ≤ s.vm.changeProtEnd page npages) ∨
        (Memory.heapEntry s).prot = prot) : HeapEnds vm' brk := by
  obtain ⟨hlt, hvm⟩ := changeProt_eq_some.mp hchange
  have hstart : vm'.heapStart = s.vm.heapStart := by rw [hvm]
  refine ⟨hstart ▸ h.le, h.fits, fun heq => ?_, fun hpos => ?_⟩ <;> rw [hstart] at *
  · obtain ⟨start, n, hfind⟩ := findPage_changeProt hchange s.vm.heapStart
    rw [hfind, h.empty heq]
    rfl
  obtain ⟨e, he, hpage, hn⟩ := h.entry hpos
  have hfind : s.vm.findPage s.vm.heapStart = some e :=
    getAtPoint_of_mem he ((mem_region (by omega)).mpr ⟨le_rfl, by omega⟩)
  by_cases hmeets : (Vmmap.region s.vm.heapStart (brk - s.vm.heapStart)).Overlaps
      ⟨page, s.vm.changeProtEnd page npages - 1⟩
  swap
  · exact ⟨e, (mem_iter_changeProt hchange).mpr (.inl ⟨he, hmeets⟩), hpage, hn⟩
  by_cases hprot : e.prot = prot
  · -- the entry goes back as it was
    refine ⟨e, (mem_iter_changeProt hchange).mpr (.inr ⟨_, he, hmeets, ?_⟩), hpage, hn⟩
    unfold Vmmap.pieces Vmmap.collect
    rw [if_pos hprot]
    exact mem_singleton_self _
  · -- the middle piece is the whole entry
    have hall : page ≤ s.vm.heapStart ∧ brk ≤ s.vm.changeProtEnd page npages := by
      rcases hok with hoff | hall | hsame
      · unfold Interval.Overlaps Vmmap.region at hmeets
        unfold KeepsOff at hoff
        dsimp only at hmeets
        omega
      · exact hall
      · unfold Memory.heapEntry at hsame
        rw [hfind] at hsame
        exact absurd hsame hprot
    refine ⟨{ Vmmap.rebound e s.vm.heapStart brk with prot := prot },
      (mem_iter_changeProt hchange).mpr (.inr ⟨_, he, hmeets, ?_⟩), rfl, rfl⟩
    have hlast : s.vm.heapStart + (brk - s.vm.heapStart) - 1 + 1 = brk := by omega
    unfold Vmmap.pieces Vmmap.collect Vmmap.region
    rw [if_neg hprot, hlast, max_eq_left hall.1, min_eq_left hall.2, mem_append,
      mem_append, mem_pieceOf, mem_pieceOf]
    refine .inr (.inl ⟨hpos, ?_⟩)
    rw [Nat.add_sub_cancel' h.le]

theorem HeapEnds.resizeHeap (h : HeapEnds s.vm brk) {newBrk : ℕ} (hle : s.vm.heapStart ≤ newBrk)
    (hnew : newBrk ≤ u32Max) : HeapEnds (resizeHeap s newBrk) newBrk := by
  obtain ⟨hpage, hn⟩ := h.heapEntry
  have hend := h.le
  have hmax := h.fits
  refine ⟨by rwa [heapStart_resizeHeap], by unfold u32Max at hnew; omega, fun heq => ?_,
    fun hlt => ?_⟩ <;> rw [heapStart_resizeHeap] at *
  · -- the entry is removed, and none of no pages is inserted
    unfold Memory.resizeHeap
    rw [findPage_addEntry (by rw [hpage]; omega), hpage, heq, Nat.sub_self, if_neg (by omega), hn,
      findPage_removeEntry (by unfold u32Max; omega)]
    split
    · rfl
    · next hout => exact h.empty (by omega)
  · unfold Memory.resizeHeap
    dsimp only
    rw [hpage]
    exact ⟨_, (mem_iter_update (update_eq_orKeep ⟨by omega, by omega⟩)).mpr
      (.inl ⟨rfl, rfl, rfl⟩), rfl, rfl⟩

end Lawful

/-! ## What the calls do to the map -/

section Calls

variable {addr len off : BitVec 64} {prot flags fildes newBrk : BitVec 32} {fd : FdView}
  {granted : Bool} {x : Except SyscallError (BitVec 32)}

theorem mmapIf_vm (h : mmapIf granted s addr len prot flags fildes off fd = some (x, s')) :
    s'.vm = s.vm ∨ (granted = true ∧ ∃ useraddr ∈ mapsAt s addr len flags off,
      ∃ flags' maxprot backing fileSize, s'.vm = s.vm.orKeep
        (s.vm.update (useraddr / pageSize) (roundUpPage len.toNat / pageSize % 2 ^ 32) prot maxprot
          flags' backing false off.toInt fileSize s.cageId)) := by
  rcases mmapIf_reaches h with rfl | ⟨hgranted, useraddr, hat, _, -, -, -, -, -, h⟩
  · exact .inl rfl
  obtain ⟨_, _, rfl | ⟨maxprot, backing, -, rfl⟩⟩ := mapAt_reaches h
  · exact .inl rfl
  · exact .inr ⟨hgranted, useraddr, hat, _, maxprot, backing, _, rfl⟩

theorem munmapIf_vm {n : ℕ} (h : munmapIf n s addr len = some (x, s')) :
    s'.vm = s.vm ∨ (len ≠ 0 ∧ roundUpPage addr.toNat = addr.toNat ∧
      ∃ useraddr ∈ s.vm.sysToUser addr.toNat, s'.vm = s.vm.orKeep
        (s.vm.removeEntry (useraddr / pageSize) (roundUpPage len.toNat / pageSize % 2 ^ 32))) := by
  rcases of_ite_refuse h with rfl | ⟨hlen, h⟩
  · exact .inl rfl
  rcases of_ite_refuse h with rfl | ⟨haddr, h⟩
  · exact .inl rfl
  obtain ⟨useraddr, huser, h⟩ := bind_eq_some_iff.mp h
  dsimp only at h
  split at h
  · exact .inl (congrArg State.vm (of_refuse h))
  next reqEnd hend =>
  obtain ⟨-, rfl⟩ := checkedAdd32_eq_some.mp hend
  obtain ⟨⟨host, all⟩, -, h⟩ := bind_eq_some_iff.mp h
  cases all with
  | false =>
    cases h
    exact .inl rfl
  | true =>
    obtain rfl := of_answer h
    refine .inr ⟨hlen, not_not.mp haddr, useraddr, huser, ?_⟩
    rw [Nat.add_sub_cancel_left]

/-- `mprotect` leaves the map, or changes the protection of the pages it counts. -/
theorem mprotectIf_vm (h : mprotectIf granted s addr len prot = some (x, s')) :
    s'.vm = s.vm ∨ (granted = true ∧ ValidProt prot ∧ addr.toNat % pageSize = 0 ∧
      ∃ useraddr ∈ s.vm.sysToUser addr.toNat,
        s.vm.changeProt (useraddr / pageSize) (roundUpPage len.toNat / pageSize % 2 ^ 32) prot
          = some s'.vm) := by
  cases granted with
  | true =>
    rw [mprotectIf_true] at h
    rcases mprotect_reaches h with rfl | ⟨hvalid, haddr, useraddr, huser, vm, hchange, rfl⟩
    · exact .inl rfl
    · exact .inr ⟨rfl, hvalid, haddr, useraddr, huser, hchange⟩
  | false =>
    rcases of_ite_refuse h with rfl | ⟨-, h⟩
    · exact .inl rfl
    rcases of_ite_refuse h with rfl | ⟨-, h⟩
    · exact .inl rfl
    cases h
    exact .inl rfl

/-- A `brk` that keeps the break leaves the map and sets none, or sets the one it moves the heap
to. -/
theorem brkIf_vm (hok : newBrk = 0 ∨ brkPage newBrk < s.vm.heapStart ∨ BrkBlocked s newBrk ∨
      (BrkInside s newBrk ∧ (granted = true ∨ oldBrkPage s = brkPage newBrk)))
    (h : brkIf granted s newBrk = some (x, s')) :
    (s' = s ∧ ∀ lastBreak, breakAfter lastBreak (.brk granted newBrk) x = lastBreak) ∨
      (s.vm.heapStart ≤ brkPage newBrk ∧ s'.vm = resizeHeap s (brkPage newBrk) ∧
        ∀ lastBreak, breakAfter lastBreak (.brk granted newBrk) x = brkPage newBrk) := by
  unfold brkIf at h
  dsimp only at h
  split at h
  · exact absurd h nofun
  split at h
  · next hzero =>
    cases h
    exact .inl ⟨rfl, fun _ => if_pos hzero⟩
  next hzero =>
  split at h
  · cases h
    exact .inl ⟨rfl, fun _ => rfl⟩
  next hbelow =>
  rw [brk_taken, bind_some] at h
  by_cases hblocked : BrkBlocked s newBrk
  · rw [decide_eq_true hblocked] at h
    cases h
    exact .inl ⟨rfl, fun _ => rfl⟩
  rw [decide_eq_false hblocked] at h
  obtain ⟨⟨hold, hnew⟩, hhost⟩ : BrkInside s newBrk ∧
      (granted = true ∨ oldBrkPage s = brkPage newBrk) := by tauto
  rw [defaultVmmapSize_eq] at hold hnew
  rw [if_neg (by unfold u32Max; rw [pageSize_eq]; omega)] at h
  obtain ⟨s₁, hmove, h⟩ := bind_eq_some_iff.mp h
  rw [if_neg (by rintro ⟨rfl, hne⟩; tauto)] at h
  cases h
  obtain ⟨_, _, rfl⟩ := moveBreak_eq hmove
  refine .inr ⟨not_lt.mp hbelow, rfl, fun lastBreak => ?_⟩
  unfold breakAfter
  dsimp only
  rw [if_neg hzero, BitVec.toNat_ofNat, pageSize_eq]
  omega

end Calls

/-! ## Runs -/

section Runs

variable [LawfulIntervalMap M]

/-- **A step that leaves heap and break alone keeps the end of the heap where it was set.** -/
theorem heapEnds_step {t t' : Tracked M} {c : HeapCall} (h : HeapEnds t.state.vm t.lastBreak)
    (hok : LeavesHeap t c ∧ LeavesBreak t c) (hstep : trackedStep t c = some t') :
    HeapEnds t'.state.vm t'.lastBreak := by
  obtain ⟨⟨x, s'⟩, hcall, rfl⟩ := map_eq_some_iff.mp hstep
  obtain ⟨hheap, hbreak⟩ := hok
  cases c with
  | mmap granted addr len prot flags fildes off fd =>
    rcases mmapIf_vm hcall with hsame | ⟨hgranted, useraddr, hat, _, _, _, _, hvm⟩
    · rw [hsame]
      exact h
    · rw [hvm]
      exact h.orKeep_update (hheap hgranted useraddr hat)
        (.inr (hbreak hgranted useraddr hat))
  | munmap granted addr len =>
    rcases munmapIf_vm hcall with hsame | ⟨hlen, haddr, useraddr, huser, hvm⟩
    · rw [hsame]
      exact h
    · rw [hvm]
      exact h.orKeep_update (hheap hlen haddr useraddr huser) (.inl rfl)
  | mprotect granted addr len prot =>
    rcases mprotectIf_vm hcall with hsame | ⟨hgranted, hvalid, haddr, useraddr, huser, hvm⟩
    · rw [hsame]
      exact h
    · exact h.changeProt hvm (hbreak hgranted hvalid haddr useraddr huser)
  | brk granted newBrk =>
    rcases brkIf_vm hbreak hcall with ⟨rfl, hlast⟩ | ⟨hle, hvm, hlast⟩
    · rw [hlast]
      exact h
    · rw [hlast, hvm]
      refine h.resizeHeap hle ?_
      have : brkPage newBrk < 2 ^ 32 := Nat.mod_lt _ (by decide)
      unfold u32Max
      omega

/-- **The break is what was set last, along every run whose steps leave heap and break alone.** -/
theorem breakKept_run (r : Region) (heapStart : BitVec 32) (cageId : ℕ)
    (shmtable : BitVec 32 → Option ShmSegment) (calls : List HeapCall) {t : Tracked M}
    (hok : StepsOk trackedStep (fun t c => LeavesHeap t c ∧ LeavesBreak t c)
      (Tracked.fresh r heapStart cageId shmtable : Tracked M) calls)
    (hrun : runSteps trackedStep (Tracked.fresh r heapStart cageId shmtable : Tracked M) calls
      = some t) : BreakKept t := by
  have hstep : ∀ (t : Tracked M) c t', HeapEnds t.state.vm t.lastBreak →
      (LeavesHeap t c ∧ LeavesBreak t c) → trackedStep t c = some t' →
      HeapEnds t'.state.vm t'.lastBreak := fun _ _ _ => heapEnds_step
  refine (inv_of_stepsOk hstep ?_ hok hrun).breakKept
  exact ⟨le_rfl, heapStart.isLt,
    fun _ => by simp [Tracked.fresh, State.fresh, Vmmap.findPage, Vmmap.new],
    fun hlt => absurd hlt (lt_irrefl _)⟩

end Runs

/-- The sample cage, tracked. -/
def sampleTracked : Tracked (SortedList VmmapEntry) :=
  Tracked.fresh sampleRegion 256 1 fun shmid => if shmid = 1 then some sampleSegment else none

/-- Grow the heap, protect all of it, map and unmap elsewhere, shrink it. -/
def heapCalls : List HeapCall :=
  [.brk true 0x104000, .mprotect true 0x100100000 0x4000 1,
   .mmap true 0x10000 0x4000 3 0x32 0 0 ⟨none, 0⟩, .munmap 1 0x100011000 0x1000,
   .brk true 0x102000]

theorem breakKept_heapCalls :
    ∃ t, runSteps trackedStep sampleTracked heapCalls = some t ∧ BreakKept t := by
  have hok : StepsOk trackedStep (fun t c => LeavesHeap t c ∧ LeavesBreak t c) sampleTracked
      heapCalls := by decide +kernel
  obtain ⟨t, ht⟩ := isSome_iff_exists.mp
    (show (runSteps trackedStep sampleTracked heapCalls).isSome by decide +kernel)
  exact ⟨t, ht, breakKept_run sampleRegion 256 1 _ heapCalls hok ht⟩

/-- **A `mprotect` inside the heap moves the break**: with its second page made read-only, a heap of
four pages ends after the first. -/
theorem not_breakKept_mprotect :
    StepsOk trackedStep LeavesHeap sampleTracked
        [.brk true 0x104000, .mprotect true 0x100101000 0x1000 1] ∧
      ∃ t, runSteps trackedStep sampleTracked
          [.brk true 0x104000, .mprotect true 0x100101000 0x1000 1] = some t ∧
        (brkIf true t.state 0).map Prod.fst = some (.ok 0x101000) ∧ t.lastBreak = 0x104 ∧
        ¬ BreakKept t := by
  refine ⟨by decide +kernel, ?_⟩
  obtain ⟨t, ht, hread, hlast⟩ : ∃ t ∈ runSteps trackedStep sampleTracked
      [.brk true 0x104000, .mprotect true 0x100101000 0x1000 1],
      (brkIf true t.state 0).map Prod.fst = some (.ok 0x101000) ∧ t.lastBreak = 0x104 := by
    decide +kernel
  refine ⟨t, ht, hread, hlast, fun hkept => ?_⟩
  rw [hkept.2 true, hlast] at hread
  exact absurd (Except.ok.inj (some.inj hread)) (by decide)

end LindWasm.Memory

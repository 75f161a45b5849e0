import LindWasm.Memory.Sync
import LindWasm.Vmmap.Check

/-!
# Memory/Break — what a call of `brk` leaves behind

    heap_start ├----- heap -----┤ old break              ├-- other mapping --┤
               ├-------------------- heap --------------------┤ new break

The break is the end of the entry over `heap_start`. A call removes that entry and inserts a new
one before it knows whether the new break fits in 32 bits and whether the host agrees, and it looks
for a collision by asking whether *all* of the new pages are mapped. `brk_right_iff` says when a
call nevertheless moves the heap and nothing else, or fails and changes nothing.
-/

namespace LindWasm.Memory

open IntervalMap LawfulOnValid LawfulIntervalMap Option Vmmap

variable {M : Type*} [IntervalMap M VmmapEntry] {s s' : State M} {r : Region} {granted : Bool}
  {newBrk : BitVec 32}

/-! ## The heap -/

/-- The page belongs to the heap: it is stored under the same interval as `heap_start`. -/
def HeapPage (vm : Vmmap M) (q : ℕ) : Prop :=
  ∃ kv ∈ iter vm.entries, vm.heapStart ∈ kv.1 ∧ q ∈ kv.1

/-- The entry of a heap that ends at `newBrk`. -/
def heapUpTo (s : State M) (newBrk : ℕ) : VmmapEntry :=
  Vmmap.updateEntry s.vm.heapStart (newBrk - s.vm.heapStart) (heapEntry s).prot
    (heapEntry s).maxprot (heapEntry s).flags (heapEntry s).backing (heapEntry s).fileOffset
    (heapEntry s).fileSize (heapEntry s).cageId

/-- The heap has become `[heap_start, newBrk)`, on pages that were its own or free, and every page
outside both heaps is as it was. -/
structure HeapMoved (s s' : State M) (newBrk : ℕ) : Prop where
  heap : ∀ q, HeapPage s'.vm q ↔ s.vm.heapStart ≤ q ∧ q < newBrk
  kept : ∀ q, ¬ HeapPage s.vm q → ¬ HeapPage s'.vm q → s'.vm.findPage q = s.vm.findPage q
  fresh : ∀ q, HeapPage s'.vm q → ¬ HeapPage s.vm q → s.vm.findPage q = none

/-- The break a call asks for, in pages; zero asks for the one there is. -/
def askedBrk (s : State M) (newBrk : BitVec 32) : ℕ :=
  if newBrk = 0 then oldBrkPage s else brkPage newBrk

/-- The call moves the heap, or fails and leaves the vmmap and the host as they were. -/
def BrkRight (s : State M) (newBrk : BitVec 32) : Outcome M → Prop
  | none => False
  | some (.error _, s') => (∀ q, s'.vm.findPage q = s.vm.findPage q) ∧ s'.host = s.host
  | some (.ok _, s') => HeapMoved s s' (askedBrk s newBrk)

theorem brkRight_refuse {errno : Errno} {syscall message : String} :
    BrkRight s newBrk (refuse s errno syscall message) := ⟨fun _ => rfl, rfl⟩

/-! ## When a call is right -/

/-- All of the pages between the old break and the new one are mapped, for the walk. -/
def BrkBlocked (s : State M) (newBrk : BitVec 32) : Prop :=
  oldBrkPage s < brkPage newBrk ∧
    s.vm.checkExistingMapping (oldBrkPage s) (brkPage newBrk - oldBrkPage s) 0 = some true
deriving Decidable

/-- The old break and the new one are addresses of 32 bits. -/
def BrkInside (s : State M) (newBrk : BitVec 32) : Prop :=
  oldBrkPage s < defaultVmmapSize ∧ brkPage newBrk < defaultVmmapSize
deriving Decidable

/-- Up to the later of two breaks every page is the heap's or free. -/
def HeapAlone (s : State M) (newBrk : ℕ) : Prop :=
  ∀ q, s.vm.heapStart ≤ q → q < max (oldBrkPage s) newBrk →
    HeapPage s.vm q ∨ s.vm.findPage q = none

/-- The heap is one entry up to `newBrk` already. -/
def HeapThere (s : State M) (newBrk : ℕ) : Prop :=
  ∀ q, s.vm.heapStart ≤ q → q < max (oldBrkPage s) newBrk →
    s.vm.findPage q = if q < newBrk then some (heapUpTo s newBrk) else none

/-- The heap's entry starts at `heap_start`, and the call

* asks for a break that is the end of the heap,
* is refused before it touches the map,
* has both breaks inside, the host's consent or no need of it, and no other mapping in its way, or
* has a break outside, and nothing to change. -/
def BrkSound (granted : Bool) (s : State M) (newBrk : BitVec 32) : Prop :=
  (heapEntry s).pageNum = s.vm.heapStart ∧
    if newBrk = 0 then ∀ q, HeapPage s.vm q ↔ s.vm.heapStart ≤ q ∧ q < oldBrkPage s
    else if brkPage newBrk < s.vm.heapStart ∨ BrkBlocked s newBrk then True
    else if BrkInside s newBrk then
      (granted = true ∨ oldBrkPage s = brkPage newBrk) ∧ HeapAlone s (brkPage newBrk)
    else HeapThere s (brkPage newBrk)

/-! ## The entry over `heap_start` -/

section Heap

/-- Without an entry over `heap_start` the break is there. -/
theorem oldBrkPage_of_none (hheap : s.vm.heapStart < 2 ^ 32)
    (h : s.vm.findPage s.vm.heapStart = none) : oldBrkPage s = s.vm.heapStart := by
  unfold oldBrkPage heapEntry
  rw [h]
  exact Nat.mod_eq_of_lt hheap

/-- An update that may be turned down changes nothing but the entries. -/
theorem orKeep_update_eq {vm w : Vmmap M} {page npages : ℕ} {prot maxprot flags : BitVec 32}
    {backing : MemoryBackingType} {remove : Bool} {fileOffset fileSize : ℤ} {cageId : ℕ}
    (hw : w = { vm with entries := w.entries }) :
    let u := w.orKeep (w.update page npages prot maxprot flags backing remove fileOffset fileSize
      cageId)
    u = { vm with entries := u.entries } :=
  orKeep_induction (P := fun u => u = { vm with entries := u.entries }) hw fun h => by
    rw [(update_eq_ok.mp h).2.2, hw]

theorem resizeHeap_eq (newBrk : ℕ) :
    resizeHeap s newBrk = { s.vm with entries := (resizeHeap s newBrk).entries } :=
  orKeep_update_eq (orKeep_update_eq rfl)

@[simp] theorem heapStart_resizeHeap (newBrk : ℕ) :
    (resizeHeap s newBrk).heapStart = s.vm.heapStart := by rw [resizeHeap_eq]

@[simp] theorem baseAddress_resizeHeap (newBrk : ℕ) :
    (resizeHeap s newBrk).baseAddress = s.vm.baseAddress := by rw [resizeHeap_eq]

variable [LawfulIntervalMap M]

theorem heapPage_of_find {e : VmmapEntry} (h : s.vm.findPage s.vm.heapStart = some e) :
    ∃ k, (k, e) ∈ iter s.vm.entries ∧ s.vm.heapStart ∈ k ∧ ∀ q, HeapPage s.vm q ↔ q ∈ k := by
  obtain ⟨k, hk, hmem⟩ := (getAtPoint_eq_some _).mp h
  refine ⟨k, hk, hmem, fun q => ⟨?_, fun hq => ⟨(k, e), hk, hmem, hq⟩⟩⟩
  rintro ⟨kv, hkv, hstart, hq⟩
  obtain rfl := (sorted_iter s.vm.entries).eq_of_mem hkv hk hstart hmem
  exact hq

theorem not_heapPage_of_find {vm : Vmmap M} (h : vm.findPage vm.heapStart = none) (q : ℕ) :
    ¬ HeapPage vm q := by
  rintro ⟨kv, hkv, hstart, -⟩
  exact getAtPoint_eq_none.mp h kv hkv hstart

section

variable (hc : s.vm.Covering) (hheap : s.vm.heapStart < 2 ^ 32)
include hc hheap

theorem oldBrkPage_eq_end : oldBrkPage s = (heapEntry s).pageNum + (heapEntry s).npages :=
  oldBrkPage_eq_of_lt hheap fun kv hk =>
    (hc.fits kv.2 (mem_recorded.mpr (.inl ⟨kv.1, hk⟩))).trans_lt (by decide)

theorem lt_oldBrkPage {q : ℕ} (hq : HeapPage s.vm q) : q < oldBrkPage s := by
  rw [oldBrkPage_eq_end hc hheap]
  obtain ⟨⟨k, e⟩, hk, hstart, hq⟩ := hq
  have hkey := (hc.key _ hk).2
  have hfind : s.vm.findPage s.vm.heapStart = some e := getAtPoint_of_mem hk hstart
  have hlast := hq.2
  unfold heapEntry
  rw [hfind, getD_some]
  unfold VmmapEntry.endPage at hkey
  dsimp only at *
  omega

variable (hstart : (heapEntry s).pageNum = s.vm.heapStart) {newBrk : ℕ}
  (hle : s.vm.heapStart ≤ newBrk) (hnew : newBrk ≤ u32Max)
include hstart hle hnew

/-- **A page lookup after the heap's entry has been moved.** -/
theorem findPage_resizeHeap (q : ℕ) :
    (resizeHeap s newBrk).findPage q =
      if s.vm.heapStart ≤ q ∧ q < newBrk then some (heapUpTo s newBrk)
      else if s.vm.heapStart ≤ q ∧ q < oldBrkPage s then none else s.vm.findPage q := by
  have hend := oldBrkPage_eq_end hc hheap
  have hold : (heapEntry s).pageNum + (heapEntry s).npages ≤ u32Max := by
    have : oldBrkPage s < 2 ^ 32 := Nat.mod_lt _ (by decide)
    unfold u32Max
    omega
  unfold resizeHeap
  dsimp only
  rw [hstart] at hold hend ⊢
  rw [findPage_addEntry (by omega), findPage_removeEntry hold, ← hend, Nat.add_sub_cancel' hle]
  rfl

/-- **The heap after its entry has been moved.** -/
theorem heapPage_resizeHeap (q : ℕ) :
    HeapPage (resizeHeap s newBrk) q ↔ s.vm.heapStart ≤ q ∧ q < newBrk := by
  rcases Nat.eq_or_lt_of_le hle with heq | hlt
  · -- the entry is gone, and nothing takes its place
    have hnone : (resizeHeap s newBrk).findPage (resizeHeap s newBrk).heapStart = none := by
      rw [heapStart_resizeHeap, findPage_resizeHeap hc hheap hstart hle hnew, if_neg (by omega)]
      split
      · rfl
      · next hold =>
        refine eq_none_iff_forall_ne_some.mpr fun e he => hold ⟨le_rfl, ?_⟩
        obtain ⟨k, hk, hmem, -⟩ := heapPage_of_find he
        exact lt_oldBrkPage hc hheap ⟨(k, e), hk, hmem, hmem⟩
    exact iff_of_false (not_heapPage_of_find hnone q) (by omega)
  · have hpos : 0 < newBrk - s.vm.heapStart := by omega
    have hmem : ∀ {p}, p ∈ Vmmap.region s.vm.heapStart (newBrk - s.vm.heapStart)
        ↔ s.vm.heapStart ≤ p ∧ p < newBrk := by
      intro p
      rw [mem_region hpos, Nat.add_sub_cancel' hle]
    unfold HeapPage
    rw [heapStart_resizeHeap]
    unfold resizeHeap
    dsimp only
    rw [hstart]
    have hacc : Vmmap.Accepts s.vm.heapStart (newBrk - s.vm.heapStart) := ⟨hpos, by omega⟩
    constructor
    · rintro ⟨⟨j, w⟩, hj, hstartj, hq⟩
      rcases (mem_iter_update (update_eq_orKeep hacc)).mp hj
        with ⟨-, rfl, -⟩ | ⟨k, hk, hpiece⟩
      · exact hmem.mp hq
      · -- a piece of another entry is off the new heap
        have hoff := (hpiece.spec ((sorted_iter _).valid _ hk)).2.2.2
        have hin := hmem.mpr ⟨le_rfl, hlt⟩
        exact absurd ⟨hstartj.1.trans hin.2, hin.1.trans hstartj.2⟩ hoff
    · intro hq
      exact ⟨_, (mem_iter_update (update_eq_orKeep hacc)).mpr (.inl ⟨rfl, rfl, rfl⟩),
        hmem.mpr ⟨le_rfl, hlt⟩, hmem.mpr hq⟩

/-- **A moved heap is in order just when nothing else was in its way.** -/
theorem heapMoved_iff_alone (hvm : s'.vm = resizeHeap s newBrk) :
    HeapMoved s s' newBrk ↔ HeapAlone s newBrk := by
  have hheap' := heapPage_resizeHeap hc hheap hstart hle hnew
  have hfind := findPage_resizeHeap hc hheap hstart hle hnew
  constructor
  · intro h q hq hlt
    refine or_iff_not_imp_left.mpr fun hout => ?_
    by_cases hin : q < newBrk
    · exact h.fresh q (hvm ▸ (hheap' q).mpr ⟨hq, hin⟩) hout
    · have hkept := h.kept q hout (hvm ▸ fun hp => hin ((hheap' q).mp hp).2)
      rw [hvm, hfind, if_neg (fun hp => hin hp.2), if_pos ⟨hq, by omega⟩] at hkept
      exact hkept.symm
  · intro h
    refine ⟨fun q => hvm ▸ hheap' q, fun q hout hout' => ?_, fun q hin hout => ?_⟩
    · rw [hvm, hheap'] at hout'
      rw [hvm, hfind, if_neg hout']
      split
      · next hold => exact ((h q hold.1 (by omega)).resolve_left hout).symm
      · rfl
    · rw [hvm, hheap'] at hin
      exact (h q hin.1 (by omega)).resolve_left hout

/-- The map after the entry has been moved is as before just when it was there already… -/
theorem resizeHeap_same_iff :
    (∀ q, (resizeHeap s newBrk).findPage q = s.vm.findPage q) ↔ HeapThere s newBrk := by
  refine forall_congr' fun q => ?_
  rw [findPage_resizeHeap hc hheap hstart hle hnew]
  by_cases hq : s.vm.heapStart ≤ q
  · simp only [hq, true_and, forall_const]
    by_cases hin : q < newBrk
    · rw [if_pos hin, if_pos hin]
      exact ⟨fun h _ => h.symm, fun h => (h (by omega)).symm⟩
    · rw [if_neg hin, if_neg hin]
      by_cases hold : q < oldBrkPage s
      · rw [if_pos hold]
        exact ⟨fun h _ => h.symm, fun h => (h (by omega)).symm⟩
      · rw [if_neg hold]
        exact iff_of_true rfl fun h => absurd h (by omega)
  · simp only [hq, false_and, if_false, true_iff]
    exact fun h => absurd h id

omit hnew in
/-- …and not when the break moves. -/
theorem not_heapThere (hne : oldBrkPage s ≠ newBrk) : ¬ HeapThere s newBrk := by
  intro h
  have hend := oldBrkPage_eq_end hc hheap
  rw [hstart] at hend
  have hfirst := h s.vm.heapStart le_rfl (by omega)
  rcases Nat.eq_or_lt_of_le hle with rfl | hlt
  · -- an entry that is to go, or no entry and no old break
    rw [if_neg (lt_irrefl _)] at hfirst
    exact hne (oldBrkPage_of_none hheap hfirst)
  · rw [if_pos hlt] at hfirst
    have hentry : heapEntry s = heapUpTo s newBrk := by
      conv_lhs => unfold heapEntry
      rw [hfirst, getD_some]
    have hsize : (heapEntry s).npages = newBrk - s.vm.heapStart := by
      rw [hentry]
      rfl
    omega

end

end Heap

/-! ## The call -/

omit [IntervalMap M VmmapEntry] in
theorem exists_moveBreak (hb : s.vm.baseAddress = some r.base) {oldBrk newBrk : ℕ}
    (hold : oldBrk < defaultVmmapSize) (hnew : newBrk < defaultVmmapSize) (heap : VmmapEntry) :
    ∃ s', moveBreak s oldBrk newBrk heap = some s' ∧ s'.vm = s.vm := by
  have hfits := r.fits
  have hsys : ∀ page < defaultVmmapSize,
      s.vm.userToSys (page * pageSize) = some (page * pageSize + r.base) := fun page hpage => by
    refine (userToSys_eq_some hb).mpr ⟨?_, rfl⟩
    rw [defaultVmmapSize_eq] at hpage
    rw [pageSize_eq]
    omega
  unfold moveBreak
  rw [hsys _ hold, hsys _ hnew, bind_some, bind_some]
  split
  · exact ⟨_, rfl, rfl⟩
  · split
    · exact ⟨_, rfl, rfl⟩
    · exact ⟨s, rfl, rfl⟩

theorem brk_taken : (if oldBrkPage s < brkPage newBrk then
      s.vm.checkExistingMapping (oldBrkPage s) (brkPage newBrk - oldBrkPage s) 0
    else some false) = some (decide (BrkBlocked s newBrk)) := by
  unfold BrkBlocked
  by_cases hlt : oldBrkPage s < brkPage newBrk
  · have hmax : brkPage newBrk < 2 ^ 32 := Nat.mod_lt _ (by decide)
    have hadd : checkedAdd32 (oldBrkPage s) (brkPage newBrk - oldBrkPage s)
        = some (brkPage newBrk) :=
      checkedAdd32_eq_some.mpr ⟨by unfold u32Max; omega, by omega⟩
    obtain ⟨taken, htaken⟩ : ∃ taken, s.vm.checkExistingMapping (oldBrkPage s)
        (brkPage newBrk - oldBrkPage s) 0 = some taken := by
      unfold Vmmap.checkExistingMapping
      rw [hadd]
      dsimp only
      rw [ie_of_lt hlt]
      exact ⟨_, rfl⟩
    rw [if_pos hlt]
    simp only [hlt, true_and, htaken]
    cases taken <;> rfl
  · simp [hlt]

variable [LawfulIntervalMap M]

/-- A call that gets past the collision test with both breaks inside. -/
theorem brkRight_inside (hb : s.vm.baseAddress = some r.base) (hc : s.vm.Covering)
    (hheap : s.vm.heapStart < 2 ^ 32) (hstart : (heapEntry s).pageNum = s.vm.heapStart)
    (hzero : newBrk ≠ 0) (hle : s.vm.heapStart ≤ brkPage newBrk) (hnew : brkPage newBrk ≤ u32Max)
    (hin : BrkInside s newBrk) :
    BrkRight s newBrk
        ((moveBreak { s with vm := resizeHeap s (brkPage newBrk) } (oldBrkPage s) (brkPage newBrk)
          (heapEntry s)).bind fun s'' =>
            if granted = false ∧ oldBrkPage s ≠ brkPage newBrk then
              some (.error (.errno "brk"), { s with vm := resizeHeap s (brkPage newBrk) })
            else answer s'' (pageSize * brkPage newBrk))
      ↔ (granted = true ∨ oldBrkPage s = brkPage newBrk) ∧ HeapAlone s (brkPage newBrk) := by
  obtain ⟨s₁, hmove, hvm⟩ := exists_moveBreak
    (s := { s with vm := resizeHeap s (brkPage newBrk) }) (r := r)
    (by simpa using hb) hin.1 hin.2 (heapEntry s)
  rw [hmove, bind_some]
  by_cases hrefused : granted = false ∧ oldBrkPage s ≠ brkPage newBrk
  · -- the break has moved in the vmmap alone
    rw [if_pos hrefused]
    refine iff_of_false (fun h => ?_) fun h => ?_
    · exact not_heapThere hc hheap hstart hle hrefused.2
        ((resizeHeap_same_iff hc hheap hstart hle hnew).mp h.1)
    · rcases h.1 with hgranted | heq
      · exact Bool.false_ne_true (hrefused.1.symm.trans hgranted)
      · exact hrefused.2 heq
  · rw [if_neg hrefused]
    have hgo : granted = true ∨ oldBrkPage s = brkPage newBrk := by
      cases granted with
      | true => exact .inl rfl
      | false => exact .inr (not_not.mp fun hne => hrefused ⟨rfl, hne⟩)
    change HeapMoved s s₁ (askedBrk s newBrk) ↔ _
    rw [askedBrk, if_neg hzero, and_iff_right hgo]
    exact heapMoved_iff_alone hc hheap hstart hle hnew hvm

/-- **Where a call of `brk` is right**: for every map, argument and answer of the host. -/
theorem brk_right_iff (hb : s.vm.baseAddress = some r.base) (hc : s.vm.Covering)
    (hheap : s.vm.heapStart < 2 ^ 32) :
    BrkRight s newBrk (brkIf granted s newBrk) ↔ BrkSound granted s newBrk := by
  unfold brkIf BrkSound
  by_cases hstart : (heapEntry s).pageNum = s.vm.heapStart
  swap
  · dsimp only
    rw [if_pos hstart]
    exact iff_of_false id fun h => hstart h.1
  rw [if_neg (not_not.mpr hstart), and_iff_right hstart]
  by_cases hzero : newBrk = 0
  · rw [if_pos hzero, if_pos hzero]
    change HeapMoved s s (askedBrk s newBrk) ↔ _
    rw [askedBrk, if_pos hzero]
    exact ⟨fun h => h.heap, fun h => ⟨h, fun _ _ _ => rfl, fun q hin hout => absurd hin hout⟩⟩
  rw [if_neg hzero, if_neg hzero]
  by_cases hbelow : brkPage newBrk < s.vm.heapStart
  · rw [if_pos hbelow, if_pos (.inl hbelow)]
    exact iff_of_true brkRight_refuse trivial
  rw [if_neg hbelow, brk_taken, bind_some]
  by_cases hblocked : BrkBlocked s newBrk
  · rw [if_pos (Or.inr hblocked), decide_eq_true hblocked]
    exact iff_of_true brkRight_refuse trivial
  rw [if_neg (not_or.mpr ⟨hbelow, hblocked⟩), decide_eq_false hblocked]
  have hle : s.vm.heapStart ≤ brkPage newBrk := not_lt.mp hbelow
  have hnew : brkPage newBrk ≤ u32Max := by
    have : brkPage newBrk < 2 ^ 32 := Nat.mod_lt _ (by decide)
    unfold u32Max
    omega
  have hover : u32Max < oldBrkPage s * pageSize ∨ u32Max < brkPage newBrk * pageSize
      ↔ ¬ BrkInside s newBrk := by
    unfold BrkInside u32Max
    rw [pageSize_eq, defaultVmmapSize_eq]
    omega
  by_cases hin : BrkInside s newBrk
  · rw [if_neg (fun h => hover.mp h hin), if_pos hin]
    exact brkRight_inside hb hc hheap hstart hzero hle hnew hin
  · rw [if_pos (hover.mpr hin), if_neg hin]
    change (∀ q, (resizeHeap s (brkPage newBrk)).findPage q = s.vm.findPage q) ∧ _ ↔ _
    rw [and_iff_left rfl]
    exact resizeHeap_same_iff hc hheap hstart hle hnew

theorem covering_fresh (r : Region) (heapStart : BitVec 32) (cageId : ℕ)
    (shmtable : BitVec 32 → Option ShmSegment) :
    (State.fresh r heapStart cageId shmtable : State M).vm.Covering :=
  ⟨by simp [State.fresh, Vmmap.new, iter_new],
    by simp [State.fresh, Vmmap.new, Vmmap.recorded, iter_new]⟩

/-- In a new cage the heap grows by two pages. -/
theorem brk_right_sampleCage : BrkRight sampleCage 0x102000 (brkIf true sampleCage 0x102000) := by
  refine (brk_right_iff (r := sampleRegion) (by decide +kernel) (covering_fresh _ _ _ _)
    (by decide +kernel)).mpr ⟨by decide +kernel, ?_⟩
  rw [if_neg (by decide), if_neg (by decide +kernel), if_pos (by decide +kernel)]
  refine ⟨.inl rfl, fun q _ _ => .inr ?_⟩
  simp [State.fresh, Vmmap.findPage, Vmmap.new]

/-- The sample cage with one page mapped two pages past the heap's start. -/
def crowdedCage : State (SortedList VmmapEntry) :=
  (runSteps step sampleCage [.mmap 0x102000 0x1000 3 0x32 0 0 ⟨none, 0⟩]).getD sampleCage

/-- **The heap grows over a mapping**, because not all of the new pages are mapped; and **a break of
2 GiB is refused, with the heap moved there in the vmmap**. -/
theorem not_brkRight_crowdedCage :
    ¬ BrkRight crowdedCage 0x104000 (brkIf true crowdedCage 0x104000) ∧
      ¬ BrkRight crowdedCage 0x80000000 (brkIf true crowdedCage 0x80000000) := by
  constructor
  · have hok : (brkIf true crowdedCage 0x104000).map Prod.fst = some (.ok 0x104000) := by
      decide +kernel
    obtain ⟨⟨x, s'⟩, h, rfl⟩ := map_eq_some_iff.mp hok
    rw [h]
    intro hmoved
    have hnew : HeapPage s'.vm 258 := (hmoved.heap 258).mpr (by decide +kernel)
    have hmapped : crowdedCage.vm.findPage 258 ≠ none := by decide +kernel
    have hnone : crowdedCage.vm.findPage crowdedCage.vm.heapStart = none := by decide +kernel
    exact hmapped (hmoved.fresh 258 hnew (not_heapPage_of_find hnone 258))
  · have herror : (brkIf true crowdedCage 0x80000000).map Prod.fst
        = some (.error (.refused .ENOMEM "brk" "heap end address overflows 32-bit space")) := by
      decide +kernel
    obtain ⟨⟨x, s'⟩, h, rfl⟩ := map_eq_some_iff.mp herror
    rw [h]
    intro hsame
    have hheap : ∀ y ∈ brkIf true crowdedCage 0x80000000, y.2.vm.findPage 256 ≠ none := by
      decide +kernel
    have hnone : crowdedCage.vm.findPage 256 = none := by decide +kernel
    exact hheap _ h ((hsame.1 256).trans hnone)

end LindWasm.Memory

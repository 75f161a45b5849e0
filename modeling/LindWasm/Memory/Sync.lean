import LindWasm.Memory.Effect

/-!
# Memory/Sync — the host enforces what the vmmap records

    page q of the cage:   host protection  =  protection of the entry over q,  none without one

The two sides part where one of them is changed alone: `mprotect` over pages without an entry,
`munmap` over an attached segment, `brk` over a heap whose entry does not describe its pages,
`shmdt` of a segment of 2 GiB or more, `mmap` of a descriptor that cannot be read back. A run none
of whose steps does that stays in sync (`inSync_run`).
-/

namespace LindWasm.Memory

open IntervalMap LawfulOnValid LawfulIntervalMap Option Vmmap

variable {M : Type*} [IntervalMap M VmmapEntry] {s s' : State M} {r : Region}

/-- Every page of the region has on the host the protection its entry records, and none where there
is no entry. -/
def InSync (r : Region) (s : State M) : Prop :=
  ∀ q < defaultVmmapSize, (s.host (r.page q)).prot = pageProt s.vm q

/-- The syscall keeps the two sides together. -/
def SyncOk (s : State M) : Syscall → Prop
  | .mmap addr len _ flags fildes _ fd => MmapOk addr len flags fildes fd
  | .munmap addr len => MunmapOk s addr len
  | .mprotect addr len prot => MprotectOk s addr len prot
  | .brk newBrk => BrkOk s newBrk
  | .shmat .. => True
  | .shmdt shmaddr => ShmdtOk s shmaddr

instance (s : State M) : (c : Syscall) → Decidable (SyncOk s c) :=
  fun c => by cases c <;> dsimp only [SyncOk] <;> infer_instance

variable [LawfulIntervalMap M] {page npages : ℕ} {prot : BitVec 32} {addr len : BitVec 64}

/-! ## The recorded protection after each update -/

section PageProt

variable {vm vm' : Vmmap M} {page npages : ℕ} {prot maxprot flags : BitVec 32}
  {backing : MemoryBackingType} {remove : Bool} {fileOffset fileSize : ℤ} {cageId : ℕ}

theorem pageProt_update
    (h : vm.update page npages prot maxprot flags backing remove fileOffset fileSize cageId
      = .ok vm') (q : ℕ) :
    pageProt vm' q = if page ≤ q ∧ q < page + npages then if remove then protNone else prot
      else pageProt vm q := by
  unfold pageProt
  rw [findPage_update h]
  split
  · cases remove <;> rfl
  · rfl

section

variable (hle : page + npages ≤ u32Max) (q : ℕ)
include hle q

/-- An update below 32 bits is refused only if it names no page. -/
theorem findPage_orKeep_update :
    (vm.orKeep (vm.update page npages prot maxprot flags backing remove fileOffset fileSize
      cageId)).findPage q = if page ≤ q ∧ q < page + npages then if remove then none else
        some (Vmmap.updateEntry page npages prot maxprot flags backing fileOffset fileSize cageId)
      else vm.findPage q := by
  by_cases h0 : npages = 0
  · rw [if_neg (by omega)]
    refine orKeep_induction (P := (·.findPage q = vm.findPage q)) rfl fun h => ?_
    exact absurd (update_eq_ok.mp h).1 (by omega)
  · exact findPage_update (update_eq_orKeep ⟨Nat.pos_of_ne_zero h0, hle⟩) q

theorem findPage_removeEntry : (vm.orKeep (vm.removeEntry page npages)).findPage q
      = if page ≤ q ∧ q < page + npages then none else vm.findPage q :=
  findPage_orKeep_update hle q

theorem pageProt_removeEntry : pageProt (vm.orKeep (vm.removeEntry page npages)) q
      = if page ≤ q ∧ q < page + npages then protNone else pageProt vm q := by
  unfold pageProt
  rw [findPage_removeEntry hle]
  split <;> rfl

theorem findPage_addEntry :
    (vm.orKeep (vm.addEntryWithOverwrite page npages prot maxprot flags backing fileOffset
      fileSize cageId)).findPage q = if page ≤ q ∧ q < page + npages then
        some (Vmmap.updateEntry page npages prot maxprot flags backing fileOffset fileSize cageId)
      else vm.findPage q :=
  findPage_orKeep_update hle q

theorem pageProt_addEntry :
    pageProt (vm.orKeep (vm.addEntryWithOverwrite page npages prot maxprot flags backing fileOffset
      fileSize cageId)) q = if page ≤ q ∧ q < page + npages then prot else pageProt vm q := by
  unfold pageProt
  rw [findPage_addEntry hle]
  split <;> rfl

end

theorem pageProt_changeProt (h : vm.changeProt page npages prot = some vm') (q : ℕ) :
    pageProt vm' q = if (page ≤ q ∧ q < vm.changeProtEnd page npages) ∧ (vm.findPage q).isSome
      then prot else pageProt vm q := by
  obtain ⟨start, n, hq⟩ := findPage_changeProt h q
  unfold pageProt
  rw [hq]
  cases vm.findPage q with
  | none => simp
  | some e =>
    simp only [map_some, getD_some, Vmmap.reprotect, isSome_some, and_true]

end PageProt

/-- The heap's entry names the pages up to the old break, where 32 bits hold what entries name. -/
theorem oldBrkPage_eq_of_lt (hheap : s.vm.heapStart < 2 ^ 32)
    (h : ∀ kv ∈ iter s.vm.entries, kv.2.endPage < 2 ^ 32) :
    oldBrkPage s = (heapEntry s).pageNum + (heapEntry s).npages := by
  refine Nat.mod_eq_of_lt ?_
  unfold heapEntry
  cases hfind : s.vm.findPage s.vm.heapStart with
  | none => exact hheap
  | some e =>
    obtain ⟨k, hk, -⟩ := (getAtPoint_eq_some _).mp hfind
    exact h _ hk

theorem oldBrkPage_eq (hl : Laid r s.vm) :
    oldBrkPage s = (heapEntry s).pageNum + (heapEntry s).npages :=
  oldBrkPage_eq_of_lt hl.heap fun _ hk => (hl.names _ hk).trans_lt (by decide)

/-- **The recorded protection after a moved break.** -/
theorem pageProt_resizeHeap (hl : Laid r s.vm) {newBrk : ℕ}
    (hstart : (heapEntry s).pageNum = s.vm.heapStart) (hle : s.vm.heapStart ≤ newBrk)
    (hold : oldBrkPage s < defaultVmmapSize) (hnew : newBrk < defaultVmmapSize) (q : ℕ) :
    pageProt (resizeHeap s newBrk) q =
      if s.vm.heapStart ≤ q ∧ q < newBrk then (heapEntry s).prot
      else if s.vm.heapStart ≤ q ∧ q < oldBrkPage s then protNone else pageProt s.vm q := by
  have hend := oldBrkPage_eq hl
  have hmax : defaultVmmapSize ≤ u32Max := by decide
  unfold resizeHeap
  rw [pageProt_addEntry (by omega), pageProt_removeEntry (by omega), ← hend, hstart,
    Nat.add_sub_cancel' hle]

/-! ## One step -/

section

variable (hs : InSync r s)
include hs

omit [LawfulIntervalMap M] in
theorem InSync.of_unchanged (h : Unchanged s s') : InSync r s' := by
  intro q hq
  rw [h.1, h.2]
  exact hs q hq

theorem InSync.of_maps {flags : BitVec 32} {backing : MemoryBackingType}
    {object : Option (MemObject × ℕ)} (h : Maps r s s' page npages prot flags backing object) :
    InSync r s' := by
  obtain ⟨_, _, _, _, hvm⟩ := h.vm
  intro q hq
  rw [h.host, Host.map_page, pageProt_update hvm]
  split
  · rfl
  · exact hs q hq

theorem InSync.of_unmaps (h : Unmaps r s s' page npages) : InSync r s' := by
  intro q hq
  rw [h.host, Host.map_page, pageProt_update h.vm]
  split
  · rfl
  · exact hs q hq

variable (hl : Laid r s.vm) {x : Except SyscallError (BitVec 32)}
include hl

/-- `munmap`: a page it leaves alone on the host has no entry, or is inaccessible already. -/
theorem inSync_munmap (hok : MunmapOk s addr len) (h : munmap s addr len = some (x, s')) :
    Laid r s'.vm ∧ InSync r s' := by
  rcases munmap_effect hl h with h | ⟨useraddr, huser, page, npages, rfl, rfl, hle, hvm, hhost⟩
  · exact ⟨h.1.symm ▸ hl, hs.of_unchanged h⟩
  · refine ⟨hvm ▸ hl.orKeep_update nofun, fun q hq => ?_⟩
    rw [hhost, hvm, pageProt_removeEntry hle]
    have hsq := hs q hq
    split
    · next hin => rw [if_pos hin.1]
    · next hout =>
      split
      · next hq' =>
        rw [hsq, pageProt]
        cases hfind : s.vm.findPage q with
        | none => rfl
        | some e =>
          obtain ⟨k, hk, hqk⟩ := (getAtPoint_eq_some _).mp hfind
          have hshm : e.backing.IsSharedMemory := by
            by_contra hno
            exact hout ⟨hq', e, hfind, hno⟩
          by_contra hprot
          exact hok useraddr huser (k, e) hk hshm hprot
            ⟨hqk.1.trans_lt hq'.2, hq'.1.trans hqk.2⟩
      · exact hsq

/-- `mprotect`: a page the vmmap does not follow the host on has the protection already. -/
theorem inSync_mprotect (hok : MprotectOk s addr len prot)
    (h : mprotect s addr len prot = some (x, s')) : Laid r s'.vm ∧ InSync r s' := by
  rcases mprotect_effect hl h with h | ⟨hvalid, haddr, useraddr, huser, hhost, hvm⟩
  · exact ⟨h.1.symm ▸ hl, hs.of_unchanged h⟩
  · refine ⟨hl.changeProt hvm, fun q hq => ?_⟩
    have hsq := hs q hq
    rw [hhost, Host.protect_page, pageProt_changeProt hvm]
    have hsize : defaultVmmapSize ≤ u32Max := by decide
    have hend : ∀ n, q < s.vm.changeProtEnd (useraddr / pageSize) n
        ↔ q < useraddr / pageSize + n := by
      intro n
      unfold Vmmap.changeProtEnd saturatingAdd32
      rw [hl.stop]
      omega
    simp only [hend]
    split
    · next hin =>
      have hi := hok hvalid haddr useraddr huser (q - useraddr / pageSize) (by omega)
      rw [Nat.add_sub_cancel' hin.1] at hi
      rcases hi hq with hprot | ⟨hsome, hlt⟩
      · split
        · rfl
        · exact hprot.symm
      · rw [if_pos ⟨⟨hin.1, by omega⟩, hsome⟩]
    · next hout =>
      have hmod : roundUpPage len.toNat / pageSize % 2 ^ 32 ≤ roundUpPage len.toNat / pageSize :=
        Nat.mod_le _ _
      rw [if_neg (by omega)]
      exact hsq

/-- `brk`: the host follows between the two ends, and what stays has the heap's protection. -/
theorem inSync_brk {newBrk : BitVec 32} (hok : BrkOk s newBrk) (h : brk s newBrk = some (x, s')) :
    Laid r s'.vm ∧ InSync r s' := by
  rcases brk_effect hl hok h with h | ⟨hgoes, hold, hnew, hle, hstart, hvm, object, -, hhost⟩
  · exact ⟨h.1.symm ▸ hl, hs.of_unchanged h⟩
  · obtain ⟨-, -, hprot⟩ := hok.resolve_left hgoes
    refine ⟨hvm ▸ hl.resizeHeap hnew.le (hstart ▸ hle), fun q hq => ?_⟩
    have hsq := hs q hq
    have hend := oldBrkPage_eq hl
    rw [hhost, hvm, Host.map_page, Host.map_page, pageProt_resizeHeap hl hstart hle hold hnew]
    by_cases hgrown : oldBrkPage s ≤ q ∧ q < oldBrkPage s + (brkPage newBrk - oldBrkPage s)
    · rw [if_pos hgrown, if_pos (by omega)]
    · rw [if_neg hgrown]
      by_cases hshrunk : brkPage newBrk ≤ q ∧ q < brkPage newBrk + (oldBrkPage s - brkPage newBrk)
      · rw [if_pos hshrunk, if_neg (by omega), if_pos (by omega)]
      · rw [if_neg hshrunk]
        by_cases hheap : s.vm.heapStart ≤ q ∧ q < brkPage newBrk
        · rw [if_pos hheap, hsq, ← hprot (q - s.vm.heapStart) (by omega),
            Nat.add_sub_cancel' hheap.1]
        · rw [if_neg hheap, if_neg (by omega)]
          exact hsq

end

/-- **One step**: a syscall that keeps the two sides together keeps them in sync. -/
theorem inSync_step {c : Syscall} (hinv : Laid r s.vm ∧ InSync r s) (hok : SyncOk s c)
    (h : step s c = some s') : Laid r s'.vm ∧ InSync r s' := by
  obtain ⟨hl, hs⟩ := hinv
  obtain ⟨⟨x, s₁⟩, hcall, rfl⟩ := map_eq_some_iff.mp h
  cases c with
  | mmap addr len prot flags fildes off fd =>
    rcases mmap_effect hl hok hcall with h | ⟨page, npages, backing, object, -, -, h⟩
    · exact ⟨h.1.symm ▸ hl, hs.of_unchanged h⟩
    · obtain ⟨_, _, _, _, hvm⟩ := h.vm
      exact ⟨hl.update (fun _ => h.le) hvm, hs.of_maps h⟩
  | munmap addr len => exact inSync_munmap hs hl hok hcall
  | mprotect addr len prot => exact inSync_mprotect hs hl hok hcall
  | brk newBrk => exact inSync_brk hs hl hok hcall
  | shmat shmid shmaddr shmflg =>
    rcases shmat_effect hl hcall with h | ⟨page, npages, h⟩
    · exact ⟨h.1.symm ▸ hl, hs.of_unchanged h⟩
    · obtain ⟨_, _, _, _, hvm⟩ := h.vm
      exact ⟨hl.update (fun _ => h.le) hvm, hs.of_maps h⟩
  | shmdt shmaddr =>
    rcases shmdt_effect hok hcall hl with h | ⟨page, npages, h⟩
    · exact ⟨h.1.symm ▸ hl, hs.of_unchanged h⟩
    · exact ⟨hl.removeEntry h.vm, hs.of_unmaps h⟩

/-! ## Runs -/

section

variable (r : Region) (heapStart : BitVec 32) (cageId : ℕ)
  (shmtable : BitVec 32 → Option ShmSegment)

theorem laid_fresh : Laid r (State.fresh r heapStart cageId shmtable : State M).vm :=
  ⟨rfl, rfl, heapStart.isLt, by simp [State.fresh, Vmmap.new, iter_new],
    by simp [State.fresh, Vmmap.new, iter_new]⟩

theorem inSync_fresh : InSync r (State.fresh r heapStart cageId shmtable : State M) := by
  intro q _
  simp [State.fresh, pageProt, Vmmap.findPage, Vmmap.new]

end

/-- **Host and vmmap stay in sync along every run whose steps keep them together**: from a new cage,
whatever segments exist, in every state such a run reaches. -/
theorem inSync_run (r : Region) (heapStart : BitVec 32) (cageId : ℕ)
    (shmtable : BitVec 32 → Option ShmSegment) (calls : List Syscall)
    (hok : StepsOk step SyncOk (State.fresh r heapStart cageId shmtable : State M) calls)
    (hrun : runSteps step (State.fresh r heapStart cageId shmtable : State M) calls = some s) :
    InSync r s := by
  have hstep : ∀ (t : State M) c t', (Laid r t.vm ∧ InSync r t) → SyncOk t c → step t c = some t' →
      Laid r t'.vm ∧ InSync r t' := fun _ _ _ => inSync_step
  exact (inv_of_stepsOk hstep ⟨laid_fresh r heapStart cageId shmtable,
    inSync_fresh r heapStart cageId shmtable⟩ hok hrun).2

/-- A region at 4 GiB, for the runs below. -/
def sampleRegion : Region := ⟨2 ^ 32, by decide, by decide⟩

/-- A segment of one page. -/
def sampleSegment : ShmSegment := ⟨4096, by decide, by decide, 0, false, fun _ => 0⟩

/-- A new cage beside one segment, its heap at page 256. -/
def sampleCage : State (SortedList VmmapEntry) :=
  State.fresh sampleRegion 256 1 fun shmid => if shmid = 1 then some sampleSegment else none

/-- Map four pages, protect two of them, unmap one, grow the heap, attach and detach a segment. -/
def sampleCalls : List Syscall :=
  [.mmap 0x10000 0x4000 3 0x32 0 0 ⟨none, 0⟩, .mprotect 0x100010000 0x2000 1,
   .munmap 0x100011000 0x1000, .brk 0x102000, .shmat 1 0 0, .shmdt 0x10000e000]

theorem inSync_sampleCalls :
    ∃ s, runSteps step sampleCage sampleCalls = some s ∧ InSync sampleRegion s := by
  have hok : StepsOk step SyncOk sampleCage sampleCalls := by decide +kernel
  obtain ⟨s, hs⟩ := isSome_iff_exists.mp
    (show (runSteps step sampleCage sampleCalls).isSome by decide +kernel)
  exact ⟨s, hs, inSync_run sampleRegion 256 1 _ sampleCalls hok hs⟩

/-- **`mprotect` of a page without an entry opens it on the host alone.** -/
theorem not_inSync_mprotect_unmapped :
    ¬ ∀ s, runSteps step sampleCage [.mprotect 0x100010000 0x1000 3] = some s →
      InSync sampleRegion s := by
  intro h
  obtain ⟨s, hs, hprot⟩ : ∃ t ∈ runSteps step sampleCage [.mprotect 0x100010000 0x1000 3],
      (t.host (sampleRegion.page 16)).prot ≠ pageProt t.vm 16 := by decide +kernel
  exact hprot (h s hs 16 (by decide))

end LindWasm.Memory

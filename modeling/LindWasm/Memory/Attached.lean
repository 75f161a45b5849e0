import LindWasm.Machinery.Tiling
import LindWasm.Memory.Sync

/-!
# Memory/Attached — the attachments of a cage against its vmmap

    revShm   [(a, s), (b, t), …]          host address and id of every attachment
    vmmap    page ↦ SharedMemory(s)       what backs each page

`shmat` and `shmdt` write both, the other syscalls the vmmap alone. While these stay off the pages
of the segments, the attachments tile what the vmmap gives to segments: a page is backed by a
segment exactly inside an attachment of it, and no two attachments share a page (`recorded_run`).
A place between two attachments of one segment is not an attachment, whatever backs its pages
(`not_recordedExactly_adjacent`).
-/

namespace LindWasm

open IntervalMap LawfulOnValid LawfulIntervalMap Function Option List Vmmap

/-- The segment behind a mapping, if there is one. -/
def MemoryBackingType.shmid? : MemoryBackingType → Option ℕ
  | .sharedMemory shmid => some shmid
  | .none | .anonymous | .fileDescriptor _ => .none

theorem MemoryBackingType.shmid?_eq_none {b : MemoryBackingType} :
    b.shmid? = .none ↔ ¬ b.IsSharedMemory := by
  cases b <;> simp [shmid?, IsSharedMemory]

namespace Memory

variable {M : Type*}

/-! ## Runs with forks -/

/-- A step of a cage: a syscall, or a fork, which the run follows in the parent or in the child. -/
inductive Event where
  | syscall (c : Syscall)
  | fork
  | forked (r : Region) (cageId : ℕ) (host : Host)

/-- The child of `fork_syscall`: a clone of the vmmap over a region of its own, and no attachment.
What the host maps there is `Memory/Fork`. -/
def forkChild (s : State M) (r : Region) (cageId : ℕ) (host : Host) : State M :=
  { s with
    vm := { s.vm with baseAddress := some r.base }
    host := host
    revShm := []
    cageId := cageId }

variable [IntervalMap M VmmapEntry]

def eventStep (s : State M) : Event → Option (State M)
  | .syscall c => step s c
  | .fork => some s
  | .forked r cageId host => some (forkChild s r cageId host)

/-! ## Attachments and what backs a page -/

/-- The segment that backs a page. -/
def segmentAt (vm : Vmmap M) (q : ℕ) : Option ℕ :=
  (vm.findPage q).bind fun e => e.backing.shmid?

variable (sizes : BitVec 32 → Option ℕ)

/-- The pages of the cage between the address of an attachment and its end. -/
def attachedPages (base : ℕ) (x : ℕ × BitVec 32) : Set ℕ :=
  {q | ∃ size, sizes x.2 = some size ∧
    x.1 ≤ base + q * pageSize ∧ base + q * pageSize < x.1 + size}

/-- The id of an attachment as an entry stores it. -/
def backingId (x : ℕ × BitVec 32) : ℕ := (x.2.signExtend 64).toNat

/-- The lengths of the segments of a table. -/
def segmentSizes (shmtable : BitVec 32 → Option ShmSegment) (shmid : BitVec 32) : Option ℕ :=
  (shmtable shmid).map ShmSegment.size

/-- **The attachments tile the pages of the segments.** -/
def Recorded (s : State M) : Prop :=
  ∃ base, s.vm.baseAddress = some base ∧
    Tiled (attachedPages sizes base) backingId s.revShm (segmentAt s.vm)

/-- A segment is recorded wherever all its pages from there on are backed by it, and nowhere else;
and no two attachments share a page. -/
def RecordedExactly (s : State M) : Prop :=
  ∀ base ∈ s.vm.baseAddress,
    (∀ x : ℕ × BitVec 32, base ≤ x.1 → x.1 % pageSize = 0 → (attachedPages sizes base x).Nonempty →
      (x ∈ s.revShm ↔ ∀ q ∈ attachedPages sizes base x, segmentAt s.vm q = some (backingId x))) ∧
    s.revShm.Pairwise fun x y =>
      ∀ q ∈ attachedPages sizes base x, q ∉ attachedPages sizes base y

/-- From `s` to `s'` the segment that backs the page at the address goes, all of it and nothing
else, and with it the attachment at the address. -/
def DetachesMapped (s s' : State M) (shmaddr : ℕ) : Prop :=
  ∃ base page x, s.vm.baseAddress = some base ∧ shmaddr = base + page * pageSize ∧
    x.1 = shmaddr ∧ segmentAt s.vm page = some (backingId x) ∧ s.revShm.Perm (x :: s'.revShm) ∧
    (∀ q ∈ attachedPages sizes base x, segmentAt s'.vm q = none) ∧
    ∀ q ∉ attachedPages sizes base x, segmentAt s'.vm q = segmentAt s.vm q

/-! ## The condition -/

/-- No segment backs a page of `[page, page + npages)`. -/
def Spares (vm : Vmmap M) (page npages : ℕ) : Prop :=
  ∀ kv ∈ iter vm.entries, kv.2.backing.IsSharedMemory →
    ¬ (kv.1.start < page + npages ∧ page ≤ kv.1.last)
deriving Decidable

/-- A moved break, and the heap before and after, stay off the segments. -/
def BrkSpares (s : State M) (newBrk : BitVec 32) : Prop :=
  BrkReturns s newBrk ∨ (¬ (heapEntry s).backing.IsSharedMemory ∧
    Spares s.vm s.vm.heapStart (heapEntry s).npages ∧
    Spares s.vm s.vm.heapStart (brkPage newBrk - s.vm.heapStart))
deriving Decidable

/-- The syscall stays off the pages of the segments, unless it is `shmat` or `shmdt`. -/
def SparesSegments (s : State M) : Syscall → Prop
  | .mmap addr len _ flags _ _ _ => flags &&& mapFixed ≠ 0 →
      Spares s.vm (addr.toNat % 2 ^ 32 / pageSize) (roundUpPage len.toNat / pageSize % 2 ^ 32)
  | .munmap addr len => ∀ useraddr ∈ s.vm.sysToUser addr.toNat,
      Spares s.vm (useraddr / pageSize) (roundUpPage len.toNat / pageSize % 2 ^ 32)
  | .brk newBrk => BrkSpares s newBrk
  | .mprotect .. | .shmat .. => True
  | .shmdt shmaddr => ShmdtOk s shmaddr

instance (s : State M) : (c : Syscall) → Decidable (SparesSegments s c) :=
  fun c => by induction c using Syscall.casesOn <;> dsimp only [SparesSegments] <;> infer_instance

/-- …and a child is followed only if its parent has nothing attached. -/
def EventOk (s : State M) : Event → Prop
  | .syscall c => SparesSegments s c
  | .fork => True
  | .forked .. => s.revShm = []

instance (s : State M) : (e : Event) → Decidable (EventOk s e) :=
  fun e => by cases e <;> dsimp only [EventOk] <;> infer_instance

variable {s s' : State M} {r : Region} {vm vm' vm'' : Vmmap M} {q : ℕ}

theorem segmentAt_of_findPage (h : vm.findPage q = none) : segmentAt vm q = none := by
  rw [segmentAt, h]
  rfl

/-! ## Changes of the vmmap that leave the segments alone -/

/-- The same segments behind the same pages of the same region. -/
structure SameSegments (vm vm' : Vmmap M) : Prop where
  base : vm'.baseAddress = vm.baseAddress
  stop : vm'.endAddress = vm.endAddress
  segmentAt : ∀ q, segmentAt vm' q = segmentAt vm q

theorem SameSegments.refl (vm : Vmmap M) : SameSegments vm vm := ⟨rfl, rfl, fun _ => rfl⟩

theorem SameSegments.trans (h : SameSegments vm vm') (h' : SameSegments vm' vm'') :
    SameSegments vm vm'' :=
  ⟨h'.base.trans h.base, h'.stop.trans h.stop, fun q => (h'.segmentAt q).trans (h.segmentAt q)⟩

variable [LawfulIntervalMap M]

theorem Spares.segmentAt {page npages : ℕ} (h : Spares vm page npages) (hle : page ≤ q)
    (hlt : q < page + npages) : segmentAt vm q = none := by
  cases hfind : vm.findPage q with
  | none => exact segmentAt_of_findPage hfind
  | some e =>
    rw [Memory.segmentAt, hfind]
    obtain ⟨k, hk, hqk⟩ := (getAtPoint_eq_some _).mp hfind
    exact MemoryBackingType.shmid?_eq_none.mpr fun hshm =>
      h (k, e) hk hshm ⟨hqk.1.trans_lt hlt, hle.trans hqk.2⟩

section SameSegments

variable {page npages : ℕ} {prot maxprot flags : BitVec 32} {backing : MemoryBackingType}
  {remove : Bool} {fileOffset fileSize : ℤ} {cageId : ℕ}

theorem segmentAt_update
    (h : vm.update page npages prot maxprot flags backing remove fileOffset fileSize cageId
      = .ok vm') (q : ℕ) :
    segmentAt vm' q = if page ≤ q ∧ q < page + npages then if remove then none else backing.shmid?
      else segmentAt vm q := by
  unfold segmentAt
  rw [findPage_update h]
  split
  · cases remove <;> rfl
  · rfl

/-- An update that puts no segment where there was none, refused or not. -/
theorem SameSegments.orKeep_update (hbacking : remove = false → ¬ backing.IsSharedMemory)
    (hnone : ∀ q, page ≤ q → q < page + npages → Memory.segmentAt vm q = none) :
    SameSegments vm (vm.orKeep (vm.update page npages prot maxprot flags backing remove fileOffset
      fileSize cageId)) := by
  refine orKeep_induction (.refl vm) fun h => ?_
  obtain ⟨-, -, hvm⟩ := update_eq_ok.mp h
  refine ⟨by rw [hvm], by rw [hvm], fun q => ?_⟩
  rw [segmentAt_update h]
  split
  · next hq =>
    rw [hnone q hq.1 hq.2]
    cases remove with
    | true => rfl
    | false => exact MemoryBackingType.shmid?_eq_none.mpr (hbacking rfl)
  · rfl

theorem SameSegments.changeProt (h : vm.changeProt page npages prot = some vm') :
    SameSegments vm vm' := by
  obtain ⟨-, hvm⟩ := changeProt_eq_some.mp h
  refine ⟨by rw [hvm], by rw [hvm], fun q => ?_⟩
  obtain ⟨start, n, hq⟩ := findPage_changeProt h q
  unfold Memory.segmentAt
  rw [hq]
  cases vm.findPage q <;> rfl

theorem SameSegments.resizeHeap {newBrk : ℕ} (hbacking : ¬ (heapEntry s).backing.IsSharedMemory)
    (hold : Spares s.vm (heapEntry s).pageNum (heapEntry s).npages)
    (hnew : Spares s.vm (heapEntry s).pageNum (newBrk - (heapEntry s).pageNum)) :
    SameSegments s.vm (resizeHeap s newBrk) := by
  have hremoved : SameSegments s.vm
      (s.vm.orKeep (s.vm.removeEntry (heapEntry s).pageNum (heapEntry s).npages)) :=
    .orKeep_update nofun fun _ => hold.segmentAt
  refine hremoved.trans (.orKeep_update (fun _ => hbacking) fun q hle hlt => ?_)
  rw [hremoved.segmentAt]
  exact hnew.segmentAt hle hlt

end SameSegments

/-! ## Syscalls that leave the attachments alone -/

/-- The same attachments, the same table, the same segments behind the same pages. -/
structure SameAttachments (s s' : State M) : Prop where
  vm : SameSegments s.vm s'.vm
  revShm : s'.revShm = s.revShm
  shmtable : s'.shmtable = s.shmtable

omit [LawfulIntervalMap M] in
theorem SameAttachments.refl (s : State M) : SameAttachments s s := ⟨.refl _, rfl, rfl⟩

/-- Whatever is returned, the attachments are as they were. -/
def Keeps (s : State M) (o : Outcome M) : Prop :=
  ∀ x s', o = some (x, s') → SameAttachments s s'

section Syscalls

variable {addr len off : BitVec 64} {prot flags fildes newBrk : BitVec 32} {fd : FdView}
  {roundedLength useraddr : ℕ}

/-- The pages of a mapping are not those of a segment: found pages are free. -/
theorem mapAddress_segmentAt (hstop : s.vm.endAddress = defaultVmmapSize) {a : ℕ}
    (hfixed : flags &&& mapFixed ≠ 0 →
      Spares s.vm (a % 2 ^ 32 / pageSize) (roundedLength / pageSize % 2 ^ 32))
    (h : mapAddress s a flags roundedLength = some (some useraddr)) (q : ℕ)
    (hle : useraddr / pageSize ≤ q)
    (hlt : q < useraddr / pageSize + roundedLength / pageSize % 2 ^ 32) :
    segmentAt s.vm q = none := by
  rcases mapAddress_cases hstop h with ⟨hf, rfl⟩ | ⟨start, rfl, -, -, hfree⟩
  · exact (hfixed hf).segmentAt hle hlt
  · rw [Nat.mul_div_cancel start (by decide)] at hle hlt
    exact segmentAt_of_findPage (hfree q hle hlt)

theorem keeps_mapAt {sysaddr l : ℕ}
    (hnone : ∀ q, useraddr / pageSize ≤ q →
      q < useraddr / pageSize + roundedLength / pageSize % 2 ^ 32 → segmentAt s.vm q = none) :
    Keeps s (mapAt s useraddr sysaddr l roundedLength prot flags fildes off fd) := by
  intro x s' h
  obtain ⟨_, _, rfl | ⟨maxprot, backing, hbacking, rfl⟩⟩ := mapAt_reaches h
  · exact ⟨.refl _, rfl, rfl⟩
  · exact ⟨.orKeep_update (fun _ => hbacking) hnone, rfl, rfl⟩

theorem keeps_mmap (hstop : s.vm.endAddress = defaultVmmapSize)
    (hok : SparesSegments s (.mmap addr len prot flags fildes off fd)) :
    Keeps s (mmap s addr len prot flags fildes off fd) := by
  intro x s' h
  rcases mmapIf_reaches (mmapIf_true s .. ▸ h) with
    rfl | ⟨-, useraddr, -, sysaddr, -, hfound, -, -, -, h⟩
  · exact .refl _
  · exact keeps_mapAt (mapAddress_segmentAt hstop hok hfound) x s' h

theorem keeps_munmap (hok : SparesSegments s (.munmap addr len)) : Keeps s (munmap s addr len) := by
  intro x s' h
  rcases munmap_reaches h with rfl | ⟨useraddr, huser, -, host, -, rfl⟩
  · exact .refl _
  · exact ⟨.orKeep_update nofun fun _ => (hok useraddr huser).segmentAt, rfl, rfl⟩

theorem keeps_mprotect : Keeps s (mprotect s addr len prot) := by
  intro x s' h
  rcases mprotect_reaches h with rfl | ⟨-, -, useraddr, -, vm, hvm, rfl⟩
  · exact .refl _
  · exact ⟨.changeProt hvm, rfl, rfl⟩

theorem keeps_brk (hok : BrkSpares s newBrk) : Keeps s (brk s newBrk) := by
  intro x s' h
  rcases brk_reaches h with rfl | ⟨hgoes, -, hstart, h⟩
  · exact .refl _
  · obtain ⟨hbacking, hold, hnew⟩ := hok.resolve_left hgoes
    rw [← hstart] at hold hnew
    have hvm : SameSegments s.vm (resizeHeap s (brkPage newBrk)) := .resizeHeap hbacking hold hnew
    rcases h with ⟨rfl, -⟩ | hmove
    · exact ⟨hvm, rfl, rfl⟩
    · obtain ⟨_, _, rfl⟩ := moveBreak_eq hmove
      exact ⟨hvm, rfl, rfl⟩

end Syscalls

/-! ## The invariant -/

/-- The attachments tile the segments' pages of the region, and the table still has the lengths of
`sizes`. -/
structure Attached (r : Region) (s : State M) : Prop where
  base : s.vm.baseAddress = some r.base
  stop : s.vm.endAddress = defaultVmmapSize
  lengths : ∀ id seg, s.shmtable id = some seg → sizes id = some seg.size
  tiled : Tiled (attachedPages sizes r.base) backingId s.revShm (segmentAt s.vm)

section Attached

variable {sizes : BitVec 32 → Option ℕ} {shmid shmflg : BitVec 32} {segment : ShmSegment}
  {useraddr index : ℕ}

theorem mem_attachedPages (hsize : sizes shmid = some segment.size) (ha : useraddr % pageSize = 0) :
    q ∈ attachedPages sizes r.base (useraddr + r.base, shmid) ↔
      useraddr / pageSize ≤ q ∧ q < useraddr / pageSize + segment.size / pageSize := by
  have haligned := segment.size_aligned
  simp only [attachedPages, Set.mem_ofPred_eq, hsize, some.injEq, exists_eq_left']
  rw [pageSize_eq] at *
  omega

omit [LawfulIntervalMap M] in
/-- The attachment at an index in front, the others as `swap_remove` leaves them behind it. -/
theorem Detaches.perm (hd : Detaches r s s' index shmid segment useraddr) :
    s.revShm.Perm ((useraddr + r.base, shmid) :: s'.revShm) := by
  rw [hd.revShm]
  exact perm_cons_swapRemove hd.recorded

section

variable (h : Attached sizes r s)
include h

omit [LawfulIntervalMap M] in
theorem Attached.keeps (hk : SameAttachments s s') :
    Attached sizes r s' where
  base := hk.vm.base.trans h.base
  stop := hk.vm.stop.trans h.stop
  lengths := hk.shmtable.symm ▸ h.lengths
  tiled := by
    rw [hk.revShm]
    exact h.tiled.congr hk.vm.segmentAt

/-- **An attachment is one piece more.** -/
theorem Attached.attaches (ha : Attaches r s s' shmid shmflg segment useraddr) :
    Attached sizes r s' := by
  obtain ⟨hpos, -, hvm⟩ := update_eq_ok.mp ha.vm
  have hsize := h.lengths shmid segment ha.found
  refine ⟨by rw [hvm]; exact h.base, by rw [hvm]; exact h.stop, fun id seg hid => ?_, ?_⟩
  · rw [ha.shmtable] at hid
    by_cases hne : id = shmid
    · subst hne
      rw [update_self] at hid
      cases hid
      exact hsize
    · rw [update_of_ne hne] at hid
      exact h.lengths id seg hid
  · rw [ha.revShm]
    refine h.tiled.snoc ⟨useraddr / pageSize, ?_⟩ (fun q hq => ?_) (fun q hq => ?_) fun q hq => ?_
    · exact (mem_attachedPages hsize ha.aligned).mpr ⟨le_rfl, by omega⟩
    · obtain ⟨hle, hlt⟩ := (mem_attachedPages hsize ha.aligned).mp hq
      exact segmentAt_of_findPage (ha.free q hle hlt)
    · rw [segmentAt_update ha.vm, if_pos ((mem_attachedPages hsize ha.aligned).mp hq)]
      rfl
    · rw [segmentAt_update ha.vm,
        if_neg fun hin => hq ((mem_attachedPages hsize ha.aligned).mpr hin)]

/-- **A detachment takes the segment that backs the page at the address.** -/
theorem Detaches.detachesMapped (hd : Detaches r s s' index shmid segment useraddr) :
    DetachesMapped sizes s s' (useraddr + r.base) := by
  obtain ⟨hpos, -, -⟩ := update_eq_ok.mp hd.vm
  have hsize := h.lengths shmid segment hd.found
  have hmem := fun q => mem_attachedPages (r := r) (q := q) hsize hd.aligned
  have hx : (useraddr + r.base, shmid) ∈ s.revShm := mem_of_getElem? hd.recorded
  refine ⟨r.base, useraddr / pageSize, (useraddr + r.base, shmid), h.base, ?_, rfl, ?_, hd.perm,
    fun q hq => ?_, fun q hq => ?_⟩
  · rw [Nat.div_mul_cancel (Nat.dvd_of_mod_eq_zero hd.aligned), Nat.add_comm]
  · exact h.tiled.eq_some hx ((hmem _).mpr ⟨le_rfl, by omega⟩)
  · rw [segmentAt_update hd.vm, if_pos ((hmem q).mp hq)]
    rfl
  · rw [segmentAt_update hd.vm, if_neg fun hin => hq ((hmem q).mpr hin)]

/-- **…and is one piece less.** -/
theorem Attached.detaches (hd : Detaches r s s' index shmid segment useraddr) :
    Attached sizes r s' := by
  obtain ⟨-, -, hvm⟩ := update_eq_ok.mp hd.vm
  refine ⟨by rw [hvm]; exact h.base, by rw [hvm]; exact h.stop, fun id seg hid => ?_, ?_⟩
  · obtain ⟨seg₀, hseg₀, hsize⟩ := hd.shmtable id seg hid
    rw [hsize]
    exact h.lengths id seg₀ hseg₀
  · obtain ⟨base, page, x, hbase, haddr, hx, -, hperm, hin, hout⟩ := hd.detachesMapped h
    obtain rfl : r.base = base := mem_unique h.base hbase
    exact (h.tiled.perm hperm).tail hin hout

omit [LawfulIntervalMap M] in
/-- A child has nothing attached, and nothing to attach if its parent had nothing. -/
theorem Attached.forked (hnil : s.revShm = []) (r' : Region) (cageId : ℕ) (host : Host) :
    Attached sizes r' (forkChild s r' cageId host) where
  base := rfl
  stop := h.stop
  lengths := h.lengths
  tiled := by
    refine .nil fun q => eq_none_iff_forall_ne_some.mpr fun b hb => ?_
    obtain ⟨x, hx, -⟩ := (h.tiled.eq_some_iff q b).mp hb
    rw [hnil] at hx
    exact absurd hx not_mem_nil

/-- **One syscall.** -/
theorem attached_step {c : Syscall} (hok : SparesSegments s c) (hstep : step s c = some s') :
    Attached sizes r s' := by
  obtain ⟨⟨x, s₁⟩, hcall, rfl⟩ := map_eq_some_iff.mp hstep
  cases c with
  | mmap addr len prot flags fildes off fd => exact h.keeps (keeps_mmap h.stop hok x s₁ hcall)
  | munmap addr len => exact h.keeps (keeps_munmap hok x s₁ hcall)
  | mprotect addr len prot => exact h.keeps (keeps_mprotect x s₁ hcall)
  | brk newBrk => exact h.keeps (keeps_brk hok x s₁ hcall)
  | shmat shmid shmaddr shmflg =>
    rcases shmat_attaches h.base h.stop hcall with rfl | ⟨segment, useraddr, ha⟩
    · exact h
    · exact h.attaches ha
  | shmdt shmaddr =>
    rcases shmdt_detaches hok hcall h.base with ⟨rfl, -⟩ | ⟨index, shmid, segment, useraddr, -, hd⟩
    · exact h
    · exact h.detaches hd

end

/-- **One event**, after which the region may be the child's. -/
theorem attached_eventStep {e : Event} (h : ∃ r, Attached sizes r s) (hok : EventOk s e)
    (hstep : eventStep s e = some s') : ∃ r, Attached sizes r s' := by
  obtain ⟨r, h⟩ := h
  cases e with
  | syscall c => exact ⟨r, attached_step h hok hstep⟩
  | fork =>
    cases hstep
    exact ⟨r, h⟩
  | forked r' cageId host =>
    cases hstep
    exact ⟨r', h.forked hok r' cageId host⟩

end Attached

/-! ## Runs -/

theorem attached_fresh (r : Region) (heapStart : BitVec 32) (cageId : ℕ)
    (shmtable : BitVec 32 → Option ShmSegment) :
    Attached (segmentSizes shmtable) r (State.fresh r heapStart cageId shmtable : State M) where
  base := rfl
  stop := rfl
  lengths id seg hid := congrArg (Option.map ShmSegment.size) hid
  tiled := .nil fun q => by simp [State.fresh, segmentAt, Vmmap.findPage, Vmmap.new]

/-- **The attachments of a cage tile the segments' pages in every run that keeps off them**: from a
new cage, whatever segments exist, in every state such a run reaches — and there `shmdt` detaches
the segment that is mapped at its address. -/
theorem recorded_run (r : Region) (heapStart : BitVec 32) (cageId : ℕ)
    (shmtable : BitVec 32 → Option ShmSegment) (events : List Event)
    (hok : StepsOk eventStep EventOk (State.fresh r heapStart cageId shmtable : State M) events)
    (hrun : runSteps eventStep (State.fresh r heapStart cageId shmtable : State M) events
      = some s) :
    Recorded (segmentSizes shmtable) s ∧
      ∀ shmaddr length s', ShmdtOk s shmaddr → shmdt s shmaddr = some (.ok length, s') →
        DetachesMapped (segmentSizes shmtable) s s' shmaddr.toNat := by
  obtain ⟨r', h⟩ := inv_of_stepsOk (fun _ _ _ => attached_eventStep)
    ⟨r, attached_fresh r heapStart cageId shmtable⟩ hok hrun
  refine ⟨⟨r'.base, h.base, h.tiled⟩, fun shmaddr length s' hsize hcall => ?_⟩
  rcases shmdt_detaches hsize hcall h.base with ⟨-, e, he⟩ | ⟨_, _, _, useraddr, haddr, hd⟩
  · exact absurd he nofun
  · rw [haddr]
    exact hd.detachesMapped h

/-- One segment, of two pages. -/
def twoPages (shmid : BitVec 32) : Option ShmSegment :=
  if shmid = 1 then some ⟨0x2000, by decide, by decide, 0, false, fun _ => 0⟩ else none

/-- A new cage beside that segment. -/
def twoPagesCage : State (SortedList VmmapEntry) := State.fresh sampleRegion 256 1 twoPages

/-- Attach the segment below a mapping at page 29, move that mapping to page 31, and attach the
segment once more, from page 28 on. -/
def adjacentCalls : List Event :=
  [.mmap 0x1d000 0x1000 3 0x32 0 0 ⟨none, 0⟩, .shmat 1 0 0, .munmap 0x10001d000 0x1000,
   .mmap 0x1f000 0x1000 3 0x32 0 0 ⟨none, 0⟩, .shmat 1 0x1c000 0].map .syscall

/-- The same in a child, which forks in its turn. -/
def forkedCalls : List Event :=
  .forked sampleRegion 2 (fun _ => ⟨protNone, none⟩) :: adjacentCalls ++ [.fork]

theorem recorded_forkedCalls :
    ∃ s s', runSteps eventStep twoPagesCage forkedCalls = some s ∧
      Recorded (segmentSizes twoPages) s ∧ shmdt s 0x10001c000 = some (.ok 0, s') ∧
      DetachesMapped (segmentSizes twoPages) s s' 0x10001c000 := by
  have hok : StepsOk eventStep EventOk twoPagesCage forkedCalls := by decide +kernel
  obtain ⟨s, hs, hcond, hshmdt⟩ : ∃ t ∈ runSteps eventStep twoPagesCage forkedCalls,
      ShmdtOk t 0x10001c000 ∧ (shmdt t 0x10001c000).map Prod.fst = some (.ok 0) := by
    decide +kernel
  obtain ⟨hrecorded, hdetaches⟩ := recorded_run sampleRegion 256 1 twoPages forkedCalls hok hs
  obtain ⟨⟨_, s'⟩, hs', rfl⟩ := map_eq_some_iff.mp hshmdt
  exact ⟨s, s', hs, hrecorded, hs', hdetaches _ _ _ hcond hs'⟩

/-- **Between two attachments of one segment there is no third**: the last page of the first and
the first page of the second are backed by the segment, and nothing is recorded there. -/
theorem not_recordedExactly_adjacent :
    ¬ ∀ s, runSteps eventStep twoPagesCage adjacentCalls = some s →
      RecordedExactly (segmentSizes twoPages) s := by
  intro h
  obtain ⟨s, hs, hbase, hrecorded, hlast, hfirst⟩ :
      ∃ t ∈ runSteps eventStep twoPagesCage adjacentCalls,
        t.vm.baseAddress = some (2 ^ 32) ∧ (0x10001b000, 1) ∉ t.revShm ∧
          segmentAt t.vm 27 = some 1 ∧ segmentAt t.vm 28 = some 1 := by decide +kernel
  have hpages : ∀ q, q ∈ attachedPages (segmentSizes twoPages) (2 ^ 32) (0x10001b000, 1) ↔
      q = 27 ∨ q = 28 := by
    intro q
    have hsize : segmentSizes twoPages 1 = some 0x2000 := rfl
    simp only [attachedPages, Set.mem_ofPred_eq, hsize, some.injEq, exists_eq_left',
      pageSize_eq]
    omega
  refine hrecorded (((h s hs _ hbase).1 (0x10001b000, 1) (by decide) (by decide)
    ⟨27, (hpages 27).mpr (.inl rfl)⟩).mpr fun q hq => ?_)
  rcases (hpages q).mp hq with rfl | rfl
  · exact hlast
  · exact hfirst

end Memory

end LindWasm

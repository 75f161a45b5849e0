import LindWasm.Memory.Sync

/-!
# Memory/Backed — which object a page of the host shows

    key ⟦a,b⟧ ↦ e,  MAP_SHARED:    page a+i of the cage shows page c+i of one object
    key ⟦a,b⟧ ↦ e,  private:       no page of it is shared

The vmmap says of an entry only whether it is shared; the host knows the object. A syscall that
maps or unmaps keeps the two in step on every key (`backed_step`), `brk` where the heap and what it
keeps are private.
-/

namespace LindWasm.Memory

open IntervalMap LawfulOnValid LawfulIntervalMap Option Vmmap Host

variable {M : Type*} [IntervalMap M VmmapEntry] {s s' : State M} {r : Region} {c : Syscall}
  {page npages : ℕ}

/-- The entry was mapped with `MAP_SHARED`. -/
def IsShared (e : VmmapEntry) : Prop := e.flags &&& mapShared ≠ 0

instance (e : VmmapEntry) : Decidable (IsShared e) := inferInstanceAs (Decidable (_ ≠ _))

/-- The host shows on `k` what the entry says: consecutive pages of one object, or private ones.
Nothing is said of System V segments. -/
def BackedAt (r : Region) (host : Host) (k : Interval) (e : VmmapEntry) : Prop :=
  (IsShared e → ∃ o i, ∀ q ∈ k, (host (r.page q)).shared = some (o, i + (q - k.start))) ∧
  (¬ IsShared e → ¬ e.backing.IsSharedMemory → ∀ q ∈ k, (host (r.page q)).shared = none)

/-- …for every stored entry. -/
def Backed (r : Region) (vm : Vmmap M) (host : Host) : Prop :=
  ∀ kv ∈ iter vm.entries, BackedAt r host kv.1 kv.2

/-- The call returns early, or the heap is private, and so is every page that stays in it. -/
def BrkPrivate (s : State M) (newBrk : BitVec 32) : Prop :=
  BrkReturns s newBrk ∨
  (¬ IsShared (heapEntry s) ∧
    ∀ i < min (oldBrkPage s) (brkPage newBrk) - s.vm.heapStart,
      ∃ e ∈ s.vm.findPage (s.vm.heapStart + i), ¬ IsShared e ∧ ¬ e.backing.IsSharedMemory)

instance (s : State M) (newBrk : BitVec 32) : Decidable (BrkPrivate s newBrk) :=
  inferInstanceAs (Decidable (_ ∨ _))

/-- The syscall keeps the two sides together, and a heap stays private. -/
def BackedOk (s : State M) : Syscall → Prop
  | .brk newBrk => BrkOk s newBrk ∧ BrkPrivate s newBrk
  | c => SyncOk s c

instance (s : State M) : (c : Syscall) → Decidable (BackedOk s c) :=
  fun c => by induction c using Syscall.casesOn <;> dsimp only [BackedOk] <;> infer_instance

theorem BackedOk.syncOk (h : BackedOk s c) : SyncOk s c := by
  cases c with
  | brk newBrk => exact h.1
  | _ => exact h

/-! ## Parts of a key -/

/-- What holds on a key holds on its parts, for any entry with the same flags and backing. -/
theorem BackedAt.mono {host host' : Host} {k j : Interval} {e w : VmmapEntry}
    (h : BackedAt r host k e) (hflags : w.flags = e.flags) (hbacking : w.backing = e.backing)
    (hstart : k.start ≤ j.start) (hlast : j.last ≤ k.last)
    (hhost : ∀ q ∈ j, (host' (r.page q)).shared = (host (r.page q)).shared) :
    BackedAt r host' j w := by
  have hsub : ∀ q ∈ j, q ∈ k := fun q hq => ⟨hstart.trans hq.1, hq.2.trans hlast⟩
  unfold BackedAt IsShared at *
  rw [hflags, hbacking]
  refine ⟨fun hsh => ?_, fun hpr hb q hq => (hhost q hq).trans (h.2 hpr hb q (hsub q hq))⟩
  obtain ⟨o, i, hi⟩ := h.1 hsh
  refine ⟨o, i + (j.start - k.start), fun q hq => ?_⟩
  rw [hhost q hq, hi q (hsub q hq)]
  have := hq.1
  congr 2
  omega

variable [LawfulIntervalMap M]

/-! ## The updates of the vmmap -/

section Updates

variable {vm vm' : Vmmap M} {host host' : Host} {page npages : ℕ}
  {prot maxprot flags : BitVec 32} {backing : MemoryBackingType} {remove : Bool}
  {fileOffset fileSize : ℤ} {cageId : ℕ} (hb : Backed r vm host)
include hb

section

variable (hout : ∀ q, (vm.findPage q).isSome → ¬ (page ≤ q ∧ q < page + npages) →
  (host' (r.page q)).shared = (host (r.page q)).shared)
include hout

/-- **An update keeps the objects in step** if the host shows the same where an entry stays, and
what the new entry says where there is one. -/
theorem Backed.update
    (h : vm.update page npages prot maxprot flags backing remove fileOffset fileSize cageId
      = .ok vm')
    (hnew : remove = false → BackedAt r host' (Vmmap.region page npages)
      (Vmmap.updateEntry page npages prot maxprot flags backing fileOffset fileSize cageId)) :
    Backed r vm' host' := by
  obtain ⟨hn, -, -⟩ := update_eq_ok.mp h
  rintro ⟨j, w⟩ hj
  rcases (mem_iter_update h).mp hj with ⟨hremove, rfl, rfl⟩ | ⟨k, hk, hpiece⟩
  · exact hnew hremove
  · obtain ⟨-, hs, hl, hoff⟩ := hpiece.spec ((sorted_iter _).valid _ hk)
    refine (hb _ hk).mono rfl rfl hs hl fun q hq => hout q ?_ ?_
    · rw [Vmmap.findPage, getAtPoint_of_mem hk ⟨hs.trans hq.1, hq.2.trans hl⟩]
      rfl
    · intro hin
      rw [← mem_region hn] at hin
      exact hoff ⟨hq.1.trans hin.2, hin.1.trans hq.2⟩

/-- …and so for one that is refused only if it names no page. -/
theorem Backed.orKeep_update (hle : page + npages ≤ u32Max)
    (hnew : remove = false → 0 < npages → BackedAt r host' (Vmmap.region page npages)
      (Vmmap.updateEntry page npages prot maxprot flags backing fileOffset fileSize cageId)) :
    Backed r (vm.orKeep (vm.update page npages prot maxprot flags backing remove fileOffset
      fileSize cageId)) host' := by
  rcases orKeep_update_cases vm page npages prot maxprot flags backing remove fileOffset
    fileSize cageId with ⟨hno, h⟩ | ⟨hacc, h⟩
  · rw [h]
    intro kv hkv
    refine (hb kv hkv).mono rfl rfl le_rfl le_rfl fun q hq => hout q ?_ ?_
    · rw [Vmmap.findPage, getAtPoint_of_mem hkv hq]
      rfl
    · exact fun hin => hno ⟨by omega, hle⟩
  · exact hb.update hout h fun hremove => hnew hremove hacc.1

end

theorem Backed.changeProt (h : vm.changeProt page npages prot = some vm')
    (hhost : ∀ q, (host' (r.page q)).shared = (host (r.page q)).shared) : Backed r vm' host' := by
  obtain ⟨hlt, -⟩ := changeProt_eq_some.mp h
  intro x hx
  rcases (mem_iter_changeProt h).mp hx with ⟨hx, -⟩ | ⟨y, hy, hov, hxy⟩
  · exact (hb x hx).mono rfl rfl le_rfl le_rfl fun q _ => hhost q
  · obtain ⟨-, hs, hl⟩ := pieces_inside ((sorted_iter _).valid y hy) hlt hov hxy
    obtain ⟨hflags, hbacking⟩ := pieces_fields hxy
    exact (hb y hy).mono hflags hbacking hs hl fun q _ => hhost q

end Updates

/-! ## One step -/

theorem or_mapFixed_and_mapShared (flags : BitVec 32) :
    (flags ||| mapFixed) &&& mapShared = flags &&& mapShared := by
  rw [BitVec.and_comm, BitVec.and_or_distrib_left, BitVec.and_comm mapShared mapFixed]
  simp [mapFixed, mapShared, BitVec.and_comm]

variable (hb : Backed r s.vm s.host)
include hb

omit [LawfulIntervalMap M] in
theorem Backed.of_unchanged (h : Unchanged s s') : Backed r s'.vm s'.host := by
  rw [h.1, h.2]
  exact hb

/-- A mapping whose object is there just when its flags ask for one. -/
theorem Backed.of_maps {prot flags : BitVec 32} {backing : MemoryBackingType}
    {object : Option (MemObject × ℕ)} (h : Maps r s s' page npages prot flags backing object)
    (hshared : flags &&& mapShared ≠ 0 → object.isSome)
    (hprivate : flags &&& mapShared = 0 → ¬ backing.IsSharedMemory → object = none) :
    Backed r s'.vm s'.host := by
  obtain ⟨maxprot, fileOffset, fileSize, cageId, hvm⟩ := h.vm
  refine hb.update (fun q _ hq => ?_) hvm fun _ => ⟨fun hsh => ?_, fun hpr hno q hq => ?_⟩
  · rw [h.host, map_page, if_neg hq]
  · obtain ⟨⟨o, i⟩, rfl⟩ := isSome_iff_exists.mp (hshared hsh)
    refine ⟨o, i, fun q hq => ?_⟩
    rw [h.host, map_page, if_pos ((mem_region h.pos).mp hq)]
    rfl
  · rw [h.host, map_page, if_pos ((mem_region h.pos).mp hq),
      hprivate (not_not.mp hpr) hno]
    rfl

theorem Backed.of_unmaps (h : Unmaps r s s' page npages) : Backed r s'.vm s'.host := by
  refine hb.update (fun q _ hq => ?_) h.vm ?_
  · rw [h.host, map_page, if_neg hq]
  · exact nofun

/-- `brk`: what it maps is private, and so is what it keeps. -/
theorem backed_brk {newBrk : BitVec 32} {x : Except SyscallError (BitVec 32)} (hl : Laid r s.vm)
    (hok : BrkOk s newBrk) (hpriv : BrkPrivate s newBrk) (h : brk s newBrk = some (x, s')) :
    Backed r s'.vm s'.host := by
  rcases brk_effect hl hok h with h | ⟨hgoes, hold, hnew, hle, hstart, hvm, object, hobj, hhost⟩
  · exact hb.of_unchanged h
  obtain ⟨hheap, hkept⟩ := hpriv.resolve_left hgoes
  have hmax : defaultVmmapSize ≤ u32Max := by decide
  have hend := oldBrkPage_eq hl
  obtain rfl : object = none := by
    rw [or_mapFixed_and_mapShared, ← not_iff_not, not_isSome_iff_eq_none] at hobj
    exact hobj.mpr hheap
  rw [hvm]
  -- the old entry goes first, on the host as it was
  have hremoved : Backed r (s.vm.orKeep
      (s.vm.removeEntry (heapEntry s).pageNum (heapEntry s).npages)) s.host :=
    hb.orKeep_update (fun _ _ _ => rfl) (by omega) nofun
  refine hremoved.orKeep_update (fun q hq hoff => ?_) (by omega) fun _ hpos =>
    ⟨fun hsh => absurd hsh hheap, fun _ _ q hq => ?_⟩
  · -- off the new heap the host changed only where the old entry was
    have hout : ¬ ((heapEntry s).pageNum ≤ q ∧
        q < (heapEntry s).pageNum + (heapEntry s).npages) := by
      intro hin
      rw [findPage_removeEntry (by omega), if_pos hin] at hq
      exact absurd hq nofun
    rw [hhost, map_page, map_page, if_neg (by omega), if_neg (by omega)]
  · -- in the new heap a page is mapped anew or was private before
    rw [mem_region hpos] at hq
    rw [hhost, map_page]
    split
    · rfl
    · next hnot =>
      obtain ⟨e, hfind, hpr, hno⟩ := hkept (q - s.vm.heapStart) (by omega)
      obtain ⟨k, hk, hqk⟩ := (getAtPoint_eq_some _).mp hfind
      rw [Nat.add_sub_cancel' (by omega)] at hqk
      rw [map_page, if_neg (by omega)]
      exact (hb _ hk).2 hpr hno q hqk

/-- **One step** keeps every page of the host showing what its entry says. -/
theorem backed_step (hl : Laid r s.vm) (hok : BackedOk s c) (h : step s c = some s') :
    Backed r s'.vm s'.host := by
  obtain ⟨⟨x, s₁⟩, hcall, rfl⟩ := map_eq_some_iff.mp h
  cases c with
  | mmap addr len prot flags fildes off fd =>
    rcases mmap_effect hl hok hcall with h | ⟨page, npages, backing, object, -, hobj, h⟩
    · exact hb.of_unchanged h
    · refine hb.of_maps h hobj.mpr fun hpr _ => ?_
      rw [← not_isSome_iff_eq_none, hobj]
      exact not_not.mpr hpr
  | munmap addr len =>
    rcases munmap_effect hl hcall with h | ⟨useraddr, -, page, npages, -, -, hle, hvm, hhost⟩
    · exact hb.of_unchanged h
    · rw [hvm]
      refine hb.orKeep_update (fun q _ hq => ?_) hle nofun
      rw [hhost, if_neg fun hin => hq hin.1]
  | mprotect addr len prot =>
    rcases mprotect_effect hl hcall with h | ⟨-, -, useraddr, -, hhost, hvm⟩
    · exact hb.of_unchanged h
    · refine hb.changeProt hvm fun q => ?_
      rw [hhost, protect_page]
      split <;> rfl
  | brk newBrk => exact backed_brk hb hl hok.1 hok.2 hcall
  | shmat shmid shmaddr shmflg =>
    rcases shmat_effect hl hcall with h | ⟨page, npages, h⟩
    · exact hb.of_unchanged h
    · exact hb.of_maps h (fun hsh => rfl) fun _ hno => absurd trivial hno
  | shmdt shmaddr =>
    rcases shmdt_effect hok hcall hl with h | ⟨page, npages, h⟩
    · exact hb.of_unchanged h
    · exact hb.of_unmaps h

end LindWasm.Memory

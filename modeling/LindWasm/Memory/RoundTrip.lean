import LindWasm.Memory.Sync
import LindWasm.Shm.Basic
import LindWasm.Vmmap.Space

/-!
# Memory/RoundTrip — a new segment, attached and detached

    shmget(size) --> shmid        shmat(shmid) --> a        shmdt(a) --> 0, and all as before

The size of a segment is a `usize`. `shmget` compares its low 32 bits with the limits, and `shmdt`
gets it from its helper as an `i32` that is also an error code. `shm_roundTrip_iff` says for which
sizes, and in which cages with room, the round trip works.
-/

namespace LindWasm.Memory

open IntervalMap LawfulOnValid LawfulIntervalMap Align Function Option List Vmmap

variable {M α : Type*} [IntervalMap M VmmapEntry] {s s' s₁ s₂ : State M} {r : Region}
  {shmid shmaddr shmflg : BitVec 32} {segment : ShmSegment} {useraddr : ℕ}

/-! ## The round trip -/

/-- The table of all cages and the one a cage's memory sees show the same segment. -/
structure SameSegment (segment : ShmSegment) (segment' : Shm.Segment) : Prop where
  size : segment.size = segment'.size
  nattch : segment.nattch = segment'.nattch
  rmid : segment.rmid = segment'.rmid
  attachedCages : ∀ c, segment.attachedCages c = (segment'.attachedCages.lookup c).getD 0

/-- Attached and detached again, the segment leaves no trace in the vmmap, the reverse list and the
table. -/
def RoundTrip (r : Region) (s : State M) (shmid shmaddr shmflg : BitVec 32) : Prop :=
  ∃ a s₁ s₂, shmat s shmid shmaddr shmflg = some (.ok a, s₁) ∧
    shmdt s₁ (BitVec.ofNat 64 (a.toNat + r.base)) = some (.ok 0, s₂) ∧
    (∀ q, s₂.vm.findPage q = s.vm.findPage q) ∧ s₂.revShm = s.revShm ∧ s₂.shmtable = s.shmtable

/-- Where `shmat` starts to look for space. -/
def shmatStart (s : State M) (shmaddr : BitVec 32) : ℕ :=
  if shmaddr.toNat = 0 then s.vm.startAddress else shmaddr.toNat / pageSize

/-- The space `shmat` finds for a segment. -/
def shmatSpace (s : State M) (shmaddr : BitVec 32) (segment : ShmSegment) :
    Option (Option Interval) :=
  s.vm.findMapSpaceFrom (shmatStart s shmaddr) (segment.size / pageSize) 1

/-- A cage beside a segment nobody has attached: a map of 32-bit addresses in its region, a valid
address asked for, and room for the segment from there on. -/
structure Receives (r : Region) (s : State M) (shmid shmaddr : BitVec 32) (segment : ShmSegment) :
    Prop where
  base : s.vm.baseAddress = some r.base
  stop : s.vm.endAddress = defaultVmmapSize
  found : s.shmtable shmid = some segment
  unattached : ∀ p ∈ s.revShm, p.2 ≠ shmid
  aligned : shmaddr.toNat % pageSize = 0
  room : ∃ i, Vmmap.FreeRun s.vm (shmatStart s shmaddr) (segment.size / pageSize) 1 i

/-- The length of the segment is a positive `i32`, the gaps suit the search for space, and where it
leads no old attachment is on record. -/
structure ComesBack (r : Region) (s : State M) (shmaddr : BitVec 32) (segment : ShmSegment) :
    Prop where
  size_lt : segment.size < 2 ^ 31
  searchable : Vmmap.Searchable s.vm (shmatStart s shmaddr) (segment.size / pageSize) 1
  no_record : ∀ space, shmatSpace s shmaddr segment = some (some space) →
    ∀ p ∈ s.revShm, p.1 ≠ space.start * pageSize + r.base

/-! ## Attaching -/

/-- A segment there is room for is no longer than the address space. -/
theorem Receives.size_le (h : Receives r s shmid shmaddr segment) : segment.size ≤ 2 ^ 32 := by
  obtain ⟨i, hrun⟩ := h.room
  have hsize := hrun.size
  have hend := hrun.lt_end
  have haligned := segment.size_aligned
  rw [h.stop, defaultVmmapSize_eq] at hend
  simp only [ceilTo, Nat.add_sub_cancel, Nat.div_one, Nat.mul_one] at hsize
  rw [pageSize_eq] at *
  omega

theorem Receives.pages_le (h : Receives r s shmid shmaddr segment) :
    segment.size / pageSize ≤ u32Max := by
  have hsize := h.size_le
  rw [pageSize_eq, u32Max_eq]
  omega

theorem search_eq_shmatSpace (hsize : segment.size < 2 ^ 32) :
    (if shmaddr.toNat = 0 then s.vm.findMapSpace (segment.size / pageSize % 2 ^ 32) 1
      else s.vm.findMapSpaceWithHint (segment.size % 2 ^ 32 / pageSize) 1
        (shmaddr.toNat / pageSize)) = shmatSpace s shmaddr segment := by
  have hpages : segment.size / pageSize % 2 ^ 32 = segment.size / pageSize := by
    rw [pageSize_eq]
    omega
  rw [hpages, Nat.mod_eq_of_lt hsize]
  unfold shmatSpace shmatStart
  split <;> rfl

theorem space_of_shmat (h : Receives r s shmid shmaddr segment) (hsize : segment.size < 2 ^ 32)
    {a : BitVec 32} (hat : shmat s shmid shmaddr shmflg = some (.ok a, s₁)) :
    ∃ space, shmatSpace s shmaddr segment = some (some space) := by
  have hround : roundUpPage segment.size = segment.size :=
    roundUpPage_eq_self.mpr segment.size_aligned
  unfold shmat at hat
  rw [h.found] at hat
  dsimp only at hat
  rw [if_neg (not_not.mpr (roundUpPage_eq_self.mpr h.aligned)), hround,
    search_eq_shmatSpace hsize] at hat
  obtain ⟨found, hspace, hat⟩ := bind_eq_some_iff.mp hat
  cases found with
  | none => exact absurd (Prod.mk.inj (some.inj hat)).1 nofun
  | some space => exact ⟨space, hspace⟩

section Lawful

variable [LawfulIntervalMap M]

section

variable (h : Receives r s shmid shmaddr segment) {i : Interval}
  (hspace : shmatSpace s shmaddr segment = some (some i))
include h hspace

/-- The space found for the segment: pages of the region, all of them free. -/
theorem Receives.space : 0 < segment.size / pageSize ∧
      i.start + segment.size / pageSize ≤ defaultVmmapSize ∧
      ∀ q, i.start ≤ q → q < i.start + segment.size / pageSize →
        s.vm.findPage q = none := by
  have hstop : s.vm.endAddress ≤ u32Max := h.stop ▸ by decide
  obtain ⟨hn, hlen, -, hlast, hfree⟩ := findMapSpaceFrom_free hstop h.pages_le hspace
  rw [h.stop] at hlast
  exact ⟨hn, by omega, fun q hq hq' => hfree q ⟨hq, by omega⟩⟩

theorem Receives.space_le :
    i.start * pageSize < 2 ^ 32 ∧ i.start * pageSize + segment.size ≤ 2 ^ 32 := by
  obtain ⟨hn, hle, -⟩ := h.space hspace
  have haligned := segment.size_aligned
  rw [defaultVmmapSize_eq] at hle
  rw [pageSize_eq] at *
  omega

/-- **`shmat` attaches the segment where space is found.** -/
theorem shmat_of_space (hsize : segment.size < 2 ^ 32) (shmflg : BitVec 32) :
    ∃ s₁, shmat s shmid shmaddr shmflg = some (.ok (BitVec.ofNat 32 (i.start * pageSize)), s₁) ∧
      s₁.cageId = s.cageId ∧ Attaches r s s₁ shmid shmflg segment (i.start * pageSize) := by
  obtain ⟨hn, hle, hfree⟩ := h.space hspace
  obtain ⟨hlow, hsum⟩ := h.space_le hspace
  have hround : roundUpPage segment.size = segment.size :=
    roundUpPage_eq_self.mpr segment.size_aligned
  have hpages : segment.size / pageSize % 2 ^ 32 = segment.size / pageSize :=
    Nat.mod_eq_of_lt ((Nat.div_le_self _ _).trans_lt hsize)
  have hpage : i.start * pageSize / pageSize = i.start := Nat.mul_div_cancel _ (by decide)
  have hfits := r.fits
  have hsys : s.vm.userToSys (i.start * pageSize) = some (i.start * pageSize + r.base) :=
    (userToSys_eq_some h.base).mpr ⟨by omega, rfl⟩
  have hback : s.vm.sysToUser (i.start * pageSize + r.base) = some (i.start * pageSize) :=
    (sysToUser_eq_some h.base).mpr ⟨by rw [u32Max_eq]; omega, rfl⟩
  obtain ⟨vm, hvm⟩ : ∃ vm, s.vm.addEntryWithOverwrite i.start (segment.size / pageSize)
      (shmProt shmflg) (shmProt shmflg) 0 (.sharedMemory (shmid.signExtend 64).toNat) 0
      segment.size s.cageId = .ok vm :=
    ⟨_, update_eq_ok.mpr ⟨hn, hle.trans (by decide), rfl⟩⟩
  refine ⟨{ shmatHelper s (i.start * pageSize + r.base) shmflg shmid segment with vm := vm },
    ?_, rfl, h.found, Nat.mul_mod_left _ _, hsum, ?_, ?_, ?_, rfl, rfl⟩
  rotate_left
  · rw [hpage]
    exact hfree
  · rw [hpage]
    exact hvm
  · simp only [shmatHelper, r.div_pageSize]
  · unfold shmat
    rw [h.found]
    dsimp only
    rw [if_neg (not_not.mpr (roundUpPage_eq_self.mpr h.aligned)), hround,
      search_eq_shmatSpace hsize, hspace, bind_some]
    dsimp only
    rw [Nat.mod_eq_of_lt hlow, if_neg (by omega), hsys, bind_some]
    rw [show (shmatHelper s (i.start * pageSize + r.base) shmflg shmid segment).vm = s.vm
      from rfl, hback, bind_some, if_neg (not_not.mpr rfl), hpages, hpage]
    rw [show (shmatHelper s (i.start * pageSize + r.base) shmflg shmid segment).cageId
      = s.cageId from rfl, hvm]
    rfl

end

end Lawful

/-! ## Detaching -/

theorem ShmSegment.detach_attach (segment : ShmSegment) (cageid : ℕ)
    (hnattch : segment.nattch < 2 ^ 32) : (segment.attach cageid).detach cageid = some segment := by
  unfold detach attach
  dsimp only
  rw [if_neg (by rw [update_self]; omega)]
  have hback : ((segment.nattch + 1) % 2 ^ 32 + (2 ^ 32 - 1)) % 2 ^ 32 = segment.nattch := by omega
  rw [hback, update_self, Nat.add_sub_cancel, update_idem,
    update_eq_self]

theorem swapRemove_concat (l : List α) (x : α) : swapRemove (l ++ [x]) l.length = l := by
  unfold swapRemove
  rw [getLast?_concat]
  simp

/-- Below the end, the last element takes the place of the removed one. -/
theorem swapRemove_concat_of_lt {l : List α} {index : ℕ} (x : α) (h : index < l.length) :
    swapRemove (l ++ [x]) index = l.set index x := by
  unfold swapRemove
  rw [getLast?_concat]
  dsimp only
  rw [set_append_left _ _ h, dropLast_concat]

/-- An address without an old record is found at the end of the list. -/
theorem findIdx?_concat_of_new {l : List (ℕ × BitVec 32)} {address : ℕ}
    (h : ∀ p ∈ l, p.1 ≠ address) :
    (l ++ [(address, shmid)]).findIdx? (fun val => val.1 = address) = some l.length := by
  rw [findIdx?_append]
  have hnone : l.findIdx? (fun val => val.1 = address) = none :=
    findIdx?_eq_none_iff.mpr fun p hp => decide_eq_false (h p hp)
  simp [hnone]

section

variable (ha : Attaches r s s₁ shmid shmflg segment useraddr)
  (hcage : s₁.cageId = s.cageId) (hnattch : segment.nattch < 2 ^ 32) (hrmid : segment.rmid = false)
  (hnew : ∀ p ∈ s.revShm, p.1 ≠ useraddr + r.base)
include ha hcage hnattch hrmid hnew

/-- **The helper after an attachment without an old record** gives the length of the segment, and
reverse list and table are as before the attachment. -/
theorem shmdtHelper_attached :
    shmdtHelper s₁ (useraddr + r.base) = some (.ok (BitVec.ofNat 32 segment.size),
      { s₁ with
        host := s₁.host.map ((useraddr + r.base) / pageSize) (segment.size / pageSize) protNone none
        revShm := s.revShm
        shmtable := s.shmtable }) := by
  have hsame : update s.shmtable shmid (some segment) = s.shmtable := by
    rw [← ha.found, update_eq_self]
  unfold shmdtHelper
  rw [ha.revShm, findIdx?_concat_of_new hnew]
  dsimp only
  rw [getElem?_concat_length, bind_some, ha.shmtable, update_self,
    bind_some, hcage, segment.detach_attach s.cageId hnattch, map_some,
    swapRemove_concat, update_idem, if_neg (by rw [hrmid]; simp), hsame]
  rfl

/-- **`shmdt` undoes the attachment of a segment below 2 GiB.** -/
theorem shmdt_attached [LawfulIntervalMap M] (hb : s.vm.baseAddress = some r.base)
    (hsize : segment.size < 2 ^ 31) :
    ∃ s₂, shmdt s₁ (BitVec.ofNat 64 (useraddr + r.base)) = some (.ok 0, s₂) ∧
      (∀ q, s₂.vm.findPage q = s.vm.findPage q) ∧ s₂.revShm = s.revShm ∧
      s₂.shmtable = s.shmtable := by
  obtain ⟨hn, hmax, hvm⟩ := update_eq_ok.mp ha.vm
  have hfits := r.fits
  have hle := ha.le
  have haligned := ha.aligned
  have hbase := r.base_aligned
  have hpos : 0 < segment.size := Nat.pos_of_div_pos hn
  have haddr : (BitVec.ofNat 64 (useraddr + r.base)).toNat = useraddr + r.base := by
    rw [BitVec.toNat_ofNat]
    omega
  obtain ⟨hlength, hsign⟩ := length_of_lt hsize
  have hb₁ : s₁.vm.baseAddress = some r.base := by rw [hvm, hb]
  have hback : s₁.vm.sysToUser (useraddr + r.base) = some useraddr :=
    (sysToUser_eq_some hb₁).mpr ⟨by rw [u32Max_eq]; omega, rfl⟩
  obtain ⟨vm, hremove⟩ : ∃ vm,
      s₁.vm.removeEntry (useraddr / pageSize) (segment.size / pageSize) = .ok vm :=
    ⟨_, update_eq_ok.mpr ⟨hn, hmax, rfl⟩⟩
  have hpages : ∀ q, vm.findPage q = s.vm.findPage q := fun q => by
    rw [findPage_update hremove, findPage_update ha.vm]
    split
    · next hq => exact (ha.free q hq.1 hq.2).symm
    · rfl
  refine ⟨{ s₁ with
    vm := vm
    host := s₁.host.map ((useraddr + r.base) / pageSize) (segment.size / pageSize) protNone none
    revShm := s.revShm
    shmtable := s.shmtable }, ?_, hpages, rfl, rfl⟩
  unfold shmdt
  rw [haddr, if_neg (by rw [pageSize_eq] at *; omega),
    shmdtHelper_attached ha hcage hnattch hrmid hnew, bind_some]
  dsimp only
  rw [if_neg hsign, hback, bind_some, hlength, hremove]
  rfl

end

/-- What a `shmdt` that returns 0 has done: the helper's work and the removal of the pages. -/
theorem shmdt_eq_zero {address : BitVec 64} (h : shmdt s address = some (.ok 0, s')) :
    ∃ length s₁, shmdtHelper s address.toNat = some (.ok length, s₁) ∧ 0 ≤ length.toInt ∧
      s'.revShm = s₁.revShm ∧ s'.shmtable = s₁.shmtable := by
  unfold shmdt at h
  split at h
  · exact absurd (Prod.mk.inj (some.inj h)).1 nofun
  obtain ⟨⟨x, s₁⟩, hhelper, h⟩ := bind_eq_some_iff.mp h
  cases x with
  | error e => exact absurd (Prod.mk.inj (some.inj h)).1 nofun
  | ok length =>
    dsimp only at h
    split at h
    · next hneg =>
      obtain ⟨hzero, -⟩ := Prod.mk.inj (some.inj h)
      rw [Except.ok.inj hzero] at hneg
      exact absurd hneg (by decide)
    next hneg =>
    obtain ⟨useraddr, -, h⟩ := bind_eq_some_iff.mp h
    split at h
    · exact absurd h nofun
    · obtain rfl := of_answer h
      exact ⟨length, s₁, hhelper, not_lt.mp hneg, rfl, rfl⟩

/-- A record at the address, of another segment, is detached instead. -/
theorem revShm_ne_of_record (ha : Attaches r s s₁ shmid shmflg segment useraddr)
    (hunattached : ∀ p ∈ s.revShm, p.2 ≠ shmid) (hold : ∃ p ∈ s.revShm, p.1 = useraddr + r.base)
    {length : BitVec 32} (h : shmdtHelper s₁ (useraddr + r.base) = some (.ok length, s₂)) :
    s₂.revShm ≠ s.revShm := by
  rcases shmdtHelper_cases h with ⟨-, e, he⟩ | ⟨index, shmid', -, hindex, -, -, -, -, -, hrev, -⟩
  · exact absurd he nofun
  obtain ⟨p, hp, hpaddr⟩ := hold
  obtain ⟨old, hold⟩ : ∃ old, s.revShm.findIdx? (fun val => val.1 = useraddr + r.base)
      = some old := by
    cases hfind : s.revShm.findIdx? (fun val => val.1 = useraddr + r.base) with
    | some old => exact ⟨old, rfl⟩
    | none =>
      exact absurd hpaddr (of_decide_eq_false (findIdx?_eq_none_iff.mp hfind p hp))
  rw [ha.revShm, findIdx?_append, hold, some_or] at hindex
  obtain rfl := some.inj hindex
  obtain ⟨hlt, -⟩ := findIdx?_eq_some_iff_getElem.mp hold
  rw [hrev, ha.revShm, swapRemove_concat_of_lt _ hlt]
  intro hsame
  -- the old record has given way to the one of the new segment
  have hget := congrArg (·[old]?) hsame
  simp only [getElem?_set_self hlt] at hget
  exact hunattached _ (mem_of_getElem? hget.symm) rfl

section Lawful

variable [LawfulIntervalMap M]

/-- **A new segment comes back just if** its length is an `i32`, the search for space is right, and
no old attachment is on record where it leads. -/
theorem roundTrip_iff (h : Receives r s shmid shmaddr segment) (hsize : segment.size < 2 ^ 32)
    (hpos : 0 < segment.size) (hnattch : segment.nattch < 2 ^ 32) (hrmid : segment.rmid = false) :
    RoundTrip r s shmid shmaddr shmflg ↔ ComesBack r s shmaddr segment := by
  have hstop : s.vm.endAddress ≤ u32Max := h.stop ▸ by decide
  have hn : 0 < segment.size / pageSize := by
    have := segment.size_aligned
    rw [pageSize_eq] at *
    omega
  have hsearch : Vmmap.FindsRun s.vm (shmatStart s shmaddr) (segment.size / pageSize) (2 ^ 0)
      (shmatSpace s shmaddr segment) ↔ Vmmap.Searchable s.vm _ _ (2 ^ 0) :=
    findMapSpaceFrom_iff hstop hn (by decide)
  rw [Nat.pow_zero] at hsearch
  have haddress : ∀ space : Interval, shmatSpace s shmaddr segment = some (some space) →
      (BitVec.ofNat 32 (space.start * pageSize)).toNat = space.start * pageSize :=
    fun space hspace => BitVec.toNat_ofNat _ _ ▸ Nat.mod_eq_of_lt (h.space_le hspace).1
  constructor
  · rintro ⟨a, s₁, s₂, hat, hdt, hvm, hrev, htable⟩
    obtain ⟨space, hspace⟩ := space_of_shmat h hsize hat
    obtain ⟨s₁', hat', hcage, ha⟩ := shmat_of_space h hspace hsize shmflg
    obtain ⟨rfl, rfl⟩ : a = _ ∧ s₁ = s₁' := by
      have := Prod.mk.inj (mem_unique hat hat')
      exact ⟨Except.ok.inj this.1, this.2⟩
    have hfits := r.fits
    have hle := ha.le
    obtain ⟨length, s₃, hhelper, hsign, hrev₃, -⟩ := shmdt_eq_zero hdt
    rw [haddress space hspace, BitVec.toNat_ofNat, Nat.mod_eq_of_lt (by omega)] at hhelper
    have hnew : ∀ p ∈ s.revShm, p.1 ≠ space.start * pageSize + r.base := fun p hp hold =>
      revShm_ne_of_record ha h.unattached ⟨p, hp, hold⟩ hhelper (hrev₃.symm.trans hrev)
    refine ⟨?_, ?_, fun space' hspace' => ?_⟩
    · rw [shmdtHelper_attached ha hcage hnattch hrmid hnew] at hhelper
      obtain ⟨hlength, -⟩ := Prod.mk.inj (some.inj hhelper)
      rw [← Except.ok.inj hlength] at hsign
      by_contra hge
      rw [BitVec.toInt_eq_toNat_cond, BitVec.toNat_ofNat, Nat.mod_eq_of_lt hsize,
        if_neg (by omega)] at hsign
      omega
    · exact hsearch.mp ⟨_, hspace, ⟨fun _ => h.room, fun _ => rfl⟩, fun i hi => by
        cases hi
        exact freeRun_of_found hstop (h.pages_le) hspace⟩
    · obtain rfl := some.inj (mem_unique hspace hspace')
      exact hnew
  · rintro ⟨hshort, hgaps, hnew⟩
    obtain ⟨answer, hanswer, hsome, -⟩ := hsearch.mpr hgaps
    obtain ⟨space, rfl⟩ := isSome_iff_exists.mp (hsome.mpr h.room)
    obtain ⟨s₁, hat, hcage, ha⟩ := shmat_of_space h hanswer hsize shmflg
    obtain ⟨s₂, hdt, hback⟩ :=
      shmdt_attached ha hcage hnattch hrmid (hnew space hanswer) h.base hshort
    refine ⟨_, s₁, s₂, hat, ?_, hback⟩
    rw [haddress space hanswer]
    exact hdt

/-- **Sizes of new segments, and the way back of a new segment.**  `shmget` keeps its limits just
below 4 GiB, and in a cage with room the segment comes back under the conditions above. -/
theorem shm_roundTrip_iff {sys sys' : Shm.System} {key flags : BitVec 32} {size : ℕ}
    (hkey : sys.shmkeyidtable key = none)
    (hget : sys.shmget key size flags true = some (.ok shmid, sys')) :
    (Shm.shmmin ≤ roundUpPage size ∧ roundUpPage size ≤ Shm.shmmax ↔ roundUpPage size < 2 ^ 32) ∧
      sys'.shmtable shmid = some (.new key (roundUpPage size)) ∧
      ∀ (s : State M) (segment : ShmSegment), SameSegment segment (.new key (roundUpPage size)) →
        Receives r s shmid shmaddr segment →
          (RoundTrip r s shmid shmaddr shmflg ↔ ComesBack r s shmaddr segment) := by
  unfold Shm.System.shmget at hget
  rw [hkey] at hget
  dsimp only at hget
  split at hget
  · exact absurd (Prod.mk.inj (some.inj hget)).1 nofun
  split at hget
  · exact absurd (Prod.mk.inj (some.inj hget)).1 nofun
  next hlimits =>
  obtain ⟨hid, rfl⟩ := Prod.mk.inj (some.inj hget)
  cases hid
  unfold Shm.shmmin Shm.shmmax at *
  refine ⟨by omega, update_self _ _ _, fun s segment hsame h => ?_⟩
  have hsize : segment.size = roundUpPage size := hsame.size
  have hnattch : segment.nattch = 0 := hsame.nattch
  have hle := h.size_le
  have haligned := segment.size_aligned
  rw [pageSize_eq] at haligned
  exact roundTrip_iff h (by omega) (by omega) (by omega) hsame.rmid

end Lawful

/-- A segment of one page in a new cage. -/
theorem shm_roundTrip_onePage :
    ∃ sys', (Shm.System.boot []).shmget 7 4096 0o1000 true = some (.ok 1, sys') ∧
      RoundTrip sampleRegion sampleCage 1 0 0 := by
  have hok : ((Shm.System.boot []).shmget 7 4096 0o1000 true).map Prod.fst = some (.ok 1) := by
    decide +kernel
  obtain ⟨⟨x, sys'⟩, hget, rfl⟩ := map_eq_some_iff.mp hok
  have hgap : sampleCage.vm.gapsFromPage (shmatStart sampleCage 0) = [⟨0, 2 ^ 20 - 1⟩] := by
    decide +kernel
  refine ⟨sys', hget, ((shm_roundTrip_iff rfl hget).2.2 sampleCage sampleSegment
    ⟨by decide, rfl, rfl, fun c => rfl⟩ ⟨rfl, rfl, rfl, nofun, rfl, ⟨0, 0⟩, ?_⟩).mpr
      ⟨by decide, ?_, nofun⟩⟩
  · refine ⟨one_dvd _, one_dvd _, by decide, Nat.zero_le _, by decide, fun q _ => ?_⟩
    simp [sampleCage, State.fresh, Vmmap.findPage, Vmmap.new]
  · exact searchable_singleton (by decide) hgap (by decide +kernel) (by decide +kernel)

/-- A segment of 2 GiB. -/
def hugeSegment : ShmSegment := ⟨2 ^ 31, by decide, by decide, 0, false, fun _ => 0⟩

/-- A new cage beside it. -/
def hugeCage : State (SortedList VmmapEntry) :=
  State.fresh sampleRegion 256 1 fun shmid => if shmid = 1 then some hugeSegment else none

/-- **A segment of 2 GiB does not come back**: `shmdt` returns its length, taken for an error code,
before it has removed the pages.  **And `shmget` accepts a size of 4 GiB and a page.** -/
theorem not_roundTrip_twoGiB :
    ((Shm.System.boot []).shmget 7 0x80000000 0o1000 true).map Prod.fst = some (.ok 1) ∧
      Receives sampleRegion hugeCage 1 0 hugeSegment ∧
      ¬ RoundTrip sampleRegion hugeCage 1 0 0 ∧
    ((Shm.System.boot []).shmget 7 0x100001000 0o1000 true).map Prod.fst = some (.ok 1) ∧
      ¬ roundUpPage 0x100001000 ≤ Shm.shmmax := by
  refine ⟨by decide +kernel, ⟨rfl, rfl, rfl, nofun, rfl, ⟨0, 2 ^ 19 - 1⟩, ?_⟩, ?_,
    by decide +kernel, by decide⟩
  · refine ⟨one_dvd _, one_dvd _, by decide, Nat.zero_le _, by decide, fun q _ => ?_⟩
    simp [hugeCage, State.fresh, Vmmap.findPage, Vmmap.new]
  · rintro ⟨a, s₁, s₂, hat, hdt, -⟩
    have hplace : (shmat hugeCage 1 0 0).map Prod.fst = some (.ok 0x7ffff000) := by decide +kernel
    have hfails : ∀ y ∈ shmat hugeCage 1 0 0, (shmdt y.2 0x17ffff000).map Prod.fst
        = some (.ok 0x80000000) := by decide +kernel
    rw [hat] at hplace
    obtain rfl := Except.ok.inj (some.inj hplace)
    have hlength := hfails _ hat
    rw [show (0x17ffff000 : BitVec 64) = BitVec.ofNat 64 ((0x7ffff000 : BitVec 32).toNat
      + sampleRegion.base) by decide, hdt] at hlength
    exact absurd (Except.ok.inj (some.inj hlength)) (by decide)

end LindWasm.Memory

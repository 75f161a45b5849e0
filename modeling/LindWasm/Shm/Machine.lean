import LindWasm.Memory.Attached
import LindWasm.Shm.Attach

/-!
# Shm/Machine — the segments of many cages, each with its own memory

    shmkeyidtable : key ↦ shmid        shmtable : shmid ↦ segment          shared by all cages
    rev_shm, vmmap                                                         one of each per cage

The tables are those of `Shm/Basic`, and where a segment goes is what `Memory/Basic` finds in the
cage's own vmmap. Along every run of `shmget`, `shmat`, `shmdt` and `shmctl` the four tables agree
and no detachment panics, as long as the counter that numbers the segments has not come round
(`consistent_run`).
-/

namespace LindWasm.Shm

open IntervalMap Function Option List Memory AList
open LindWasm.Memory (Region Attached attachedPages segmentAt backingId roundUpPage)

/-! ## The machine -/

def ipcRmid : BitVec 32 := 0

def ipcStat : BitVec 32 := 2

/-- Cage ids are below this. -/
def maxCageid : ℕ := 2048

/-- A segment as the memory of a cage sees it. -/
def Segment.seen (seg : Segment) : Option Memory.ShmSegment :=
  if h : seg.size % pageSize = 0 ∧ seg.size < 2 ^ 63 then
    some ⟨seg.size, h.1, h.2, seg.nattch, seg.rmid, fun c => (seg.attachedCages.lookup c).getD 0⟩
  else none

structure Machine (M : Type*) where
  sys : System
  vms : ℕ → Vmmap M
  host : Memory.Host
  /-- Every id that was given to a new segment, the latest first. -/
  issued : List Shmid

variable {M : Type*}

namespace Machine

/-- The memory of a cage beside the shared table. -/
def memory (m : Machine M) (c : ℕ) (cage : Cage) : Memory.State M :=
  { vm := m.vms c
    host := m.host
    shmtable := fun id => (m.sys.shmtable id).bind Segment.seen
    revShm := cage.revShm
    nextObject := 0
    cageId := c }

/-- A new segment is one under a key that had none. -/
def shmget (m : Machine M) (key : BitVec 32) (size : ℕ) (shmflg : BitVec 32) :
    Option (Machine M) :=
  (m.sys.shmget key size shmflg true).map fun y =>
    { m with
      sys := y.2
      issued := match m.sys.shmkeyidtable key, y.1 with
        | none, .ok id => id :: m.issued
        | _, _ => m.issued }

/-- `shmctl_syscall`; what `IPC_STAT` copies is not part of the tables. -/
def shmctl (m : Machine M) (shmid : Shmid) (cmd : BitVec 32) : Option (Machine M) :=
  match m.sys.shmtable shmid with
  | none => some m
  | some _ =>
      if cmd = ipcStat then some m
      else if cmd = ipcRmid then
        (m.sys.shmctlRmid shmid).map fun y => { m with sys := y.2 }
      else some m

variable [IntervalMap M VmmapEntry]

/-- The memory of the cage finds the place, and the tables record it. -/
def shmat (m : Machine M) (c : ℕ) (shmid : Shmid) (shmaddr shmflg : BitVec 32) :
    Option (Machine M) :=
  (m.sys.cages.lookup c).bind fun cage =>
    (Memory.shmat (m.memory c cage) shmid shmaddr shmflg).bind fun y =>
      (m.sys.shmat c shmid (y.1.toOption.map BitVec.toNat) true).map fun z =>
        { m with sys := z.2, vms := update m.vms c y.2.vm, host := y.2.host }

def shmdt (m : Machine M) (c : ℕ) (shmaddr : BitVec 64) : Option (Machine M) :=
  (m.sys.cages.lookup c).bind fun cage =>
    (m.sys.shmdt c shmaddr.toNat).bind fun z =>
      (Memory.shmdt (m.memory c cage) shmaddr).map fun y =>
        { m with sys := z.2, vms := update m.vms c y.2.vm, host := y.2.host }

end Machine

/-- The calls. -/
inductive Call where
  | shmget (key : BitVec 32) (size : ℕ) (shmflg : BitVec 32)
  | shmat (c : ℕ) (shmid : Shmid) (shmaddr shmflg : BitVec 32)
  | shmdt (c : ℕ) (shmaddr : BitVec 64)
  | shmctl (shmid : Shmid) (cmd : BitVec 32)

variable [IntervalMap M VmmapEntry]

variable (m : Machine M) {r : Region} {vms : ℕ → Vmmap M}

/-- One call; `none` when it panics. -/
def Machine.step : Call → Option (Machine M)
  | .shmget key size shmflg => m.shmget key size shmflg
  | .shmat c shmid shmaddr shmflg => m.shmat c shmid shmaddr shmflg
  | .shmdt c shmaddr => m.shmdt c shmaddr
  | .shmctl shmid cmd => m.shmctl shmid cmd

/-- Cages with nothing attached, and no segments. -/
def Machine.boot (cages : List (ℕ × ℕ)) (vms : ℕ → Vmmap M) (host : Memory.Host) : Machine M :=
  ⟨System.boot cages, vms, host, []⟩

/-- Every cage has an id below the limit and a 32-bit map of a region, in which no segment is. -/
def BootOk (cages : List (ℕ × ℕ)) (vms : ℕ → Vmmap M) : Prop :=
  ∀ c cage, (System.boot cages).cages.lookup c = some cage →
    c < maxCageid ∧ (∃ r : Region, r.base = cage.base) ∧
      (vms c).baseAddress = some cage.base ∧ (vms c).endAddress = defaultVmmapSize ∧
      ∀ q, segmentAt (vms c) q = none

/-- The key table names the segments of the table, by their keys. -/
def KeysOk (sys : System) : Prop :=
  ∀ key id, sys.shmkeyidtable key = some id ↔ ∃ seg, sys.shmtable id = some seg ∧ seg.key = key

/-- **The tables agree**: keys and segments name each other, no id was given twice, a segment that
is marked for removal is attached, the counters fit into 32 bits, and a detachment does not
panic. -/
structure Consistent : Prop where
  keys : KeysOk m.sys
  unique : m.issued.Nodup
  known : ∀ id seg, m.sys.shmtable id = some seg → id ∈ m.issued
  marked : ∀ id seg, m.sys.shmtable id = some seg → ¬ (seg.rmid = true ∧ seg.nattch = 0)
  counters : ∀ id seg, m.sys.shmtable id = some seg → seg.nattch < 2 ^ 32
  detaches : ∀ c cage, m.sys.cages.lookup c = some cage → ∀ shmaddr, m.shmdt c shmaddr ≠ none

/-- A segment is shorter than 2 GiB, and a new one is not the 2³² + 1st. -/
def CallOk : Call → Prop
  | .shmget key size _ =>
      roundUpPage size < 2 ^ 31 ∧ (m.sys.shmkeyidtable key = none → m.issued.length < 2 ^ 32)
  | .shmat .. | .shmdt .. | .shmctl .. => True

instance (m : Machine M) : (call : Call) → Decidable (CallOk m call) :=
  fun call => by cases call <;> dsimp only [CallOk] <;> infer_instance

/-! ## Keys -/

section Keys

variable {sys : System} {id : Shmid} {key : BitVec 32} {seg seg' : Segment}

omit [IntervalMap M VmmapEntry]

theorem KeysOk.setSegment (h : KeysOk sys) (hseg : sys.shmtable id = some seg)
    (hkey : seg'.key = seg.key) : KeysOk (sys.setSegment id seg') := by
  intro key' id'
  refine (h key' id').trans ?_
  unfold System.setSegment
  dsimp only
  by_cases hid : id' = id
  · subst hid
    simp [update_self, hseg, hkey]
  · rw [update_of_ne hid]

theorem KeysOk.remove (h : KeysOk sys) (hseg : sys.shmtable id = some seg) :
    KeysOk (sys.remove id seg.key) := by
  have hkey : sys.shmkeyidtable seg.key = some id := (h _ _).mpr ⟨seg, hseg, rfl⟩
  intro key' id'
  unfold System.remove
  dsimp only
  by_cases hk : key' = seg.key
  · -- the key was that of the segment, and of no other
    subst hk
    rw [update_self]
    refine iff_of_false nofun ?_
    rintro ⟨seg', hseg', hsame⟩
    by_cases hid : id' = id
    · rw [hid, update_self] at hseg'
      exact absurd hseg' nofun
    · rw [update_of_ne hid] at hseg'
      exact hid (some.inj (((h _ _).mpr ⟨seg', hseg', hsame⟩).symm.trans hkey))
  · rw [update_of_ne hk, h]
    by_cases hid : id' = id
    · subst hid
      rw [update_self, hseg]
      refine iff_of_false ?_ (by simp)
      rintro ⟨seg', hseg', hsame⟩
      exact hk (some.inj hseg' ▸ hsame.symm)
    · rw [update_of_ne hid]

theorem KeysOk.new (h : KeysOk sys) (hkey : sys.shmkeyidtable key = none)
    (hid : sys.shmtable id = none) (size : ℕ) (next : Shmid) :
    KeysOk { sys with
      nextid := next
      shmkeyidtable := update sys.shmkeyidtable key (some id)
      shmtable := update sys.shmtable id (some (.new key size)) } := by
  intro key' id'
  dsimp only
  by_cases hi : id' = id
  · subst hi
    rw [update_self]
    by_cases hk : key' = key
    · subst hk
      simp [update_self, Segment.new]
    · rw [update_of_ne hk, h, hid]
      simp [Segment.new, Ne.symm hk]
  · rw [update_of_ne hi]
    by_cases hk : key' = key
    · subst hk
      rw [update_self, ← h, hkey]
      simp [Ne.symm hi]
    · rw [update_of_ne hk, h]

end Keys

/-! ## One cage -/

/-- A cage is in order: its attachments tile the pages its vmmap gives to segments, and lie inside
the cage's memory. -/
structure CageSound (sizes : Shmid → Option ℕ) (vm : Vmmap M) (c : ℕ) (cage : Cage) : Prop where
  id_lt : c < maxCageid
  region : ∃ r : Region, r.base = cage.base
  base : vm.baseAddress = some cage.base
  stop : vm.endAddress = defaultVmmapSize
  tiled : Tiled (attachedPages sizes cage.base) backingId cage.revShm (segmentAt vm)
  inside : ∀ x ∈ cage.revShm, ∃ a size, x.1 = cage.base + a ∧ sizes x.2 = some size ∧
    a % pageSize = 0 ∧ a + size ≤ 2 ^ 32

/-- The machine is in order: `held` is what the cages have attached, `sizes` the length of every
segment there ever was. -/
structure Sound (held : Holdings) (sizes : Shmid → Option ℕ) : Prop where
  counts : World.Inv ⟨m.sys, held⟩
  keys : KeysOk m.sys
  lengths : ∀ id seg, m.sys.shmtable id = some seg → sizes id = some seg.size
  sized : ∀ id size, sizes id = some size →
    id ∈ m.issued ∧ 0 < size ∧ size % pageSize = 0 ∧ size < 2 ^ 31
  next : m.sys.nextid = BitVec.ofNat 32 (m.issued.length + 1)
  numbered : ∀ id ∈ m.issued, ∃ i < m.issued.length, id = BitVec.ofNat 32 (i + 1)
  unique : m.issued.Nodup
  cages : ∀ c cage, m.sys.cages.lookup c = some cage → CageSound sizes (m.vms c) c cage

section Cage

variable {m : Machine M} {held : Holdings} {sizes : Shmid → Option ℕ} {c : ℕ} {cage : Cage}
  {id : Shmid} {seg : Segment}

theorem Sound.seen (h : Sound m held sizes) (hseg : m.sys.shmtable id = some seg) (c : ℕ)
    (cage : Cage) :
    ∃ segment, (m.memory c cage).shmtable id = some segment ∧ segment.size = seg.size ∧
      segment.attachedCages = fun c => (seg.attachedCages.lookup c).getD 0 := by
  obtain ⟨-, -, haligned, hlt⟩ := h.sized id seg.size (h.lengths id seg hseg)
  have hseen : seg.size % pageSize = 0 ∧ seg.size < 2 ^ 63 := ⟨haligned, by omega⟩
  refine ⟨⟨seg.size, hseen.1, hseen.2, seg.nattch, seg.rmid,
    fun c => (seg.attachedCages.lookup c).getD 0⟩, ?_, rfl, rfl⟩
  change (m.sys.shmtable id).bind Segment.seen = _
  rw [hseg, bind_some, Segment.seen, dif_pos hseen]

omit [IntervalMap M VmmapEntry] in
theorem of_seen {segment : Memory.ShmSegment}
    (hseen : (m.memory c cage).shmtable id = some segment) :
    ∃ seg, m.sys.shmtable id = some seg ∧ segment.size = seg.size := by
  obtain ⟨seg, hseg, hseen⟩ := bind_eq_some_iff.mp hseen
  unfold Segment.seen at hseen
  split at hseen
  · cases hseen
    exact ⟨seg, hseg, rfl⟩
  · cases hseen

theorem Sound.attached (h : Sound m held sizes) (hc : m.sys.cages.lookup c = some cage)
    (hr : r.base = cage.base) : Attached sizes r (m.memory c cage) := by
  have hcage := h.cages c cage hc
  refine ⟨hr ▸ hcage.base, hcage.stop, fun id segment hseen => ?_, hr ▸ hcage.tiled⟩
  obtain ⟨seg, hseg, hsize⟩ := of_seen hseen
  rw [hsize]
  exact h.lengths id seg hseg

theorem Sound.shmdtOk (h : Sound m held sizes) (c : ℕ) (cage : Cage) (shmaddr : BitVec 64) :
    Memory.ShmdtOk (m.memory c cage) shmaddr := by
  intro i hi val hval segment hsegment
  obtain ⟨seg, hseg, hsize⟩ := of_seen hsegment
  rw [hsize]
  exact (h.sized _ _ (h.lengths _ _ hseg)).2.2.2

/-- Segments the cage has not attached do not matter to it. -/
theorem CageSound.congr_sizes {vm : Vmmap M} {sizes' : Shmid → Option ℕ}
    (h : CageSound sizes vm c cage)
    (hsizes : ∀ id, sizes id ≠ none → sizes' id = sizes id) : CageSound sizes' vm c cage := by
  have hsame : ∀ x ∈ cage.revShm, sizes' x.2 = sizes x.2 := fun x hx => by
    obtain ⟨a, size, -, hsize, -⟩ := h.inside x hx
    exact hsizes x.2 (by rw [hsize]; nofun)
  refine ⟨h.id_lt, h.region, h.base, h.stop, h.tiled.congr_area fun x hx => ?_, fun x hx => ?_⟩
  · unfold attachedPages
    rw [hsame x hx]
  · rw [hsame x hx]
    exact h.inside x hx

/-- **A place the memory finds is free**: nothing the cage has attached is there. -/
theorem Sound.placed (h : Sound m held sizes) (hc : m.sys.cages.lookup c = some cage)
    {useraddr : ℕ} (ha : useraddr % pageSize = 0)
    (hfree : segmentAt (m.vms c) (useraddr / pageSize) = none) :
    World.Placed ⟨m.sys, held⟩ (.shmat c id (some useraddr) true) := by
  intro att hatt
  by_contra hsome
  obtain ⟨id', hid'⟩ := ne_none_iff_exists'.mp hsome
  obtain ⟨att', hatt', hperm⟩ := h.counts.liveCage hc
  obtain rfl := mem_unique hatt hatt'
  have hmem : (cage.base + useraddr, id') ∈ cage.revShm :=
    hperm.mem_iff.mpr (mem_hostList.mpr ⟨useraddr, rfl, hid'⟩)
  have hcage := h.cages c cage hc
  obtain ⟨a, size, -, hsize, -⟩ := hcage.inside _ hmem
  obtain ⟨-, hpos, -⟩ := h.sized id' size hsize
  -- the first page of that attachment is one of the segment's
  have hpage : useraddr / pageSize ∈ attachedPages sizes cage.base (cage.base + useraddr, id') :=
    ⟨size, hsize, by rw [Nat.div_mul_cancel (Nat.dvd_of_mod_eq_zero ha)],
      by rw [Nat.div_mul_cancel (Nat.dvd_of_mod_eq_zero ha)]; omega⟩
  rw [hcage.tiled.eq_some hmem hpage] at hfree
  exact absurd hfree nofun

end Cage

/-! ## Steps -/

section Steps

variable {m m' : Machine M} {held : Holdings} {sizes : Shmid → Option ℕ} {c size address : ℕ}
  {cage : Cage} {id : Shmid} {seg : Segment} {key shmflg : BitVec 32} {shmaddr : BitVec 64}
  {vm : Vmmap M}

section

variable (h : Sound m held sizes)
include h

theorem Sound.next_notMem (hlt : m.issued.length < 2 ^ 32) : m.sys.nextid ∉ m.issued := by
  intro hmem
  obtain ⟨i, hi, heq⟩ := h.numbered _ hmem
  rw [h.next] at heq
  have := congrArg BitVec.toNat heq
  rw [BitVec.toNat_ofNat, BitVec.toNat_ofNat] at this
  omega

theorem Sound.sizes_next (hlt : m.issued.length < 2 ^ 32) : sizes m.sys.nextid = none := by
  by_contra hsome
  obtain ⟨size, hsize⟩ := ne_none_iff_exists'.mp hsome
  exact h.next_notMem hlt (h.sized _ _ hsize).1

theorem Sound.create (hkey : m.sys.shmkeyidtable key = none) (hlt : m.issued.length < 2 ^ 32)
    (hpos : 0 < size) (haligned : size % pageSize = 0) (hsize : size < 2 ^ 31) : Sound { m with
        sys := { m.sys with
          nextid := m.sys.nextid + 1
          shmkeyidtable := update m.sys.shmkeyidtable key (some m.sys.nextid)
          shmtable := update m.sys.shmtable m.sys.nextid (some (.new key size)) }
        issued := m.sys.nextid :: m.issued }
      held (update sizes m.sys.nextid (some size)) := by
  have hsizes := h.sizes_next hlt
  have hfresh : m.sys.shmtable m.sys.nextid = none := by
    by_contra hsome
    obtain ⟨seg, hseg⟩ := ne_none_iff_exists'.mp hsome
    rw [h.lengths _ _ hseg] at hsizes
    exact absurd hsizes nofun
  refine ⟨h.counts.new hfresh rfl rfl, h.keys.new hkey hfresh _ _, fun id seg hseg => ?_,
    fun id size' hid => ?_, ?_, fun id hid => ?_, nodup_cons.mpr ⟨h.next_notMem hlt, h.unique⟩,
    fun c cage hc => (h.cages c cage hc).congr_sizes fun id hid => ?_⟩
  · dsimp only at hseg
    by_cases hid : id = m.sys.nextid
    · subst hid
      rw [update_self] at hseg ⊢
      rw [← some.inj hseg]
      rfl
    · rw [update_of_ne hid] at hseg ⊢
      exact h.lengths id seg hseg
  · by_cases hnext : id = m.sys.nextid
    · subst hnext
      rw [update_self] at hid
      cases hid
      exact ⟨mem_cons_self, hpos, haligned, hsize⟩
    · rw [update_of_ne hnext] at hid
      obtain ⟨hmem, hrest⟩ := h.sized id size' hid
      exact ⟨mem_cons_of_mem _ hmem, hrest⟩
  · dsimp only
    rw [h.next, length_cons]
    refine BitVec.eq_of_toNat_eq ?_
    simp
  · rw [length_cons]
    rcases mem_cons.mp hid with rfl | hid
    · exact ⟨m.issued.length, Nat.lt_succ_self _, h.next⟩
    · obtain ⟨i, hi, heq⟩ := h.numbered id hid
      exact ⟨i, Nat.lt_succ_of_lt hi, heq⟩
  · rw [update_of_ne]
    rintro rfl
    exact hid hsizes

theorem Sound.shmget (hok : CallOk m (.shmget key size shmflg))
    (hs : m.shmget key size shmflg = some m') : ∃ sizes', Sound m' held sizes' := by
  obtain ⟨hsize, hlt⟩ := hok
  unfold Machine.shmget System.shmget at hs
  cases hkey : m.sys.shmkeyidtable key with
  | some id =>
    simp only [hkey] at hs
    split at hs <;> obtain rfl := some.inj hs <;> exact ⟨sizes, h⟩
  | none =>
    simp only [hkey] at hs
    split at hs
    · cases hs
      exact ⟨sizes, h⟩
    split at hs
    · cases hs
      exact ⟨sizes, h⟩
    next hlimits =>
    cases hs
    unfold shmmin at hlimits
    exact ⟨_, h.create hkey (hlt hkey) (by omega) (roundUpPage_mod size) hsize⟩

/-- The table after a segment is written under its id has the lengths it had. -/
theorem Sound.lengths_update (hseg : m.sys.shmtable id = some seg) {x : Option Segment}
    (hx : ∀ seg', x = some seg' → seg'.size = seg.size) {id' : Shmid} {seg' : Segment}
    (hid' : update m.sys.shmtable id x id' = some seg') : sizes id' = some seg'.size := by
  by_cases hid : id' = id
  · subst hid
    rw [update_self] at hid'
    rw [hx seg' hid']
    exact h.lengths _ _ hseg
  · rw [update_of_ne hid] at hid'
    exact h.lengths _ _ hid'

theorem Sound.shmctl {cmd : BitVec 32} (hs : m.shmctl id cmd = some m') : Sound m' held sizes := by
  unfold Machine.shmctl at hs
  split at hs
  · exact some.inj hs ▸ h
  next seg hseg =>
  split at hs
  · exact some.inj hs ▸ h
  split at hs
  swap
  · exact some.inj hs ▸ h
  obtain ⟨⟨x, sys⟩, hrmid, rfl⟩ := map_eq_some_iff.mp hs
  have hcounts : World.Inv ⟨sys, held⟩ :=
    h.counts.shmctlRmid (map_eq_some_iff.mpr ⟨_, hrmid, rfl⟩)
  unfold System.shmctlRmid at hrmid
  rw [hseg] at hrmid
  cases hrmid
  split
  · next hzero =>
    rw [if_pos hzero] at hcounts
    refine ⟨hcounts, h.keys.remove hseg, fun _ _ => h.lengths_update hseg ?_, h.sized, h.next,
      h.numbered, h.unique, h.cages⟩
    rintro _ ⟨⟩
  · next hzero =>
    rw [if_neg hzero] at hcounts
    refine ⟨hcounts, h.keys.setSegment hseg rfl, fun _ _ => h.lengths_update hseg ?_, h.sized,
      h.next, h.numbered, h.unique, h.cages⟩
    rintro _ ⟨⟩
    rfl

end

theorem cages_insert {cs : AList fun _ : ℕ => Cage}
    (h : ∀ c cage, cs.lookup c = some cage → CageSound sizes (vms c) c cage)
    (hcage : CageSound sizes vm c cage) {c' : ℕ} {cage' : Cage}
    (hc' : (cs.insert c cage).lookup c' = some cage') :
    CageSound sizes (update vms c vm c') c' cage' := by
  by_cases hc : c' = c
  · subst hc
    rw [lookup_insert] at hc'
    rw [update_self, ← some.inj hc']
    exact hcage
  · rw [lookup_insert_ne hc] at hc'
    rw [update_of_ne hc]
    exact h c' cage' hc'

theorem Sound.refused (h : Sound m held sizes) (c : ℕ) (cage : Cage) :
    Sound { m with vms := update m.vms c (m.memory c cage).vm,
                   host := (m.memory c cage).host } held sizes := by
  rw [show update m.vms c (m.memory c cage).vm = m.vms from update_eq_self ..]
  exact h

/-- The cage after its memory has changed: what is attached tiles it again, and is inside. -/
theorem CageSound.of_attached {s' : Memory.State M} {revShm : List (ℕ × Shmid)}
    (hcage : CageSound sizes vm c cage) (hr : r.base = cage.base) (hatt : Attached sizes r s')
    (hrev : s'.revShm = revShm)
    (hinside : ∀ x ∈ revShm, ∃ a size, x.1 = cage.base + a ∧ sizes x.2 = some size ∧
      a % pageSize = 0 ∧ a + size ≤ 2 ^ 32) : CageSound sizes s'.vm c { cage with revShm } :=
  ⟨hcage.id_lt, hcage.region, hr ▸ hatt.base, hatt.stop, hr ▸ hrev ▸ hatt.tiled, hinside⟩

theorem Sound.shmat [LawfulIntervalMap M] {shmaddr : BitVec 32} (h : Sound m held sizes)
    (hs : m.shmat c id shmaddr shmflg = some m') : ∃ held', Sound m' held' sizes := by
  obtain ⟨cage, hc, hs⟩ := bind_eq_some_iff.mp hs
  obtain ⟨⟨x, s'⟩, hmem, hs⟩ := bind_eq_some_iff.mp hs
  obtain ⟨⟨y, sys⟩, hsys, rfl⟩ := map_eq_some_iff.mp hs
  have hcage := h.cages c cage hc
  obtain ⟨r, hr⟩ := hcage.region
  have hatt := h.attached hc hr
  rcases shmat_cases hatt.base hatt.stop hmem with ⟨rfl, e, rfl⟩ |
    ⟨segment, useraddr, rfl, ha⟩
  · -- refused: no place, and nothing to record
    have hsame : sys = m.sys := by
      unfold System.shmat at hsys
      rw [hc, bind_some] at hsys
      split at hsys <;> exact (Prod.mk.inj (some.inj hsys)).2.symm
    subst hsame
    exact ⟨held, h.refused c cage⟩
  obtain ⟨seg, hseg, hsize⟩ := of_seen ha.found
  have hlength := h.lengths id seg hseg
  obtain ⟨-, hpos, -⟩ := h.sized id seg.size hlength
  have hle := ha.le
  have hplace : (Except.ok (BitVec.ofNat 32 useraddr) : Except Memory.SyscallError _).toOption.map
      BitVec.toNat = some useraddr := by
    change some (BitVec.ofNat 32 useraddr).toNat = _
    rw [BitVec.toNat_ofNat, Nat.mod_eq_of_lt (by omega)]
  rw [hplace] at hsys
  have hfree : segmentAt (m.vms c) (useraddr / pageSize) = none := by
    obtain ⟨hn, -, -⟩ := Vmmap.update_eq_ok.mp ha.vm
    exact segmentAt_of_findPage (ha.free _ le_rfl (by omega))
  have hcounts : World.Inv ⟨sys, _⟩ := h.counts.shmat (h.placed hc ha.aligned hfree)
    (map_eq_some_iff.mpr ⟨_, hsys, rfl⟩)
  have hatt' := hatt.attaches ha
  unfold System.shmat at hsys
  rw [hc, bind_some, hseg] at hsys
  cases hsys
  refine ⟨_, hcounts, h.keys.setSegment hseg rfl, fun _ _ => h.lengths_update hseg ?_, h.sized,
    h.next, h.numbered, h.unique, fun _ _ => cages_insert h.cages ?_⟩
  · rintro _ ⟨⟩
    rfl
  have hrev : s'.revShm = cage.revShm ++ [(cage.base + useraddr, id)] := by
    rw [ha.revShm, Nat.add_comm, hr]
    rfl
  refine hcage.of_attached hr hatt' hrev fun x hx => ?_
  rcases mem_append.mp hx with hx | hx
  · exact hcage.inside x hx
  · obtain rfl := mem_singleton.mp hx
    exact ⟨useraddr, seg.size, rfl, hlength, ha.aligned, by omega⟩

/-! ### Detaching -/

/-- Where no attachment is on record, a detachment fails and changes nothing. -/
theorem shmdt_unrecorded {s : Memory.State M}
    (h : shmaddr.toNat % pageSize ≠ 0 ∨
      s.revShm.findIdx? (fun val => val.1 = shmaddr.toNat) = none) :
    ∃ e, Memory.shmdt s shmaddr = some (.error e, s) := by
  unfold Memory.shmdt
  by_cases ha : shmaddr.toNat % pageSize = 0
  · rw [if_neg (not_not.mpr ha), Memory.shmdtHelper, h.resolve_left (not_not.mpr ha)]
    exact ⟨_, rfl⟩
  · rw [if_pos ha]
    exact ⟨_, rfl⟩

omit [IntervalMap M VmmapEntry] in
theorem System.shmdt_unrecorded {sys : System} (hc : sys.cages.lookup c = some cage)
    (h : address % pageSize ≠ 0 ∨ cage.revShm.findIdx? (fun val => val.1 = address) = none) :
    ∃ e, sys.shmdt c address = some (.error e, sys) := by
  unfold System.shmdt
  rw [hc, bind_some]
  by_cases ha : address % pageSize = 0
  · rw [if_neg (not_not.mpr ha), h.resolve_left (not_not.mpr ha)]
    exact ⟨_, rfl⟩
  · rw [if_pos ha]
    exact ⟨_, rfl⟩

/-- The reverse list of a cage without the attachment at an index. -/
def System.unlist (sys : System) (c : ℕ) (cage : Cage) (index : ℕ) : System :=
  { sys with
    cages := sys.cages.insert c { cage with revShm := Memory.swapRemove cage.revShm index } }

section

variable (h : Sound m held sizes) (hc : m.sys.cages.lookup c = some cage) {index : ℕ}
  {shmaddr : BitVec 64}
include h hc

/-- What is on record is of a segment in the table that counts it, and inside the cage. -/
theorem Sound.recorded (hmem : (address, id) ∈ cage.revShm) :
    ∃ seg n a, m.sys.shmtable id = some seg ∧ n ≠ 0 ∧ seg.attachedCages.lookup c = some n ∧
      (∃ seg', seg.unmapShm c = some seg') ∧
      address = cage.base + a ∧ a % pageSize = 0 ∧ a + seg.size ≤ 2 ^ 32 := by
  obtain ⟨att, hatt, hperm⟩ := h.counts.liveCage hc
  obtain ⟨_, _, hid⟩ := mem_hostList.mp (hperm.mem_iff.mp hmem)
  obtain ⟨seg, hseg, hpos⟩ := h.counts.attached hatt hid
  have hattached := (h.counts.segments _ _ hseg).attached
  obtain ⟨seg', hun, -⟩ := unmapShm_spec hattached hpos
  obtain ⟨a, size, haddr, hsize, haligned, hle⟩ := (h.cages c cage hc).inside _ hmem
  obtain rfl : size = seg.size := some.inj (hsize.symm.trans (h.lengths id seg hseg))
  exact ⟨seg, _, a, hseg, hpos, by rw [hattached c, if_neg hpos], ⟨seg', hun⟩, haddr, haligned, hle⟩

section

variable (ha : shmaddr.toNat % pageSize = 0)
  (hindex : cage.revShm.findIdx? (fun val => val.1 = shmaddr.toNat) = some index)
  (hget : cage.revShm[index]? = some (shmaddr.toNat, id))
include ha hindex hget

theorem Sound.memory_shmdt :
    ∃ s', Memory.shmdt (m.memory c cage) shmaddr = some (.ok 0, s') ∧
      s'.revShm = Memory.swapRemove cage.revShm index := by
  obtain ⟨seg, n, a, hseg, hpos, hlookup, -, haddr, haligned, hle⟩ :=
    h.recorded hc (mem_of_getElem? hget)
  obtain ⟨-, hsizepos, hsizealigned, hshort⟩ := h.sized id seg.size (h.lengths id seg hseg)
  obtain ⟨segment, hseen, hsame, hcages⟩ := h.seen hseg c cage
  have hdetach : segment.attachedCages c ≠ 0 := by
    rw [hcages]
    dsimp only
    rw [hlookup]
    exact hpos
  obtain ⟨hlength, hsign⟩ := length_of_lt (hsame.trans_lt hshort)
  have huser : (m.vms c).sysToUser shmaddr.toNat = some a :=
    (Vmmap.sysToUser_eq_some (h.cages c cage hc).base).mpr
      ⟨by rw [u32Max_eq]; omega, by rw [haddr, Nat.add_comm]⟩
  obtain ⟨vm, hremove⟩ : ∃ vm, (m.vms c).removeEntry (a / pageSize) (segment.size / pageSize)
      = .ok vm := by
    refine ⟨_, Vmmap.update_eq_ok.mpr ⟨?_, ?_, rfl⟩⟩
    all_goals
      rw [hsame]
      rw [pageSize_eq] at *
      try rw [u32Max_eq]
      omega
  unfold Memory.shmdt Memory.shmdtHelper
  rw [if_neg (not_not.mpr ha)]
  simp only [Machine.memory] at hseen ⊢
  rw [hindex]
  dsimp only
  rw [hget, bind_some, hseen, bind_some, Memory.ShmSegment.detach, if_neg hdetach,
    map_some, bind_some]
  dsimp only
  rw [if_neg hsign, huser, bind_some, hlength, hremove]
  exact ⟨_, rfl, rfl⟩

/-- **An attachment on record is detached**, in the tables and in the memory of the cage. -/
theorem Sound.shmdt_recorded :
    ∃ seg seg', m.sys.shmtable id = some seg ∧ seg.unmapShm c = some seg' ∧
      m.sys.shmdt c shmaddr.toNat = some (.ok (BitVec.ofNat 32 seg.size),
        if seg'.rmid ∧ seg'.nattch = 0 then (m.sys.unlist c cage index).remove id seg.key
        else (m.sys.unlist c cage index).setSegment id seg') ∧
      ∃ s', Memory.shmdt (m.memory c cage) shmaddr = some (.ok 0, s') ∧
        s'.revShm = Memory.swapRemove cage.revShm index := by
  obtain ⟨seg, _, _, hseg, -, -, ⟨seg', hun⟩, -⟩ := h.recorded hc (mem_of_getElem? hget)
  refine ⟨seg, seg', hseg, hun, ?_, h.memory_shmdt hc ha hindex hget⟩
  unfold System.shmdt
  rw [hc, bind_some, if_neg (not_not.mpr ha), hindex]
  dsimp only
  rw [hget, bind_some, hseg, bind_some, hun, map_some]
  rfl

end

/-- **No detachment panics.** -/
theorem Sound.shmdt_ne_none (shmaddr : BitVec 64) : m.shmdt c shmaddr ≠ none := by
  unfold Machine.shmdt
  rw [hc, bind_some]
  by_cases ha : shmaddr.toNat % pageSize = 0
  · rcases findIdx?_cases cage.revShm shmaddr.toNat with ⟨hnone, -⟩ | ⟨index, id, hindex, hget⟩
    · obtain ⟨e, hsys⟩ := System.shmdt_unrecorded hc (.inr hnone)
      obtain ⟨e', hmem⟩ := shmdt_unrecorded (s := m.memory c cage) (.inr hnone)
      rw [hsys, bind_some, hmem]
      nofun
    · obtain ⟨seg, seg', -, -, hsys, s', hmem, -⟩ := h.shmdt_recorded hc ha hindex hget
      rw [hsys, bind_some, hmem]
      nofun
  · obtain ⟨e, hsys⟩ := System.shmdt_unrecorded hc (.inl ha)
    obtain ⟨e', hmem⟩ := shmdt_unrecorded (s := m.memory c cage) (.inl ha)
    rw [hsys, bind_some, hmem]
    nofun

end

variable [LawfulIntervalMap M]

theorem Sound.shmdt (h : Sound m held sizes)
    (hs : m.shmdt c shmaddr = some m') : ∃ held', Sound m' held' sizes := by
  obtain ⟨cage, hc, hs⟩ := bind_eq_some_iff.mp hs
  obtain ⟨⟨y, sys⟩, hsys, hs⟩ := bind_eq_some_iff.mp hs
  obtain ⟨⟨x, s'⟩, hmem, rfl⟩ := map_eq_some_iff.mp hs
  have hcage := h.cages c cage hc
  -- nothing on record: both sides refuse
  have hrefused : shmaddr.toNat % pageSize ≠ 0 ∨
      cage.revShm.findIdx? (fun val => val.1 = shmaddr.toNat) = none → ∃ held', Sound
        { m with sys := sys, vms := update m.vms c s'.vm, host := s'.host } held' sizes := by
    intro hnone
    obtain ⟨e, hsys'⟩ := System.shmdt_unrecorded hc hnone
    obtain ⟨e', hmem'⟩ := shmdt_unrecorded (s := m.memory c cage) hnone
    obtain ⟨-, rfl⟩ := Prod.mk.inj (mem_unique hsys hsys')
    obtain ⟨-, rfl⟩ := Prod.mk.inj (mem_unique hmem hmem')
    exact ⟨held, h.refused c cage⟩
  by_cases ha : shmaddr.toNat % pageSize = 0
  swap
  · exact hrefused (.inl ha)
  rcases findIdx?_cases cage.revShm shmaddr.toNat with ⟨hnone, -⟩ | ⟨index, id, hindex, hget⟩
  · exact hrefused (.inr hnone)
  obtain ⟨seg, seg', hseg, hun, hsys', s₁, hmem', hrev⟩ := h.shmdt_recorded hc ha hindex hget
  obtain ⟨-, rfl⟩ := Prod.mk.inj (mem_unique hsys hsys')
  obtain ⟨rfl, rfl⟩ := Prod.mk.inj (mem_unique hmem hmem')
  have hcounts : World.Inv ⟨_, _⟩ := h.counts.shmdt (map_eq_some_iff.mpr ⟨_, hsys, rfl⟩)
  obtain ⟨r, hr⟩ := hcage.region
  have hatt' : Attached sizes r s' := attached_step (c := .shmdt shmaddr) (h.attached hc hr)
    (h.shmdtOk c cage shmaddr) (map_eq_some_iff.mpr ⟨_, hmem, rfl⟩)
  have hsame : seg'.size = seg.size ∧ seg'.key = seg.key := by
    obtain ⟨n, -, rfl⟩ := map_eq_some_iff.mp hun
    exact ⟨rfl, rfl⟩
  have hcage' : CageSound sizes s'.vm c
      { cage with revShm := Memory.swapRemove cage.revShm index } :=
    hcage.of_attached hr hatt' hrev fun x hx => hcage.inside x
      ((perm_cons_swapRemove hget).mem_iff.mpr (mem_cons_of_mem _ hx))
  refine ⟨_, hcounts, ?_, ?_, h.sized, ?_, h.numbered, h.unique, ?_⟩
  · dsimp only
    split
    · exact (show KeysOk (m.sys.unlist c cage index) from h.keys).remove hseg
    · exact (show KeysOk (m.sys.unlist c cage index) from h.keys).setSegment hseg hsame.2
  · dsimp only
    split
    · refine fun _ _ => h.lengths_update hseg ?_
      rintro _ ⟨⟩
    · refine fun _ _ => h.lengths_update hseg ?_
      rintro _ ⟨⟩
      exact hsame.1
  · dsimp only
    split <;> exact h.next
  · dsimp only
    split <;> exact fun _ _ => cages_insert h.cages hcage'

/-- **Every call keeps the machine in order.** -/
theorem sound_step {call : Call} (h : ∃ held sizes, Sound m held sizes) (hok : CallOk m call)
    (hs : m.step call = some m') : ∃ held sizes, Sound m' held sizes := by
  obtain ⟨held, sizes, h⟩ := h
  cases call with
  | shmget key size shmflg =>
    obtain ⟨sizes', h'⟩ := h.shmget hok hs
    exact ⟨held, sizes', h'⟩
  | shmat c shmid shmaddr shmflg =>
    obtain ⟨held', h'⟩ := h.shmat hs
    exact ⟨held', sizes, h'⟩
  | shmdt c shmaddr =>
    obtain ⟨held', h'⟩ := h.shmdt hs
    exact ⟨held', sizes, h'⟩
  | shmctl shmid cmd => exact ⟨held, sizes, h.shmctl hs⟩

end Steps

/-! ## The counters fit -/

section Counters

variable {m : Machine M} {held : Holdings} {sizes : Shmid → Option ℕ} {c : ℕ} {id : Shmid}
  {att : Attachments}

variable (h : Sound m held sizes)
include h

theorem Sound.cage_of_held (hatt : held.lookup c = some att) :
    ∃ cage, m.sys.cages.lookup c = some cage ∧ cage.revShm.Perm (hostList cage.base att) := by
  have hok := h.counts.cages c
  rw [hatt] at hok
  cases hc : m.sys.cages.lookup c with
  | none =>
    rw [hc] at hok
    exact hok.elim
  | some cage =>
    rw [hc] at hok
    exact ⟨cage, rfl, hok⟩

theorem Sound.count_le (hatt : held.lookup c = some att) : att.count id ≤ 2 ^ 20 := by
  obtain ⟨cage, hc, hperm⟩ := h.cage_of_held hatt
  have hpages : att.entries.length ≤ ((List.range (2 ^ 20)).map (· * pageSize)).length := by
    refine length_entries_le fun a x hx => ?_
    obtain ⟨a', size, haddr, hsize, haligned, hle⟩ := (h.cages c cage hc).inside _
      (hperm.mem_iff.mpr (mem_hostList.mpr ⟨a, rfl, hx⟩))
    obtain ⟨-, hpos, -⟩ := h.sized x size hsize
    refine List.mem_map.mpr ⟨a / pageSize, List.mem_range.mpr ?_,
      Nat.div_mul_cancel (Nat.dvd_of_mod_eq_zero ?_)⟩ <;> rw [pageSize_eq] at * <;> omega
  have hcount : att.count id ≤ att.entries.length * 1 :=
    total_le fun _ x _ => by split <;> omega
  rw [List.length_map, List.length_range] at hpages
  omega

/-- **A segment has fewer attachments than 32 bits count.** -/
theorem Sound.nattch_lt {seg : Segment} (hseg : m.sys.shmtable id = some seg) :
    seg.nattch < 2 ^ 32 := by
  have hcages : held.entries.length ≤ (range maxCageid).length :=
    length_entries_le fun c att hatt => by
      obtain ⟨cage, hc, -⟩ := h.cage_of_held hatt
      exact mem_range.mpr (h.cages c cage hc).id_lt
  have htotal : held.count id ≤ held.entries.length * 2 ^ 20 :=
    total_le fun c att hatt => h.count_le hatt
  rw [(h.counts.segments id seg hseg).nattch_held]
  rw [length_range, maxCageid] at hcages
  dsimp only
  omega

/-- **A machine in order has tables that agree.** -/
theorem Sound.consistent :
    Consistent m where
  keys := h.keys
  unique := h.unique
  known id seg hseg := (h.sized id seg.size (h.lengths id seg hseg)).1
  marked id seg hseg := by
    rintro ⟨hrmid, hzero⟩
    exact absurd hzero ((h.counts.segments id seg hseg).marked hrmid).ne'
  counters id seg hseg := h.nattch_lt hseg
  detaches c cage hc shmaddr := h.shmdt_ne_none hc shmaddr

end Counters

/-! ## Runs -/

omit [IntervalMap M VmmapEntry] in
theorem boot_revShm (cages : List (ℕ × ℕ)) (cs : AList fun _ : ℕ => Cage)
    (h : ∀ c cage, cs.lookup c = some cage → cage.revShm = []) (c : ℕ) (cage : Cage)
    (hc : (cages.foldl (fun t x => t.insert x.1 ⟨x.2, []⟩) cs).lookup c = some cage) :
    cage.revShm = [] := by
  induction cages generalizing cs with
  | nil => exact h c cage hc
  | cons x cages ih =>
    refine ih _ (fun c' cage' hc' => ?_) hc
    by_cases heq : c' = x.1
    · subst heq
      rw [lookup_insert] at hc'
      rw [← some.inj hc']
    · rw [lookup_insert_ne heq] at hc'
      exact h c' cage' hc'

theorem sound_boot {cages : List (ℕ × ℕ)} (hok : BootOk cages vms) (host : Memory.Host) :
    Sound (Machine.boot cages vms host) (World.boot cages).held fun _ => none := by
  refine ⟨inv_boot cages, fun key id => ?_, fun _ _ hseg => ?_, fun _ _ hid => ?_, rfl,
    fun _ hid => ?_, nodup_nil, fun c cage hc => ?_⟩
  · exact iff_of_false nofun fun ⟨_, hseg, _⟩ => absurd hseg nofun
  · exact absurd hseg nofun
  · exact absurd hid nofun
  · exact absurd hid not_mem_nil
  · obtain ⟨hlt, hregion, hbase, hstop, hnone⟩ := hok c cage hc
    have hnil : cage.revShm = [] :=
      boot_revShm cages ∅ (fun _ _ h => absurd h nofun) c cage hc
    refine ⟨hlt, hregion, hbase, hstop, ?_, ?_⟩
    · rw [hnil]
      exact .nil hnone
    · rw [hnil]
      exact fun x hx => absurd hx not_mem_nil

/-- **The tables agree along every run** of calls on segments below 2 GiB, of which no more than
2³² are made: from any cages, whatever else their maps hold. -/
theorem consistent_run [LawfulIntervalMap M] {cages : List (ℕ × ℕ)} {vms : ℕ → Vmmap M}
    (hboot : BootOk cages vms) (host : Memory.Host) (calls : List Call) {m : Machine M}
    (hok : StepsOk Machine.step CallOk (Machine.boot cages vms host) calls)
    (hrun : runSteps Machine.step (Machine.boot cages vms host) calls = some m) :
    Consistent m := by
  have hstep : ∀ (m : Machine M) call m', (∃ held sizes, Sound m held sizes) → CallOk m call →
      m.step call = some m' → ∃ held sizes, Sound m' held sizes := fun _ _ _ => sound_step
  obtain ⟨held, sizes, h⟩ := inv_of_stepsOk hstep ⟨_, _, sound_boot hboot host⟩ hok hrun
  exact h.consistent

/-- One cage with an empty map of the 4 GiB at 4 GiB. -/
def loneVms : ℕ → Vmmap (SortedList VmmapEntry) := fun _ => Memory.sampleCage.vm

/-- Make a segment, attach it twice, mark it, and detach it twice. -/
def attachMarked : List Call :=
  [.shmget 7 4096 ipcCreat, .shmat 1 1 0 0, .shmat 1 1 0 0, .shmctl 1 ipcStat, .shmctl 1 ipcRmid,
    .shmdt 1 0x1ffffe000, .shmdt 1 0x1ffffd000]

theorem consistent_attachMarked :
    ∃ m, runSteps Machine.step (Machine.boot [(1, 2 ^ 32)] loneVms fun _ => ⟨protNone, none⟩)
      attachMarked = some m ∧ Consistent m := by
  have hboot : BootOk [(1, 2 ^ 32)] loneVms := by
    intro c cage hc
    have hlone : (System.boot [(1, 2 ^ 32)]).cages = AList.insert 1 ⟨2 ^ 32, []⟩ ∅ := rfl
    rw [hlone] at hc
    by_cases heq : c = 1
    · subst heq
      rw [lookup_insert] at hc
      cases hc
      refine ⟨by decide, ⟨Memory.sampleRegion, rfl⟩, rfl, rfl, fun q => ?_⟩
      simp [loneVms, Memory.sampleCage, Memory.State.fresh, segmentAt, Vmmap.findPage, Vmmap.new]
    · rw [lookup_insert_ne heq, lookup_empty] at hc
      cases hc
  obtain ⟨m, hm⟩ := isSome_iff_exists.mp (show (runSteps Machine.step
    (Machine.boot [(1, 2 ^ 32)] loneVms fun _ => ⟨protNone, none⟩) attachMarked).isSome by
      decide +kernel)
  exact ⟨m, hm, consistent_run hboot _ attachMarked (by decide +kernel) hm⟩

/-! ### The counter comes round -/

section Rounds

/-- No cage and no segment, after some segments have come and gone. -/
def idle (vms : ℕ → Vmmap M) (host : Memory.Host) (nextid : Shmid) (issued : List Shmid) :
    Machine M := ⟨{ System.boot [] with nextid := nextid }, vms, host, issued⟩

/-- Make a segment and remove it, `n` times. -/
def rounds : ℕ → List Call
  | 0 => []
  | n + 1 => rounds n ++ [.shmget 7 4096 ipcCreat, .shmctl (BitVec.ofNat 32 (n + 1)) ipcRmid]

variable (vms : ℕ → Vmmap M) (host : Memory.Host)

theorem run_round (next : Shmid) (issued : List Shmid) :
    runSteps Machine.step (idle vms host next issued)
      [.shmget 7 4096 ipcCreat, .shmctl next ipcRmid]
        = some (idle vms host (next + 1) (next :: issued)) := by
  have hlimits : ¬ (roundUpPage 4096 % 2 ^ 32 < shmmin ∨ roundUpPage 4096 % 2 ^ 32 > shmmax) := by
    decide
  have hgone : ∀ {α β : Type} [DecidableEq α] (a : α) (b : β),
      update (update (fun _ => none) a (some b)) a none
        = (fun _ => none : α → Option β) := by
    intro α β _ a b
    rw [update_idem, update_eq_self]
  have hget : Machine.step (idle vms host next issued) (.shmget 7 4096 ipcCreat)
      = some ⟨{ (System.boot []) with
          nextid := next + 1
          shmkeyidtable := update (fun _ => none) 7 (some next)
          shmtable := update (fun _ => none) next (some (.new 7 (roundUpPage 4096))) },
        vms, host, next :: issued⟩ := by
    simp only [Machine.step, Machine.shmget, System.shmget, idle, System.boot]
    rw [if_neg (by decide), if_neg hlimits]
    rfl
  refine runSteps_cons_eq_some.mpr ⟨_, hget, runSteps_cons_eq_some.mpr ⟨_, ?_, rfl⟩⟩
  simp only [Machine.step, Machine.shmctl, update_self]
  rw [if_neg (by decide), if_pos trivial]
  simp only [System.shmctlRmid, update_self, map_some, Segment.new, if_true,
    System.remove, hgone]
  rfl

/-- **Round after round the counter goes up by one**, and every id is issued again. -/
theorem run_rounds (n : ℕ) :
    ∃ issued, runSteps Machine.step (Machine.boot [] vms host) (rounds n)
        = some (idle vms host (BitVec.ofNat 32 (n + 1)) issued) ∧
      ∀ i < n, BitVec.ofNat 32 (i + 1) ∈ issued := by
  induction n with
  | zero => exact ⟨[], rfl, fun i hi => absurd hi (Nat.not_lt_zero i)⟩
  | succ n ih =>
    obtain ⟨issued, hrun, hissued⟩ := ih
    refine ⟨BitVec.ofNat 32 (n + 1) :: issued, runSteps_append.mpr ⟨_, hrun, ?_⟩, fun i hi => ?_⟩
    · rw [run_round]
      congr 2
      refine BitVec.eq_of_toNat_eq ?_
      simp
    · rcases Nat.lt_succ_iff_lt_or_eq.mp hi with hi | rfl
      · exact mem_cons_of_mem _ (hissued i hi)
      · exact mem_cons_self

end Rounds

/-- **After 2³² segments an id is given again.** -/
theorem not_consistent_rounds :
    ∃ m : Machine (SortedList VmmapEntry), runSteps Machine.step
        (Machine.boot [] loneVms fun _ => ⟨protNone, none⟩) (rounds (2 ^ 32 + 1)) = some m ∧
      ¬ m.issued.Nodup ∧ ¬ Consistent m := by
  obtain ⟨issued, hrun, hissued⟩ := run_rounds loneVms (fun _ => ⟨protNone, none⟩) (2 ^ 32)
  have hlast := run_round loneVms (fun _ => ⟨protNone, none⟩) (BitVec.ofNat 32 (2 ^ 32 + 1)) issued
  have hagain : BitVec.ofNat 32 (2 ^ 32 + 1) ∈ issued := hissued 0 (by decide)
  have htwice : ¬ (BitVec.ofNat 32 (2 ^ 32 + 1) :: issued).Nodup := fun h =>
    (nodup_cons.mp h).1 hagain
  exact ⟨_, runSteps_append.mpr ⟨_, hrun, hlast⟩, htwice, fun h => htwice h.unique⟩

end LindWasm.Shm

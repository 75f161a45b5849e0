import LindWasm.Vmmap.Check

/-!
# Vmmap/Address — the checks on host addresses

      base                    base + 2³²                       base + 2⁴⁴
    ---├-------- the cage --------┤-------------------------------├- the cage, again -┤---

`checkAddrRead`, `checkAddrWrite` and `checkAddrRw` turn a host range into pages and ask
`checkAddrMapping`. The page numbers are cut to 32 bits, that is, the offset from the base is taken
modulo 2⁴⁴; a build without overflow checks also takes the subtraction of the base modulo 2⁶⁴. So
the cage repeats every 2⁴⁴ bytes, on both sides of the base.

`checkAddr_safe_iff`: a granted range is safe just when it lies in the cage's four gigabytes and no
page is vouched for that is not allowed.
-/

namespace LindWasm

open IntervalMap Option

/-! ## Fixed-width arithmetic -/

/-- How the crate is built: `debug` checks subtractions for overflow. -/
inductive Profile where
  | debug
  | release
  deriving DecidableEq

/-- `a - b` on `u64`; `none` when it panics. -/
def Profile.sub64 (profile : Profile) (a b : ℕ) : Option ℕ :=
  if b ≤ a then some (a - b)
  else match profile with
    | .debug => none
    | .release => some (a + 2 ^ 64 - b)

/-- `u64::checked_add`. -/
def checkedAdd64 (a b : ℕ) : Option ℕ := if a + b < 2 ^ 64 then some (a + b) else none

theorem checkedAdd64_eq_some {a b c : ℕ} :
    checkedAdd64 a b = some c ↔ a + b < 2 ^ 64 ∧ a + b = c := by simp [checkedAdd64]

/-- `u32::checked_sub`. -/
def checkedSub32 (a b : ℕ) : Option ℕ := if b ≤ a then some (a - b) else none

theorem checkedSub32_eq_some {a b c : ℕ} :
    checkedSub32 a b = some c ↔ b ≤ a ∧ a - b = c := by simp [checkedSub32]

namespace Vmmap

variable {M : Type*} {vm : Vmmap M}

/-! ## Host addresses -/

/-- Record where the cage's memory starts. -/
def setBaseAddress (vm : Vmmap M) (baseAddress : ℕ) : Vmmap M :=
  { vm with baseAddress := some baseAddress }

/-- The pages of a host range: the first one and their number. The outer `none` is a panic, without
a base or below it; the inner one an overflow. -/
def calculatePageRange (profile : Profile) (vm : Vmmap M) (addr length : ℕ) :
    Option (Option (ℕ × ℕ)) :=
  vm.baseAddress.bind fun baseAddr =>
    (profile.sub64 addr baseAddr).map fun uaddr =>
      let pageNum := (uaddr >>> pageShift) % 2 ^ 32
      (checkedAdd64 uaddr length).bind fun endAddr =>
        (checkedAdd64 endAddr (pageSize - 1)).bind fun endAddr =>
          let endPage := (endAddr >>> pageShift) % 2 ^ 32
          (checkedSub32 endPage pageNum).map fun npages => (pageNum, npages)

/-- `_ensure_host_addr` of the system call layer: what looks like a guest address is translated,
anything else is taken for a host address. -/
def ensureHostAddr (baseAddress : Option ℕ) (addr : ℕ) : ℕ :=
  if addr < 2 ^ 32 then
    if baseAddress.getD 0 = 0 then 0 else addr + baseAddress.getD 0
  else addr

/-- The range lies in the four gigabytes from the base. -/
def InWindow (base addr length : ℕ) : Prop := base ≤ addr ∧ addr + length ≤ base + 2 ^ 32

/-! ## The pages a host range is taken for -/

/-- The distance of an address from the base, modulo 2⁶⁴. -/
def offset64 (base addr : ℕ) : ℕ := (addr + 2 ^ 64 - base) % 2 ^ 64

/-- **The pages a range is taken for**: those of its offset from the base, numbered modulo 2³². It
is taken for none if the offset panics or carries, or if the last number is below the first. -/
structure TakenFor (profile : Profile) (base addr length first stop : ℕ) : Prop where
  below : addr < base → profile = .release
  carry : offset64 base addr + length + (pageSize - 1) < 2 ^ 64
  first_eq : first = offset64 base addr / pageSize % 2 ^ 32
  stop_eq : stop = (offset64 base addr + length + (pageSize - 1)) / pageSize % 2 ^ 32
  order : first ≤ stop

section Arithmetic

variable {profile : Profile} {base addr length first stop npages : ℕ}

theorem sub64_eq_some (hbase : base < 2 ^ 64) (haddr : addr < 2 ^ 64) {u : ℕ} :
    profile.sub64 addr base = some u
      ↔ (addr < base → profile = .release) ∧ u = offset64 base addr := by
  unfold Profile.sub64 offset64
  by_cases hle : base ≤ addr
  · rw [if_pos hle, some.injEq, and_iff_right (fun hlt => absurd hle (Nat.not_le_of_lt hlt))]
    omega
  · rw [if_neg hle]
    have hlt := Nat.lt_of_not_le hle
    cases profile with
    | debug => exact iff_of_false (some_ne_none _).symm fun h => nomatch h.1 hlt
    | release =>
      rw [some.injEq, and_iff_right (fun _ => rfl)]
      omega

/-- **The page range of the check is what the range is taken for.** -/
theorem calculatePageRange_eq_some (hb : vm.baseAddress = some base) (hbase : base < 2 ^ 64)
    (haddr : addr < 2 ^ 64) :
    vm.calculatePageRange profile addr length = some (some (first, npages))
      ↔ TakenFor profile base addr length first (first + npages) := by
  rw [calculatePageRange, hb, bind_some, map_eq_some_iff]
  simp only [sub64_eq_some hbase haddr, bind_eq_some_iff, map_eq_some_iff,
    checkedAdd64_eq_some, checkedSub32_eq_some, Nat.shiftRight_eq_div_pow]
  constructor
  · rintro ⟨u, ⟨hbelow, rfl⟩, x, ⟨hx, rfl⟩, y, ⟨hy, rfl⟩, n, ⟨hle, rfl⟩, heq⟩
    cases heq
    rw [Nat.add_sub_cancel' hle]
    exact ⟨hbelow, hy, rfl, rfl, hle⟩
  · intro h
    refine ⟨_, ⟨h.below, rfl⟩, _, ⟨?_, rfl⟩, _, ⟨h.carry, rfl⟩, npages, ⟨?_, ?_⟩, ?_⟩
    · exact (Nat.le_add_right _ _).trans_lt h.carry
    · have horder := h.order
      rwa [h.stop_eq, h.first_eq] at horder
    · have hstop := h.stop_eq
      have hfirst := h.first_eq
      unfold pageSize at hstop hfirst
      unfold pageSize
      omega
    · rw [h.first_eq]
      rfl

/-- In the window the pages are the ones the range touches. -/
theorem TakenFor.eq_of_inWindow (h : TakenFor profile base addr length first stop)
    (haddr : addr < 2 ^ 64) (hw : InWindow base addr length) :
    first = (addr - base) / pageSize ∧
      stop = (addr - base + length + (pageSize - 1)) / pageSize := by
  obtain ⟨hle, hend⟩ := hw
  have hoff : offset64 base addr = addr - base := by
    unfold offset64
    omega
  have hfirst := h.first_eq
  have hstop := h.stop_eq
  rw [hoff] at hfirst hstop
  unfold pageSize pageShift at *
  omega

theorem TakenFor.lt_of_inWindow (h : TakenFor profile base addr length first stop)
    (haddr : addr < 2 ^ 64) (hw : InWindow base addr length) (hlen : 0 < length) :
    first < stop := by
  obtain ⟨rfl, rfl⟩ := h.eq_of_inWindow haddr hw
  unfold pageSize pageShift
  omega

theorem TakenFor.stop_le (h : TakenFor profile base addr length first stop) : stop ≤ u32Max := by
  rw [h.stop_eq]
  exact Nat.le_sub_one_of_lt (Nat.mod_lt _ (Nat.two_pow_pos 32))

/-- Not too far from the base, a range is taken for the pages it touches. -/
theorem takenFor_of_near (profile : Profile) (hle : base ≤ addr)
    (hfar : addr + length ≤ base + 2 ^ 43) :
    TakenFor profile base addr length ((addr - base) / pageSize)
      ((addr - base + length + (pageSize - 1)) / pageSize) := by
  have hoff : offset64 base addr = addr - base := by
    unfold offset64
    omega
  have hpage : pageSize = 4096 := rfl
  have hmod : (addr - base + length + 4095) / 4096 < 2 ^ 32 := by omega
  refine ⟨fun h => absurd hle (Nat.not_le_of_lt h), ?_, ?_, ?_, ?_⟩ <;> rw [hpage]
  · rw [hoff]
    omega
  · rw [hoff, Nat.mod_eq_of_lt (by omega)]
  · rw [hoff, Nat.mod_eq_of_lt hmod]
  · omega

end Arithmetic

variable [IntervalMap M VmmapEntry] {b : Bool}

/-! ## The checks -/

/-- Is the host range mapped with an effective protection that contains `prot`? -/
def checkAddr (prot : BitVec 32) (profile : Profile) (vm : Vmmap M) (addr length : ℕ) :
    Option (Bool × Vmmap M) :=
  -- Zero-length check is trivially true
  if length = 0 then some (true, vm)
  else (vm.calculatePageRange profile addr length).bind fun
    | none => some (false, vm)
    | some (pageNum, npages) =>
      (vm.checkAddrMapping pageNum npages prot).map fun r => (r.1.isSome, r.2)

/-- Is the host range readable? -/
def checkAddrRead (profile : Profile) (vm : Vmmap M) (addr length : ℕ) :
    Option (Bool × Vmmap M) :=
  checkAddr protRead profile vm addr length

/-- Is it writable? -/
def checkAddrWrite (profile : Profile) (vm : Vmmap M) (addr length : ℕ) :
    Option (Bool × Vmmap M) :=
  checkAddr protWrite profile vm addr length

/-- Is it both? -/
def checkAddrRw (profile : Profile) (vm : Vmmap M) (addr length : ℕ) :
    Option (Bool × Vmmap M) :=
  checkAddr (protRead ||| protWrite) profile vm addr length

/-- The three checks. -/
inductive Access where
  | read
  | write
  | rw
  deriving DecidableEq

/-- The protection a check requires. -/
def Access.prot : Access → BitVec 32
  | .read => protRead
  | .write => protWrite
  | .rw => protRead ||| protWrite

/-- The check. -/
def Access.check : Access → Profile → Vmmap M → ℕ → ℕ → Option (Bool × Vmmap M)
  | .read => checkAddrRead
  | .write => checkAddrWrite
  | .rw => checkAddrRw

theorem Access.check_eq (access : Access) :
    (access.check : Profile → Vmmap M → ℕ → ℕ → Option (Bool × Vmmap M))
      = checkAddr access.prot := by
  cases access <;> rfl

/-! ## What a granted range is worth -/

/-- **A safe range**: it lies there, and every page it touches allows `prot`. -/
def SafeRange (vm : Vmmap M) (base : ℕ) (prot : BitVec 32) (addr length : ℕ) : Prop :=
  InWindow base addr length ∧
    ∀ x, addr - base ≤ x → x < addr - base + length → vm.PageAllows prot (x / pageSize)

/-! ## One check after another

Each check may change the cached entry, and with it what the next one consults. -/

section Asked

variable {profile : Profile} {base addr length : ℕ} {prot : BitVec 32} {vm' : Vmmap M}

theorem checkAddr_cases (h : checkAddr prot profile vm addr length = some (b, vm')) :
    vm' = vm ∨ ∃ pageNum npages r, vm.checkAddrMapping pageNum npages prot = some (r, vm') := by
  unfold checkAddr at h
  split at h
  · exact .inl (Prod.mk.inj (some.inj h)).2.symm
  · obtain ⟨range, -, h⟩ := bind_eq_some_iff.mp h
    cases range with
    | none => exact .inl (Prod.mk.inj (some.inj h)).2.symm
    | some range =>
      obtain ⟨⟨r, u⟩, hu, heq⟩ := map_eq_some_iff.mp h
      cases heq
      exact .inr ⟨_, _, r, hu⟩

theorem checkAddr_eq_some (h : checkAddr prot profile vm addr length = some (b, vm')) :
    vm' = { vm with cachedEntry := vm'.cachedEntry } := by
  rcases checkAddr_cases h with rfl | ⟨pageNum, npages, r, h⟩
  · rfl
  · exact checkAddrMapping_eq_some h

/-- A check from the base on, and not too far from it, does not panic. -/
theorem exists_checkAddr (prot : BitVec 32) (profile : Profile) (hb : vm.baseAddress = some base)
    (haddr : addr < 2 ^ 64) (hle : base ≤ addr) (hfar : addr + length ≤ base + 2 ^ 43) :
    ∃ b vm', checkAddr prot profile vm addr length = some (b, vm') := by
  unfold checkAddr
  split
  · exact ⟨_, _, rfl⟩
  · next hlen =>
    have htaken := takenFor_of_near profile hle hfar
    rw [← Nat.add_sub_cancel' htaken.order,
      ← calculatePageRange_eq_some hb (hle.trans_lt haddr) haddr] at htaken
    -- a range that is not empty touches a page
    have hn :
        0 < (addr - base + length + (pageSize - 1)) / pageSize - (addr - base) / pageSize := by
      unfold pageSize pageShift
      omega
    obtain ⟨r, vm', h⟩ := exists_checkAddrMapping vm ((addr - base) / pageSize) prot hn
    rw [htaken, bind_some]
    dsimp only
    rw [h]
    exact ⟨_, _, rfl⟩

/-- The check grants the range. -/
def Granted (profile : Profile) (vm : Vmmap M) (access : Access) (addr length : ℕ) : Prop :=
  ∃ vm', access.check profile vm addr length = some (true, vm')

/-- Some check takes the one map to the other. -/
def Asked (profile : Profile) (vm vm' : Vmmap M) : Prop :=
  ∃ access addr length b, Access.check access profile vm addr length = some (b, vm')

/-- **The checks answer correctly inside the region**, now and after any number of them. -/
def AnswersInside (profile : Profile) (vm : Vmmap M) (base : ℕ) : Prop :=
  ∀ vm', Relation.ReflTransGen (Asked profile) vm vm' → ∀ access addr length, 0 < length →
    InWindow base addr length →
      (Granted profile vm' access addr length ↔ vm.SafeRange base access.prot addr length)

theorem Asked.eq_some (h : Asked profile vm vm') :
    vm' = { vm with cachedEntry := vm'.cachedEntry } := by
  obtain ⟨access, addr, length, b, h⟩ := h
  rw [access.check_eq] at h
  exact checkAddr_eq_some h

theorem asked_eq_some (h : Relation.ReflTransGen (Asked profile) vm vm') :
    vm' = { vm with cachedEntry := vm'.cachedEntry } := by
  induction h with
  | refl => rfl
  | tail _ hstep ih =>
    have hnext := hstep.eq_some
    rw [ih] at hnext
    exact hnext

end Asked

section Granted

variable {profile : Profile} {base addr length first stop : ℕ} {prot : BitVec 32}

/-- A check grants a range when it takes it for pages and `checkAddrMapping` grants those. -/
theorem checkAddr_granted_iff (hb : vm.baseAddress = some base) (hbase : base < 2 ^ 64)
    (haddr : addr < 2 ^ 64) (hlen : 0 < length) :
    (∃ vm', checkAddr prot profile vm addr length = some (true, vm')) ↔
      ∃ first stop, TakenFor profile base addr length first stop ∧
        ∃ r vm', vm.checkAddrMapping first (stop - first) prot = some (some r, vm') := by
  unfold checkAddr
  rw [if_neg hlen.ne']
  constructor
  · rintro ⟨vm', h⟩
    obtain ⟨range, hrange, h⟩ := bind_eq_some_iff.mp h
    cases range with
    | none => cases h
    | some range =>
      obtain ⟨first, npages⟩ := range
      obtain ⟨⟨r, u⟩, hu, heq⟩ := map_eq_some_iff.mp h
      obtain ⟨r, rfl⟩ := isSome_iff_exists.mp (Prod.mk.inj heq).1
      have htaken := (calculatePageRange_eq_some hb hbase haddr).mp hrange
      refine ⟨first, first + npages, htaken, r, u, ?_⟩
      rwa [Nat.add_sub_cancel_left]
  · rintro ⟨first, stop, htaken, r, vm', h⟩
    have hrange :
        vm.calculatePageRange profile addr length = some (some (first, stop - first)) := by
      rw [calculatePageRange_eq_some hb hbase haddr, Nat.add_sub_cancel' htaken.order]
      exact htaken
    rw [hrange, bind_some]
    exact ⟨vm', map_eq_some_iff.mpr ⟨_, h, rfl⟩⟩

/-- A range is safe if it lies in the window and the pages it is taken for are allowed. -/
theorem TakenFor.safeRange_iff (htaken : TakenFor profile base addr length first stop)
    (haddr : addr < 2 ^ 64) (hlen : 0 < length) :
    vm.SafeRange base prot addr length ↔
      InWindow base addr length ∧ vm.RangeAllows first (stop - first) prot := by
  refine and_congr_right fun hw => ?_
  obtain ⟨rfl, rfl⟩ := htaken.eq_of_inWindow haddr hw
  rw [rangeAllows_iff, Nat.add_sub_cancel' htaken.order]
  constructor
  · intro h q hq hqlt
    -- a byte of the range on page `q`: the page's first, or the range's
    have hx := h (max (addr - base) (q * pageSize)) (le_max_left _ _)
      (by unfold pageSize pageShift at *; omega)
    have hpage : max (addr - base) (q * pageSize) / pageSize = q := by
      unfold pageSize pageShift at *
      omega
    rwa [hpage] at hx
  · intro h x hle hlt
    refine h _ ?_ ?_ <;> unfold pageSize pageShift <;> omega

variable [LawfulIntervalMap M]

/-- `checkAddrMapping` grants the pages that are vouched for. -/
theorem Covering.granted_iff (hc : vm.Covering) (hle : first ≤ stop) (hfit : stop ≤ u32Max) :
    (∃ r vm', vm.checkAddrMapping first (stop - first) prot = some (some r, vm'))
      ↔ vm.Vouches prot first stop := by
  rcases Nat.lt_or_eq_of_le hle with hlt | rfl
  · have hn : 0 < stop - first := Nat.sub_pos_of_lt hlt
    obtain ⟨r, vm', h⟩ := exists_checkAddrMapping vm first prot hn
    have hiff := hc.isSome_iff hn h
    rw [Nat.add_sub_cancel' hle, and_iff_right hfit, isSome_iff_exists] at hiff
    rw [← hiff, h]
    constructor
    · rintro ⟨r, vm', heq⟩
      exact ⟨r, (Prod.mk.inj (some.inj heq)).1⟩
    · rintro ⟨r, rfl⟩
      exact ⟨r, vm', rfl⟩
  · -- of no page, the walk panics and only the cache can answer
    have hend : checkedAdd32 first 0 = some first := checkedAdd32_eq_some.mpr ⟨hfit, rfl⟩
    rw [Vouches, or_iff_left fun h => Nat.lt_irrefl first h.1, ← hc.cacheHit_isSome_iff,
      Nat.sub_self, Vmmap.checkAddrMapping, hend]
    dsimp only
    cases cacheHit vm.cachedEntry first first prot with
    | some r => exact iff_of_true ⟨r, vm, rfl⟩ rfl
    | none =>
      refine iff_of_false ?_ Bool.false_ne_true
      rintro ⟨r, vm', h⟩
      rw [ie_of_not_lt (Nat.lt_irrefl first)] at h
      exact some_ne_none _ h.symm

section Window

variable {profile : Profile} {base addr length : ℕ} {prot : BitVec 32} {vm' : Vmmap M}

theorem Honest.checkAddr (hh : vm.Honest)
    (h : Vmmap.checkAddr prot profile vm addr length = some (b, vm')) : vm'.Honest := by
  rcases checkAddr_cases h with rfl | ⟨pageNum, npages, r, h⟩
  · exact hh
  · exact hh.checkAddrMapping h

theorem Honest.asked (hh : vm.Honest) (h : Relation.ReflTransGen (Asked profile) vm vm') :
    vm'.Honest := by
  induction h with
  | refl => exact hh
  | tail _ hstep ih =>
    obtain ⟨access, addr, length, b, hstep⟩ := hstep
    rw [access.check_eq] at hstep
    exact ih.checkAddr hstep

/-- **Where the entries are honest, the checks answer correctly.** -/
theorem Honest.answersInside (hh : vm.Honest) (hb : vm.baseAddress = some base)
    (hfit : base + 2 ^ 32 < 2 ^ 64) : AnswersInside profile vm base := by
  intro vm' hasked access addr length hlen hw
  have hh' := hh.asked hasked
  have hvm' := asked_eq_some hasked
  have hb' : vm'.baseAddress = some base := by rw [hvm', hb]
  have haddr : addr < 2 ^ 64 := by
    obtain ⟨-, hend⟩ := hw
    omega
  have hsafe : vm'.SafeRange base access.prot addr length
      ↔ vm.SafeRange base access.prot addr length := by rw [hvm']; rfl
  rw [← hsafe, Granted, access.check_eq,
    checkAddr_granted_iff hb' (by omega) haddr hlen]
  constructor
  · rintro ⟨first, stop, htaken, h⟩
    have hv := (hh'.granted_iff htaken.order htaken.stop_le).mp h
    rw [← Nat.add_sub_cancel' htaken.order] at hv
    exact (htaken.safeRange_iff haddr hlen).mpr ⟨hw, hh'.rangeAllows hv⟩
  · intro h
    have htaken := takenFor_of_near profile hw.1 (hw.2.trans (by omega))
    refine ⟨_, _, htaken, (hh'.granted_iff htaken.order htaken.stop_le).mpr ?_⟩
    have hv := hh'.vouches (Nat.sub_pos_of_lt (htaken.lt_of_inWindow haddr hw hlen))
      ((htaken.safeRange_iff haddr hlen).mp h).2
    rwa [Nat.add_sub_cancel' htaken.order] at hv

end Window

end Granted

/-! ## One page, seen from afar -/

/-- A map with one page, readable and writable. -/
def onePage : Vmmap (SortedList VmmapEntry) :=
  (new.orKeep (new.addEntryWithOverwrite 0 1 3 3 2 .anonymous 0 0 1)).setBaseAddress (2 ^ 32)

theorem honest_onePage : onePage.Honest := by
  have hh : (new.orKeep (new.addEntryWithOverwrite 0 1 3 3 2 .anonymous 0 0 1) :
      Vmmap (SortedList VmmapEntry)).Honest :=
    honest_new.step (by decide)
      (show step new (.addEntryWithOverwrite 0 1 3 3 2 .anonymous 0 0 1) = some _ from rfl)
  exact ⟨⟨hh.key, hh.fits⟩, hh.allows⟩

end Vmmap

end LindWasm

import LindWasm.Machinery.Align
import LindWasm.Vmmap.Place

/-!
# Vmmap/Space — what the search for space finds

    gap ⟦a,b⟧            ├--------------┤
    the search      ├------------------------┤        ends rounded outwards, `b` taken for the end
    a run that fits         ├------┤                  ends rounded inwards, `b + 1` the end

The search asks whether a gap is long enough between multiples of `pagesPerMap` *around* it and
takes the last pages before the outer one. With `pagesPerMap = 1` that is one page short of the
gap's end, so a gap of exactly the pages asked for is passed over; with more it can be pages of the
neighbours. `findMapSpace_iff` says for which gaps the answer is right.
-/

namespace LindWasm.Vmmap

open IntervalMap LawfulOnValid LawfulIntervalMap Align Option List Interval

variable {M : Type*} [IntervalMap M VmmapEntry] {vm : Vmmap M} {lo numPages k pagesPerMap : ℕ}
  {i gap : Interval}

/-! ## The rounding, without masks -/

theorem truncPageNumDown_eq (hk : k < 32) {n : ℕ} (hn : n ≤ u32Max) :
    truncPageNumDownToMapMultiple n (2 ^ k) = floorTo (2 ^ k) n := by
  have hmask : u32Max - (2 ^ k - 1) = 2 ^ 32 - 2 ^ k := by
    have := Nat.one_le_two_pow (n := k)
    unfold u32Max
    omega
  have hlt : n < 2 ^ 32 := Nat.lt_of_le_of_lt hn (by decide)
  rw [truncPageNumDownToMapMultiple, hmask, and_sub_two_pow (Nat.le_of_lt hk) hlt]

theorem two_pow_dvd_top (hk : k < 32) : 2 ^ k ∣ 2 ^ 32 - 2 ^ k :=
  Nat.dvd_sub (Nat.pow_dvd_pow 2 (Nat.le_of_lt hk)) (dvd_refl _)

/-- Rounding up stops at the last multiple below 32 bits. -/
theorem roundPageNumUp_eq (hk : k < 32) (n : ℕ) :
    roundPageNumUpToMapMultiple n (2 ^ k) = min (ceilTo (2 ^ k) n) (2 ^ 32 - 2 ^ k) := by
  have hone := Nat.one_le_two_pow (n := k)
  have htop := two_pow_dvd_top hk
  have hpow : 2 ^ k ≤ 2 ^ 32 := Nat.pow_le_pow_right (by decide) (Nat.le_of_lt hk)
  have hle := le_ceilTo (n := n) hone
  unfold roundPageNumUpToMapMultiple checkedAdd32
  by_cases hfit : n + (2 ^ k - 1) ≤ u32Max
  · rw [if_pos hfit]
    dsimp only
    rw [← truncPageNumDownToMapMultiple, truncPageNumDown_eq hk hfit]
    have hceil : floorTo (2 ^ k) (n + (2 ^ k - 1)) = ceilTo (2 ^ k) n := by
      rw [floorTo, ceilTo, Nat.add_sub_assoc hone]
    rw [hceil, Nat.min_eq_left]
    refine ceilTo_le hone htop ?_
    unfold u32Max at hfit
    omega
  · rw [if_neg hfit]
    rw [← truncPageNumDownToMapMultiple, truncPageNumDown_eq hk le_rfl]
    have hfloor : floorTo (2 ^ k) u32Max = 2 ^ 32 - 2 ^ k := by
      have hlt := lt_floorTo_add (n := u32Max) hone
      have hle' := le_floorTo (n := u32Max) hone htop (by unfold u32Max; omega)
      have := floorTo_le (m := 2 ^ k) (n := u32Max)
      refine Nat.le_antisymm (le_of_dvd_of_lt_add dvd_floorTo htop ?_) hle'
      unfold u32Max at *
      omega
    rw [hfloor, Nat.min_eq_right]
    unfold u32Max at *
    omega

theorem dvd_roundPageNumUp (hk : k < 32) (n : ℕ) :
    2 ^ k ∣ roundPageNumUpToMapMultiple n (2 ^ k) := by
  rw [roundPageNumUp_eq hk]
  rcases Nat.le_total (ceilTo (2 ^ k) n) (2 ^ 32 - 2 ^ k) with hmin | hmin
  · rw [Nat.min_eq_left hmin]
    exact dvd_ceilTo
  · rw [Nat.min_eq_right hmin]
    exact two_pow_dvd_top hk

/-! ## Runs of free pages -/

/-- `i` is a run of free pages: aligned at both ends, of the pages asked for rounded up, inside
`[lo, endAddress)`. -/
structure FreeRun (vm : Vmmap M) (lo numPages pagesPerMap : ℕ) (i : Interval) : Prop where
  start_aligned : pagesPerMap ∣ i.start
  end_aligned : pagesPerMap ∣ i.last + 1
  size : i.last + 1 = i.start + ceilTo pagesPerMap numPages
  lo_le : lo ≤ i.start
  lt_end : i.last < vm.endAddress
  free : ∀ q ∈ i, vm.findPage q = none

theorem FreeRun.valid (h : FreeRun vm lo numPages pagesPerMap i)
    (hm : 0 < pagesPerMap) (hn : 0 < numPages) : i.Valid := by
  have hsize := h.size
  have hpos := ceilTo_pos hm hn
  unfold Interval.Valid
  omega

theorem FreeRun.free_in (h : FreeRun vm lo numPages pagesPerMap i) :
    ∀ q ∈ i, q ∈ (⟨lo, vm.endAddress - 1⟩ : Interval) ∧ getAtPoint vm.entries q = none := by
  intro q hq
  have hend := h.lt_end
  have hlast := hq.2
  exact ⟨⟨h.lo_le.trans hq.1, by dsimp only; omega⟩, h.free q hq⟩

/-- A search is right: it does not panic, it finds something when there is a run, and what it finds
is one. -/
def FindsRun (vm : Vmmap M) (lo numPages pagesPerMap : ℕ)
    (found : Option (Option Interval)) : Prop :=
  ∃ answer, found = some answer ∧
    (answer.isSome ↔ ∃ i, FreeRun vm lo numPages pagesPerMap i) ∧
    ∀ i ∈ answer, FreeRun vm lo numPages pagesPerMap i

/-- The search takes a gap. -/
def Takes (numPages pagesPerMap : ℕ) (gap : Interval) : Prop :=
  roundPageNumUpToMapMultiple numPages pagesPerMap
    ≤ roundPageNumUpToMapMultiple gap.last pagesPerMap
      - truncPageNumDownToMapMultiple gap.start pagesPerMap
deriving Decidable

/-- The pages up to the rounded end of the gap are pages of the gap. -/
def HoldsLast (numPages pagesPerMap : ℕ) (gap : Interval) : Prop :=
  gap.start + ceilTo pagesPerMap numPages ≤ roundPageNumUpToMapMultiple gap.last pagesPerMap ∧
    roundPageNumUpToMapMultiple gap.last pagesPerMap ≤ gap.last + 1
deriving Decidable

/-- The gaps of `[lo, endAddress)`. -/
def gapsFromPage (vm : Vmmap M) (lo : ℕ) : List Interval :=
  gapsTrimmed vm.entries ⟨lo, vm.endAddress - 1⟩

/-- The gaps suit the search: the first one it takes holds the pages it takes from it, and if it
takes none, none has exactly the pages asked for. -/
structure Searchable (vm : Vmmap M) (lo numPages pagesPerMap : ℕ) : Prop where
  nonempty : lo < vm.endAddress
  first : ∀ before gap after, vm.gapsFromPage lo = before ++ gap :: after →
    (∀ g ∈ before, ¬ Takes numPages pagesPerMap g) → Takes numPages pagesPerMap gap →
      HoldsLast numPages pagesPerMap gap
  none_exact : pagesPerMap = 1 → (∀ g ∈ vm.gapsFromPage lo, ¬ Takes numPages pagesPerMap g) →
    ∀ g ∈ vm.gapsFromPage lo, g.last + 1 ≠ g.start + numPages

/-! ## What the search does -/

/-- It finds nothing if it takes no gap, and else takes the last pages of the first one. -/
theorem findMapSpaceFrom_eq (hlt : lo < vm.endAddress) (pagesPerMap : ℕ) :
    vm.findMapSpaceFrom lo numPages pagesPerMap
      = match (vm.gapsFromPage lo).find? (fun g => decide (Takes numPages pagesPerMap g)) with
        | none => some none
        | some gap =>
          (ie M (roundPageNumUpToMapMultiple gap.last pagesPerMap
            - roundPageNumUpToMapMultiple numPages pagesPerMap)
            (roundPageNumUpToMapMultiple gap.last pagesPerMap)).map some := by
  unfold findMapSpaceFrom gapsFromPage
  rw [ie_of_lt hlt, bind_some]
  rfl

/-! ## One gap -/

section Gap

variable {gap : Interval}

/-- The pages taken from a gap start in it, or below its end, and end past its start. -/
theorem overlaps_of_takes (hk : k < 32) (hn : 0 < numPages) (hvalid : gap.Valid)
    (hlast : gap.last ≤ u32Max) (h : Takes numPages (2 ^ k) gap) :
    0 < roundPageNumUpToMapMultiple numPages (2 ^ k) ∧
      roundPageNumUpToMapMultiple numPages (2 ^ k)
        ≤ roundPageNumUpToMapMultiple gap.last (2 ^ k) ∧
      gap.Overlaps ⟨roundPageNumUpToMapMultiple gap.last (2 ^ k)
        - roundPageNumUpToMapMultiple numPages (2 ^ k),
        roundPageNumUpToMapMultiple gap.last (2 ^ k) - 1⟩ := by
  have hone := Nat.one_le_two_pow (n := k)
  have htop : 2 ^ (k + 1) ≤ 2 ^ 32 := Nat.pow_le_pow_right (by decide) hk
  rw [Nat.pow_succ] at htop
  unfold Takes at h
  rw [truncPageNumDown_eq hk (hvalid.trans hlast)] at h
  have hfloor := lt_floorTo_add (n := gap.start) hone
  have hceil := ceilTo_lt_add (n := gap.last) hone
  -- a positive multiple is at least `2 ^ k`
  have hsize : 2 ^ k ≤ ceilTo (2 ^ k) numPages :=
    Nat.le_of_dvd (ceilTo_pos hone hn) dvd_ceilTo
  rw [roundPageNumUp_eq hk, roundPageNumUp_eq hk] at *
  unfold Interval.Overlaps
  dsimp only
  omega

/-- **A run in a gap that is not taken fills it, page by page.** -/
theorem exact_of_not_takes (hstop : vm.endAddress ≤ u32Max) (hk : k < 32)
    (hrun : FreeRun vm lo numPages (2 ^ k) i) (hstart : gap.start ≤ i.start)
    (hlast : i.last ≤ gap.last) (hvalid : gap.Valid) (hmax : gap.last < vm.endAddress)
    (h : ¬ Takes numPages (2 ^ k) gap) : 2 ^ k = 1 ∧ gap.last + 1 = gap.start + numPages := by
  have hone := Nat.one_le_two_pow (n := k)
  have htop := two_pow_dvd_top hk
  unfold Interval.Valid at hvalid
  unfold u32Max at hstop
  unfold Takes at h
  rw [truncPageNumDown_eq hk (by unfold u32Max; omega), roundPageNumUp_eq hk,
    roundPageNumUp_eq hk] at h
  have hsize := hrun.size
  have hend := hrun.lt_end
  have hfloor := floorTo_le (m := 2 ^ k) (n := gap.start)
  have hceil := le_ceilTo (n := gap.last) hone
  have hbelow : i.last + 1 ≤ 2 ^ 32 - 2 ^ k :=
    le_of_dvd_of_lt_add hrun.end_aligned htop (by omega)
  -- the end of the run is a multiple at most one past the gap
  have hm : 2 ^ k = 1 := by
    by_contra hne
    have : i.last + 1 ≤ ceilTo (2 ^ k) gap.last :=
      le_of_dvd_of_lt_add hrun.end_aligned dvd_ceilTo (by omega)
    omega
  refine ⟨hm, ?_⟩
  simp only [hm, ceilTo, floorTo, Nat.add_sub_cancel, Nat.div_one, Nat.mul_one] at h hsize
  omega

variable [LawfulOnValid M] (hlo : lo < vm.endAddress) (hgap : gap ∈ vm.gapsFromPage lo)
include hlo hgap

/-- A gap is of free pages, from `lo` on and below the end of the map. -/
theorem gapsFromPage_spec :
    gap.Valid ∧ lo ≤ gap.start ∧ gap.last < vm.endAddress ∧
      ∀ q ∈ gap, vm.findPage q = none := by
  obtain ⟨hvalid, hfree⟩ := of_mem_gapsTrimmed vm.entries (valid_of_lt hlo) hgap
  have hlast := (hfree gap.last ⟨hvalid, le_rfl⟩).1.2
  dsimp only at hlast
  exact ⟨hvalid, (hfree gap.start ⟨le_rfl, hvalid⟩).1.1, by omega, fun q hq => (hfree q hq).2⟩

/-- **What is taken from a gap is a free run just when the gap holds it.** -/
theorem freeRun_iff_holdsLast (hstop : vm.endAddress ≤ u32Max) (hn : 0 < numPages) (hk : k < 32)
    (h : Takes numPages (2 ^ k) gap) :
    FreeRun vm lo numPages (2 ^ k) ⟨roundPageNumUpToMapMultiple gap.last (2 ^ k)
        - roundPageNumUpToMapMultiple numPages (2 ^ k),
        roundPageNumUpToMapMultiple gap.last (2 ^ k) - 1⟩
      ↔ HoldsLast numPages (2 ^ k) gap := by
  have hone := Nat.one_le_two_pow (n := k)
  obtain ⟨hvalid, hstart, hlast, hfree⟩ := gapsFromPage_spec hlo hgap
  obtain ⟨hpos, hle, hov⟩ := overlaps_of_takes hk hn hvalid (by omega) h
  have hrounded : roundPageNumUpToMapMultiple numPages (2 ^ k)
      = min (ceilTo (2 ^ k) numPages) (2 ^ 32 - 2 ^ k) := roundPageNumUp_eq hk _
  have htop := two_pow_dvd_top hk
  have hlastup := dvd_roundPageNumUp hk gap.last
  constructor
  · intro hrun
    have hin := gap_of_overlaps (hrun.valid hone hn) hrun.free_in hgap hov
    have hsize := hrun.size
    unfold HoldsLast
    dsimp only at hin hsize
    omega
  · rintro ⟨hfits, hend⟩
    -- the rounded size is below 32 bits, so it was not cut off
    have hsize : ceilTo (2 ^ k) numPages ≤ 2 ^ 32 - 2 ^ k := by
      refine le_of_dvd_of_lt_add dvd_ceilTo htop ?_
      unfold u32Max at hstop
      omega
    rw [Nat.min_eq_left hsize] at hrounded
    rw [hrounded] at *
    refine ⟨Nat.dvd_sub hlastup dvd_ceilTo, ?_, ?_, ?_, ?_, fun q hq => hfree q ?_⟩
    · dsimp only
      rwa [Nat.sub_add_cancel (by omega)]
    · dsimp only
      omega
    · dsimp only
      omega
    · dsimp only
      omega
    · rw [Interval.mem_def] at hq ⊢
      dsimp only at hq
      omega

theorem freeRun_of_exact (hexact : gap.last + 1 = gap.start + numPages) :
    FreeRun vm lo numPages 1 gap := by
  obtain ⟨hvalid, hstart, hlast, hfree⟩ := gapsFromPage_spec hlo hgap
  refine ⟨Nat.one_dvd _, Nat.one_dvd _, ?_, hstart, hlast, hfree⟩
  simpa [ceilTo] using hexact

end Gap

/-! ## No page, or no free one

A search for no page takes the first gap, and from it the empty range at its end. -/

section Empty

variable [LawfulOnValid M] (hlo : lo < vm.endAddress)
include hlo

theorem gapsFromPage_ne_nil :
    vm.gapsFromPage lo ≠ [] ↔ ∃ q, lo ≤ q ∧ q < vm.endAddress ∧ vm.findPage q = none := by
  constructor
  · intro hgaps
    obtain ⟨g, hg⟩ := exists_mem_of_ne_nil _ hgaps
    obtain ⟨hvalid, hstart, hlast, hfree⟩ := gapsFromPage_spec hlo hg
    exact ⟨g.last, hstart.trans hvalid, hlast, hfree g.last ⟨hvalid, le_rfl⟩⟩
  · rintro ⟨q, hq, hend, hfree⟩
    have hin : q ∈ (⟨lo, vm.endAddress - 1⟩ : Interval) := ⟨hq, Nat.le_sub_one_of_lt hend⟩
    obtain ⟨g, hg, -⟩ := exists_mem_gapsTrimmed vm.entries hin hfree
    exact ne_nil_of_mem hg

theorem findMapSpaceFrom_zero
    (hfree : ∃ q, lo ≤ q ∧ q < vm.endAddress ∧ vm.findPage q = none) :
    ∃ p, vm.findMapSpaceFrom lo 0 1 = (emptyRange M p p).map some := by
  obtain ⟨g, gaps, hgaps⟩ := exists_cons_of_ne_nil ((gapsFromPage_ne_nil hlo).mpr hfree)
  have hround : roundPageNumUpToMapMultiple 0 1 = 0 := roundPageNumUp_one (Nat.zero_le _)
  have htakes : Takes 0 1 g := by
    unfold Takes
    rw [hround]
    exact Nat.zero_le _
  simp only [findMapSpaceFrom_eq hlo, hgaps, find?_cons, htakes, decide_true, hround]
  exact ⟨_, congrArg (Option.map some) (if_neg (Nat.lt_irrefl _))⟩

theorem findMapSpaceFrom_of_not_free
    (hfree : ¬ ∃ q, lo ≤ q ∧ q < vm.endAddress ∧ vm.findPage q = none) :
    vm.findMapSpaceFrom lo numPages 1 = some none := by
  rw [findMapSpaceFrom_eq hlo, not_not.mp (mt (gapsFromPage_ne_nil hlo).mp hfree)]
  rfl

theorem findMapSpaceFrom_ne_none (hstop : vm.endAddress ≤ u32Max) (hn : 0 < numPages) :
    vm.findMapSpaceFrom lo numPages 1 ≠ none := by
  rw [findMapSpaceFrom_eq hlo]
  split
  · exact nofun
  · next gap hfind =>
    obtain ⟨hvalid, -, hlast, -⟩ := gapsFromPage_spec hlo (mem_of_find?_eq_some hfind)
    have htakes := find?_some hfind
    rw [decide_eq_true_eq] at htakes
    obtain ⟨hpos, hle, -⟩ := overlaps_of_takes (k := 0) (by decide) hn hvalid (by omega) htakes
    rw [Nat.pow_zero] at hpos hle
    rw [ie_of_lt (by omega)]
    exact nofun

end Empty

/-! ## The whole search -/

section Search

variable [LawfulIntervalMap M]

section

variable (hstop : vm.endAddress ≤ u32Max)
include hstop

theorem freeRun_of_found (hn : numPages ≤ u32Max)
    (h : vm.findMapSpaceFrom lo numPages 1 = some (some i)) : FreeRun vm lo numPages 1 i := by
  obtain ⟨-, hsize, hlo, hlast, hfree⟩ := findMapSpaceFrom_free hstop hn h
  refine ⟨Nat.one_dvd _, Nat.one_dvd _, ?_, hlo, hlast, hfree⟩
  simpa [ceilTo] using hsize

section

variable (hn : 0 < numPages) (hk : k < 32) (hlo : lo < vm.endAddress)
include hn hk hlo

/-- A search that takes no gap is right just when no gap has exactly the pages asked for. -/
theorem findsRun_none (hnone : ∀ g ∈ vm.gapsFromPage lo, ¬ Takes numPages (2 ^ k) g) :
    FindsRun vm lo numPages (2 ^ k) (some none) ↔ Searchable vm lo numPages (2 ^ k) := by
  constructor
  · rintro ⟨answer, hanswer, hsome, -⟩
    cases hanswer
    refine ⟨hlo, fun before gap after hsplit _ htakes => ?_, fun hone _ g hg hexact => ?_⟩
    · exact absurd htakes (hnone gap (by rw [hsplit]; simp))
    · have hrun : ∃ i, FreeRun vm lo numPages (2 ^ k) i :=
        ⟨g, hone ▸ freeRun_of_exact hlo hg hexact⟩
      exact absurd (hsome.mpr hrun) nofun
  · intro hsearch
    refine ⟨none, rfl, ⟨nofun, ?_⟩, nofun⟩
    rintro ⟨i, hrun⟩
    obtain ⟨g, hg, hstart, hlast⟩ :=
      exists_gap_of_free (hrun.valid Nat.one_le_two_pow hn) hrun.free_in
    obtain ⟨hvalid, -, hend, -⟩ := gapsFromPage_spec hlo hg
    obtain ⟨hone, hexact⟩ :=
      exact_of_not_takes hstop hk hrun hstart hlast hvalid hend (hnone g hg)
    exact absurd hexact (hsearch.none_exact hone hnone g hg)

/-- One that takes a gap is right just when the first gap it takes holds what it takes. -/
theorem findsRun_some
    (hfind : (vm.gapsFromPage lo).find? (fun g => decide (Takes numPages (2 ^ k) g)) = some gap) :
    FindsRun vm lo numPages (2 ^ k)
        (some (some ⟨roundPageNumUpToMapMultiple gap.last (2 ^ k)
          - roundPageNumUpToMapMultiple numPages (2 ^ k),
          roundPageNumUpToMapMultiple gap.last (2 ^ k) - 1⟩))
      ↔ Searchable vm lo numPages (2 ^ k) := by
  obtain ⟨htakes, before, after, hsplit, hbefore⟩ := find?_eq_some_iff_append.mp hfind
  have htakes : Takes numPages (2 ^ k) gap := of_decide_eq_true htakes
  have hgap : gap ∈ vm.gapsFromPage lo := mem_of_find?_eq_some hfind
  have hiff := freeRun_iff_holdsLast hlo hgap hstop hn hk htakes
  constructor
  · rintro ⟨answer, hanswer, -, hall⟩
    cases hanswer
    refine ⟨hlo, fun before' gap' after' hsplit' hbefore' htakes' => ?_, fun _ hnone => ?_⟩
    · -- the first gap taken is the one that was found
      have hfind' : (vm.gapsFromPage lo).find? (fun g => decide (Takes numPages (2 ^ k) g))
          = some gap' :=
        find?_eq_some_iff_append.mpr ⟨decide_eq_true htakes', before', after', hsplit',
          fun g hg => by simpa using hbefore' g hg⟩
      obtain rfl := mem_unique hfind hfind'
      exact hiff.mp (hall _ rfl)
    · exact absurd htakes (hnone gap hgap)
  · intro hsearch
    have hrun := hiff.mpr (hsearch.first before gap after hsplit
      (fun g hg => by simpa using hbefore g hg) htakes)
    refine ⟨_, rfl, ⟨fun _ => ⟨_, hrun⟩, fun _ => rfl⟩, fun i hi => ?_⟩
    cases hi
    exact hrun

end

theorem findMapSpaceFrom_iff (hn : 0 < numPages) (hk : k < 32) :
    FindsRun vm lo numPages (2 ^ k) (vm.findMapSpaceFrom lo numPages (2 ^ k))
      ↔ Searchable vm lo numPages (2 ^ k) := by
  by_cases hlo : lo < vm.endAddress
  · rw [findMapSpaceFrom_eq hlo]
    cases hfind : (vm.gapsFromPage lo).find? (fun g => decide (Takes numPages (2 ^ k) g)) with
    | none => exact findsRun_none hstop hn hk hlo (by simpa using hfind)
    | some gap =>
      obtain ⟨hvalid, -, hlast, -⟩ := gapsFromPage_spec hlo (mem_of_find?_eq_some hfind)
      have htakes := find?_some hfind
      rw [decide_eq_true_eq] at htakes
      obtain ⟨hpos, hle, -⟩ := overlaps_of_takes hk hn hvalid (by omega) htakes
      dsimp only
      rw [ie_of_lt (by omega), map_some]
      exact findsRun_some hstop hn hk hlo hfind
  · -- the range is empty: the search panics
    have hpanic : vm.findMapSpaceFrom lo numPages (2 ^ k) = none := by
      unfold findMapSpaceFrom
      rw [ie_of_not_lt hlo, bind_none]
    rw [hpanic]
    exact ⟨fun ⟨_, h, _⟩ => absurd h nofun, fun h => absurd h.nonempty hlo⟩

end

/-- **Where the search for space is right**: with and without a hint, for every number of pages and
every power of two to align them to, exactly if the gaps it looks at suit it. -/
theorem findMapSpace_iff (hint : ℕ) (hstop : vm.endAddress ≤ u32Max) (hn : 0 < numPages)
    (hk : k < 32) :
    (FindsRun vm vm.startAddress numPages (2 ^ k) (vm.findMapSpace numPages (2 ^ k))
      ↔ Searchable vm vm.startAddress numPages (2 ^ k)) ∧
    (FindsRun vm hint numPages (2 ^ k) (vm.findMapSpaceWithHint numPages (2 ^ k) hint)
      ↔ Searchable vm hint numPages (2 ^ k)) :=
  ⟨findMapSpaceFrom_iff hstop hn hk, findMapSpaceFrom_iff hstop hn hk⟩

end Search

/-- A single gap suits the search if it holds what is taken from it. -/
theorem searchable_singleton (hlo : lo < vm.endAddress) (hgaps : vm.gapsFromPage lo = [gap])
    (htakes : Takes numPages pagesPerMap gap) (hholds : HoldsLast numPages pagesPerMap gap) :
    Searchable vm lo numPages pagesPerMap := by
  refine ⟨hlo, fun before g after hsplit _ _ => ?_, fun _ hnone => ?_⟩
  · have hg : g ∈ [gap] := by
      rw [← hgaps, hsplit]
      simp
    exact mem_singleton.mp hg ▸ hholds
  · exact absurd htakes (hnone gap (by rw [hgaps]; exact mem_singleton_self gap))

/-- The map after some operations, empty if one of them panics. -/
def mapAfter (ops : List Op) : Vmmap (SortedList VmmapEntry) := (runSteps step new ops).getD new

/-- Everything mapped but the pages from 512 to 1023. -/
def wideGap : Vmmap (SortedList VmmapEntry) :=
  mapAfter [.addEntryWithOverwrite 0 512 3 3 2 .anonymous 0 0 1,
    .addEntryWithOverwrite 1024 (2 ^ 20 - 1024) 3 3 2 .anonymous 0 0 1]

/-- In a gap that starts and ends at multiples of 16, the search is right for that alignment. -/
theorem findMapSpace_wideGap :
    FindsRun wideGap 0 40 (2 ^ 4) (wideGap.findMapSpace 40 (2 ^ 4)) ∧
      FindsRun wideGap 600 40 (2 ^ 4) (wideGap.findMapSpaceWithHint 40 (2 ^ 4) 600) := by
  have hgap : wideGap.gapsFromPage wideGap.startAddress = [⟨512, 1023⟩] := by decide +kernel
  have hgap' : wideGap.gapsFromPage 600 = [⟨600, 1023⟩] := by decide +kernel
  have hstop : wideGap.endAddress ≤ u32Max := by decide +kernel
  exact ⟨(findMapSpace_iff 600 hstop (by decide) (by decide)).1.mpr
      (searchable_singleton (by decide +kernel) hgap (by decide +kernel) (by decide +kernel)),
    (findMapSpace_iff 600 hstop (by decide) (by decide)).2.mpr
      (searchable_singleton (by decide +kernel) hgap' (by decide +kernel) (by decide +kernel))⟩

/-- Everything mapped but the pages from 8 to 23. -/
def smallGap : Vmmap (SortedList VmmapEntry) :=
  mapAfter [.addEntryWithOverwrite 0 8 3 3 2 .anonymous 0 0 1,
    .addEntryWithOverwrite 24 (2 ^ 20 - 24) 3 3 2 .anonymous 0 0 1]

/-- **Sixteen free pages, and sixteen asked for**: without alignment the search does not find them,
and aligned to sixteen it returns pages 16 to 31, of which the last eight are mapped. -/
theorem not_findsRun_smallGap :
    ¬ FindsRun smallGap 0 16 (2 ^ 0) (smallGap.findMapSpace 16 (2 ^ 0)) ∧
      ¬ FindsRun smallGap 0 16 (2 ^ 4) (smallGap.findMapSpace 16 (2 ^ 4)) := by
  constructor
  · rintro ⟨answer, hanswer, hsome, -⟩
    have hnone : smallGap.findMapSpace 16 (2 ^ 0) = some none := by decide +kernel
    obtain rfl := mem_unique hnone hanswer
    have hgap : (⟨8, 23⟩ : Interval) ∈ smallGap.gapsFromPage 0 := by decide +kernel
    exact absurd (hsome.mpr ⟨_, freeRun_of_exact (by decide +kernel) hgap rfl⟩) nofun
  · rintro ⟨answer, hanswer, -, hall⟩
    have hfound : smallGap.findMapSpace 16 (2 ^ 4) = some (some ⟨16, 31⟩) := by decide +kernel
    obtain rfl := mem_unique hfound hanswer
    have hmapped : smallGap.findPage 24 ≠ none := by decide +kernel
    exact hmapped ((hall _ rfl).free 24 ⟨by decide, by decide⟩)

end LindWasm.Vmmap

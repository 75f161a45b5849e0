import LindWasm.Vmmap.Bounds
import LindWasm.Vmmap.Check

/-!
# Vmmap/Walk — the two walks against the page-by-page answers

        cur                      regionEnd
    ├--┼- e₁ --┤├-- e₂ --┤├- e₃ ---┼--┤         cur ↦ end of e₁ ↦ end of e₂,   answer: end of e₃

`checkExistingMapping` and `checkAddrMapping` move a page cursor along the overlapping entries, by
the bounds the entries carry. Where those bounds are exact and nothing is cached, the cursor stops
at the first page that is not covered or not allowed, and so each walk is the answer page by page
(`checks_eq_pagewise`).
-/

namespace LindWasm.Vmmap

open IntervalMap LawfulOnValid LawfulIntervalMap Option List Interval

variable {M : Type*} [IntervalMap M VmmapEntry] {vm : Vmmap M}

/-! ## What is left of a walk -/

/-- The entries a walk at `cur` still has before it: in order, with exact bounds, none of them
behind the cursor or past the region. -/
structure Ahead (regionEnd cur : ℕ) (l : List (Interval × VmmapEntry)) : Prop where
  sorted : SortedEntries l
  exact : ∀ kv ∈ l, kv.2.pageNum = kv.1.start ∧ kv.2.pageNum + kv.2.npages = kv.1.last + 1
  meets : ∀ kv ∈ l, cur ≤ kv.1.last ∧ kv.1.start < regionEnd

section Ahead

variable {regionEnd cur : ℕ} {kv : Interval × VmmapEntry} {l : List (Interval × VmmapEntry)}
  {prot : BitVec 32}

section

variable (h : Ahead regionEnd cur (kv :: l))
include h

theorem Ahead.tail : Ahead regionEnd (kv.1.last + 1) l where
  sorted := h.sorted.tail
  exact y hy := h.exact y (mem_cons_of_mem _ hy)
  meets y hy := by
    have hnext : kv.1.last < y.1.start := (pairwise_cons.mp h.sorted.sorted).1 y hy
    have hvalid : y.1.start ≤ y.1.last := h.sorted.tail.valid y hy
    exact ⟨hnext.trans_le hvalid, (h.meets y (mem_cons_of_mem _ hy)).2⟩

/-- Nothing comes after an entry that reaches the end of the region. -/
theorem Ahead.eq_nil (hend : regionEnd ≤ kv.1.last + 1) : l = [] := by
  refine eq_nil_iff_forall_not_mem.mpr fun y hy => ?_
  have hnext : kv.1.last < y.1.start := (pairwise_cons.mp h.sorted.sorted).1 y hy
  have hmeets := (h.meets y (mem_cons_of_mem _ hy)).2
  omega

theorem Ahead.entEnd : saturatingAdd32 kv.2.pageNum kv.2.npages = min (kv.1.last + 1) u32Max := by
  rw [saturatingAdd32, (h.exact kv mem_cons_self).2]

/-- **One round of `checkExistingMapping`.** -/
theorem existingWalk_cons (hreg : regionEnd ≤ u32Max) : existingWalk regionEnd prot (kv :: l) cur =
      if kv.1.start ≤ cur then
        if regionEnd ≤ kv.1.last + 1 then decide (Allows kv.2.maxprot prot)
        else decide (Allows kv.2.maxprot prot) && existingWalk regionEnd prot l (kv.1.last + 1)
      else false := by
  have hcur := (h.meets kv mem_cons_self).1
  have hstart := (h.exact kv mem_cons_self).1
  rw [existingWalk, h.entEnd, hstart]
  by_cases hle : kv.1.start ≤ cur
  · by_cases hend : regionEnd ≤ kv.1.last + 1
    · rw [if_pos ⟨hle, by omega⟩, if_pos hle, if_pos hend]
    · have hmin : min (kv.1.last + 1) u32Max = kv.1.last + 1 := by omega
      rw [hmin, if_neg (fun hin => hend hin.2), if_pos ⟨hle, by omega⟩, if_pos hle, if_neg hend,
        if_neg (show ¬ kv.1.last + 1 < kv.1.start by omega)]
      by_cases hallows : Allows kv.2.maxprot prot
      · rw [if_neg (not_not.mpr hallows), decide_eq_true hallows, Bool.true_and]
      · rw [if_pos hallows, decide_eq_false hallows, Bool.false_and]
  · rw [if_neg (fun hin => hle hin.1), if_neg (fun hin => hle hin.1),
      if_pos (Nat.lt_of_not_le hle), if_neg hle]

/-- **One round of `checkAddrMapping`**, for the answer: a refused last entry ends the walk too,
since nothing comes after it. -/
theorem addrWalk_cons (hreg : regionEnd ≤ u32Max) (cache : Option VmmapEntry) :
    (addrWalk regionEnd prot (kv :: l) cur cache).1 =
      if kv.1.start ≤ cur ∧ Allows (effectiveProt kv.2.prot) prot then
        if regionEnd ≤ kv.1.last + 1 then some (saturatingAdd32 kv.2.pageNum kv.2.npages)
        else (addrWalk regionEnd prot l (kv.1.last + 1) cache).1
      else none := by
  have hcur := (h.meets kv mem_cons_self).1
  have hstart := (h.exact kv mem_cons_self).1
  rw [addrWalk, h.entEnd, hstart]
  by_cases hle : kv.1.start ≤ cur
  · by_cases hend : regionEnd ≤ kv.1.last + 1
    · obtain rfl := h.eq_nil hend
      rw [if_pos ⟨hle, by omega⟩]
      by_cases hallows : Allows (effectiveProt kv.2.prot) prot
      · rw [if_pos hallows, if_pos ⟨hle, hallows⟩, if_pos hend]
      · rw [if_neg hallows, if_neg (fun hin => hallows hin.2)]
        rfl
    · have hmin : min (kv.1.last + 1) u32Max = kv.1.last + 1 := by omega
      rw [hmin, if_neg (fun hin => hend hin.2), if_pos ⟨hle, by omega⟩]
      by_cases hallows : Allows (effectiveProt kv.2.prot) prot
      · rw [if_neg (not_not.mpr hallows), if_pos ⟨hle, hallows⟩, if_neg hend]
      · rw [if_pos hallows, if_neg (fun hin => hallows hin.2)]
  · rw [if_neg (fun hin => hle hin.1), if_neg (fun hin => hle hin.1),
      if_pos (Nat.lt_of_not_le hle), if_neg (fun hin => hle hin.1)]

end

/-- **The walk of `checkExistingMapping` finds the rest of the region covered** by entries whose
`maxprot` contains `prot`. -/
theorem existingWalk_iff_spans (h : Ahead regionEnd cur l) (hcur : cur < regionEnd)
    (hreg : regionEnd ≤ u32Max) :
    existingWalk regionEnd prot l cur = true
      ↔ Spans (fun e => Allows e.maxprot prot) l cur regionEnd := by
  induction l generalizing cur with
  | nil => exact iff_of_false Bool.false_ne_true (spans_nil hcur)
  | cons kv l ih =>
    rw [existingWalk_cons h hreg]
    by_cases hle : kv.1.start ≤ cur
    · rw [if_pos hle, spans_cons h.sorted hcur ⟨hle, (h.meets kv mem_cons_self).1⟩]
      by_cases hend : regionEnd ≤ kv.1.last + 1
      · have hrest : Spans (fun e : VmmapEntry => Allows e.maxprot prot) l (kv.1.last + 1)
            regionEnd :=
          fun q hq hlt => absurd (hq.trans_lt hlt) (Nat.not_lt_of_le hend)
        rw [if_pos hend, decide_eq_true_iff, and_iff_left hrest]
      · rw [if_neg hend, Bool.and_eq_true, decide_eq_true_iff,
          ih h.tail (Nat.lt_of_not_le hend)]
    · rw [if_neg hle]
      exact iff_of_false Bool.false_ne_true
        (spans_cons_of_gap h.sorted hcur (Nat.lt_of_not_le hle))

/-- **The walk of `checkAddrMapping` finds the rest of the region covered** by entries whose
effective protection contains `prot`, and answers the end of the one that holds its last page. -/
theorem addrWalk_eq_some_iff (h : Ahead regionEnd cur l) (hcur : cur < regionEnd)
    (hreg : regionEnd ≤ u32Max) {cache : Option VmmapEntry} {stop : ℕ} :
    (addrWalk regionEnd prot l cur cache).1 = some stop
      ↔ Spans (fun e => Allows (effectiveProt e.prot) prot) l cur regionEnd ∧
        ∃ kv ∈ l, regionEnd - 1 ∈ kv.1 ∧ stop = saturatingAdd32 kv.2.pageNum kv.2.npages := by
  induction l generalizing cur with
  | nil => exact iff_of_false (some_ne_none _).symm fun hl => spans_nil hcur hl.1
  | cons kv l ih =>
    rw [addrWalk_cons h hreg, exists_mem_cons_iff]
    by_cases hle : kv.1.start ≤ cur
    · have hin : cur ∈ kv.1 := ⟨hle, (h.meets kv mem_cons_self).1⟩
      rw [spans_cons h.sorted hcur hin]
      by_cases hallows : Allows (effectiveProt kv.2.prot) prot
      · rw [if_pos ⟨hle, hallows⟩, and_iff_right hallows]
        by_cases hend : regionEnd ≤ kv.1.last + 1
        · obtain rfl := h.eq_nil hend
          have hrest : Spans (fun e : VmmapEntry => Allows (effectiveProt e.prot) prot) []
              (kv.1.last + 1) regionEnd :=
            fun q hq hlt => absurd (hq.trans_lt hlt) (Nat.not_lt_of_le hend)
          have hlast : regionEnd - 1 ∈ kv.1 :=
            ⟨hle.trans (Nat.le_sub_one_of_lt hcur), Nat.sub_le_of_le_add hend⟩
          rw [if_pos hend, some.injEq, and_iff_right hrest, and_iff_right hlast,
            or_iff_left (fun hl => hl.elim fun _ hy => not_mem_nil hy.1), eq_comm]
        · have hlast : regionEnd - 1 ∉ kv.1 := fun hin => hend (Nat.le_add_of_sub_le hin.2)
          rw [if_neg hend, ih h.tail (Nat.lt_of_not_le hend),
            or_iff_right (fun hl => hlast hl.1)]
      · rw [if_neg (fun hl => hallows hl.2)]
        exact iff_of_false (some_ne_none _).symm fun hl => hallows hl.1.1
    · rw [if_neg (fun hl => hle hl.1)]
      exact iff_of_false (some_ne_none _).symm fun hl =>
        spans_cons_of_gap h.sorted hcur (Nat.lt_of_not_le hle) hl.1

end Ahead

/-! ## The checks, page by page -/

section Checks

variable [LawfulIntervalMap M] {pageNum npages : ℕ}

theorem Exact.ahead (hex : vm.Exact) {regionEnd : ℕ} (hlt : pageNum < regionEnd) :
    Ahead regionEnd pageNum (overlapping vm.entries ⟨pageNum, regionEnd - 1⟩) where
  sorted := by
    rw [overlapping_eq _ (valid_of_lt hlt)]
    exact (sorted_iter vm.entries).filter _
  exact kv hkv := hex kv ((mem_overlapping (valid_of_lt hlt)).mp hkv).1
  meets kv hkv := by
    have hov := ((mem_overlapping (valid_of_lt hlt)).mp hkv).2
    exact ⟨hov.2, Nat.lt_of_le_sub_one (Nat.zero_lt_of_lt hlt) hov.1⟩

/-- **Both checks are page by page** in a map whose entries carry the bounds of their keys: about
`maxprot`, and about the effective protection when nothing is cached, where what is answered is the
end of the last page's entry. -/
theorem checks_eq_pagewise (hex : vm.Exact) (pageNum npages : ℕ) (hn : 0 < npages)
    (hfit : pageNum + npages ≤ u32Max) (prot : BitVec 32) :
    (∃ granted, vm.checkExistingMapping pageNum npages prot = some granted ∧
      (granted = true ↔ ∀ q, pageNum ≤ q → q < pageNum + npages →
        ∃ e ∈ vm.findPage q, Allows e.maxprot prot)) ∧
    (vm.cachedEntry = none →
      ∃ r vm', vm.checkAddrMapping pageNum npages prot = some (r, vm') ∧
        ∀ stop, r = some stop ↔
          (∀ q, pageNum ≤ q → q < pageNum + npages →
            ∃ e ∈ vm.findPage q, Allows (effectiveProt e.prot) prot) ∧
          ∃ e ∈ vm.findPage (pageNum + npages - 1),
            stop = saturatingAdd32 e.pageNum e.npages) := by
  have hlt : pageNum < pageNum + npages := Nat.lt_add_of_pos_right hn
  rw [checkExistingMapping, checkAddrMapping, checkedAdd32_eq_some.mpr ⟨hfit, rfl⟩]
  dsimp only
  rw [ie_of_lt hlt, map_some]
  constructor
  · refine ⟨_, rfl, ?_⟩
    rw [existingWalk_iff_spans (hex.ahead hlt) hlt hfit, spans_overlapping]
    rfl
  · intro hcache
    rw [hcache]
    dsimp only [cacheHit, bind_none]
    refine ⟨_, _, rfl, fun stop => ?_⟩
    rw [addrWalk_eq_some_iff (hex.ahead hlt) hlt hfit, spans_overlapping]
    exact and_congr_right' (exists_mem_overlapping ⟨Nat.le_sub_one_of_lt hlt, Nat.le_refl _⟩
      fun e : VmmapEntry => stop = saturatingAdd32 e.pageNum e.npages)

end Checks

/-- Two adjacent mappings, the second one read-only. -/
def adjacent : List Op :=
  [.addEntryWithOverwrite 0 4 3 7 2 .anonymous 0 0 1,
   .addEntryWithOverwrite 4 4 1 3 2 .anonymous 0 0 1]

/-- A range over both: the walk is page by page, and stops at the end of the second. -/
theorem checks_eq_pagewise_adjacent :
    ∃ vm : Vmmap (SortedList VmmapEntry), runSteps step new adjacent = some vm ∧ vm.Exact ∧
      ∃ r vm', vm.checkAddrMapping 2 4 1 = some (r, vm') ∧
        ∀ stop, r = some stop ↔
          (∀ q, 2 ≤ q → q < 2 + 4 → ∃ e ∈ vm.findPage q, Allows (effectiveProt e.prot) 1) ∧
          ∃ e ∈ vm.findPage (2 + 4 - 1), stop = saturatingAdd32 e.pageNum e.npages :=
  ⟨_, rfl, by decide, (checks_eq_pagewise (by decide) 2 4 (by decide) (by decide) 1).2 rfl⟩

end LindWasm.Vmmap

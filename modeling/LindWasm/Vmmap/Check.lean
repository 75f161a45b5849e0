import LindWasm.Vmmap.Spec

/-!
# Vmmap/Check — `checkAddrMapping` against the page-by-page answer

    checkAddrMapping p n prot = Some _      vs.      ∀ page of [p, p + n), the page allows prot

The check never misses a range that is allowed: an entry names at least its own interval. It can
grant one that is not: a cached entry, and a clone left by a cut, go on naming pages that were
since unmapped or protected. Along a run in which no mutation takes a right away under such an
entry, the two answers agree (`checkAddrMapping_iff_rangeAllows`).
-/

namespace LindWasm.Vmmap

open IntervalMap LawfulOnValid LawfulIntervalMap Option List Interval

variable {M : Type*} [IntervalMap M VmmapEntry] {vm vm' : Vmmap M} {prot : BitVec 32} {q : ℕ}
  {e : VmmapEntry}

/-! ## The page-by-page answer -/

/-- The page is mapped with an effective protection that contains `prot`. -/
def PageAllows (vm : Vmmap M) (prot : BitVec 32) (q : ℕ) : Prop :=
  ∃ e ∈ vm.findPage q, Allows (effectiveProt e.prot) prot

/-- Every page of the range is. -/
def RangeAllows (vm : Vmmap M) (pageNum npages : ℕ) (prot : BitVec 32) : Prop :=
  ∀ i < npages, vm.PageAllows prot (pageNum + i)

instance (vm : Vmmap M) (prot : BitVec 32) (q : ℕ) : Decidable (vm.PageAllows prot q) :=
  inferInstanceAs (Decidable (∃ e ∈ vm.findPage q, _))

instance (vm : Vmmap M) (pageNum npages : ℕ) (prot : BitVec 32) :
    Decidable (vm.RangeAllows pageNum npages prot) :=
  inferInstanceAs (Decidable (∀ i < npages, _))

theorem PageAllows.mono {prot' : BitVec 32} (h : vm.PageAllows prot q) (hp : Allows prot prot') :
    vm.PageAllows prot' q := by
  obtain ⟨e, he, hep⟩ := h
  exact ⟨e, he, hep.trans hp⟩

theorem rangeAllows_iff {pageNum npages : ℕ} :
    vm.RangeAllows pageNum npages prot
      ↔ ∀ q, pageNum ≤ q → q < pageNum + npages → vm.PageAllows prot q := by
  constructor
  · intro h q hle hlt
    obtain ⟨i, rfl⟩ := Nat.exists_eq_add_of_le hle
    exact h i (by omega)
  · exact fun h i hi => h _ (by omega) (by omega)

/-! ## What the check relies on -/

/-- The entries the check may consult: the stored ones and the cached one. -/
def recorded (vm : Vmmap M) : List VmmapEntry :=
  (iter vm.entries).map Prod.snd ++ vm.cachedEntry.toList

theorem mem_recorded :
    e ∈ vm.recorded ↔ (∃ k, (k, e) ∈ iter vm.entries) ∨ vm.cachedEntry = some e := by
  simp [recorded]

/-- The bounds entries carry: each names its interval, and stays in 32 bits… -/
structure Covering (vm : Vmmap M) : Prop where
  key : ∀ kv ∈ iter vm.entries, kv.2.pageNum ≤ kv.1.start ∧ kv.1.last < kv.2.endPage
  fits : ∀ e ∈ vm.recorded, e.endPage ≤ u32Max

/-- …and what a consulted entry says of a page is true of the page. -/
structure Honest (vm : Vmmap M) : Prop extends Covering vm where
  allows : ∀ e ∈ vm.recorded, ∀ q, e.Names q → vm.PageAllows (effectiveProt e.prot) q

section Walk

variable {stop : ℕ}

/-- The entry ends a walk to `stop` that has not got past the page: it starts behind it, or it names
it without the rights and does not reach the end. -/
def Stops (prot : BitVec 32) (stop q : ℕ) (e : VmmapEntry) : Prop :=
  q < e.pageNum ∨ (q < e.endPage ∧ e.endPage < stop ∧ ¬ Allows (effectiveProt e.prot) prot)

/-- **An entry vouches for the page**: it names it and has the rights, and none before it ends the
walk. -/
def Vouched (prot : BitVec 32) (stop q : ℕ) (l : List (Interval × VmmapEntry)) : Prop :=
  ∃ before kv after, l = before ++ kv :: after ∧ Allows (effectiveProt kv.2.prot) prot ∧
    kv.2.Names q ∧ ∀ x ∈ before, ¬ Stops prot stop q x.2

theorem saturatingAdd32_of_fits (h : e.endPage ≤ u32Max) :
    saturatingAdd32 e.pageNum e.npages = e.endPage := min_eq_left h

variable {l : List (Interval × VmmapEntry)} {kv : Interval × VmmapEntry} {cur : ℕ}
  {cache : Option VmmapEntry}

theorem not_vouched_nil : ¬ Vouched prot stop q [] := by
  rintro ⟨before, kv, after, heq, -⟩
  exact append_ne_nil_of_right_ne_nil before (cons_ne_nil kv after) heq.symm

theorem vouched_cons : Vouched prot stop q (kv :: l) ↔
    (Allows (effectiveProt kv.2.prot) prot ∧ kv.2.Names q) ∨
      (¬ Stops prot stop q kv.2 ∧ Vouched prot stop q l) := by
  constructor
  · rintro ⟨_ | ⟨x, before⟩, kv', after, heq, hprot, hq, hbefore⟩
    · cases heq
      exact .inl ⟨hprot, hq⟩
    · cases heq
      obtain ⟨hx, hbefore⟩ := forall_mem_cons.mp hbefore
      exact .inr ⟨hx, before, kv', after, rfl, hprot, hq, hbefore⟩
  · rintro (⟨hprot, hq⟩ | ⟨hkv, before, kv', after, rfl, hprot, hq, hbefore⟩)
    · exact ⟨[], kv, l, rfl, hprot, hq, by simp⟩
    · exact ⟨kv :: before, kv', after, rfl, hprot, hq, forall_mem_cons.mpr ⟨hkv, hbefore⟩⟩

/-- **A walk grants the range just when each of its pages is vouched for.** -/
theorem addrWalk_isSome_iff (hl : ∀ kv ∈ l, kv.2.endPage ≤ u32Max) (hcur : cur < stop) :
    (addrWalk stop prot l cur cache).1.isSome ↔
      ∀ q, cur ≤ q → q < stop → Vouched prot stop q l := by
  induction l generalizing cur cache with
  | nil =>
    exact iff_of_false (by simp [addrWalk]) fun h => not_vouched_nil (h cur le_rfl hcur)
  | cons kv l ih =>
    obtain ⟨hfit, hl⟩ := forall_mem_cons.mp hl
    simp only [addrWalk, saturatingAdd32_of_fits hfit, vouched_cons]
    -- an entry that is passed without a step names no page from `cur` on, or lacks the rights
    have hpass : ∀ q, ¬ Stops prot stop q kv.2 →
        ¬ (Allows (effectiveProt kv.2.prot) prot ∧ kv.2.Names q) →
        (Vouched prot stop q l ↔ (Allows (effectiveProt kv.2.prot) prot ∧ kv.2.Names q) ∨
          (¬ Stops prot stop q kv.2 ∧ Vouched prot stop q l)) := by
      intro q hstops hnames
      rw [or_iff_right hnames, and_iff_right hstops]
    split
    · next hin =>
      split
      · next hprot =>
        exact iff_of_true rfl fun q hq hlt => .inl ⟨hprot, hin.1.trans hq, hlt.trans_le hin.2⟩
      · next hprot =>
        rw [ih hl hcur]
        refine forall₃_congr fun q hq hlt => hpass q ?_ fun h => hprot h.1
        rintro (h | h) <;> omega
    · split
      · next hin =>
        split
        · next hprot =>
          refine iff_of_false (by simp) fun h => ?_
          obtain ⟨h, -⟩ | ⟨h, -⟩ := h cur le_rfl hcur
          · exact hprot h
          · exact h (.inr ⟨hin.2, by omega, hprot⟩)
        · next hprot =>
          rw [ih hl (by omega)]
          constructor
          · intro h q hq hlt
            rcases lt_or_ge q kv.2.endPage with hlt' | hge
            · exact .inl ⟨not_not.mp hprot, hin.1.trans hq, hlt'⟩
            · refine .inr ⟨?_, h q hge hlt⟩
              rintro (h | h) <;> omega
          · intro h q hq hlt
            obtain ⟨-, hq'⟩ | ⟨-, h⟩ := h q (by omega) hlt
            · exact absurd hq'.2 (not_lt.mpr hq)
            · exact h
      · split
        · next hgap =>
          refine iff_of_false (by simp) fun h => ?_
          obtain ⟨-, h⟩ | ⟨h, -⟩ := h cur le_rfl hcur
          · exact absurd h.1 (not_le.mpr hgap)
          · exact h (.inl hgap)
        · rw [ih hl hcur]
          refine forall₃_congr fun q hq hlt => hpass q ?_ fun h => ?_
          · rintro (h | h) <;> omega
          · have := h.2.2
            omega

/-- The walk caches one of the entries it walked over, or keeps the cache. -/
theorem addrWalk_cache (h : (addrWalk stop prot l cur cache).2 = some e) :
    cache = some e ∨ ∃ k, (k, e) ∈ l := by
  induction l generalizing cur cache with
  | nil => exact .inl h
  | cons kv l ih =>
    have hlift : (∃ k, (k, e) ∈ l) → ∃ k, (k, e) ∈ kv :: l :=
      fun ⟨k, hk⟩ => ⟨k, mem_cons_of_mem _ hk⟩
    have hhere : some kv.2 = some e → ∃ k, (k, e) ∈ kv :: l := fun he =>
      ⟨kv.1, some.inj he ▸ mem_cons_self⟩
    simp only [addrWalk] at h
    split at h
    · split at h
      · exact .inr (hhere h)
      · exact .inr ((ih h).elim hhere hlift)
    · split at h
      · split at h
        · exact .inl h
        · exact (ih h).imp_right hlift
      · split at h
        · exact .inl h
        · exact (ih h).imp_right hlift

end Walk

/-! ## One check, from a state that can be relied on -/

section Check

variable {pageNum npages : ℕ} {prot : BitVec 32}

theorem exists_checkAddrMapping (vm : Vmmap M) (pageNum : ℕ) (prot : BitVec 32) (hn : 0 < npages) :
    ∃ r vm', vm.checkAddrMapping pageNum npages prot = some (r, vm') := by
  unfold checkAddrMapping
  split
  · exact ⟨_, _, rfl⟩
  · next hend =>
    obtain ⟨-, rfl⟩ := checkedAdd32_eq_some.mp hend
    split
    · exact ⟨_, _, rfl⟩
    · rw [ie_of_lt (Nat.lt_add_of_pos_right hn)]
      exact ⟨_, _, rfl⟩

/-- **The pages are vouched for**: by the cached entry, which names them all, or each by an entry
that the walk gets to. -/
def Vouches (vm : Vmmap M) (prot : BitVec 32) (first stop : ℕ) : Prop :=
  (∃ e ∈ vm.cachedEntry, Allows (effectiveProt e.prot) prot ∧ e.pageNum ≤ first ∧
      stop ≤ e.endPage) ∨
    (first < stop ∧ ∀ q, first ≤ q → q < stop →
      Vouched prot stop q (overlapping vm.entries ⟨first, stop - 1⟩))

theorem Covering.cacheHit_isSome_iff (hc : vm.Covering) {first stop : ℕ} :
    (cacheHit vm.cachedEntry first stop prot).isSome ↔ ∃ e ∈ vm.cachedEntry,
      Allows (effectiveProt e.prot) prot ∧ e.pageNum ≤ first ∧ stop ≤ e.endPage := by
  cases hcached : vm.cachedEntry with
  | none => simp [cacheHit]
  | some e =>
    have hfit := hc.fits e (mem_recorded.mpr (.inr hcached))
    simp only [cacheHit, bind_some, saturatingAdd32_of_fits hfit, mem_some_iff, exists_eq_left']
    split
    · next hin => split <;> simp [*]
    · next hin => simp [hin]

variable [LawfulIntervalMap M] {r : Option ℕ}

/-- What honest entries vouch for is allowed. -/
theorem Honest.rangeAllows (hh : vm.Honest) (h : vm.Vouches prot pageNum (pageNum + npages)) :
    vm.RangeAllows pageNum npages prot := by
  rw [rangeAllows_iff]
  intro q hq hlt
  rcases h with ⟨e, he, hprot, hle, hend⟩ | ⟨hlt', h⟩
  · exact (hh.allows e (mem_recorded.mpr (.inr he)) q ⟨hle.trans hq, hlt.trans_le hend⟩).mono hprot
  · obtain ⟨before, ⟨k, e⟩, after, heq, hprot, hnames, -⟩ := h q hq hlt
    have hmem : (k, e) ∈ overlapping vm.entries ⟨pageNum, pageNum + npages - 1⟩ := by
      rw [heq]
      simp
    have hk := ((mem_overlapping (valid_of_lt hlt')).mp hmem).1
    exact (hh.allows e (mem_recorded.mpr (.inl ⟨k, hk⟩)) q hnames).mono hprot

variable (hc : vm.Covering)
include hc

/-- **The check grants the pages that are vouched for.** -/
theorem Covering.isSome_iff (hn : 0 < npages)
    (h : vm.checkAddrMapping pageNum npages prot = some (r, vm')) :
    r.isSome ↔ pageNum + npages ≤ u32Max ∧ vm.Vouches prot pageNum (pageNum + npages) := by
  have hlt : pageNum < pageNum + npages := Nat.lt_add_of_pos_right hn
  unfold checkAddrMapping at h
  split at h
  · next hend =>
    cases h
    refine iff_of_false (by simp) fun h => ?_
    rw [checkedAdd32_eq_some.mpr ⟨h.1, rfl⟩] at hend
    cases hend
  · next hend =>
    obtain ⟨hfit, rfl⟩ := checkedAdd32_eq_some.mp hend
    rw [and_iff_right hfit, Vouches, ← hc.cacheHit_isSome_iff, and_iff_right hlt]
    split at h
    · next hhit =>
      cases h
      exact iff_of_true rfl (.inl (by rw [hhit]; rfl))
    · next hhit =>
      obtain ⟨i, hi, heq⟩ := map_eq_some_iff.mp h
      obtain ⟨-, rfl⟩ := ie_eq_some.mp hi
      cases heq
      rw [hhit, or_iff_right (by simp)]
      refine addrWalk_isSome_iff (fun kv hkv => ?_) hlt
      exact hc.fits _ (mem_recorded.mpr
        (.inl ⟨kv.1, ((mem_overlapping (valid_of_lt hlt)).mp hkv).1⟩))

/-- A page past the 32-bit space is not mapped. -/
theorem Covering.lt_of_pageAllows (h : vm.PageAllows prot q) : q < u32Max := by
  obtain ⟨e, he, -⟩ := h
  obtain ⟨k, hk, hq⟩ := (getAtPoint_eq_some _).mp he
  have h1 := hc.key _ hk
  have h2 := hc.fits e (mem_recorded.mpr (.inl ⟨k, hk⟩))
  exact (hq.2.trans_lt h1.2).trans_le h2

/-- **An allowed range is vouched for**, page by page: by the entry that covers the page, which none
before it stops, for those cover allowed pages too. -/
theorem Covering.vouches (hn : 0 < npages) (hall : vm.RangeAllows pageNum npages prot) :
    vm.Vouches prot pageNum (pageNum + npages) := by
  rw [rangeAllows_iff] at hall
  have hlt : pageNum < pageNum + npages := Nat.lt_add_of_pos_right hn
  have hv := valid_of_lt hlt
  refine .inr ⟨hlt, fun q hq hqlt => ?_⟩
  obtain ⟨e, he, hprot⟩ := hall q hq hqlt
  obtain ⟨k, hk, hqk⟩ := (getAtPoint_eq_some _).mp he
  have hmem : (k, e) ∈ overlapping vm.entries ⟨pageNum, pageNum + npages - 1⟩ :=
    (mem_overlapping hv).mpr ⟨hk, hqk.1.trans (Nat.le_sub_one_of_lt hqlt), hq.trans hqk.2⟩
  obtain ⟨before, after, heq⟩ := append_of_mem hmem
  have hkey := hc.key _ hk
  refine ⟨before, (k, e), after, heq, hprot, ⟨hkey.1.trans hqk.1, hqk.2.trans_lt hkey.2⟩, ?_⟩
  intro x hx
  have hsorted : SortedEntries (before ++ (k, e) :: after) := by
    rw [← heq, overlapping_eq _ hv]
    exact (sorted_iter vm.entries).filter _
  have hbefore : x.1.last < k.start :=
    (pairwise_append.mp hsorted.sorted).2.2 x hx (k, e) mem_cons_self
  obtain ⟨hxmem, hov⟩ := (mem_overlapping hv).mp (heq ▸ mem_append_left _ hx)
  have hxv : x.1.start ≤ x.1.last := hsorted.valid x (mem_append_left _ hx)
  have hxkey := hc.key x hxmem
  rw [Interval.mem_def] at hqk
  rintro (h | ⟨-, -, hno⟩)
  · omega
  · -- its own last page is one of the range
    obtain ⟨e', he', hprot'⟩ := hall x.1.last hov.2 (by omega)
    rw [show vm.findPage x.1.last = some x.2 from getAtPoint_of_mem hxmem ⟨hxv, le_rfl⟩] at he'
    cases he'
    exact hno hprot'

/-- **An allowed range is granted**, whatever is cached. -/
theorem Covering.complete (hn : 0 < npages)
    (h : vm.checkAddrMapping pageNum npages prot = some (r, vm'))
    (hall : vm.RangeAllows pageNum npages prot) : r.isSome := by
  refine (hc.isSome_iff hn h).mpr ⟨?_, hc.vouches hn hall⟩
  have hlast := hc.lt_of_pageAllows (hall (npages - 1) (by omega))
  omega

end Check

/-! ## Steps that keep the entries honest -/

/-- The entry names a page of `[a, b)`. -/
def Meets (e : VmmapEntry) (a b : ℕ) : Prop := e.pageNum < b ∧ a < e.endPage

instance (e : VmmapEntry) (a b : ℕ) : Decidable (Meets e a b) := inferInstanceAs (Decidable (_ ∧ _))

/-- The entries still consulted after an update of the range: those it does not wholly replace, and
the cached one. -/
def survivors (vm : Vmmap M) (pageNum npages : ℕ) : List VmmapEntry :=
  ((iter vm.entries).filter fun kv =>
    ¬ (pageNum ≤ kv.1.start ∧ kv.1.last < pageNum + npages)).map Prod.snd ++ vm.cachedEntry.toList

/-- The entries still consulted after `changeProt` that it does not visit: those off the range, and
the cached one. -/
def unvisited (vm : Vmmap M) (pageNum npages : ℕ) : List VmmapEntry :=
  ((iter vm.entries).filter fun kv =>
    ¬ kv.1.Overlaps ⟨pageNum, vm.changeProtEnd pageNum npages - 1⟩).map Prod.snd
      ++ vm.cachedEntry.toList

/-- An update takes no right away under an entry that survives it. -/
def UpdateKeepsRights (vm : Vmmap M) (pageNum npages : ℕ) (prot : BitVec 32) (remove : Bool) :
    Prop :=
  Accepts pageNum npages → ∀ e ∈ vm.survivors pageNum npages, Meets e pageNum (pageNum + npages) →
    remove = false ∧ Allows (effectiveProt prot) (effectiveProt e.prot)

/-- The operation takes no right away under an entry that is still consulted afterwards. -/
def KeepsRights (vm : Vmmap M) : Op → Prop
  | .update pageNum npages prot _ _ _ remove _ _ _ =>
      vm.UpdateKeepsRights pageNum npages prot remove
  | .addEntryWithOverwrite pageNum npages prot .. => vm.UpdateKeepsRights pageNum npages prot false
  | .removeEntry pageNum npages => vm.UpdateKeepsRights pageNum npages 0 true
  | .changeProt pageNum npages newProt =>
      ∀ e ∈ vm.unvisited pageNum npages, Meets e pageNum (vm.changeProtEnd pageNum npages) →
        Allows (effectiveProt newProt) (effectiveProt e.prot)
  | .clear | .checkAddrMapping .. => True

instance (vm : Vmmap M) (pageNum npages : ℕ) (prot : BitVec 32) (remove : Bool) :
    Decidable (vm.UpdateKeepsRights pageNum npages prot remove) :=
  inferInstanceAs (Decidable (_ → ∀ e ∈ _, _))

instance (vm : Vmmap M) : (op : Op) → Decidable (vm.KeepsRights op) :=
  fun op => by induction op using Op.casesOn <;> dsimp only [KeepsRights] <;> infer_instance

section Steps

variable [LawfulIntervalMap M]

theorem honest_new : (new : Vmmap M).Honest := by
  have hnone : (new : Vmmap M).recorded = [] := by simp [recorded, new, iter_new]
  refine ⟨⟨by simp [new, iter_new], ?_⟩, ?_⟩ <;> simp only [hnone] <;> simp

/-- A stored entry that names no more than its own interval is honest. -/
theorem pageAllows_of_mem {k : Interval} (hk : (k, e) ∈ iter vm.entries) (hq : q ∈ k) :
    vm.PageAllows (effectiveProt e.prot) q :=
  ⟨e, getAtPoint_of_mem hk hq, Allows.refl _⟩

variable {pageNum npages cageId : ℕ} {prot maxprot flags : BitVec 32} {backing : MemoryBackingType}
  {remove : Bool} {fileOffset fileSize : ℤ} {r : Option ℕ} {op : Op}

section Update

variable (h : vm.update pageNum npages prot maxprot flags backing remove fileOffset fileSize cageId
  = .ok vm')
include h

/-- After an update the new entry is consulted, unless it is removed, and of the old ones those that
survive. -/
theorem recorded_update (he : e ∈ vm'.recorded) :
    (e ∈ vm.recorded ∧ e ∈ vm.survivors pageNum npages) ∨
      (remove = false ∧ e = updateEntry pageNum npages prot maxprot flags backing fileOffset
        fileSize cageId) := by
  have hcached : vm'.cachedEntry = vm.cachedEntry := by rw [(update_eq_ok.mp h).2.2]
  rcases mem_recorded.mp he with ⟨j, hj⟩ | he
  · rcases (mem_iter_update h).mp hj with ⟨hr, -, rfl⟩ | ⟨k, hk, hpiece⟩
    · exact .inr ⟨hr, rfl⟩
    · refine .inl ⟨mem_recorded.mpr (.inl ⟨k, hk⟩), mem_append_left _ ?_⟩
      have hcut := exists_isPiece_iff.mp ⟨j, hpiece⟩
      refine mem_map.mpr ⟨(k, e), mem_filter.mpr ⟨hk, ?_⟩, rfl⟩
      simp only [region] at hcut
      simp only [decide_eq_true_iff]
      omega
  · rw [hcached] at he
    exact .inl ⟨mem_recorded.mpr (.inr he), mem_append_right _ (by simp [he])⟩

theorem Covering.update (hc : vm.Covering) : vm'.Covering := by
  obtain ⟨hn, hfit, -⟩ := update_eq_ok.mp h
  constructor
  · rintro ⟨j, w⟩ hj
    rcases (mem_iter_update h).mp hj with ⟨-, rfl, rfl⟩ | ⟨k, hk, hpiece⟩
    · simp only [region, updateEntry, VmmapEntry.endPage]
      omega
    · obtain ⟨-, hs, hl, -⟩ := hpiece.spec ((sorted_iter _).valid _ hk)
      exact ⟨(hc.key _ hk).1.trans hs, hl.trans_lt (hc.key _ hk).2⟩
  · intro e he
    rcases recorded_update h he with ⟨he, -⟩ | ⟨-, rfl⟩
    · exact hc.fits e he
    · exact hfit

theorem Honest.update (hh : vm.Honest) (hok : vm.UpdateKeepsRights pageNum npages prot remove) :
    vm'.Honest := by
  have hacc : Accepts pageNum npages := ⟨(update_eq_ok.mp h).1, (update_eq_ok.mp h).2.1⟩
  refine ⟨hh.toCovering.update h, fun e he q hq => ?_⟩
  have hfind := findPage_update h q
  rcases recorded_update h he with ⟨he, hsurv⟩ | ⟨rfl, rfl⟩
  · by_cases hin : pageNum ≤ q ∧ q < pageNum + npages
    · obtain ⟨rfl, hprot⟩ := hok hacc e hsurv ⟨hq.1.trans_lt hin.2, hin.1.trans_lt hq.2⟩
      rw [if_pos hin] at hfind
      exact ⟨_, hfind, hprot⟩
    · rw [if_neg hin] at hfind
      obtain ⟨w, hw, hprot⟩ := hh.allows e he q hq
      exact ⟨w, hfind.trans hw, hprot⟩
  · rw [if_pos (show pageNum ≤ q ∧ q < pageNum + npages from hq)] at hfind
    exact ⟨_, hfind, Allows.refl _⟩

end Update

section ChangeProt

variable {newProt : BitVec 32} (h : vm.changeProt pageNum npages newProt = some vm')
include h

/-- After `changeProt` a stored entry was there before, with the new protection or off the range,
or it is a piece and names its own interval. -/
theorem stored_changeProt {j : Interval} {w : VmmapEntry} (hj : (j, w) ∈ iter vm'.entries) :
    ((j, w) ∈ iter vm.entries ∧ (w.prot = newProt ∨ w ∈ vm.unvisited pageNum npages)) ∨
      (w.pageNum = j.start ∧ w.endPage = j.last + 1 ∧
        ∃ y ∈ iter vm.entries, j.last ≤ y.1.last) := by
  obtain ⟨hlt, -⟩ := changeProt_eq_some.mp h
  rcases (mem_iter_changeProt h).mp hj with ⟨hj, hoff⟩ | ⟨y, hy, hov, hjy⟩
  · refine .inl ⟨hj, .inr (mem_append_left _ ?_)⟩
    exact mem_map.mpr ⟨_, mem_filter.mpr ⟨hj, by simpa using hoff⟩, rfl⟩
  · have hin := pieces_inside ((sorted_iter _).valid y hy) hlt hov hjy
    rcases pieces_bounds hjy with ⟨hprot, rfl⟩ | ⟨hs, he⟩
    · exact .inl ⟨hy, .inl hprot⟩
    · exact .inr ⟨hs, he, y, hy, hin.2.2⟩

/-- A page of the range that was mapped has the new protection, any other one its old entry. -/
theorem PageAllows.changeProt (hallows : vm.PageAllows prot q)
    (hnew : pageNum ≤ q → q < vm.changeProtEnd pageNum npages →
      Allows (effectiveProt newProt) prot) : vm'.PageAllows prot q := by
  obtain ⟨w, hw, hprot⟩ := hallows
  obtain ⟨start, n, hfind⟩ := findPage_changeProt h q
  rw [show vm.findPage q = some w from hw, map_some] at hfind
  refine ⟨_, hfind, ?_⟩
  by_cases hin : pageNum ≤ q ∧ q < vm.changeProtEnd pageNum npages
  · rw [reprotect, if_pos hin]
    exact hnew hin.1 hin.2
  · rw [reprotect, if_neg hin]
    exact hprot

theorem Covering.changeProt (hc : vm.Covering) : vm'.Covering := by
  have hcached : vm'.cachedEntry = vm.cachedEntry := by rw [(changeProt_eq_some.mp h).2]
  constructor
  · rintro ⟨j, w⟩ hj
    rcases stored_changeProt h hj with ⟨hj, -⟩ | ⟨hs, he, -⟩
    · exact hc.key _ hj
    · exact ⟨hs.le, by rw [he]; exact Nat.lt_succ_self _⟩
  · intro e he
    rcases mem_recorded.mp he with ⟨j, hj⟩ | he
    · rcases stored_changeProt h hj with ⟨hj, -⟩ | ⟨-, hend, y, hy, hjy⟩
      · exact hc.fits e (mem_recorded.mpr (.inl ⟨j, hj⟩))
      · have h1 := (hc.key y hy).2
        have h2 := hc.fits y.2 (mem_recorded.mpr (.inl ⟨y.1, hy⟩))
        omega
    · exact hc.fits e (mem_recorded.mpr (.inr (hcached ▸ he)))

theorem Honest.changeProt (hh : vm.Honest)
    (hok : vm.KeepsRights (.changeProt pageNum npages newProt)) : vm'.Honest := by
  have hcached : vm'.cachedEntry = vm.cachedEntry := by rw [(changeProt_eq_some.mp h).2]
  have hkept : ∀ e ∈ vm.recorded, e.prot = newProt ∨ e ∈ vm.unvisited pageNum npages →
      ∀ q, e.Names q → vm'.PageAllows (effectiveProt e.prot) q := by
    intro e he hvis q hq
    refine (hh.allows e he q hq).changeProt h fun hle hlt => ?_
    rcases hvis with hprot | hvis
    · rw [hprot]
      exact Allows.refl _
    · exact hok e hvis ⟨hq.1.trans_lt hlt, hle.trans_lt hq.2⟩
  refine ⟨hh.toCovering.changeProt h, fun e he q hq => ?_⟩
  rcases mem_recorded.mp he with ⟨j, hj⟩ | he
  · rcases stored_changeProt h hj with ⟨hj', hvis⟩ | ⟨hs, hend, -⟩
    · exact hkept e (mem_recorded.mpr (.inl ⟨j, hj'⟩)) hvis q hq
    · exact pageAllows_of_mem hj ⟨hs ▸ hq.1, Nat.le_of_lt_succ (hq.2.trans_eq hend)⟩
  · rw [hcached] at he
    exact hkept e (mem_recorded.mpr (.inr he))
      (.inr (mem_append_right _ (by simp [he]))) q hq

end ChangeProt

section

variable (h : vm.checkAddrMapping pageNum npages prot = some (r, vm'))
include h

/-- A check consults no entry afterwards that it could not consult before. -/
theorem recorded_checkAddrMapping : ∀ e ∈ vm'.recorded, e ∈ vm.recorded := by
  have hvm' := checkAddrMapping_eq_some h
  intro e he
  rcases mem_recorded.mp he with ⟨j, hj⟩ | he
  · rw [hvm'] at hj
    exact mem_recorded.mpr (.inl ⟨j, hj⟩)
  · unfold checkAddrMapping at h
    split at h
    · cases h
      exact mem_recorded.mpr (.inr he)
    · split at h
      · cases h
        exact mem_recorded.mpr (.inr he)
      · obtain ⟨i, hi, heq⟩ := map_eq_some_iff.mp h
        obtain ⟨hlt, rfl⟩ := ie_eq_some.mp hi
        cases heq
        rcases addrWalk_cache he with he | ⟨k, hk⟩
        · exact mem_recorded.mpr (.inr he)
        · exact mem_recorded.mpr
            (.inl ⟨k, ((mem_overlapping (valid_of_lt hlt)).mp hk).1⟩)

theorem Covering.checkAddrMapping (hc : vm.Covering) : vm'.Covering := by
  have hrec := recorded_checkAddrMapping h
  rw [checkAddrMapping_eq_some h] at hrec ⊢
  exact ⟨hc.key, fun e he => hc.fits e (hrec e he)⟩

theorem Honest.checkAddrMapping (hh : vm.Honest) : vm'.Honest := by
  have hrec := recorded_checkAddrMapping h
  have hc := hh.toCovering.checkAddrMapping h
  rw [checkAddrMapping_eq_some h] at hrec hc ⊢
  exact ⟨hc, fun e he => hh.allows e (hrec e he)⟩

end

/-- **Every step keeps the bounds covering**: an entry may be cut, but not moved. -/
theorem Covering.step (hc : vm.Covering) (h : vm.step op = some vm') : vm'.Covering :=
  inv_of_step h hc honest_new.toCovering hc.update hc.changeProt hc.checkAddrMapping

/-- **Every map a run builds is covering.** -/
theorem covering_run {ops : List Op} (hrun : runSteps Vmmap.step (new : Vmmap M) ops = some vm) :
    vm.Covering :=
  inv_of_runSteps (fun _ _ _ hc h => hc.step h) honest_new.toCovering hrun

/-- **One step that takes no right away under a consulted entry keeps them honest.** -/
theorem Honest.step (hh : vm.Honest) (hok : vm.KeepsRights op) (h : vm.step op = some vm') :
    vm'.Honest := by
  cases op with
  | update | addEntryWithOverwrite | removeEntry =>
    cases h
    exact orKeep_induction hh (hh.update · hok)
  | changeProt => exact hh.changeProt h hok
  | clear =>
    cases h
    exact honest_new
  | checkAddrMapping =>
    obtain ⟨⟨r, u⟩, hu, rfl⟩ := map_eq_some_iff.mp h
    exact hh.checkAddrMapping hu

/-- **The check is the page-by-page answer** in every state of a run whose steps take no right away
under an entry that is still consulted. -/
theorem checkAddrMapping_iff_rangeAllows (ops : List Op)
    (hok : StepsOk Vmmap.step KeepsRights (new : Vmmap M) ops)
    (hrun : runSteps Vmmap.step new ops = some vm) (pageNum npages : ℕ) (hn : 0 < npages)
    (prot : BitVec 32) :
    ∃ r vm', vm.checkAddrMapping pageNum npages prot = some (r, vm') ∧
      (r.isSome ↔ vm.RangeAllows pageNum npages prot) := by
  have hh : vm.Honest := inv_of_stepsOk (fun _ _ _ hh hok hs => hh.step hok hs) honest_new hok hrun
  obtain ⟨r, vm', h⟩ := exists_checkAddrMapping vm pageNum prot hn
  exact ⟨r, vm', h, fun hr => hh.rangeAllows ((hh.isSome_iff hn h).mp hr).2, hh.complete hn h⟩

end Steps

/-! ## Two runs -/

/-- Map ten pages for reading, check them, make two of them writable. -/
def checkedRun : List Op :=
  [.update 0 10 1 3 2 .anonymous false 0 0 1, .checkAddrMapping 0 10 1, .changeProt 3 2 3]

theorem checkAddrMapping_checkedRun :
    ∃ vm : Vmmap (SortedList VmmapEntry), runSteps step new checkedRun = some vm ∧
      ∃ r vm', vm.checkAddrMapping 3 2 2 = some (r, vm') ∧
        (r.isSome ↔ vm.RangeAllows 3 2 2) :=
  ⟨_, rfl, checkAddrMapping_iff_rangeAllows checkedRun (by decide) rfl 3 2 (by decide) 2⟩

/-- **No check refuses what is allowed**, in any state of any run: whatever was cut, protected and
cached, a range is granted if each of its pages allows it. -/
theorem checkAddrMapping_grants_allowed [LawfulIntervalMap M] (ops : List Op)
    (hrun : runSteps Vmmap.step (new : Vmmap M) ops = some vm) {pageNum npages : ℕ}
    (hn : 0 < npages) (hall : vm.RangeAllows pageNum npages prot) :
    ∃ stop vm', vm.checkAddrMapping pageNum npages prot = some (some stop, vm') := by
  obtain ⟨r, vm', h⟩ := exists_checkAddrMapping vm pageNum prot hn
  obtain ⟨stop, rfl⟩ := isSome_iff_exists.mp ((covering_run hrun).complete hn h hall)
  exact ⟨stop, vm', h⟩

theorem checkAddrMapping_grants_checkedRun :
    ∃ vm : Vmmap (SortedList VmmapEntry), runSteps step new checkedRun = some vm ∧
      ∃ stop vm', vm.checkAddrMapping 3 2 2 = some (some stop, vm') :=
  ⟨_, rfl, checkAddrMapping_grants_allowed checkedRun rfl (by decide) (by decide)⟩

/-- Map ten pages, check them, unmap them. -/
def uncheckedUnmap : List Op :=
  [.update 0 10 3 3 2 .anonymous false 0 0 1, .checkAddrMapping 0 10 2, .removeEntry 0 10]

/-- **The cache outlives the mapping**: write access is granted to ten pages that are unmapped. -/
theorem checkAddrMapping_grants_unmapped :
    ∃ vm : Vmmap (SortedList VmmapEntry), runSteps step new uncheckedUnmap = some vm ∧
      ∃ r vm', vm.checkAddrMapping 0 10 2 = some (r, vm') ∧
        ¬ (r.isSome ↔ vm.RangeAllows 0 10 2) :=
  ⟨_, rfl, _, _, rfl, by decide⟩

end LindWasm.Vmmap

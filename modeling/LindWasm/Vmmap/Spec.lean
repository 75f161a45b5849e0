import LindWasm.Vmmap.Basic

/-!
# Vmmap/Spec — what each mutator does to the entries

    ├------ e ------┤          overwrite ⟦p,q⟧:   ├- e -┤├ new ┤├- e -┤      clones, old bounds
          ⟦p,q⟧                change_prot ⟦p,q⟧: ├- e₁ ┤├- e₂ ┤├- e₃ ┤      copies, new bounds

One characterisation per mutator, in two views: which entries are stored (`mem_iter_update`,
`mem_iter_changeProt`) and what a page lookup sees (`findPage_update`, `findPage_changeProt`).
Every invariant of the map is derived from these.
-/

namespace LindWasm.Vmmap

open IntervalMap LawfulOnValid LawfulIntervalMap List Interval

variable {M : Type*} [IntervalMap M VmmapEntry] {vm vm' : Vmmap M}

/-! ## `update` -/

/-- The interval of `npages` pages from `pageNum`. -/
def region (pageNum npages : ℕ) : Interval := ⟨pageNum, pageNum + npages - 1⟩

variable {pageNum npages q : ℕ} {x : Interval × VmmapEntry}

theorem region_valid (h : 0 < npages) : (region pageNum npages).Valid := by
  unfold Interval.Valid region
  dsimp only
  omega

theorem mem_region (h : 0 < npages) :
    q ∈ region pageNum npages ↔ pageNum ≤ q ∧ q < pageNum + npages := by
  rw [mem_def, region]
  dsimp only
  omega

/-- The entry `update` inserts. -/
def updateEntry (pageNum npages : ℕ) (prot maxprot flags : BitVec 32)
    (backing : MemoryBackingType) (fileOffset fileSize : ℤ) (cageId : ℕ) : VmmapEntry :=
  { pageNum, npages, prot, maxprot, flags, backing, fileOffset, fileSize, removed := false, cageId }

section Update

variable {pageNum npages : ℕ} {prot maxprot flags : BitVec 32} {backing : MemoryBackingType}
  {remove : Bool} {fileOffset fileSize : ℤ} {cageId : ℕ}

/-- **What a successful update is**: a range of positive length inside 32 bits, and one overwrite —
followed by a removal if asked for. -/
theorem update_eq_ok :
    vm.update pageNum npages prot maxprot flags backing remove fileOffset fileSize cageId = .ok vm'
      ↔ 0 < npages ∧ pageNum + npages ≤ u32Max ∧
        vm' = { vm with entries :=
          let entries := insertOverwrite vm.entries (region pageNum npages)
            (updateEntry pageNum npages prot maxprot flags backing fileOffset fileSize cageId)
          if remove then removeOverlapping entries (region pageNum npages) else entries } := by
  unfold update checkedAdd32
  by_cases h0 : npages = 0
  · simp [h0]
  · by_cases h1 : pageNum + npages ≤ u32Max
    · simp only [h0, if_false, h1, if_true, Except.ok.injEq, Nat.pos_of_ne_zero h0, true_and]
      exact eq_comm
    · simp [h0, h1]

/-- `update` accepts a range. -/
def Accepts (pageNum npages : ℕ) : Prop := 0 < npages ∧ pageNum + npages ≤ u32Max
deriving Decidable

omit [IntervalMap M VmmapEntry] in
/-- What holds of the map, and of what a successful operation leaves, holds of what is kept. -/
theorem orKeep_induction {P : Vmmap M → Prop} {r : Except UpdateError (Vmmap M)} (hvm : P vm)
    (hok : ∀ {u}, r = .ok u → P u) : P (vm.orKeep r) := by
  cases r with
  | ok u => exact hok rfl
  | error _ => exact hvm

theorem update_eq_orKeep (h : Accepts pageNum npages) :
    let r := vm.update pageNum npages prot maxprot flags backing remove fileOffset fileSize cageId
    r = .ok (vm.orKeep r) := by
  intro r
  have hr : r = _ := update_eq_ok.mpr ⟨h.1, h.2, rfl⟩
  rw [hr]
  rfl

/-- An update that may be refused: it leaves the map as it was, or it is the update. -/
theorem orKeep_update_cases (vm : Vmmap M) (pageNum npages : ℕ) (prot maxprot flags : BitVec 32)
    (backing : MemoryBackingType) (remove : Bool) (fileOffset fileSize : ℤ) (cageId : ℕ) :
    let r := vm.update pageNum npages prot maxprot flags backing remove fileOffset fileSize cageId
    (¬ Accepts pageNum npages ∧ vm.orKeep r = vm) ∨
      (Accepts pageNum npages ∧ r = .ok (vm.orKeep r)) := by
  intro r
  by_cases h : Accepts pageNum npages
  · exact .inr ⟨h, update_eq_orKeep h⟩
  · refine .inl ⟨h, ?_⟩
    cases hr : r with
    | error _ => rfl
    | ok vm' =>
      obtain ⟨hn, hp, -⟩ := update_eq_ok.mp hr
      exact absurd ⟨hn, hp⟩ h

variable [LawfulOnValid M]

section

variable
  (h : vm.update pageNum npages prot maxprot flags backing remove fileOffset fileSize cageId
    = .ok vm')
include h

/-- **The entries after an update**: the new one, unless it is removed, and clones of the old ones
on their pieces off the range. -/
theorem mem_iter_update {j : Interval} {w : VmmapEntry} : (j, w) ∈ iter vm'.entries ↔
      (remove = false ∧ j = region pageNum npages ∧
        w = updateEntry pageNum npages prot maxprot flags backing fileOffset fileSize cageId) ∨
      ∃ k, (k, w) ∈ iter vm.entries ∧ k.IsPiece (region pageNum npages) j := by
  obtain ⟨hn, -, rfl⟩ := update_eq_ok.mp h
  cases remove with
  | false => simp [mem_iter_insertOverwrite vm.entries (region_valid hn)]
  | true => simp [mem_iter_remove_insert (region_valid hn)]

/-- **A page lookup after an update.** -/
theorem findPage_update (q : ℕ) : vm'.findPage q = if pageNum ≤ q ∧ q < pageNum + npages then
        if remove then none else
          some (updateEntry pageNum npages prot maxprot flags backing fileOffset fileSize cageId)
      else vm.findPage q := by
  obtain ⟨hn, -, rfl⟩ := update_eq_ok.mp h
  unfold findPage
  cases remove with
  | false => simp [getAtPoint_insertOverwrite (region_valid hn), mem_region hn]
  | true => simp [getAtPoint_remove_insert (region_valid hn), mem_region hn]

end

end Update

/-! ## `changeProt`

The collected entries are disjoint, so each round takes one of them away and puts its pieces back
into the hole it left. -/

/-- The entry `e` under `[start, stop)`, if there is a page in between. -/
def pieceOf (start stop : ℕ) (e : VmmapEntry) : List (Interval × VmmapEntry) :=
  if start < stop then [(⟨start, stop - 1⟩, e)] else []

theorem mem_pieceOf {start stop : ℕ} {e : VmmapEntry} :
    x ∈ pieceOf start stop e ↔ start < stop ∧ x = (⟨start, stop - 1⟩, e) := by
  unfold pieceOf
  split <;> simp_all [Nat.not_lt_of_le]

/-- What `changeProt` leaves of one overlapping entry. -/
def pieces (newProt : BitVec 32) (x : EntryToModify) : List (Interval × VmmapEntry) :=
  if x.originalEntry.prot = newProt then [(⟨x.entStart, x.entEnd - 1⟩, x.originalEntry)]
  else
    pieceOf x.entStart x.overlapStart (rebound x.originalEntry x.entStart x.overlapStart) ++
    (pieceOf x.overlapStart x.overlapEnd
      { rebound x.originalEntry x.overlapStart x.overlapEnd with prot := newProt } ++
    pieceOf x.overlapEnd x.entEnd (rebound x.originalEntry x.overlapEnd x.entEnd))

section Pieces

variable {newProt : BitVec 32} {a b : ℕ} {kv : Interval × VmmapEntry}

variable {x : Interval × VmmapEntry}

theorem pieces_inside (hv : kv.1.Valid) (hab : a < b) (hov : kv.1.Overlaps ⟨a, b - 1⟩)
    (hx : x ∈ pieces newProt (collect a b kv)) :
    x.1.Valid ∧ kv.1.start ≤ x.1.start ∧ x.1.last ≤ kv.1.last := by
  unfold Interval.Valid Interval.Overlaps at *
  dsimp only at hov
  simp only [pieces, collect, Nat.add_sub_cancel] at hx
  split at hx
  · obtain rfl := mem_singleton.mp hx
    exact ⟨hv, le_rfl, le_rfl⟩
  · simp only [mem_append, mem_pieceOf] at hx
    rcases hx with ⟨hlt, rfl⟩ | ⟨hlt, rfl⟩ | ⟨hlt, rfl⟩ <;> dsimp only <;> omega

section

variable (hx : x ∈ pieces newProt (collect a b kv))
include hx

/-- A piece is the entry itself, kept for its protection, or names exactly its own interval. -/
theorem pieces_bounds :
    (kv.2.prot = newProt ∧ x = kv) ∨
      (x.2.pageNum = x.1.start ∧ x.2.pageNum + x.2.npages = x.1.last + 1) := by
  unfold pieces at hx
  split at hx
  · next hprot => exact .inl ⟨hprot, mem_singleton.mp hx⟩
  · simp only [mem_append, mem_pieceOf] at hx
    refine .inr ?_
    rcases hx with ⟨hlt, rfl⟩ | ⟨hlt, rfl⟩ | ⟨hlt, rfl⟩ <;>
      exact ⟨rfl, by simp only [rebound]; omega⟩

theorem pieces_fields : x.2.flags = kv.2.flags ∧ x.2.backing = kv.2.backing := by
  unfold pieces at hx
  split at hx
  · obtain rfl := mem_singleton.mp hx
    exact ⟨rfl, rfl⟩
  · simp only [mem_append, mem_pieceOf] at hx
    rcases hx with ⟨-, rfl⟩ | ⟨-, rfl⟩ | ⟨-, rfl⟩ <;> exact ⟨rfl, rfl⟩

end

theorem sorted_pieces (hv : kv.1.Valid) (hab : a < b) (hov : kv.1.Overlaps ⟨a, b - 1⟩) :
    SortedEntries (pieces newProt (collect a b kv)) := by
  refine ⟨fun x hx => (pieces_inside hv hab hov hx).1, ?_⟩
  unfold pieces
  split
  · exact pairwise_singleton _ _
  · simp only [pairwise_append, mem_append, mem_pieceOf, collect]
    refine ⟨by unfold pieceOf; split <;> simp, ⟨by unfold pieceOf; split <;> simp,
      by unfold pieceOf; split <;> simp, ?_⟩, ?_⟩
    · rintro x ⟨hlt, rfl⟩ y ⟨hlt', rfl⟩
      dsimp only
      omega
    · rintro x ⟨hlt, rfl⟩ y (⟨hlt', rfl⟩ | ⟨hlt', rfl⟩) <;> dsimp only <;> omega

/-- The entry `e` under new bounds, with the new protection at a page of `[a, b)`. -/
def reprotect (newProt : BitVec 32) (a b q start n : ℕ) (e : VmmapEntry) : VmmapEntry :=
  { e with pageNum := start, npages := n, prot := if a ≤ q ∧ q < b then newProt else e.prot }

/-- Every page of the entry's interval is in a piece, which differs from the entry in its bounds
and, inside `[a, b)`, in its protection. -/
theorem exists_mem_pieces (hq : q ∈ kv.1) :
    ∃ x ∈ pieces newProt (collect a b kv), q ∈ x.1 ∧
      ∃ start n, x.2 = reprotect newProt a b q start n kv.2 := by
  obtain ⟨k, e⟩ := kv
  rw [mem_def] at hq
  dsimp only at hq
  simp only [pieces, collect, Nat.add_sub_cancel, mem_def]
  by_cases hprot : e.prot = newProt
  · rw [if_pos hprot]
    subst hprot
    exact ⟨_, mem_singleton_self _, hq, e.pageNum, e.npages, by simp [reprotect]⟩
  · rw [if_neg hprot]
    simp only [mem_append, mem_pieceOf]
    unfold reprotect
    rcases lt_or_ge q a with hlt | hge
    · rw [if_neg (by omega)]
      exact ⟨_, .inl ⟨by omega, rfl⟩, by dsimp only; omega, _, _, rfl⟩
    · rcases lt_or_ge q b with hlt' | hge'
      · rw [if_pos ⟨hge, hlt'⟩]
        exact ⟨_, .inr (.inl ⟨by omega, rfl⟩), by dsimp only; omega, _, _, rfl⟩
      · rw [if_neg (by omega)]
        exact ⟨_, .inr (.inr ⟨by omega, rfl⟩), by dsimp only; omega, _, _, rfl⟩

/-- A round is a removal and the insertion of the pieces. -/
theorem modifyEntry_eq_foldl (m : M) (x : EntryToModify) :
    modifyEntry newProt m x = (pieces newProt x).foldl (fun m y => insertOverwrite m y.1 y.2)
      (removeOverlapping m ⟨x.entStart, x.entEnd - 1⟩) := by
  unfold modifyEntry pieces pieceOf
  split
  · rfl
  · split <;> split <;> split <;> rfl

variable [LawfulOnValid M] {m : M}

/-- **One round of `changeProt`** replaces one entry by its pieces. -/
theorem mem_iter_modifyEntry (hkv : kv ∈ iter m) (hab : a < b) (hov : kv.1.Overlaps ⟨a, b - 1⟩) :
    x ∈ iter (modifyEntry newProt m (collect a b kv))
      ↔ (x ∈ iter m ∧ x ≠ kv) ∨ x ∈ pieces newProt (collect a b kv) := by
  have hv : kv.1.Valid := (sorted_iter m).valid kv hkv
  have hkey : (⟨(collect a b kv).entStart, (collect a b kv).entEnd - 1⟩ : Interval) = kv.1 := rfl
  rw [modifyEntry_eq_foldl, hkey, mem_iter_foldl_insert (sorted_pieces hv hab hov),
    mem_iter_removeOverlapping_self hkv]
  -- what is left in the map does not meet the hole the pieces go into
  intro y hy z hz hyz
  have hhole := ((mem_iter_removeOverlapping m hv).mp hy).2
  obtain ⟨-, hs, hl⟩ := pieces_inside hv hab hov hz
  exact hhole ⟨hyz.1.trans hl, hs.trans hyz.2⟩

/-- **All rounds**: every collected entry is replaced by its pieces, every other one is kept. -/
theorem mem_iter_foldl_modifyEntry {l : List (Interval × VmmapEntry)} (hl : l.Nodup) (hab : a < b)
    (hsub : ∀ y ∈ l, y ∈ iter m ∧ y.1.Overlaps ⟨a, b - 1⟩) :
    x ∈ iter ((l.map (collect a b)).foldl (modifyEntry newProt) m)
      ↔ (x ∈ iter m ∧ x ∉ l) ∨ ∃ y ∈ l, x ∈ pieces newProt (collect a b y) := by
  induction l generalizing m with
  | nil => simp
  | cons y l ih =>
    obtain ⟨hyl, hl⟩ := nodup_cons.mp hl
    obtain ⟨⟨hy, hov⟩, hsub⟩ := forall_mem_cons.mp hsub
    have hround : ∀ z, z ∈ iter (modifyEntry newProt m (collect a b y)) ↔ _ :=
      fun z => mem_iter_modifyEntry hy hab hov
    -- a piece of `y` is not one of the entries still to come: those do not meet `y`
    have hnew : x ∈ pieces newProt (collect a b y) → x ∉ l := by
      intro hx hxl
      obtain ⟨hxv, hs, hlast⟩ := pieces_inside ((sorted_iter m).valid y hy) hab hov hx
      have : x = y := (sorted_iter m).eq_of_overlaps (hsub x hxl).1 hy
        ⟨le_trans hxv hlast, hs.trans hxv⟩
      exact hyl (this ▸ hxl)
    rw [map_cons, foldl_cons, ih hl, hround]
    · rw [or_and_right, and_iff_left_of_imp hnew, and_assoc, ← not_or, ← mem_cons, or_assoc,
        exists_mem_cons_iff]
    · intro z hz
      refine ⟨(hround z).mpr (.inl ⟨(hsub z hz).1, fun h => hyl (h ▸ hz)⟩), (hsub z hz).2⟩

end Pieces

section ChangeProt

variable {pageNum npages : ℕ} {newProt : BitVec 32}

/-- The entries after the rounds of `changeProt`. -/
def reprotected (vm : Vmmap M) (pageNum npages : ℕ) (newProt : BitVec 32) : M :=
  ((overlapping vm.entries ⟨pageNum, vm.changeProtEnd pageNum npages - 1⟩).map
    (collect pageNum (vm.changeProtEnd pageNum npages))).foldl (modifyEntry newProt) vm.entries

variable [LawfulIntervalMap M]

/-- **What a `changeProt` that does not panic is.** -/
theorem changeProt_eq_some :
    vm.changeProt pageNum npages newProt = some vm' ↔
      pageNum < vm.changeProtEnd pageNum npages ∧
      vm' = { vm with entries := vm.reprotected pageNum npages newProt } := by
  simp only [changeProt, Option.map_eq_some_iff, ie_eq_some]
  constructor
  · rintro ⟨i, ⟨hlt, rfl⟩, rfl⟩
    exact ⟨hlt, rfl⟩
  · rintro ⟨hlt, rfl⟩
    exact ⟨_, ⟨hlt, rfl⟩, rfl⟩

/-- **The entries after `changeProt`**: those off the range are kept, each of the others is
replaced by its pieces. -/
theorem mem_iter_changeProt (h : vm.changeProt pageNum npages newProt = some vm') :
    x ∈ iter vm'.entries ↔
      (x ∈ iter vm.entries ∧
        ¬ x.1.Overlaps ⟨pageNum, vm.changeProtEnd pageNum npages - 1⟩) ∨
      ∃ y ∈ iter vm.entries, y.1.Overlaps ⟨pageNum, vm.changeProtEnd pageNum npages - 1⟩ ∧
        x ∈ pieces newProt (collect pageNum (vm.changeProtEnd pageNum npages) y) := by
  obtain ⟨hlt, rfl⟩ := changeProt_eq_some.mp h
  have hv := valid_of_lt hlt
  have hnodup : (overlapping vm.entries ⟨pageNum, vm.changeProtEnd pageNum npages - 1⟩).Nodup := by
    rw [overlapping_eq _ hv]
    exact ((sorted_iter vm.entries).filter _).nodup
  rw [reprotected, mem_iter_foldl_modifyEntry hnodup hlt fun y hy => (mem_overlapping hv).mp hy]
  simp only [mem_overlapping hv, not_and, and_assoc]
  refine or_congr_left (and_congr_right fun hx => ?_)
  exact ⟨fun h => h hx, fun h _ => h⟩

/-- **A page lookup after `changeProt`**: nothing is mapped or unmapped, and the page's entry
changes in its bounds and, inside the range, in its protection. -/
theorem findPage_changeProt (h : vm.changeProt pageNum npages newProt = some vm') (q : ℕ) :
    ∃ start n, vm'.findPage q = (vm.findPage q).map
      (reprotect newProt pageNum (vm.changeProtEnd pageNum npages) q start n) := by
  obtain ⟨hlt, -⟩ := changeProt_eq_some.mp h
  unfold findPage
  cases hq : getAtPoint vm.entries q with
  | none =>
    refine ⟨0, 0, getAtPoint_eq_none.mpr fun x hx hqx => ?_⟩
    rw [getAtPoint_eq_none] at hq
    rcases (mem_iter_changeProt h).mp hx with ⟨hx, -⟩ | ⟨y, hy, hov, hxy⟩
    · exact hq x hx hqx
    · obtain ⟨-, hs, hl⟩ := pieces_inside ((sorted_iter _).valid y hy) hlt hov hxy
      exact hq y hy ⟨hs.trans hqx.1, hqx.2.trans hl⟩
  | some e =>
    obtain ⟨k, hk, hqk⟩ := (getAtPoint_eq_some _).mp hq
    by_cases hov : k.Overlaps ⟨pageNum, vm.changeProtEnd pageNum npages - 1⟩
    · obtain ⟨⟨j, w⟩, hx, hqx, start, n, rfl⟩ :=
        exists_mem_pieces (show q ∈ (k, e).1 from hqk)
      exact ⟨start, n, getAtPoint_of_mem
        ((mem_iter_changeProt h).mpr (.inr ⟨(k, e), hk, hov, hx⟩)) hqx⟩
    · refine ⟨e.pageNum, e.npages, getAtPoint_of_mem
        ((mem_iter_changeProt h).mpr (.inl ⟨?_, hov⟩)) hqk⟩
      have hoff : ¬ (pageNum ≤ q ∧ q < vm.changeProtEnd pageNum npages) := fun hin =>
        hov ⟨hqk.1.trans (Nat.le_sub_one_of_lt hin.2), hin.1.trans hqk.2⟩
      rwa [reprotect, if_neg hoff]

end ChangeProt

/-! ## `checkAddrMapping` -/

theorem checkAddrMapping_eq_some {prot : BitVec 32} {r : Option ℕ}
    (h : vm.checkAddrMapping pageNum npages prot = some (r, vm')) :
    vm' = { vm with cachedEntry := vm'.cachedEntry } := by
  unfold checkAddrMapping at h
  split at h
  · obtain ⟨-, rfl⟩ := Prod.mk.inj (Option.some.inj h)
    rfl
  · split at h
    · obtain ⟨-, rfl⟩ := Prod.mk.inj (Option.some.inj h)
      rfl
    · obtain ⟨i, -, hi⟩ := Option.map_eq_some_iff.mp h
      cases hi
      rfl

/-! ## Steps -/

/-- **The step rule**: what holds of the map and of the empty one, and is kept by a successful
update, by `changeProt` and by a check, is kept by every step. -/
theorem inv_of_step {Inv : Vmmap M → Prop} {op : Op} (h : vm.step op = some vm') (hvm : Inv vm)
    (hnew : Inv new)
    (hupdate : ∀ {pageNum npages : ℕ} {prot maxprot flags : BitVec 32}
      {backing : MemoryBackingType} {remove : Bool} {fileOffset fileSize : ℤ} {cageId : ℕ}
      {u : Vmmap M}, vm.update pageNum npages prot maxprot flags backing remove fileOffset fileSize
        cageId = .ok u → Inv u)
    (hchange : ∀ {pageNum npages : ℕ} {newProt : BitVec 32} {u : Vmmap M},
      vm.changeProt pageNum npages newProt = some u → Inv u)
    (hcheck : ∀ {pageNum npages : ℕ} {prot : BitVec 32} {r : Option ℕ} {u : Vmmap M},
      vm.checkAddrMapping pageNum npages prot = some (r, u) → Inv u) : Inv vm' := by
  cases op with
  | update | addEntryWithOverwrite | removeEntry =>
    cases h
    exact orKeep_induction hvm hupdate
  | changeProt => exact hchange h
  | clear =>
    cases h
    exact hnew
  | checkAddrMapping =>
    obtain ⟨⟨r, u⟩, hu, rfl⟩ := Option.map_eq_some_iff.mp h
    exact hcheck hu

end LindWasm.Vmmap

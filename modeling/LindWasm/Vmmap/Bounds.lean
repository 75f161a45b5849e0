import LindWasm.Vmmap.Spec

/-!
# Vmmap/Bounds — the bounds an entry carries against the interval it is stored under

    key ⟦a,b⟧ ↦ e          exact:  e.pageNum = a,  e.pageNum + e.npages = b + 1

`changeProt` rewrites the bounds of every piece it makes; `update` and `removeEntry` leave the
cutting to the map library, which clones the old entry — old bounds included — onto what remains.
So the bounds stay exact along a run just when no update of it cuts a stored entry
(`exact_run_iff_cutsNone`).
-/

namespace LindWasm.Vmmap

open IntervalMap LawfulOnValid LawfulIntervalMap Option

variable {M : Type*} [IntervalMap M VmmapEntry] {vm vm' : Vmmap M}

/-! ## Exact bounds and the updates that keep them -/

/-- Every stored entry's own bounds are those of its key. -/
def Exact (vm : Vmmap M) : Prop :=
  ∀ kv ∈ iter vm.entries,
    kv.2.pageNum = kv.1.start ∧ kv.2.pageNum + kv.2.npages = kv.1.last + 1
deriving Decidable

/-- The range cuts no stored entry: each one it meets lies inside it. -/
def CutsNone (vm : Vmmap M) (pageNum npages : ℕ) : Prop :=
  ∀ kv ∈ iter vm.entries, kv.1.Overlaps (region pageNum npages) →
    pageNum ≤ kv.1.start ∧ kv.1.last < pageNum + npages
deriving Decidable

/-- The operation cuts no stored entry. -/
def OpCutsNone (vm : Vmmap M) : Op → Prop
  | .update pageNum npages .. | .addEntryWithOverwrite pageNum npages ..
  | .removeEntry pageNum npages => Accepts pageNum npages → vm.CutsNone pageNum npages
  | .changeProt .. | .clear | .checkAddrMapping .. => True

instance (vm : Vmmap M) (op : Op) : Decidable (vm.OpCutsNone op) := by
  cases op <;> unfold OpCutsNone <;> infer_instance

variable [LawfulIntervalMap M] {remove : Bool} {cageId pageNum npages : ℕ}
  {prot maxprot flags : BitVec 32} {backing : MemoryBackingType} {fileOffset fileSize : ℤ}

/-- **An update keeps exact bounds exactly when it cuts nothing**: a clone on a proper part of its
old key still names the whole of it. -/
theorem exact_update_iff (hex : vm.Exact)
    (h : vm.update pageNum npages prot maxprot flags backing remove fileOffset fileSize cageId
      = .ok vm') : vm'.Exact ↔ vm.CutsNone pageNum npages := by
  obtain ⟨hn, -, -⟩ := update_eq_ok.mp h
  have hsorted := sorted_iter vm.entries
  constructor
  · rintro hex' ⟨k, e⟩ hk hov
    by_contra hcut
    obtain ⟨j, hpiece⟩ : ∃ j, k.IsPiece (region pageNum npages) j := by
      rw [Interval.exists_isPiece_iff, region]
      dsimp only at hcut ⊢
      omega
    -- the piece and the key it was cut from would both be the entry's bounds
    have hj := hex' (j, e) ((mem_iter_update h).mpr (.inr ⟨k, hk, hpiece⟩))
    have hke := hex (k, e) hk
    have hjk : j = k := by
      ext
      · exact hj.1.symm.trans hke.1
      · exact Nat.succ.inj (hj.2.symm.trans hke.2)
    exact (hpiece.spec (hsorted.valid _ hk)).2.2.2 (hjk ▸ hov)
  · rintro hcut ⟨j, w⟩ hj
    rcases (mem_iter_update h).mp hj with ⟨-, rfl, rfl⟩ | ⟨k, hk, hpiece⟩
    · unfold region updateEntry
      dsimp only
      omega
    · have hkv := hsorted.valid _ hk
      by_cases hov : k.Overlaps (region pageNum npages)
      · -- an entry inside the range leaves no piece
        have := Interval.exists_isPiece_iff.mp ⟨j, hpiece⟩
        have hin := hcut _ hk hov
        unfold region at this
        dsimp only at this hin
        omega
      · rw [Interval.isPiece_of_not_overlaps hkv (region_valid hn) hov] at hpiece
        exact hpiece ▸ hex _ hk

/-- `changeProt` rewrites the bounds of every piece. -/
theorem exact_changeProt {newProt : BitVec 32} (hex : vm.Exact)
    (h : vm.changeProt pageNum npages newProt = some vm') : vm'.Exact := by
  intro x hx
  rcases (mem_iter_changeProt h).mp hx with ⟨hx, -⟩ | ⟨y, hy, -, hxy⟩
  · exact hex x hx
  · rcases pieces_bounds hxy with ⟨-, rfl⟩ | hxy
    · exact hex x hy
    · exact hxy

theorem exact_new : (new : Vmmap M).Exact := by simp [Exact, new, iter_new]

theorem exact_orKeep_update_iff (hex : vm.Exact) :
    (vm.orKeep (vm.update pageNum npages prot maxprot flags backing remove fileOffset fileSize
      cageId)).Exact ↔ (Accepts pageNum npages → vm.CutsNone pageNum npages) := by
  rcases orKeep_update_cases vm pageNum npages prot maxprot flags backing remove fileOffset
    fileSize cageId with ⟨hacc, h⟩ | ⟨hacc, h⟩
  · rw [h]
    exact ⟨fun _ ha => absurd ha hacc, fun _ => hex⟩
  · exact (exact_update_iff hex h).trans ⟨fun hc _ => hc, fun hc => hc hacc⟩

/-- **One step keeps exact bounds just when it cuts nothing.** -/
theorem exact_step_iff {op : Op} (hex : vm.Exact) (h : vm.step op = some vm') :
    vm'.Exact ↔ vm.OpCutsNone op := by
  cases op with
  | update | addEntryWithOverwrite | removeEntry =>
    cases h
    exact exact_orKeep_update_iff hex
  | changeProt => exact ⟨fun _ => trivial, fun _ => exact_changeProt hex h⟩
  | clear =>
    cases h
    exact ⟨fun _ => trivial, fun _ => exact_new⟩
  | checkAddrMapping pageNum npages prot =>
    obtain ⟨⟨r, u⟩, hu, rfl⟩ := map_eq_some_iff.mp h
    refine ⟨fun _ => trivial, fun _ => ?_⟩
    rw [checkAddrMapping_eq_some hu]
    exact hex

/-- **The bounds are exact in every state of a run just when no step of it cuts a stored entry.** -/
theorem exact_run_iff_cutsNone (ops : List Op)
    (hrun : runSteps step (new : Vmmap M) ops = some vm) :
    (∀ before after (u : Vmmap M), ops = before ++ after → runSteps step new before = some u →
      u.Exact) ↔ StepsOk step OpCutsNone (new : Vmmap M) ops :=
  stepsOk_iff_forall_inv (fun _ _ _ => exact_step_iff) exact_new hrun

/-- Map ten pages, then two others in their middle. -/
def overwriteMiddle : List Op :=
  [.addEntryWithOverwrite 0 10 3 3 2 .anonymous 0 0 1,
   .addEntryWithOverwrite 3 2 1 3 2 .anonymous 0 0 1]

/-- Map ten pages, protect two in their middle, unmap all of them. -/
def protectMiddle : List Op :=
  [.addEntryWithOverwrite 0 10 3 3 2 .anonymous 0 0 1, .changeProt 3 2 1, .removeEntry 0 10]

theorem exact_protectMiddle :
    StepsOk step OpCutsNone (new : Vmmap (SortedList VmmapEntry)) protectMiddle ∧
      ∀ before after u, protectMiddle = before ++ after →
        runSteps step (new : Vmmap (SortedList VmmapEntry)) before = some u → u.Exact := by
  have hok : StepsOk step OpCutsNone (new : Vmmap (SortedList VmmapEntry)) protectMiddle := by
    decide
  exact ⟨hok, (exact_run_iff_cutsNone protectMiddle rfl).mpr hok⟩

/-- **An overwrite in the middle leaves stale bounds**: the clone on `⟦0,2⟧` still says ten
pages. -/
theorem not_exact_overwriteMiddle :
    ¬ ∀ vm : Vmmap (SortedList VmmapEntry), runSteps step new overwriteMiddle = some vm →
      vm.Exact := by
  intro h
  exact absurd (h _ rfl) (by decide)

end LindWasm.Vmmap

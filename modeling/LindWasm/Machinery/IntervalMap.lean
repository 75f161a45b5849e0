import Mathlib.Data.List.Nodup
import Mathlib.Data.List.Pairwise
import Mathlib.Order.Nat

/-!
# Machinery/IntervalMap — maps keyed by disjoint intervals

    ⟦a₁,b₁⟧ ↦ v₁   <   ⟦a₂,b₂⟧ ↦ v₂   <   ⋯          every point lies in at most one key

`IntervalMap M V` is the interface of a container of non-overlapping closed intervals, and
`LawfulOnValid` what its operations are documented to do: overwriting cuts what it overlaps and
keeps a clone of the old value on each remaining piece (`below`, `above`), removing takes whole
entries away. What a range without a point does is left open there; `LawfulIntervalMap` says that it
panics. A program over such a container is modelled over any lawful instance; `SortedList` is the
reference one, the sorted association list.
-/

namespace LindWasm

open Option List

/-! ## Closed intervals -/

/-- The closed interval from `start` to `last`. -/
@[ext] structure Interval where
  start : ℕ
  last : ℕ
  deriving DecidableEq

variable {p : ℕ} {g : Interval}

namespace Interval

/-- An interval is valid when it contains a point. -/
def Valid (i : Interval) : Prop := i.start ≤ i.last
deriving Decidable

instance : Membership ℕ Interval := ⟨fun i p => i.start ≤ p ∧ p ≤ i.last⟩

/-- The two intervals share a point. -/
def Overlaps (i j : Interval) : Prop := i.start ≤ j.last ∧ j.start ≤ i.last
deriving Decidable

instance (i : Interval) (p : ℕ) : Decidable (p ∈ i) := inferInstanceAs (Decidable (_ ∧ _))

variable {i k j : Interval} {a b : ℕ}

theorem mem_def : p ∈ i ↔ i.start ≤ p ∧ p ≤ i.last := Iff.rfl

theorem overlaps_of_mem (hi : p ∈ i) (hj : p ∈ j) : i.Overlaps j :=
  ⟨hi.1.trans hj.2, hj.1.trans hi.2⟩

theorem valid_of_lt (h : a < b) : Valid ⟨a, b - 1⟩ := Nat.le_sub_one_of_lt h

/-- The part of `k` below `i`. -/
def below (k i : Interval) : Option Interval :=
  if k.start < i.start then some ⟨k.start, min k.last (i.start - 1)⟩ else none

/-- The part of `k` above `i`. -/
def above (k i : Interval) : Option Interval :=
  if i.last < k.last then some ⟨max k.start (i.last + 1), k.last⟩ else none

/-- The pieces that overwriting `i` leaves of `k`. -/
def IsPiece (k i j : Interval) : Prop := k.below i = some j ∨ k.above i = some j

theorem below_eq_some :
    k.below i = some j ↔ k.start < i.start ∧ j = ⟨k.start, min k.last (i.start - 1)⟩ := by
  unfold below
  split <;> simp_all [eq_comm, Nat.not_lt_of_le]

theorem above_eq_some :
    k.above i = some j ↔ i.last < k.last ∧ j = ⟨max k.start (i.last + 1), k.last⟩ := by
  unfold above
  split <;> simp_all [eq_comm, Nat.not_lt_of_le]

/-- **A piece is a valid part of the interval it comes from, off the one that was overwritten.** -/
theorem IsPiece.spec (hk : k.Valid) (h : k.IsPiece i j) :
    j.Valid ∧ k.start ≤ j.start ∧ j.last ≤ k.last ∧ ¬ j.Overlaps i := by
  unfold Valid Overlaps at *
  rcases h with h | h
  · obtain ⟨hlt, rfl⟩ := below_eq_some.mp h
    dsimp only
    omega
  · obtain ⟨hlt, rfl⟩ := above_eq_some.mp h
    dsimp only
    omega

theorem exists_isPiece (hp : p ∈ k) (hpi : p ∉ i) : ∃ j, k.IsPiece i j ∧ p ∈ j := by
  simp only [mem_def, not_and, not_le] at hp hpi
  rcases lt_or_ge p i.start with hlt | hge
  · refine ⟨_, .inl (below_eq_some.mpr ⟨by omega, rfl⟩), ?_⟩
    simp only [mem_def]
    omega
  · refine ⟨_, .inr (above_eq_some.mpr ⟨by have := hpi hge; omega, rfl⟩), ?_⟩
    have := hpi hge
    simp only [mem_def]
    omega

/-- **An interval that is not overlapped is its own and only piece.** -/
theorem isPiece_of_not_overlaps (hk : k.Valid) (hi : i.Valid) (h : ¬ k.Overlaps i) :
    k.IsPiece i j ↔ j = k := by
  unfold IsPiece Valid Overlaps at *
  rw [below_eq_some, above_eq_some]
  obtain ⟨s, l⟩ := k
  simp only [Interval.ext_iff] at *
  omega

/-- **An overlapped interval is cut exactly when it sticks out.** -/
theorem exists_isPiece_iff : (∃ j, k.IsPiece i j) ↔ k.start < i.start ∨ i.last < k.last := by
  simp only [IsPiece, below_eq_some, above_eq_some, exists_or, exists_eq_right]

end Interval

/-! ## Lists of disjoint intervals -/

section SortedEntries

variable {V : Type*}

/-- The entries are valid and stand in increasing order, hence disjoint. -/
structure SortedEntries (l : List (Interval × V)) : Prop where
  valid : ∀ kv ∈ l, kv.1.Valid
  sorted : l.Pairwise fun a b => a.1.last < b.1.start

theorem SortedEntries.nil : SortedEntries ([] : List (Interval × V)) :=
  ⟨by simp, List.Pairwise.nil⟩

variable {l : List (Interval × V)}

theorem SortedEntries.tail {kv : Interval × V} (h : SortedEntries (kv :: l)) : SortedEntries l :=
  ⟨fun x hx => h.valid x (mem_cons_of_mem _ hx), (pairwise_cons.mp h.sorted).2⟩

section

variable (h : SortedEntries l)
include h

/-- **Two entries with a common point are the same entry.** -/
theorem SortedEntries.eq_of_overlaps {a b : Interval × V} (ha : a ∈ l) (hb : b ∈ l)
    (hab : a.1.Overlaps b.1) : a = b := by
  induction l with
  | nil => exact absurd ha not_mem_nil
  | cons x l ih =>
    have hlt : ∀ y ∈ l, x.1.last < y.1.start := (pairwise_cons.mp h.sorted).1
    unfold Interval.Overlaps at hab
    rcases mem_cons.mp ha with rfl | ha' <;> rcases mem_cons.mp hb with rfl | hb'
    · rfl
    · exact absurd (hlt b hb') (by omega)
    · exact absurd (hlt a ha') (by omega)
    · exact ih h.tail ha' hb'

theorem SortedEntries.eq_of_mem {a b : Interval × V} (ha : a ∈ l) (hb : b ∈ l) (hpa : p ∈ a.1)
    (hpb : p ∈ b.1) : a = b :=
  h.eq_of_overlaps ha hb (Interval.overlaps_of_mem hpa hpb)

theorem SortedEntries.filter (f : Interval × V → Bool) : SortedEntries (l.filter f) :=
  ⟨fun x hx => h.valid x (mem_of_mem_filter hx), h.sorted.filter _⟩

theorem SortedEntries.nodup : l.Nodup := by
  refine h.sorted.imp_of_mem fun {a b} ha _ hab he => ?_
  have := h.valid a ha
  unfold Interval.Valid at this
  rw [he] at hab this
  omega

end

/-- Every point of `[a, b)` lies in an entry whose value is `Ok`. -/
def Spans (Ok : V → Prop) (l : List (Interval × V)) (a b : ℕ) : Prop :=
  ∀ q, a ≤ q → q < b → ∃ kv ∈ l, q ∈ kv.1 ∧ Ok kv.2

section Spans

variable {Ok : V → Prop} {kv : Interval × V} {l : List (Interval × V)} {a b : ℕ}

theorem spans_nil (hab : a < b) : ¬ Spans Ok ([] : List (Interval × V)) a b := by
  intro h
  obtain ⟨y, hy, -⟩ := h a le_rfl hab
  exact not_mem_nil hy

/-- A range that starts before the first entry is not covered… -/
theorem spans_cons_of_gap (hs : SortedEntries (kv :: l)) (hab : a < b) (hgap : a < kv.1.start) :
    ¬ Spans Ok (kv :: l) a b := by
  intro h
  obtain ⟨y, hy, hay, -⟩ := h a le_rfl hab
  rcases mem_cons.mp hy with rfl | hy
  · exact absurd hay.1 (Nat.not_le_of_lt hgap)
  · have h1 := (pairwise_cons.mp hs.sorted).1 y hy
    have h2 : kv.1.start ≤ kv.1.last := hs.valid kv mem_cons_self
    have h3 := hay.1
    omega

/-- …and **one that starts in the first entry is covered when that entry is `Ok` and the others
cover what lies past it.** -/
theorem spans_cons (hs : SortedEntries (kv :: l)) (hab : a < b) (ha : a ∈ kv.1) :
    Spans Ok (kv :: l) a b ↔ Ok kv.2 ∧ Spans Ok l (kv.1.last + 1) b := by
  have hnext : ∀ y ∈ l, kv.1.last < y.1.start := (pairwise_cons.mp hs.sorted).1
  constructor
  · intro h
    constructor
    · obtain ⟨y, hy, hay, hok⟩ := h a le_rfl hab
      rcases mem_cons.mp hy with rfl | hy
      · exact hok
      · exact absurd (hay.1.trans ha.2) (Nat.not_le_of_lt (hnext y hy))
    · intro q hq hqb
      obtain ⟨y, hy, hqy, hok⟩ := h q (ha.2.trans (Nat.le_of_succ_le hq)) hqb
      rcases mem_cons.mp hy with rfl | hy
      · exact absurd hqy.2 (Nat.not_le_of_lt hq)
      · exact ⟨y, hy, hqy, hok⟩
  · rintro ⟨hok, hrest⟩ q hq hqb
    rcases le_or_gt q kv.1.last with hle | hgt
    · exact ⟨kv, mem_cons_self, ⟨ha.1.trans hq, hle⟩, hok⟩
    · obtain ⟨y, hy, hqy, hok'⟩ := hrest q hgt hqb
      exact ⟨y, mem_cons_of_mem _ hy, hqy, hok'⟩

end Spans

end SortedEntries

/-! ## The interface and its laws -/

/-- The operations of a container of disjoint intervals. -/
class IntervalMap (M : Type*) (V : outParam Type*) where
  /-- What is made of a half-open range without a point; `none` if it panics. -/
  emptyRange : ℕ → ℕ → Option Interval
  new : M
  iter : M → List (Interval × V)
  overlapping : M → Interval → List (Interval × V)
  getAtPoint : M → ℕ → Option V
  gapsTrimmed : M → Interval → List Interval
  insertOverwrite : M → Interval → V → M
  removeOverlapping : M → Interval → M

open IntervalMap

/-- The half-open interval from `a` up to `b`; `none` if it panics. -/
def IntervalMap.ie (M : Type*) {V : Type*} [IntervalMap M V] (a b : ℕ) : Option Interval :=
  if a < b then some ⟨a, b - 1⟩ else emptyRange M a b

theorem ie_of_lt {M V : Type*} [IntervalMap M V] {a b : ℕ} (h : a < b) :
    ie M a b = some ⟨a, b - 1⟩ := if_pos h

/-- What the operations are documented to do, at valid intervals. -/
class LawfulOnValid (M : Type*) {V : outParam Type*} [IntervalMap M V] : Prop where
  iter_new : iter (new : M) = []
  sorted_iter (m : M) : SortedEntries (iter m)
  /-- The overlapping entries, in increasing order. -/
  overlapping_eq (m : M) {i : Interval} (hi : i.Valid) :
    overlapping m i = (iter m).filter fun kv => kv.1.Overlaps i
  getAtPoint_eq_some (m : M) {p : ℕ} {v : V} :
    getAtPoint m p = some v ↔ ∃ k, (k, v) ∈ iter m ∧ p ∈ k
  /-- Overwriting cuts what it overlaps and clones the old value onto each remaining piece. -/
  mem_iter_insertOverwrite (m : M) {i : Interval} (hi : i.Valid) {v w : V} {j : Interval} :
    (j, w) ∈ iter (insertOverwrite m i v)
      ↔ (j = i ∧ w = v) ∨ ∃ k, (k, w) ∈ iter m ∧ k.IsPiece i j
  /-- Removing takes away every overlapping entry, whole. -/
  mem_iter_removeOverlapping (m : M) {i : Interval} (hi : i.Valid) {kv : Interval × V} :
    kv ∈ iter (removeOverlapping m i) ↔ kv ∈ iter m ∧ ¬ kv.1.Overlaps i
  /-- The gaps inside `i` are valid, free of entries, and trimmed to `i`… -/
  of_mem_gapsTrimmed (m : M) {i g : Interval} (hi : i.Valid) (hg : g ∈ gapsTrimmed m i) :
    g.Valid ∧ ∀ p ∈ g, p ∈ i ∧ getAtPoint m p = none
  /-- …every free point of `i` is in one of them… -/
  exists_mem_gapsTrimmed (m : M) {i : Interval} {p : ℕ} (hp : p ∈ i)
    (hfree : getAtPoint m p = none) : ∃ g ∈ gapsTrimmed m i, p ∈ g
  /-- …and two of them are in increasing order with an entry between them. -/
  sorted_gapsTrimmed (m : M) {i : Interval} (hi : i.Valid) :
    (gapsTrimmed m i).Pairwise fun a b => a.last + 1 < b.start

/-- The container refuses an interval without a point. -/
class LawfulIntervalMap (M : Type*) {V : outParam Type*} [IntervalMap M V] : Prop
    extends LawfulOnValid M where
  emptyRange_eq (a b : ℕ) : emptyRange M a b = none

theorem ie_of_not_lt {M V : Type*} [IntervalMap M V] [LawfulIntervalMap M] {a b : ℕ}
    (h : ¬ a < b) : ie M a b = none := (if_neg h).trans (LawfulIntervalMap.emptyRange_eq a b)

theorem ie_eq_some {M V : Type*} [IntervalMap M V] [LawfulIntervalMap M] {a b : ℕ} {i : Interval} :
    ie M a b = some i ↔ a < b ∧ i = ⟨a, b - 1⟩ := by
  by_cases h : a < b
  · simp [ie_of_lt h, h, eq_comm]
  · simp [ie_of_not_lt h, h]

/-! ## The page-wise view

`getAtPoint` is what a program sees of the map at one point; each operation changes it at the
points it names and nowhere else. -/

section Laws

variable {M V : Type*} [IntervalMap M V] [LawfulOnValid M] {m : M}

open LawfulOnValid

variable {i j k : Interval} {p : ℕ} {v : V} {x : Interval × V}

theorem mem_overlapping (hi : i.Valid) {kv : Interval × V} :
    kv ∈ overlapping m i ↔ kv ∈ iter m ∧ kv.1.Overlaps i := by
  rw [overlapping_eq m hi, mem_filter, decide_eq_true_iff]

theorem getAtPoint_eq_none : getAtPoint m p = none ↔ ∀ kv ∈ iter m, p ∉ kv.1 := by
  rw [eq_none_iff_forall_ne_some]
  constructor
  · exact fun h kv hkv hp => h kv.2 ((getAtPoint_eq_some m).mpr ⟨kv.1, hkv, hp⟩)
  · rintro h v hv
    obtain ⟨k, hk, hp⟩ := (getAtPoint_eq_some m).mp hv
    exact h (k, v) hk hp

theorem getAtPoint_of_mem (hk : (k, v) ∈ iter m) (hp : p ∈ k) :
    getAtPoint m p = some v := (getAtPoint_eq_some m).mpr ⟨k, hk, hp⟩

/-- A point of the interval is seen in the overlapping entries as in the whole map. -/
theorem exists_mem_overlapping (hp : p ∈ i) (Ok : V → Prop) :
    (∃ kv ∈ overlapping m i, p ∈ kv.1 ∧ Ok kv.2) ↔ ∃ v ∈ getAtPoint m p, Ok v := by
  have hi : i.Valid := hp.1.trans hp.2
  constructor
  · rintro ⟨kv, hkv, hpk, hok⟩
    exact ⟨kv.2, getAtPoint_of_mem ((mem_overlapping hi).mp hkv).1 hpk, hok⟩
  · rintro ⟨v, hv, hok⟩
    obtain ⟨k, hk, hpk⟩ := (getAtPoint_eq_some m).mp hv
    exact ⟨(k, v), (mem_overlapping hi).mpr ⟨hk, Interval.overlaps_of_mem hpk hp⟩, hpk, hok⟩

/-- **The overlapping entries cover a range when the map does, point by point.** -/
theorem spans_overlapping {Ok : V → Prop} {a b : ℕ} :
    Spans Ok (overlapping m ⟨a, b - 1⟩) a b
      ↔ ∀ q, a ≤ q → q < b → ∃ v ∈ getAtPoint m q, Ok v := by
  refine forall_congr' fun q => forall_congr' fun hle => forall_congr' fun hlt => ?_
  exact exists_mem_overlapping ⟨hle, Nat.le_sub_one_of_lt hlt⟩ Ok

theorem gapsTrimmed_apart {g' : Interval} (hi : i.Valid) (hg : g ∈ gapsTrimmed m i)
    (hg' : g' ∈ gapsTrimmed m i) : g = g' ∨ g.last + 1 < g'.start ∨ g'.last + 1 < g.start := by
  let Apart (a b : Interval) : Prop := a = b ∨ a.last + 1 < b.start ∨ b.last + 1 < a.start
  have hlt : (gapsTrimmed m i).Pairwise Apart :=
    (sorted_gapsTrimmed m hi).imp fun h => .inr (.inl h)
  have hgt : (gapsTrimmed m i).Pairwise (flip Apart) :=
    (sorted_gapsTrimmed m hi).imp fun h => .inr (.inr h)
  have hrefl : ∀ x ∈ gapsTrimmed m i, Apart x x := fun _ _ => .inl rfl
  exact hlt.forall_of_forall_of_flip hrefl hgt hg hg'

/-- **A free interval lies in one gap**: past the end of a gap stands an entry, or the end of
`i`. -/
theorem exists_gap_of_free (hj : j.Valid) (hfree : ∀ p ∈ j, p ∈ i ∧ getAtPoint m p = none) :
    ∃ g ∈ gapsTrimmed m i, g.start ≤ j.start ∧ j.last ≤ g.last := by
  obtain ⟨hstart, hstart'⟩ := hfree j.start ⟨le_rfl, hj⟩
  obtain ⟨g, hg, hjg⟩ := exists_mem_gapsTrimmed m hstart hstart'
  refine ⟨g, hg, hjg.1, ?_⟩
  by_contra hlast
  obtain ⟨hnext, hnext'⟩ := hfree (g.last + 1) ⟨hjg.2.trans (Nat.le_succ _), by omega⟩
  obtain ⟨g', hg', hmem⟩ := exists_mem_gapsTrimmed m hnext hnext'
  rw [Interval.mem_def] at hmem hjg
  rcases gapsTrimmed_apart (hstart.1.trans hstart.2) hg hg' with rfl | h | h <;> omega

/-- …so a free interval that meets a gap is part of it. -/
theorem gap_of_overlaps (hj : j.Valid) (hfree : ∀ p ∈ j, p ∈ i ∧ getAtPoint m p = none)
    (hg : g ∈ gapsTrimmed m i) (hov : g.Overlaps j) : g.start ≤ j.start ∧ j.last ≤ g.last := by
  obtain ⟨g', hg', hstart, hlast⟩ := exists_gap_of_free hj hfree
  have hi : i.Valid := (hfree j.start ⟨le_rfl, hj⟩).1.1.trans (hfree j.start ⟨le_rfl, hj⟩).1.2
  have hvalid : g'.start ≤ g'.last := (of_mem_gapsTrimmed m hi hg').1
  unfold Interval.Overlaps at hov
  rcases gapsTrimmed_apart hi hg hg' with rfl | h | h
  · exact ⟨hstart, hlast⟩
  · omega
  · omega

@[simp] theorem getAtPoint_new : getAtPoint (new : M) p = none :=
  getAtPoint_eq_none.mpr (by simp [iter_new])

/-- Off `i`, the pieces that are left of the entries hold what the entries held. -/
theorem getAtPoint_of_pieces {m' : M} (hp : p ∉ i)
    (hpieces : ∀ j w, p ∈ j →
      ((j, w) ∈ IntervalMap.iter m' ↔ ∃ k, (k, w) ∈ IntervalMap.iter m ∧ k.IsPiece i j)) :
    getAtPoint m' p = getAtPoint m p := by
  refine ext fun w => ?_
  rw [getAtPoint_eq_some, getAtPoint_eq_some]
  constructor
  · rintro ⟨j, hj, hpj⟩
    obtain ⟨k, hk, hpiece⟩ := (hpieces j w hpj).mp hj
    obtain ⟨-, hs, hl, -⟩ := hpiece.spec ((sorted_iter m).valid _ hk)
    exact ⟨k, hk, hs.trans hpj.1, hpj.2.trans hl⟩
  · rintro ⟨k, hk, hpk⟩
    obtain ⟨j, hpiece, hpj⟩ := Interval.exists_isPiece hpk hp
    exact ⟨j, (hpieces j w hpj).mpr ⟨k, hk, hpiece⟩, hpj⟩

/-- **Overwriting sets the value at the points it names and keeps every other one.** -/
theorem getAtPoint_insertOverwrite (hi : i.Valid) (p : ℕ) :
    getAtPoint (insertOverwrite m i v) p = if p ∈ i then some v else getAtPoint m p := by
  by_cases hp : p ∈ i
  · rw [if_pos hp]
    exact getAtPoint_of_mem ((mem_iter_insertOverwrite m hi).mpr (.inl ⟨rfl, rfl⟩)) hp
  · rw [if_neg hp]
    refine getAtPoint_of_pieces hp fun j w hpj => ?_
    rw [mem_iter_insertOverwrite m hi]
    exact or_iff_right fun ⟨hji, _⟩ => hp (hji ▸ hpj)

/-- **Overwriting a free interval adds one entry and cuts none.** -/
theorem mem_iter_insertOverwrite_of_free (hi : i.Valid) (hfree : ∀ kv ∈ iter m, ¬ kv.1.Overlaps i) :
    x ∈ iter (insertOverwrite m i v) ↔ x = (i, v) ∨ x ∈ iter m := by
  obtain ⟨j, w⟩ := x
  rw [mem_iter_insertOverwrite m hi, Prod.mk.injEq]
  refine or_congr_right ⟨?_, fun hj => ?_⟩
  · rintro ⟨k, hk, hpiece⟩
    have hkv := (sorted_iter m).valid _ hk
    rw [Interval.isPiece_of_not_overlaps hkv hi (hfree _ hk)] at hpiece
    exact hpiece ▸ hk
  · have hjv := (sorted_iter m).valid _ hj
    exact ⟨j, hj, (Interval.isPiece_of_not_overlaps hjv hi (hfree _ hj)).mpr rfl⟩

/-- **Overwriting a hole with disjoint entries adds them and cuts none.** -/
theorem mem_iter_foldl_insert {l : List (Interval × V)} (hl : SortedEntries l)
    (hfree : ∀ kv ∈ iter m, ∀ y ∈ l, ¬ kv.1.Overlaps y.1) :
    x ∈ iter (l.foldl (fun m y => insertOverwrite m y.1 y.2) m) ↔ x ∈ iter m ∨ x ∈ l := by
  induction l generalizing m with
  | nil => simp
  | cons y l ih =>
    have hy : ∀ z, z ∈ iter (insertOverwrite m y.1 y.2) ↔ z = y ∨ z ∈ iter m := fun z =>
      mem_iter_insertOverwrite_of_free (hl.valid y mem_cons_self)
        fun kv hkv => hfree kv hkv y mem_cons_self
    rw [foldl_cons, ih hl.tail, hy, mem_cons, or_right_comm, or_comm]
    intro kv hkv z hz
    rcases (hy kv).mp hkv with rfl | hkv
    · have := (pairwise_cons.mp hl.sorted).1 z hz
      unfold Interval.Overlaps
      omega
    · exact hfree kv hkv z (mem_cons_of_mem _ hz)

theorem mem_iter_removeOverlapping_self {e : V} (hk : (k, e) ∈ iter m) :
    x ∈ iter (removeOverlapping m k) ↔ x ∈ iter m ∧ x ≠ (k, e) := by
  have hkv : k.Valid := (sorted_iter m).valid _ hk
  rw [mem_iter_removeOverlapping m hkv]
  refine and_congr_right fun hx => not_congr ⟨fun hov => ?_, ?_⟩
  · exact (sorted_iter m).eq_of_overlaps hx hk hov
  · rintro rfl
    exact ⟨hkv, hkv⟩

/-- **Overwriting and then removing leaves the pieces of what was there.** -/
theorem mem_iter_remove_insert (hi : i.Valid) {w : V} :
    (j, w) ∈ iter (removeOverlapping (insertOverwrite m i v) i)
      ↔ ∃ k, (k, w) ∈ iter m ∧ k.IsPiece i j := by
  rw [mem_iter_removeOverlapping _ hi, mem_iter_insertOverwrite m hi]
  constructor
  · rintro ⟨⟨rfl, -⟩ | h, hov⟩
    · exact absurd ⟨hi, hi⟩ hov
    · exact h
  · rintro ⟨k, hk, hpiece⟩
    exact ⟨.inr ⟨k, hk, hpiece⟩, (hpiece.spec ((sorted_iter m).valid _ hk)).2.2.2⟩

/-- …so it frees the points it names and keeps every other one. -/
theorem getAtPoint_remove_insert (hi : i.Valid) (p : ℕ) :
    getAtPoint (removeOverlapping (insertOverwrite m i v) i) p
      = if p ∈ i then none else getAtPoint m p := by
  by_cases hp : p ∈ i
  · rw [if_pos hp, getAtPoint_eq_none]
    rintro kv hkv hpk
    exact ((mem_iter_removeOverlapping _ hi).mp hkv).2 (Interval.overlaps_of_mem hpk hp)
  · rw [if_neg hp]
    exact getAtPoint_of_pieces hp fun j w _ => mem_iter_remove_insert hi

end Laws

/-! ## The reference container

The sorted association list: `below` the overwritten interval, the new entry, `above` it. -/

/-- An association list of disjoint intervals in increasing order. -/
def SortedList (V : Type*) := {l : List (Interval × V) // SortedEntries l}

namespace SortedList

variable {V : Type*}

/-- The parts of the entries below `i`. -/
def belowAll (l : List (Interval × V)) (i : Interval) : List (Interval × V) :=
  l.filterMap fun kv => (kv.1.below i).map (·, kv.2)

/-- The parts of the entries above `i`. -/
def aboveAll (l : List (Interval × V)) (i : Interval) : List (Interval × V) :=
  l.filterMap fun kv => (kv.1.above i).map (·, kv.2)

variable {l es : List (Interval × V)} {i j : Interval} {c : ℕ}

theorem mem_belowAll {w : V} : (j, w) ∈ belowAll l i ↔ ∃ k, (k, w) ∈ l ∧ k.below i = some j := by
  simp [belowAll]

theorem mem_aboveAll {w : V} : (j, w) ∈ aboveAll l i ↔ ∃ k, (k, w) ∈ l ∧ k.above i = some j := by
  simp [aboveAll]

/-- A partial map that sends each entry to a piece of itself keeps the order. -/
theorem sorted_filterMap (h : SortedEntries l) {f : Interval → Option Interval}
    (hf : ∀ {k j}, f k = some j → k.IsPiece i j) :
    SortedEntries (l.filterMap fun kv => (f kv.1).map (·, kv.2)) := by
  constructor
  · rintro ⟨j, w⟩ hj
    obtain ⟨k, hk, hkj⟩ : ∃ k, (k, w) ∈ l ∧ f k = some j := by simpa using hj
    exact ((hf hkj).spec (h.valid _ hk)).1
  · refine pairwise_filterMap.mpr (h.sorted.imp_of_mem fun {a b} ha hb hab => ?_)
    rintro ⟨ja, wa⟩ hja ⟨jb, wb⟩ hjb
    obtain ⟨ja', hfa, he⟩ := map_eq_some_iff.mp hja
    obtain ⟨jb', hfb, he'⟩ := map_eq_some_iff.mp hjb
    cases he
    cases he'
    obtain ⟨-, -, hlast, -⟩ := (hf hfa).spec (h.valid _ ha)
    obtain ⟨-, hstart, -, -⟩ := (hf hfb).spec (h.valid _ hb)
    exact hlast.trans_lt (hab.trans_le hstart)

theorem sorted_insert (h : SortedEntries l) (hi : i.Valid) (v : V) :
    SortedEntries (belowAll l i ++ (i, v) :: aboveAll l i) := by
  have hb : SortedEntries (belowAll l i) := sorted_filterMap h .inl
  have ha : SortedEntries (aboveAll l i) := sorted_filterMap h .inr
  have hblt : ∀ x ∈ belowAll l i, x.1.last < i.start := by
    rintro ⟨j, w⟩ hx
    obtain ⟨k, -, hkj⟩ := mem_belowAll.mp hx
    obtain ⟨hlt, rfl⟩ := Interval.below_eq_some.mp hkj
    dsimp only
    omega
  have halt : ∀ x ∈ aboveAll l i, i.last < x.1.start := by
    rintro ⟨j, w⟩ hx
    obtain ⟨k, -, hkj⟩ := mem_aboveAll.mp hx
    obtain ⟨hlt, rfl⟩ := Interval.above_eq_some.mp hkj
    dsimp only
    omega
  constructor
  · exact forall_mem_append.mpr ⟨hb.valid, forall_mem_cons.mpr ⟨hi, ha.valid⟩⟩
  · refine pairwise_append.mpr ⟨hb.sorted, pairwise_cons.mpr ⟨halt, ha.sorted⟩, ?_⟩
    intro x hx y hy
    unfold Interval.Valid at hi
    have hxi := hblt x hx
    rcases mem_cons.mp hy with rfl | hy
    · exact hxi
    · have := halt y hy
      omega

/-- The free intervals from `c` to `l`, left to right. -/
def gapsFrom : ℕ → ℕ → List (Interval × V) → List Interval
  | c, l, [] => if c ≤ l then [⟨c, l⟩] else []
  | c, l, kv :: rest =>
      if kv.1.last < c then gapsFrom c l rest
      else if l < kv.1.start then if c ≤ l then [⟨c, l⟩] else []
      else (if c < kv.1.start then [⟨c, kv.1.start - 1⟩] else [])
        ++ gapsFrom (kv.1.last + 1) l rest

theorem mem_gapIf {p : Prop} [Decidable p] {a : Interval} :
    g ∈ (if p then [a] else []) ↔ p ∧ g = a := by
  split <;> simp [*]

theorem of_mem_gapsFrom (hs : SortedEntries es) {l : ℕ} (hg : g ∈ gapsFrom c l es) :
    g.Valid ∧ c ≤ g.start ∧ g.last ≤ l ∧ ∀ kv ∈ es, ¬ kv.1.Overlaps g := by
  induction es generalizing c with
  | nil =>
    obtain ⟨hcl, rfl⟩ := mem_gapIf.mp hg
    exact ⟨hcl, le_rfl, le_rfl, by simp⟩
  | cons kv es ih =>
    have hlt : ∀ y ∈ es, kv.1.last < y.1.start := (pairwise_cons.mp hs.sorted).1
    have hkv : kv.1.start ≤ kv.1.last := hs.valid kv mem_cons_self
    unfold gapsFrom at hg
    simp only [Interval.Overlaps, forall_mem_cons]
    split at hg
    · next hbefore =>
      obtain ⟨hv, hc, hl, hno⟩ := ih hs.tail hg
      exact ⟨hv, hc, hl, by omega, hno⟩
    · split at hg
      · next hpast =>
        obtain ⟨hcl, rfl⟩ := mem_gapIf.mp hg
        refine ⟨hcl, le_rfl, le_rfl, by dsimp only; omega, fun y hy => ?_⟩
        have := hlt y hy
        dsimp only
        omega
      · rcases mem_append.mp hg with hg | hg
        · obtain ⟨hck, rfl⟩ := mem_gapIf.mp hg
          refine ⟨show c ≤ kv.1.start - 1 by omega, le_rfl, by dsimp only; omega,
            by dsimp only; omega, fun y hy => ?_⟩
          have := hlt y hy
          dsimp only
          omega
        · obtain ⟨hv, hc, hl, hno⟩ := ih hs.tail hg
          exact ⟨hv, by omega, hl, by omega, hno⟩

theorem exists_mem_gapsFrom (hs : SortedEntries es) {l : ℕ} (hc : c ≤ p) (hl : p ≤ l)
    (hfree : ∀ kv ∈ es, p ∉ kv.1) : ∃ g ∈ gapsFrom c l es, p ∈ g := by
  induction es generalizing c with
  | nil => exact ⟨⟨c, l⟩, by simp [gapsFrom, hc.trans hl], hc, hl⟩
  | cons kv es ih =>
    obtain ⟨hp, hrest⟩ := forall_mem_cons.mp hfree
    rw [Interval.mem_def] at hp
    unfold gapsFrom
    split
    · exact ih hs.tail hc hrest
    · next hnb =>
      split
      · exact ⟨⟨c, l⟩, by simp [hc.trans hl], hc, hl⟩
      · rcases lt_or_ge p kv.1.start with hlt | hge
        · refine ⟨⟨c, kv.1.start - 1⟩, mem_append_left _ ?_, hc, by dsimp only; omega⟩
          exact mem_gapIf.mpr ⟨hc.trans_lt hlt, rfl⟩
        · obtain ⟨g, hg, hpg⟩ := ih (c := kv.1.last + 1) hs.tail (by omega) hrest
          exact ⟨g, mem_append_right _ hg, hpg⟩

theorem sorted_gapsFrom (hs : SortedEntries es) (c l : ℕ) :
    (gapsFrom c l es).Pairwise fun a b => a.last + 1 < b.start := by
  induction es generalizing c with
  | nil =>
    unfold gapsFrom
    split <;> simp
  | cons kv es ih =>
    have hkv : kv.1.start ≤ kv.1.last := hs.valid kv mem_cons_self
    unfold gapsFrom
    split
    · exact ih hs.tail c
    · split
      · split <;> simp
      · refine pairwise_append.mpr ⟨by split <;> simp, ih hs.tail _, fun a ha b hb => ?_⟩
        obtain ⟨-, hc, -, -⟩ := of_mem_gapsFrom hs.tail hb
        obtain ⟨hck, rfl⟩ := mem_gapIf.mp ha
        dsimp only
        omega

instance : IntervalMap (SortedList V) V where
  emptyRange _ _ := none
  new := ⟨[], SortedEntries.nil⟩
  iter m := m.1
  overlapping m i := m.1.filter fun kv => kv.1.Overlaps i
  getAtPoint m p := (m.1.find? fun kv => p ∈ kv.1).map Prod.snd
  gapsTrimmed m i := gapsFrom i.start i.last m.1
  insertOverwrite m i v :=
    if hi : i.Valid then ⟨belowAll m.1 i ++ (i, v) :: aboveAll m.1 i, sorted_insert m.2 hi v⟩
    else m
  removeOverlapping m i := ⟨m.1.filter fun kv => ¬ kv.1.Overlaps i, m.2.filter _⟩

theorem getAtPoint_eq_some' (m : SortedList V) {v : V} :
    getAtPoint m p = some v ↔ ∃ k, (k, v) ∈ iter m ∧ p ∈ k := by
  change (m.1.find? fun kv => p ∈ kv.1).map Prod.snd = some v ↔ ∃ k, (k, v) ∈ m.1 ∧ p ∈ k
  rw [map_eq_some_iff]
  constructor
  · rintro ⟨⟨k, w⟩, hfind, rfl⟩
    exact ⟨k, mem_of_find?_eq_some hfind, by simpa using find?_some hfind⟩
  · rintro ⟨k, hk, hp⟩
    obtain ⟨x, hx⟩ : ∃ x, m.1.find? (fun kv => p ∈ kv.1) = some x := by
      rw [← isSome_iff_exists, find?_isSome]
      exact ⟨(k, v), hk, by simpa using hp⟩
    have hpx : p ∈ x.1 := by simpa using find?_some hx
    exact ⟨x, hx, congrArg Prod.snd (m.2.eq_of_mem (mem_of_find?_eq_some hx) hk hpx hp)⟩

instance : LawfulIntervalMap (SortedList V) where
  emptyRange_eq _ _ := rfl
  iter_new := rfl
  sorted_iter m := m.2
  overlapping_eq _ _ _ := rfl
  getAtPoint_eq_some := fun m => getAtPoint_eq_some' m
  mem_iter_insertOverwrite m i hi v w j := by
    have hdef : iter (insertOverwrite m i v) = belowAll m.1 i ++ (i, v) :: aboveAll m.1 i :=
      congrArg Subtype.val (dif_pos hi)
    rw [hdef, List.mem_append, List.mem_cons, mem_belowAll, mem_aboveAll, Prod.mk.injEq]
    simp only [Interval.IsPiece, and_or_left, exists_or]
    exact or_left_comm
  mem_iter_removeOverlapping m i _ kv := by
    change kv ∈ m.1.filter _ ↔ _
    rw [List.mem_filter, decide_eq_true_iff]
    rfl
  of_mem_gapsTrimmed m i g _ hg := by
    obtain ⟨hv, hc, hl, hno⟩ := of_mem_gapsFrom m.2 hg
    refine ⟨hv, fun p hp => ⟨⟨hc.trans hp.1, hp.2.trans hl⟩, ?_⟩⟩
    refine Option.eq_none_iff_forall_ne_some.mpr fun v hpv => ?_
    obtain ⟨k, hk, hpk⟩ := (getAtPoint_eq_some' m).mp hpv
    exact hno (k, v) hk (Interval.overlaps_of_mem hpk hp)
  exists_mem_gapsTrimmed m i p hp hfree := by
    refine exists_mem_gapsFrom m.2 hp.1 hp.2 fun kv hkv hpk => ?_
    exact absurd ((getAtPoint_eq_some' m).mpr ⟨kv.1, hkv, hpk⟩) (by simp [hfree])
  sorted_gapsTrimmed m i _ := sorted_gapsFrom m.2 _ _

end SortedList

end LindWasm

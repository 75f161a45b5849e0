import Mathlib.Data.Set.Basic
import Mathlib.Data.List.Perm.Basic

/-!
# Machinery/Tiling — a partial function cut into labelled pieces

    f :   · · ├- a -┤ · ├- b -┤├- a -┤ ·          l = [x, y, z],   label y = b

A list of pieces, each with an area and a label, tiles `f` when the areas are disjoint and not
empty, and `f` is defined on them alone, by the label. The list may lose or gain a piece where
`f` does.
-/

variable {α β ι : Type*} {area : ι → Set α} {label : ι → β} {l l' : List ι} {x : ι}
  {f g : α → Option β} {a : α}

/-- `f` is defined on the areas of the pieces, where it is their label. -/
structure Tiled (area : ι → Set α) (label : ι → β) (l : List ι) (f : α → Option β) : Prop where
  eq_some_iff : ∀ a b, f a = some b ↔ ∃ x ∈ l, a ∈ area x ∧ label x = b
  nonempty : ∀ x ∈ l, (area x).Nonempty
  disjoint : l.Pairwise fun x y => ∀ a ∈ area x, a ∉ area y

namespace Tiled

open List

theorem nil (h : ∀ a, f a = none) : Tiled area label [] f :=
  ⟨fun a b => by simp [h a], by simp, List.Pairwise.nil⟩

section

variable (h : Tiled area label l f)
include h

theorem eq_some (hx : x ∈ l) (ha : a ∈ area x) :
    f a = some (label x) := (h.eq_some_iff a _).mpr ⟨x, hx, ha, rfl⟩

theorem congr (hg : ∀ a, g a = f a) : Tiled area label l g :=
  funext hg ▸ h

/-- What the area of a piece that is not listed is does not matter. -/
theorem congr_area {area' : ι → Set α}
    (harea : ∀ x ∈ l, area' x = area x) : Tiled area' label l f where
  eq_some_iff a b := by
    rw [h.eq_some_iff]
    exact exists_congr fun x => and_congr_right fun hx => by rw [harea x hx]
  nonempty x hx := harea x hx ▸ h.nonempty x hx
  disjoint := h.disjoint.imp_of_mem fun hx hy hxy => by rwa [harea _ hx, harea _ hy]

theorem perm (hp : l.Perm l') : Tiled area label l' f where
  eq_some_iff a b := by simp only [h.eq_some_iff, hp.mem_iff]
  nonempty x hx := h.nonempty x (hp.mem_iff.mpr hx)
  disjoint := (hp.pairwise_iff fun hxy a hay hax => hxy a hax hay).mp h.disjoint

/-- **One piece more**, where `f` was not defined. -/
theorem snoc (hx : (area x).Nonempty)
    (hfree : ∀ a ∈ area x, f a = none) (hin : ∀ a ∈ area x, g a = some (label x))
    (hout : ∀ a ∉ area x, g a = f a) : Tiled area label (l ++ [x]) g where
  eq_some_iff a b := by
    by_cases ha : a ∈ area x
    · have hno : ∀ y ∈ l, a ∉ area y := fun y hy hay => by
        simpa [hfree a ha] using h.eq_some hy hay
      simp only [hin a ha, Option.some.injEq, mem_append, mem_singleton]
      refine ⟨fun hb => ⟨x, .inr rfl, ha, hb⟩, ?_⟩
      rintro ⟨y, hy | rfl, hay, hb⟩
      · exact absurd hay (hno y hy)
      · exact hb
    · rw [hout a ha, h.eq_some_iff]
      refine exists_congr fun y => ?_
      simp only [mem_append, mem_singleton]
      refine and_congr_left fun hay => (or_iff_left ?_).symm
      rintro rfl
      exact ha hay.1
  nonempty y hy := by
    rcases mem_append.mp hy with hy | hy
    · exact h.nonempty y hy
    · exact mem_singleton.mp hy ▸ hx
  disjoint := by
    refine pairwise_append.mpr ⟨h.disjoint, pairwise_singleton _ _, ?_⟩
    intro y hy z hz a hay haz
    obtain rfl := mem_singleton.mp hz
    simpa [hfree a haz] using h.eq_some hy hay

end

/-- **One piece less**. -/
theorem tail (h : Tiled area label (x :: l) f) (hin : ∀ a ∈ area x, g a = none)
    (hout : ∀ a ∉ area x, g a = f a) : Tiled area label l g where
  eq_some_iff a b := by
    obtain ⟨hx, -⟩ := pairwise_cons.mp h.disjoint
    by_cases ha : a ∈ area x
    · refine iff_of_false (by simp [hin a ha]) ?_
      rintro ⟨y, hy, hay, -⟩
      exact hx y hy a ha hay
    · rw [hout a ha, h.eq_some_iff]
      simp [ha]
  nonempty y hy := h.nonempty y (mem_cons_of_mem _ hy)
  disjoint := (pairwise_cons.mp h.disjoint).2

end Tiled

import LindWasm.Machinery.Align
import LindWasm.Machinery.Traced
import LindWasm.Marshal.CopyBack
import LindWasm.Marshal.Total

/-!
# Marshal/Words — the arithmetic of the marshaller in machine words

    BitVec 32, BitVec 64   --toNat-->   `marshalAlloc`, `translateShadowPtr`

`size_t` and `uintptr_t` are words of 32 bits that wrap, and a pointer that a handler left has 64.
The two functions whose safety rests on not wrapping are written here as the code computes them, and
each refines the one on numbers that the rest of the marshaller uses.
-/

namespace LindWasm.Marshal.Wasm32

open Option List Align Traced BitVec

/-! ## The arena -/

/-- `_lind_marshal_alloc`: a pointer, `0` for NULL, and the new fill. -/
def marshalAlloc (arena used size : BitVec 32) : BitVec 32 × BitVec 32 :=
  if size > -1 - 7 then (0, used)
  else
    let aligned := (size + 7) &&& ~~~7
    if aligned > .ofNat 32 arenaSize - used then (0, used) else (arena + used, used + aligned)

/-- `_lind_marshal_arena_used`, and the blocks handed out since the reset. -/
structure Arena where
  used : BitVec 32
  blocks : List Block

/-- `_lind_marshal_reset`. -/
def Arena.reset : Arena := ⟨0, []⟩

/-- One request; what is not NULL is handed out. -/
def Arena.alloc (arena : BitVec 32) (s : Arena) (size : BitVec 32) : Arena :=
  let (ptr, used) := marshalAlloc arena s.used size
  ⟨used, if ptr = 0 then s.blocks else s.blocks ++ [⟨ptr.toNat, size.toNat⟩]⟩

variable {g : Placement} {used size : BitVec 32} {s : Arena}

theorem toNat_round (h : size.toNat + 7 < 2 ^ 32) :
    ((size + 7) &&& ~~~7).toNat = space size.toNat := by
  have hadd : (size + 7).toNat = size.toNat + 7 := Nat.mod_eq_of_lt h
  rw [toNat_and, hadd]
  exact and_sub_two_pow (k := 3) (w := 32) (by decide) h

/-- **The allocator** fails if the rounding overflows or there is no room, and otherwise hands out
the place at the fill. -/
theorem marshalAlloc_cases (size : BitVec 32) (hused : used.toNat ≤ arenaSize) :
    (2 ^ 32 ≤ size.toNat + 7 ∨ arenaSize - used.toNat < space size.toNat) ∧
        Marshal.marshalAlloc g used.toNat size.toNat = none ∧
        marshalAlloc (.ofNat 32 g.arena) used size = (0, used) ∨
      ∃ ptr used', marshalAlloc (.ofNat 32 g.arena) used size = (ptr, used') ∧
        Marshal.marshalAlloc g used.toNat size.toNat = some (ptr.toNat, used'.toNat) ∧ ptr ≠ 0 ∧
        ptr.toNat = g.arena + used.toNat ∧ used'.toNat = used.toNat + space size.toNat ∧
        used'.toNat ≤ arenaSize := by
  have hroom : (.ofNat 32 arenaSize - used).toNat = arenaSize - used.toNat :=
    toNat_sub_of_le (le_def.mpr hused)
  have hbig : size > -1 - 7 ↔ size.toNat > 2 ^ 32 - 1 - 7 := lt_def
  rw [Marshal.marshalAlloc, marshalAlloc]
  by_cases hsize : 2 ^ 32 ≤ size.toNat + 7
  · exact .inl ⟨.inl hsize, if_pos (by omega), if_pos (hbig.mpr (by omega))⟩
  have hround := toNat_round (Nat.lt_of_not_le hsize)
  have hmore : (size + 7) &&& ~~~7 > .ofNat 32 arenaSize - used ↔
      arenaSize - used.toNat < space size.toNat := by
    rw [gt_iff_lt, lt_def, hround, hroom]
  rw [if_neg (by omega), if_neg (hbig.not.mpr (by omega))]
  by_cases hfull : arenaSize - used.toNat < space size.toNat
  · exact .inl ⟨.inr hfull, if_pos hfull, if_pos (hmore.mpr hfull)⟩
  have hpos := g.arena_pos
  have hfits := g.arena_fits
  have hle : used.toNat + space size.toNat ≤ arenaSize := by omega
  have hptr : (.ofNat 32 g.arena + used).toNat = g.arena + used.toNat := by
    rw [toNat_add, toNat_ofNat, Nat.mod_add_mod]
    exact Nat.mod_eq_of_lt (by omega)
  have hused' : (used + ((size + 7) &&& ~~~7)).toNat = used.toNat + space size.toNat := by
    rw [toNat_add, hround]
    exact Nat.mod_eq_of_lt (by omega)
  refine .inr ⟨_, _, if_neg (hmore.not.mpr hfull), ?_, fun hzero => ?_, hptr, hused', hused' ▸ hle⟩
  · rw [hptr, hused']
    exact if_neg hfull
  · rw [hzero] at hptr
    change 0 = _ at hptr
    omega

/-- The fill is a multiple of 8 in the arena, and the blocks lie below it, one after the other. -/
structure Arena.Sound (g : Placement) (s : Arena) : Prop where
  used_le : s.used.toNat ≤ arenaSize
  used_aligned : 8 ∣ s.used.toNat
  inside : ∀ b ∈ s.blocks, g.arena ≤ b.addr ∧ 8 ∣ b.addr - g.arena ∧
    b.addr + b.len ≤ g.arena + s.used.toNat
  apart : s.blocks.Pairwise fun b b' => b.addr + b.len ≤ b'.addr

theorem Arena.Sound.alloc (h : s.Sound g) (size : BitVec 32) :
    (s.alloc (.ofNat 32 g.arena) size).Sound g := by
  rcases marshalAlloc_cases (g := g) size h.used_le with
    ⟨-, -, heq⟩ | ⟨ptr, used', heq, -, hne, hptr, hused, hle⟩
  · rw [Arena.alloc, heq]
    exact h
  · have hfill := le_space size.toNat
    rw [Arena.alloc, heq]
    simp only [if_neg hne]
    refine ⟨hle, ?_, forall_mem_append.mpr ⟨fun b hb => ?_, forall_mem_singleton.mpr ⟨?_, ?_, ?_⟩⟩,
      pairwise_append.mpr ⟨h.apart, pairwise_singleton _ _, fun b hb => ?_⟩⟩
    · rw [hused]
      exact Nat.dvd_add h.used_aligned (Nat.dvd_of_mod_eq_zero (space_mod _))
    · obtain ⟨hge, halign, hend⟩ := h.inside b hb
      exact ⟨hge, halign, by dsimp only; omega⟩
    · exact hptr ▸ Nat.le_add_right _ _
    · rw [hptr, Nat.add_sub_cancel_left]
      exact h.used_aligned
    · dsimp only
      omega
    · exact forall_mem_singleton.mpr (hptr ▸ (h.inside b hb).2.2)

/-- **Between two resets** the fill stays in the arena; the blocks handed out are aligned, inside
it and apart; and a request is refused only if its rounding overflows or exceeds the room left. -/
theorem marshalAlloc_since_reset (g : Placement) (sizes : List (BitVec 32)) :
    let s := sizes.foldl (Arena.alloc (.ofNat 32 g.arena)) .reset
    s.used.toNat ≤ arenaSize ∧
      (∀ b ∈ s.blocks, g.arena ≤ b.addr ∧ 8 ∣ b.addr - g.arena ∧
        b.addr + b.len ≤ g.arena + arenaSize) ∧
      s.blocks.Pairwise (fun b b' => b.addr + b.len ≤ b'.addr) ∧
      ∀ size, (marshalAlloc (.ofNat 32 g.arena) s.used size).1 = 0 →
        2 ^ 32 ≤ size.toNat + 7 ∨ arenaSize - s.used.toNat < space size.toNat := by
  intro s
  have h : s.Sound g := sizes.foldlRecOn _ ⟨Nat.zero_le _, Nat.dvd_zero 8, forall_mem_nil _, .nil⟩
    fun _ hs size _ => hs.alloc size
  refine ⟨h.used_le, fun b hb => ?_, h.apart, fun size hnull => ?_⟩
  · obtain ⟨hge, halign, hend⟩ := h.inside b hb
    exact ⟨hge, halign, hend.trans (Nat.add_le_add_left h.used_le _)⟩
  · rcases marshalAlloc_cases (g := g) size h.used_le with ⟨hwhy, -⟩ | ⟨ptr, used', heq, -, hne, -⟩
    · exact hwhy
    · rw [heq] at hnull
      exact absurd hnull hne

/-! ## Translation -/

/-- One computation on words. -/
inductive Arith where
  | add {w : ℕ} (x y : BitVec w)
  | sub {w : ℕ} (x y : BitVec w)
  | narrow (x : BitVec 64)

/-- It neither wraps nor loses a bit. -/
def Arith.Exact : Arith → Prop
  | @add w x y => x.toNat + y.toNat < 2 ^ w
  | sub x y => y.toNat ≤ x.toNat
  | narrow x => x.toNat < 2 ^ 32

section

variable {w w' : ℕ}

def add (x y : BitVec w) : Traced Arith (BitVec w) := .emit (.add x y) (x + y)

def sub (x y : BitVec w) : Traced Arith (BitVec w) := .emit (.sub x y) (x - y)

/-- The cast to `uintptr_t`. -/
def narrow (x : BitVec 64) : Traced Arith (BitVec 32) := .emit (.narrow x) (x.setWidth 32)

/-- `_lind_validate_shadow_offset`, which stops where the code returns 0. -/
def validateShadowOffset (base len candidate allowOnePast : BitVec 32) : Traced Arith (BitVec 64) :=
  (sub (-1) base).bind fun room =>
  if len > room then .stop
  else (add base len).bind fun fin =>
    let offset := (sub candidate base).map (.setWidth 64)
    if candidate < base then .stop
    else if candidate = fin then if allowOnePast ≠ 0 then offset else .stop
    else if candidate > fin then .stop
    else offset

/-- `_lind_translate_shadow_ptr_or_abort`, with `UINT32_MAX` as a word of 64 bits. -/
def translateShadowPtrOrAbort (base len allowOnePast : BitVec 32)
    (sourcePtr candidate : BitVec 64) : Traced Arith (BitVec 64) :=
  if candidate = 0 then .pure 0
  else if candidate > 0xFFFFFFFF ∨ sourcePtr > 0xFFFFFFFF then .stop
  else (narrow candidate).bind fun address =>
    (validateShadowOffset base len address allowOnePast).bind fun offset =>
    (sub 0xFFFFFFFF sourcePtr).bind fun room =>
    if offset > room then .stop else add sourcePtr offset

/-- Every computation is exact, and the result is that on numbers. -/
def Refines (x : Traced Arith (BitVec w)) (y : Option ℕ) : Prop :=
  x.All Arith.Exact ∧ x.value.map BitVec.toNat = y

variable {x y : BitVec w} {f : BitVec w → Traced Arith (BitVec w')} {v : Option ℕ}
  {a : Traced Arith (BitVec w)}

theorem refines_stop : Refines (.stop : Traced Arith (BitVec w)) none := ⟨all_stop, rfl⟩

theorem Refines.bind {b : Option ℕ} {k : ℕ → Option ℕ} (h : Refines a b)
    (hf : ∀ x, b = some x.toNat → Refines (f x) (k x.toNat)) : Refines (a.bind f) (b.bind k) := by
  obtain ⟨hall, rfl⟩ := h
  refine ⟨(all_bind _ _).mpr ⟨hall, fun x hx => (hf x (by rw [hx]; rfl)).1⟩, ?_⟩
  rw [value_bind]
  cases hx : a.value with
  | none => rfl
  | some x => exact (hf x (by rw [hx]; rfl)).2

theorem Refines.step {n : ℕ} (h : Refines a (some n)) (hf : ∀ x, x.toNat = n → Refines (f x) v) :
    Refines (a.bind f) v :=
  h.bind (k := fun _ => v) fun x hx => hf x (some.inj hx).symm

theorem refines_ite {c d : Prop} [Decidable c] [Decidable d] {b : Traced Arith (BitVec w)}
    {m n : Option ℕ} (hcd : c ↔ d) (hpos : d → Refines a m) (hneg : ¬ d → Refines b n) :
    Refines (if c then a else b) (if d then m else n) := by
  rw [if_congr hcd rfl rfl]
  split
  · next hd => exact hpos hd
  · next hd => exact hneg hd

theorem refines_add (h : x.toNat + y.toNat < 2 ^ w) :
    Refines (add x y) (some (x.toNat + y.toNat)) :=
  ⟨(all_emit _).mpr h, congrArg some (toNat_add_of_lt h)⟩

theorem refines_sub (h : y.toNat ≤ x.toNat) : Refines (sub x y) (some (x.toNat - y.toNat)) :=
  ⟨(all_emit _).mpr h, congrArg some (toNat_sub_of_le h)⟩

theorem refines_narrow {x : BitVec 64} (h : x.toNat < 2 ^ 32) : Refines (narrow x) (some x.toNat) :=
  ⟨(all_emit _).mpr h, congrArg some (Nat.mod_eq_of_lt h)⟩

end

variable (base len allowOnePast : BitVec 32) (sourcePtr candidate : BitVec 64)

theorem refines_validateShadowOffset (candidate : BitVec 32) :
    Refines (validateShadowOffset base len candidate allowOnePast)
      (Marshal.validateShadowOffset base.toNat len.toNat candidate.toNat (allowOnePast ≠ 0)) := by
  have hoff : base.toNat ≤ candidate.toNat → Refines ((sub candidate base).map (.setWidth 64))
      (some (candidate.toNat - base.toNat)) := fun hle =>
    ⟨(refines_sub hle).1, congrArg some ((toNat_setWidth_of_le (by decide)).trans
      (toNat_sub_of_le hle))⟩
  refine (refines_sub (x := -1) (y := base) (by change _ ≤ 2 ^ 32 - 1; omega)).step
    fun room hroom => ?_
  refine refines_ite (by rw [gt_iff_lt, lt_def, hroom]; rfl) (fun _ => refines_stop)
    fun hlen => ?_
  refine (refines_add (by omega)).step fun fin hfin => ?_
  refine refines_ite lt_def (fun _ => refines_stop) fun hge => ?_
  refine refines_ite (by rw [← hfin, toNat_inj]) (fun heq => ?_) fun _ => ?_
  · refine refines_ite (by simp) (fun _ => ?_) fun _ => refines_stop
    have hlen : len.toNat = candidate.toNat - base.toNat := by omega
    rw [hlen]
    exact hoff (by omega)
  · exact refines_ite (by rw [gt_iff_lt, lt_def, hfin]) (fun _ => refines_stop) fun _ =>
      hoff (by omega)

theorem refines_translateShadowPtrOrAbort :
    Refines (translateShadowPtrOrAbort base len allowOnePast sourcePtr candidate)
      (translateShadowPtr base.toNat len.toNat (allowOnePast ≠ 0) sourcePtr.toNat
        candidate.toNat) := by
  refine refines_ite (by rw [← toNat_inj]; rfl) (fun _ => ⟨all_pure _, rfl⟩)
    fun _ => ?_
  refine refines_ite Iff.rfl (fun _ => refines_stop) fun hfit => ?_
  refine (refines_narrow (by omega)).step fun address haddr => ?_
  rw [← haddr]
  refine (refines_validateShadowOffset base len allowOnePast address).bind fun offset _ => ?_
  refine (refines_sub (by change _ ≤ 2 ^ 32 - 1; omega)).step fun room hroom => ?_
  refine refines_ite (by rw [gt_iff_lt, lt_def, hroom]; rfl) (fun _ => refines_stop)
    fun hover => ?_
  exact refines_add (by omega)

/-- **Translation in words** is exact.  It returns 0 for the null pointer and for the start of a
shadow whose source is at 0, and whatever else it returns lies as far in the source as the candidate
in its shadow; a candidate that does not fit 32 bits traps. -/
theorem translateShadowPtrOrAbort_exact :
    let r : Traced Arith (BitVec 64) :=
      translateShadowPtrOrAbort base len allowOnePast sourcePtr candidate
    r.All Arith.Exact ∧
      (r.value = some 0 ↔ candidate = 0 ∨ sourcePtr = 0 ∧ candidate.toNat = base.toNat ∧
        base.toNat + len.toNat < 2 ^ 32 ∧ (0 < len.toNat ∨ allowOnePast ≠ 0)) ∧
      (∀ v, r.value = some v → candidate ≠ 0 → base.toNat ≤ candidate.toNat ∧
        (candidate.toNat < base.toNat + len.toNat ∨
          candidate.toNat = base.toNat + len.toNat ∧ allowOnePast ≠ 0) ∧
        v.toNat = sourcePtr.toNat + (candidate.toNat - base.toNat)) ∧
      (2 ^ 32 ≤ candidate.toNat → r.value = none) := by
  intro r
  obtain ⟨hexact, hvalue⟩ :=
    refines_translateShadowPtrOrAbort base len allowOnePast sourcePtr candidate
  have hiff : ∀ v, r.value = some v ↔ _ := fun v =>
    ((map_injective fun _ _ => eq_of_toNat_eq).eq_iff.symm.trans
      (by rw [hvalue]; exact Iff.rfl)).trans translateShadowPtr_eq_some
  have hnull : candidate = 0 ↔ candidate.toNat = 0 := toNat_inj.symm
  have hsrc : sourcePtr = 0 ↔ sourcePtr.toNat = 0 := toNat_inj.symm
  simp only [Accepts, decide_eq_true_eq] at hiff
  refine ⟨hexact, ?_, fun v hv hne => ?_, fun hbig => eq_none_iff_forall_ne_some.mpr fun v hv => ?_⟩
  · rw [hiff, hnull, hsrc, show (0 : BitVec 64).toNat = 0 from rfl]
    constructor <;> grind
  · rcases (hiff v).mp hv with ⟨hzero, -⟩ | ⟨-, -, -, ⟨hge, hend⟩, hv, -⟩
    · exact absurd (hnull.mpr hzero) hne
    · exact ⟨hge, hend, hv⟩
  · rcases (hiff v).mp hv with ⟨hzero, -⟩ | ⟨-, hlt, -⟩ <;> omega

end LindWasm.Marshal.Wasm32

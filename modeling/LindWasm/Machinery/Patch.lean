import LindWasm.Machinery.Bytes

/-!
# Machinery/Patch — stores over a memory that is not known

    m -- patch p -->   p's byte where p has one,   m's everywhere else

A patch is what a run of stores leaves behind, apart from the memory it was made in: copies and
words stored over a patched memory patch it further, and a word the patch covers reads the same
whatever lies below. `Uniform` is what this is for: a computation that starts from something
unknown and whose outcome is the same for every choice of it, composed step by step
(`Uniform.bind`).
-/

/-! ## Patches -/

/-- The bytes that were stored. -/
abbrev Patch := ℕ → Option Byte

/-- The memory under the stored bytes shows where there is none. -/
def Mem.patch (p : Patch) (m : Mem) : Mem := fun a => (p a).getD (m a)

namespace Patch

/-- The stores of `q`, made after those of `p`. -/
def atop (q p : Patch) : Patch := fun a => (q a).or (p a)

/-- `n` bytes of `src` from `s`, stored from `d` on. -/
def window (d : ℕ) (src : Mem) (s n : ℕ) : Patch :=
  fun a => if d ≤ a ∧ a < d + n then some (src (s + (a - d))) else none

/-- The bytes of a word, stored at `a`. -/
def word (a v : ℕ) : Patch := window a (Mem.wordBytes v) 0 4

/-- Every one of the `n` bytes from `a` on was stored. -/
def Covers (p : Patch) (a n : ℕ) : Prop := ∀ i < n, (p (a + i)).isSome

variable {p q : Patch} {m m' src : Mem} {a n d s v : ℕ}

theorem patch_atop : m.patch (atop q p) = (m.patch p).patch q := by
  funext a
  rw [Mem.patch, Mem.patch, Mem.patch, atop]
  cases q a <;> rfl

theorem blit_eq_patch : m.blit d src s n = m.patch (window d src s n) := by
  funext a
  rw [Mem.blit, Mem.patch, window]
  split <;> rfl

theorem putWord_eq_patch : m.putWord a v = m.patch (word a v) := blit_eq_patch

theorem isSome_atop : (atop q p a).isSome ↔ (q a).isSome ∨ (p a).isSome := by
  rw [atop]
  cases q a <;> simp

theorem isSome_window : (window d src s n a).isSome ↔ d ≤ a ∧ a < d + n := by
  rw [window]
  split <;> simp_all

theorem isSome_word : (word d v a).isSome ↔ d ≤ a ∧ a < d + 4 := isSome_window

theorem patch_eq_of_isSome (h : (p a).isSome) : m.patch p a = m'.patch p a := by
  obtain ⟨b, hb⟩ := Option.isSome_iff_exists.mp h
  rw [Mem.patch, Mem.patch, hb]
  rfl

theorem patch_eq_of_none (h : p a = none) : m.patch p a = m a := by
  rw [Mem.patch, h]
  rfl

theorem patch_congr (h : m a = m' a) : m.patch p a = m'.patch p a := by
  rw [Mem.patch, Mem.patch, h]

theorem Covers.mono (h : p.Covers a n) (hpq : ∀ b, (p b).isSome → (q b).isSome) : q.Covers a n :=
  fun i hi => hpq _ (h i hi)

theorem Covers.sub {b k : ℕ} (h : p.Covers a n) (hlo : a ≤ b) (hhi : b + k ≤ a + n) :
    p.Covers b k := fun i hi => by
  have := h (b - a + i) (by omega)
  rwa [show a + (b - a + i) = b + i by omega] at this

/-- **A covered word** does not depend on what lies below. -/
theorem Covers.getWord (h : p.Covers a 4) : (m.patch p).getWord a = (m'.patch p).getWord a :=
  Mem.getWord_congr fun i hi => patch_eq_of_isSome (h i hi)

end Patch

/-! ## Computations from something unknown -/

/-- Whichever `x` of `M` it starts from, the computation fails; or, whichever it is, it gives the
one outcome `y`, as it looks over `x`, and `Q y` holds. -/
def Uniform {ι β γ : Type*} (M : ι → Prop) (lift : β → ι → γ) (Q : β → Prop) (F : ι → Option γ) :
    Prop :=
  ∃ r : Option β, (∀ x, M x → F x = r.map (lift · x)) ∧ ∀ y, r = some y → Q y

section Uniform

variable {ι β β' γ γ' α : Type*} {M : ι → Prop} {lift : β → ι → γ} {lift' : β' → ι → γ'}
  {Q R : β → Prop} {Q' : β' → Prop} {F F' : ι → Option γ}

theorem uniform_none : Uniform M lift Q fun _ => none :=
  ⟨none, fun _ _ => rfl, fun _ h => absurd h.symm (Option.some_ne_none _)⟩

theorem uniform_some (y : β) (hy : Q y) : Uniform M lift Q fun x => some (lift y x) := by
  refine ⟨some y, fun _ _ => rfl, fun y' h => ?_⟩
  cases h
  exact hy

theorem Uniform.congr (h : Uniform M lift Q F') (hF : ∀ x, M x → F x = F' x) :
    Uniform M lift Q F := by
  obtain ⟨r, hr, hQ⟩ := h
  exact ⟨r, fun x hx => (hF x hx).trans (hr x hx), hQ⟩

theorem Uniform.mono (h : Uniform M lift Q F) (hQR : ∀ y, Q y → R y) : Uniform M lift R F := by
  obtain ⟨r, hr, hQ⟩ := h
  exact ⟨r, hr, fun y hy => hQR y (hQ y hy)⟩

theorem uniform_ite {p : Prop} [Decidable p] (h : p → Uniform M lift Q F)
    (h' : ¬ p → Uniform M lift Q F') : Uniform M lift Q fun x => if p then F x else F' x := by
  by_cases hp : p
  · exact (h hp).congr fun _ _ => if_pos hp
  · exact (h' hp).congr fun _ _ => if_neg hp

theorem uniform_bind {y : ι → Option α} {z : Option α} {G : α → ι → Option γ}
    (hy : ∀ x, M x → y x = z) (h : ∀ a, z = some a → Uniform M lift Q (G a)) :
    Uniform M lift Q fun x => (y x).bind (G · x) := by
  cases z with
  | none => exact uniform_none.congr fun x hx => by rw [hy x hx]; rfl
  | some a => exact (h a rfl).congr fun x hx => by rw [hy x hx]; rfl

/-- **One step after another.** -/
theorem Uniform.bind {G : γ → Option γ'} (h : Uniform M lift Q F)
    (hG : ∀ y, Q y → Uniform M lift' Q' fun x => G (lift y x)) :
    Uniform M lift' Q' fun x => (F x).bind G := by
  obtain ⟨r, hr, hQ⟩ := h
  cases r with
  | none => exact uniform_none.congr fun x hx => by rw [hr x hx]; rfl
  | some y => exact (hG y (hQ y rfl)).congr fun x hx => by rw [hr x hx]; rfl

/-- …the second of which cannot fail. -/
theorem Uniform.map {g : γ → γ'} (h : Uniform M lift Q F)
    (hg : ∀ y, Q y → ∃ y', (∀ x, g (lift y x) = lift' y' x) ∧ Q' y') :
    Uniform M lift' Q' fun x => (F x).map g := by
  have hstep : Uniform M lift' Q' fun x => (F x).bind fun z => some (g z) := by
    refine h.bind fun y hy => ?_
    obtain ⟨y', heq, hy'⟩ := hg y hy
    exact (uniform_some y' hy').congr fun x _ => congrArg some (heq x)
  exact hstep.congr fun x _ => Option.map_eq_bind

theorem uniform_map {y : ι → Option α} {z : Option α} {g : α → ι → γ} (hy : ∀ x, M x → y x = z)
    (h : ∀ a, z = some a → ∃ b, (∀ x, g a x = lift b x) ∧ Q b) :
    Uniform M lift Q fun x => (y x).map (g · x) := by
  have hstep : Uniform M lift Q fun x => (y x).bind fun a => some (g a x) := by
    refine uniform_bind hy fun a ha => ?_
    obtain ⟨b, heq, hb⟩ := h a ha
    exact (uniform_some b hb).congr fun x _ => congrArg some (heq x)
  exact hstep.congr fun x _ => Option.map_eq_bind

end Uniform

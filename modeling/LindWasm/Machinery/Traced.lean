import Mathlib.Data.List.Forall2

/-!
# Machinery/Traced — computations that leave a trace and may stop

    x --> e₁, e₂, …, eₙ   and then a value, or none if it has stopped

What a computation did before it stopped is in its trace too. `Traced.All P` says that everything it
did is `P`; it passes through sequencing with the value in hand.
-/

variable {E α β : Type*} {P : E → Prop}

/-- The events of a computation in order, and its value if it has one. -/
@[ext] structure Traced (E α : Type*) where
  trace : List E
  value : Option α

namespace Traced

open Option List

def pure (a : α) : Traced E α := ⟨[], some a⟩

/-- Stops here. -/
def stop : Traced E α := ⟨[], none⟩

def ofOption : Option α → Traced E α
  | none => stop
  | some a => pure a

def emit (e : E) (a : α) : Traced E α := ⟨[e], some a⟩

def bind (x : Traced E α) (f : α → Traced E β) : Traced E β :=
  match x.value with
  | none => ⟨x.trace, none⟩
  | some a => ⟨x.trace ++ (f a).trace, (f a).value⟩

def map (f : α → β) (x : Traced E α) : Traced E β := ⟨x.trace, x.value.map f⟩

/-- One after the other, as long as none stops. -/
def each (f : α → Traced E β) : List α → Traced E (List β)
  | [] => pure []
  | a :: as => (f a).bind fun b => (each f as).map (b :: ·)

/-- Every event is `P`. -/
def All (P : E → Prop) (x : Traced E α) : Prop := ∀ e ∈ x.trace, P e

@[simp] theorem all_pure (a : α) : All P (pure a : Traced E α) := forall_mem_nil P

@[simp] theorem all_stop : All P (stop : Traced E α) := forall_mem_nil P

@[simp] theorem all_ofOption (x : Option α) : All P (ofOption x : Traced E α) := by
  cases x with
  | none => exact all_stop
  | some a => exact all_pure a

@[simp] theorem value_ofOption (x : Option α) : (ofOption x : Traced E α).value = x := by
  cases x <;> rfl

@[simp] theorem all_emit {e : E} (a : α) : All P (emit e a) ↔ P e := forall_mem_singleton

@[simp] theorem all_map (f : α → β) (x : Traced E α) : All P (x.map f) ↔ All P x := Iff.rfl

/-- **Sequencing**: the events of the first, and those of the second if there is one. -/
theorem all_bind (x : Traced E α) (f : α → Traced E β) :
    All P (x.bind f) ↔ All P x ∧ ∀ a, x.value = some a → All P (f a) := by
  rw [bind]
  cases hx : x.value with
  | none => exact (and_iff_left fun a ha => absurd ha.symm (some_ne_none a)).symm
  | some a =>
    refine forall_mem_append.trans (and_congr_right fun _ => ?_)
    constructor
    · rintro h b hb
      cases hb
      exact h
    · exact fun h => h a rfl

theorem value_bind (x : Traced E α) (f : α → Traced E β) :
    (x.bind f).value = x.value.bind fun a => (f a).value := by
  rw [bind]
  cases x.value <;> rfl

variable {f : α → Traced E β} {as : List α} {bs : List β}

/-- **One after the other**: the events of each one that those before have led to. -/
theorem all_each : All P (each f as) ↔
    ∀ before a after, as = before ++ a :: after → (∀ b ∈ before, (f b).value ≠ none) →
      All P (f a) := by
  induction as with
  | nil => exact iff_of_true (all_pure []) (by simp)
  | cons a as ih =>
    rw [each, all_bind]
    simp only [all_map, ih]
    constructor
    · rintro ⟨ha, hrest⟩ before b after hsplit hbefore
      cases before with
      | nil => exact (cons_eq_cons.mp hsplit).1 ▸ ha
      | cons c before =>
        obtain ⟨rfl, htail⟩ := cons_eq_cons.mp hsplit
        obtain ⟨hc, hbefore⟩ := forall_mem_cons.mp hbefore
        obtain ⟨v, hv⟩ := ne_none_iff_exists'.mp hc
        exact hrest v hv before b after htail hbefore
    · refine fun h => ⟨h [] a as rfl (forall_mem_nil _),
        fun v hv before b after hsplit hbefore => ?_⟩
      exact h (a :: before) b after (congrArg (a :: ·) hsplit)
        (forall_mem_cons.mpr ⟨by simp [hv], hbefore⟩)

/-- The value of one after the other. -/
theorem value_each_eq_some :
    (each f as).value = some bs ↔ List.Forall₂ (fun a b => (f a).value = some b) as bs := by
  induction as generalizing bs with
  | nil =>
    rw [forall₂_nil_left_iff, each]
    exact some_inj.trans eq_comm
  | cons a as ih =>
    rw [each, value_bind, bind_eq_some_iff, forall₂_cons_left_iff]
    refine exists_congr fun b => ?_
    constructor
    · rintro ⟨hb, hv⟩
      obtain ⟨bs', hbs', rfl⟩ := map_eq_some_iff.mp hv
      exact ⟨bs', hb, ih.mp hbs', rfl⟩
    · rintro ⟨bs', hb, hbs', rfl⟩
      exact ⟨hb, map_eq_some_iff.mpr ⟨bs', ih.mpr hbs', rfl⟩⟩

theorem value_each_ne_none : (each f as).value ≠ none ↔ ∀ a ∈ as, (f a).value ≠ none := by
  induction as with
  | nil => simp [each, pure]
  | cons a as ih =>
    rw [forall_mem_cons, ← ih, each, value_bind]
    cases (f a).value with
    | none => simp
    | some b => simp [map]

/-- …which is known if each value is. -/
theorem eq_map_of_value_each {v : α → β} (hv : (each f as).value = some bs)
    (h : ∀ a ∈ as, ∀ b, (f a).value = some b → b = v a) : bs = as.map v := by
  have hall := value_each_eq_some.mp hv
  clear hv
  induction hall with
  | nil => rfl
  | cons hb _ ih =>
    obtain ⟨ha, has⟩ := forall_mem_cons.mp h
    rw [map_cons, ha _ hb, ih has]

end Traced

import LindWasm.Machinery.Traced

/-!
# Machinery/Guarded — computations that stop at the first thing that fails

    e₁ ✓, e₂ ✓, …, eₙ ✗   and no value

A `Guarded` computation carries the proof that a bad event ends it: nothing is done after one, and
there is no value. The operations keep it, so whatever is put together from them fails closed.
-/

variable {E E' α β : Type*} {bad : E → Bool} {bad' : E' → Bool}

namespace Traced

open Option List

/-- The events are good, or all but the last are and the computation has stopped there. -/
def StopsAt (bad : E → Bool) (x : Traced E α) : Prop :=
  ∃ good : List E, (∀ e ∈ good, bad e = false) ∧
    (x.trace = good ∨ x.value = none ∧ ∃ e, x.trace = good ++ [e])

variable {x : Traced E α}

theorem stopsAt_of_trace_eq_nil (h : x.trace = []) : x.StopsAt bad :=
  ⟨[], forall_mem_nil _, .inl h⟩

theorem StopsAt.map (h : x.StopsAt bad) (f : α → β) : (x.map f).StopsAt bad := by
  obtain ⟨good, hgood, htrace | ⟨hnone, htrace⟩⟩ := h
  · exact ⟨good, hgood, .inl htrace⟩
  · exact ⟨good, hgood, .inr ⟨map_eq_none_iff.mpr hnone, htrace⟩⟩

theorem StopsAt.good (h : x.StopsAt bad) {a : α} (ha : x.value = some a) :
    ∀ e ∈ x.trace, bad e = false := by
  obtain ⟨good, hgood, htrace | ⟨hnone, -⟩⟩ := h
  · exact htrace ▸ hgood
  · exact absurd (ha.symm.trans hnone) (some_ne_none a)

theorem StopsAt.bind {f : α → Traced E β} (h : x.StopsAt bad) (hf : ∀ a, (f a).StopsAt bad) :
    (x.bind f).StopsAt bad := by
  rw [Traced.bind]
  cases hx : x.value with
  | none =>
    obtain ⟨good, hgood, htrace | ⟨-, htrace⟩⟩ := h
    · exact ⟨good, hgood, .inl htrace⟩
    · exact ⟨good, hgood, .inr ⟨rfl, htrace⟩⟩
  | some a =>
    obtain ⟨good, hgood, hrest⟩ := hf a
    refine ⟨x.trace ++ good, forall_mem_append.mpr ⟨h.good hx, hgood⟩, ?_⟩
    rcases hrest with htrace | ⟨hnone, e, htrace⟩
    · exact .inl (congrArg (x.trace ++ ·) htrace)
    · refine .inr ⟨hnone, e, (congrArg (x.trace ++ ·) htrace).trans ?_⟩
      exact (append_assoc _ _ _).symm

/-- **A bad event is the last**, and no value follows. -/
theorem StopsAt.eq_last (h : x.StopsAt bad) {e : E} (he : e ∈ x.trace) (hbad : bad e) :
    x.value = none ∧ x.trace.getLast? = some e := by
  obtain ⟨good, hgood, htrace | ⟨hnone, e', htrace⟩⟩ := h
  · exact absurd hbad (Bool.eq_false_iff.mp (hgood e (htrace ▸ he)))
  · rw [htrace, mem_append, mem_singleton] at he
    rcases he with he | rfl
    · exact absurd hbad (Bool.eq_false_iff.mp (hgood e he))
    · exact ⟨hnone, htrace ▸ getLast?_concat⟩

theorem trace_bind (x : Traced E α) (f : α → Traced E β) :
    (x.bind f).trace = x.trace ++ x.value.elim [] fun a => (f a).trace := by
  rw [bind]
  cases x.value with
  | none => exact (append_nil _).symm
  | some a => rfl

end Traced

/-- A computation that a bad event ends. -/
structure Guarded (bad : E → Bool) (α : Type*) extends Traced E α where
  stops : toTraced.StopsAt bad

namespace Guarded

def pure (a : α) : Guarded bad α := ⟨.pure a, Traced.stopsAt_of_trace_eq_nil rfl⟩

def stop : Guarded bad α := ⟨.stop, Traced.stopsAt_of_trace_eq_nil rfl⟩

def ofOption (x : Option α) : Guarded bad α := ⟨⟨[], x⟩, Traced.stopsAt_of_trace_eq_nil rfl⟩

/-- Something that cannot fail. -/
def emit (e : E) (he : bad e = false) : Guarded bad Unit :=
  ⟨.emit e (), [e], List.forall_mem_singleton.mpr he, .inl rfl⟩

/-- Something that may fail: the event tells whether it has. -/
def attempt (e : Bool → E) (he : bad (e true) = false) (x : Option α) : Guarded bad α where
  trace := [e x.isSome]
  value := x
  stops := by
    cases x with
    | none => exact ⟨[], List.forall_mem_nil _, .inr ⟨rfl, _, rfl⟩⟩
    | some a => exact ⟨[e true], List.forall_mem_singleton.mpr he, .inl rfl⟩

def map (f : α → β) (x : Guarded bad α) : Guarded bad β := ⟨x.toTraced.map f, x.stops.map f⟩

def bind (x : Guarded bad α) (f : α → Guarded bad β) : Guarded bad β :=
  ⟨x.toTraced.bind fun a => (f a).toTraced, x.stops.bind fun a => (f a).stops⟩

/-- The same computation among more events. -/
def lift (g : E → E') (hg : ∀ e, bad' (g e) = bad e) (x : Guarded bad α) : Guarded bad' α where
  trace := x.trace.map g
  value := x.value
  stops := by
    obtain ⟨good, hgood, hrest⟩ := x.stops
    refine ⟨good.map g, List.forall_mem_map.mpr fun e he => (hg e).trans (hgood e he), ?_⟩
    refine hrest.imp (congrArg (List.map g)) fun ⟨hnone, e, htrace⟩ => ⟨hnone, g e, ?_⟩
    rw [htrace, List.map_append, List.map_singleton]

/-! ## Values and traces -/

variable (g : E → E') (a : α) (x : Guarded bad α) (f : α → Guarded bad β)

@[simp] theorem value_pure : (pure a : Guarded bad α).value = some a := rfl

@[simp] theorem value_stop : (stop : Guarded bad α).value = none := rfl

@[simp] theorem value_ofOption (x : Option α) : (ofOption x : Guarded bad α).value = x := rfl

@[simp] theorem value_emit (e : E) (he : bad e = false) : (emit e he).value = some () := rfl

@[simp] theorem value_map (f : α → β) : (x.map f).value = x.value.map f := rfl

@[simp] theorem value_bind : (x.bind f).value = x.value.bind fun a => (f a).value :=
  Traced.value_bind _ _

@[simp] theorem value_lift (hg : ∀ e, bad' (g e) = bad e) :
    (x.lift g hg).value = x.value := rfl

@[simp] theorem trace_lift (hg : ∀ e, bad' (g e) = bad e) :
    (x.lift g hg).trace = x.trace.map g := rfl

@[simp] theorem trace_pure : (pure a : Guarded bad α).trace = [] := rfl

@[simp] theorem trace_stop : (stop : Guarded bad α).trace = [] := rfl

theorem trace_bind :
    (x.bind f).trace = x.trace ++ x.value.elim [] fun a => (f a).trace := Traced.trace_bind _ _

@[simp] theorem trace_emit_bind (e : E) (he : bad e = false) (f : Unit → Guarded bad β) :
    ((emit e he).bind f).trace = e :: (f ()).trace := rfl

@[simp] theorem trace_bind_ofOption (f : α → Option β) :
    (x.bind fun a => ofOption (f a)).trace = x.trace := by
  rw [trace_bind]
  cases x.value <;> exact List.append_nil _

@[simp] theorem value_ite (p : Prop) [Decidable p] (x y : Guarded bad α) :
    (if p then x else y).value = if p then x.value else y.value :=
  apply_ite (fun x => x.value) p x y

/-! ## What a computation may do -/

section All

variable {P : E → Prop}

theorem all_ite {p : Prop} [Decidable p] {x y : Guarded bad α} (hx : x.All P) (hy : y.All P) :
    (if p then x else y).All P := by
  split
  · exact hx
  · exact hy

theorem all_bind {x : Guarded bad α} {f : α → Guarded bad β} (hx : x.All P)
    (hf : ∀ a, (f a).All P) : (x.bind f).All P :=
  (Traced.all_bind _ _).mpr ⟨hx, fun a _ => hf a⟩

theorem all_emit {e : E} (he : bad e = false) (h : P e) : (emit e he).All P :=
  List.forall_mem_singleton.mpr h

theorem all_attempt {e : Bool → E} (he : bad (e true) = false) (h : ∀ ok, P (e ok))
    (x : Option α) : (attempt e he x).All P := List.forall_mem_singleton.mpr (h _)

theorem all_ofOption (x : Option α) : (ofOption x : Guarded bad α).All P := List.forall_mem_nil P

end All

end Guarded

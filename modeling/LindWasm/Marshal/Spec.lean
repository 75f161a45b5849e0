import LindWasm.Machinery.Bytes

/-!
# Marshal/Spec — what a grate says about the arguments of an interposed function

    spec -- args --> ArgSpec -- layout --> Layout -- fields --> Field -- spec --> ArgSpec ⋯
                        └------ element --> ArgSpec ⋯

A spec is a tree: a pointer may carry the layout of what it points to, whose fields carry specs in
turn, and a pointer array the spec of its elements. The discriminator of a union layout is read by
no function and is left out.
-/

namespace LindWasm.Marshal

inductive ArgKind where
  | scalar
  | ptr
  | handle
  deriving DecidableEq

inductive PtrDirection where
  | ptrIn
  | ptrOut
  | ptrInout
  deriving DecidableEq

inductive SizeKind where
  | none
  | const
  | fromArg
  | fromArgPointee
  | cstr
  | ptrArray
  deriving DecidableEq

inductive ReturnKind where
  | void
  | scalar
  | ptrAliasArg
  | ptrIntoArg
  | handle
  | forceLocal
  deriving DecidableEq

inductive LayoutKind where
  | bytes
  | struct
  | union
  deriving DecidableEq

mutual

/-- One argument, field or array element. -/
inductive ArgSpec where
  | mk (kind : ArgKind) (ptrDirection : PtrDirection) (sizeKind : SizeKind)
      (constSize sizeArgIndex : ℕ) (layout : Option Layout) (element : Option ArgSpec)
      (handleClass outPtrIntoArg1 flags : ℕ)

/-- The pointee of a structured pointer. -/
inductive Layout where
  | mk (kind : LayoutKind) (fields : List Field) (structSize : ℕ)

/-- One field; only touched ones are marshalled. -/
inductive Field where
  | mk (offset : ℕ) (spec : ArgSpec) (touched : Bool)

end

namespace ArgSpec

def kind : ArgSpec → ArgKind
  | mk kind _ _ _ _ _ _ _ _ _ => kind

def ptrDirection : ArgSpec → PtrDirection
  | mk _ ptrDirection _ _ _ _ _ _ _ _ => ptrDirection

def sizeKind : ArgSpec → SizeKind
  | mk _ _ sizeKind _ _ _ _ _ _ _ => sizeKind

def constSize : ArgSpec → ℕ
  | mk _ _ _ constSize _ _ _ _ _ _ => constSize

def sizeArgIndex : ArgSpec → ℕ
  | mk _ _ _ _ sizeArgIndex _ _ _ _ _ => sizeArgIndex

def layout : ArgSpec → Option Layout
  | mk _ _ _ _ _ layout _ _ _ _ => layout

def element : ArgSpec → Option ArgSpec
  | mk _ _ _ _ _ _ element _ _ _ => element

def handleClass : ArgSpec → ℕ
  | mk _ _ _ _ _ _ _ handleClass _ _ => handleClass

/-- One more than the argument an OUT pointer-to-pointer aliases; 0 for every other pointer. -/
def outPtrIntoArg1 : ArgSpec → ℕ
  | mk _ _ _ _ _ _ _ _ outPtrIntoArg1 _ => outPtrIntoArg1

def flags : ArgSpec → ℕ
  | mk _ _ _ _ _ _ _ _ _ flags => flags

/-- `LIND_ARGSPEC_ALLOW_ONE_PAST`, the lowest bit of the flags. -/
def allowOnePast (s : ArgSpec) : Bool := s.flags % 2 = 1

/-- Bytes go from the caller to the handler. -/
def copiesIn (s : ArgSpec) : Bool := s.ptrDirection = .ptrIn ∨ s.ptrDirection = .ptrInout

/-- Bytes go from the handler back to the caller. -/
def copiesOut (s : ArgSpec) : Bool := s.ptrDirection = .ptrOut ∨ s.ptrDirection = .ptrInout

end ArgSpec

/-- **Induction along the elements** of nested pointer arrays, down to a spec that is not one. -/
@[elab_as_elim]
theorem ArgSpec.elementInduction {motive : ArgSpec → Prop}
    (buffer : ∀ s, s.sizeKind ≠ .ptrArray → motive s)
    (raw : ∀ s, s.sizeKind = .ptrArray → s.element = none → motive s)
    (element : ∀ s e, s.sizeKind = .ptrArray → s.element = some e → motive e → motive s) :
    (s : ArgSpec) → motive s
  | .mk _ _ sk _ _ _ none _ _ _ =>
      if hs : sk = .ptrArray then raw _ hs rfl else buffer _ hs
  | .mk _ _ sk _ _ _ (some e) _ _ _ =>
      if hs : sk = .ptrArray then element _ e hs rfl (elementInduction buffer raw element e)
      else buffer _ hs

namespace Layout

def kind : Layout → LayoutKind
  | mk kind _ _ => kind

def fields : Layout → List Field
  | mk _ fields _ => fields

def structSize : Layout → ℕ
  | mk _ _ structSize => structSize

end Layout

namespace Field

def offset : Field → ℕ
  | mk offset _ _ => offset

def spec : Field → ArgSpec
  | mk _ spec _ => spec

def touched : Field → Bool
  | mk _ _ touched => touched

end Field

structure ReturnSpec where
  kind : ReturnKind
  aliasArgIndex : ℕ
  handleClass : ℕ
  flags : ℕ

/-- A function: its arguments and how its result is handed back. -/
structure MarshalSpec where
  args : List ArgSpec
  ret : ReturnSpec

def MarshalSpec.nargs (spec : MarshalSpec) : ℕ := spec.args.length

end LindWasm.Marshal

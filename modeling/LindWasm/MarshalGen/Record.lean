import LindWasm.Marshal.Pre
import Mathlib.Data.List.Infix

/-!
# MarshalGen/Record — from a record of the inference to a spec of the runtime

    <lib>.marshal.json -- is_marshalable? --> emit_function_spec --> MarshalSpec

A function record is a tree of nodes: a pointer has its pointee, a struct its fields. One walk
over it decides whether the function is interposed at all, another writes the spec the runtime
interprets. A key of a node is either there or not (`Option`), and what is read when it is not is
the default of the `get` that reads it; the names of the C declarations are left out.
-/

namespace LindWasm.MarshalGen

open Marshal

/-! ## Records -/

/-- The kinds the tool knows; `other` is any other text, or a null. -/
inductive NodeKind where
  | scalar
  | ptr
  | handle
  | struct
  | union
  | ptrIntoArg
  | other
  deriving DecidableEq

inductive NodeDir where
  | dirIn
  | dirOut
  | dirInout
  | other
  deriving DecidableEq

/-- The ways to size a pointer; `null` is a JSON null, `other` a text outside the vocabulary. -/
inductive NodeSize where
  | null
  | none
  | na
  | const
  | fromArg
  | fromArgPointee
  | cstr
  | ptrArray
  | other
  deriving DecidableEq

/-- The keys of a node, its children apart; `cursor` and `touched` are read for their truth. -/
structure NodeKeys where
  kind : Option NodeKind := none
  dir : Option NodeDir := none
  sizeKind : Option NodeSize := none
  constSize : Option ℕ := none
  sizeArgIndex : Option ℕ := none
  sizeFieldIndex : Option ℕ := none
  offset : Option ℕ := none
  size : Option ℕ := none
  intoArg : Option ℕ := none
  handleClass : Option String := none
  touched : Bool := false
  cursor : Bool := false

/-- A node of an argument tree; an absent `pointee` or `fields` is an empty one. -/
inductive Node where
  | mk (keys : NodeKeys) (pointee fields : List Node)

namespace Node

def keys : Node → NodeKeys
  | mk keys _ _ => keys

def pointee : Node → List Node
  | mk _ pointee _ => pointee

def fields : Node → List Node
  | mk _ _ fields => fields

end Node

inductive RetName where
  | void
  | scalar
  | ptrAliasArg
  | ptrIntoArg
  | handle
  | other
  deriving DecidableEq

structure RetNode where
  kind : Option RetName
  aliasArg : Option ℕ
  handleClass : Option String

/-- A function; `ret` is absent, a null, or an object. -/
structure FunctionRecord where
  name : Option String
  args : List Node
  ret : Option (Option RetNode)

/-! ## Acceptance -/

def lindRawArgsMax : ℕ := 6

def neverInterposeSubstr : List String := ["setjmp", "longjmp", "locale", "printf", "scanf"]

def neverInterpose : List String :=
  ["exit", "_exit", "_Exit", "quick_exit", "pthread_exit", "abort", "execl", "execlp", "execle",
   "execv", "execve", "execveat", "execvp", "execvpe", "fexecve", "fcntl", "ioctl", "open",
   "open64", "syscall", "err", "errx", "warn", "warnx", "verr", "verrx", "vwarn", "vwarnx",
   "syslog", "vsyslog", "prctl", "ptrace", "semctl", "__libc_setup_tls", "__ctype_init",
   "__wasi_init_tp", "acosl", "acosf64x", "fmodl", "fmodf64x", "remainder", "drem", "remainderf32x",
   "remainderf64", "gammal", "lgammal", "lgammal_r", "tgammal", "lgammaf64x", "lgammaf64x_r",
   "tgammaf64x", "powl", "powf64x", "remquol", "remquof64x", "scalb", "scalbf", "scalbl"]

def fdFuncs : List String :=
  ["read", "write", "close", "lseek", "lseek64", "pread", "pwrite", "pread64", "pwrite64", "readv",
   "writev", "preadv", "pwritev", "preadv64", "pwritev64", "preadv2", "pwritev2", "dup", "dup2",
   "dup3", "fchdir", "fchmod", "fchown", "fstat", "fstat64", "fstatfs", "fstatfs64", "fstatvfs",
   "fstatvfs64", "fsync", "fdatasync", "ftruncate", "ftruncate64", "flock", "fcntl64", "sendfile",
   "sendfile64", "fgetxattr", "fsetxattr", "flistxattr", "fremovexattr", "getdents", "getdents64",
   "epoll_ctl", "epoll_wait", "epoll_pwait", "epoll_pwait2", "fpathconf", "isatty", "ttyname",
   "ttyname_r", "tcgetattr", "tcsetattr", "tcflush", "tcdrain", "tcflow", "tcsendbreak", "tcgetsid",
   "tcgetpgrp", "tcsetpgrp", "fdopendir", "fdopen", "syncfs", "posix_fadvise", "posix_fadvise64",
   "posix_fallocate", "posix_fallocate64", "fallocate", "readahead", "flockfile", "accept",
   "accept4", "bind", "listen", "connect", "send", "recv", "sendto", "recvfrom", "sendmsg",
   "recvmsg", "recvmmsg", "sendmmsg", "getsockopt", "setsockopt", "getsockname", "getpeername",
   "shutdown", "sockatmark", "socket", "socketpair", "pipe", "pipe2", "eventfd", "eventfd2",
   "epoll_create", "epoll_create1", "timerfd_create", "timerfd_settime", "timerfd_gettime",
   "signalfd", "inotify_init", "inotify_init1", "inotify_add_watch", "inotify_rm_watch",
   "memfd_create", "creat", "creat64", "mkstemp", "mkstemp64", "mkostemp", "mkostemp64", "openat",
   "openat64", "faccessat", "faccessat2", "fchmodat", "fchownat", "fstatat", "fstatat64",
   "newfstatat", "linkat", "mkdirat", "mknodat", "readlinkat", "renameat", "renameat2", "symlinkat",
   "unlinkat", "utimensat", "statx", "name_to_handle_at", "open_by_handle_at"]

def supportedRet : List RetName := [.void, .scalar, .ptrAliasArg, .ptrIntoArg, .handle]

/-- An absent size kind is supported, as a null is. -/
def supportedSize : List (Option NodeSize) :=
  [none, some .null, some .none, some .na, some .const, some .fromArg, some .fromArgPointee,
   some .cstr, some .ptrArray]

mutual

/-- One node and all below it. -/
def walk : Node → Bool
  | .mk keys pointee fields =>
      if keys.cursor then false
      else if keys.kind = some .ptr ∧ keys.sizeKind ∉ supportedSize then false
      else walkAll pointee && walkAll fields

def walkAll : List Node → Bool
  | [] => true
  | n :: ns => walk n && walkAll ns

end

/-- `is_marshalable`. -/
def isMarshalable (f : FunctionRecord) : Bool :=
  let name := f.name.getD ""
  if name ∈ neverInterpose ∨ name ∈ fdFuncs ∨
      ∃ s ∈ neverInterposeSubstr, s.toList <:+: name.toList then false
  else if f.args.length > lindRawArgsMax then false
  else
    match f.ret.join.bind (·.kind) with
    | none => walkAll f.args
    | some r => if r ∉ supportedRet then false else walkAll f.args

/-! ## Emission -/

def emitDir : NodeDir → PtrDirection
  | .dirIn => .ptrIn
  | .dirOut => .ptrOut
  | .dirInout => .ptrInout
  | .other => .ptrIn

def emitSizeKind : NodeSize → SizeKind
  | .const => .const
  | .fromArg => .fromArg
  | .fromArgPointee => .fromArgPointee
  | .cstr => .cstr
  | .ptrArray => .ptrArray
  | .null | .none | .na | .other => .none

namespace NodeKeys

/-- The size kind that is emitted: a constant where none is given. -/
def effectiveSize (keys : NodeKeys) : NodeSize := keys.sizeKind.getD .const

/-- The argument or field a size is read from. -/
def sizeIndex (keys : NodeKeys) : ℕ := keys.sizeArgIndex.getD (keys.sizeFieldIndex.getD 0)

end NodeKeys

/-- `_handle_class_id`, over the hash of the interpreter that runs the tool. -/
def handleClassId (hash : String → ℕ) (cls : Option String) : ℕ :=
  hash (cls.getD "void") % 2 ^ 31

def scalarSpec : ArgSpec := .mk .scalar .ptrIn .none 0 0 none none 0 0 0

def handleSpec (hash : String → ℕ) (keys : NodeKeys) : ArgSpec :=
  .mk .handle .ptrIn .none 0 0 none none (handleClassId hash keys.handleClass) 0 0

/-- The slot an OUT pointer-to-pointer aliases, counted from 1. -/
def emitIntoArg : List Node → ℕ
  | [] => 0
  | n :: _ => if n.keys.kind = some .ptrIntoArg then u32 (n.keys.intoArg.getD 0 + 1) else 0

/-- A pointer, given what is emitted for its pointee: the members of the C struct have their own
widths. -/
def ptrSpec (keys : NodeKeys) (layout : Option Layout) (element : Option ArgSpec)
    (outPtrIntoArg1 : ℕ) : ArgSpec :=
  let sk := keys.effectiveSize
  .mk .ptr (emitDir (keys.dir.getD .dirIn)) (emitSizeKind sk)
    (if sk = .const then u64 (keys.constSize.getD 0) else 0)
    (if sk = .fromArg ∨ sk = .fromArgPointee then u32 keys.sizeIndex else 0)
    layout element 0 outPtrIntoArg1 0

mutual

/-- `arg_spec_body`. -/
def argSpecBody (hash : String → ℕ) : Node → ArgSpec
  | .mk keys pointee _ =>
      match keys.kind.getD .scalar with
      | .handle => handleSpec hash keys
      | .ptr =>
          -- an array has an element spec and nothing else
          if keys.effectiveSize = .ptrArray then ptrSpec keys none (emitElement hash pointee) 0
          else ptrSpec keys (emitPointee hash pointee) none (emitIntoArg pointee)
      | .scalar | .struct | .union | .ptrIntoArg | .other => scalarSpec

/-- The element of an array is its first pointee. -/
def emitElement (hash : String → ℕ) : List Node → Option ArgSpec
  | [] => none
  | n :: _ => some (argSpecBody hash n)

/-- Only a struct gets a layout; a union is left as flat bytes. -/
def emitPointee (hash : String → ℕ) : List Node → Option Layout
  | [] => none
  | n :: _ => if n.keys.kind = some .struct then some (emitLayout hash n) else none

def emitLayout (hash : String → ℕ) : Node → Layout
  | .mk keys _ fields => .mk .struct (emitFields hash fields) (u32 (keys.size.getD 0))

def emitFields (hash : String → ℕ) : List Node → List Field
  | [] => []
  | n :: ns =>
      .mk (u32 (n.keys.offset.getD 0)) (argSpecBody hash n) n.keys.touched :: emitFields hash ns

end

def emitRetKind : RetName → ReturnKind
  | .void => .void
  | .scalar => .scalar
  | .ptrAliasArg => .ptrAliasArg
  | .ptrIntoArg => .ptrIntoArg
  | .handle => .handle
  | .other => .scalar

def retSpecBody (hash : String → ℕ) (ret : RetNode) : ReturnSpec :=
  let kind := ret.kind.getD .scalar
  ⟨emitRetKind kind,
    if kind = .ptrAliasArg ∨ kind = .ptrIntoArg then u32 (ret.aliasArg.getD 0) else 0,
    if kind = .handle then handleClassId hash ret.handleClass else 0, 0⟩

/-- `emit_function_spec`: it raises on a record without a name, or with a null for its return. -/
def emitFunctionSpec (hash : String → ℕ) (f : FunctionRecord) : Option MarshalSpec :=
  f.name.bind fun _ =>
    (f.ret.getD (some ⟨some .void, none, none⟩)).map fun ret =>
      ⟨f.args.map (argSpecBody hash), retSpecBody hash ret⟩

end LindWasm.MarshalGen

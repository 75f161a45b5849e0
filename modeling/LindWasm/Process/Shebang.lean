import Mathlib.Data.List.Basic

/-!
# Process/Shebang — `execve` of a script, and of the interpreter it names

    path, argv --script--> interpreter, interpreter :: arg? ++ argv --script--> …

A level puts the interpreter and its argument before all of the argument vector it was called with.
Below the first level the vector begins with the path that was executed; at the first it begins with
whatever the caller has put there, so the script's own path is passed on just when the caller passed
it (`execve_chain_iff`).
-/

namespace LindWasm.Process

/-- What `execve` sees of a file: whether the engine loads it as a module, and its bytes if it can
be read. -/
structure File where
  loads : Bool
  bytes : Option (List UInt8)

structure Shebang where
  interpreter : List UInt8
  arg : Option (List UInt8)
deriving DecidableEq

def isBlank (b : UInt8) : Bool := b = 32 ∨ b = 9

/-- `parse_shebang`, of what it reads of the file. -/
def parseShebang (data : List UInt8) : Option Shebang :=
  if data.take 2 ≠ [35, 33] then none
  else
    let line := (data.drop 2).takeWhile (· ≠ 10)
    let line := if line.getLast? = some 13 then line.dropLast else line
    let line := line.dropWhile isBlank
    if line = [] then none
    else
      let rest := (line.dropWhile (!isBlank ·)).dropWhile isBlank
      some ⟨line.takeWhile (!isBlank ·), if rest = [] then none else some rest⟩

inductive ExecErrno where
  | ELOOP | ENOENT | ENOEXEC
deriving DecidableEq

/-- How `execve_call` ends: with an error, or with the module at `path` about to run. -/
inductive ExecResult where
  | error (errno : ExecErrno)
  | run (path : String) (argv : List String)
deriving DecidableEq

/-- How many bytes of a file are read for its first line. -/
def bufSize : ℕ := 255

def maxShebangDepth : ℕ := 4

/-- A script's interpreter and the argument it gives it. -/
abbrev Level := String × Option String

/-- `build_shebang_argv`, once the two names have been read. -/
def buildShebangArgv (level : Level) (argv : List String) : List String :=
  level.1 :: level.2.toList ++ argv

section

variable (toStr : List UInt8 → Option String) (fs : String → Option File)

/-- What a script names, if `toStr` reads both of its names. -/
def File.level (file : File) : Option Level := do
  let shebang ← parseShebang ((← file.bytes).take bufSize)
  return (← toStr shebang.interpreter, ← shebang.arg.mapM toStr)

/-- `execve_call`, with so many levels left before the limit is passed. -/
def execveCall : ℕ → String → List String → ExecResult
  | 0, _, _ => .error .ELOOP
  | left + 1, path, argv =>
    match fs path with
    | none => .error .ENOENT
    | some file =>
      if file.loads then .run path argv
      else
        match file.level toStr with
        | none => .error .ENOEXEC
        | some level => execveCall left level.1 (buildShebangArgv level argv)

/-- `execve_call` as a guest's `execve` makes it, at recursion depth 0. -/
def execve : String → List String → ExecResult := execveCall toStr fs (maxShebangDepth + 1)

/-! ## Chains of scripts -/

/-- Scripts from `path` on that name one another, up to a module. -/
def Chain : String → List Level → Prop
  | path, [] => ∃ file, fs path = some file ∧ file.loads
  | path, level :: levels =>
    (∃ file, fs path = some file ∧ ¬ file.loads ∧ file.level toStr = some level) ∧
      Chain level.1 levels

end

/-- The module a chain ends in. -/
def lastPath : String → List Level → String
  | path, [] => path
  | _, level :: levels => lastPath level.1 levels

/-- The vector a chain is to end with: at every level the interpreter, its argument, the path of the
script, and what followed the first entry of the vector. -/
def scriptArgv : String → List String → List Level → List String
  | _, argv, [] => argv
  | path, argv, level :: levels =>
    scriptArgv level.1 (level.1 :: level.2.toList ++ path :: argv.tail) levels

/-- What the levels put before the vector of the call. -/
def levelArgs : List Level → List String
  | [] => []
  | level :: levels => levelArgs levels ++ level.1 :: level.2.toList

variable {toStr : List UInt8 → Option String} {fs : String → Option File} {path : String}
  {argv : List String} {levels : List Level}

/-- **A chain runs to its end**, or to the limit. -/
theorem execveCall_chain (h : Chain toStr fs path levels) (left : ℕ) :
    execveCall toStr fs left path argv = if left ≤ levels.length then .error .ELOOP
      else .run (lastPath path levels) (levelArgs levels ++ argv) := by
  induction levels generalizing path argv left with
  | nil =>
    obtain ⟨file, hfile, hloads⟩ := h
    cases left with
    | zero => rfl
    | succ left =>
      rw [execveCall, hfile]
      exact if_pos hloads
  | cons level levels ih =>
    obtain ⟨⟨file, hfile, hloads, hlevel⟩, hrest⟩ := h
    cases left with
    | zero => rfl
    | succ left =>
      rw [execveCall, hfile]
      dsimp only
      rw [if_neg hloads, hlevel]
      dsimp only
      rw [ih hrest, levelArgs, List.append_assoc, List.length_cons]
      simp only [Nat.add_le_add_iff_right]
      rfl

/-- A vector that begins with the path of the script is passed on as it should be. -/
theorem scriptArgv_of_head (h : argv.head? = some path) :
    scriptArgv path argv levels = levelArgs levels ++ argv := by
  induction levels generalizing path argv with
  | nil => rfl
  | cons level levels ih =>
    rw [scriptArgv, ih rfl, List.cons_head?_tail h, levelArgs, List.append_assoc]

/-- **A chain of scripts ends as it should just when** it is none, is too long, or is called with
the path of its first script in front. -/
theorem execve_chain_iff (h : Chain toStr fs path levels) (argv : List String) :
    execve toStr fs path argv = (if maxShebangDepth < levels.length then .error .ELOOP
      else .run (lastPath path levels) (scriptArgv path argv levels)) ↔
    levels = [] ∨ maxShebangDepth < levels.length ∨ argv.head? = some path := by
  rw [execve, execveCall_chain h]
  by_cases hlong : maxShebangDepth < levels.length
  · simp [hlong, Nat.succ_le_of_lt hlong]
  rw [if_neg (by omega), if_neg hlong]
  cases levels with
  | nil => simp [levelArgs, scriptArgv]
  | cons level levels =>
    simp only [hlong, false_or, reduceCtorEq, ExecResult.run.injEq, true_and]
    rw [scriptArgv, scriptArgv_of_head rfl, levelArgs, List.append_assoc, List.append_right_inj,
      List.append_right_inj]
    constructor
    · intro heq
      rw [heq]
      rfl
    · exact fun hhead => (List.cons_head?_tail hhead).symm

/-- A script that begins `#!/t`, the script it names, which begins `#!/i -x`, and the module that
one names. -/
def scriptFs : String → Option File
  | "/s" => some ⟨false, some [35, 33, 47, 116, 10]⟩
  | "/t" => some ⟨false, some [35, 33, 47, 105, 32, 45, 120, 10]⟩
  | "/i" => some ⟨true, none⟩
  | _ => none

def asciiStr (bytes : List UInt8) : Option String :=
  some (String.ofList (bytes.map fun b => Char.ofNat b.toNat))

theorem chain_scriptFs : Chain asciiStr scriptFs "/s" [("/t", none), ("/i", some "-x")] :=
  ⟨⟨_, rfl, nofun, by decide⟩, ⟨_, rfl, nofun, by decide⟩, _, rfl, rfl⟩

theorem execve_script : execve asciiStr scriptFs "/s" ["/s", "a"]
    = .run "/i" (scriptArgv "/s" ["/s", "a"] [("/t", none), ("/i", some "-x")]) :=
  (execve_chain_iff chain_scriptFs _).mpr (.inr (.inr rfl))

/-- **A caller's own `argv[0]` takes the place of the script**: the interpreter is told to run
`s`, and not `/s`. -/
theorem execve_script_renamed : execve asciiStr scriptFs "/s" ["s", "a"]
      = .run "/i" ["/i", "-x", "/t", "s", "a"] ∧
    scriptArgv "/s" ["s", "a"] [("/t", none), ("/i", some "-x")]
      = ["/i", "-x", "/t", "/s", "a"] := by
  decide

end LindWasm.Process

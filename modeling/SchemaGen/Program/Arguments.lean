import SchemaGen.Run.Pipeline

/-!
# Arguments of the program

`--config` or `-c` names the settings file and `--check` asks what a run would write; each may be given
once. A request for help or for the version is answered as soon as it is reached, and an argument that
is not understood before it ends the program.
-/

namespace SchemaGen.Program

/-- What the program is asked to do. -/
inductive Request where
  | help
  | version
  | run (config : Option Path) (mode : Mode)
  deriving DecidableEq, Repr

namespace Request

/-- Whether an argument can be the value of the option before it. -/
def isValue (arg : String) : Bool := arg = "-" || (!arg.isEmpty && arg.toList.head? != some '-')

/-- The value that an option has in its own argument, behind an equals sign. -/
def attached? (arg : String) : Option String :=
  let long := "--config=".toList
  if long.isPrefixOf arg.toList then some (String.ofList (arg.toList.drop long.length))
  else match arg.toList with
    | '-' :: 'c' :: '=' :: rest => some (String.ofList rest)
    | '-' :: 'c' :: c :: rest => some (String.ofList (c :: rest))
    | _ => none

/-- The request that a short option makes at once. -/
def short? (arg : String) : Option Request :=
  match arg.toList with
  | '-' :: 'h' :: _ => some .help
  | '-' :: 'V' :: _ => some .version
  | _ => none

/-- The mode of a run. -/
def modeOf (check : Bool) : Mode := if check then .check else .write

/-- The request of the arguments, after those that gave a settings file and asked for a check. -/
def readFrom? (config : Option Path) (check : Bool) : List String → Option Request
  | [] => some (.run config (modeOf check))
  | arg :: rest =>
    if arg = "--" then if rest.isEmpty then some (.run config (modeOf check)) else none
    else if arg = "--help" then some .help
    else if arg = "--version" then some .version
    else if arg = "--check" then if check then none else readFrom? config true rest
    else if arg = "--config" ∨ arg = "-c" then
      match rest with
      | value :: rest =>
        if isValue value && config.isNone then readFrom? (some ⟨value⟩) check rest else none
      | [] => none
    else match attached? arg with
      | some value =>
        if value.isEmpty || config.isSome then none else readFrom? (some ⟨value⟩) check rest
      | none => short? arg

/-- The request of the arguments; none if they are not understood. -/
def read? (args : List String) : Option Request := readFrom? none false args

example : read? ["--check", "-c", "ci.toml"] = some (.run (some ⟨"ci.toml"⟩) .check) := by decide
example : read? ["--check", "--check"] = none := by decide
example : read? ["-c", "--help"] = none := by decide

end Request

end SchemaGen.Program

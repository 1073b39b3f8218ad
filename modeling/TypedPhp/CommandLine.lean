set_option autoImplicit false

/-!
# Command line

The one command writes the program of a seed into a directory.
-/

namespace TypedPhp

/-- A request to write a generated program. -/
structure WriteRequest where
  seed : UInt64
  /-- The directory that receives the files. -/
  out : String
  /-- The settings file, if there is one. -/
  config : Option String
deriving DecidableEq, Repr

/-- Why a command line is refused. -/
inductive UsageError where
  | noCommand
  | unknownCommand (name : String)
  | unknownOption (name : String)
  /-- An option at the end of the line has no value. -/
  | missingValue (option : String)
  /-- An option is given twice. -/
  | repeatedOption (option : String)
  /-- A required option is not given. -/
  | missingOption (option : String)
  /-- A seed is not a whole number of 64 bits. -/
  | badSeed (text : String)
deriving DecidableEq, Repr

namespace UsageError

/-- The message of a refusal. -/
def message : UsageError → String
  | noCommand => "a command is required"
  | unknownCommand name => "unknown command " ++ name
  | unknownOption name => "unknown option " ++ name
  | missingValue option => "a value is required for " ++ option
  | repeatedOption option => option ++ " is given more than once"
  | missingOption option => "the option " ++ option ++ " is required"
  | badSeed text => text ++ " is not a seed"

end UsageError

/-- How the command line is used. -/
def usage : String := "usage: typedphp generate --seed <N> --out <DIR> [--config <FILE>]"

namespace CommandLine

/-- The long name of an option. -/
def longName? : String → Option String
  | "--seed" => some "--seed"
  | "-o" | "--out" => some "--out"
  | "-c" | "--config" => some "--config"
  | _ => none

/-- Options with their values, each under its long name. -/
def options : List String → Except UsageError (List (String × String))
  | [] => .ok []
  | name :: rest =>
    match longName? name, rest with
    | none, _ => .error (.unknownOption name)
    | some option, [] => .error (.missingValue option)
    | some option, value :: rest => do
      let others ← options rest
      if (others.lookup option).isSome then throw (.repeatedOption option)
      return (option, value) :: others

/-- The value of an option that must be given. -/
def required (given : List (String × String)) (option : String) : Except UsageError String :=
  match given.lookup option with
  | some value => .ok value
  | none => .error (.missingOption option)

/-- A seed from its decimal digits. -/
def seed (text : String) : Except UsageError UInt64 :=
  match text.toNat? with
  | some n =>
    if text.toList.all Char.isDigit && n < 0x10000000000000000 then .ok (.ofNat n)
    else .error (.badSeed text)
  | none => .error (.badSeed text)

/-- The request that a command line makes. -/
def request : List String → Except UsageError WriteRequest
  | [] => .error .noCommand
  | "generate" :: rest => do
    let given ← options rest
    let seed ← seed (← required given "--seed")
    let out ← required given "--out"
    return ⟨seed, out, given.lookup "--config"⟩
  | name :: _ => .error (.unknownCommand name)

end CommandLine

end TypedPhp

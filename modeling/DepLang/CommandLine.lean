import DepLang.Demo

/-!
# The command line

The program runs demonstrations: those that `--scenario` names, in the order of the arguments and as
often as they are named, or all of them if it names none. Each report ends with an empty line. `-v`
and `--verbose`, which may be repeated, the short form also as `-vv`, ask for a log on the error
channel.

`-h` or `--help` anywhere before `--` asks for the usage and nothing else. Any other argument is a
usage error: nothing runs, and the program ends with code 1.
-/
namespace DepLang

/-- What the arguments ask for. -/
structure Options where
  scenarios : List Scenario := []
  verbosity : Nat := 0
deriving DecidableEq, Repr

/-- What the arguments do not say, or should not. -/
inductive UsageError where
  | unknownScenario (name : String)
  | missingScenario
  | unexpected (argument : String)
deriving DecidableEq, Repr

namespace UsageError

def message : UsageError → String
  | unknownScenario name =>
    "unknown scenario `" ++ name ++ "`; expected one of: case-tree, calculus, let"
  | missingScenario => "`--scenario` requires an argument `NAME`"
  | unexpected argument => "`" ++ argument ++ "` is not expected in this context"

end UsageError

namespace Options

/-- Asks for one more demonstration, before the ones asked for later. -/
def ask (name : String) (later : Options) : Except UsageError Options :=
  match Scenario.ofName? name with
  | some scenario => .ok { later with scenarios := scenario :: later.scenarios }
  | none => .error (.unknownScenario name)

/-- The flags in an argument such as `-vv`. -/
def shortFlags? (argument : String) : Option (List Char) :=
  match argument.toList with
  | '-' :: flags =>
    if !flags.isEmpty && flags.all (fun flag => flag = 'v' || flag = 'h') then some flags else none
  | _ => none

/-- The argument asks for the usage, perhaps among other things. -/
def asksForHelp (argument : String) : Bool :=
  argument = "--help" || (shortFlags? argument).any fun flags => flags.contains 'h'

/-- The name in an argument such as `--scenario=let`. -/
def scenarioName? (argument : String) : Option String :=
  let flag := "--scenario=".toList
  if flag.isPrefixOf argument.toList then
    some (String.ofList (argument.toList.drop flag.length))
  else
    none

/-- Reads the arguments from left to right. -/
def parse : List String → Except UsageError Options
  | [] => .ok {}
  | "--scenario" :: name :: rest => do ask name (← parse rest)
  | ["--scenario"] => .error .missingScenario
  | ["--"] => .ok {}
  | argument :: rest => do
    let later ← parse rest
    if argument = "--verbose" then
      return { later with verbosity := later.verbosity + 1 }
    else if let some name := scenarioName? argument then
      ask name later
    else if let some flags := shortFlags? argument then
      return { later with verbosity := later.verbosity + flags.count 'v' }
    else
      .error (.unexpected argument)

/-- The demonstrations to run. -/
def chosen (options : Options) : List Scenario :=
  if options.scenarios.isEmpty then Scenario.all else options.scenarios

end Options

/-- What a run of the program leaves behind. -/
structure Outcome where
  stdout : String := ""
  stderr : String := ""
  code : Nat := 0
deriving DecidableEq, Repr

namespace Outcome

/-- Runs demonstrations until one goes wrong. The log says which ones ran. -/
def ofScenarios (log : Bool) : List Scenario → Outcome
  | [] => {}
  | scenario :: rest =>
    let started := if log then "running " ++ scenario.name ++ "\n" else ""
    match scenario.report with
    | .ok lines =>
      let later := ofScenarios log rest
      { later with
        stdout := String.join (lines.map (· ++ "\n")) ++ "\n" ++ later.stdout
        stderr := started ++ later.stderr }
    | .error message => { stderr := started ++ message ++ "\n", code := 1 }

end Outcome

/-- How the program is called. -/
def usage : String :=
  "Usage: [--scenario=NAME]... [-v]...\n\n" ++
  "    --scenario=NAME  Run only this scenario: case-tree, calculus or let (repeatable)\n" ++
  "-v, --verbose        Log more; repeat for more detail\n" ++
  "-h, --help           Print this text\n"

/-- Runs the program on its arguments. -/
def runCommand (arguments : List String) : Outcome :=
  if (arguments.takeWhile (· ≠ "--")).any Options.asksForHelp then
    { stderr := usage }
  else
    match Options.parse arguments with
    | .ok options => Outcome.ofScenarios (options.verbosity > 0) options.chosen
    | .error error => { stderr := error.message ++ "\n", code := 1 }

end DepLang

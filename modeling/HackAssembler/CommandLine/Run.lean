/-
  HackAssembler.CommandLine.Run

  What a call of the command line does. Verbosity and listings only decide what is shown; the file
  that is written depends on the input and the output path alone.
-/
import HackAssembler.CommandLine
import HackAssembler.CommandLine.Help
import HackAssembler.Listing
import HackAssembler.Program.File

namespace HackAssembler.CommandLine

/-! ## Outcomes -/

/-- What a call shows, and the code it ends with. -/
structure Outcome where
  exitCode : Nat
  /-- The events that are shown. -/
  log : List Event
  /-- What is printed after the log. -/
  output : String

/-- An event as a line of the log; `stamp` says when it was. -/
def logLine (stamp : String) (event : Event) : String :=
  s!"{stamp}[{event.target}][{event.level.name}] {event.message}\n"

/-- Everything that is printed. -/
def Outcome.text (stamp : String) (outcome : Outcome) : String :=
  String.join (outcome.log.map (logLine stamp)) ++ outcome.output

/-! ## Running -/

/-- The listings that are asked for. -/
def listings (options : Options) (program : Program) : String :=
  (if options.showWords then Listing.ofWords program else "")
    ++ (if options.showSymbols then Listing.ofSymbols program else "")

/-- What is shown of an attempt to assemble a file. -/
def outcomeOf (options : Options) (report : Report Program.Written) : Outcome :=
  let log := .arguments options.verbosity options.output options.input :: report.log
  let visible := fun events => events.filter (Event.isVisible options.verbosity)
  match report.result with
  | .error error => ⟨1, visible (log ++ [.failed options.input error]), ""⟩
  | .ok written =>
    ⟨0, visible (log ++ [.wrote written.program.words.length written.path]),
      listings options written.program⟩

variable {m : Type → Type} [Monad m] [FileSystem m]

/-- Does what is asked for. -/
def Request.run : Request → m Outcome
  | .misuse => return ⟨1, [], ""⟩
  | .help => return ⟨0, [], helpText⟩
  | .version => return ⟨0, [], versionText⟩
  | .assemble options => do
    return outcomeOf options (← Program.assembleFile options.input options.output)

/-- Does what the arguments ask for. -/
def run (arguments : List String) : m Outcome :=
  (Request.ofArguments arguments).run

end HackAssembler.CommandLine

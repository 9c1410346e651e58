/-
  HackAssembler.CommandLine

  The arguments of the command line. Options of one letter may be joined behind one `-`, options
  may stand before and after the input, and everything after `--` is an input. Help and version
  are answered as soon as they are met; an unknown option or a second input is refused as soon as
  it is met; what is missing or repeated is refused at the end.
-/
import HackAssembler.Event

namespace HackAssembler.CommandLine

/-! ## What is asked for -/

/-- An accepted request to assemble a file. -/
structure Options where
  input : Path
  /-- Where the output goes, if not beside the input. -/
  output : Option Path
  /-- The least important level that is shown. -/
  verbosity : Level
  showWords : Bool
  showSymbols : Bool
deriving DecidableEq, Repr

/-- What the arguments ask for. -/
inductive Request where
  | assemble (options : Options)
  | help
  | version
  /-- The arguments are refused. -/
  | misuse
deriving DecidableEq, Repr

/-! ## Reading arguments -/

/-- What the arguments read so far say. -/
structure Draft where
  input : Option String := none
  /-- One entry for each time that an output was announced; `none` if the path was missing. -/
  outputs : List (Option String) := []
  /-- How often more messages were asked for. -/
  louder : Nat := 0
  wordRequests : Nat := 0
  symbolRequests : Nat := 0

/-- What follows from one argument. -/
inductive Step where
  /-- Reading goes on with the next argument. -/
  | next (draft : Draft)
  /-- The next argument may be the path of the output. -/
  | awaitOutput (draft : Draft)
  /-- The request is settled. -/
  | done (request : Request)

namespace Draft

def addOutput (draft : Draft) (output : Option String) : Draft :=
  { draft with outputs := output :: draft.outputs }

/-- Takes an argument for the input, unless there is one. -/
def addInput (draft : Draft) (argument : String) : Step :=
  match draft.input with
  | none => .next { draft with input := some argument }
  | some _ => .done .misuse

/-- The level for a number of times that more messages were asked for. -/
def verbosity (draft : Draft) : Level :=
  match draft.louder with
  | 0 => .warn
  | 1 => .info
  | _ => .debug

/-- The request that the arguments make once all of them were read. -/
def finish (draft : Draft) : Request :=
  if draft.wordRequests ≤ 1 ∧ draft.symbolRequests ≤ 1 then
    match draft.input, draft.outputs with
    | some input, [] => accept input none
    | some input, [some output] => accept input (some ⟨output⟩)
    | _, _ => .misuse
  else .misuse
where
  /-- The request with this input and output. -/
  accept (input : String) (output : Option Path) : Request :=
    .assemble
      { input := ⟨input⟩
        output
        verbosity := draft.verbosity
        showWords := draft.wordRequests == 1
        showSymbols := draft.symbolRequests == 1 }

/-- Reads the letters after a `-`. The letter `o` takes the rest of them, without `=` in front, for
    the path of the output. -/
def readLetters (draft : Draft) : List Char → Step
  | [] => .next draft
  | 'v' :: letters => readLetters { draft with louder := draft.louder + 1 } letters
  | 'd' :: letters => readLetters { draft with wordRequests := draft.wordRequests + 1 } letters
  | 's' :: letters => readLetters { draft with symbolRequests := draft.symbolRequests + 1 } letters
  | 'h' :: _ => .done .help
  | 'V' :: _ => .done .version
  | ['o'] => .awaitOutput draft
  | 'o' :: path => .next (draft.addOutput (some (String.ofList (path.dropWhile (· == '=')))))
  | _ => .done .misuse

/-- Reads the name of an option. What follows a `=` is not looked at. -/
def readName (draft : Draft) (text : List Char) : Step :=
  match String.ofList (text.takeWhile (· != '=')) with
  | "show" => .next { draft with wordRequests := draft.wordRequests + 1 }
  | "symbols" => .next { draft with symbolRequests := draft.symbolRequests + 1 }
  | "help" => .done .help
  | "version" => .done .version
  | _ => .done .misuse

/-- Reads an argument that is not `--`. -/
def readArgument (draft : Draft) (argument : String) : Step :=
  match argument.toList with
  | '-' :: '-' :: text => draft.readName (text.dropWhile (· == '-'))
  | '-' :: letter :: letters => draft.readLetters (letter :: letters)
  | _ => draft.addInput argument

/-- Reads arguments none of which is an option. -/
def readInputs (draft : Draft) : List String → Request
  | [] => draft.finish
  | argument :: arguments =>
    match draft.addInput argument with
    | .next draft => draft.readInputs arguments
    | .awaitOutput draft => draft.readInputs arguments
    | .done request => request

/-- Tells whether an argument looks like options. -/
def isOption (argument : String) : Bool :=
  argument != "-" && argument.toList.head? == some '-'

/-- Reads all arguments. -/
def readArguments (draft : Draft) : List String → Request
  | [] => draft.finish
  | argument :: arguments =>
    if argument = "--" then draft.readInputs arguments
    else
      match draft.readArgument argument with
      | .done request => request
      | .next draft => draft.readArguments arguments
      | .awaitOutput draft =>
        match arguments with
        | [] => (draft.addOutput none).finish
        | path :: arguments =>
          if isOption path then (draft.addOutput none).readArguments (path :: arguments)
          else (draft.addOutput (some path)).readArguments arguments

end Draft

/-- The request that arguments make. -/
def Request.ofArguments (arguments : List String) : Request :=
  Draft.readArguments {} arguments

end HackAssembler.CommandLine

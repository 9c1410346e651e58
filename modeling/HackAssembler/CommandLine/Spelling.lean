/-
  HackAssembler.CommandLine.Spelling

  What arguments stand for, said without reading them from the left. An argument is an input, or
  flags by their letters or by their name, or the path of the output with flags in front of it; or
  it announces that the next argument is this path. The order of the arguments, the joining of
  letters and the way to write a flag or a path make no difference to what is asked for.
-/
import HackAssembler.CommandLine

namespace HackAssembler.CommandLine

/-! ## Parts of a request -/

/-- A part of a request that is there or not. -/
inductive Flag where
  /-- More messages are to be shown. -/
  | louder
  /-- The words are to be listed. -/
  | words
  /-- The symbols are to be listed. -/
  | symbols
deriving DecidableEq, Repr

/-- The letter that a flag has behind a `-`. -/
def Flag.letter : Flag → Char
  | louder => 'v'
  | words => 'd'
  | symbols => 's'

/-- The name that a flag has behind `--`, if it has one. -/
def Flag.name? : Flag → Option String
  | louder => none
  | words => some "show"
  | symbols => some "symbols"

/-- What a part of the arguments stands for. -/
inductive Item where
  | flag (flag : Flag)
  | output (path : String)
  | input (path : String)
deriving DecidableEq, Repr

/-- The inputs among some items. -/
def inputPaths (items : List Item) : List String :=
  items.filterMap fun
    | .input path => some path
    | _ => none

/-- The paths for the output among some items. -/
def outputPaths (items : List Item) : List String :=
  items.filterMap fun
    | .output path => some path
    | _ => none

/-! ## Spellings -/

/-- An argument that does not begin like an option. -/
def IsPlain (argument : String) : Prop :=
  argument = "-" ∨ argument.toList.head? ≠ some '-'

/-- The arguments stand for the items, in this order. -/
inductive Spells : List String → List Item → Prop where
  | nil : Spells [] []
  /-- Behind `--` every argument is an input. -/
  | inputs (paths : List String) : Spells ("--" :: paths) (paths.map .input)
  /-- `prog.asm` -/
  | input {path : String} {arguments : List String} {items : List Item} (plain : IsPlain path)
      (rest : Spells arguments items) : Spells (path :: arguments) (.input path :: items)
  /-- `-vds` -/
  | flags {argument : String} {flags : List Flag} {arguments : List String} {items : List Item}
      (spelled : argument.toList = '-' :: flags.map Flag.letter) (nonempty : flags ≠ [])
      (rest : Spells arguments items) : Spells (argument :: arguments) (flags.map .flag ++ items)
  /-- `--show`. There may be more dashes, and text behind a `=`, which is not looked at. -/
  | named {argument name : String} {flag : Flag} {dashes tail : List Char}
      {arguments : List String} {items : List Item} (named : flag.name? = some name)
      (dash : ∀ c ∈ dashes, c = '-') (equals : ∀ c ∈ tail.head?, c = '=')
      (spelled : argument.toList = '-' :: '-' :: (dashes ++ name.toList ++ tail))
      (rest : Spells arguments items) : Spells (argument :: arguments) (.flag flag :: items)
  /-- `-vofile` or `-vo=file` -/
  | attached {argument path : String} {flags : List Flag} {signs : List Char}
      {arguments : List String} {items : List Item} (equals : ∀ c ∈ signs, c = '=')
      (start : path.toList.head? ≠ some '=') (nonempty : signs ++ path.toList ≠ [])
      (spelled : argument.toList = '-' :: (flags.map Flag.letter ++ 'o' :: (signs ++ path.toList)))
      (rest : Spells arguments items) :
      Spells (argument :: arguments) (flags.map .flag ++ .output path :: items)
  /-- `-vo file` -/
  | separate {argument path : String} {flags : List Flag} {arguments : List String}
      {items : List Item} (plain : IsPlain path)
      (spelled : argument.toList = '-' :: (flags.map Flag.letter ++ ['o']))
      (rest : Spells arguments items) :
      Spells (argument :: path :: arguments) (flags.map .flag ++ .output path :: items)

/-- The arguments ask to assemble one input, with one path for the output or none. Each listing is
    asked for at most once. -/
def Names (arguments : List String) (input : Path) (output : Option Path) : Prop :=
  ∃ items, Spells arguments items ∧ inputPaths items = [input.text] ∧
    outputPaths items = (output.map Path.text).toList ∧ items.count (.flag .words) ≤ 1 ∧
    items.count (.flag .symbols) ≤ 1

end HackAssembler.CommandLine

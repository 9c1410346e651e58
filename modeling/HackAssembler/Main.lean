/-
  HackAssembler.Main

  The command line on the files of the machine it runs on.
-/
import HackAssembler.CommandLine.Run
import Std.Time

namespace HackAssembler

/-! ## Files -/

/-- The positive number of an error of the operating system; some calls report it negated. -/
def errorNumber (code : UInt32) : Nat :=
  min code.toNat (0 - code).toNat

/-- The fault behind an error of the operating system. -/
def FileFault.ofIOError : IO.Error → FileFault
  | .noFileOrDirectory .. => .notFound
  | .resourceBusy code details => ofNumber code details
  | .inappropriateType _ code details => ofNumber code details
  | .invalidArgument _ code details => ofNumber code details
  | .permissionDenied _ code details => ofNumber code details
  | .resourceExhausted _ code details => ofNumber code details
  | .otherError code details => ofNumber code details
  | error => .other (toString error)
where
  /-- The fault with a number; one that has no name here keeps its wording. -/
  ofNumber (code : UInt32) (details : String) : FileFault :=
    match errorNumber code with
    | 16 => .busy
    | 20 => .notDirectory
    | 21 => .isDirectory
    | 36 => .nameTooLong
    | number => .other s!"{details} (os error {number})"

/-- Runs an action on a path, unless the path cannot be handed to the operating system. -/
def guardPath {α : Type} (path : Path) (action : IO α) : IO (Except FileFault α) := do
  if '\x00' ∈ path.text.toList then return .error .nulInPath
  try
    return .ok (← action)
  catch error => return .error (.ofIOError error)

instance : FileSystem IO where
  read path := guardPath path (IO.FS.readBinFile path.text)
  isPresent path := do
    match ← guardPath path (IO.FS.realPath path.text) with
    | .ok _ => return true
    | .error _ => return false
  write path contents := guardPath path (IO.FS.writeBinFile path.text contents)
  replace source target := guardPath target (IO.FS.rename source.text target.text)
  remove path := guardPath path (IO.FS.removeFile path.text)

/-! ## Time -/

/-- Date and time as they stand before a log line. -/
def timeStamp : IO String := do
  let now ← Std.Time.PlainDateTime.now
  let date := now.format "uuuu-MM-dd"
  let time := now.format "HH:mm:ss"
  return s!"[{date}][{time}]"

end HackAssembler

open HackAssembler in
def main (arguments : List String) : IO UInt32 := do
  let outcome ← CommandLine.run arguments
  IO.print (outcome.text (← timeStamp))
  if CommandLine.Request.ofArguments arguments = .misuse then
    IO.eprint CommandLine.usageText
  return outcome.exitCode.toUInt32

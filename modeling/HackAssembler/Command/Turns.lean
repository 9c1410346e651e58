/-
  HackAssembler.Command.Turns

  Going through a source with a reader, as long as a line is left. Both turns over the lines of a
  program, the one for its labels and the one for its words, can be made this way.
-/
import HackAssembler.Command.Reader

namespace HackAssembler.Reader

variable {σ : Type}

/-- Reads the next line and takes account of its command. A line without a command changes nothing,
    and a line that is refused ends the work. -/
def turn (take : σ → Nat → Command → Report σ) (state : σ) (reader : Reader) :
    Report (σ × Reader) := do
  let (report, reader) := reader.advance
  match ← report, reader.command with
  | true, some command => return (← take state reader.line command, reader)
  | _, _ => return (state, reader)

/-- Reads lines as long as there are any and takes account of their commands. There is no report if
    a line is left after `limit` turns. -/
def turns? (take : σ → Nat → Command → Report σ) (limit : Nat) (state : σ) (reader : Reader) :
    Option (Report σ) :=
  if reader.hasMore then
    match limit with
    | 0 => none
    | limit + 1 =>
      match turn take state reader with
      | ⟨log, .error error⟩ => some ⟨log, .error error⟩
      | ⟨log, .ok (state, reader)⟩ => (turns? take limit state reader).map (Report.after log)
  else
    some (pure state)

end HackAssembler.Reader

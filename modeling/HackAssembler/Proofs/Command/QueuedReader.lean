/-
  HackAssembler.Proofs.Command.QueuedReader

  The reader with a queue does what the reader without one does. Each part of a command takes from
  the queue what its reader takes from the list of tokens, and refuses the same lists for the same
  reason (`Agrees`). What a call finds in the queue, as the command or in the log makes no
  difference to it.
-/
import HackAssembler.Command.QueuedReader
import HackAssembler.Proofs.Command.Reader

namespace HackAssembler.QueuedReader

variable {α β : Type} {reader : QueuedReader}

/-! ## The same result, the same rest -/

/-- A step that took tokens off the queue ended as a reader of token lists did: with its result and
    the rest in the queue, or with its refusal. Nothing but the queue has changed. -/
inductive Agrees (reader : QueuedReader) :
    Except SyntaxFault (α × List Token) → EStateM.Result Error QueuedReader α → Prop where
  | ok (a : α) (rest : List Token) :
    Agrees reader (.ok (a, rest)) (.ok a { reader with tokens := rest })
  | error (fault : SyntaxFault) (rest : List Token) :
    Agrees reader (.error fault)
      (.error (.malformed reader.line fault.message) { reader with tokens := rest })

/-- What was in the queue before makes no difference to the relation. -/
theorem Agrees.of_queue {tokens : List Token} {taken : Except SyntaxFault (α × List Token)}
    {outcome : EStateM.Result Error QueuedReader α}
    (h : Agrees { reader with tokens := tokens } taken outcome) : Agrees reader taken outcome := by
  cases h with
  | ok a rest => exact .ok a rest
  | error fault rest => exact .error fault rest

/-- Steps one after the other end as the readers one after the other do. -/
theorem Agrees.bind {step : Step α} {next : α → Step β}
    {taken : Except SyntaxFault (α × List Token)}
    {takeNext : α × List Token → Except SyntaxFault (β × List Token)}
    (h : Agrees reader taken (step.run reader))
    (hnext : ∀ a rest, Agrees { reader with tokens := rest } (takeNext (a, rest))
      ((next a).run { reader with tokens := rest })) :
    Agrees reader (taken >>= takeNext) ((step >>= next).run reader) := by
  rw [EStateM.run_bind]
  generalize step.run reader = outcome at h
  cases h with
  | ok a rest => exact (hnext a rest).of_queue
  | error fault rest => exact .error fault rest

/-- Steps one after the other end as the readers one after the other do, the second of which has
    its result from the first alone. -/
theorem Agrees.map {step : Step α} {taken : Except SyntaxFault (α × List Token)} (f : α → β)
    (h : Agrees reader taken (step.run reader)) :
    Agrees reader (taken >>= fun (a, rest) => pure (f a, rest))
      ((step >>= fun a => pure (f a)).run reader) :=
  h.bind fun a rest => .ok (f a) rest

/-! ## The parts of a command -/

theorem run_nextIs (op : Operator) (reader : QueuedReader) :
    (Step.nextIs op).run reader =
      .ok (decide (reader.tokens.head? = some (.operator op))) reader :=
  rfl

theorem agrees_operand (what : Expectation) (reader : QueuedReader) :
    Agrees reader (Command.takeOperand what reader.tokens) ((Step.operand what).run reader) := by
  obtain ⟨pending, tokens, line, command, log⟩ := reader
  match tokens with
  | [] => exact .error _ _
  | .number digits :: rest => exact .ok _ _
  | .identifier name :: rest => exact .ok _ _
  | .operator op :: rest => exact .error _ _
  | .invalid text :: rest => exact .error _ _

theorem agrees_address (reader : QueuedReader) :
    Agrees reader (Command.takeAddress reader.tokens) (Step.address.run reader) :=
  (agrees_operand .address reader).map Command.address

theorem agrees_secondOperand (first : String) (reader : QueuedReader) :
    Agrees reader (Command.takeSecondOperand first reader.tokens)
      ((Step.secondOperand first).run reader) := by
  obtain ⟨pending, tokens, line, command, log⟩ := reader
  match tokens with
  | [] => exact .ok _ _
  | .number digits :: rest => exact .ok _ _
  | .identifier name :: rest => exact .ok _ _
  | .invalid text :: rest => exact .ok _ _
  | .operator op :: rest =>
    -- Every operator but a `;` is taken, and asks for a second operand.
    have hsecond := (agrees_operand .binaryOperand ⟨pending, rest, line, command, log⟩).map
      fun second => first.push op.toChar ++ second
    cases op with
    | semicolon => exact .ok _ _
    | _ => exact hsecond.of_queue

theorem agrees_comp (start : Token) (reader : QueuedReader) :
    Agrees reader (Command.takeComp (start :: reader.tokens)) ((Step.comp start).run reader) := by
  have hunary (op : Operator) := (agrees_operand .unaryOperand reader).map
    fun operand => op.toChar.toString ++ operand
  cases start with
  | number digits => exact agrees_secondOperand digits reader
  | identifier name => exact agrees_secondOperand name reader
  | invalid text => exact .error _ _
  | operator op =>
    cases op with
    | minus => exact hunary .minus
    | bang => exact hunary .bang
    | _ => exact .error _ _

theorem agrees_jump (reader : QueuedReader) :
    Agrees reader (Command.takeJump reader.tokens) (Step.jump.run reader) := by
  obtain ⟨pending, tokens, line, command, log⟩ := reader
  match tokens with
  | [] => exact .ok _ _
  | .number digits :: rest => exact .ok _ _
  | .identifier name :: rest => exact .ok _ _
  | .invalid text :: rest => exact .ok _ _
  | .operator op :: rest =>
    cases op with
    | semicolon =>
      match rest with
      | [] => exact .error _ _
      | .number digits :: rest => exact .error _ _
      | .identifier name :: rest => exact .ok _ _
      | .operator op :: rest => exact .error _ _
      | .invalid text :: rest => exact .error _ _
    | _ => exact .ok _ _

/-- What follows the destination. -/
theorem agrees_computeFrom (dest : Option String) (start : Token) (reader : QueuedReader) :
    Agrees reader
      (do
        let (comp, tokens) ← Command.takeComp (start :: reader.tokens)
        let (jump, tokens) ← Command.takeJump tokens
        return (Command.compute dest comp jump, tokens))
      ((do
        let comp ← Step.comp start
        let jump ← Step.jump
        return Command.compute dest comp jump : Step Command).run reader) :=
  (agrees_comp start reader).bind fun comp rest =>
    (agrees_jump { reader with tokens := rest }).map (Command.compute dest comp)

theorem agrees_compute (first : Token) (reader : QueuedReader) :
    Agrees reader (Command.takeCompute (first :: reader.tokens))
      ((Step.compute first).run reader) := by
  obtain ⟨pending, tokens, line, command, log⟩ := reader
  -- An `=` as the second token makes the first one a destination.
  by_cases hassign : tokens.head? = some (.operator .assign)
  · obtain ⟨rest, rfl⟩ := List.head?_eq_some_iff.mp hassign
    cases first with
    | identifier name =>
      cases rest with
      | nil => exact .error _ _
      | cons start rest =>
        exact (agrees_computeFrom (some name) start ⟨pending, rest, line, command, log⟩).of_queue
    | _ => exact .error _ _
  · have htaken : Command.takeDest (first :: tokens) = .ok (none, first :: tokens) := by
      refine Command.takeDest_of_not_assign fun v left htokens => hassign ?_
      rw [(List.cons.inj htokens).2, List.head?_cons]
    have hrun : (Step.dest first).run ⟨pending, tokens, line, command, log⟩ =
        .ok (none, first) ⟨pending, tokens, line, command, log⟩ := by
      unfold Step.dest
      rw [EStateM.run_bind, run_nextIs, decide_eq_false hassign]
      rfl
    rw [Command.takeCompute, htaken, Step.compute, EStateM.run_bind, hrun]
    exact agrees_computeFrom none first ⟨pending, tokens, line, command, log⟩

/-! ## A command with its remark -/

theorem unclosedLabel?_eq_some_iff {tokens : List Token} {name : String} :
    Command.unclosedLabel? tokens = some name ↔
      tokens.any Token.isInvalid = false ∧
        ∃ rest, tokens = .operator .openParen :: .identifier name :: rest ∧
          rest.head? ≠ some (.operator .closeParen) := by
  unfold Command.unclosedLabel?
  split
  · rename_i hany
    simp [hany]
  · rename_i hany
    rw [Bool.not_eq_true] at hany
    constructor
    · intro h
      refine ⟨hany, ?_⟩
      split at h
      · cases h
      · rename_i hopen
        cases h
        refine ⟨_, rfl, fun hnext => ?_⟩
        obtain ⟨rest, rfl⟩ := List.head?_eq_some_iff.mp hnext
        exact hopen _ rfl
      · cases h
    · rintro ⟨-, rest, rfl, hnext⟩
      split
      · rename_i htokens
        cases htokens
        exact absurd rfl hnext
      · rename_i htokens
        cases htokens
        rfl
      · rename_i hother
        exact absurd rfl (hother _ _)

/-- A label is remarked on as soon as its name is taken, if no `)` comes next. -/
theorem agrees_label (reader : QueuedReader)
    (hvalid : (.operator .openParen :: reader.tokens).any Token.isInvalid = false) :
    Agrees
      { reader with
        log := reader.log ++ (⟨reader.line, .operator .openParen :: reader.tokens⟩ : Line).remarks }
      (Command.takeLabel reader.tokens) (Step.label.run reader) := by
  obtain ⟨pending, tokens, line, command, log⟩ := reader
  cases hname : Command.unclosedLabel? (.operator .openParen :: tokens) with
  | some name =>
    obtain ⟨-, rest, htokens, hnext⟩ := unclosedLabel?_eq_some_iff.mp hname
    cases htokens
    simp only [Line.remarks, hname]
    match rest with
    | [] => exact .ok _ _
    | .number digits :: rest => exact .ok _ _
    | .identifier next :: rest => exact .ok _ _
    | .invalid text :: rest => exact .ok _ _
    | .operator op :: rest =>
      cases op with
      | closeParen => exact absurd rfl hnext
      | _ => exact .ok _ _
  | none =>
    simp only [Line.remarks, hname, List.append_nil]
    match tokens with
    | [] => exact .error _ _
    | .number digits :: rest => exact .error _ _
    | .operator op :: rest => exact .error _ _
    | .invalid text :: rest => exact .error _ _
    | .identifier name :: rest =>
      have hnext : rest.head? = some (.operator .closeParen) := by
        by_contra hnext
        have hsome := unclosedLabel?_eq_some_iff.mpr ⟨hvalid, rest, rfl, hnext⟩
        rw [hname] at hsome
        cases hsome
      obtain ⟨rest, rfl⟩ := List.head?_eq_some_iff.mp hnext
      exact .ok _ _

/-- A command is remarked on as soon as its first tokens are taken. -/
theorem agrees_command (first : Token) (reader : QueuedReader)
    (hvalid : (first :: reader.tokens).any Token.isInvalid = false) :
    Agrees
      { reader with
        log := reader.log ++ (⟨reader.line, first :: reader.tokens⟩ : Line).remarks }
      (Command.takeCommand (first :: reader.tokens)) ((Step.command first).run reader) := by
  by_cases hfirst : first = .operator .openParen
  · subst hfirst
    exact agrees_label reader hvalid
  · -- Only a label is remarked on.
    have hname : Command.unclosedLabel? (first :: reader.tokens) = none := by
      rw [Option.eq_none_iff_forall_ne_some]
      intro name hsome
      obtain ⟨-, rest, htokens, -⟩ := unclosedLabel?_eq_some_iff.mp hsome
      exact hfirst (List.cons.inj htokens).1
    simp only [Line.remarks, hname, List.append_nil]
    cases first with
    | operator op =>
      cases op with
      | atSign => exact agrees_address reader
      | openParen => exact absurd rfl hfirst
      | _ => exact agrees_compute _ reader
    | _ => exact agrees_compute _ reader

/-! ## One call -/

/-- How reading the tokens of a line ends: with the command of the line and its remarks, and with
    some of the tokens left in the queue. -/
def Ended (line : Line) (pending : List Line) (log : List Event) (rest : List Token) :
    EStateM.Result Error QueuedReader Bool :=
  match line.command? with
  | .ok command => .ok command.isSome ⟨pending, rest, line.number, command, log ++ line.remarks⟩
  | .error error => .error error ⟨pending, rest, line.number, none, log ++ line.remarks⟩

/-- The tokens in the queue are read as the line that they are on. -/
theorem run_readTokens (line : Line) (pending : List Line) (log : List Event) :
    ∃ rest, Step.readTokens.run ⟨pending, line.tokens, line.number, none, log⟩ =
      Ended line pending log rest := by
  obtain ⟨number, tokens⟩ := line
  cases tokens with
  | nil => exact ⟨[], rfl⟩
  | cons first tokens =>
    cases hfind : (first :: tokens).find? Token.isInvalid with
    | some token =>
      have hany : (first :: tokens).any Token.isInvalid = true :=
        List.any_eq_true.mpr ⟨token, List.mem_of_find?_eq_some hfind, List.find?_some hfind⟩
      refine ⟨first :: tokens, ?_⟩
      simp only [Step.readTokens, EStateM.run_bind, EStateM.run_get, hfind, Ended, Line.command?,
        Command.ofTokens, Line.remarks, Command.unclosedLabel?, hany, if_true, List.append_nil]
      rfl
    | none =>
      have hvalid : (first :: tokens).any Token.isInvalid = false := by
        rw [List.any_eq_false]
        exact List.find?_eq_none.mp hfind
      have hcommand := agrees_command first ⟨pending, tokens, number, none, log⟩ hvalid
      have hrun : Step.readTokens.run ⟨pending, first :: tokens, number, none, log⟩ =
          (Step.wholeLine first).run ⟨pending, tokens, number, none, log⟩ := by
        simp only [Step.readTokens, EStateM.run_bind, EStateM.run_get, hfind]
        rfl
      simp only [hrun, Step.wholeLine, EStateM.run_bind, Ended, Line.command?, Command.ofTokens,
        hfind]
      generalize Command.takeCommand (first :: tokens) = taken,
        (Step.command first).run ⟨pending, tokens, number, none, log⟩ = outcome at hcommand
      -- The command is there, and what is left of the line decides; or the line is refused.
      cases hcommand with
      | ok command rest =>
        cases rest with
        | nil => exact ⟨[], rfl⟩
        | cons token rest => exact ⟨rest, rfl⟩
      | error fault rest => exact ⟨rest, rfl⟩

/-- A call does what it does without a queue, whatever the calls before it have left in the queue,
    as the command, as the number of the line and in the log. -/
theorem advance_eq (reader : QueuedReader) :
    reader.advance.1 = reader.toReader.advance.1 ∧
      reader.advance.2.toReader = reader.toReader.advance.2 := by
  obtain ⟨pending, tokens, line, command, log⟩ := reader
  cases pending with
  | nil => exact ⟨rfl, rfl⟩
  | cons next pending =>
    obtain ⟨rest, hrest⟩ := run_readTokens next pending []
    have hrun : Step.nextLine.run ⟨next :: pending, tokens, line, command, []⟩ =
        Ended next pending [] rest := hrest
    have hpending : (toReader ⟨next :: pending, tokens, line, command, log⟩).pending =
        next :: pending := rfl
    rw [advance, hrun, Ended]
    cases hcommand : next.command? with
    | ok command =>
      rw [Reader.advance_of_ok hpending hcommand]
      exact ⟨rfl, rfl⟩
    | error error =>
      rw [Reader.advance_of_error hpending hcommand]
      exact ⟨rfl, rfl⟩

/-- The same holds of any number of calls. -/
theorem toReader_iterate_advance (count : Nat) (reader : QueuedReader) :
    ((fun reader : QueuedReader => reader.advance.2)^[count] reader).toReader =
      (fun reader : Reader => reader.advance.2)^[count] reader.toReader := by
  have hcall : Function.Semiconj toReader (fun reader : QueuedReader => reader.advance.2)
      (fun reader : Reader => reader.advance.2) :=
    fun reader => (advance_eq reader).2
  exact hcall.iterate_right count reader

end HackAssembler.QueuedReader

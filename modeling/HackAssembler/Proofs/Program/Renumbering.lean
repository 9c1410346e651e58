/-
  HackAssembler.Proofs.Program.Renumbering

  The numbers of lines have no influence on a program. Two sources whose lines hold the same
  commands are assembled alike (`Program.agreesUpTo_of_sameUpTo`): each pass is a walk through the
  lines, each step of it keeps line numbers only in words and errors, and reads none of them.
-/
import HackAssembler.Program.Assemble
import HackAssembler.Program.Renumbering
import HackAssembler.Proofs.Line
import HackAssembler.Proofs.Report

namespace HackAssembler

open Report (Corresponds)

variable {place : Nat → Nat}

/-! ## Numbers of lines -/

/-- Numbers that are all different can be changed into any others. -/
theorem exists_map_eq {numbers others : List Nat} (hnodup : numbers.Nodup)
    (hlength : numbers.length = others.length) :
    ∃ place : Nat → Nat, numbers.map place = others := by
  refine ⟨fun number => others.getD (numbers.idxOf number) 0, ?_⟩
  apply List.ext_getElem
  · rw [List.length_map, hlength]
  · intro index _ hindex
    rw [List.getElem_map, hnodup.idxOf_getElem index _, List.getD_eq_getElem?_getD,
      List.getElem?_eq_getElem hindex, Option.getD_some]

/-- The lines of a source can be given any numbers. -/
theorem Line.exists_place (source : String) {numbers : List Nat}
    (hlength : (ofSource source).length = numbers.length) :
    ∃ place : Nat → Nat, (ofSource source).map (fun line => place line.number) = numbers := by
  have hnodup : ((ofSource source).map Line.number).Nodup :=
    (List.pairwise_map.mpr (pairwise_ofSource source)).imp Nat.ne_of_lt
  obtain ⟨place, hplace⟩ := exists_map_eq hnodup ((List.length_map _).trans hlength)
  rw [List.map_map] at hplace
  exact ⟨place, hplace⟩

/-- Two lines that hold the same command, or are refused for the same reason. -/
structure Line.SameUpTo (place : Nat → Nat) (line other : Line) : Prop where
  number : other.number = place line.number
  command? : other.command? = line.command?.mapError (Error.renumber place)

/-- A line at another place holds the same command. -/
theorem Line.sameUpTo_renumber (place : Nat → Nat) (line : Line) :
    line.SameUpTo place (line.renumber place) where
  number := rfl
  command? := by
    obtain ⟨number, tokens⟩ := line
    unfold Line.command?
    cases tokens with
    | nil => rfl
    | cons token tokens =>
      simp only [Line.renumber]
      cases Command.ofTokens (token :: tokens) <;> rfl

theorem Line.SameUpTo.read {line other : Line} (h : line.SameUpTo place other) :
    Corresponds id (Error.renumber place) line.read other.read := by
  show other.command? = _
  rw [h.command?, Except.map_id]
  rfl

/-! ## Labels -/

namespace Labels

theorem corresponds_bind (labels : Labels) (line : Nat) (name : String) :
    Corresponds id (Error.renumber place) (labels.bind line name)
      (labels.bind (place line) name) := by
  unfold bind
  cases Binary.field? 16 labels.instructions with
  | some address => exact .of_ok rfl rfl
  | none => exact .of_error rfl rfl

theorem corresponds_addCommand (labels : Labels) (line : Nat) (command : Command) :
    Corresponds id (Error.renumber place) (labels.addCommand line command)
      (labels.addCommand (place line) command) := by
  cases command with
  | label name => exact corresponds_bind labels line name
  | address symbol => exact .of_ok rfl rfl
  | compute dest comp jump => exact .of_ok rfl rfl

theorem corresponds_addLine {line other : Line} (h : line.SameUpTo place other)
    (labels : Labels) :
    Corresponds id (Error.renumber place) (labels.addLine line) (labels.addLine other) := by
  refine h.read.bind fun command? => ?_
  cases command? with
  | none => exact .of_ok rfl rfl
  | some command =>
    show Corresponds _ _ _ (labels.addCommand other.number command)
    rw [h.number]
    exact corresponds_addCommand labels line.number command

theorem corresponds_ofLines {lines others : List Line}
    (h : List.Forall₂ (Line.SameUpTo place) lines others) :
    Corresponds id (Error.renumber place) (ofLines lines) (ofLines others) := by
  rw [ofLines, ofLines]
  exact Corresponds.fold h (fun labels _ _ hline => corresponds_addLine hline labels) start

end Labels

/-! ## Words -/

namespace Emission

/-- The words of the commands on other lines. -/
def renumber (place : Nat → Nat) (emission : Emission) : Emission :=
  { emission with words := emission.words.map (Word.renumber place) }

@[simp] theorem symbols_renumber (place : Nat → Nat) (emission : Emission) :
    (emission.renumber place).symbols = emission.symbols := rfl

@[simp] theorem nextVariable_renumber (place : Nat → Nat) (emission : Emission) :
    (emission.renumber place).nextVariable = emission.nextVariable := rfl

theorem literal_renumber (place : Nat → Nat) (line : Nat) (digits : String) :
    literal (place line) digits =
      (literal line digits).mapError (Error.renumber place) := by
  unfold literal
  cases Text.readDecimal? digits with
  | none => rfl
  | some value =>
    by_cases hvalue : value < literalBound
    · simp only [if_pos hvalue]
      rfl
    · simp only [if_neg hvalue]
      rfl

theorem addressOf_renumber (place : Nat → Nat) (emission : Emission) (line : Nat)
    (name : String) : (emission.renumber place).addressOf (place line) name =
      (emission.addressOf line name).mapError (Error.renumber place) := by
  unfold addressOf
  rw [symbols_renumber]
  cases emission.symbols.get? name <;> rfl

theorem corresponds_allocate (emission : Emission) (line : Nat) (name : String) :
    Corresponds (Emission.renumber place) (Error.renumber place)
      (emission.allocate line name)
      ((emission.renumber place).allocate (place line) name) := by
  unfold allocate
  rw [symbols_renumber, nextVariable_renumber]
  by_cases hknown : emission.symbols.contains name = true
  · rw [if_pos hknown, if_pos hknown]
    exact .of_ok rfl rfl
  · rw [if_neg hknown, if_neg hknown]
    cases Binary.field? 16 emission.nextVariable with
    | some address => exact .of_ok rfl rfl
    | none => exact .of_error rfl rfl

theorem corresponds_resolve (emission : Emission) (line : Nat) (symbol : String) :
    Corresponds (Prod.map id (Emission.renumber place)) (Error.renumber place)
      (emission.resolve line symbol)
      ((emission.renumber place).resolve (place line) symbol) := by
  unfold resolve
  by_cases hdecimal : Text.isDecimal symbol = true
  · rw [if_pos hdecimal, if_pos hdecimal, literal_renumber]
    exact (Corresponds.ofExcept _).bind fun value => .of_ok rfl rfl
  · rw [if_neg hdecimal, if_neg hdecimal]
    refine (corresponds_allocate emission line symbol).bind fun next => ?_
    rw [addressOf_renumber]
    exact (Corresponds.ofExcept _).bind fun value => .of_ok rfl rfl

theorem corresponds_push (emission : Emission) (line : Nat) (command : Command)
    (bits : Except EncodeFault MachineWord) :
    Corresponds (Emission.renumber place) (Error.renumber place)
      (emission.push line command bits)
      ((emission.renumber place).push (place line) command bits) := by
  cases bits with
  | ok bits =>
    refine .of_ok rfl ?_
    simp [push, Emission.renumber, Word.renumber]
  | error fault => cases fault <;> exact .of_error rfl rfl

theorem corresponds_addCommand (emission : Emission) (line : Nat) (command : Command) :
    Corresponds (Emission.renumber place) (Error.renumber place)
      (emission.addCommand line command)
      ((emission.renumber place).addCommand (place line) command) := by
  cases command with
  | label name => exact .of_ok rfl rfl
  | address symbol =>
    refine (corresponds_resolve emission line symbol).bind fun (value, next) => ?_
    exact corresponds_push next line _ _
  | compute dest comp jump => exact corresponds_push emission line _ _

theorem corresponds_addLine {line other : Line} (h : line.SameUpTo place other)
    (emission : Emission) :
    Corresponds (Emission.renumber place) (Error.renumber place) (emission.addLine line)
      ((emission.renumber place).addLine other) := by
  refine h.read.bind fun command? => ?_
  cases command? with
  | none => exact .of_ok rfl rfl
  | some command =>
    show Corresponds _ _ _ ((emission.renumber place).addCommand other.number command)
    rw [h.number]
    exact corresponds_addCommand emission line.number command

theorem corresponds_ofLines {lines others : List Line}
    (h : List.Forall₂ (Line.SameUpTo place) lines others) (symbols : SymbolTable) :
    Corresponds (Emission.renumber place) (Error.renumber place) (ofLines symbols lines)
      (ofLines symbols others) := by
  have hwalk := Corresponds.fold h (fun emission _ _ hline => corresponds_addLine hline emission)
    (start symbols)
  have hstart : (start symbols).renumber place = start symbols := by
    simp [Emission.renumber, start]
  rwa [hstart] at hwalk

end Emission

/-! ## Programs -/

namespace Program

/-- The program of the commands on other lines. -/
def renumber (place : Nat → Nat) (program : Program) : Program :=
  { program with words := program.words.map (Word.renumber place) }

/-- An output file does not tell the lines that its words come from. -/
theorem toText_renumber (place : Nat → Nat) (program : Program) :
    (program.renumber place).toText = program.toText := by
  rw [toText, toText, Program.renumber, List.map_map]
  rfl

theorem corresponds_ofLines {lines others : List Line}
    (h : List.Forall₂ (Line.SameUpTo place) lines others) :
    Corresponds (Program.renumber place) (Error.renumber place) (ofLines lines)
      (ofLines others) := by
  have htell (event other : Event) :
      Corresponds id (Error.renumber place) (Report.tell event) (Report.tell other) :=
    .of_ok rfl rfl
  refine (htell _ _).bind fun _ => (Labels.corresponds_ofLines h).bind fun labels => ?_
  refine (htell _ _).bind fun _ =>
    (Emission.corresponds_ofLines h labels.symbols).bind fun emission => ?_
  refine (htell _ _).bind fun _ => .of_ok rfl ?_
  simp [Program.renumber, Emission.renumber]

/-- Sources with the same commands on their lines are assembled alike. -/
theorem agreesUpTo_of_sameUpTo {lines others : List Line}
    (h : List.Forall₂ (Line.SameUpTo place) lines others) :
    AgreesUpTo place (ofLines lines).result (ofLines others).result := by
  have hlines := corresponds_ofLines h
  cases hresult : (ofLines lines).result with
  | ok program =>
    rw [hlines.result_of_ok hresult]
    exact .program rfl rfl (toText_renumber place program)
  | error error =>
    rw [hlines.result_of_error hresult]
    exact .error error

end Program

end HackAssembler

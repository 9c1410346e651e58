/-
  HackAssembler.Proofs.CommandLine.Spelling

  Which arguments are accepted. Arguments that spell items are read as these items, one behind the
  other (`Draft.readArguments_of_spells`), and arguments that are accepted spell some
  (`Draft.exists_spells`). So a request to assemble is made exactly by the arguments that name an
  input and an output (`names_iff`).
-/
import HackAssembler.CommandLine.Spelling
import Mathlib.Data.List.TakeWhile

namespace HackAssembler.CommandLine

/-! ## Items -/

theorem inputPaths_append (items more : List Item) :
    inputPaths (items ++ more) = inputPaths items ++ inputPaths more :=
  List.filterMap_append

@[simp] theorem inputPaths_map_flag (flags : List Flag) : inputPaths (flags.map .flag) = [] := by
  simp [inputPaths]

namespace Draft

/-- A draft with one item more. -/
def add (draft : Draft) : Item → Draft
  | .flag .louder => { draft with louder := draft.louder + 1 }
  | .flag .words => { draft with wordRequests := draft.wordRequests + 1 }
  | .flag .symbols => { draft with symbolRequests := draft.symbolRequests + 1 }
  | .output path => draft.addOutput (some path)
  | .input path => { draft with input := some path }

/-- A draft with all items of a list more. -/
def addAll (draft : Draft) (items : List Item) : Draft :=
  items.foldl add draft

@[simp] theorem addAll_cons (draft : Draft) (item : Item) (items : List Item) :
    draft.addAll (item :: items) = (draft.add item).addAll items := rfl

theorem addAll_append (draft : Draft) (items more : List Item) :
    draft.addAll (items ++ more) = (draft.addAll items).addAll more :=
  List.foldl_append

/-- A draft takes the items of a list, and at most one input stands in it then. -/
def Admits (draft : Draft) (items : List Item) : Prop :=
  (draft.input.toList ++ inputPaths items).length ≤ 1

/-- Only an input changes the input. -/
theorem input_addAll {items : List Item} (h : inputPaths items = []) (draft : Draft) :
    (draft.addAll items).input = draft.input := by
  induction items generalizing draft with
  | nil => rfl
  | cons item items ih =>
    rcases item with ⟨_ | _ | _⟩ | path | path
    · exact ih h _
    · exact ih h _
    · exact ih h _
    · exact ih h _
    · cases h

/-- Flags and outputs leave room for the inputs behind them. -/
theorem admits_append_iff {draft : Draft} {items more : List Item} (h : inputPaths items = []) :
    draft.Admits (items ++ more) ↔ (draft.addAll items).Admits more := by
  rw [Admits, Admits, inputPaths_append, h, List.nil_append, input_addAll h]

theorem admits_output_iff {draft : Draft} {flags : List Flag} {path : String} {more : List Item} :
    draft.Admits (flags.map .flag ++ .output path :: more) ↔
      ((draft.addAll (flags.map .flag)).add (.output path)).Admits more := by
  rw [admits_append_iff (inputPaths_map_flag flags)]
  have hquiet : inputPaths [.output path] = [] := rfl
  exact admits_append_iff hquiet

/-! ## Letters -/

/-- Flags are read letter by letter. -/
theorem readLetters_flags (draft : Draft) (flags : List Flag) (letters : List Char) :
    draft.readLetters (flags.map Flag.letter ++ letters) =
      (draft.addAll (flags.map .flag)).readLetters letters := by
  induction flags generalizing draft with
  | nil => rfl
  | cons flag flags ih =>
    rw [List.map_cons, List.map_cons, List.cons_append, addAll_cons, ← ih]
    cases flag <;> rfl

/-- The path of an output is what follows its letter, without the `=` in front. -/
theorem readLetters_output (draft : Draft) {signs : List Char} {path : String}
    (hequals : ∀ c ∈ signs, c = '=') (hstart : path.toList.head? ≠ some '=')
    (hne : signs ++ path.toList ≠ []) :
    draft.readLetters ('o' :: (signs ++ path.toList)) = .next (draft.add (.output path)) := by
  have hpath : (signs ++ path.toList).dropWhile (· == '=') = path.toList := by
    rw [List.dropWhile_append_of_pos (by simpa using hequals)]
    cases hlist : path.toList with
    | nil => rfl
    | cons c rest =>
      have hc : (c == '=') = false := by simpa [hlist] using hstart
      rw [List.dropWhile_cons, hc]
      rfl
  rw [readLetters, hpath, String.ofList_toList]
  · rfl
  · exact hne

/-- Letters are flags up to the first that is none. -/
theorem exists_flags (letters : List Char) :
    ∃ (flags : List Flag) (rest : List Char), letters = flags.map Flag.letter ++ rest ∧
      ∀ flag : Flag, rest.head? ≠ some flag.letter := by
  induction letters with
  | nil => exact ⟨[], [], rfl, by simp⟩
  | cons letter letters ih =>
    by_cases hletter : ∃ flag : Flag, letter = flag.letter
    · obtain ⟨flag, rfl⟩ := hletter
      obtain ⟨flags, rest, rfl, hrest⟩ := ih
      exact ⟨flag :: flags, rest, rfl, hrest⟩
    · refine ⟨[], letter :: letters, rfl, fun flag hflag => hletter ⟨flag, ?_⟩⟩
      simpa using hflag

/-- What letters are read as, behind the flags. -/
theorem readLetters_rest (draft : Draft) {rest : List Char}
    (h : ∀ flag : Flag, rest.head? ≠ some flag.letter) :
    (rest = [] ∧ draft.readLetters rest = .next draft) ∨
    (rest = ['o'] ∧ draft.readLetters rest = .awaitOutput draft) ∨
    (∃ path, path ≠ [] ∧ rest = 'o' :: path ∧ draft.readLetters rest =
      .next (draft.addOutput (some (String.ofList (path.dropWhile (· == '=')))))) ∨
    ∃ request, draft.readLetters rest = .done request ∧
      ∀ options, request ≠ .assemble options := by
  unfold readLetters
  split
  · exact .inl ⟨rfl, rfl⟩
  · exact absurd rfl (h .louder)
  · exact absurd rfl (h .words)
  · exact absurd rfl (h .symbols)
  · exact .inr (.inr (.inr ⟨_, rfl, by simp⟩))
  · exact .inr (.inr (.inr ⟨_, rfl, by simp⟩))
  · exact .inr (.inl ⟨rfl, rfl⟩)
  · rename_i path hne
    exact .inr (.inr (.inl ⟨path, hne, rfl, rfl⟩))
  · exact .inr (.inr (.inr ⟨_, rfl, by simp⟩))

/-! ## Arguments -/

theorem isOption_eq_false_iff {argument : String} :
    isOption argument = false ↔ IsPlain argument := by
  rw [isOption, Bool.and_eq_false_iff, bne_eq_false_iff_eq, beq_eq_false_iff_ne]
  rfl

variable {draft next : Draft} {argument : String} {arguments : List String} {items more : List Item}

theorem readArgument_of_isPlain (draft : Draft) (h : IsPlain argument) :
    draft.readArgument argument = draft.addInput argument := by
  unfold readArgument
  rcases h with rfl | h
  · rfl
  · split
    · rename_i htext
      rw [htext] at h
      exact absurd rfl h
    · rename_i htext
      rw [htext] at h
      exact absurd rfl h
    · rfl

theorem readArgument_of_letters (draft : Draft) {letters : List Char}
    (h : argument.toList = '-' :: letters) (hne : letters ≠ []) (hdash : letters.head? ≠ some '-') :
    draft.readArgument argument = draft.readLetters letters := by
  obtain ⟨letter, letters, rfl⟩ := List.exists_cons_of_ne_nil hne
  unfold readArgument
  split
  · rename_i htext
    rw [h] at htext
    cases htext
    exact absurd rfl hdash
  · rename_i htext
    rw [h] at htext
    cases htext
    rfl
  · rename_i hother
    exact absurd h (hother _ _)

theorem readArgument_of_dashes (draft : Draft) {text : List Char}
    (h : argument.toList = '-' :: '-' :: text) :
    draft.readArgument argument = draft.readName (text.dropWhile (· == '-')) := by
  unfold readArgument
  rw [h]
  rfl

/-- Letters are no dashes. -/
theorem head?_letters_ne (flags : List Flag) {rest : List Char} (h : rest.head? ≠ some '-') :
    (flags.map Flag.letter ++ rest).head? ≠ some '-' := by
  cases flags with
  | nil => exact h
  | cons flag flags => cases flag <;> simp [Flag.letter]

theorem isPlain_ne_dashes (h : IsPlain argument) : argument ≠ "--" := by
  rintro rfl
  rcases h with h | h
  · exact absurd h (by decide)
  · exact h rfl

theorem ne_dashes {letters : List Char} (h : argument.toList = '-' :: letters)
    (hdash : letters.head? ≠ some '-') : argument ≠ "--" := by
  rintro rfl
  cases h
  exact absurd rfl hdash

/-- The name of a flag is found behind all dashes and before a `=`. -/
theorem readName_of_flag (draft : Draft) {flag : Flag} {name : String}
    (hname : flag.name? = some name)
    {tail : List Char} (hequals : ∀ c ∈ tail.head?, c = '=') :
    draft.readName (name.toList ++ tail) = .next (draft.add (.flag flag)) := by
  have htail : tail.takeWhile (· != '=') = [] := by
    cases tail with
    | nil => rfl
    | cons c tail =>
      have hc : c = '=' := hequals c rfl
      simp [hc]
  have htake (hmem : ∀ c ∈ name.toList, (c != '=') = true) :
      (name.toList ++ tail).takeWhile (· != '=') = name.toList := by
    rw [List.takeWhile_append_of_pos hmem, htail, List.append_nil]
  cases flag with
  | louder => cases hname
  | words =>
    cases hname
    rw [readName, htake (List.all_eq_true.mp (by decide))]
    rfl
  | symbols =>
    cases hname
    rw [readName, htake (List.all_eq_true.mp (by decide))]
    rfl

/-! ## From spellings to drafts -/

theorem readArguments_of_next (hne : argument ≠ "--")
    (h : draft.readArgument argument = .next next) (arguments : List String) :
    draft.readArguments (argument :: arguments) = next.readArguments arguments := by
  rw [readArguments, if_neg hne, h]

theorem readArguments_of_awaitOutput (hne : argument ≠ "--")
    (h : draft.readArgument argument = .awaitOutput next) {path : String} (hplain : IsPlain path)
    (arguments : List String) :
    draft.readArguments (argument :: path :: arguments) =
      (next.add (.output path)).readArguments arguments := by
  rw [readArguments, if_neg hne, h]
  simp only [isOption_eq_false_iff.mpr hplain]
  rfl

/-- A draft without an input takes the first one. -/
theorem addInput_of_admits {path : String} (h : draft.Admits (.input path :: items)) :
    draft.addInput path = .next (draft.add (.input path)) ∧
      (draft.add (.input path)).Admits items := by
  cases hinput : draft.input with
  | none =>
    refine ⟨by rw [addInput, hinput]; rfl, ?_⟩
    rw [Admits, hinput] at h
    exact h
  | some other =>
    simp [Admits, hinput, inputPaths] at h

theorem readInputs_of_admits {paths : List String} (h : draft.Admits (paths.map .input)) :
    draft.readInputs paths = (draft.addAll (paths.map .input)).finish := by
  induction paths generalizing draft with
  | nil => rfl
  | cons path paths ih =>
    obtain ⟨hadd, hrest⟩ := addInput_of_admits h
    rw [readInputs, hadd]
    exact ih hrest

/-- An argument with letters is read as flags and what is left of it. -/
theorem readArgument_of_flags (draft : Draft) {flags : List Flag} {rest : List Char}
    (h : argument.toList = '-' :: (flags.map Flag.letter ++ rest))
    (hne : flags.map Flag.letter ++ rest ≠ []) (hdash : rest.head? ≠ some '-') :
    argument ≠ "--" ∧
      draft.readArgument argument = (draft.addAll (flags.map .flag)).readLetters rest := by
  have hletters := head?_letters_ne flags hdash
  exact ⟨ne_dashes h hletters, by
    rw [readArgument_of_letters draft h hne hletters, readLetters_flags]⟩

theorem readArgument_of_named (draft : Draft) {name : String} {flag : Flag}
    {dashes tail : List Char} (hname : flag.name? = some name) (hdashes : ∀ c ∈ dashes, c = '-')
    (hequals : ∀ c ∈ tail.head?, c = '=')
    (h : argument.toList = '-' :: '-' :: (dashes ++ name.toList ++ tail)) :
    argument ≠ "--" ∧ draft.readArgument argument = .next (draft.add (.flag flag)) := by
  have hstart : ∃ c rest, name.toList = c :: rest ∧ (c == '-') = false := by
    cases flag with
    | louder => cases hname
    | words =>
      cases hname
      exact ⟨'s', _, rfl, rfl⟩
    | symbols =>
      cases hname
      exact ⟨'s', _, rfl, rfl⟩
  obtain ⟨c, rest, hlist, hc⟩ := hstart
  constructor
  · rintro rfl
    have hnil : dashes ++ name.toList ++ tail = [] := by
      injection h with _ h
      injection h with _ h
      exact h.symm
    simp [hlist] at hnil
  · have hdrop : (dashes ++ name.toList ++ tail).dropWhile (· == '-') = name.toList ++ tail := by
      rw [List.append_assoc, List.dropWhile_append_of_pos (by simpa using hdashes), hlist,
        List.cons_append, List.dropWhile_cons, hc]
      rfl
    rw [readArgument_of_dashes draft h, hdrop, readName_of_flag draft hname hequals]

/-- Arguments that spell items are read as these, one behind the other. -/
theorem readArguments_of_spells (h : Spells arguments items)
    (hadmits : draft.Admits items) :
    draft.readArguments arguments = (draft.addAll items).finish := by
  -- Along the spelling; the draft grows by the items in front and admits the rest.
  induction h generalizing draft with
  | nil => rfl
  | inputs paths =>
    rw [Draft.readArguments, if_pos rfl]
    exact readInputs_of_admits hadmits
  | input plain rest ih =>
    obtain ⟨hadd, hrest⟩ := addInput_of_admits hadmits
    have hne := isPlain_ne_dashes plain
    rw [readArguments_of_next hne ((readArgument_of_isPlain draft plain).trans hadd), ih hrest]
    rfl
  | @flags argument flags arguments items spelled nonempty rest ih =>
    rw [← List.append_nil (flags.map Flag.letter)] at spelled
    obtain ⟨hne, hread⟩ := draft.readArgument_of_flags spelled (by simpa using nonempty) (by simp)
    rw [readArguments_of_next hne hread, addAll_append]
    exact ih ((admits_append_iff (inputPaths_map_flag flags)).mp hadmits)
  | @named argument name flag dashes tail arguments items named dash equals spelled rest ih =>
    obtain ⟨hne, hread⟩ := draft.readArgument_of_named named dash equals spelled
    rw [readArguments_of_next hne hread, addAll_cons]
    exact ih ((admits_append_iff (inputPaths_map_flag [flag])).mp hadmits)
  | @attached argument path flags signs arguments items equals start nonempty spelled rest ih =>
    obtain ⟨hne, hread⟩ := draft.readArgument_of_flags spelled (by simp) (by simp)
    rw [readLetters_output _ equals start nonempty] at hread
    rw [readArguments_of_next hne hread, addAll_append]
    exact ih (admits_output_iff.mp hadmits)
  | @separate argument path flags arguments items plain spelled rest ih =>
    obtain ⟨hne, hread⟩ := draft.readArgument_of_flags spelled (by simp) (by simp)
    rw [readArguments_of_awaitOutput hne hread plain, addAll_append]
    exact ih (admits_output_iff.mp hadmits)

/-! ## From drafts to spellings -/

theorem outputs_addAll (draft : Draft) (items : List Item) :
    (draft.addAll items).outputs = (outputPaths items).reverse.map some ++ draft.outputs := by
  induction items generalizing draft with
  | nil => rfl
  | cons item items ih =>
    rw [addAll_cons, ih]
    rcases item with ⟨_ | _ | _⟩ | path | path <;> simp [outputPaths, add, addOutput]

/-- What a request to assemble takes from the draft. -/
theorem finish_eq_assemble_iff {options : Options} :
    draft.finish = .assemble options ↔
      (draft.wordRequests ≤ 1 ∧ draft.symbolRequests ≤ 1) ∧
      draft.input = some options.input.text ∧
      draft.outputs = (options.output.map fun path => some path.text).toList ∧
      options.verbosity = draft.verbosity ∧ options.showWords = (draft.wordRequests == 1) ∧
      options.showSymbols = (draft.symbolRequests == 1) := by
  obtain ⟨input, outputs, louder, wordRequests, symbolRequests⟩ := draft
  obtain ⟨⟨path⟩, output, verbosity, showWords, showSymbols⟩ := options
  by_cases honce : wordRequests ≤ 1 ∧ symbolRequests ≤ 1
  · rcases input with _ | input
    · simp [finish, honce]
    · rcases outputs with _ | ⟨_ | first, _ | ⟨second, outputs⟩⟩
      · rcases output with _ | output <;> simp [finish, finish.accept, honce, eq_comm]
      · rcases output with _ | output <;> simp [finish, honce]
      · rcases output with _ | output <;> simp [finish, honce]
      · rcases output with _ | ⟨⟨output⟩⟩ <;> simp [finish, finish.accept, honce, eq_comm]
      · rcases output with _ | output <;> simp [finish, honce]
  · simp [finish, honce]

/-- What an argument looks like. -/
theorem argument_cases (argument : String) :
    IsPlain argument ∨
      (∃ letters, argument.toList = '-' :: letters ∧ letters ≠ [] ∧ letters.head? ≠ some '-') ∨
      ∃ text, argument.toList = '-' :: '-' :: text := by
  cases hlist : argument.toList with
  | nil => exact .inl (.inr (by simp [hlist]))
  | cons c rest =>
    by_cases hdash : c = '-'
    · subst hdash
      rcases rest with _ | ⟨letter, letters⟩
      · refine .inl (.inl ?_)
        rw [← String.ofList_toList (s := argument), hlist]
      · by_cases hletter : letter = '-'
        · subst hletter
          exact .inr (.inr ⟨letters, rfl⟩)
        · exact .inr (.inl ⟨letter :: letters, rfl, by simp, by simpa using hletter⟩)
    · exact .inl (.inr (by simpa [hlist] using hdash))

/-- The name of an option is that of a flag, or reading ends. -/
theorem readName_cases (draft : Draft) (text : List Char) :
    (∃ (flag : Flag) (name : String), flag.name? = some name ∧
      text.takeWhile (· != '=') = name.toList ∧
      draft.readName text = .next (draft.add (.flag flag))) ∨
    ∃ request, draft.readName text = .done request ∧ ∀ options, request ≠ .assemble options := by
  unfold readName
  split
  · rename_i hname
    exact .inl ⟨.words, "show", rfl, by rw [← hname, String.toList_ofList], rfl⟩
  · rename_i hname
    exact .inl ⟨.symbols, "symbols", rfl, by rw [← hname, String.toList_ofList], rfl⟩
  · exact .inr ⟨_, rfl, by simp⟩
  · exact .inr ⟨_, rfl, by simp⟩
  · exact .inr ⟨_, rfl, by simp⟩

/-- An argument is read as the items that it spells. -/
structure Reads (draft : Draft) (argument : String) (items : List Item) : Prop where
  next : draft.readArgument argument = .next (draft.addAll items)
  input : (draft.addAll items).input.toList = draft.input.toList ++ inputPaths items
  spells : ∀ {arguments more}, Spells arguments more →
    Spells (argument :: arguments) (items ++ more)

theorem none_not_mem_of_addAll (h : none ∉ (draft.addAll items).outputs) :
    none ∉ draft.outputs := by
  rw [outputs_addAll, List.mem_append, not_or] at h
  exact h.2

theorem Reads.admits (h : draft.Reads argument items) (hadmits : (draft.addAll items).Admits more) :
    draft.Admits (items ++ more) := by
  rwa [Admits, inputPaths_append, ← List.append_assoc, ← h.input]

/-- What does not fit in front of a character ends with the first that does not. -/
theorem head?_dropWhile {p : Char → Bool} {text : List Char} {c : Char}
    (h : (text.dropWhile p).head? = some c) : p c = false := by
  have hhead := List.head?_dropWhile_not p text
  rwa [h] at hhead

/-- What becomes of an argument: it is read as some items, or it announces an output, or it ends the
    reading without a request to assemble. -/
inductive Handles (draft : Draft) (argument : String) : Prop where
  | items {items : List Item} (reads : draft.Reads argument items)
  | awaits {flags : List Flag} (spelled : argument.toList = '-' :: (flags.map Flag.letter ++ ['o']))
      (reads : draft.readArgument argument = .awaitOutput (draft.addAll (flags.map .flag)))
  | ends {request : Request} (reads : draft.readArgument argument = .done request)
      (refused : ∀ options, request ≠ .assemble options)

theorem handles_of_isPlain (draft : Draft) (h : IsPlain argument) : draft.Handles argument := by
  have hread := readArgument_of_isPlain draft h
  cases hinput : draft.input with
  | none =>
    rw [addInput, hinput] at hread
    have hnext : draft.readArgument argument = .next (draft.addAll [.input argument]) := hread
    refine .items ⟨hnext, ?_, .input h⟩
    rw [hinput]
    rfl
  | some other =>
    rw [addInput, hinput] at hread
    exact .ends hread (by simp)

/-- What follows the letter of an output is a row of `=`, and then the path. -/
theorem exists_signs (text : List Char) :
    ∃ signs, signs ++ (String.ofList (text.dropWhile (· == '='))).toList = text ∧
      (∀ c ∈ signs, c = '=') ∧
      (String.ofList (text.dropWhile (· == '='))).toList.head? ≠ some '=' := by
  rw [String.toList_ofList]
  refine ⟨text.takeWhile (· == '='), List.takeWhile_append_dropWhile, ?_, ?_⟩
  · intro c hc
    simpa using List.mem_takeWhile_imp hc
  · intro hhead
    cases head?_dropWhile hhead

theorem handles_of_letters (draft : Draft) {letters : List Char}
    (hlist : argument.toList = '-' :: letters) (hne : letters ≠ [])
    (hdash : letters.head? ≠ some '-') : draft.Handles argument := by
  obtain ⟨flags, rest, rfl, hrest⟩ := exists_flags letters
  have hread := readArgument_of_letters draft hlist hne hdash
  rw [readLetters_flags] at hread
  have hquiet := inputPaths_map_flag flags
  rcases readLetters_rest (draft.addAll (flags.map .flag)) hrest with
    ⟨rfl, hletters⟩ | ⟨rfl, hletters⟩ | ⟨path, hpath, rfl, hletters⟩ | ⟨request, hletters, hrefused⟩
  · rw [List.append_nil] at hlist hne
    refine .items ⟨hread.trans hletters, ?_, .flags hlist (by simpa using hne)⟩
    rw [hquiet, List.append_nil, input_addAll hquiet]
  · exact .awaits hlist (hread.trans hletters)
  · obtain ⟨signs, hsplit, hsigns, hstart⟩ := exists_signs path
    generalize String.ofList (path.dropWhile (· == '=')) = output at hsplit hstart hletters
    have hnone : inputPaths (flags.map .flag ++ [.output output]) = [] := by
      rw [inputPaths_append, hquiet]
      rfl
    have hnext : draft.readArgument argument =
        .next (draft.addAll (flags.map .flag ++ [.output output])) := by
      rw [addAll_append]
      exact hread.trans hletters
    refine .items ⟨hnext, ?_, fun hmore => ?_⟩
    · rw [hnone, List.append_nil, input_addAll hnone]
    · rw [List.append_assoc, List.singleton_append]
      exact .attached hsigns hstart (by rwa [hsplit]) (by rwa [hsplit]) hmore
  · exact .ends (hread.trans hletters) hrefused

theorem handles_of_dashes (draft : Draft) {text : List Char}
    (hlist : argument.toList = '-' :: '-' :: text) : draft.Handles argument := by
  have hread := readArgument_of_dashes draft hlist
  rcases readName_cases draft (text.dropWhile (· == '-')) with
    ⟨flag, name, hname, htake, hnext⟩ | ⟨request, hdone, hrefused⟩
  · -- The name stands behind the dashes and before the first `=`.
    have hsplit : text = text.takeWhile (· == '-') ++ name.toList ++
        (text.dropWhile (· == '-')).dropWhile (· != '=') := by
      rw [← htake, List.append_assoc, List.takeWhile_append_dropWhile,
        List.takeWhile_append_dropWhile]
    have hquiet : inputPaths [.flag flag] = [] := inputPaths_map_flag [flag]
    have hflag : draft.readArgument argument = .next (draft.addAll [.flag flag]) :=
      hread.trans hnext
    refine .items ⟨hflag, ?_, fun hmore => ?_⟩
    · rw [hquiet, List.append_nil, input_addAll hquiet]
    · rw [hsplit] at hlist
      refine .named hname ?_ ?_ hlist hmore
      · intro c hc
        simpa using List.mem_takeWhile_imp hc
      · intro c hc
        simpa using head?_dropWhile hc
  · exact .ends (hread.trans hdone) hrefused

theorem handles (draft : Draft) (argument : String) : draft.Handles argument := by
  rcases argument_cases argument with hplain | ⟨letters, hlist, hne, hdash⟩ | ⟨text, hlist⟩
  · exact draft.handles_of_isPlain hplain
  · exact draft.handles_of_letters hlist hne hdash
  · exact draft.handles_of_dashes hlist

theorem none_not_mem_of_finish {options : Options} (h : draft.finish = .assemble options) :
    none ∉ draft.outputs := by
  rw [(finish_eq_assemble_iff.mp h).2.2.1]
  cases options.output <;> simp

theorem admits_of_readInputs {paths : List String} {options : Options}
    (h : draft.readInputs paths = .assemble options) :
    none ∉ draft.outputs ∧ draft.Admits (paths.map .input) := by
  induction paths generalizing draft with
  | nil =>
    refine ⟨none_not_mem_of_finish h, ?_⟩
    cases hinput : draft.input <;> simp [Admits, inputPaths, hinput]
  | cons path paths ih =>
    rw [readInputs] at h
    cases hinput : draft.input with
    | none =>
      rw [addInput, hinput] at h
      obtain ⟨hnone, hadmits⟩ := ih h
      refine ⟨hnone, ?_⟩
      rw [Admits, hinput]
      exact hadmits
    | some other =>
      rw [addInput, hinput] at h
      cases h

/-- Arguments that are accepted spell items, and every announced output had its path. -/
theorem exists_spells {options : Options} {draft : Draft} : (arguments : List String) →
    draft.readArguments arguments = .assemble options →
      none ∉ draft.outputs ∧ ∃ items, Spells arguments items ∧ draft.Admits items
  | [], h => by
    refine ⟨none_not_mem_of_finish h, [], .nil, ?_⟩
    cases hinput : draft.input <;> simp [Admits, inputPaths, hinput]
  | argument :: arguments, h => by
    by_cases hne : argument = "--"
    · subst hne
      obtain ⟨hnone, hadmits⟩ := admits_of_readInputs h
      exact ⟨hnone, _, .inputs arguments, hadmits⟩
    rcases draft.handles argument with ⟨hreads⟩ | @⟨flags, hlist, hread⟩ | ⟨hread, hrefused⟩
    · rw [readArguments_of_next hne hreads.next] at h
      obtain ⟨hnone, more, hmore, hadmits⟩ := exists_spells arguments h
      exact ⟨none_not_mem_of_addAll hnone, _, hreads.spells hmore, hreads.admits hadmits⟩
    · cases arguments with
      | nil =>
        rw [readArguments, if_neg hne, hread] at h
        exact absurd (by simp [addOutput]) (none_not_mem_of_finish h)
      | cons path arguments =>
        cases hplain : isOption path with
        | true =>
          -- What looks like an option is no path, and the output stays without one.
          rw [readArguments, if_neg hne, hread] at h
          simp only [hplain, if_true] at h
          obtain ⟨hnone, -⟩ := exists_spells (path :: arguments) h
          exact absurd (by simp [addOutput]) hnone
        | false =>
          rw [isOption_eq_false_iff] at hplain
          rw [readArguments_of_awaitOutput hne hread hplain] at h
          obtain ⟨hnone, more, hmore, hadmits⟩ := exists_spells arguments h
          have hnone' : none ∉ (draft.addAll (flags.map .flag ++ [.output path])).outputs := by
            rwa [addAll_append]
          exact ⟨none_not_mem_of_addAll hnone', _, .separate hplain hlist hmore,
            admits_output_iff.mpr hadmits⟩
    · rw [readArguments, if_neg hne, hread] at h
      exact absurd h (hrefused options)

/-- How often a flag was given. -/
def requests (draft : Draft) : Flag → Nat
  | .louder => draft.louder
  | .words => draft.wordRequests
  | .symbols => draft.symbolRequests

theorem requests_addAll (draft : Draft) (items : List Item) (flag : Flag) :
    (draft.addAll items).requests flag = draft.requests flag + items.count (.flag flag) := by
  induction items generalizing draft with
  | nil => rfl
  | cons item items ih =>
    have hadd : (draft.add item).requests flag =
        draft.requests flag + if item = .flag flag then 1 else 0 := by
      rcases item with ⟨_ | _ | _⟩ | path | path <;> cases flag <;> rfl
    rw [addAll_cons, ih, hadd, List.count_cons]
    simp only [beq_iff_eq]
    omega

/-- The input of a draft that admits the items is the one among them. -/
theorem toList_input_addAll (h : draft.Admits items) :
    (draft.addAll items).input.toList = draft.input.toList ++ inputPaths items := by
  induction items generalizing draft with
  | nil => exact (List.append_nil _).symm
  | cons item items ih =>
    by_cases hquiet : inputPaths [item] = []
    · rw [← List.singleton_append, admits_append_iff hquiet] at h
      have hrest := ih h
      rw [input_addAll hquiet] at hrest
      rw [← List.singleton_append, inputPaths_append, hquiet, List.nil_append]
      exact hrest
    · rcases item with flag | path | path
      · exact absurd rfl hquiet
      · exact absurd rfl hquiet
      · have hrest := ih (addInput_of_admits h).2
        cases hinput : draft.input with
        | none => exact hrest
        | some other => simp [Admits, hinput, inputPaths] at h

end Draft

/-! ## Requests -/

/-- A request to assemble is made exactly by the arguments that name its input and its output. -/
theorem names_iff {arguments : List String} {input : Path} {output : Option Path} :
    Names arguments input output ↔
      ∃ options, Request.ofArguments arguments = .assemble options ∧ options.input = input ∧
        options.output = output := by
  have hrequests (items : List Item) (flag : Flag) :
      (({} : Draft).addAll items).requests flag = items.count (.flag flag) := by
    rw [Draft.requests_addAll]
    cases flag <;> exact Nat.zero_add _
  have houtputs (items : List Item) (output : Option Path) :
      (({} : Draft).addAll items).outputs = (output.map fun path => some path.text).toList ↔
        outputPaths items = (output.map Path.text).toList := by
    rw [Draft.outputs_addAll, List.append_nil]
    cases output <;> simp
  constructor
  · rintro ⟨items, hspells, hinput, houtput, hwords, hsymbols⟩
    have hadmits : ({} : Draft).Admits items := by simp [Draft.Admits, hinput]
    have htoList := Draft.toList_input_addAll hadmits
    rw [hinput] at htoList
    have hfinal : (({} : Draft).addAll items).input = some input.text := by
      simpa using htoList
    have hfinish : (({} : Draft).addAll items).finish =
        .assemble ⟨input, output, (({} : Draft).addAll items).verbosity,
          (({} : Draft).addAll items).wordRequests == 1,
          (({} : Draft).addAll items).symbolRequests == 1⟩ :=
      Draft.finish_eq_assemble_iff.mpr
        ⟨⟨(hrequests items .words).trans_le hwords, (hrequests items .symbols).trans_le hsymbols⟩,
          hfinal, (houtputs items output).mpr houtput, rfl, rfl, rfl⟩
    exact ⟨_, (Draft.readArguments_of_spells hspells hadmits).trans hfinish, rfl, rfl⟩
  · rintro ⟨options, hrequest, rfl, rfl⟩
    obtain ⟨-, items, hspells, hadmits⟩ := Draft.exists_spells arguments hrequest
    rw [Request.ofArguments, Draft.readArguments_of_spells hspells hadmits,
      Draft.finish_eq_assemble_iff] at hrequest
    obtain ⟨⟨hwords, hsymbols⟩, hinput, houtput, -⟩ := hrequest
    have htoList := Draft.toList_input_addAll hadmits
    rw [hinput] at htoList
    exact ⟨items, hspells, htoList.symm, (houtputs items options.output).mp houtput,
      (hrequests items .words).symm.trans_le hwords,
      (hrequests items .symbols).symm.trans_le hsymbols⟩

end HackAssembler.CommandLine

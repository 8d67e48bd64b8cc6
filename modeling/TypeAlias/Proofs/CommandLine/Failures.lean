import TypeAlias.Proofs.CommandLine.Entry
import TypeAlias.Proofs.CommandLine.Printing
import TypeAlias.Proofs.Diagnostics.Findings

/-!
# Failures to load definitions

Definitions cannot be used for many reasons. Whether a command says so depends on the class of the
error that comes out of reading their file. It is one of the program, except where a handler was
forgotten: for a name that nothing can have, for a file that is no text, and for a text of which a
reader says something else than that it is malformed.
-/

namespace TypeAlias

open CommandLine Data Definitions Files

namespace Definitions

/-- Every error of a computation is of a class. -/
def FailsOnlyWith {α : Type} (c : ErrorClass) (r : Except LoadError α) : Prop :=
  ∀ e, r = .error e → e.errorClass.isA c = true

/-- A file fails to be read in a way for which there is no handler. -/
inductive Overlooked (l : Location) : FileState → Prop where
  /-- Nothing can have the name of the file. -/
  | unnameable : Overlooked l .unnameable
  /-- The file is not UTF-8. -/
  | notText {content : ByteArray} (h : String.fromUTF8? content = none) :
    Overlooked l (.file content)
  /-- The reader of the format fails with something else than an error of syntax. -/
  | stumbling {content : ByteArray} {text : String} (h : String.fromUTF8? content = some text)
    (hdata : ¬ FailsOnlyWith (Format.ofLocation l).syntaxClass
      (readData (.ofLocation l) (Text.unifyLineEnds text.toList))) :
    Overlooked l (.file content)

variable {α β : Type} {c : ErrorClass} {r : Except LoadError α} {f : α → Except LoadError β}
  {l : Location} {state : FileState} {e : LoadError}

theorem failsOnlyWith_ok (a : α) : FailsOnlyWith c (.ok a) := by
  rintro _ ⟨⟩

theorem failsOnlyWith_error : FailsOnlyWith c (.error e : Except LoadError α) ↔
    e.errorClass.isA c = true := by
  constructor
  · exact fun h => h e rfl
  · rintro h _ ⟨⟩
    exact h

theorem FailsOnlyWith.bind (hr : FailsOnlyWith c r) (hf : ∀ a, r = .ok a → FailsOnlyWith c (f a)) :
    FailsOnlyWith c (r >>= f) := by
  cases r with
  | error e => exact failsOnlyWith_error.mpr (hr e rfl)
  | ok a => exact hf a rfl

/-- An error of definitions is one of the program. -/
theorem FailsOnlyWith.program (hr : FailsOnlyWith .definitions r) : FailsOnlyWith .program r := by
  intro e he
  have hclass := hr e he
  cases h : e.errorClass <;> rw [h] at hclass <;> first | rfl | cases hclass

/-! ## Handlers -/

/-- Where the handler is there for all errors, there are none but errors of definitions. -/
theorem FailsOnlyWith.answering (hr : FailsOnlyWith c r) (describe : LoadError → String) :
    FailsOnlyWith .definitions (r.mapError (.answering c describe)) := by
  cases r with
  | error e =>
    apply failsOnlyWith_error.mpr
    rw [LoadError.answering, if_pos (hr e rfl)]
    rfl
  | ok a => exact failsOnlyWith_ok a

/-- A reader knows nothing of definitions. -/
theorem not_program_of_readData {format : Format} {text : List Char}
    (h : readData format text = .error e) : e.errorClass.isA .program = false := by
  cases format with
  | json =>
    unfold readData at h
    cases hr : Json.read text with
    | ok v =>
      rw [hr] at h
      cases h
    | error failure =>
      rw [hr] at h
      cases h
      obtain ⟨fault, remaining⟩ := failure
      cases fault <;> rfl
  | yaml =>
    unfold readData at h
    cases hr : Yaml.read text with
    | ok v =>
      rw [hr] at h
      cases h
    | error fault =>
      rw [hr] at h
      cases h
      change fault.errorClass.isA .program = false
      cases fault with
      | notCharacter code =>
        dsimp only [Yaml.Fault.errorClass]
        split <;> rfl
      | _ => rfl

/-- Whatever is wrong with the data of a document, there is a handler for it. -/
theorem Document.failsOnlyWith_ofData (p : Part) :
    FailsOnlyWith .definitions (Document.ofData p) := by
  apply FailsOnlyWith.answering
  cases Document.ofPart p with
  | error issues => exact failsOnlyWith_error.mpr rfl
  | ok d => exact failsOnlyWith_ok d

theorem readText_eq_ok {path : String} {content : ByteArray} {text : String}
    (h : String.fromUTF8? content = some text) :
    readText path (.file content) = .ok (Text.unifyLineEnds text.toList) := by
  rw [readText, h]

theorem readText_eq_notText {path : String} {content : ByteArray}
    (h : String.fromUTF8? content = none) : readText path (.file content) = .error .notText := by
  rw [readText, h]

/-- Unless its file is overlooked, a document is read or there is an error of definitions. -/
theorem Document.failsOnlyWith_ofFile (h : ¬ Overlooked l state) :
    FailsOnlyWith .definitions (Document.ofFile l state) := by
  have htext : FailsOnlyWith .system (readText l.text state) := by
    cases state with
    | unnameable => exact absurd .unnameable h
    | file content =>
      cases hd : String.fromUTF8? content with
      | none => exact absurd (.notText hd) h
      | some text =>
        rw [readText_eq_ok hd]
        exact failsOnlyWith_ok _
    | _ => exact failsOnlyWith_error.mpr rfl
  have hdata (text : List Char) (ht : readText l.text state = .ok text) :
      FailsOnlyWith (Format.ofLocation l).syntaxClass (readData (.ofLocation l) text) := by
    cases state with
    | file content =>
      cases hd : String.fromUTF8? content with
      | none =>
        rw [readText_eq_notText hd] at ht
        cases ht
      | some s =>
        rw [readText_eq_ok hd] at ht
        cases ht
        exact not_not.mp fun hdata => h (.stumbling hd hdata)
    | _ => cases ht
  unfold Document.ofFile
  refine (htext.answering _).bind fun text ht => ?_
  exact ((hdata text (mapError_eq_ok ht)).answering _).bind fun p _ => failsOnlyWith_ofData p

/-- If it is overlooked, the error goes past all handlers, and it is not one of the program. -/
theorem Document.ofFile_of_overlooked (h : Overlooked l state) :
    ∃ e, Document.ofFile l state = .error e ∧ e.errorClass.isA .program = false := by
  cases h with
  | unnameable => exact ⟨.unnameable, rfl, rfl⟩
  | notText hd =>
    unfold Document.ofFile
    rw [readText_eq_notText hd]
    exact ⟨.notText, rfl, rfl⟩
  | stumbling hd hdata =>
    unfold FailsOnlyWith at hdata
    push Not at hdata
    obtain ⟨e, he, hclass⟩ := hdata
    have hpast : LoadError.answering (Format.ofLocation l).syntaxClass
        (syntaxMessage (.ofLocation l) l.text) e = e := by
      rw [LoadError.answering, if_neg hclass]
    unfold Document.ofFile
    rw [readText_eq_ok hd]
    refine ⟨e, ?_, not_program_of_readData he⟩
    dsimp only [Except.mapError, bind, Except.bind]
    rw [he]
    exact congrArg Except.error hpast

/-- A document is read or there is an error of definitions, just when its file is not
overlooked. -/
theorem Document.failsOnlyWith_ofFile_iff :
    FailsOnlyWith .definitions (Document.ofFile l state) ↔ ¬ Overlooked l state := by
  refine ⟨fun hfails h => ?_, failsOnlyWith_ofFile⟩
  obtain ⟨e, he, hclass⟩ := ofFile_of_overlooked h
  rw [hfails.program e he] at hclass
  cases hclass

end Definitions

/-- Errors of registration are errors of the program. -/
theorem RegistrationError.errorClass_isA (e : RegistrationError) :
    e.errorClass.isA .program = true := by
  cases e <;> rfl

/-- Definitions are loaded or there is an error of the program, just when their file is not
overlooked. -/
theorem Session.failsOnlyWith_ofFile_iff {guarded : Bool} {l : Location} {state : FileState} :
    FailsOnlyWith .program (Session.ofFile guarded l state) ↔ ¬ Overlooked l state := by
  unfold Session.ofFile
  constructor
  · intro hfails h
    obtain ⟨e, he, hclass⟩ := Document.ofFile_of_overlooked h
    rw [he] at hfails
    rw [hfails e rfl] at hclass
    cases hclass
  · intro h
    refine (Document.failsOnlyWith_ofFile h).program.bind fun d _ => ?_
    refine FailsOnlyWith.bind ?_ fun s _ => failsOnlyWith_ok _
    cases Session.ofDocument guarded d with
    | error e => exact failsOnlyWith_error.mpr e.errorClass_isA
    | ok s => exact failsOnlyWith_ok s

namespace CommandLine

/-- The session on the definitions in a file. -/
def Surroundings.load (s : Surroundings) (file : String) (guarded : Bool) :
    Except LoadError Session :=
  Session.ofFile guarded (.ofText file) (s.lookup (Location.ofText file).text)

variable {s : Surroundings} {file : String} {guarded : Bool} {command : Command} {e : LoadError}

/-- A question about definitions that cannot be used has no answer. -/
theorem answer_of_error {α : Type} {question : Environment → Query α}
    {show? : Except QueryError α → Outcome} (h : s.load file guarded = .error e) (verbose : Bool) :
    answer s verbose file guarded question show? = reported [.program] s "" (.load e) := by
  unfold Surroundings.load at h
  unfold answer
  dsimp only
  rw [h]

/-- A question is answered by the session on the definitions. -/
theorem answer_of_ok {α : Type} {question : Environment → Query α}
    {show? : Except QueryError α → Outcome} {session session' : Session}
    {a : Except QueryError α} (h : s.load file guarded = .ok session)
    (ha : session.ask question = (a, session')) (verbose : Bool) :
    answer s verbose file guarded question show? =
      { show? a with err := noticeLines verbose session'.notices ++ (show? a).err } := by
  unfold Surroundings.load at h
  unfold answer
  dsimp only
  rw [h]
  dsimp only
  rw [ha]

/-- When its definitions cannot be used, every command ends in the same way. -/
theorem run_of_error (hc : command.file? = some (file, guarded))
    (h : s.load file guarded = .error e) (verbose : Bool) :
    command.run s verbose = reported [.program] s "" (.load e) := by
  cases command with
  | serve host port => cases hc
  | check file' guarded' eager json =>
    cases hc
    unfold Surroundings.load at h
    have hl : Analysis.load { location := .ofText file, guarded, eager }
        (s.lookup (Location.ofText file).text) = throw (.load e) := by
      rw [Analysis.load, h]
    have hr : (Analysis.report { location := .ofText file, guarded, eager }
        (s.lookup (Location.ofText file).text)).outcome =
        (.error (.load e), { progress := [⟨.loading, 0, 1⟩] }) := by
      rw [Analysis.outcome, Analysis.report, hl]
      rfl
    rw [Command.run, check]
    dsimp only
    rw [hr]
    rfl
  | deps file' name guarded' =>
    cases hc
    rw [Command.run, answer_of_error h]
  | order file' guarded' =>
    cases hc
    rw [Command.run, answer_of_error h]
  | components file' guarded' =>
    cases hc
    rw [Command.run, answer_of_error h]

/-- An outcome is not that an error of loading has escaped. -/
def KeepsLoading (o : Outcome) : Prop :=
  ∀ e, o.uncaught ≠ some (.error (.load e))

theorem keepsLoading_printing {texts : List String} {o : Outcome} (h : KeepsLoading o) :
    KeepsLoading (printing s texts o) := by
  induction texts with
  | nil => exact h
  | cons text rest ih =>
    rw [printing]
    split
    · rintro e ⟨⟩
    · exact ih

theorem keepsLoading_reported {handled : List ErrorClass} {err : String} {e : QueryError} :
    KeepsLoading (reported handled s err (.query e)) := by
  unfold reported
  split <;> rintro _ ⟨⟩

theorem keepsLoading_answer {α : Type} {question : Environment → Query α}
    {show? : Except QueryError α → Outcome} {session : Session}
    (h : s.load file guarded = .ok session) (hshow : ∀ a, KeepsLoading (show? a))
    (verbose : Bool) : KeepsLoading (answer s verbose file guarded question show?) := by
  rw [answer_of_ok h rfl]
  exact hshow _

theorem keepsLoading_empty : KeepsLoading {} := by
  rintro _ ⟨⟩

/-- When they can, no error of loading escapes. -/
theorem keepsLoading_run (hc : command.file? = some (file, guarded)) {session : Session}
    (h : s.load file guarded = .ok session) (verbose : Bool) :
    KeepsLoading (command.run s verbose) := by
  cases command with
  | serve host port => cases hc
  | check file' guarded' eager json =>
    cases hc
    have hr := Analysis.outcome_report { location := .ofText file, guarded, eager }
      (s.lookup (Location.ofText file).text)
    unfold Surroundings.load at h
    rw [h] at hr
    rw [Command.run, check]
    generalize (Analysis.report _ _).outcome = o at hr
    obtain ⟨_, state⟩ := o
    cases hr
    dsimp only
    cases session.env.findings guarded false with
    | error e => exact keepsLoading_reported
    | ok r => exact keepsLoading_printing (by rintro _ ⟨⟩)
  | deps file' name guarded' =>
    cases hc
    refine keepsLoading_answer h (fun a => ?_) verbose
    cases a with
    | error e => exact keepsLoading_reported
    | ok p => exact keepsLoading_printing keepsLoading_empty
  | order file' guarded' =>
    cases hc
    refine keepsLoading_answer h (fun a => ?_) verbose
    cases a with
    | error e =>
      dsimp only
      split <;> rintro _ ⟨⟩
    | ok names => exact keepsLoading_printing keepsLoading_empty
  | components file' guarded' =>
    cases hc
    refine keepsLoading_answer h (fun a => ?_) verbose
    cases a with
    | error e => rintro _ ⟨⟩
    | ok cs => exact keepsLoading_printing keepsLoading_empty

theorem reported_of_program (h : e.errorClass.isA .program = true) :
    reported [.program] s "" (.load e) = failed s "" e.message := by
  have hany : [ErrorClass.program].any (AnalysisError.load e).errorClass.isA = true := by
    rw [List.any_cons, AnalysisError.errorClass, h]
    rfl
  exact if_pos hany

theorem reported_of_not_program (h : e.errorClass.isA .program = false) :
    reported [.program] s "" (.load e) = aborted "" (.load e) := by
  have hany : [ErrorClass.program].any (AnalysisError.load e).errorClass.isA = false := by
    rw [List.any_cons, AnalysisError.errorClass, h]
    rfl
  exact if_neg (Bool.eq_false_iff.mp hany)

/-- The definitions in an overlooked file are not loaded, and the error escapes from every
command. -/
theorem run_of_overlooked (hc : command.file? = some (file, guarded))
    (h : Overlooked (.ofText file) (s.lookup (Location.ofText file).text))
    (he : s.load file guarded = .error e) (verbose : Bool) :
    command.run s verbose = aborted "" (.load e) := by
  obtain ⟨e', hdocument, hclass⟩ := Document.ofFile_of_overlooked h
  unfold Surroundings.load Session.ofFile at he
  rw [hdocument] at he
  cases he
  rw [run_of_error hc, reported_of_not_program hclass]
  rw [Surroundings.load, Session.ofFile, hdocument]
  rfl

/-- Any other error of loading ends every command with a message. -/
theorem run_of_not_overlooked (hc : command.file? = some (file, guarded))
    (h : ¬ Overlooked (.ofText file) (s.lookup (Location.ofText file).text))
    (he : s.load file guarded = .error e) (verbose : Bool) :
    command.run s verbose = failed s "" e.message := by
  rw [run_of_error hc he, reported_of_program (Session.failsOnlyWith_ofFile_iff.mpr h e he)]

theorem run_of_locked {arguments : List String} {verbose : Bool}
    (h : Asks arguments verbose command) (hc : command.file? = some (file, guarded))
    (hs : s.lookup file = .locked) :
    run s arguments = misused s ⟨some command.name, .fileLocked "DEFINITIONS" file⟩ := by
  rw [run_of_asks h hc, fileOperand, hs]

theorem run_of_file {arguments : List String} {verbose : Bool} {content : ByteArray}
    (h : Asks arguments verbose command) (hc : command.file? = some (file, guarded))
    (hs : s.lookup file = .file content) : run s arguments = command.run s verbose := by
  rw [run_of_asks h hc, fileOperand, hs]

end CommandLine

open CommandLine in
/-- A document is read or there is an error of definitions, and definitions are loaded or there is
an error of the program, unless their file is overlooked. When the program is asked for a command
about a file that is there, it refuses one that must not be read; otherwise the error of an
overlooked file escapes, and every other error of loading is reported. -/
theorem loading_reported (guarded : Bool) (l : Location) (state : FileState) :
    (FailsOnlyWith .definitions (Document.ofFile l state) ↔ ¬ Overlooked l state) ∧
    (FailsOnlyWith .program (Session.ofFile guarded l state) ↔ ¬ Overlooked l state) ∧
    ∀ (s : Surroundings) (arguments : List String) (verbose : Bool) (command : Command)
      (file : String), Asks arguments verbose command → command.file? = some (file, guarded) →
      l = .ofText file → s.lookup l.text = state →
      (s.lookup file = .locked →
        run s arguments = misused s ⟨some command.name, .fileLocked "DEFINITIONS" file⟩) ∧
      ∀ content, s.lookup file = .file content →
        match Session.ofFile guarded l state with
        | .ok _ => KeepsLoading (run s arguments)
        | .error e =>
          (Overlooked l state → run s arguments = aborted "" (.load e)) ∧
          (¬ Overlooked l state → run s arguments = failed s "" e.message) := by
  refine ⟨Document.failsOnlyWith_ofFile_iff, Session.failsOnlyWith_ofFile_iff, ?_⟩
  rintro s arguments verbose command file h hc rfl rfl
  refine ⟨run_of_locked h hc, fun content hs => ?_⟩
  rw [run_of_file h hc hs]
  cases hload : Session.ofFile guarded (.ofText file) (s.lookup (Location.ofText file).text) with
  | ok session => exact keepsLoading_run hc hload verbose
  | error e =>
    exact ⟨fun ho => run_of_overlooked hc ho hload verbose,
      fun ho => run_of_not_overlooked hc ho hload verbose⟩

/-- A file with one byte, which is not UTF-8. -/
def strayByte : FileState :=
  .file ⟨#[0xff]⟩

/-- A file with an object that does not end. -/
def unclosed : FileState :=
  .file "\x7b".toUTF8

theorem overlooked_strayByte (l : Location) : Overlooked l strayByte :=
  .notText (by decide +kernel)

theorem Document.ofFile_strayByte (l : Location) :
    Document.ofFile l strayByte = .error .notText := by
  have hd : String.fromUTF8? ⟨#[0xff]⟩ = none := by decide +kernel
  unfold Document.ofFile strayByte
  rw [readText_eq_notText hd]
  rfl

theorem Session.ofFile_strayByte (guarded : Bool) (l : Location) :
    Session.ofFile guarded l strayByte = .error .notText := by
  rw [Session.ofFile, Document.ofFile_strayByte]
  rfl

/-- What is said of a file with an object that does not end. -/
def unclosedMessage : String :=
  "Invalid JSON in b.json: Expecting property name enclosed in double quotes: " ++
    "line 1 column 2 (char 1)"

theorem Document.ofFile_unclosed : Document.ofFile (.ofText "b.json") unclosed =
    .error (.definitions unclosedMessage (.notJson ['\x7b'] ⟨.expectingName, 0⟩)) := by
  have hd : String.fromUTF8? "\x7b".toUTF8 = some "\x7b" := by decide +kernel
  unfold Document.ofFile unclosed
  rw [readText_eq_ok hd]
  rfl

open CommandLine in
theorem loading_reported_strayByte :
    ¬ FailsOnlyWith .definitions (Document.ofFile (.ofText "b.json") strayByte) ∧
      ¬ FailsOnlyWith .program (Session.ofFile false (.ofText "b.json") strayByte) ∧
      run { lookup := fun _ => strayByte } ["check", "b.json"] = aborted "" (.load .notText) ∧
      run { lookup := fun _ => unclosed } ["order", "--guarded", "b.json"] =
        failed { lookup := fun _ => unclosed } "" unclosedMessage ∧
      run { lookup := fun _ => .locked } ["components", "b.json"] =
        misused { lookup := fun _ => .locked }
          ⟨some .components, .fileLocked "DEFINITIONS" "b.json"⟩ := by
  obtain ⟨hdocument, hsession, hcheck⟩ := loading_reported false (.ofText "b.json") strayByte
  obtain ⟨hdocument', -, horder⟩ := loading_reported true (.ofText "b.json") unclosed
  obtain ⟨-, -, hcomponents⟩ := loading_reported false (.ofText "b.json") .locked
  have hunclosed : ¬ Overlooked (.ofText "b.json") unclosed := by
    rw [← hdocument', Document.ofFile_unclosed]
    exact failsOnlyWith_error.mpr rfl
  have hload : Session.ofFile true (.ofText "b.json") unclosed =
      .error (.definitions unclosedMessage (.notJson ['\x7b'] ⟨.expectingName, 0⟩)) := by
    rw [Session.ofFile, Document.ofFile_unclosed]
    rfl
  have hescape := (hcheck { lookup := fun _ => strayByte } ["check", "b.json"] false
    (.check "b.json" false true false) "b.json" (by decide +kernel) rfl rfl rfl).2 _ rfl
  have hmessage := (horder { lookup := fun _ => unclosed } ["order", "--guarded", "b.json"] false
    (.order "b.json" true) "b.json" (by decide +kernel) rfl rfl rfl).2 _ rfl
  rw [Session.ofFile_strayByte] at hescape
  rw [hload] at hmessage
  refine ⟨?_, ?_, hescape.1 (overlooked_strayByte _), hmessage.2 hunclosed, ?_⟩
  · exact fun h => hdocument.mp h (overlooked_strayByte _)
  · exact fun h => hsession.mp h (overlooked_strayByte _)
  · exact (hcomponents { lookup := fun _ => .locked } ["components", "b.json"] false
      (.components "b.json" false) "b.json" (by decide +kernel) rfl rfl rfl).1 rfl

open CommandLine in
/-- A file that is not UTF-8 is no document, and neither reading it nor checking it says so. -/
theorem strayByte_escapes :
    ∃ e, Document.ofFile (.ofText "b.json") strayByte = .error e ∧
      e.errorClass.isA .program = false ∧
      run { lookup := fun _ => strayByte } ["check", "b.json"] =
        { exit := 1, uncaught := some (.error (.load e)) } := by
  have hasks : Asks ["check", "b.json"] false (.check "b.json" false true false) := by
    decide +kernel
  have hload : Surroundings.load { lookup := fun _ => strayByte } "b.json" false =
      .error .notText :=
    Session.ofFile_strayByte false _
  refine ⟨.notText, Document.ofFile_strayByte _, rfl, ?_⟩
  rw [run_of_file hasks rfl rfl]
  exact run_of_overlooked rfl (overlooked_strayByte _) hload false

end TypeAlias

import TypeAlias.CommandLine.Program
import TypeAlias.Proofs.Access

/-!
# From arguments to commands

Arguments that ask for a command about a file have it carried out if the file is there and can be
read. Otherwise they are found to be wrong, and nothing else happens.
-/

namespace TypeAlias.CommandLine

open Files

/-- The file that a command is about, and whether recursion may be guarded. -/
def Command.file? : Command → Option (String × Bool)
  | check file guarded _ _ | deps file _ guarded | order file guarded
  | components file guarded => some (file, guarded)
  | serve _ _ => none

/-- The name of a command. -/
def Command.name : Command → CommandName
  | check .. => .check
  | deps .. => .deps
  | order .. => .order
  | components .. => .components
  | serve .. => .serve

/-- Arguments ask for a command if they do so where every file is there and can be read. -/
def Asks (arguments : List String) (verbose : Bool) (command : Command) : Prop :=
  Request.read (fun _ => .file .empty) arguments = .ok (.run verbose command)

instance {arguments : List String} {verbose : Bool} {command : Command} :
    Decidable (Asks arguments verbose command) :=
  decidable_of_iff ((Request.read (fun _ => .file .empty) arguments).toOption =
    some (.run verbose command)) <| by
    unfold Asks
    cases Request.read (fun _ => .file .empty) arguments <;> simp [Except.toOption]

/-- What becomes of a command once its file is looked for. -/
def Command.opened (lookup : String → FileState) (command : Command) : Except Mistake Command :=
  match command.file? with
  | none => .ok command
  | some (file, _) => (fileOperand lookup file).map fun _ => command

variable {lookup : String → FileState} {arguments : List String}
  {verbose guarded : Bool} {command : Command} {file path : String}

theorem eq_of_fileOperand (h : fileOperand lookup path = .ok file) : file = path := by
  unfold fileOperand at h
  split at h <;> cases h <;> rfl

theorem commandOnly_eq_ok {c : Command} {rest : List String}
    (h : commandOnly c rest = .ok command) : rest = [] ∧ c = command := by
  unfold commandOnly at h
  split at h
  · rename_i hrest
    cases h
    exact ⟨List.isEmpty_iff.mp hrest, rfl⟩
  · cases h

/-- A command about one file is the same wherever that file can be read. -/
theorem fileCommand_eq {name : CommandName} {operands : List String} {c : String → Command}
    (h : fileCommand (fun _ => .file .empty) operands c = .ok command)
    (hname : ∀ path, (c path).name = name)
    (hfile : ∀ path, ∃ guarded, (c path).file? = some (path, guarded))
    (lookup : String → FileState) :
    command.name = name ∧ fileCommand lookup operands c = command.opened lookup := by
  cases operands with
  | nil => cases h
  | cons path rest =>
    obtain ⟨rfl, rfl⟩ := commandOnly_eq_ok h
    obtain ⟨guarded, hfile⟩ := hfile path
    refine ⟨hname path, ?_⟩
    unfold fileCommand Command.opened
    rw [hfile]
    dsimp only
    cases hf : fileOperand lookup path with
    | error e => rfl
    | ok file =>
      obtain rfl := eq_of_fileOperand hf
      rfl

/-- What arguments ask for is the same wherever the file can be read. -/
theorem ofArguments_eq {name : CommandName} {a : Arguments OptionKey}
    (h : Command.ofArguments (fun _ => .file .empty) name a = .ok command)
    (lookup : String → FileState) :
    command.name = name ∧ Command.ofArguments lookup name a = command.opened lookup := by
  unfold Command.ofArguments at h ⊢
  cases name <;> dsimp only at h ⊢
  case check => exact fileCommand_eq h (fun _ => rfl) (fun _ => ⟨_, rfl⟩) lookup
  case order => exact fileCommand_eq h (fun _ => rfl) (fun _ => ⟨_, rfl⟩) lookup
  case components => exact fileCommand_eq h (fun _ => rfl) (fun _ => ⟨_, rfl⟩) lookup
  case deps =>
    generalize a.operands = operands at h ⊢
    obtain _ | ⟨path, _ | ⟨text, rest⟩⟩ := operands
    · cases h
    · cases h
    · obtain ⟨rfl, rfl⟩ := commandOnly_eq_ok h
      refine ⟨rfl, ?_⟩
      unfold Command.opened
      dsimp only [Command.file?]
      cases hf : fileOperand lookup path with
      | error e => rfl
      | ok file =>
        obtain rfl := eq_of_fileOperand hf
        rfl
  case serve =>
    -- the service is about no file, so nothing is looked up
    have hserve {port : Int} (hc : commandOnly (.serve ((a.value? .host).getD "127.0.0.1") port)
        a.operands = .ok command) :
        command.name = .serve ∧ command.opened lookup = .ok command := by
      obtain ⟨-, rfl⟩ := commandOnly_eq_ok hc
      exact ⟨rfl, rfl⟩
    split at h
    · obtain ⟨hname, hopened⟩ := hserve h
      exact ⟨hname, h.trans hopened.symm⟩
    · split at h
      · cases h
      · obtain ⟨hname, hopened⟩ := hserve h
        exact ⟨hname, h.trans hopened.symm⟩

theorem read_eq {name : CommandName}
    (h : Command.read (fun _ => .file .empty) name arguments = .ok (some command))
    (lookup : String → FileState) :
    command.name = name ∧
      Command.read lookup name arguments = (command.opened lookup).map some := by
  unfold Command.read at h ⊢
  obtain ⟨a, ha, h⟩ := bind_ok h
  rw [ha]
  dsimp only [bind, Except.bind]
  split at h
  · cases h
  · rename_i hhelp
    obtain ⟨c, hc, h⟩ := bind_ok h
    cases h
    obtain ⟨hname, hopened⟩ := ofArguments_eq hc lookup
    refine ⟨hname, ?_⟩
    rw [if_neg hhelp, hopened]
    cases command.opened lookup <;> rfl

theorem mapError_eq_ok {ε ε' α : Type} {f : ε → ε'} {r : Except ε α} {a : α}
    (h : r.mapError f = .ok a) : r = .ok a := by
  cases r with
  | error e => cases h
  | ok b =>
    cases h
    rfl

/-- The options before the command alone do not ask for one. -/
theorem readGlobal_ne_run : readGlobal arguments ≠ .ok (.inl (.run verbose command)) := by
  intro h
  unfold readGlobal at h
  obtain ⟨a, -, h⟩ := bind_ok h
  split at h <;> cases h

/-- Arguments that ask for a command are read as such if its file can be read. -/
theorem Request.read_of_asks (h : Asks arguments verbose command) (lookup : String → FileState) :
    Request.read lookup arguments =
      ((command.opened lookup).mapError (UsageError.mk (some command.name))).map
        (Request.run verbose) := by
  unfold Asks Request.read at h
  obtain ⟨first, hfirst, h⟩ := bind_ok h
  unfold Request.read
  rw [hfirst]
  obtain request | ⟨verbose', _ | ⟨word, rest⟩⟩ := first
  · cases h
    exact absurd (mapError_eq_ok hfirst) readGlobal_ne_run
  · cases h
  · dsimp only [bind, Except.bind] at h ⊢
    cases hw : CommandName.ofText? word with
    | none =>
      rw [hw] at h
      obtain ⟨second, hsecond, h⟩ := bind_ok h
      obtain request | _ := second
      · cases h
        exact absurd (mapError_eq_ok hsecond) readGlobal_ne_run
      · cases h
    | some name =>
      rw [hw] at h
      obtain ⟨command?, hread, h⟩ := bind_ok h
      obtain _ | c := command?
      · cases h
      · cases h
        obtain ⟨rfl, hread⟩ := read_eq (mapError_eq_ok hread) lookup
        dsimp only
        rw [hread]
        cases command.opened lookup <;> rfl

/-- What the program does when it is asked for a command about a file: it carries the command out,
unless the file cannot be opened, which is a mistake in the arguments. -/
theorem run_of_asks (h : Asks arguments verbose command)
    (hc : command.file? = some (file, guarded)) (s : Surroundings) :
    run s arguments =
      match fileOperand s.lookup file with
      | .ok _ => command.run s verbose
      | .error e => misused s ⟨some command.name, e⟩ := by
  unfold run
  rw [Request.read_of_asks h, Command.opened, hc]
  dsimp only
  cases fileOperand s.lookup file <;> rfl

end TypeAlias.CommandLine

import SystemsRepository.Hexdump.Undump

/-! # The command line of `hexditch.c` -/

namespace SystemsRepository.Hexdump

abbrev Argument := List Char

def colorOption : Argument := "--color".toList

def IsHelp (argument : Argument) : Prop := argument = "-h".toList ∨ argument = "--help".toList

instance (argument : Argument) : Decidable (IsHelp argument) :=
  inferInstanceAs (Decidable (_ ∨ _))

inductive Arguments
  | help
  | unknown (argument : Argument)
  | files (useColor : Bool) (filename : Option Argument)
  deriving DecidableEq, Repr

def IsFile (argument : Argument) (filename : Option Argument) : Prop :=
  argument.head? ≠ some '-' ∧ filename = none

instance (argument : Argument) (filename : Option Argument) :
    Decidable (IsFile argument filename) :=
  inferInstanceAs (Decidable (_ ∧ _))

def parseArguments : List Argument → Bool → Option Argument → Arguments
  | [], useColor, filename => .files useColor filename
  | argument :: arguments, useColor, filename =>
      if argument = colorOption then parseArguments arguments true filename
      else if IsHelp argument then .help
      else if IsFile argument filename then parseArguments arguments useColor (some argument)
      else .unknown argument

structure Exit where
  status : Nat
  stdout : List Char
  stderr : List Char
  deriving DecidableEq, Repr

def helpText (progname : List Char) : List Char :=
  "----------HEXDITCH------------\n\n".toList ++
    "Usage: ".toList ++ progname ++ " [--color] <filename>\n".toList ++
    "Options:\n".toList ++
    "  --color       Enable colored output\n".toList ++
    "  -h, --help    Show this help message\n".toList

/-- `main`, with the files that can be opened, and what `perror` prints for the last error. -/
def hexditchMain (files : Argument → Option (List Byte)) (reason : List Char)
    (progname : List Char) (arguments : List Argument) : Exit :=
  match parseArguments arguments false none with
  | .help => { status := 0, stdout := helpText progname, stderr := [] }
  | .unknown argument =>
      { status := 1
        stdout := helpText progname
        stderr := "unknown argument ".toList ++ argument ++ ['\n'] }
  | .files _ none =>
      { status := 1, stdout := helpText progname, stderr := "No input file given!\n".toList }
  | .files useColor (some filename) =>
      match files filename with
      | none =>
          { status := 1
            stdout := []
            stderr := "Error opening file: ".toList ++ reason ++ ['\n'] }
      | some f => { status := 0, stdout := hexditch useColor f, stderr := [] }

/-! ## Which arguments name a file -/

def operands (arguments : List Argument) : List Argument :=
  arguments.filter fun argument => argument ≠ colorOption

def Names (arguments : List Argument) (name : Argument) : Prop :=
  operands arguments = [name] ∧ name.head? ≠ some '-'

/-- An option for help stands behind no more than a file. -/
def AsksHelp (arguments : List Argument) : Prop :=
  ∃ front option rest, operands arguments = front ++ option :: rest ∧ IsHelp option ∧
    (front = [] ∨ ∃ name : Argument, front = [name] ∧ name.head? ≠ some '-')

theorem IsHelp.head {option : Argument} (isHelp : IsHelp option) :
    option.head? = some '-' := by
  rcases isHelp with rfl | rfl
  · rfl
  · rfl

private theorem operands_color (arguments : List Argument) :
    operands (colorOption :: arguments) = operands arguments := by
  rw [operands, List.filter_cons_of_neg (by simp)]
  rfl

private theorem operands_other {argument : Argument} (other : argument ≠ colorOption)
    (arguments : List Argument) :
    operands (argument :: arguments) = argument :: operands arguments := by
  rw [operands, List.filter_cons_of_pos (by simp [other])]
  rfl

/-- What the loop comes to, by the arguments other than `--color`, where it may have found a
file already. -/
inductive Parsed (useColor : Bool) (filename : Option Argument) : List Argument → Arguments → Prop
  | none : Parsed useColor filename [] (.files useColor filename)
  | named {file : Argument} (isFile : IsFile file filename) :
      Parsed useColor filename [file] (.files useColor (some file))
  | help {option : Argument} {rest : List Argument} (isHelp : IsHelp option) :
      Parsed useColor filename (option :: rest) .help
  | helpBehind {file option : Argument} {rest : List Argument} (isFile : IsFile file filename)
      (isHelp : IsHelp option) : Parsed useColor filename (file :: option :: rest) .help
  | unknown {argument : Argument} {rest : List Argument} (noHelp : ¬IsHelp argument)
      (noFile : ¬IsFile argument filename) :
      Parsed useColor filename (argument :: rest) (.unknown argument)
  | unknownBehind {file argument : Argument} {rest : List Argument} (isFile : IsFile file filename)
      (noHelp : ¬IsHelp argument) :
      Parsed useColor filename (file :: argument :: rest) (.unknown argument)

private theorem parseArguments_parsed (arguments : List Argument) (useColor : Bool)
    (filename : Option Argument) :
    Parsed (useColor || decide (colorOption ∈ arguments)) filename (operands arguments)
      (parseArguments arguments useColor filename) := by
  induction arguments generalizing useColor filename with
  | nil =>
      have same : (useColor || decide (colorOption ∈ ([] : List Argument))) = useColor := by simp
      rw [same]
      exact .none
  | cons argument arguments induction =>
      rw [parseArguments]
      by_cases isColor : argument = colorOption
      · have colored := induction true filename
        rw [if_pos isColor, isColor, operands_color]
        simpa using colored
      · have sameColor : decide (colorOption ∈ argument :: arguments) =
            decide (colorOption ∈ arguments) := by
          simp [Ne.symm isColor]
        rw [if_neg isColor, operands_other isColor, sameColor]
        by_cases isHelp : IsHelp argument
        · rw [if_pos isHelp]
          exact .help isHelp
        · rw [if_neg isHelp]
          by_cases isFile : IsFile argument filename
          · rw [if_pos isFile]
            have rest := induction useColor (some argument)
            have taken : ∀ other, ¬IsFile other (some argument) := fun other file => by
              cases file.2
            generalize operands arguments = others at rest ⊢
            generalize parseArguments arguments useColor (some argument) = outcome at rest ⊢
            cases rest with
            | none => exact .named isFile
            | named another => exact absurd another (taken _)
            | help isHelp => exact .helpBehind isFile isHelp
            | helpBehind another => exact absurd another (taken _)
            | unknown noHelp _ => exact .unknownBehind isFile noHelp
            | unknownBehind another => exact absurd another (taken _)
          · rw [if_neg isFile]
            exact .unknown isHelp isFile

private theorem parsed_help_iff {useColor : Bool} {others : List Argument} {outcome : Arguments}
    (parsed : Parsed useColor none others outcome) :
    outcome = .help ↔ ∃ front option rest, others = front ++ option :: rest ∧
      IsHelp option ∧ (front = [] ∨ ∃ name : Argument, front = [name] ∧
        name.head? ≠ some '-') := by
  have noFile : ∀ {option : Argument}, IsHelp option → ¬option.head? ≠ some '-' :=
    fun isHelp file => file isHelp.head
  constructor
  · intro helped
    cases parsed with
    | none => cases helped
    | named => cases helped
    | help isHelp => exact ⟨[], _, _, rfl, isHelp, .inl rfl⟩
    | helpBehind isFile isHelp => exact ⟨[_], _, _, rfl, isHelp, .inr ⟨_, rfl, isFile.1⟩⟩
    | unknown => cases helped
    | unknownBehind => cases helped
  · rintro ⟨front, option, rest, split, isHelp, few⟩
    rcases few with rfl | ⟨name, rfl, isName⟩
    · cases parsed with
      | none => cases split
      | named isFile =>
          cases split
          exact absurd isFile.1 (noFile isHelp)
      | help => rfl
      | helpBehind => rfl
      | unknown noHelp =>
          cases split
          exact absurd isHelp noHelp
      | unknownBehind isFile =>
          cases split
          exact absurd isFile.1 (noFile isHelp)
    · cases parsed with
      | none => cases split
      | named => cases split
      | help => rfl
      | helpBehind => rfl
      | unknown _ noFile =>
          cases split
          exact absurd ⟨isName, rfl⟩ noFile
      | unknownBehind _ noHelp =>
          cases split
          exact absurd isHelp noHelp

private theorem parsed_file_iff {useColor : Bool} {others : List Argument} {outcome : Arguments}
    (parsed : Parsed useColor none others outcome) {color : Bool} {name : Argument} :
    outcome = .files color (some name) ↔
      color = useColor ∧ others = [name] ∧ name.head? ≠ some '-' := by
  constructor
  · intro isFile
    cases parsed with
    | named file =>
        cases isFile
        exact ⟨rfl, rfl, file.1⟩
    | none => cases isFile
    | help => cases isFile
    | helpBehind => cases isFile
    | unknown => cases isFile
    | unknownBehind => cases isFile
  · rintro ⟨rfl, rfl, isName⟩
    cases parsed with
    | named => rfl
    | help isHelp => exact absurd isHelp.head isName
    | unknown _ noFile => exact absurd ⟨isName, rfl⟩ noFile

/-- The program succeeds exactly if it is asked for help, or if one file is named and can be
opened. It then prints the dump of that file, in colors if they are asked for anywhere, and
what it prints tells the file. In all other cases it prints an error. -/
theorem hexditchMain_status (files : Argument → Option (List Byte)) (reason progname : List Char)
    (arguments : List Argument) :
    ((hexditchMain files reason progname arguments).status = 0 ↔ AsksHelp arguments ∨
      ∃ name f, Names arguments name ∧ files name = some f) ∧
    ((hexditchMain files reason progname arguments).status = 0 ↔
      (hexditchMain files reason progname arguments).stderr = []) ∧
    ∀ name f, Names arguments name → files name = some f →
      (hexditchMain files reason progname arguments).stdout =
        hexditch (colorOption ∈ arguments) f ∧
      undump (hexditchMain files reason progname arguments).stdout = some f := by
  have parsed := parseArguments_parsed arguments false none
  rw [Bool.false_or] at parsed
  have help := parsed_help_iff parsed
  have named := fun color name => @parsed_file_iff _ _ _ parsed color name
  refine ⟨?_, ?_, ?_⟩
  · unfold hexditchMain AsksHelp Names
    rw [← help]
    cases outcome : parseArguments arguments false none with
    | help => simp
    | unknown argument =>
        rw [outcome] at named
        simp only [reduceCtorEq, false_or, false_iff, not_exists, not_and, and_imp, Nat.one_ne_zero]
        intro name f names isName
        exact absurd ((named _ name).mpr ⟨rfl, names, isName⟩) (by simp)
    | files color filename =>
        rw [outcome] at named
        cases filename with
        | none =>
            simp only [reduceCtorEq, false_or, false_iff, not_exists, not_and, and_imp,
              Nat.one_ne_zero]
            intro name f names isName
            exact absurd ((named _ name).mpr ⟨rfl, names, isName⟩) (by simp)
        | some filename =>
            rcases (named color filename).mp rfl with ⟨_, single, isName⟩
            cases opened : files filename with
            | none =>
                simp only [opened, reduceCtorEq, false_or, false_iff, not_exists, not_and, and_imp,
                  Nat.one_ne_zero]
                intro name f names _ isOpen
                rw [single, List.cons.injEq] at names
                rw [← names.1, opened] at isOpen
                cases isOpen
            | some f =>
                simp only [opened, true_iff]
                exact .inr ⟨filename, f, ⟨single, isName⟩, opened⟩
  · unfold hexditchMain
    cases parseArguments arguments false none with
    | help => simp
    | unknown argument => simp
    | files color filename =>
        cases filename with
        | none => simp
        | some filename =>
            cases opened : files filename with
            | none => simp [opened]
            | some f => simp [opened]
  · rintro name f ⟨single, isName⟩ opened
    have outcome := (named _ name).mpr ⟨rfl, single, isName⟩
    rw [hexditchMain, outcome]
    dsimp only
    rw [opened]
    exact ⟨rfl, undump_hexditch _ f⟩

end SystemsRepository.Hexdump

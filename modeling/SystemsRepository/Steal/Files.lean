import SystemsRepository.Foundation.Offsets
import Mathlib.Logic.Function.Basic

/-! # Files and paths

What the copy programs ask of the system: files with contents, and paths that
name them.
-/

namespace SystemsRepository.Steal

open SystemsRepository.Foundation

abbrev Bytes := List UInt8

abbrev Path := List Char

/-- The contents of the files there are. -/
abbrev Files (File : Type u) := File → Option Bytes

namespace Files

variable {File : Type u}

def bytes (files : Files File) (file : File) : Bytes := (files file).getD []

variable [DecidableEq File]

def store (files : Files File) (file : File) (bytes : Bytes) : Files File :=
  Function.update files file (some bytes)

def write (files : Files File) (file : File) (offset : Nat) (buffer : Bytes) : Files File :=
  files.store file (writeAt 0 (files.bytes file) offset buffer)

theorem store_self (files : Files File) (file : File) (bytes : Bytes) :
    files.store file bytes file = some bytes := Function.update_self _ _ _

theorem store_other (files : Files File) {file other : File} (different : other ≠ file)
    (bytes : Bytes) : files.store file bytes other = files other :=
  Function.update_of_ne different _ _

theorem isSome_store {files : Files File} {file other : File} (bytes : Bytes)
    (exist : (files other).isSome) : (files.store file bytes other).isSome := by
  by_cases same : other = file
  · rw [same, store_self]
    rfl
  · rw [store_other files same]
    exact exist

end Files

/-! ## Paths -/

abbrev pathMax : Nat := 4096

def snprintf (text : Path) : Path := text.take (pathMax - 1)

def basename (path : Path) : Path :=
  if path = [] then ['.']
  else
    match path.reverse.dropWhile fun char => char = '/' with
    | [] => ['/']
    | trimmed => (trimmed.takeWhile fun char => char ≠ '/').reverse

/-- What `basename` makes of its argument: the slashes behind the last component
are cut off. -/
def trimSlashes (path : Path) : Path :=
  match path.reverse.dropWhile fun char => char = '/' with
  | [] => path
  | trimmed => trimmed.reverse

theorem trimSlashes_eq {path : Path} (noSlash : path.getLast? ≠ some '/') :
    trimSlashes path = path := by
  rw [← List.head?_reverse] at noSlash
  have kept : (path.reverse.dropWhile fun char => char = '/') = path.reverse := by
    cases reversed : path.reverse with
    | nil => rfl
    | cons char rest =>
        have different : char ≠ '/' := by
          intro slash
          rw [reversed, slash] at noSlash
          exact noSlash rfl
        simp [different]
  rw [trimSlashes, kept]
  split
  next => rfl
  next => rw [List.reverse_reverse]

/-- How the system finds the regular file that a path names, whether or not it
exists yet. A path with its terminator is not longer than `PATH_MAX`, a path that
ends in a slash names no such file, and a slash may be repeated. Directories and FIFOs
are not among these files: a source that is one counts as missing here, where the program opens
it (the copy of a directory is an empty file). -/
structure Kernel (File : Type u) where
  locate : Path → Option File
  isDirectory : Path → Bool
  short : ∀ {path file}, locate path = some file → path.length < pathMax
  noSlash : ∀ {path file}, locate path = some file → path.getLast? ≠ some '/'
  slashes : ∀ {folder : Path}, folder.getLast? = some '/' → ∀ name : Path,
    (folder ++ '/' :: name).length < pathMax →
    locate (folder ++ '/' :: name) = locate (folder ++ name)

theorem snprintf_eq {text : Path} (short : text.length < pathMax) : snprintf text = text :=
  List.take_of_length_le (Nat.le_sub_one_of_lt short)

/-! ## System calls -/

/-- A call succeeds, `read` and `write` with a number of bytes, or it fails. -/
inductive Result
  | done (count : Nat)
  | failed
  deriving DecidableEq, Repr

inductive Progress (State : Type u)
  | running (state : State)
  | returned (status : Nat)

structure Descriptor (File : Type u) where
  file : File
  offset : Nat

def Descriptor.advance {File : Type u} (descriptor : Descriptor File) (count : Nat) :
    Descriptor File :=
  { descriptor with offset := descriptor.offset + count }

namespace Kernel

variable {File : Type u} [DecidableEq File]

def openRead (kernel : Kernel File) (files : Files File) (path : Path) : Result → Option File
  | .done _ => (kernel.locate path).filter fun file => (files file).isSome
  | .failed => none

/-- `open(path, O_WRONLY | O_CREAT | O_TRUNC, 0644)` -/
def openWrite (kernel : Kernel File) (files : Files File) (path : Path) :
    Result → Files File × Option File
  | .done _ =>
      match kernel.locate path with
      | some file => (files.store file [], some file)
      | none => (files, none)
  | .failed => (files, none)

def stat (kernel : Kernel File) (files : Files File) (path : Path) : Result → Bool
  | .done _ => (kernel.locate path).any fun file => (files file).isSome
  | .failed => false

end Kernel

end SystemsRepository.Steal

import LogCodec.Contents

/-! # Files

    What a program can do with files, in any monad: read one, create one and
    write it, tell whether two are the same, and read its standard input.

    - `Files m`: these operations.
    - `Path.isGzip`: does the name of a file say that it is compressed?
    - `FileFault`: why an operation fails. -/

namespace LogCodec

/-! ### Failures -/

/-- Why a file cannot be used. -/
inductive FileFault where
  | notFound
  | notAFolder
  | isAFolder
  | nameTooLong
  | other (reason : String)
deriving DecidableEq

namespace FileFault

/-- The wording of each fault, with the number that the system gives it. -/
def message : FileFault → String
  | notFound => "No such file or directory (os error 2)"
  | notAFolder => "Not a directory (os error 20)"
  | isAFolder => "Is a directory (os error 21)"
  | nameTooLong => "File name too long (os error 36)"
  | other reason => reason

end FileFault

/-! ### Operations -/

/-- The operations on files that are named by paths. -/
structure Files (m : Type → Type) where
  /-- All that the standard input gives. -/
  standardInput : m Contents
  /-- Opens a file and reads it.  Only opening fails here; how reading fails is
      part of the contents. -/
  read : String → m (Except FileFault Contents)
  /-- Do two paths lead to the same file? -/
  isSame : String → String → m Bool
  /-- Makes an empty file, also in the place of one that is there. -/
  create : String → m (Except FileFault Unit)
  /-- Writes a file that was created. -/
  write : String → Bytes → m Unit

/-! ### Names -/

namespace Path

/-- The parts of a path. -/
def parts (path : String) : List String := path.splitOn "/"

/-- The last name of a path, if there is one.  A path that ends in `..` has
    none. -/
def lastName? (path : String) : Option String :=
  ((parts path).reverse.dropWhile fun part => part = "" ∨ part = ".").head?.filter (· ≠ "..")

/-- What follows the last dot of a name.  A dot at the start does not count. -/
def extension? (name : String) : Option String :=
  let reversed := name.toList.reverse
  match reversed.dropWhile (· ≠ '.') with
  | _ :: _ :: _ => some (String.ofList (reversed.takeWhile (· ≠ '.')).reverse)
  | _ => none

/-- Does the path have the extension of compressed files, in either case? -/
def isGzip (path : String) : Bool :=
  match (lastName? path).bind extension? with
  | some extension => extension.toList.map Ascii.lower = ['g', 'z']
  | none => false

end Path

end LogCodec

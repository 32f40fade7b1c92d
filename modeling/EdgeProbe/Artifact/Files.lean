/-!
# Access to files

What the program asks of a file system, whichever it is.
-/

namespace EdgeProbe

inductive FileErrorKind where
  | notFound | alreadyExists | other
  deriving DecidableEq, Inhabited

structure FileError where
  kind : FileErrorKind
  text : String
  deriving DecidableEq, Inhabited

namespace FileError

def noEntry : FileError := ⟨.notFound, "No such file or directory (os error 2)"⟩
def alreadyExists : FileError := ⟨.alreadyExists, "File exists (os error 17)"⟩
def notDirectory : FileError := ⟨.other, "Not a directory (os error 20)"⟩
def isDirectory : FileError := ⟨.other, "Is a directory (os error 21)"⟩
def nameTooLong : FileError := ⟨.other, "File name too long (os error 36)"⟩
def nulInPath : FileError := ⟨.other, "file name contained an unexpected NUL byte"⟩
def notText : FileError := ⟨.other, "stream did not contain valid UTF-8"⟩

end FileError

/-- Operations on files by path, in a monad that has a file system. -/
structure FileAccess (m : Type → Type) where
  readText : String → m (Except FileError String)
  isPresent : String → m Bool
  remove : String → m (Except FileError Unit)
  /-- Writes a file that must not exist. -/
  create : String → List UInt8 → m (Except FileError Unit)
  /-- Writes a file whether it exists or not. -/
  overwrite : String → List UInt8 → m (Except FileError Unit)

end EdgeProbe

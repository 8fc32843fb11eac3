import Intcode.Text.Quoted

/-! # Opening files by name

A name is looked up part by part from the working directory. The parts `.` and empty ones stay where
they are, `..` goes up, and only a directory has parts below it. -/

namespace Intcode.CommandLine

/-- Why a file cannot be opened: the code of the error and its text. -/
structure OpenFault where
  code : Nat
  reason : String
deriving DecidableEq, Repr

namespace OpenFault

def missing : OpenFault := ⟨2, "No such file or directory"⟩

def notDirectory : OpenFault := ⟨20, "Not a directory"⟩

def isDirectory : OpenFault := ⟨21, "Is a directory"⟩

def nameTooLong : OpenFault := ⟨36, "File name too long"⟩

def message (f : OpenFault) (name : String) : String :=
  "[Errno " ++ toString f.code ++ "] " ++ f.reason ++ ": " ++ Text.quote name

end OpenFault

/-- The files of a working directory that has no directories in it. -/
abbrev Directory := List (String × ByteArray)

namespace Directory

/-- Where a name leads, part by part: the working directory, one above it, or a file. -/
inductive Place
  | here
  | above
  | file (bytes : ByteArray)

/-- The most bytes in one part of a name. -/
def partLimit : Nat := 255

/-- The most bytes in a name. -/
def nameLimit : Nat := 4095

def enter (d : Directory) (place : Place) (part : String) : Except OpenFault Place :=
  match place with
  | .file _ => .error .notDirectory
  | .above =>
    if part = "" || part = "." || part = ".." then .ok .above
    else if partLimit < part.utf8ByteSize then .error .nameTooLong
    else .error .missing
  | .here =>
    if part = "" || part = "." then .ok .here
    else if part = ".." then .ok .above
    else if partLimit < part.utf8ByteSize then .error .nameTooLong
    else match d.lookup part with
      | some bytes => .ok (.file bytes)
      | none => .error .missing

/-- The bytes of the file that a name leads to. -/
def open? (d : Directory) (name : String) : Except OpenFault ByteArray :=
  if name = "" then .error .missing
  else if nameLimit < name.utf8ByteSize then .error .nameTooLong
  else
    let start := if name.toList.head? = some '/' then Place.above else Place.here
    let parts := (name.toList.splitOnP (· == '/')).map String.ofList
    match parts.foldlM d.enter start with
    | .error f => .error f
    | .ok (.file bytes) => .ok bytes
    | .ok _ => .error .isDirectory

end Directory

end Intcode.CommandLine

/-!
# Files and directories

A file is looked up by a name whose parts are separated by slashes. Empty parts and parts that are a
single point stand for the directory itself, and two points for the one around it. Outside of the
directory there are no files.

## Main definitions

* `FileFault`: what can go wrong with a file.
* `Directory`, `Directory.file`: the files of a directory, and the octets of one of them.
-/

namespace Treewalk

/-- What can go wrong with a file. -/
inductive FileFault
  /-- There is no file of the name. -/
  | missing
  /-- The name goes through something that is not a directory. -/
  | throughFile
  /-- A part of the name is too long. -/
  | nameTooLong
  /-- The name is that of a directory. -/
  | isDirectory
  /-- The file cannot be opened for another cause, in the wording of the system. -/
  | refused (cause : String)
  deriving DecidableEq

/-- The wording of a fault. -/
def FileFault.message : FileFault → String
  | missing => "No such file or directory (os error 2)"
  | throughFile => "Not a directory (os error 20)"
  | nameTooLong => "File name too long (os error 36)"
  | isDirectory => "Is a directory (os error 21)"
  | refused cause => cause

/-- What was being done to the file: a directory can be opened, but not read. -/
def FileFault.action : FileFault → String
  | isDirectory => "Failed to read file "
  | _ => "Failed to open file "

/-- The files of a directory. -/
abbrev Directory := List (String × List UInt8)

namespace Directory

/-- How many octets a part of a name may have. -/
def partLimit : Nat := 255

/-- How many octets a name may have. -/
def nameLimit : Nat := 4095

/-- What comes of looking a file up, by the parts of its name, outside of the directory. -/
def lookUpOutside : List String → FileFault
  | [] => .isDirectory
  | part :: parts =>
    if ["", ".", ".."].contains part then lookUpOutside parts
    else if partLimit < part.utf8ByteSize then .nameTooLong
    else .missing

/-- Looks a file up by the parts of its name. -/
def lookUp (d : Directory) : List String → Except FileFault (List UInt8)
  | [] => .error .isDirectory
  | part :: parts =>
    if part = "" || part = "." then lookUp d parts
    else if part = ".." then .error (lookUpOutside parts)
    else if partLimit < part.utf8ByteSize then .error .nameTooLong
    else match d.lookup part with
      | some octets => if parts.isEmpty then .ok octets else .error .throughFile
      | none => .error .missing

/-- The octets of a file. A name that begins with a slash leads outside. -/
def file (d : Directory) (name : String) : Except FileFault (List UInt8) :=
  let parts := name.splitOn "/"
  if nameLimit < name.utf8ByteSize then .error .nameTooLong
  else if name.startsWith "/" then .error (lookUpOutside parts)
  else d.lookUp parts

end Directory

end Treewalk

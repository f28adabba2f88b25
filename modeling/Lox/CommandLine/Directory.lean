/-! A directory that holds files and nothing else, and the ways in which a path can
fail to name one of them. -/

namespace Lox.CommandLine

inductive OpenProblem where
  | noSuchFile
  | isDirectory
  | notDirectory
  | nameTooLong
  | other (text : String)
deriving DecidableEq, Repr

def OpenProblem.message : OpenProblem → String
  | noSuchFile => "No such file or directory"
  | isDirectory => "Is a directory"
  | notDirectory => "Not a directory"
  | nameTooLong => "File name too long"
  | other text => text

/-- The names of files with their bytes. -/
abbrev Directory := List (String × List Nat)

/-- The most bytes that a part of a path may have. -/
def maxNameBytes : Nat := 255

/-- The most bytes that a whole path may have. -/
def maxPathBytes : Nat := 4095

namespace Directory

/-- Follows the parts of a path. Once a path has left the directory, it finds other
directories only. A file has to be the last part. -/
def follow (d : Directory) : Bool → List String → Except OpenProblem (List Nat)
  | _, [] => .error .isDirectory
  | inside, part :: rest =>
    if part == "" || part == "." then follow d inside rest
    else if part == ".." then follow d false rest
    else if maxNameBytes < part.utf8ByteSize then .error .nameTooLong
    else
      match if inside then d.lookup part else none with
      | none => .error .noSuchFile
      | some bytes => if rest.isEmpty then .ok bytes else .error .notDirectory

/-- The bytes of the file that a path names. -/
def read (d : Directory) (path : String) : Except OpenProblem (List Nat) :=
  if path.isEmpty then .error .noSuchFile
  else if maxPathBytes < path.utf8ByteSize then .error .nameTooLong
  else d.follow (path.toList.head? != some '/') (path.splitOn "/")

end Directory

end Lox.CommandLine

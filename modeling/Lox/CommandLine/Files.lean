import Lox.Text.Quoted

/-!
# Source files

Why a file cannot be read, and the text of one that can. A text is encoded in UTF-8; a carriage
return ends a line, with or without a newline after it. `Folder` is a folder that is held in memory.
-/
namespace Lox.CommandLine

inductive FileFault where
  | notFound
  | noPermission
  | notAFolder
  | isAFolder
  | nameTooLong
  deriving Repr, DecidableEq

/-- The number of a fault and its name, as the operating system has them. -/
def FileFault.reason : FileFault → Nat × String
  | .notFound => (2, "No such file or directory")
  | .noPermission => (13, "Permission denied")
  | .notAFolder => (20, "Not a directory")
  | .isAFolder => (21, "Is a directory")
  | .nameTooLong => (36, "File name too long")

def FileFault.message (path : String) (fault : FileFault) : String :=
  "[Errno " ++ toString fault.reason.1 ++ "] " ++ fault.reason.2 ++ ": " ++ Text.quoted path

/-- Every line end becomes a newline. -/
def unifyNewlines : List Char → List Char
  | [] => []
  | '\r' :: '\n' :: rest => '\n' :: unifyNewlines rest
  | '\r' :: rest => '\n' :: unifyNewlines rest
  | c :: rest => c :: unifyNewlines rest

/-- The text of a file, if its bytes encode one. -/
def textOf? (bytes : ByteArray) : Option String :=
  (String.fromUTF8? bytes).map fun s => String.ofList (unifyNewlines s.toList)

/-- Files by their path from the folder. -/
abbrev Folder := List (String × ByteArray)

namespace Folder

/-- The longest name in bytes that one part of a path can have. -/
def maxName : Nat := 255

/-- The longest path in bytes. -/
def maxPath : Nat := 4095

/-- Whether a path leads to a folder that holds a file. -/
def holdsFolder (d : Folder) (path : String) : Bool :=
  d.any fun file => (path ++ "/").toList.isPrefixOf file.1.toList

/-- Whether a part of a path stays where it is. -/
def stays (part : String) : Bool := part = "" || part = "."

/-- What a way outside of the folder ends in: nothing there has a name that is known. -/
def outside (parts : List String) : FileFault :=
  if parts.all fun p => stays p || p = ".." then .isAFolder else .notFound

/-- Walks along the parts of a path from the folder below the given ones, the innermost first. -/
def walk (d : Folder) (above : List String) : List String → Except FileFault ByteArray
  | [] => .error .isAFolder
  | part :: rest =>
    if stays part then walk d above rest
    else if part = ".." then
      match above with
      | _ :: outer => walk d outer rest
      | [] => .error (outside rest)
    else if maxName < part.utf8ByteSize then .error .nameTooLong
    else
      let path := "/".intercalate (part :: above).reverse
      match d.lookup path with
      | some bytes => if rest.isEmpty then .ok bytes else .error .notAFolder
      | none => if d.holdsFolder path then walk d (part :: above) rest else .error .notFound

/-- The bytes of the file at a path. -/
def read (d : Folder) (path : String) : Except FileFault ByteArray :=
  if path = "" then .error .notFound
  else if maxPath < path.utf8ByteSize then .error .nameTooLong
  else
    match path.splitOn "/" with
    | "" :: rest => .error (outside rest)
    | parts => d.walk [] parts

end Folder
end Lox.CommandLine

/-!
# Folders

A folder of files in memory, in which paths are looked up the way a file system does.  The folder
lies somewhere in a tree of folders of which nothing else is known: the way up from it leads to
folders, and nothing is found in them by name.
-/

namespace Packrat

/-- Why no text was read. -/
inductive ReadError where
  | notFound
  | notAFolder
  | isAFolder
  | nameTooLong
  | notUtf8
  | other (message : String)
  deriving DecidableEq, Repr

/-- The text that reports the cause. -/
def ReadError.message : ReadError → String
  | .notFound => "No such file or directory (os error 2)"
  | .notAFolder => "Not a directory (os error 20)"
  | .isAFolder => "Is a directory (os error 21)"
  | .nameTooLong => "File name too long (os error 36)"
  | .notUtf8 => "stream did not contain valid UTF-8"
  | .other message => message

/-- Files by the steps of their paths. -/
structure Folder where
  files : List (List String × ByteArray)

namespace Folder

/-- The steps of a path; doubled slashes count as one. -/
def steps (path : String) : List String :=
  match path.splitOn "/" with
  | [] => []
  | first :: rest => first :: rest.map fun step => if step = "" then "." else step

def ofList (files : List (String × ByteArray)) : Folder :=
  ⟨files.map fun (name, content) => ((steps name).filter (· != "."), content)⟩

/-- The bytes that a step of a path may have. -/
def longestName : Nat := 255

/-- The bytes that a path may have. -/
def longestPath : Nat := 4095

/-- Where the steps of a path lead. -/
inductive Place where
  /-- A folder on the way up from the folder at hand. -/
  | above
  | within (steps : List String)
  deriving DecidableEq, Repr

/-- Follows steps from a place, which has to be a folder for every step that is left. -/
def walk (folder : Folder) : Place → List String → Except ReadError ByteArray
  | .above, [] => .error .isAFolder
  | .within place, [] =>
      match folder.files.lookup place with
      | some content => .ok content
      | none => .error .isAFolder
  | .above, step :: rest =>
      if step = "." ∨ step = ".." then walk folder .above rest
      else .error (if longestName < step.utf8ByteSize then .nameTooLong else .notFound)
  | .within place, step :: rest =>
      if (folder.files.lookup place).isSome then .error .notAFolder
      else if step = "." then walk folder (.within place) rest
      else if step = ".." then
        walk folder (if place.isEmpty then .above else .within place.dropLast) rest
      else if longestName < step.utf8ByteSize then .error .nameTooLong
      else
        let next := place ++ [step]
        if folder.files.any fun (file, _) => next.isPrefixOf file then
          walk folder (.within next) rest
        else .error .notFound

/-- The content of the file at a path; a path that begins with a slash leads down from the top. -/
def read (folder : Folder) (path : String) : Except ReadError ByteArray :=
  if path = "" then .error .notFound
  else if longestPath < path.utf8ByteSize then .error .nameTooLong
  else
    match steps path with
    | "" :: rest => folder.walk .above rest
    | names => folder.walk (.within []) names

end Folder

end Packrat

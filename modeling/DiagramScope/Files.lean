import DiagramScope.Failure

/-!
Files by path, as a command sees them, and a directory tree that is held in memory.
-/

set_option autoImplicit false
set_option relaxedAutoImplicit false

namespace DiagramScope

abbrev ReadFile (m : Type → Type) : Type := String → m (Except FileFault String)

/-- Whether a path that was read names something, be it a file that cannot be read. -/
def FileFault.isAbsent : FileFault → Bool
  | missing => true
  | notDirectory => true
  | _ => false

/-- A directory tree: files with their texts, and directories, by their path from the root. -/
structure FileTree where
  files : List (List String × String)
  directories : List (List String)

namespace FileTree

def steps (path : String) : List String :=
  (path.splitOn "/").filter fun name => name ≠ "" && name ≠ "."

def ofList (entries : List (String × Option String)) : FileTree where
  files := entries.filterMap fun (path, text) => text.map fun text => (steps path, text)
  directories := entries.filterMap fun (path, text) =>
    match text with
    | none => some (steps path)
    | some _ => none

def file? (t : FileTree) (names : List String) : Option String :=
  (t.files.find? fun entry => entry.1 = names).map Prod.snd

/-- Whether a path names a directory: one of the tree's, or one on the way to something in it. -/
def isDirectory (t : FileTree) (names : List String) : Bool :=
  names.isEmpty || t.directories.any (names.isPrefixOf ·) ||
    t.files.any fun entry => entry.1 ≠ names && names.isPrefixOf entry.1

/-- Follows the names of a path from a directory. Two dots lead back up, but not out of the tree;
nothing lies behind a file or an absent name. -/
def follow (t : FileTree) (place : List String) : List String → Except FileFault (List String)
  | [] => .ok place
  | name :: rest =>
    if t.isDirectory place then
      if name = "" || name = "." then follow t place rest
      else if name = ".." then
        if place.isEmpty then .error .missing else follow t place.dropLast rest
      else follow t (place ++ [name]) rest
    else if (t.file? place).isSome then .error .notDirectory
    else .error .missing

/-- Reads a file of the tree by its path from the root. No absolute path leads into the tree. -/
def read (t : FileTree) (path : String) : Except FileFault String :=
  if path = "" || path.startsWith "/" then .error .missing
  else
    match follow t [] (path.splitOn "/") with
    | .error fault => .error fault
    | .ok place =>
      match t.file? place with
      | some text => .ok text
      | none => if t.isDirectory place then .error .isDirectory else .error .missing

end FileTree

end DiagramScope

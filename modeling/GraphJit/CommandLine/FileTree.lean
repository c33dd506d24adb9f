import GraphJit.CommandLine.Program

/-! # A tree of files

A model of the files that a command sees: those in its working folder, and those
at places named from the root or above the folder. A path is followed name by
name, and every name but the last has to be a folder.
-/

namespace GraphJit.CommandLine

/-- Where the names of a place begin. -/
inductive Base where
  | root
  /-- So many folders above the working folder. -/
  | above (levels : Nat)
deriving DecidableEq, Repr

/-- A place in the tree, with the innermost name first. -/
structure Spot where
  base : Base := .above 0
  names : List String := []
deriving DecidableEq, Repr

namespace Spot

/-- The folder that a place lies in. The root lies in itself. -/
def parent (spot : Spot) : Spot :=
  match spot.names, spot.base with
  | _ :: outer, _ => { spot with names := outer }
  | [], .above levels => { spot with base := .above (levels + 1) }
  | [], .root => spot

def child (spot : Spot) (name : String) : Spot :=
  { spot with names := name :: spot.names }

/-- One name of a path on from a place. -/
def step (spot : Spot) (name : String) : Spot :=
  if name = "." then spot else if name = ".." then spot.parent else spot.child name

/-- Whether a place lies below another. -/
def isBelow (spot folder : Spot) : Bool :=
  spot.base == folder.base && spot.names != folder.names
    && folder.names.isSuffixOf spot.names

end Spot

/-- A path by its parts. Slashes in a row count as one. -/
structure Path where
  start : Spot
  names : List String
  /-- A slash at the end asks for a folder. -/
  slashAtEnd : Bool
deriving DecidableEq, Repr

/-- Bytes of the longest path. -/
def Path.longest : Nat := 4095

/-- Bytes of the longest name in a path. -/
def Path.longestName : Nat := 255

def Path.ofString (text : String) : Path :=
  let slash := text.toList.head? == some '/'
  { start := if slash then { base := .root } else {}
    names := ((Text.pieces '/' text.toList).filter (!·.isEmpty)).map String.ofList
    slashAtEnd := text.toList.getLast? == some '/' }

def Path.parse (text : String) : Except FileError Path :=
  if text.isEmpty then .error .notFound
  else if Path.longest < text.utf8ByteSize then .error .nameTooLong
  else .ok (Path.ofString text)

inductive FileContent where
  | text (content : String)
  | object (file : ObjectFile)
deriving Repr

/-- The files by their places. A folder is there if it is a base or holds a file. -/
structure FileTree where
  files : List (Spot × FileContent) := []
deriving Repr

namespace FileTree

def file? (tree : FileTree) (spot : Spot) : Option FileContent :=
  tree.files.lookup spot

def isFolder (tree : FileTree) (spot : Spot) : Bool :=
  spot.names.isEmpty || tree.files.any fun entry => entry.1.isBelow spot

/-- One name on from a place, which has to be a folder. -/
def step (tree : FileTree) (spot : Spot) (name : String) : Except FileError Spot :=
  if !tree.isFolder spot then .error .notDirectory
  else if Path.longestName < name.utf8ByteSize then .error .nameTooLong
  else .ok (spot.step name)

/-- One name on from a place to something that is there. -/
def enter (tree : FileTree) (spot : Spot) (name : String) : Except FileError Spot := do
  let next ← tree.step spot name
  if (tree.file? next).isSome || tree.isFolder next then return next
  throw .notFound

/-- Follow names to something that is there. -/
def follow (tree : FileTree) (spot : Spot) (names : List String) : Except FileError Spot :=
  names.foldlM tree.enter spot

/-- The place that a path leads to, for reading. -/
def find (tree : FileTree) (path : String) : Except FileError Spot := do
  let path ← Path.parse path
  let spot ← tree.follow path.start path.names
  if path.slashAtEnd && !tree.isFolder spot then throw .notDirectory
  return spot

/-- What the file at a path holds. -/
def content (tree : FileTree) (path : String) : Except FileError FileContent := do
  match tree.file? (← tree.find path) with
  | some content => return content
  | none => throw .isDirectory

/-- The place that a path leads to, for writing. The last name may be new. -/
def target (tree : FileTree) (path : String) : Except FileError Spot := do
  let path ← Path.parse path
  match path.names.getLast? with
  | none => throw .isDirectory
  | some name =>
    let folder ← tree.follow path.start path.names.dropLast
    if tree.isFolder folder && path.slashAtEnd then throw .isDirectory
    let spot ← tree.step folder name
    if tree.isFolder spot then throw .isDirectory
    return spot

/-- Put a file in its place. -/
def put (tree : FileTree) (spot : Spot) (content : FileContent) : FileTree :=
  { files := (spot, content) :: tree.files }

/-- Put a text where a path says, whatever is there. -/
def putText (tree : FileTree) (path text : String) : FileTree :=
  let path := Path.ofString path
  tree.put (path.names.foldl Spot.step path.start) (.text text)

/-- The object file at a path. -/
def object? (tree : FileTree) (path : String) : Option ObjectFile :=
  match tree.content path with
  | .ok (.object file) => some file
  | _ => none

/-- Files in the working folder. The null device and the input stream stand beside them. -/
def ofTexts (input : String) (texts : List (String × String)) : FileTree :=
  ([("/dev/null", ""), ("/dev/stdin", input)] ++ texts).foldl
    (fun tree (path, text) => tree.putText path text) {}

/-- The command on a tree of files. An object file is not text. -/
def host (input : String) : Host (StateM FileTree) where
  inputText := return .ok input
  textAt path := do
    match (← get).content path with
    | .ok (.text text) => return .ok text
    | .ok (.object _) => return .error .invalidText
    | .error cause => return .error cause
  putObject path file := do
    match (← get).target path with
    | .ok spot =>
      modify fun tree => tree.put spot (.object file)
      return .ok ()
    | .error cause => return .error cause

end FileTree

end GraphJit.CommandLine

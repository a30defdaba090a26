import Namespacing.FileSystem.Operations
set_option autoImplicit false

namespace Namespacing

inductive Tree where
  | folder (children : List (Name × Tree))
  | leaf (isFile : Bool)
  | unreadable (error : IoError)

namespace Tree

/-- A directory that stops a walk: the names that lead to it from the top, and why it cannot be
read. -/
structure Obstacle where
  names : List Name
  error : IoError
  deriving DecidableEq, Repr

abbrev Outcome := Except Obstacle (List (List Name))

namespace Outcome

def under (name : Name) : Outcome → Outcome
  | .ok files => .ok (files.map (name :: ·))
  | .error obstacle => .error { obstacle with names := name :: obstacle.names }

def concat : List Outcome → Outcome
  | [] => .ok []
  | .error obstacle :: _ => .error obstacle
  | .ok files :: rest =>
    match concat rest with
    | .ok more => .ok (files ++ more)
    | .error obstacle => .error obstacle

def inOrder (outcomes : List (Name × Outcome)) : Outcome :=
  concat ((outcomes.mergeSort fun a b => Text.le a.1 b.1).map Prod.snd)

end Outcome

mutual

/-- Walk through an entry. It is taken itself, if it is a file whose name is included, and a directory
is walked through unless its name is excluded. -/
def filesAt (excluded included : Name → Bool) (name : Name) : Tree → Outcome
  | .leaf isFile => .ok (if isFile && included name then [[name]] else [])
  | .folder children =>
    if excluded name then .ok []
    else (Outcome.inOrder (filesOfEach excluded included children)).under name
  | .unreadable error => if excluded name then .ok [] else .error ⟨[name], error⟩

def filesOfEach (excluded included : Name → Bool) : List (Name × Tree) → List (Name × Outcome)
  | [] => []
  | (name, tree) :: rest =>
    (name, filesAt excluded included name tree) :: filesOfEach excluded included rest

end

def files (excluded included : Name → Bool) : Tree → Outcome
  | .leaf _ => .ok []
  | .folder children => Outcome.inOrder (filesOfEach excluded included children)
  | .unreadable error => .error ⟨[], error⟩

end Tree

namespace FileSystem

mutual

def treeOf (fs : FileSystem) (path : Path) : Node → Tree
  | .directory children =>
    match fs.stat path with
    | .ok _ => .folder (fs.treesOf path children)
    | .error error => .unreadable error
  | .file _ => .leaf (fs.pathIsFile path)
  | .link _ => .leaf (fs.pathIsFile path)

def treesOf (fs : FileSystem) (path : Path) : List (Name × Node) → List (Name × Tree)
  | [] => []
  | (name, node) :: rest =>
    (name, fs.treeOf (Path.join path name) node) :: fs.treesOf path rest

end

def tree (fs : FileSystem) (path : Path) : Tree :=
  match fs.stat path with
  | .error error => .unreadable error
  | .ok (place, _) =>
    match fs.node? place with
    | some (.directory children) => .folder (fs.treesOf path children)
    | _ => .unreadable .notDirectory

end FileSystem

end Namespacing

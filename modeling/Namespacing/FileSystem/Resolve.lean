import Namespacing.FileSystem.Basic
import Namespacing.FileSystem.IoError
set_option autoImplicit false

/-!
# Where a path leads

A path is followed segment by segment from the root or the working directory. A symbolic link on the
way is replaced by the segments of its target, forty times at most. Operations differ only in what
becomes of the last name of the path: whether it is looked up, and whether a link there is followed.
-/

namespace Namespacing

inductive Spot where
  /-- At a directory that the path does not name: it ends in a dot, two dots or the root. -/
  | here (place : Location)
  /-- At a name in a directory; there may or may not be an entry with that name. `slash` says that
  slashes follow the name. -/
  | named (parent : Location) (name : Name) (slash : Bool)
  deriving DecidableEq, Repr

inductive Step where
  | through
  | onto
  | before
  deriving DecidableEq, Repr

/-- What becomes of the last name of a path, which depends on whether slashes follow it. -/
structure LastStep where
  step : (slash : Bool) → Step

namespace LastStep

def target : LastStep := ⟨fun _ => .through⟩

def name : LastStep := ⟨fun _ => .onto⟩

def entry : LastStep := ⟨fun slash => if slash then .through else .onto⟩

/-- Look for a file to fill. No file is named with slashes behind it, so that such a name is not even
looked up. -/
def file : LastStep := ⟨fun slash => if slash then .before else .through⟩

end LastStep

namespace FileSystem

def maxLinks : Nat := 40

def maxNameSize : Nat := 255

def maxPathSize : Nat := 4095

def follow {fs : FileSystem} (last : LastStep) (links : Nat) (here : fs.Directory)
    (todo : List Text) : Except IoError Spot :=
  match todo with
  | [] => .ok (.here here.place)
  | segment :: rest =>
    if Path.isIdle segment then follow last links here rest
    else if segment = ['.', '.'] then follow last links here.parent rest
    else
      let isLast := rest.all List.isEmpty
      let slash := !rest.isEmpty
      let step := if isLast then last.step slash else .through
      let spot := Spot.named here.place segment slash
      if step = .before then .ok spot
      else if maxNameSize < Text.utf8Size segment then .error .nameTooLong
      else
        match h : here.children.lookup segment with
        | some (.link target) =>
          if step = .onto then .ok spot
          else
            match links with
            | 0 => .error .tooManyLinks
            | links + 1 =>
              follow last links (if Path.isAbsolute target then Directory.root fs else here)
                (Path.segments target ++ rest)
        | some (.directory _) =>
          if isLast then .ok spot else follow last links (here.enter segment h) rest
        | some (.file _) => if isLast then .ok spot else .error .notDirectory
        | none => if isLast then .ok spot else .error .notFound
termination_by (links, todo.length)

def locate (fs : FileSystem) (last : LastStep) (path : Path) : Except IoError Spot :=
  if List.contains path '\x00' then .error .nulInName
  else if path.isEmpty then .error .notFound
  else if maxPathSize < Text.utf8Size path then .error .nameTooLong
  else
    match if Path.isAbsolute path then some (Directory.root fs)
        else Directory.at? fs fs.workingDirectory with
    | some start => follow last maxLinks start (Path.segments path)
    | none => .error .notFound

def entryAt (fs : FileSystem) : Spot → Except IoError (Location × Entry)
  | .here place => .ok (place, .directory)
  | .named parent name slash =>
    match fs.get? (name :: parent) with
    | none => .error .notFound
    | some .directory => .ok (name :: parent, .directory)
    | some entry => if slash then .error .notDirectory else .ok (name :: parent, entry)

def stat (fs : FileSystem) (path : Path) : Except IoError (Location × Entry) :=
  match fs.locate .target path with
  | .error error => .error error
  | .ok spot => fs.entryAt spot

def linkStat (fs : FileSystem) (path : Path) : Except IoError (Location × Entry) :=
  match fs.locate .entry path with
  | .error error => .error error
  | .ok spot => fs.entryAt spot

def pathExists (fs : FileSystem) (path : Path) : Bool :=
  match fs.stat path with
  | .ok _ => true
  | .error _ => false

def pathIsDirectory (fs : FileSystem) (path : Path) : Bool :=
  match fs.stat path with
  | .ok (_, .directory) => true
  | _ => false

def pathIsFile (fs : FileSystem) (path : Path) : Bool :=
  match fs.stat path with
  | .ok (_, .file _) => true
  | _ => false

end FileSystem

end Namespacing

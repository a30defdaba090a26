import Namespacing.Settings.Basic
import Namespacing.Json.Syntax
set_option autoImplicit false

namespace Namespacing

namespace Settings

/-- The settings by name, in the order of the array form. -/
inductive Key where
  | root
  | functionsSegment
  | excludedDirectories
  | filePattern
  | manifestFile
  | extraGlobals
  deriving DecidableEq, Repr

namespace Key

def all : List Key :=
  [.root, .functionsSegment, .excludedDirectories, .filePattern, .manifestFile, .extraGlobals]

def name : Key → Text
  | .root => "namespace".toList
  | .functionsSegment => "functions_segment".toList
  | .excludedDirectories => "exclude_dirs".toList
  | .filePattern => "include".toList
  | .manifestFile => "manifest_file".toList
  | .extraGlobals => "extra_builtins".toList

def ofName? (name : Text) : Option Key :=
  all.find? fun key => key.name == name

end Key

def assign? (settings : Settings) (key : Key) (value : Text) : Option Settings :=
  match key with
  | .root => (Json.textOf? value).map fun v => { settings with root := v }
  | .functionsSegment => (Json.textOf? value).map fun v => { settings with functionsSegment := v }
  | .excludedDirectories =>
    (Json.textsOf? value).map fun v => { settings with excludedDirectories := v }
  | .filePattern => (Json.textOf? value).map fun v => { settings with filePattern := v }
  | .manifestFile => (Json.textOf? value).map fun v => { settings with manifestFile := v }
  | .extraGlobals => (Json.textsOf? value).map fun v => { settings with extraGlobals := v }

/-- The settings of an object's members; `free` are the names that have not been given yet. -/
def ofMembers? (settings : Settings) (free : List Key) :
    List (Option Text × Text) → Option Settings
  | [] => some settings
  | (none, _) :: _ => none
  | (some name, value) :: members =>
    match Key.ofName? name with
    | none => ofMembers? settings free members
    | some key =>
      if key ∈ free then
        match assign? settings key value with
        | none => none
        | some settings => ofMembers? settings (free.erase key) members
      else none

def ofItems? (settings : Settings) : List Key → List Text → Option Settings
  | _, [] => some settings
  | [], _ :: _ => none
  | key :: free, item :: items =>
    match assign? settings key item with
    | none => none
    | some settings => ofItems? settings free items

def ofJson? (document : Text) : Option Settings :=
  match Json.view? document with
  | some (.object members) => ofMembers? default Key.all members
  | some (.array items) => ofItems? default Key.all items
  | _ => none

end Settings

end Namespacing

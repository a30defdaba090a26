import Namespacing.Manifest
import Namespacing.Path
import Namespacing.Json.Basic
set_option autoImplicit false

namespace Namespacing

inductive Progress where
  | cleaned
  | skipped (path : Path)
  | copied (count : Nat)
  | replacing (count : Nat)
  | done
  deriving DecidableEq, Repr

def Progress.line : Progress → Text
  | .cleaned => "Directory cleaned.".toList
  | .skipped path => "Skipping ".toList ++ path
  | .copied count => Json.digits count ++ " files copied to new location.".toList
  | .replacing count =>
    "Starting replacement of ".toList ++ Json.digits count ++ " strings.".toList
  | .done => "Done.".toList

structure Report where
  root : Text
  directory : Path
  classFiles : List Path
  functionFiles : List Path
  skipped : List Path
  copied : Nat
  renames : Nat
  /-- The release that the list of runtime classes was taken from. -/
  release : Text
  functions : Manifest
  manifestPath : Path
  deriving DecidableEq, Repr

namespace Report

def texts (items : List Text) : Json := .array (items.map .string)

def entry (entry : ManifestEntry) : Json :=
  .sorted [("function".toList, .string entry.function), ("file".toList, .string entry.file),
    ("qualified".toList, .string entry.qualified)]

def members (report : Report) : List (Text × Json) :=
  [("namespace".toList, .string report.root),
   ("namespace_dir".toList, .string report.directory),
   ("class_files".toList, texts report.classFiles),
   ("function_files".toList, texts report.functionFiles),
   ("skipped".toList, texts report.skipped),
   ("copied".toList, .number report.copied),
   ("substitutions".toList, .number report.renames),
   ("builtins_version".toList, .string report.release),
   ("functions".toList, .array (report.functions.map entry)),
   ("manifest_path".toList, .string report.manifestPath)]

end Report

end Namespacing

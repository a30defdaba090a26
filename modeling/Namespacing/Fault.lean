import Namespacing.Json.Basic
import Namespacing.FileSystem.IoError
import Namespacing.Token.Basic
set_option autoImplicit false

namespace Namespacing

inductive Fault where
  | invalidSetting (key : Text) (value? : Option Text) (problem : Text)
  | invalidArgument (field problem : Text)
  | malformedJson (context? : Option Text)
  | sourceNotFound (path : Text)
  | unparsableSource (offset : Nat) (problem : Text)
  | io (error : IoError) (context? : Option Text)
  | json (error : Text) (context? : Option Text)
  | unexpected (error : Text)
  deriving DecidableEq, Repr

structure Diagnostic where
  code : Text
  message : Text
  details : Json
  hints : List Text

def Diagnostic.withHint (diagnostic : Diagnostic) (hint : Text) : Diagnostic :=
  { diagnostic with hints := diagnostic.hints ++ [hint] }

namespace Fault

def ofUnterminated (unterminated : Unterminated) : Fault :=
  .unparsableSource unterminated.offset unterminated.problem

def code : Fault → Text
  | .invalidSetting .. => "config.invalid_value".toList
  | .invalidArgument .. => "validation.invalid_argument".toList
  | .malformedJson .. => "validation.invalid_json".toList
  | .sourceNotFound .. => "source.not_found".toList
  | .unparsableSource .. => "source.unparsable".toList
  | .io .. => "internal.io_error".toList
  | .json .. => "internal.json_error".toList
  | .unexpected .. => "internal.unexpected".toList

def message : Fault → Text
  | .invalidSetting .. => "Invalid configuration value".toList
  | .invalidArgument .. => "Invalid argument".toList
  | .malformedJson .. => "Invalid JSON".toList
  | .sourceNotFound path => "Source directory '".toList ++ path ++ "' not found".toList
  | .unparsableSource .. => "Unparsable source".toList
  | .io .. => "IO error".toList
  | .json .. => "JSON error".toList
  | .unexpected .. => "Unexpected error".toList

/-- What stands for the wording of a JSON fault, which no part of this library depends on. -/
def jsonPlaceholder : Text := "<json>".toList

def optional (name : String) : Option Text → List (Text × Json)
  | some value => [(name.toList, .string value)]
  | none => []

def member (name : String) (value : Text) : Text × Json :=
  (name.toList, .string value)

def details : Fault → Json
  | .invalidSetting key value? problem =>
    .sorted (member "key" key :: member "problem" problem :: optional "value" value?)
  | .invalidArgument field problem => .sorted [member "field" field, member "problem" problem]
  | .malformedJson context? =>
    .sorted [member "error" jsonPlaceholder, ("context".toList, .ofOption context?)]
  | .sourceNotFound path => .sorted [member "path" path]
  | .unparsableSource offset problem =>
    .sorted [("offset".toList, .number offset), member "problem" problem]
  | .io error context? => .sorted (member "error" error.message :: optional "context" context?)
  | .json error context? => .sorted (member "error" error :: optional "context" context?)
  | .unexpected error => .sorted [member "error" error]

def hints : Fault → List Text
  | .sourceNotFound _ => ["The source root must contain a 'src' directory".toList]
  | _ => []

def diagnostic (fault : Fault) : Diagnostic :=
  ⟨fault.code, fault.message, fault.details, fault.hints⟩

def exitCode : Fault → Nat
  | .invalidSetting .. | .invalidArgument .. | .malformedJson .. => 2
  | .sourceNotFound .. => 4
  | .unparsableSource .. => 5
  | .io .. | .json .. | .unexpected .. => 1

end Fault

end Namespacing

import Namespacing.RenameTable.Basic
import Namespacing.Namespace
import Namespacing.Outline
import Namespacing.Manifest
set_option autoImplicit false

/-!
# The renames of symbols

A bare name also occurs inside longer names and in prose, so a name is renamed only where one of a
few marks stands directly before it and one directly after it. Each symbol of a library gives one
rename for each pair of marks. A declaration must keep the bare name, and since the renames before
it qualify that name too, each symbol also gives renames that undo the change behind the keyword of
its declaration.
-/

namespace Namespacing

namespace Frame

def before : List Text :=
  ["(", "\x7b", "[", " ", ";", ".", "!", "'", "\""].map String.toList

def behindClass : List Text :=
  [" ", "\n", ";", "(", ")", "\x7d", "]", ",", "::", "'", "\""].map String.toList

/-- The marks that may stand behind the name of a function: it is called, or it is a callable
string. -/
def behindFunction : List Text :=
  ["(", " (", "'", "\""].map String.toList

def renames (name qualified behind : Text) : List Rename :=
  before.map fun mark => (mark ++ name ++ behind, mark ++ qualified ++ behind)

end Frame

inductive Symbols where
  | globals (names : List Text)
  | classLike (name : Text)
  /-- The functions of one file, which become static methods of its container. -/
  | functions (container : Text) (names : List Text)
  deriving DecidableEq, Repr

namespace Symbols

/-- The renames of classes of the runtime, ordered by the mark behind, the mark before and then the
name. -/
def globalRenames (names : List Text) : List Rename :=
  Frame.behindClass.flatMap fun behind =>
    Frame.before.flatMap fun mark =>
      names.map fun name => (mark ++ name ++ behind, mark ++ '\\' :: name ++ behind)

def classDeclarations (name qualified behind : Text) : List Rename :=
  ClassKind.all.map fun kind =>
    (kind.spelling ++ ' ' :: qualified ++ behind, kind.spelling ++ ' ' :: name ++ behind)

def classRenames (ns : Namespace) (name : Text) : List Rename :=
  Frame.behindClass.flatMap fun behind =>
    Frame.renames name (ns.qualifyClass name) behind ++
      classDeclarations name (ns.qualifyClass name) behind

def functionDeclaration (name qualified behind : Text) : Rename :=
  ("function ".toList ++ qualified ++ behind, "static function ".toList ++ name ++ behind)

def functionRenames (ns : Namespace) (container name : Text) : List Rename :=
  Frame.behindFunction.flatMap fun behind =>
    Frame.renames name (ns.qualifyFunction container name) behind ++
      [functionDeclaration name (ns.qualifyFunction container name) behind]

def renames (ns : Namespace) : Symbols → List Rename
  | .globals names => globalRenames names
  | .classLike name => classRenames ns name
  | .functions container names => names.flatMap (functionRenames ns container)

def manifest (ns : Namespace) : Symbols → Manifest
  | .functions container names =>
    names.map fun name => ⟨name, container, ns.qualifyFunction container name⟩
  | _ => []

/-- The symbols of a file: its class-like declaration, or else its functions, whose container is
named after the file. -/
def ofOutline (container : Text) (outline : Outline) : Symbols :=
  match outline.classLike with
  | some declared => .classLike declared.name
  | none => .functions container outline.functions

end Symbols

def RenameTable.add (ns : Namespace) (table : RenameTable) (symbols : Symbols) : RenameTable :=
  table.insertAll (symbols.renames ns)

def RenameTable.ofSymbols (ns : Namespace) (symbols : List Symbols) : RenameTable :=
  symbols.foldl (RenameTable.add ns) RenameTable.empty

end Namespacing

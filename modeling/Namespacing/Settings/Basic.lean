import Namespacing.Text.Blank
import Namespacing.Namespace
import Namespacing.Fault
set_option autoImplicit false

namespace Namespacing

structure Settings where
  root : Text
  functionsSegment : Text
  excludedDirectories : List Text
  filePattern : Text
  manifestFile : Text
  extraGlobals : List Text
  deriving DecidableEq, Repr

inductive Settings.Defect where
  | root (value : Text)
  | functionsSegment (value : Text)
  | filePattern
  | manifestFile (value : Text)
  deriving DecidableEq, Repr

namespace Settings

def default : Settings where
  root := "Facebook\\Libphutil".toList
  functionsSegment := "Functions".toList
  excludedDirectories := ["__tests__".toList]
  filePattern := "*.php".toList
  manifestFile := "function_mapping.txt".toList
  extraGlobals := []

def trimBackslashes (s : Text) : Text :=
  ((s.dropWhile (· == '\\')).reverse.dropWhile (· == '\\')).reverse

/-- The settings with another root, which may have backslashes at its ends. -/
def withRoot (settings : Settings) (root : Text) : Settings :=
  { settings with root := trimBackslashes root }

def toNamespace (settings : Settings) : Namespace :=
  ⟨settings.root, settings.functionsSegment⟩

/-- A root is one or more identifiers with backslashes between them. -/
def isRoot (root : Text) : Bool :=
  (Text.splitOn '\\' root).all Text.isIdentifier

/-- A manifest file is not empty and has one path component. -/
def isManifestFile (name : Text) : Bool :=
  !name.isEmpty && Path.componentCount name == 1

def defect? (settings : Settings) : Option Defect :=
  if !isRoot settings.root then some (.root settings.root)
  else if !Text.isIdentifier settings.functionsSegment then
    some (.functionsSegment settings.functionsSegment)
  else if Text.isBlank settings.filePattern then some .filePattern
  else if !isManifestFile settings.manifestFile then some (.manifestFile settings.manifestFile)
  else none

def Defect.toFault : Defect → Fault
  | .root value =>
    .invalidSetting "namespace".toList (some value)
      "Expected backslash-separated PHP identifiers, e.g. Vendor\\Package".toList
  | .functionsSegment value =>
    .invalidSetting "functions_segment".toList (some value)
      "Expected a single PHP identifier".toList
  | .filePattern =>
    .invalidSetting "include".toList none "Include pattern cannot be empty".toList
  | .manifestFile value =>
    .invalidSetting "manifest_file".toList (some value) "Expected a plain file name".toList

def check (settings : Settings) : Except Fault Unit :=
  match settings.defect? with
  | some defect => .error defect.toFault
  | none => .ok ()

end Settings

end Namespacing

import Namespacing.RenameTable.Symbols
set_option autoImplicit false

namespace Namespacing

namespace Layout

def openTag : Text := "<?php".toList

def namespaceHeader (name : Text) : Text :=
  openTag ++ "\n\nnamespace ".toList ++ name ++ ";".toList

def indent (text : Text) : Text :=
  text.flatMap fun c => if c = '\n' then "\n  ".toList else [c]

/-- Open the namespace of the functions and a container class behind every open tag, and close the
class at the end. -/
def wrapInContainer (ns : Namespace) (container text : Text) : Text :=
  let header :=
    namespaceHeader ns.functionsRoot ++ "\n\nclass ".toList ++ container ++ " \x7b".toList
  Text.replaceAll openTag header text ++ "\n\x7d\n".toList

def declareNamespace (ns : Namespace) (text : Text) : Text :=
  Text.replaceAll openTag (namespaceHeader ns.root) text

end Layout

/-- What makes a revised text out of the text of a file. -/
structure Revision where
  ns : Namespace
  table : RenameTable

namespace Revision

def functionSource (revision : Revision) (container text : Text) : Text :=
  Layout.wrapInContainer revision.ns container
    (Layout.indent (revision.table.substitute text))

def classSource (revision : Revision) (text : Text) : Text :=
  Layout.declareNamespace revision.ns (revision.table.substitute text)

end Revision

end Namespacing

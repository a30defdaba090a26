import Namespacing.Path
set_option autoImplicit false

namespace Namespacing

/-- The root, without a backslash at either end, and the segment of the function containers. -/
structure Namespace where
  root : Text
  functionsSegment : Text
  deriving DecidableEq, Repr

namespace Namespace

def functionsRoot (ns : Namespace) : Text :=
  ns.root ++ '\\' :: ns.functionsSegment

def qualifyClass (ns : Namespace) (name : Text) : Text :=
  '\\' :: ns.root ++ '\\' :: name

def qualifyFunction (ns : Namespace) (container name : Text) : Text :=
  '\\' :: ns.functionsRoot ++ '\\' :: container ++ "::".toList ++ name

def directory (ns : Namespace) : Path :=
  (Text.splitOn '\\' ns.root).foldl Path.join []

end Namespace

end Namespacing

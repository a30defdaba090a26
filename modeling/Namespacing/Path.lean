import Namespacing.Text.Basic
set_option autoImplicit false

namespace Namespacing

abbrev Path := Text

namespace Path

def isAbsolute (path : Path) : Bool :=
  path.head? == some '/'

/-- Go on from `base` along `path`. An absolute path forgets the base; otherwise one slash stands
between the two, and none is added behind an empty base or a slash. -/
def join (base path : Path) : Path :=
  if isAbsolute path then path
  else if base.isEmpty || base.getLast? == some '/' then base ++ path
  else base ++ '/' :: path

def extend (base : Path) (names : List Text) : Path :=
  names.foldl join base

def segments (path : Path) : List Text :=
  Text.splitOn '/' path

def isIdle (segment : Text) : Bool :=
  segment.isEmpty || segment == ['.']

inductive Root where
  | nothing
  | dot
  | slash
  deriving DecidableEq, Repr

structure Parts where
  root : Root
  body : List Text
  deriving DecidableEq, Repr

/-- Take a path apart. Only a dot at the very front counts as a root. -/
def parts (path : Path) : Parts :=
  match path with
  | '/' :: rest => ⟨.slash, segments rest⟩
  | _ =>
    match segments path with
    | ['.'] :: body => ⟨.dot, body⟩
    | body => ⟨.nothing, body⟩

def Parts.toPath : Parts → Path
  | ⟨.slash, body⟩ => '/' :: Text.joinWith ['/'] body
  | ⟨.dot, body⟩ => Text.joinWith ['/'] (['.'] :: body)
  | ⟨.nothing, body⟩ => Text.joinWith ['/'] body

def trimIdle (body : List Text) : List Text :=
  (body.reverse.dropWhile isIdle).reverse

def componentCount (path : Path) : Nat :=
  let ⟨root, body⟩ := parts path
  (if root = .nothing then 0 else 1) + (body.filter fun segment => !isIdle segment).length

/-- The paths above a path, whose segments behind its root are given from the last to the first. A
leading dot lies below the empty path. -/
def ancestorsFrom (root : Root) : List Text → List Path
  | [] => if root = .dot then [[]] else []
  | segment :: rest =>
    if isIdle segment then ancestorsFrom root rest
    else Parts.toPath ⟨root, trimIdle rest.reverse⟩ :: ancestorsFrom root rest

def ancestors (path : Path) : List Path :=
  ancestorsFrom (parts path).root (parts path).body.reverse

def parent? (path : Path) : Option Path := (ancestors path).head?

def fileName? (path : Path) : Option Text :=
  match (trimIdle (parts path).body).getLast? with
  | some ['.', '.'] => none
  | last => last

/-- A name without its extension: what stands before the last dot, or all of it if that is
nothing. -/
def stemOfName (name : Text) : Text :=
  let extension := name.reverse.takeWhile (· != '.')
  let stem := name.take (name.length - extension.length - 1)
  if stem.isEmpty then name else stem

def stem (path : Path) : Text :=
  match fileName? path with
  | some name => stemOfName name
  | none => []

def expandHome (home : Path) : Path → Path
  | ['~'] => home
  | '~' :: '/' :: rest => home ++ '/' :: rest
  | path => path

end Path

end Namespacing

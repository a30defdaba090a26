import Namespacing.Text.Basic
set_option autoImplicit false

namespace Namespacing

inductive Json where
  | null
  | bool (value : Bool)
  | number (value : Nat)
  | string (value : Text)
  | array (items : List Json)
  | object (members : List (Text × Json))

namespace Json

def hexDigit (n : Nat) : Char :=
  if n < 10 then Char.ofNat ('0'.toNat + n) else Char.ofNat ('a'.toNat + (n - 10))

/-- A character inside a string literal. Quotes, backslashes and control characters are escaped, and
nothing else is. -/
def escape (c : Char) : Text :=
  if c = '"' then ['\\', '"']
  else if c = '\\' then ['\\', '\\']
  else if c = '\n' then ['\\', 'n']
  else if c = '\r' then ['\\', 'r']
  else if c = '\t' then ['\\', 't']
  else if c = '\x08' then ['\\', 'b']
  else if c = '\x0c' then ['\\', 'f']
  else if c.toNat < 32 then "\\u00".toList ++ [hexDigit (c.toNat / 16), hexDigit (c.toNat % 16)]
  else [c]

def literal (s : Text) : Text :=
  '"' :: s.flatMap escape ++ ['"']

def digits (n : Nat) : Text := Nat.toDigits 10 n

mutual

def compact : Json → Text
  | .null => "null".toList
  | .bool true => "true".toList
  | .bool false => "false".toList
  | .number n => digits n
  | .string s => literal s
  | .array items => '[' :: compactItems items ++ [']']
  | .object members => '\x7b' :: compactMembers members ++ ['\x7d']

def compactItems : List Json → Text
  | [] => []
  | [item] => compact item
  | item :: items => compact item ++ ',' :: compactItems items

def compactMembers : List (Text × Json) → Text
  | [] => []
  | [(name, value)] => literal name ++ ':' :: compact value
  | (name, value) :: members => literal name ++ ':' :: compact value ++ ',' :: compactMembers members

end

def newline (depth : Nat) : Text :=
  '\n' :: List.replicate (2 * depth) ' '

mutual

/-- A value over several lines: each item and member on a line of its own, two blanks further in than
what holds it. Empty arrays and objects stay on their line. -/
def pretty (depth : Nat) : Json → Text
  | .null => "null".toList
  | .bool true => "true".toList
  | .bool false => "false".toList
  | .number n => digits n
  | .string s => literal s
  | .array [] => "[]".toList
  | .array (item :: items) =>
    '[' :: newline (depth + 1) ++ pretty (depth + 1) item ++ prettyItems (depth + 1) items ++
      newline depth ++ [']']
  | .object [] => "\x7b\x7d".toList
  | .object ((name, value) :: members) =>
    '\x7b' :: newline (depth + 1) ++ literal name ++ ": ".toList ++ pretty (depth + 1) value ++
      prettyMembers (depth + 1) members ++ newline depth ++ ['\x7d']

def prettyItems (depth : Nat) : List Json → Text
  | [] => []
  | item :: items => ',' :: newline depth ++ pretty depth item ++ prettyItems depth items

def prettyMembers (depth : Nat) : List (Text × Json) → Text
  | [] => []
  | (name, value) :: members =>
    ',' :: newline depth ++ literal name ++ ": ".toList ++ pretty depth value ++
      prettyMembers depth members

end

def sorted (members : List (Text × Json)) : Json :=
  .object (members.mergeSort fun a b => Text.le a.1 b.1)

def ofOption : Option Text → Json
  | some s => .string s
  | none => .null

end Json

end Namespacing

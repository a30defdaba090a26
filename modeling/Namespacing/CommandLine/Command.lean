import Namespacing.Text.Basic
set_option autoImplicit false

namespace Namespacing

structure OptionSet where
  valued : List Text
  flags : List Text

structure Arguments where
  operands : List Text
  values : List (Text × Text)
  flags : List Text

namespace Arguments

def empty : Arguments := ⟨[], [], []⟩

def withOperand (operand : Text) (arguments : Arguments) : Arguments :=
  { arguments with operands := operand :: arguments.operands }

def withValue? (option value : Text) (arguments : Arguments) : Option Arguments :=
  if (arguments.values.lookup option).isSome then none
  else some { arguments with values := (option, value) :: arguments.values }

def withFlag? (option : Text) (arguments : Arguments) : Option Arguments :=
  if arguments.flags.contains option then none
  else some { arguments with flags := option :: arguments.flags }

/-- Does an argument look like an option? A hyphen alone does not. -/
def isOption : Text → Bool
  | '-' :: _ :: _ => true
  | _ => false

def cutAtEquals (argument : Text) : Text × Option Text :=
  match argument.dropWhile (· != '=') with
  | [] => (argument, none)
  | _ :: value => (argument.takeWhile (· != '='), some value)

/-- Sort the arguments of a command; none if they cannot be used. -/
def parse? (options : OptionSet) : List Text → Option Arguments
  | [] => some empty
  | argument :: rest =>
    if argument = "--".toList then some { empty with operands := rest }
    else if !isOption argument then (parse? options rest).map (withOperand argument)
    else
      let (option, value?) := cutAtEquals argument
      if options.valued.contains option then
        match value? with
        | some value => (parse? options rest).bind (withValue? option value)
        | none =>
          match rest with
          | [] => none
          | value :: rest =>
            if isOption value then none
            else (parse? options rest).bind (withValue? option value)
      else if options.flags.contains option && value?.isNone then
        (parse? options rest).bind (withFlag? option)
      else none

end Arguments

inductive Command where
  | version
  | convert (source target : Text) (root? settings? : Option Text) (asJson : Bool)
  | symbols (file : Text)
  deriving DecidableEq, Repr

namespace Command

def rootOption : Text := "--namespace".toList

def settingsOption : Text := "--config".toList

def jsonOption : Text := "--json".toList

def convert? (arguments : List Text) : Option Command :=
  match Arguments.parse? ⟨[rootOption, settingsOption], [jsonOption]⟩ arguments with
  | some ⟨[source, target], values, flags⟩ =>
    some (.convert source target (values.lookup rootOption) (values.lookup settingsOption)
      (flags.contains jsonOption))
  | _ => none

def symbols? (arguments : List Text) : Option Command :=
  match Arguments.parse? ⟨[], []⟩ arguments with
  | some ⟨[file], _, _⟩ => some (.symbols file)
  | _ => none

def parse? : List Text → Option Command
  | [] => none
  | word :: arguments =>
    if word = "--version".toList || Text.startsWith "-V".toList word then some .version
    else if word = "convert".toList then convert? arguments
    else if word = "symbols".toList then symbols? arguments
    else none

end Command

end Namespacing

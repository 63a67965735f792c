import CallByNeed.Reduction.Engine
import CallByNeed.Text.DecimalDigit

/-! # Command line options

Two limits with a value each and a switch. An option is given at most once, its value follows it as
the next argument or after an equals sign, and the first fault from the left is reported. A value
that follows as an argument of its own is read only when the next option or the end is met.
-/

namespace CallByNeed.Demo
set_option autoImplicit false

structure Options where
  limits : Limits := {}
  noColor : Bool := false

/-- Why a command line gives no options. -/
inductive OptionError where
  | unknownArgument
  | invalidValue
  /-- A value that is no number of 64 bits. -/
  | valueValidation
  | argumentConflict
  | tooManyValues
  | displayHelp
  deriving DecidableEq

inductive LimitOption where
  | maxSteps | maxDepth
  deriving DecidableEq

/-- An option whose value is still to be read, with the argument that holds it. -/
structure Pending where
  option : LimitOption
  value : Option String

/-- What the arguments so far have given. -/
structure Progress where
  maxSteps : Option Nat := none
  maxDepth : Option Nat := none
  noColor : Bool := false
  pending : Option Pending := none
  /-- Whether `--` has ended the options. -/
  trailing : Bool := false

abbrev Reading := Except OptionError

namespace Progress

def given (progress : Progress) : LimitOption → Option Nat
  | .maxSteps => progress.maxSteps
  | .maxDepth => progress.maxDepth

def assign (progress : Progress) (option : LimitOption) (text : String) : Reading Progress :=
  match progress.given option with
  | some _ => .error .argumentConflict
  | none =>
      match Text.readNumber text.toList with
      | none => .error .valueValidation
      | some value =>
          match option with
          | .maxSteps => .ok { progress with maxSteps := some value }
          | .maxDepth => .ok { progress with maxDepth := some value }

def settle (progress : Progress) : Reading Progress :=
  match progress.pending with
  | none => .ok progress
  | some ⟨_, none⟩ => .error .invalidValue
  | some ⟨option, some text⟩ => { progress with pending := none }.assign option text

/-- Takes a long option, with the text after its equals sign if there is one. -/
def takeLong (progress : Progress) (name : String) (attached : Option String) :
    Reading Progress :=
  let takeLimit (option : LimitOption) : Reading Progress := do
    let progress ← progress.settle
    match attached with
    | some text => progress.assign option text
    | none => .ok { progress with pending := some ⟨option, none⟩ }
  match name, attached with
  | "max-steps", _ => takeLimit .maxSteps
  | "max-depth", _ => takeLimit .maxDepth
  | "no-color", some _ | "help", some _ => .error .tooManyValues
  | "no-color", none => do
      let progress ← progress.settle
      if progress.noColor then .error .argumentConflict
      else .ok { progress with noColor := true }
  | "help", none => do
      let _ ← progress.settle
      .error .displayHelp
  | _, _ => .error .unknownArgument

/-- Takes a group of short options, of which there is only the one for help. -/
def takeShort (progress : Progress) (letters : List Char) : Reading Progress :=
  match letters with
  | 'h' :: _ => do
      let _ ← progress.settle
      .error .displayHelp
  | _ => .error .unknownArgument

/-- Takes an argument that is no option: the value that an option waits for. -/
def takePlain (progress : Progress) (argument : String) : Reading Progress :=
  match progress.pending with
  | some ⟨option, none⟩ => .ok { progress with pending := some ⟨option, some argument⟩ }
  | _ => .error .unknownArgument

def take (progress : Progress) (argument : String) : Reading Progress :=
  if progress.trailing then .error .unknownArgument
  else
    match argument.toList with
    | ['-', '-'] => .ok { progress with trailing := true }
    | '-' :: '-' :: rest =>
        let name := String.ofList (rest.takeWhile (· != '='))
        match rest.dropWhile (· != '=') with
        | [] => progress.takeLong name none
        | _ :: text => progress.takeLong name (some (String.ofList text))
    | '-' :: letter :: letters => progress.takeShort (letter :: letters)
    | _ => progress.takePlain argument

/-- What is asked for, with the defaults for what is not given. -/
def options (progress : Progress) : Options :=
  let standard : Limits := {}
  { limits :=
      { maxSteps := progress.maxSteps.getD standard.maxSteps
        maxDepth := progress.maxDepth.getD standard.maxDepth }
    noColor := progress.noColor }

end Progress

def Options.read (arguments : List String) : Reading Options := do
  let progress ← arguments.foldlM Progress.take {}
  let progress ← progress.settle
  .ok progress.options

def helpText : String :=
  "\n".intercalate
    [ "Evaluates a few built-in programs and prints what each one reduces to",
      "",
      "Usage: lazy_demo [OPTIONS]",
      "",
      "Options:",
      "      --max-steps <N>  Give up on a program after N reduction steps [default: 1000000]",
      "      --max-depth <N>  Give up on expressions nested more than N levels deep [default: 256]",
      "      --no-color       Never color the output",
      "  -h, --help           Print help",
      "",
      "Set RUST_LOG=lazy_scope=trace to watch the reduction.",
      "" ]

end CallByNeed.Demo

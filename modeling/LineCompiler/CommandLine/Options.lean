import LineCompiler.Compilation

/-!
# Command line options

Arguments are read from left to right. An argument is the separator `--`, a long option, perhaps
with a value behind `=`, a group of one-letter flags, or a word. A word is the value of the setting
in front of it that still lacks one, and otherwise the name of the input; behind the separator all
arguments are words.

The value of a setting that is an argument of its own is judged only when the next argument is
understood or the arguments end, so an argument that cannot be understood at all is what is
reported first.
-/

namespace LineCompiler.CommandLine

structure Options where
  /-- The name of the file to compile; `-` stands for standard input. -/
  input : String := "-"
  config : Config := {}
  /-- Report success to the caller even for a program that ends as failed. -/
  zeroExit : Bool := false
  dumpTree : Bool := false
  verbosity : Nat := 0
  deriving DecidableEq, Repr

namespace Options

/-- The verbosity from which on asking for more changes nothing. -/
def maxVerbosity : Nat := 255

/-- The events to show. Trees are shown whenever they are asked for. -/
def level (o : Options) : Level :=
  let asked : Level :=
    match o.verbosity with
    | 0 => .warn
    | 1 => .info
    | 2 => .debug
    | _ => .trace
  if o.dumpTree then asked.raiseTo .info else asked

def readsStdin (o : Options) : Bool := o.input == "-"

/-- The status reported to the caller after a run with this outcome. -/
def status (o : Options) (outcome : Outcome) : Nat :=
  if o.zeroExit then 0 else outcome.exitCode

end Options

/-- An option that takes a value. -/
inductive Setting where
  | wordSize | tableSize
  deriving DecidableEq, Repr

/-- An option that takes none. -/
inductive Flag where
  | declareOnRead | zeroExit | dumpTree | verbose | help | version
  deriving DecidableEq, Repr

/-- Why there is nothing to compile: a mistake in the arguments, or a request for information. -/
inductive Halt where
  | unknownArgument
  | missingValue
  | unexpectedValue
  | repeatedOption
  | invalidValue
  | help
  | version
  deriving DecidableEq, Repr

inductive Argument where
  | separator
  | setting (setting : Setting) (value : Option String)
  | flag (flag : Flag) (value : Option String)
  | letters (letters : List Char)
  | word (text : String)
  | unknown
  deriving DecidableEq, Repr

namespace Argument

def ofLongName (name : List Char) (value : Option String) : Argument :=
  match String.ofList name with
  | "word-size" => setting .wordSize value
  | "table-size" => setting .tableSize value
  | "declare-on-read" => flag .declareOnRead value
  | "zero-exit" => flag .zeroExit value
  | "dump-tree" => flag .dumpTree value
  | "verbose" => flag .verbose value
  | "help" => flag .help value
  | "version" => flag .version value
  | _ => unknown

/-- Splits the text of a long option at the first `=`. -/
def ofLong (text : List Char) : Argument :=
  let name := text.takeWhile (· != '=')
  match text.dropWhile (· != '=') with
  | [] => ofLongName name none
  | _ :: value => ofLongName name (some (String.ofList value))

def ofString (text : String) : Argument :=
  match text.toList with
  | ['-', '-'] => separator
  | '-' :: '-' :: long => ofLong long
  | ['-'] => word text
  | '-' :: group => letters group
  | _ => word text

end Argument

namespace Setting

/-- A decimal number below 2^64, perhaps behind a plus sign. -/
def decimal? (text : String) : Option Nat :=
  let digits :=
    match text.toList with
    | '+' :: rest => rest
    | all => all
  if digits.isEmpty || !digits.all Char.isDigit then none
  else
    let value := digits.foldl (fun value digit => value * 10 + (digit.toNat - '0'.toNat)) 0
    if value < UInt64.size then some value else none

/-- The configuration with the setting changed. A word has between 1 and 1024 bytes. -/
def configure? (setting : Setting) (config : Config) (text : String) : Option Config :=
  match setting, decimal? text with
  | wordSize, some value =>
    if 1 ≤ value ∧ value ≤ 1024 then some { config with wordSize := value } else none
  | tableSize, some value => some { config with capacity := value }
  | _, none => none

end Setting

/-- What the arguments read so far amount to. -/
structure Reading where
  options : Options := {}
  settings : List Setting := []
  flags : List Flag := []
  /-- The setting in front, whose value is still to come or still to be judged. -/
  pending : Option (Setting × Option String) := none
  inputGiven : Bool := false
  wordsOnly : Bool := false

namespace Reading

def assign (r : Reading) (setting : Setting) (value : String) : Except Halt Reading :=
  if setting ∈ r.settings then .error .repeatedOption
  else
    match setting.configure? r.options.config value with
    | some config => .ok { r with options.config := config, settings := setting :: r.settings }
    | none => .error .invalidValue

/-- Judges the setting in front, if there is one. -/
def settle (r : Reading) : Except Halt Reading :=
  match r.pending with
  | none => .ok r
  | some (_, none) => .error .missingValue
  | some (setting, some value) => { r with pending := none }.assign setting value

/-- Every flag but `-v` can be given once. -/
def raise (r : Reading) (flag : Flag) : Except Halt Reading := do
  let r ← r.settle
  if flag ∈ r.flags then throw .repeatedOption
  match flag with
  | .help => throw .help
  | .version => throw .version
  | .verbose =>
    return { r with options.verbosity := min Options.maxVerbosity (r.options.verbosity + 1) }
  | .declareOnRead =>
    return { r with options.config.declareOnRead := true, flags := flag :: r.flags }
  | .zeroExit => return { r with options.zeroExit := true, flags := flag :: r.flags }
  | .dumpTree => return { r with options.dumpTree := true, flags := flag :: r.flags }

def letter (r : Reading) : Char → Except Halt Reading
  | 'v' => r.raise .verbose
  | 'h' => r.raise .help
  | 'V' => r.raise .version
  | _ => .error .unknownArgument

/-- There is one input. -/
def input (r : Reading) (text : String) : Except Halt Reading := do
  if r.inputGiven then throw .unknownArgument
  let r ← r.settle
  return { r with options.input := text, inputGiven := true }

def argument (r : Reading) : Argument → Except Halt Reading
  | .separator => .ok { r with wordsOnly := true }
  | .setting setting none => r.settle.map ({ · with pending := some (setting, none) })
  | .setting setting (some value) => do (← r.settle).assign setting value
  | .flag flag none => r.raise flag
  | .flag _ (some _) => .error .unexpectedValue
  | .letters letters => letters.foldlM letter r
  | .word text =>
    match r.pending with
    | some (setting, none) => .ok { r with pending := some (setting, some text) }
    | _ => r.input text
  | .unknown => .error .unknownArgument

def next (r : Reading) (text : String) : Except Halt Reading :=
  if r.wordsOnly then r.input text else r.argument (Argument.ofString text)

end Reading

/-- Reads all arguments of a command line. -/
def Options.read (args : List String) : Except Halt Options := do
  let r ← args.foldlM Reading.next {}
  return (← r.settle).options

end LineCompiler.CommandLine

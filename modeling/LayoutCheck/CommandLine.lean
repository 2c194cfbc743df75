import LayoutCheck.Check

/-!
The command line: options and their values, and what the program does with them.

Arguments are taken from left to right. The value of an option can be attached to it or be the next
argument. An attached value is checked at once, another one when the next option is met or the
arguments end; what is not an option is refused before that.
-/

namespace LayoutCheck.CommandLine

/-- The options that have a value. -/
inductive ValueOption where
  | specification
  | root
  | output
  | dialect
  | ignore
  | suggestLimit
  | logLevel
  deriving DecidableEq, Repr

/-- The options that have none. -/
inductive Switch where
  | suggest
  | debug
  | help
  | version
  deriving DecidableEq, Repr

inductive Name where
  | valued (option : ValueOption)
  | switch (s : Switch)
  deriving DecidableEq, Repr

namespace Name

def ofLong? : String → Option Name
  | "spec" => some (valued .specification)
  | "root" => some (valued .root)
  | "output" => some (valued .output)
  | "dialect" => some (valued .dialect)
  | "ignore" => some (valued .ignore)
  | "suggest-limit" => some (valued .suggestLimit)
  | "log-level" => some (valued .logLevel)
  | "suggest" => some (switch .suggest)
  | "debug" => some (switch .debug)
  | "help" => some (switch .help)
  | "version" => some (switch .version)
  | _ => none

def ofShort? : Char → Option Name
  | 's' => some (valued .specification)
  | 'r' => some (valued .root)
  | 'o' => some (valued .output)
  | 'l' => some (valued .logLevel)
  | 'd' => some (switch .debug)
  | 'h' => some (switch .help)
  | 'V' => some (switch .version)
  | _ => none

end Name

/-- Why the arguments are not carried out. -/
inductive Interruption where
  | help
  | version
  | unknownArgument
  | invalidValue
  | malformedNumber
  | unneededValue
  | repeatedOption
  deriving DecidableEq, Repr

/-- The options that were given. -/
structure Given where
  specification : Option String
  root : Option String
  output : Option String
  dialect : Option Specification.Dialect
  ignored : List String
  suggest : Bool
  limit : Option Nat
  debug : Bool
  logLevel : Option LogLevel
  deriving DecidableEq, Repr

namespace Given

def nothing : Given where
  specification := none
  root := none
  output := none
  dialect := none
  ignored := []
  suggest := false
  limit := none
  debug := false
  logLevel := none

/-- Whether the option cannot be given again. -/
def excludes (g : Given) : Name → Bool
  | .valued .specification => g.specification.isSome
  | .valued .root => g.root.isSome
  | .valued .output => g.output.isSome
  | .valued .dialect => g.dialect.isSome
  | .valued .ignore => false
  | .valued .suggestLimit => g.limit.isSome
  | .valued .logLevel => g.logLevel.isSome
  | .switch .suggest => g.suggest
  | .switch .debug => g.debug
  | .switch .help => false
  | .switch .version => false

end Given

/-- A path cannot be empty. -/
def readPath (value : String) : Except Interruption String :=
  if value = "" then .error .invalidValue else .ok value

def readDialect : String → Except Interruption Specification.Dialect
  | "auto" => .ok .auto
  | "nested" => .ok .nested
  | "self-describing" => .ok .selfDescribing
  | _ => .error .invalidValue

def readLogLevel : String → Except Interruption LogLevel
  | "debug" => .ok .debug
  | "info" => .ok .info
  | "warn" => .ok .warn
  | "error" => .ok .error
  | "silent" => .ok .silent
  | _ => .error .invalidValue

/-- Limits are the numbers of 64 bits. -/
def limitBound : Nat := UInt64.size

/-- Reads decimal digits, which a plus may lead. -/
def readLimit (value : String) : Except Interruption Nat :=
  let digits :=
    match value.toList with
    | '+' :: cs => cs
    | cs => cs
  if digits = [] || !digits.all Char.isDigit then .error .malformedNumber
  else
    let n := digits.foldl (fun n c => n * 10 + (c.toNat - '0'.toNat)) 0
    if n < limitBound then .ok n else .error .malformedNumber

namespace Given

/-- Gives an option its value. -/
def setValue (g : Given) (option : ValueOption) (value : String) : Except Interruption Given := do
  if g.excludes (.valued option) then throw .repeatedOption
  match option with
  | .specification => return { g with specification := some (← readPath value) }
  | .root => return { g with root := some (← readPath value) }
  | .output => return { g with output := some (← readPath value) }
  | .dialect => return { g with dialect := some (← readDialect value) }
  | .ignore => return { g with ignored := g.ignored ++ [value] }
  | .suggestLimit => return { g with limit := some (← readLimit value) }
  | .logLevel => return { g with logLevel := some (← readLogLevel value) }

def setSwitch (g : Given) (s : Switch) : Except Interruption Given := do
  if g.excludes (.switch s) then throw .repeatedOption
  match s with
  | .suggest => return { g with suggest := true }
  | .debug => return { g with debug := true }
  | .help => throw .help
  | .version => throw .version

end Given

/-- The options so far; the last one may still wait for its value, or to have it checked. -/
structure Progress where
  given : Given
  pending : Option (ValueOption × Option String)

namespace Progress

/-- Checks the value that was left to be checked. -/
def settle (p : Progress) : Except Interruption Given :=
  match p.pending with
  | none => .ok p.given
  | some (_, none) => .error .invalidValue
  | some (option, some value) => p.given.setValue option value

/-- Takes an option with the value attached to it, if there is one. -/
def takeOption (p : Progress) (option : ValueOption) (attached : Option String) :
    Except Interruption Progress := do
  let given ← p.settle
  match attached with
  | some value => return ⟨← given.setValue option value, none⟩
  | none => return ⟨given, some (option, none)⟩

def takeSwitch (p : Progress) (s : Switch) : Except Interruption Progress := do
  let given ← p.settle
  return ⟨← given.setSwitch s, none⟩

/-- Takes an option with a long name. -/
def takeLong (p : Progress) (name : List Char) (attached : Option String) :
    Except Interruption Progress :=
  match Name.ofLong? (String.ofList name), attached with
  | some (.valued option), _ => p.takeOption option attached
  | some (.switch s), none => p.takeSwitch s
  | some (.switch _), some _ => .error .unneededValue
  | none, _ => .error .unknownArgument

/-- The value that follows a short name directly; it may be led by an equals sign. -/
def attachedValue : List Char → Option String
  | [] => none
  | '=' :: cs => some (String.ofList cs)
  | cs => some (String.ofList cs)

/-- Takes options with short names, of which the last may have a value. -/
def takeShort (p : Progress) : List Char → Except Interruption Progress
  | [] => .ok p
  | c :: cs =>
    match Name.ofShort? c with
    | some (.valued option) => p.takeOption option (attachedValue cs)
    | some (.switch s) => do
      let p ← p.takeSwitch s
      p.takeShort cs
    | none => .error .unknownArgument

/-- Takes an argument that is no option: the value of the option before it. -/
def takeValue (p : Progress) (value : String) : Except Interruption Progress :=
  match p.pending with
  | some (option, none) => .ok { p with pending := some (option, some value) }
  | _ => .error .unknownArgument

/-- Takes an argument. -/
def take (p : Progress) (argument : String) : Except Interruption Progress :=
  match argument.toList with
  | '-' :: '-' :: cs =>
    let name := cs.takeWhile (· ≠ '=')
    let attached :=
      match cs.dropWhile (· ≠ '=') with
      | [] => none
      | _ :: value => some (String.ofList value)
    p.takeLong name attached
  | '-' :: c :: cs => p.takeShort (c :: cs)
  | _ => p.takeValue argument

/-- Takes all arguments; nothing can follow two dashes. -/
def takeAll (p : Progress) : List String → Except Interruption Given
  | [] => p.settle
  | "--" :: [] => p.settle
  | "--" :: _ :: _ => .error .unknownArgument
  | a :: as => do
    let p ← p.take a
    p.takeAll as

end Progress

/-- The arguments of a run, with the values of options that were not given. -/
structure Arguments where
  check : CheckOptions
  debug : Bool
  logLevel : LogLevel
  deriving DecidableEq, Repr

/-- The level from which on messages are shown. -/
def Arguments.shownLevel (a : Arguments) : LogLevel := a.logLevel.withDebug a.debug

/-- The arguments that the given options stand for. -/
def Given.arguments (g : Given) : Arguments where
  check :=
    { specification := g.specification.getD "architecture.json"
      root := g.root.getD "."
      output := g.output
      dialect := g.dialect.getD .auto
      ignored := g.ignored
      suggest := g.suggest
      limit := g.limit.getD Remediation.defaultLimit }
  debug := g.debug
  logLevel := g.logLevel.getD .warn

/-- Reads the arguments, without the name of the program. -/
def parse (arguments : List String) : Except Interruption Arguments :=
  (Progress.takeAll ⟨.nothing, none⟩ arguments).map (·.arguments)

/-! ## Running the program -/

def versionText : String := "archcheck 0.1.0\n"

/-- What the options are for. -/
def optionLines : List String :=
  ["  -s, --spec <SPEC>            Specification document, JSON or YAML",
    "                               [default: architecture.json]",
    "  -r, --root <ROOT>            Directory to check [default: .]",
    "  -o, --output <OUTPUT>        Also save the report as plain text to this file",
    "      --dialect <DIALECT>      auto, nested or self-describing [default: auto]",
    "      --ignore <NAME>          Entry name to skip while scanning, in addition to hidden",
    "                               entries, target, __pycache__, node_modules and build",
    "      --suggest                Print which missing paths to create first",
    "      --suggest-limit <LIMIT>  How many of them [default: 10]",
    "  -d, --debug                  Debug output, including both trees; overrides --log-level",
    "  -l, --log-level <LOG_LEVEL>  debug, info, warn, error or silent [default: warn]",
    "  -h, --help                   Print help",
    "  -V, --version                Print version"]

def helpText : String :=
  lines (["Check a project's directory layout against a declared architecture", "",
    "Usage: archcheck [OPTIONS]", "", "Options:"] ++ optionLines)

namespace Interruption

/-- What is wrong with the arguments. -/
def message : Interruption → String
  | help => ""
  | version => ""
  | unknownArgument => "unexpected argument"
  | invalidValue => "invalid value for an option"
  | malformedNumber => "invalid number for an option"
  | unneededValue => "unexpected value for an option"
  | repeatedOption => "an option cannot be used multiple times"

end Interruption

/-- How a run of the program ends: its exit code, and what it wrote to its two outputs. -/
structure Exit where
  code : Nat
  output : String
  errors : String
  deriving DecidableEq, Repr

/-- What is written when the arguments are not carried out. -/
def Interruption.exit (i : Interruption) : Exit :=
  match i with
  | .help => ⟨0, helpText, ""⟩
  | .version => ⟨0, versionText, ""⟩
  | _ => ⟨2, "", "error: " ++ i.message ++ "\n"⟩

/-- The messages that are shown, each on lines of its own. -/
def shownMessages (level : LogLevel) (messages : List Message) : String :=
  lines ((messages.filter (·.shownAt level)).map (·.render))

/-- What is written for an error that ends a check. -/
def errorText (e : CheckError) : String := "Error: " ++ ErrorReport.render e.chain ++ "\n"

/-- How a check ends the program: only a compliant project passes. -/
def exitOfCheck (a : Arguments) (outcome : Except CheckError Report) (printed : String)
    (messages : List Message) : Exit :=
  let shown := shownMessages a.shownLevel messages
  match outcome with
  | .ok report => ⟨if report.isCompliant then 0 else 1, printed, shown⟩
  | .error e => ⟨1, printed, shown ++ errorText e⟩

/-- Runs the program in a file system: how it ends, and the file system after it. -/
def run (fs : FileSystem) (arguments : List String) (style : Style) : Exit × FileSystem :=
  match parse arguments with
  | .error i => (i.exit, fs)
  | .ok a =>
    let r := fs.runCheck a.check style
    (exitOfCheck a r.value.outcome r.value.printed r.messages, r.value.files)

end LayoutCheck.CommandLine

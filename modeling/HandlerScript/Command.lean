import HandlerScript.Check
import HandlerScript.Encoding

/-!
# The command

Compiles one script and answers with its program, its nodes, or its first diagnostic. What the
command does is decided here; reading the script and printing the answer are left to the caller.
-/

namespace HandlerScript

/-! ## Options -/

inductive Emit where
  | nodes
  | program
  deriving DecidableEq, Repr

/-- When to color what is written for people. -/
inductive Color where
  | auto
  | always
  | never
  deriving DecidableEq, Repr

structure Options where
  script : String
  emit : Emit
  json : Bool
  color : Color
  verbose : Bool
  deriving DecidableEq, Repr

inductive Word where
  | script (name : String)
  | flag (name : String)
  | setting (name value : String)
  deriving DecidableEq, Repr

namespace Word

/-- A single dash is a script, and so is all that does not start with a dash. -/
def isScript (argument : String) : Bool :=
  argument = "-" || argument.toList.head? ≠ some '-'

def takesValue (name : String) : Bool := name = "--emit" || name = "--color"

/-- The name of an option, and the value that is written after an equals sign. -/
def splitValue (argument : String) : String × Option String :=
  let name := String.ofList (argument.toList.takeWhile (· ≠ '='))
  match argument.toList.dropWhile (· ≠ '=') with
  | [] => (name, none)
  | _ :: value => (name, some (String.ofList value))

/-- Splits arguments into words. After two dashes all arguments are scripts. -/
def ofArguments : List String → Option (List Word)
  | [] => some []
  | argument :: arguments =>
    if argument = "--" then some (arguments.map script)
    else if isScript argument then (ofArguments arguments).map (script argument :: ·)
    else
      match splitValue argument with
      | (name, some value) => (ofArguments arguments).map (setting name value :: ·)
      | (name, none) =>
        if takesValue name then
          match arguments with
          | [] => none
          | value :: arguments => (ofArguments arguments).map (setting name value :: ·)
        else (ofArguments arguments).map (flag name :: ·)

end Word

structure Options.Draft where
  script : Option String := none
  emit : Option Emit := none
  json : Bool := false
  color : Option Color := none
  verbose : Bool := false
  deriving DecidableEq, Repr

namespace Options.Draft

def emit? : String → Option Emit
  | "syntax" => some .nodes
  | "program" => some .program
  | _ => none

def color? : String → Option Color
  | "auto" => some .auto
  | "always" => some .always
  | "never" => some .never
  | _ => none

/-- Adds a word. Every option is given at most once; there is one script, and its name is not
empty. -/
def add (draft : Draft) : Word → Option Draft
  | .script name =>
    if name = "" ∨ draft.script.isSome then none else some { draft with script := some name }
  | .setting "--emit" value =>
    if draft.emit.isSome then none
    else (emit? value).map fun emit => { draft with emit := some emit }
  | .setting "--color" value =>
    if draft.color.isSome then none
    else (color? value).map fun color => { draft with color := some color }
  | .flag "--json" => if draft.json then none else some { draft with json := true }
  | .flag "--verbose" | .flag "-v" =>
    if draft.verbose then none else some { draft with verbose := true }
  | .setting _ _ | .flag _ => none

/-- The script has to be named; the rest has defaults. -/
def finish (draft : Draft) : Option Options := do
  return {
    script := ← draft.script
    emit := draft.emit.getD .program
    json := draft.json
    color := draft.color.getD .auto
    verbose := draft.verbose }

end Options.Draft

namespace Options

def ofArguments (arguments : List String) : Option Options := do
  let words ← Word.ofArguments arguments
  (← words.foldlM Draft.add {}).finish

/-- A single dash names the standard input. -/
def readsStdin (options : Options) : Bool := options.script = "-"

end Options

/-! ## Scripts -/

/-- Why there is no script to read. -/
inductive ReadError where
  | missing
  | isDirectory
  | notDirectory
  | nameTooLong
  | notUtf8
  | other (reason : String)
  deriving DecidableEq, Repr

def ReadError.message : ReadError → String
  | missing => "No such file or directory (os error 2)"
  | isDirectory => "Is a directory (os error 21)"
  | notDirectory => "Not a directory (os error 20)"
  | nameTooLong => "File name too long (os error 36)"
  | notUtf8 => "stream did not contain valid UTF-8"
  | other reason => reason

def decodeText (bytes : ByteArray) : Except ReadError String :=
  match String.fromUTF8? bytes with
  | some text => .ok text
  | none => .error .notUtf8

/-! ## Outcomes -/

inductive Outcome where
  /-- The arguments were not understood. -/
  | misused
  /-- The script could not be read. -/
  | unreadable (name : String) (error : ReadError)
  /-- The script is faulty; the diagnostic is for a program to read, or for people. -/
  | faulty (diagnostic : Diagnostic) (json : Bool)
  /-- What was asked for. -/
  | printed (text : String)
  deriving DecidableEq, Repr

namespace Outcome

def exitCode : Outcome → Nat
  | printed _ => 0
  | faulty _ _ => 1
  | misused | unreadable _ _ => 2

/-- What goes to the standard output: whole lines, and nothing that is meant for people. -/
def stdout : Outcome → String
  | printed text => text ++ "\n"
  | faulty diagnostic true => diagnostic.toJson.compact ++ "\n"
  | faulty _ false | misused | unreadable _ _ => ""

def stderr : Outcome → String
  | misused => "error: one script is wanted, with --emit, --json, --color and --verbose as options\n"
  | unreadable name error => "error: failed to read " ++ name ++ ": " ++ error.message ++ "\n"
  | faulty diagnostic false => "error: " ++ diagnostic.text ++ "\n"
  | faulty _ true | printed _ => ""

end Outcome

namespace Options

/-- What to print for a script. Nodes are printed as they are read, and are checked only if the
program is wanted. -/
def output (options : Options) (source : String) : Except Diagnostic String := do
  let nodes ← parse source
  match options.emit with
  | .nodes => return (encodeNodes nodes).indented
  | .program => return (← (Program.ofNodes nodes).mapError Rejection.diagnostic).text

/-- The outcome, once it is known what the script holds. -/
def outcome (options : Options) (contents : Except ReadError String) : Outcome :=
  match contents with
  | .error error =>
    .unreadable (if options.readsStdin then "standard input" else options.script) error
  | .ok source =>
    match options.output source with
    | .ok text => .printed text
    | .error diagnostic => .faulty diagnostic options.json

end Options

/-- The outcome for a list of arguments. What the script of a name holds is in `contents`; it is asked
for one script only. -/
def run (arguments : List String) (contents : String → Except ReadError String) : Outcome :=
  match Options.ofArguments arguments with
  | none => .misused
  | some options => options.outcome (contents options.script)

end HandlerScript

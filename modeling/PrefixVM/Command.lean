import PrefixVM.Asm.Layout
import PrefixVM.Files
import PrefixVM.Listing
import PrefixVM.Process.Timeline

/-!
The command line: assembling a source file, listing an image, and running an image on the standard input
and an optional data file. A command reads and writes files and ends with an exit status and two printed
texts. An error is printed with its causes.
-/
namespace PrefixVM

namespace ImageError

def causes : ImageError → List String
  | io reason => [reason]
  | _ => []

end ImageError

namespace Fault

def causes : Fault → List String
  | image cause => cause.message :: cause.causes
  | decode cause => [cause.message]
  | io reason => [reason]
  | _ => []

end Fault

inductive Command where
  | assemble (source output : String)
  | disassemble (image : String)
  | run (image : String) (file : Option String)
  deriving DecidableEq, Repr

inductive Request where
  | command (c : Command)
  | info
  | misuse
  deriving DecidableEq, Repr

namespace Request

inductive Argument where
  | value (text : String)
  /-- An option that only raises the amount of logging. -/
  | verbosity
  | info
  | separator
  | unknown

/-- Sorts the letters of a bundle of short options: the first one that is not `v` decides. -/
def shortOptions (questions : List Char) : List Char → Argument
  | [] => .verbosity
  | c :: rest =>
    if c = 'v' then shortOptions questions rest
    else if questions.contains c then .info
    else .unknown

/-- Tells options from values. The questions are the short and the long options that ask about the
program. -/
def classify (letters : List Char) (names : List String) (text : String) : Argument :=
  match text.toList with
  | ['-'] => .value text
  | ['-', '-'] => .separator
  | '-' :: '-' :: name =>
    if name = "verbose".toList then .verbosity
    else if names.contains (String.ofList name) then .info
    else .unknown
  | '-' :: options => shortOptions letters options
  | _ => .value text

inductive Verb where
  | assemble | disassemble | run
  deriving DecidableEq, Repr

namespace Verb

def ofName? : String → Option Verb
  | "asm" => some assemble
  | "disasm" => some disassemble
  | "run" => some run
  | _ => none

def maxValues : Verb → Nat
  | assemble => 2
  | disassemble => 1
  | run => 2

def command? : Verb → List String → Option Command
  | assemble, [source, output] => some (.assemble source output)
  | disassemble, [image] => some (.disassemble image)
  | run, [image] => some (.run image none)
  | run, [image, file] => some (.run image (some file))
  | _, _ => none

end Verb

/-- Takes the arguments of a command one by one, given the values before them. -/
def ofArguments (verb : Verb) (plain : Bool) (values : List String) : List String → Request
  | [] =>
    match verb.command? values with
    | some c => .command c
    | none => .misuse
  | text :: rest =>
    -- a wrong argument is noticed before later ones are looked at, so that a question after it has no answer
    match if plain then .value text else classify ['h'] ["help"] text with
    | .value text =>
      if text = "" || values.length = verb.maxValues then .misuse
      else ofArguments verb plain (values ++ [text]) rest
    | .verbosity => ofArguments verb plain values rest
    | .separator => ofArguments verb true values rest
    | .info => .info
    | .unknown => .misuse

/-- The request of a question about a command: at most one name is given, and no option. -/
def ofQuestion : List String → Request
  | [] => .info
  | [name] => if name = "help" || (Verb.ofName? name).isSome then .info else .misuse
  | _ => .misuse

def parse : List String → Request
  | [] => .misuse
  | text :: rest =>
    match classify ['h', 'V'] ["help", "version"] text with
    | .value name =>
      match Verb.ofName? name with
      | some verb => ofArguments verb false [] rest
      | none => if name = "help" then ofQuestion rest else .misuse
    | .verbosity => parse rest
    | .info => .info
    | .separator | .unknown => .misuse

end Request

structure Report where
  status : Nat := 0
  stdout : String := ""
  stderr : String := ""
  deriving DecidableEq, Repr

namespace Report

def failure (chain : List String) (stdout : String) : Report :=
  { status := 1, stdout, stderr := String.intercalate ": " chain ++ "\n" }

end Report

def Asm.ofFile (path : String) (content : Except PathError Bytes) : Except (List String) Image :=
  match content with
  | .error e => .error ["reading " ++ path, e.reason]
  | .ok bytes =>
    match Utf8.decode? bytes with
    | none => .error ["reading " ++ path, Utf8.invalid]
    | some text =>
      match Asm.assemble (String.ofList text) with
      | .ok assembly => .ok assembly.image
      | .error e => .error [e.message]

namespace Command

variable {m : Type → Type} [Monad m]

def runAssemble (fs : Files m) (source output : String) : m Report := do
  match Asm.ofFile source (← fs.read source) with
  | .error chain => return .failure chain ""
  | .ok image =>
    match ← fs.write output image.toBytes with
    | .error e => return .failure ["writing " ++ output, e.reason] ""
    | .ok () => return {}

def runDisassemble (fs : Files m) (path : String) : m Report := do
  match Image.ofFile path (← fs.read path) with
  | .error e => return .failure (e.message :: e.causes) ""
  | .ok image =>
    match image.disassemble with
    | .error e => return .failure [e.message] ""
    | .ok listing => return { stdout := listing }

def openFile (fs : Files m) : (file : Option String) → m FileSlot
  | none => return .absent
  | some path => fs.slot path

/-- Writes back what a process has left in its data file. -/
def saveFile (fs : Files m) (file : Option String) (slot : FileSlot) : m Unit :=
  match file, slot with
  | some path, .regular content => do
    let _ ← fs.write path content
  | _, _ => return ()

def runImage (fs : Files m) (fuel : Nat) (path : String) (file : Option String) (stdin : Bytes) :
    m Report := do
  match Image.ofFile path (← fs.read path) with
  | .error e =>
    let fault := Fault.image e
    return .failure (fault.message :: fault.causes) ""
  | .ok image =>
    let settings : Settings := { dataFile := file, fileLimit := fs.limit }
    let p := image.process settings (← openFile fs file) stdin
    let (ending, p, _) := p.start fuel none
    -- also after a fault, as the file has been written all along
    saveFile fs file p.file.slot
    match ending with
    | .fault fault => return .failure (fault.message :: fault.causes) p.stdout
    | _ => return { stdout := p.stdout }

def execute (fs : Files m) (fuel : Nat) (stdin : Bytes) : Command → m Report
  | .assemble source output => runAssemble fs source output
  | .disassemble image => runDisassemble fs image
  | .run image file => runImage fs fuel image file stdin

end Command

namespace Request

def usage : String :=
  "usage: [-v|-vv] asm SOURCE IMAGE\n" ++
    "       [-v|-vv] disasm IMAGE\n" ++
    "       [-v|-vv] run IMAGE [FILE]\n"

/-- Carries out what a list of arguments asks for. Misuse ends with status 2. -/
def execute {m : Type → Type} [Monad m] (fs : Files m) (fuel : Nat) (stdin : Bytes) :
    Request → m Report
  | .command c => c.execute fs fuel stdin
  | .info => return { stdout := usage }
  | .misuse => return { status := 2, stderr := usage }

def readsInput : Request → Bool
  | .command (.run _ _) => true
  | _ => false

end Request

end PrefixVM

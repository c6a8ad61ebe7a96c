import ParamSchema.Dump.Run
import Std.Time.Format
import Std.Time.Zoned

/-!
# The program

The dump on the files of the machine.  All decisions are those of `Dump.run` and `Options.read`;
this module hands over the arguments, the host and the date, and prints the two texts of the
outcome.
-/

namespace ParamSchema
namespace Program

/-! ## the files of the machine -/

/-- the error of an error number, of either sign -/
def ofNumber? (n : UInt32) : Option FileError :=
  match min n (0 - n) with
  | 2 => some .notFound
  | 17 => some .alreadyThere
  | 20 => some .notAFolder
  | 21 => some .isAFolder
  | 36 => some .nameTooLong
  | _ => none

def number? : IO.Error → Option UInt32
  | .alreadyExists _ n _ => some n
  | .otherError n _ => some n
  | .noFileOrDirectory _ n _ => some n
  | .invalidArgument _ n _ => some n
  | .inappropriateType _ n _ => some n
  | .noSuchThing _ n _ => some n
  | _ => none

def fileError (e : IO.Error) : FileError :=
  ((number? e).bind ofNumber?).getD (.other (toString e))

def attempt {α : Type} (action : IO α) : IO (Except FileError α) := do
  match ← action.toBaseIO with
  | .ok a => pure (.ok a)
  | .error e => pure (.error (fileError e))

def kind? (path : String) : IO (Option FileKind) := do
  if path = "" then pure none
  else
    let here ← IO.currentDir
    match ← (here / path).metadata.toBaseIO with
    | .error _ => pure none
    | .ok data => pure (some (if data.type matches .dir then .folder else .file))

def read (path : String) : IO (Except FileError String) := do
  match ← attempt (IO.FS.readBinFile path) with
  | .error e => pure (.error e)
  | .ok bytes =>
    match String.fromUTF8? bytes with
    | some text => pure (.ok text)
    | none => pure (.error .noText)

def names (path : String) : IO (Except FileError (List String)) :=
  attempt do
    let here ← IO.currentDir
    let entries ← (here / path).readDir
    pure (entries.toList.map fun e => e.fileName)

def host : Host IO where
  kind? := kind?
  read := read
  names := names
  makeFolder path := attempt (IO.FS.createDir path)
  write path text := attempt (IO.FS.writeFile path text)

/-! ## arguments -/

def helpText : String :=
  String.join ([
    "parse configuration documents and print the resulting parameter sets",
    "",
    "Usage: fhicl-dump [OPTIONS] <CONFIG>...",
    "",
    "Options:",
    "  -o, --output <OUTPUT>    output file (stdout if omitted)",
    "  -a, --annotate           include source location annotations",
    "      --prefix-annotate    include them on the line preceding each assignment",
    "  -q, --quiet              parse only, print nothing",
    "      --json               read inputs as JSON objects",
    "      --no-header          omit the provenance header",
    "  -v, --verbose...         more logging on stderr",
    "  -h, --help               print help",
    "  -V, --version            print version"].map fun l => l ++ "\n")

def versionText : String := "fhicl-dump 0.1.0\n"

def complaint : Usage → String
  | .unknownArgument => "unexpected argument found"
  | .repeated => "an option is given more than once"
  | .conflict => "options contradict each other"
  | .missingInput => "an input is required"
  | .missingValue => "a value is required for the output"
  | .unneededValue => "an option takes no value"
  | .help => ""
  | .version => ""

def refuse (u : Usage) : IO Unit :=
  match u with
  | .help => IO.print helpText
  | .version => IO.print versionText
  | u => IO.eprintln ("error: " ++ complaint u ++ "\n\nFor more information, try '--help'.")

def today : IO String := do
  let now ← Std.Time.DateTime.now
  pure (now.format "uuuu-MM-dd HH:mm:ss Z")

end Program
end ParamSchema

open ParamSchema in
def main (arguments : List String) : IO UInt32 := do
  match Options.read arguments with
  | .error u =>
    Program.refuse u
    pure u.status.toUInt32
  | .ok options =>
    let date ← Program.today
    let outcome ← Dump.run Program.host options date
    IO.print outcome.output
    IO.eprint outcome.complaint
    pure outcome.status.toUInt32

import ParamSchema.Param.Printer

/-!
# The options of a dump

`Options.read` reads the arguments of the command line.  They are taken from left to right, and
the first that is wrong is reported; only then are conflicts between options looked at, and last
whether there is an input at all.

* `--` makes everything after it an input, and so is every argument without a dash in front, and
  the lone dash;
* letters after one dash are options one by one; `o` takes the rest of its letters for its value;
* a word after two dashes is one option, its value may follow an `=`;
* the option of the output takes the next argument for its value if it has none of its own.

An output option waits for its value, and the value is stored only when the next option or input
arrives (`Given.settle`).  A fault in it is therefore reported before any fault of what follows,
except that a name that is no option's is refused on sight.
-/

namespace ParamSchema

structure Options where
  inputs : List String
  output : Option String
  mode : PrintMode
  quiet : Bool
  json : Bool
  header : Bool
  verbosity : Nat
deriving DecidableEq

/-- why the arguments do not lead to a dump -/
inductive Usage where
  | unknownArgument
  | repeated
  | conflict
  | missingInput
  | missingValue
  | unneededValue
  | help
  | version
deriving DecidableEq

/-- help and version are asked for, everything else is a mistake -/
def Usage.status : Usage → Nat
  | .help => 0
  | .version => 0
  | _ => 2

/-! ## the options by name -/

inductive Switch where
  | annotate
  | annotateBefore
  | quiet
  | json
  | noHeader
  | verbose
  | help
  | version
deriving DecidableEq

/-- what an option's name stands for -/
inductive OptionName where
  | switch (s : Switch)
  | output
deriving DecidableEq

namespace OptionName

def ofWord? : String → Option OptionName
  | "annotate" => some (.switch .annotate)
  | "prefix-annotate" => some (.switch .annotateBefore)
  | "quiet" => some (.switch .quiet)
  | "json" => some (.switch .json)
  | "no-header" => some (.switch .noHeader)
  | "verbose" => some (.switch .verbose)
  | "help" => some (.switch .help)
  | "version" => some (.switch .version)
  | "output" => some .output
  | _ => none

def ofLetter? : Char → Option OptionName
  | 'a' => some (.switch .annotate)
  | 'q' => some (.switch .quiet)
  | 'v' => some (.switch .verbose)
  | 'h' => some (.switch .help)
  | 'V' => some (.switch .version)
  | 'o' => some .output
  | _ => none

end OptionName

/-! ## arguments -/

inductive Argument where
  /-- everything after it is an input -/
  | endOfOptions
  | word (name : String) (value : Option String)
  | letters (cs : List Char)
  | plain (text : String)
deriving DecidableEq

/-- a word and what follows its first `=` -/
def splitValue (cs : List Char) : Argument :=
  let name := String.ofList (cs.takeWhile (· ≠ '='))
  match cs.dropWhile (· ≠ '=') with
  | [] => .word name none
  | _ :: value => .word name (some (String.ofList value))

def Argument.ofText (s : String) : Argument :=
  match s.toList with
  | ['-', '-'] => .endOfOptions
  | '-' :: '-' :: cs => splitValue cs
  | ['-'] => .plain s
  | '-' :: cs => .letters cs
  | _ => .plain s

/-! ## what has been given so far -/

/-- an output option whose value is not stored yet -/
inductive Waiting where
  | nothing
  | forValue
  | withValue (value : String)
deriving DecidableEq

structure Given where
  inputs : List String
  output : Option String
  waiting : Waiting
  switches : List Switch
  verbosity : Nat
deriving DecidableEq

namespace Given

def nothing : Given := ⟨[], none, .nothing, [], 0⟩

def has (g : Given) (s : Switch) : Bool := g.switches.contains s

/-- an output is given once and is not empty -/
def store (g : Given) (value : String) : Except Usage Given :=
  if g.output.isSome then .error .repeated
  else if value = "" then .error .missingValue
  else .ok { g with output := some value, waiting := .nothing }

def settle (g : Given) : Except Usage Given :=
  match g.waiting with
  | .nothing => .ok g
  | .forValue => .error .missingValue
  | .withValue value => g.store value

/-- how often `verbose` is counted -/
def verbosityLimit : Nat := 255

def switch (g : Given) (s : Switch) : Except Usage Given := do
  let g ← g.settle
  match s with
  | .help => .error .help
  | .version => .error .version
  | .verbose => .ok { g with verbosity := min verbosityLimit (g.verbosity + 1) }
  | s => if g.has s then .error .repeated else .ok { g with switches := s :: g.switches }

/-- the output option with the value that was attached to it -/
def outputOption (g : Given) (value : Option String) : Except Usage Given := do
  let g ← g.settle
  match value with
  | some value => g.store value
  | none => .ok { g with waiting := .forValue }

def input (g : Given) (text : String) : Except Usage Given := do
  let g ← g.settle
  .ok { g with inputs := g.inputs ++ [text] }

/-- an argument that is no option -/
def plain (g : Given) (text : String) : Except Usage Given :=
  if g.waiting = .forValue then .ok { g with waiting := .withValue text } else g.input text

/-- the value that the rest of a run of letters is -/
def attached (cs : List Char) : Option String :=
  match cs with
  | [] => none
  | '=' :: cs => some (String.ofList cs)
  | cs => some (String.ofList cs)

def letters (g : Given) : List Char → Except Usage Given
  | [] => .ok g
  | c :: cs =>
    match OptionName.ofLetter? c with
    | none => .error .unknownArgument
    | some .output => g.outputOption (attached cs)
    | some (.switch s) => do
      let g ← g.switch s
      g.letters cs

def word (g : Given) (name : String) (value : Option String) : Except Usage Given :=
  match OptionName.ofWord? name with
  | none => .error .unknownArgument
  | some .output => g.outputOption value
  | some (.switch s) => if value.isSome then .error .unneededValue else g.switch s

def onlyInputs (g : Given) : List String → Except Usage Given
  | [] => .ok g
  | a :: as => do
    let g ← g.input a
    g.onlyInputs as

def arguments (g : Given) : List String → Except Usage Given
  | [] => .ok g
  | a :: as =>
    match Argument.ofText a with
    | .endOfOptions => g.onlyInputs as
    | .word name value => do
      let g ← g.word name value
      g.arguments as
    | .letters cs => do
      let g ← g.letters cs
      g.arguments as
    | .plain text => do
      let g ← g.plain text
      g.arguments as

/-! ## conflicts -/

def hasConflict (g : Given) : Bool :=
  (g.has .annotate && g.has .annotateBefore)
    || (g.has .quiet && (g.has .annotate || g.has .annotateBefore))

def mode (g : Given) : PrintMode :=
  if g.has .annotate then .annotated else if g.has .annotateBefore then .prefixed else .raw

def options (g : Given) : Except Usage Options :=
  if g.hasConflict then .error .conflict
  else if g.inputs.isEmpty then .error .missingInput
  else .ok ⟨g.inputs, g.output, g.mode, g.has .quiet, g.has .json, !g.has .noHeader, g.verbosity⟩

end Given

def Options.read (arguments : List String) : Except Usage Options := do
  let g ← Given.nothing.arguments arguments
  let g ← g.settle
  g.options

end ParamSchema

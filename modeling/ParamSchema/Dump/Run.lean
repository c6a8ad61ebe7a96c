import ParamSchema.Dump.Folders
import ParamSchema.Dump.Options
import ParamSchema.Dump.Status
import ParamSchema.Param.Import
import ParamSchema.Param.Printer
import ParamSchema.Param.Reader

/-!
# The dump

A dump reads its inputs and prints their parameter sets one after the other, each under a header
that says where it came from.  First all inputs are found, then all are read; only when every one
has been read is anything written.  So a failure leaves no output behind.

`dump` is written for any `Host`; `run` turns its result into an exit status and two texts.
-/

namespace ParamSchema
namespace Dump

/-! ## one input -/

def header (path date : String) : String :=
  "# Produced from 'fhicl-dump' using:\n#   Input  : " ++ path ++ "\n#   Date   : " ++ date
    ++ "\n\n"

/-- the parameter set that a text denotes, as a document or as JSON -/
def readText (json : Bool) (path text : String) : Except Failure ParamSet :=
  if json then
    match ParamSet.readJson text with
    | .ok p => .ok p
    | .error e =>
      .error ((Failure.ofError (.ofImport e)).during
        ("failed to parse JSON source file (" ++ path ++ ")"))
  else
    match readDocument text path with
    | .ok p => .ok p
    | .error e => .error (.of (.parse e))

/-- what an input adds to the output -/
def rendered (o : Options) (date path : String) (p : ParamSet) : String :=
  (if o.header then header path date else "") ++ p.print 0 o.mode

section
variable {m : Type → Type} [Monad m] (host : Host m)

/-! ## all inputs -/

abbrev Dumping (m : Type → Type) := ExceptT Failure m

/-- the outcome of an operation on files as one of the dump -/
def fileStep {α : Type} (context : String) (step : m (Except FileError α)) : Dumping m α := do
  match ← ExceptT.lift step with
  | .ok a => pure a
  | .error e => throw ((Failure.of (.file e)).during context)

/-- the files that an input names -/
def find (input : String) : Dumping m (List String) := do
  if Glob.isPattern input then
    match Search.Query.read input with
    | .error e => throw (.of (.pattern e))
    | .ok q =>
      match ← ExceptT.lift (q.hits host).run with
      | .error e => throw (.of (.search e))
      | .ok [] => throw (.of (.note ("glob pattern matched no files: " ++ input)))
      | .ok paths => pure paths
  else pure [input]

def findAll : List String → Dumping m (List String)
  | [] => pure []
  | i :: is => do
    let paths ← find host i
    let more ← findAll is
    pure (paths ++ more)

/-- the output of the inputs in order -/
def renderAll (o : Options) (date : String) : List String → Dumping m String
  | [] => pure ""
  | path :: paths => do
    let text ← fileStep ("failed to read source file " ++ path) (host.read path)
    let p ← ExceptT.mk (pure (readText o.json path text))
    let more ← renderAll o date paths
    pure (rendered o date path p ++ more)

def writeOutput (path text : String) : Dumping m Unit := do
  match (Climb.ofPath path).folder? with
  | none => pure ()
  | some folder => fileStep ("failed to create " ++ folder.text) (folder.make host)
  fileStep ("failed to write " ++ path) (host.write path text)

/-- what goes to the standard output -/
def dump (o : Options) (date : String) : Dumping m String := do
  let paths ← findAll host o.inputs
  let text ← renderAll host o date paths
  if o.quiet then pure ""
  else match o.output with
    | none => pure text
    | some path => do
      writeOutput host path text
      pure ""

/-! ## outcomes -/

structure Outcome where
  status : Nat
  output : String
  failure : Option Failure

def outcome : Except Failure String → Outcome
  | .ok text => ⟨0, text, none⟩
  | .error f => ⟨f.status, "", some f⟩

/-- what goes to the standard error -/
def Outcome.complaint (r : Outcome) : String :=
  match r.failure with
  | none => ""
  | some f => "error: " ++ f.text ++ "\n"

def run (o : Options) (date : String) : m Outcome := do
  let result ← (dump host o date).run
  pure (outcome result)

end

end Dump
end ParamSchema

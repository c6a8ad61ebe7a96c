import ParamSchema.Proofs.Dump.Inputs
import ParamSchema.Proofs.Param.Language

/-!
# Exit statuses

The status of a dump is that of its first input that cannot be used (`Refused`), or else that of
its output file.  What was being done when something went wrong stands in front of a failure and
has no status of its own, so it never hides that of the cause (`Failure.status_foldl_during`).

Under `json` an input is refused with two statuses.  A text that is no JSON ends with 4; JSON whose
top is no object ends with 1, as the error that says so is gathered in `Error` and is none of those
that `Link.status?` looks for there.
-/

namespace ParamSchema

/-- contexts around a failure leave its status as it is -/
theorem Failure.status_foldl_during (contexts : List String) (f : Failure) :
    (contexts.foldl Failure.during f).status = f.status := by
  induction contexts generalizing f with
  | nil => rfl
  | cons context contexts ih => rw [List.foldl_cons, ih, Failure.status_during]

namespace Dump

/-! ## a dump that loads all its inputs -/

/-- the status that a dump ends with -/
def statusIn (fs : Files) (o : Options) (date : String) : Nat :=
  ((run Files.host o date).run fs).1.status

section
variable {o : Options} (hliteral : ∀ i ∈ o.inputs, Glob.isPattern i = false) (date : String)
  (fs : Files) {ps : List ParamSet} (hps : o.inputs.mapM (load fs o.json) = .ok ps)
include hliteral hps

theorem statusIn_of_loaded :
    statusIn fs o date
      = (outcome ((deliver o (printed o date (o.inputs.zip ps))).run.run fs).1).status := by
  rw [statusIn, run_of_loaded hliteral date fs hps]

theorem statusIn_of_no_file (h : o.quiet = true ∨ o.output = none) : statusIn fs o date = 0 := by
  rw [statusIn_of_loaded hliteral date fs hps]
  cases hquiet : o.quiet with
  | true =>
    rw [deliver_of_quiet hquiet]
    rfl
  | false =>
    obtain hquiet' | hnone := h
    · rw [hquiet] at hquiet'
      cases hquiet'
    · rw [deliver_of_print hquiet hnone]
      rfl

variable {path : String} (hquiet : o.quiet = false) (hpath : o.output = some path)
include hquiet hpath

theorem statusIn_of_write
    (h : ((writeOutput Files.host path (printed o date (o.inputs.zip ps))).run.run fs).1
      = .ok ()) : statusIn fs o date = 0 := by
  rw [statusIn_of_loaded hliteral date fs hps, deliver_of_write hquiet hpath (Prod.ext h rfl)]
  rfl

theorem statusIn_of_no_write {e : Failure}
    (h : ((writeOutput Files.host path (printed o date (o.inputs.zip ps))).run.run fs).1
      = .error e) : statusIn fs o date = 5 := by
  rw [statusIn_of_loaded hliteral date fs hps, deliver_of_no_write hquiet hpath (Prod.ext h rfl)]
  exact (writeOutcome_writeOutput path _ fs).status_of_error h

end

/-! ## all dumps of literal paths -/

/-- The first input that cannot be used decides the status, by what is wrong with it; without one
the output file does.  Contexts do not change a status, and neither does `Error`. -/
theorem statusIn_first_refused {o : Options} (hliteral : ∀ i ∈ o.inputs, Glob.isPattern i = false)
    (date : String) (fs : Files) :
    ((∃ ps, List.Forall₂ (fun i p => Loads fs i o.json p) o.inputs ps)
        ∨ ∃ front i back n, o.inputs = front ++ i :: back
          ∧ (∀ j ∈ front, ∃ p, Loads fs j o.json p) ∧ Refused fs i o.json n)
      ∧ (∀ ps, List.Forall₂ (fun i p => Loads fs i o.json p) o.inputs ps →
        (o.quiet = true ∨ o.output = none → statusIn fs o date = 0)
        ∧ ∀ path, o.quiet = false → o.output = some path →
          let w := (writeOutput Files.host path (printed o date (o.inputs.zip ps))).run.run fs
          (w.1 = .ok () → statusIn fs o date = 0)
          ∧ ∀ e, w.1 = .error e → statusIn fs o date = 5)
      ∧ (∀ front i back n, o.inputs = front ++ i :: back →
        (∀ j ∈ front, ∃ p, Loads fs j o.json p) → Refused fs i o.json n →
          statusIn fs o date = n)
      ∧ (∀ (f : Failure) (contexts : List String),
        (contexts.foldl Failure.during f).status = f.status)
      ∧ (∀ e, (Failure.ofError (.parse e)).status = (Failure.of (.parse e)).status)
      ∧ (∀ f, (Failure.ofError (.json f)).status = (Failure.of (.json f)).status)
      ∧ ∀ e, (Failure.ofError (.validation e)).status = (Failure.of (.validation e)).status := by
  refine ⟨forall_loads_or_first_refused fs o.json o.inputs, ?_, ?_,
    fun f contexts => Failure.status_foldl_during contexts f,
    fun _ => rfl, fun _ => rfl, fun _ => rfl⟩
  · intro ps hps
    have hload := mapM_load hps
    refine ⟨statusIn_of_no_file hliteral date fs hload, fun path hquiet hpath => ⟨?_, ?_⟩⟩
    · exact statusIn_of_write hliteral date fs hload hquiet hpath
    · intro e
      exact statusIn_of_no_write hliteral date fs hload hquiet hpath
  · intro front i back n hinputs hfront hi
    obtain ⟨e, -, hrun⟩ := run_of_first_refused hliteral date fs hinputs hfront hi
    rw [statusIn, hrun]

/-- one document, one that is none, and a file that is not there -/
def threeInputs : Options := ⟨["a", "b", "c"], none, .raw, false, false, true, 0⟩

def twoFiles : Files :=
  ⟨[(["a"], .file (some "x: 1\n")), (["b"], .file (some "x 1\n"))], []⟩

/-- `b` is the first that cannot be used -/
theorem statusIn_first_refused_second :
    (∀ i ∈ threeInputs.inputs, Glob.isPattern i = false)
      ∧ threeInputs.inputs = ["a"] ++ "b" :: ["c"]
      ∧ (∃ p, Loads twoFiles "a" false p) ∧ Refused twoFiles "b" false 4
      ∧ Refused twoFiles "c" false 5
      ∧ statusIn twoFiles threeInputs "today" = 4 := by
  have hliteral : ∀ i ∈ threeInputs.inputs, Glob.isPattern i = false := by decide
  have ha : ∃ p, Loads twoFiles "a" false p := by
    have hread : twoFiles.read "a" = .ok "x: 1\n" := by decide +kernel
    have hlex : lex .start "x: 1\n".toList
        = .ok ([⟨.word "x", ⟨1, 1⟩⟩, ⟨.colon, ⟨1, 2⟩⟩, ⟨.word "1", ⟨1, 4⟩⟩], ⟨2, 1⟩) := by
      decide +kernel
    exact ⟨_, .document hread (readDocument_eq_ok.2 ⟨_, _, hlex, rfl⟩)⟩
  have hb : Refused twoFiles "b" false 4 := by
    have hread : twoFiles.read "b" = .ok "x 1\n" := by decide +kernel
    have hlex : lex .start "x 1\n".toList
        = .ok ([⟨.word "x", ⟨1, 1⟩⟩, ⟨.word "1", ⟨1, 3⟩⟩], ⟨2, 1⟩) := by
      decide +kernel
    have herror : readDocument "x 1\n" "b"
        = .error ⟨"b", 1, 3, "expected ':' after parameter name"⟩ := by
      rw [readDocument, readLocated, hlex]
      rfl
    exact .document hread herror
  have hc : Refused twoFiles "c" false 5 := by
    have hread : twoFiles.read "c" = .error .notFound := by decide +kernel
    exact .unread hread
  refine ⟨hliteral, rfl, ha, hb, hc, ?_⟩
  have hfront : ∀ j ∈ ["a"], ∃ p, Loads twoFiles j threeInputs.json p := by
    rw [List.forall_mem_singleton]
    exact ha
  exact (statusIn_first_refused hliteral "today" twoFiles).2.2.1 ["a"] "b" ["c"] 4 rfl hfront hb

/-- JSON that is no object at its top gives no parameter set -/
theorem exists_readJson_eq_notObject {text : String} {j : Json} (h : Json.read text = .ok j)
    (hobject : ∀ ms, j ≠ .object ms) : ∃ e, ParamSet.readJson text = .error (.notObject e) := by
  rw [ParamSet.readJson, h]
  cases j with
  | object ms => exact absurd rfl (hobject ms)
  | null => exact ⟨_, rfl⟩
  | bool b => exact ⟨_, rfl⟩
  | int i => exact ⟨_, rfl⟩
  | float x => exact ⟨_, rfl⟩
  | string s => exact ⟨_, rfl⟩
  | array xs => exact ⟨_, rfl⟩

/-- one JSON array -/
def arrayInput : Options := ⟨["arr.json"], none, .raw, false, true, true, 0⟩

def arrayFile : Files := ⟨[(["arr.json"], .file (some "[1]"))], []⟩

/-- JSON that is no object is refused, and the status is not that of a text that is no JSON -/
theorem statusIn_array :
    (∀ i ∈ arrayInput.inputs, Glob.isPattern i = false) ∧ arrayInput.json = true
      ∧ arrayFile.read "arr.json" = .ok "[1]"
      ∧ (∀ p, ParamSet.readJson "[1]" ≠ .ok p)
      ∧ statusIn arrayFile arrayInput "today" = 1 := by
  have hliteral : ∀ i ∈ arrayInput.inputs, Glob.isPattern i = false := by decide
  have hread : arrayFile.read "arr.json" = .ok "[1]" := by decide +kernel
  have hkind : (Json.read "[1]").map Json.kind = .ok "an array" := by decide +kernel
  obtain ⟨j, hj, hkind⟩ := map_eq_ok.1 hkind
  have hobject : ∀ ms, j ≠ .object ms := by
    rintro ms rfl
    exact absurd hkind (by simp [Json.kind])
  obtain ⟨e, hjson⟩ := exists_readJson_eq_notObject hj hobject
  refine ⟨hliteral, rfl, hread, ?_, ?_⟩
  · intro p hp
    rw [hjson] at hp
    cases hp
  · have hinputs : arrayInput.inputs = [] ++ "arr.json" :: [] := rfl
    obtain ⟨_, -, hrun⟩ := run_of_first_refused hliteral "today" arrayFile hinputs
      (List.forall_mem_nil _) (.notObject hread hjson)
    rw [statusIn, hrun]

end Dump
end ParamSchema

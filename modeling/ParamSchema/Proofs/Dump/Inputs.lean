import ParamSchema.Dump.Run
import ParamSchema.Proofs.Outcome

/-!
# The inputs of a dump

The inputs are read one after the other, in a world that reading does not change (`renderAll_run`).
So a dump of literal paths is decided by what they load: the first that fails is the failure of the
dump, and the world stays as it was; only if all of them load is anything delivered.

* `load`              the parameter set of a file, or the failure it gives;
* `Loads`, `Refused`  the files that give the one and the other;
* `run_of_failure`    a dump that loads not all of its inputs;
* `run_of_loaded`     a dump that loads them all delivers their text (`deliver`).
-/

namespace ParamSchema
namespace Dump

/-! ## one step after another -/

section
variable {α β : Type} {x : Dumping (StateM Files) α} {f : α → Dumping (StateM Files) β}
  {fs after : Files}

theorem run_bind_of_ok {a : α} (h : x.run.run fs = (.ok a, after)) :
    (x >>= f).run.run fs = (f a).run.run after := by
  rw [ExceptT.run_bind, StateT.run_bind, h]
  rfl

theorem run_bind_of_error {e : Failure} (h : x.run.run fs = (.error e, after)) :
    (x >>= f).run.run fs = (.error e, after) := by
  rw [ExceptT.run_bind, StateT.run_bind, h]
  rfl

end

/-- the failure of an operation on files -/
def fileFailure (context : String) (e : FileError) : Failure :=
  (Failure.of (.file e)).during context

theorem fileStep_run {α : Type} (context : String) (step : StateM Files (Except FileError α))
    (fs : Files) : (fileStep context step).run.run fs
      = ((step.run fs).1.mapError (fileFailure context), (step.run fs).2) := by
  have hlift : (ExceptT.lift step : Dumping (StateM Files) _).run.run fs
      = (.ok (step.run fs).1, (step.run fs).2) := rfl
  rw [fileStep, run_bind_of_ok hlift]
  cases (step.run fs).1 <;> rfl

/-! ## loading -/

/-- the parameter set of a file, or why there is none -/
def load (fs : Files) (json : Bool) (path : String) : Except Failure ParamSet := do
  let text ← (fs.read path).mapError (fileFailure ("failed to read source file " ++ path))
  readText json path text

/-- an input that a dump can use, with what it gives -/
inductive Loads (fs : Files) (path : String) : Bool → ParamSet → Prop
  | document {text : String} {p : ParamSet} :
      fs.read path = .ok text → readDocument text path = .ok p → Loads fs path false p
  | json {text : String} {p : ParamSet} :
      fs.read path = .ok text → ParamSet.readJson text = .ok p → Loads fs path true p

/-- an input that a dump cannot use, with the status that tells why -/
inductive Refused (fs : Files) (path : String) : Bool → Nat → Prop
  | unread {json : Bool} {e : FileError} : fs.read path = .error e → Refused fs path json 5
  | document {text : String} {e : ParseError} :
      fs.read path = .ok text → readDocument text path = .error e → Refused fs path false 4
  | json {text : String} {f : JsonFault} :
      fs.read path = .ok text → ParamSet.readJson text = .error (.json f) → Refused fs path true 4
  | notObject {text : String} {e : LookupError} :
      fs.read path = .ok text → ParamSet.readJson text = .error (.notObject e) →
        Refused fs path true 1

section
variable {fs : Files} {path : String} {json : Bool}

theorem load_of_read {text : String} (h : fs.read path = .ok text) :
    load fs json path = readText json path text := by
  rw [load, h]
  rfl

theorem Loads.load_eq {p : ParamSet} (h : Loads fs path json p) : load fs json path = .ok p := by
  cases h with
  | document hread hp =>
    rw [load_of_read hread, readText, if_neg Bool.false_ne_true, hp]
  | json hread hp =>
    rw [load_of_read hread, readText, if_pos rfl, hp]

theorem Refused.load_eq {n : Nat} (h : Refused fs path json n) :
    ∃ e, load fs json path = .error e ∧ e.status = n := by
  cases h with
  | unread hread =>
    rw [load, hread]
    exact ⟨_, rfl, rfl⟩
  | document hread he =>
    rw [load_of_read hread, readText, if_neg Bool.false_ne_true, he]
    exact ⟨_, rfl, rfl⟩
  | json hread he =>
    rw [load_of_read hread, readText, if_pos rfl, he]
    exact ⟨_, rfl, rfl⟩
  | notObject hread he =>
    rw [load_of_read hread, readText, if_pos rfl, he]
    exact ⟨_, rfl, rfl⟩

theorem loads_or_refused (fs : Files) (path : String) (json : Bool) :
    (∃ p, Loads fs path json p) ∨ ∃ n, Refused fs path json n := by
  cases hread : fs.read path with
  | error e => exact .inr ⟨5, .unread hread⟩
  | ok text =>
    cases json with
    | false =>
      cases hp : readDocument text path with
      | error e => exact .inr ⟨4, .document hread hp⟩
      | ok p => exact .inl ⟨p, .document hread hp⟩
    | true =>
      cases hp : ParamSet.readJson text with
      | error e =>
        cases e with
        | json f => exact .inr ⟨4, .json hread hp⟩
        | notObject e => exact .inr ⟨1, .notObject hread hp⟩
      | ok p => exact .inl ⟨p, .json hread hp⟩

theorem mapM_load {paths : List String} {ps : List ParamSet}
    (h : List.Forall₂ (fun path p => Loads fs path json p) paths ps) :
    paths.mapM (load fs json) = .ok ps :=
  mapM_eq_ok.2 (h.imp fun _ _ => Loads.load_eq)

/-- either all inputs can be used, or there is a first that cannot -/
theorem forall_loads_or_first_refused (fs : Files) (json : Bool) (paths : List String) :
    (∃ ps, List.Forall₂ (fun path p => Loads fs path json p) paths ps)
      ∨ ∃ front path back n, paths = front ++ path :: back
        ∧ (∀ i ∈ front, ∃ p, Loads fs i json p) ∧ Refused fs path json n := by
  induction paths with
  | nil => exact .inl ⟨[], .nil⟩
  | cons path paths ih =>
    obtain ⟨p, hp⟩ | ⟨n, hn⟩ := loads_or_refused fs path json
    · obtain ⟨ps, hps⟩ | ⟨front, i, back, n, rfl, hfront, hn⟩ := ih
      · exact .inl ⟨p :: ps, .cons hp hps⟩
      · exact .inr ⟨path :: front, i, back, n, rfl, List.forall_mem_cons.2 ⟨⟨p, hp⟩, hfront⟩, hn⟩
    · exact .inr ⟨[], path, paths, n, rfl, List.forall_mem_nil _, hn⟩

end

/-- the texts of the inputs, one after the other -/
def printed (o : Options) (date : String) (loaded : List (String × ParamSet)) : String :=
  String.join (loaded.map fun e => rendered o date e.1 e.2)

theorem printed_cons (o : Options) (date path : String) (p : ParamSet)
    (loaded : List (String × ParamSet)) :
    printed o date ((path, p) :: loaded) = rendered o date path p ++ printed o date loaded := by
  rw [printed, List.map_cons, String.join_cons]
  rfl

/-- to read an input leaves the world as it is -/
theorem loadStep_run {β : Type} (fs : Files) (json : Bool) (path : String)
    (f : ParamSet → Dumping (StateM Files) β) :
    (do
      let text ← fileStep ("failed to read source file " ++ path) (Files.host.read path)
      let p ← ExceptT.mk (pure (readText json path text))
      f p : Dumping (StateM Files) β).run.run fs
      = match load fs json path with
        | .ok p => (f p).run.run fs
        | .error e => (.error e, fs) := by
  have hread := fileStep_run ("failed to read source file " ++ path) (Files.host.read path) fs
  have hworld : (Files.host.read path).run fs = (fs.read path, fs) := rfl
  rw [hworld] at hread
  rw [load]
  cases htext : (fs.read path).mapError (fileFailure ("failed to read source file " ++ path)) with
  | error e =>
    rw [htext] at hread
    rw [run_bind_of_error hread]
    rfl
  | ok text =>
    rw [htext] at hread
    rw [run_bind_of_ok hread]
    have hparse :
        (ExceptT.mk (pure (readText json path text)) : Dumping (StateM Files) _).run.run fs
          = (readText json path text, fs) := rfl
    show _ = match readText json path text with
      | .ok p => (f p).run.run fs
      | .error e => (.error e, fs)
    cases hp : readText json path text with
    | error e =>
      rw [hp] at hparse
      exact run_bind_of_error hparse
    | ok p =>
      rw [hp] at hparse
      exact run_bind_of_ok hparse

theorem renderAll_run (o : Options) (date : String) (paths : List String) (fs : Files) :
    (renderAll Files.host o date paths).run.run fs
      = ((paths.mapM (load fs o.json)).map fun ps => printed o date (paths.zip ps), fs) := by
  induction paths with
  | nil => rfl
  | cons path paths ih =>
    rw [renderAll, loadStep_run, List.mapM_cons]
    cases load fs o.json path with
    | error e => rfl
    | ok p =>
      cases hrest : paths.mapM (load fs o.json) with
      | error e =>
        rw [hrest] at ih
        exact run_bind_of_error ih
      | ok ps =>
        rw [hrest] at ih
        refine (run_bind_of_ok ih).trans ?_
        show _ = (Except.ok (printed o date ((path, p) :: paths.zip ps)), fs)
        rw [printed_cons]
        rfl

/-! ## delivery -/

/-- what a dump does with its text -/
def deliver (o : Options) (text : String) : Dumping (StateM Files) String :=
  if o.quiet then pure ""
  else match o.output with
    | none => pure text
    | some path => do
      writeOutput Files.host path text
      pure ""

theorem findAll_literal {is : List String} (h : ∀ i ∈ is, Glob.isPattern i = false) :
    findAll Files.host is = pure is := by
  induction is with
  | nil => rfl
  | cons i is ih =>
    obtain ⟨hi, his⟩ := List.forall_mem_cons.1 h
    rw [findAll, find, hi, if_neg Bool.false_ne_true, pure_bind, ih his, pure_bind]
    rfl

theorem run_eq (o : Options) (date : String) (fs : Files) :
    (run Files.host o date).run fs
      = (outcome ((dump Files.host o date).run.run fs).1,
        ((dump Files.host o date).run.run fs).2) := rfl

section
variable {o : Options} (hliteral : ∀ i ∈ o.inputs, Glob.isPattern i = false) (date : String)
  (fs : Files)
include hliteral

theorem dump_run : (dump Files.host o date).run.run fs
    = match o.inputs.mapM (load fs o.json) with
      | .ok ps => (deliver o (printed o date (o.inputs.zip ps))).run.run fs
      | .error e => (.error e, fs) := by
  have hrender := renderAll_run o date o.inputs fs
  have hdump : dump Files.host o date = (do
      let paths ← findAll Files.host o.inputs
      let text ← renderAll Files.host o date paths
      deliver o text) := rfl
  rw [hdump, findAll_literal hliteral, pure_bind]
  cases hload : o.inputs.mapM (load fs o.json) with
  | error e =>
    rw [hload] at hrender
    exact run_bind_of_error hrender
  | ok ps =>
    rw [hload] at hrender
    exact run_bind_of_ok hrender

/-- a dump that does not load all its inputs fails, and leaves nothing behind -/
theorem run_of_failure {e : Failure} (h : o.inputs.mapM (load fs o.json) = .error e) :
    (run Files.host o date).run fs = (⟨e.status, "", some e⟩, fs) := by
  have hdump := dump_run hliteral date fs
  rw [h] at hdump
  rw [run_eq, hdump]
  rfl

/-- the first input that cannot be used decides how the dump ends -/
theorem run_of_first_refused {front back : List String} {path : String} {n : Nat}
    (h : o.inputs = front ++ path :: back) (hfront : ∀ i ∈ front, ∃ p, Loads fs i o.json p)
    (hpath : Refused fs path o.json n) :
    ∃ e, e.status = n ∧ (run Files.host o date).run fs = (⟨n, "", some e⟩, fs) := by
  obtain ⟨e, he, rfl⟩ := hpath.load_eq
  have hload : ∀ i ∈ front, ∃ p, load fs o.json i = .ok p := fun i hi =>
    (hfront i hi).imp fun _ => Loads.load_eq
  have hall : o.inputs.mapM (load fs o.json) = .error e := by
    rw [h]
    exact mapM_eq_error hload he back
  exact ⟨e, rfl, run_of_failure hliteral date fs hall⟩

/-- a dump that loads them all ends as the delivery of their text does -/
theorem run_of_loaded {ps : List ParamSet} (h : o.inputs.mapM (load fs o.json) = .ok ps) :
    (run Files.host o date).run fs
      = (outcome ((deliver o (printed o date (o.inputs.zip ps))).run.run fs).1,
        ((deliver o (printed o date (o.inputs.zip ps))).run.run fs).2) := by
  have hdump := dump_run hliteral date fs
  rw [h] at hdump
  rw [run_eq, hdump]

end

/-! ## output files -/

section
variable {o : Options} {path text : String} {fs after : Files}

theorem deliver_of_quiet (h : o.quiet = true) : deliver o text = pure "" := if_pos h

theorem deliver_of_print (hquiet : o.quiet = false) (h : o.output = none) :
    deliver o text = pure text := by
  rw [deliver, hquiet, if_neg Bool.false_ne_true, h]

theorem deliver_of_write (hquiet : o.quiet = false) (h : o.output = some path)
    (hwrite : (writeOutput Files.host path text).run.run fs = (.ok (), after)) :
    (deliver o text).run.run fs = (.ok "", after) := by
  rw [deliver, hquiet, if_neg Bool.false_ne_true, h]
  exact run_bind_of_ok hwrite

theorem deliver_of_no_write (hquiet : o.quiet = false) (h : o.output = some path) {e : Failure}
    (hwrite : (writeOutput Files.host path text).run.run fs = (.error e, after)) :
    (deliver o text).run.run fs = (.error e, after) := by
  rw [deliver, hquiet, if_neg Bool.false_ne_true, h]
  exact run_bind_of_error hwrite

/-- what a host can make of writing a file -/
inductive WriteOutcome (path text : String) : Except Failure Unit × Files → Prop
  | written {made after : Files} : made.write path text = .ok after →
      WriteOutcome path text (.ok (), after)
  | failed {context : String} {fault : FileError} {after : Files} :
      WriteOutcome path text (.error (fileFailure context fault), after)

/-- a file that cannot be written is a matter of files, whatever went wrong with it -/
theorem WriteOutcome.status_of_error {w : Except Failure Unit × Files}
    (h : WriteOutcome path text w) {e : Failure} (he : w.1 = .error e) : e.status = 5 := by
  cases h with
  | written _ => cases he
  | failed =>
    obtain rfl := Except.error.inj he
    rfl

theorem writeOutcome_write (path text : String) (fs : Files) :
    WriteOutcome path text
      ((fileStep ("failed to write " ++ path) (Files.host.write path text)).run.run fs) := by
  have hhost : (Files.host.write path text).run fs
      = Files.attempt (fun fs => fs.write path text) fs := rfl
  rw [fileStep_run, hhost, Files.attempt]
  cases hwrite : fs.write path text with
  | ok after => exact .written hwrite
  | error fault => exact .failed

/-- the folder of an output is made first, and the file is what is written last -/
theorem writeOutcome_writeOutput (path text : String) (fs : Files) :
    WriteOutcome path text ((writeOutput Files.host path text).run.run fs) := by
  rw [writeOutput]
  cases (Climb.ofPath path).folder? with
  | none => exact writeOutcome_write path text fs
  | some folder =>
    have hmake := fileStep_run ("failed to create " ++ folder.text) (folder.make Files.host) fs
    cases hmade : ((folder.make Files.host).run fs).1 with
    | error fault =>
      rw [hmade] at hmake
      rw [run_bind_of_error hmake]
      exact .failed
    | ok _ =>
      rw [hmade] at hmake
      rw [run_bind_of_ok hmake]
      exact writeOutcome_write path text _

end

end Dump
end ParamSchema

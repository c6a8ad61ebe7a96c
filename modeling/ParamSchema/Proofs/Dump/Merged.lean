import ParamSchema.Proofs.Dump.Inputs
import ParamSchema.Proofs.Dump.WrittenFile
import ParamSchema.Proofs.Param.PrintRead

/-!
# Several documents in one dump

An assignment is printed on lines of its own, whatever stands around it, so the prints of several
parameter sets in a row are the print of all their entries in a row (`print_flatten`).  A text like
that is read by inserting the entries one by one: without headers, the dump of several documents is
a document again, and gives the `merge` of what they give.

A dump that cannot use all of its inputs leaves the world as it was.
-/

namespace ParamSchema

/-! ## prints in a row -/

theorem entryLines_append (mode : PrintMode) (level : Nat) (as bs : List (String × Value)) :
    entryLines mode level (as ++ bs) = entryLines mode level as ++ entryLines mode level bs := by
  induction as with
  | nil => rfl
  | cons a as ih =>
    rw [List.cons_append, entryLines, entryLines, ih]
    simp only [List.append_assoc]

namespace ParamSet

theorem print_append (p q : ParamSet) (level : Nat) (mode : PrintMode) :
    print (p ++ q) level mode = p.print level mode ++ q.print level mode := by
  rw [← String.toList_inj, String.toList_append, print, entryLines_append, toList_ofLines_append]
  rfl

theorem print_flatten (ps : List ParamSet) (level : Nat) (mode : PrintMode) :
    print ps.flatten level mode = String.join (ps.map fun p => p.print level mode) := by
  induction ps with
  | nil => rfl
  | cons p ps ih => rw [List.flatten_cons, print_append, ih, List.map_cons, String.join_cons]

/-- the entries of several parameter sets, inserted in their order -/
def merge (ps : List ParamSet) : ParamSet := Entries.ofList ps.flatten

/-- every name has the place where it is first -/
theorem keys_merge (ps : List ParamSet) :
    (merge ps).keys = (Entries.keys ps.flatten).eraseDups := Entries.keys_ofList ps.flatten

/-- every name has the value that it has last -/
theorem get?_merge (ps : List ParamSet) (name : String) :
    Entries.get? (merge ps) name = Entries.get? ps.flatten.reverse name :=
  Entries.get?_ofList ps.flatten name

/-- legible parameter sets printed one after the other are read as their merge -/
theorem exists_readDocument_prints {ps : List ParamSet} (h : ∀ p ∈ ps, p.Legible) (level : Nat)
    (mode : PrintMode) (source : String) :
    ∃ q, readDocument (String.join (ps.map fun p => p.print level mode)) source = .ok q
      ∧ ParamSet.erase q = ParamSet.erase (merge ps) := by
  rw [← print_flatten]
  refine exists_readDocument_entries ?_ ?_ level mode source
  · intro e he
    obtain ⟨p, hp, he⟩ := List.mem_flatten.1 he
    exact (h p hp).names e he
  · intro e he
    obtain ⟨p, hp, he⟩ := List.mem_flatten.1 he
    exact (h p hp).values e he

end ParamSet

namespace Dump

/-- documents under paths of one line are legible -/
theorem legible_of_loads {fs : Files} {paths : List String} {ps : List ParamSet}
    (hline : ∀ i ∈ paths, '\n' ∉ i.toList)
    (h : List.Forall₂ (fun i p => Loads fs i false p) paths ps) : ∀ p ∈ ps, p.Legible := by
  intro p hp
  obtain ⟨i, hi, hload⟩ := exists_mem_of_forall₂ h p hp
  cases hload with
  | document _ hread => exact legible_of_readDocument (hline i hi) hread

/-- without headers there is nothing between the prints -/
theorem printed_of_no_header {o : Options} (h : o.header = false) (date : String)
    {paths : List String} {ps : List ParamSet} (hlength : paths.length = ps.length) :
    printed o date (paths.zip ps) = String.join (ps.map fun p => p.print 0 o.mode) := by
  have hrendered : (fun e : String × ParamSet => rendered o date e.1 e.2)
      = (fun p => p.print 0 o.mode) ∘ Prod.snd := by
    funext e
    rw [rendered, h, if_neg Bool.false_ne_true]
    exact String.empty_append
  rw [printed, hrendered, ← List.map_map, List.map_snd_zip (Nat.le_of_eq hlength.symm)]

/-- under a name that is a file's, what could be written is what was printed -/
theorem WriteOutcome.read {path text : String} {w : Except Failure Unit × Files}
    (h : WriteOutcome path text w) (hok : w.1 = .ok ()) : w.2.read path = .ok text := by
  cases h with
  | written hwrite => exact Files.read_of_write hwrite
  | failed => cases hok

theorem Refused.status_of_document {fs : Files} {path : String} {n : Nat}
    (h : Refused fs path false n) : n = 4 ∨ n = 5 := by
  cases h with
  | unread _ => exact .inr rfl
  | document _ _ => exact .inl rfl

/-- **A dump of several documents is their merge, or nothing.**  Without headers its text is a
document, in every mode, and under an output path it is what the file holds; if one of the inputs
cannot be read or is no document, the world stays as it was. -/
theorem run_merge {o : Options} (hliteral : ∀ i ∈ o.inputs, Glob.isPattern i = false)
    (hline : ∀ i ∈ o.inputs, '\n' ∉ i.toList) (hjson : o.json = false) (hquiet : o.quiet = false)
    (hheader : o.header = false) (date : String) (fs : Files) :
    (∀ ps, List.Forall₂ (fun i p => Loads fs i false p) o.inputs ps →
        ((ParamSet.merge ps).keys = (Entries.keys ps.flatten).eraseDups
          ∧ ∀ name, Entries.get? (ParamSet.merge ps) name = Entries.get? ps.flatten.reverse name)
        ∧ ∃ text, (∀ source, ∃ q, readDocument text source = .ok q
            ∧ ParamSet.erase q = ParamSet.erase (ParamSet.merge ps))
          ∧ (o.output = none → (run Files.host o date).run fs = (⟨0, text, none⟩, fs))
          ∧ ∀ path, o.output = some path →
            let w := (writeOutput Files.host path text).run.run fs
            (w.1 = .ok () → (run Files.host o date).run fs = (⟨0, "", none⟩, w.2)
              ∧ w.2.read path = .ok text)
            ∧ ∀ e, w.1 = .error e → (run Files.host o date).run fs = (⟨5, "", some e⟩, w.2))
      ∧ ((∃ i ∈ o.inputs, ∀ p, ¬ Loads fs i false p) →
        ∃ e, (e.status = 4 ∨ e.status = 5)
          ∧ (run Files.host o date).run fs = (⟨e.status, "", some e⟩, fs)) := by
  refine ⟨?_, ?_⟩
  · intro ps hps
    have hload : o.inputs.mapM (load fs o.json) = .ok ps := hjson ▸ mapM_load hps
    have hrun := run_of_loaded hliteral date fs hload
    rw [printed_of_no_header hheader date hps.length_eq] at hrun
    refine ⟨⟨ParamSet.keys_merge ps, ParamSet.get?_merge ps⟩, _,
      ParamSet.exists_readDocument_prints (legible_of_loads hline hps) 0 o.mode, ?_, ?_⟩
    · intro hnone
      rw [hrun, deliver_of_print hquiet hnone]
      rfl
    · intro path hpath
      have hwritten :=
        writeOutcome_writeOutput path (String.join (ps.map fun p => p.print 0 o.mode)) fs
      refine ⟨?_, ?_⟩
      · intro hok
        rw [hrun, deliver_of_write hquiet hpath (Prod.ext hok rfl)]
        exact ⟨rfl, hwritten.read hok⟩
      · intro e he
        rw [hrun, deliver_of_no_write hquiet hpath (Prod.ext he rfl), ← hwritten.status_of_error he]
        rfl
  · intro h
    obtain ⟨i, hi, hno⟩ := h
    obtain ⟨ps, hps⟩ | ⟨front, j, back, n, hinputs, hfront, hn⟩ :=
      forall_loads_or_first_refused fs o.json o.inputs
    · rw [hjson] at hps
      obtain ⟨p, -, hp⟩ := exists_mem_of_forall₂ hps.flip i hi
      exact absurd hp (hno p)
    · obtain ⟨e, rfl, hrun⟩ := run_of_first_refused hliteral date fs hinputs hfront hn
      rw [hjson] at hn
      exact ⟨e, hn.status_of_document, hrun⟩

/-- two documents that both have an `x` -/
def twoDocuments : Files :=
  ⟨[(["a"], .file (some "x: 1\ny: 2\n")), (["b"], .file (some "x: 3\n"))], []⟩

def annotatedInto : Options :=
  ⟨["a", "b"], some "out", .annotated, false, false, false, 0⟩

theorem run_merge_twoDocuments :
    (∀ i ∈ annotatedInto.inputs, Glob.isPattern i = false)
      ∧ (∀ i ∈ annotatedInto.inputs, '\n' ∉ i.toList)
      ∧ ∃ text after,
        (run Files.host annotatedInto "today").run twoDocuments = (⟨0, "", none⟩, after)
        ∧ after.read "out" = .ok text
        ∧ ∃ q, readDocument text "out" = .ok q
          ∧ ParamSet.erase q = [("x", .atom none "3"), ("y", .atom none "2")] := by
  have hliteral : ∀ i ∈ annotatedInto.inputs, Glob.isPattern i = false := by decide
  have hline : ∀ i ∈ annotatedInto.inputs, '\n' ∉ i.toList := by decide
  have ha : Loads twoDocuments "a" false
      [("x", .atom (some ⟨"a", 1⟩) "1"), ("y", .atom (some ⟨"a", 2⟩) "2")] := by
    have hread : twoDocuments.read "a" = .ok "x: 1\ny: 2\n" := by decide +kernel
    have hlex : lex .start "x: 1\ny: 2\n".toList
        = .ok ([⟨.word "x", ⟨1, 1⟩⟩, ⟨.colon, ⟨1, 2⟩⟩, ⟨.word "1", ⟨1, 4⟩⟩,
          ⟨.word "y", ⟨2, 1⟩⟩, ⟨.colon, ⟨2, 2⟩⟩, ⟨.word "2", ⟨2, 4⟩⟩], ⟨3, 1⟩) := by
      decide +kernel
    exact .document hread (readDocument_eq_ok.2 ⟨_, _, hlex, rfl⟩)
  have hb : Loads twoDocuments "b" false [("x", .atom (some ⟨"b", 1⟩) "3")] := by
    have hread : twoDocuments.read "b" = .ok "x: 3\n" := by decide +kernel
    have hlex : lex .start "x: 3\n".toList
        = .ok ([⟨.word "x", ⟨1, 1⟩⟩, ⟨.colon, ⟨1, 2⟩⟩, ⟨.word "3", ⟨1, 4⟩⟩], ⟨2, 1⟩) := by
      decide +kernel
    exact .document hread (readDocument_eq_ok.2 ⟨_, _, hlex, rfl⟩)
  have hwrite : ∀ text, ((writeOutput Files.host "out" text).run.run twoDocuments).1 = .ok () :=
    fun _ => rfl
  obtain ⟨_, text, hdocument, -, hfile⟩ :=
    (run_merge hliteral hline rfl rfl rfl "today" twoDocuments).1 _ (.cons ha (.cons hb .nil))
  obtain ⟨hrun, hread⟩ := (hfile "out" rfl).1 (hwrite text)
  obtain ⟨q, hq, herase⟩ := hdocument "out"
  exact ⟨hliteral, hline, text, _, hrun, hread, q, hq, herase⟩

end Dump
end ParamSchema

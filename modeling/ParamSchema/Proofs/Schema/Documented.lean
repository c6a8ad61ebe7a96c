import ParamSchema.Proofs.Schema.Reference

/-!
# The reference is a document

Reading the reference of a schema gives one entry, under the name of the root, which documents the
schema at every depth (`Schema.readDocument_reference`).

* `Descriptor.Documents`      what is read for a parameter: its default, its members, or a
                              placeholder;
* `documents_of_erase`        the specimen of a descriptor documents it, whatever its origins.
-/

namespace ParamSchema
namespace Descriptor

/-- A value documents a descriptor: it binds to the default, if one is declared; a table has the
names of its parameters for its keys, in their order. -/
inductive Documents : Descriptor → Value → Prop
  | default {d : Descriptor} {v : Value} {b : Bound} :
      d.default? = some b → (∀ key, d.faults [] key v = []) → (∀ key, d.bind key v = .ok b) →
        Documents d v
  | atom {h : Heading} {t : ScalarType} {o : Option Origin} :
      Documents (.atom h t none) (.atom o ("<" ++ t.name ++ ">"))
  | sequence {h : Heading} {e : Descriptor} {bd : LengthBound} {o o' : Option Origin}
      {v : Value} :
      Documents e v → Documents (.sequence h e bd none) (.sequence o [v, .atom o' "..."])
  | tuple {h : Heading} {es : List Descriptor} {o : Option Origin} {xs : List Value} :
      xs.length = es.length →
        (∀ (i : Nat) e x, es[i]? = some e → xs[i]? = some x → Documents e x) →
          Documents (.tuple h es none) (.sequence o xs)
  | table {h : Heading} {ms : List Descriptor} {o : Option Origin} {p : ParamSet} :
      Entries.keys p = ms.map name →
        (∀ d ∈ ms, ∀ v, Entries.get? p d.name = some v → Documents d v) →
          Documents (.table h ms) (.table o p)
  | optional {d : Descriptor} {v : Value} : Documents d v → Documents (.optional d) v

/-! ## specimens -/

variable {d : Descriptor} {v : Value} {b : Bound}

theorem documents_default (hwf : d.WellFormed) (hb : d.default? = some b)
    (habsent : d.mayBeAbsent = true) (hbind : d.bindAbsent "" = .ok (some b))
    (hv : v.erase = b.toValue.erase) : d.Documents v := by
  obtain ⟨hclean, hbound⟩ := hwf.settled_default habsent hbind
  refine .default hb (fun key => ?_) fun key => ?_
  · rw [← faults_erase, hv, faults_erase]
    exact hclean key
  · rw [← bind_erase, hv, bind_erase]
    exact hbound key

theorem exists_of_erase_atom {text : String} (hv : v.erase = .atom none text) :
    ∃ o, v = .atom o text := by
  cases v with
  | atom o t =>
    obtain rfl := (Value.atom.inj hv).2
    exact ⟨o, rfl⟩
  | sequence o xs => cases hv
  | table o p => cases hv

theorem exists_of_erase_sequence {xs : List Value} (hv : v.erase = .sequence none xs) :
    ∃ o ys, v = .sequence o ys ∧ ys.map Value.erase = xs := by
  cases v with
  | atom o t => cases hv
  | sequence o ys =>
    refine ⟨o, ys, rfl, ?_⟩
    rw [← Value.eraseAll_eq_map]
    exact (Value.sequence.inj hv).2
  | table o p => cases hv

theorem exists_of_erase_table {p : ParamSet} (hv : v.erase = .table none p) :
    ∃ o q, v = .table o q ∧ Value.eraseEntries q = p := by
  cases v with
  | atom o t => cases hv
  | sequence o ys => cases hv
  | table o q => exact ⟨o, q, rfl, (Value.table.inj hv).2⟩

theorem documents_tuple {h : Heading} {es : List Descriptor}
    (hes : ∀ e ∈ es, ∀ {x : Value}, x.erase = e.specimen.erase → e.Documents x)
    (hv : v.erase = (Value.sequence none (specimens es)).erase) :
    (Descriptor.tuple h es none).Documents v := by
  obtain ⟨o, xs, rfl, hxs⟩ := exists_of_erase_sequence hv
  rw [Value.eraseAll_eq_map, specimens_eq_map, List.map_map] at hxs
  refine .tuple ?_ fun i e x he hx => ?_
  · simpa using congrArg List.length hxs
  · have hat : (xs.map Value.erase)[i]? = (es.map (Value.erase ∘ specimen))[i]? := by
      rw [hxs]
    rw [List.getElem?_map, List.getElem?_map, he, hx] at hat
    exact hes e (List.mem_of_getElem? he) (Option.some.inj hat)

theorem get?_memberSpecimens {ms : List Descriptor} (hnodup : (ms.map name).Nodup)
    (hd : d ∈ ms) : Entries.get? (memberSpecimens ms) d.name = some d.specimen := by
  have hmem : (d.name, d.specimen) ∈ memberSpecimens ms := by
    rw [memberSpecimens_eq_map]
    exact List.mem_map_of_mem hd
  rw [← keys_memberSpecimens] at hnodup
  exact Entries.get?_of_mem hnodup hmem

theorem documents_table {h : Heading} {ms : List Descriptor} (hnodup : (ms.map name).Nodup)
    (hms : ∀ d ∈ ms, ∀ {x : Value}, x.erase = d.specimen.erase → d.Documents x)
    (hv : v.erase = (Value.table none (memberSpecimens ms)).erase) :
    (Descriptor.table h ms).Documents v := by
  obtain ⟨o, p, rfl, hp⟩ := exists_of_erase_table hv
  refine .table ?_ fun d hd x hx => ?_
  · rw [← keys_eraseEntries, hp, keys_eraseEntries, keys_memberSpecimens]
  · have hget : Entries.get? (Value.eraseEntries p) d.name
        = Entries.get? (Value.eraseEntries (memberSpecimens ms)) d.name := by
      rw [hp]
    rw [get?_eraseEntries, get?_eraseEntries, hx, get?_memberSpecimens hnodup hd] at hget
    exact hms d hd (Option.some.inj hget)

/-- a value that is the specimen of a descriptor, up to origins, documents it -/
theorem documents_of_erase (hwf : d.WellFormed) (hv : v.erase = d.specimen.erase) :
    d.Documents v := by
  induction d generalizing v with
  | atom hd t s? =>
    cases s? with
    | some s => exact documents_default hwf rfl rfl rfl hv
    | none =>
      obtain ⟨o, rfl⟩ := exists_of_erase_atom hv
      exact .atom
  | sequence hd e bd x ih =>
    cases x with
    | some b => exact documents_default hwf rfl rfl rfl hv
    | none =>
      cases hwf with
      | sequence he _ _ _ =>
        obtain ⟨o, xs, rfl, hxs⟩ := exists_of_erase_sequence hv
        obtain ⟨x, ys, rfl, hx, hys⟩ := List.map_eq_cons_iff.1 hxs
        obtain ⟨y, zs, rfl, hy, hzs⟩ := List.map_eq_cons_iff.1 hys
        obtain rfl := List.map_eq_nil_iff.1 hzs
        obtain ⟨o', rfl⟩ := exists_of_erase_atom hy
        exact .sequence (ih he hx)
  | tuple hd es x ih =>
    cases x with
    | some b => exact documents_default hwf rfl rfl rfl hv
    | none =>
      cases hwf with
      | tuple _ hes _ _ => exact documents_tuple (fun e he _ hx => ih e he (hes e he) hx) hv
  | table hd ms ih =>
    cases hwf with
    | table _ hnodup hms =>
      exact documents_table hnodup (fun d hd _ hx => ih d hd (hms d hd) hx) hv
  | optional d ih =>
    cases hwf with
    | optional hd _ => exact .optional (ih hd hv)

end Descriptor

/-! ## the root -/

/-- **A reference is a document of its schema.**  If the name of the root is an identifier, the
reference of a declared schema is read, at every indentation and under every name, as one entry
under that name.  Its value documents the schema. -/
theorem Schema.readDocument_reference {o : Outline} {s : Schema} (hs : o.schema = .ok s)
    (hname : isIdentifier s.name = true) (indent : Nat) (source : String) :
    ∃ v, readDocument (s.reference indent) source = .ok [(s.name, v)]
      ∧ s.toDescriptor.Documents v := by
  have hwf : s.toDescriptor.WellFormed := (o.wellFormed_of_schema hs).table s.heading
  have hlegible : ParamSet.Legible [(s.name, s.toDescriptor.specimen)] :=
    ParamSet.Legible.nil.insert hname hwf.legible_specimen
  have hlabel : ∀ l ∈ (Reference.named s.name).label, isIdentifier l = true := by
    intro l hl
    obtain rfl := Option.some.inj hl
    exact hname
  have hwrites := Reference.describes_of_wellFormed indent hwf (Reference.named s.name) hlabel 0
    "" [] .nothing (.inl rfl)
  rw [Reference.endWith_nothing] at hwrites
  have hlexes : Lexes (s.reference indent).toList
      (entryTokens [(s.name, s.toDescriptor.specimen)]) := by
    have htokens := hwrites.lexes
    simpa [Schema.reference, Reference.introTokens, Reference.named, entryTokens] using htokens
  obtain ⟨sp, stop, hlex, htokens⟩ := hlexes .start
  obtain ⟨q, hq, herase⟩ := readTokens_entryTokens source stop hlegible htokens
  rw [ParamSet.erase, Value.eraseEntries_eq_map] at herase
  obtain ⟨e, es, rfl, he, hes⟩ := List.map_eq_cons_iff.1 herase
  obtain rfl := List.map_eq_nil_iff.1 hes
  obtain ⟨k, v⟩ := e
  obtain ⟨rfl, hv⟩ := Prod.mk.inj he
  exact ⟨v, readDocument_eq_ok.2 ⟨sp, stop, hlex, hq⟩, Descriptor.documents_of_erase hwf hv⟩

/-- comments of two lines, a default with a line feed, and a tuple with a sequence in it -/
def serviceOutline : Outline :=
  ⟨"service", "one service\n# of many",
    [.add (.atom "label" "" .string (some (.string "a\nb"))),
      .add (.sequence "ports" "open\n\nports" (.atom "port" "" (.unsigned .w16) none) (.exactly 2)
        (some (.sequence [.scalar (.uint 80), .scalar (.uint 443)]))),
      .add (.tuple "range" "" [.sequence "more" "" (.atom "step" "" .f64 none) .any none,
        .atom "high" "" .f64 none] none),
      .table "limits" [.add (.optional (.atom "note" "" .string none))]], []⟩

def serviceSchema : Schema :=
  ⟨⟨"service", "one service\n# of many", "service", false⟩,
    [.atom ⟨"label", "", "label", false⟩ .string (some (.string "a\nb")),
      .sequence ⟨"ports", "open\n\nports", "ports", false⟩
        (.atom ⟨"[0]", "", "ports[0]", false⟩ (.unsigned .w16) none) (.exactly 2)
        (some (.sequence [.scalar (.uint 80), .scalar (.uint 443)])),
      .tuple ⟨"range", "", "range", false⟩
        [.sequence ⟨"[0]", "", "range[0]", false⟩
            (.atom ⟨"[0]", "", "range[0][0]", false⟩ .f64 none) .any none,
          .atom ⟨"[1]", "", "range[1]", false⟩ .f64 none] none,
      .table ⟨"limits", "", "limits", false⟩
        [.optional (.atom ⟨"note", "", "limits.note", false⟩ .string none)]]⟩

theorem Schema.readDocument_reference_service :
    serviceOutline.schema = .ok serviceSchema ∧ isIdentifier serviceSchema.name = true
      ∧ ∃ v, readDocument (serviceSchema.reference 1) "out" = .ok [("service", v)]
        ∧ serviceSchema.toDescriptor.Documents v := by
  have hs : serviceOutline.schema = .ok serviceSchema := by rfl
  have hname : isIdentifier serviceSchema.name = true := by decide
  exact ⟨hs, hname, Schema.readDocument_reference hs hname 1 "out"⟩

end ParamSchema

import ParamSchema.Extract.Root
import ParamSchema.Proofs.Outcome

/-!
# What a root holds after a history

A root comes about by declaring it and offering it parameter sets, one after the other
(`ClientRoot.Arises`).  Whatever was offered, it holds the last parameter set that it accepted, with
what binding and reading made of that set, or nothing at all if it has accepted none
(`ClientRoot.holds_last_accepted`).

* `accept_cases`         an offer is accepted and all three parts are stored, or the root is kept;
* `Arises.holdsLast`     so the parts stay together along a history.
-/

namespace ParamSchema

/-- a parameter set, and the keys that may be in it besides those of the schema -/
structure Offer where
  input : ParamSet
  ignore : List String

/-- an offer that was made, and the error if it was refused -/
structure Answered where
  offer : Offer
  error : Option Error

def Answered.Refused (c : Answered) : Prop := c.error ≠ none

namespace ClientRoot

variable {α : Type}

/-! ## one offer -/

/-- binding and reading an offer both succeed, and give `h` -/
structure Yields (r : ClientRoot α) (c : Offer) (h : Holding α) : Prop where
  input : h.input = c.input
  bound : r.schema.bind c.input c.ignore = .ok h.bound
  record : h.bound.deserialize r.read = .ok h.record

/-- the three parts that a root stores are those of `h?` -/
structure Holds (r : ClientRoot α) (h? : Option (Holding α)) : Prop where
  input : r.input = h?.map Holding.input
  bound : r.bound = h?.map Holding.bound
  record : r.record = h?.map Holding.record

def store (r : ClientRoot α) (h : Holding α) : ClientRoot α :=
  { r with input := some h.input, bound := some h.bound, record := some h.record }

variable {r : ClientRoot α} {p : ParamSet} {ignore : List String}

/-- an offer is accepted, and what it yields is stored, or the root stays as it is -/
theorem accept_cases (r : ClientRoot α) (p : ParamSet) (ignore : List String) :
    (∃ h, r.Yields ⟨p, ignore⟩ h ∧ r.accept p ignore = (r.store h, none))
      ∨ (∀ h, ¬ r.Yields ⟨p, ignore⟩ h) ∧ ∃ e, r.accept p ignore = (r, some e) := by
  cases hbind : r.schema.bind p ignore with
  | error e =>
    refine .inr ⟨fun h hy => ?_, .ofBind e, by rw [accept, hbind]⟩
    exact nomatch hbind.symm.trans hy.bound
  | ok b =>
    cases hread : b.deserialize r.read with
    | error e =>
      refine .inr ⟨fun h hy => ?_, e, by simp only [accept, hbind, hread]⟩
      obtain rfl := Except.ok.inj (hbind.symm.trans hy.bound)
      exact nomatch hread.symm.trans hy.record
    | ok x => exact .inl ⟨⟨p, b, x⟩, ⟨rfl, hbind, hread⟩, by simp only [accept, hbind, hread]; rfl⟩

theorem accept_of_error {e : Error} (h : (r.accept p ignore).2 = some e) :
    (r.accept p ignore).1 = r := by
  rcases accept_cases r p ignore with ⟨x, _, haccept⟩ | ⟨_, e', haccept⟩
  · rw [haccept] at h
    cases h
  · rw [haccept]

theorem accepted_iff : (r.accept p ignore).2 = none ↔ ∃ h, r.Yields ⟨p, ignore⟩ h := by
  rcases accept_cases r p ignore with ⟨x, hx, haccept⟩ | ⟨hno, e, haccept⟩
  · rw [haccept]
    exact ⟨fun _ => ⟨x, hx⟩, fun _ => rfl⟩
  · rw [haccept]
    exact ⟨nofun, fun ⟨h, hy⟩ => absurd hy (hno h)⟩

/-! ## many offers -/

/-- A root that was declared and used, with the offers that were made to it and how it answered. -/
inductive Arises (o : Outline) (read : Json → Filling α) : List Answered → ClientRoot α → Prop
  | declared {r : ClientRoot α} : declare o read = .ok r → Arises o read [] r
  | filled {r : ClientRoot α} {p : ParamSet} {ignore : List String} :
      ofParamSet o read p ignore = .ok r → Arises o read [⟨⟨p, ignore⟩, none⟩] r
  | commented {r : ClientRoot α} {calls : List Answered} (comment : String) :
      Arises o read calls r → Arises o read calls (r.withComment comment)
  | offered {r : ClientRoot α} {calls : List Answered} (p : ParamSet) (ignore : List String) :
      Arises o read calls r →
        Arises o read (calls ++ [⟨⟨p, ignore⟩, (r.accept p ignore).2⟩]) (r.accept p ignore).1

/-- what the root holds is what the last of the accepted offers yielded -/
def HoldsLast (r : ClientRoot α) (calls : List Answered) : Prop :=
  (r.Holds none ∧ ∀ c ∈ calls, c.Refused)
    ∨ ∃ before offer after h, calls = before ++ ⟨offer, none⟩ :: after
        ∧ (∀ c ∈ after, c.Refused) ∧ r.Yields offer h ∧ r.Holds (some h)

namespace HoldsLast

variable {calls : List Answered}

theorem declare {o : Outline} {read : Json → Filling α} (h : declare o read = .ok r) :
    r.HoldsLast [] := by
  obtain ⟨schema, _, rfl⟩ := map_eq_ok.1 h
  exact .inl ⟨⟨rfl, rfl, rfl⟩, List.forall_mem_nil _⟩

/-- the comment of a schema is not looked at when something is bound -/
theorem withComment (h : r.HoldsLast calls) (comment : String) :
    (r.withComment comment).HoldsLast calls := by
  rcases h with ⟨hnone, hall⟩ | ⟨before, offer, after, x, hcalls, hall, hyields, hholds⟩
  · exact .inl ⟨⟨hnone.input, hnone.bound, hnone.record⟩, hall⟩
  · refine .inr ⟨before, offer, after, x, hcalls, hall, ?_, ?_⟩
    · exact ⟨hyields.input, hyields.bound, hyields.record⟩
    · exact ⟨hholds.input, hholds.bound, hholds.record⟩

theorem accept (h : r.HoldsLast calls) (p : ParamSet) (ignore : List String) :
    (r.accept p ignore).1.HoldsLast (calls ++ [⟨⟨p, ignore⟩, (r.accept p ignore).2⟩]) := by
  rcases accept_cases r p ignore with ⟨x, hx, haccept⟩ | ⟨_, e, haccept⟩
  · rw [haccept]
    exact .inr ⟨calls, ⟨p, ignore⟩, [], x, rfl, List.forall_mem_nil _,
      ⟨hx.input, hx.bound, hx.record⟩, ⟨rfl, rfl, rfl⟩⟩
  · rw [haccept]
    have hlast : ∀ c ∈ [(⟨⟨p, ignore⟩, some e⟩ : Answered)], c.Refused :=
      List.forall_mem_singleton.2 (Option.some_ne_none e)
    rcases h with ⟨hnone, hall⟩ | ⟨before, offer, after, x, rfl, hall, hyields, hholds⟩
    · exact .inl ⟨hnone, List.forall_mem_append.2 ⟨hall, hlast⟩⟩
    · refine .inr ⟨before, offer, after ++ [⟨⟨p, ignore⟩, some e⟩], x, ?_,
        List.forall_mem_append.2 ⟨hall, hlast⟩, hyields, hholds⟩
      rw [List.append_assoc, List.cons_append]

end HoldsLast

/-- a root that is filled when it is made is a new root that has accepted one offer -/
theorem ofParamSet_eq_ok {o : Outline} {read : Json → Filling α} :
    ofParamSet o read p ignore = .ok r ↔
      ∃ s, declare o read = .ok s ∧ s.accept p ignore = (r, none) := by
  unfold ofParamSet
  cases declare o read with
  | error e => exact ⟨nofun, nofun⟩
  | ok s =>
    rcases haccept : s.accept p ignore with ⟨t, _ | e⟩
    · simp [haccept]
    · simp [haccept]

namespace Arises

variable {o : Outline} {read : Json → Filling α} {calls : List Answered}

theorem holdsLast (h : Arises o read calls r) : r.HoldsLast calls := by
  induction h with
  | declared hr => exact .declare hr
  | @filled r p ignore hr =>
    obtain ⟨s, hs, haccept⟩ := ofParamSet_eq_ok.1 hr
    have hfirst := (HoldsLast.declare hs).accept p ignore
    rwa [haccept] at hfirst
  | commented comment _ ih => exact ih.withComment comment
  | offered p ignore _ ih => exact ih.accept p ignore

theorem read_declare (h : declare o read = .ok r) : r.read = read := by
  obtain ⟨schema, _, rfl⟩ := map_eq_ok.1 h
  rfl

theorem read_accept (r : ClientRoot α) (p : ParamSet) (ignore : List String) :
    (r.accept p ignore).1.read = r.read := by
  rcases accept_cases r p ignore with ⟨x, _, haccept⟩ | ⟨_, e, haccept⟩
  · rw [haccept]
    rfl
  · rw [haccept]

/-- the client's reader is the one that the root was declared with -/
theorem read_eq (h : Arises o read calls r) : r.read = read := by
  induction h with
  | declared hr => exact read_declare hr
  | @filled r p ignore hr =>
    obtain ⟨s, hs, haccept⟩ := ofParamSet_eq_ok.1 hr
    rw [← read_declare hs, ← read_accept s p ignore, haccept]
  | commented comment _ ih => exact ih
  | @offered r calls p ignore _ ih => exact (read_accept r p ignore).trans ih

end Arises

/-- **All or nothing.**  After any history either nothing is stored, and every offer was refused, or
the parameter set, the bound table and the record are all stored, and are those of the last offer
that was accepted: the parameter set is the one that was offered, the table is what the schema binds
it to, and the record is what the reader makes of the table.  The next offer is accepted exactly if
binding and reading it succeed; if it is not, the root stays as it is. -/
theorem holds_last_accepted {o : Outline} {read : Json → Filling α} {calls : List Answered}
    {r : ClientRoot α} (h : Arises o read calls r) :
    ((r.input = none ∧ r.bound = none ∧ r.record = none ∧ ∀ c ∈ calls, c.Refused)
        ∨ ∃ before offer after b x, calls = before ++ ⟨offer, none⟩ :: after
            ∧ (∀ c ∈ after, c.Refused)
            ∧ r.schema.bind offer.input offer.ignore = .ok b ∧ b.deserialize read = .ok x
            ∧ r.input = some offer.input ∧ r.bound = some b ∧ r.record = some x)
      ∧ ∀ p ignore,
          ((r.accept p ignore).2 = none ↔
            ∃ b x, r.schema.bind p ignore = .ok b ∧ b.deserialize read = .ok x)
          ∧ ∀ e, (r.accept p ignore).2 = some e → (r.accept p ignore).1 = r := by
  refine ⟨?_, fun p ignore => ⟨?_, fun e => accept_of_error⟩⟩
  · rcases h.holdsLast with ⟨hnone, hall⟩ | ⟨before, offer, after, x, hcalls, hall, hx, hholds⟩
    · exact .inl ⟨hnone.input, hnone.bound, hnone.record, hall⟩
    · refine .inr ⟨before, offer, after, x.bound, x.record, hcalls, hall, hx.bound, ?_, ?_,
        hholds.bound, hholds.record⟩
      · rw [← h.read_eq]
        exact hx.record
      · rw [← hx.input]
        exact hholds.input
  · rw [accepted_iff, ← h.read_eq]
    constructor
    · rintro ⟨x, hx⟩
      exact ⟨x.bound, x.record, hx.bound, hx.record⟩
    · rintro ⟨b, x, hb, hx⟩
      exact ⟨⟨p, b, x⟩, rfl, hb, hx⟩

/-- a schema of wide integers, and a reader of narrow ones -/
def countOutline : Outline := ⟨"c", "", [.add (.atom "count" "" (.signed .w64) none)], []⟩

def countSchema : Schema :=
  ⟨⟨"c", "", "c", false⟩, [.atom ⟨"count", "", "count", false⟩ (.signed .w64) none]⟩

def readCount : Json → Filling Json := (Shape.record "Count" [("count", .unsigned .w8)]).fill

/-- `5` is accepted, `300` is bound but not read, and a set without a count is not bound -/
theorem holds_last_accepted_count :
    let set (count : String) : ParamSet := [("count", .atom none count)]
    let reason := "at key count → invalid value: integer \x60300\x60, expected u8"
    let r : ClientRoot Json := ⟨countSchema, readCount, some (set "5"),
      some [("count", .scalar (.int 5))], some (.object [("count", .int 5)])⟩
    Arises countOutline readCount
        [⟨⟨set "5", []⟩, none⟩, ⟨⟨set "300", []⟩, some (.extract reason)⟩] r
      ∧ (∃ b x, b.deserialize readCount = .ok x ∧ r.bound = some b ∧ r.record = some x)
      ∧ (r.accept [] []).2.isSome = true ∧ (r.accept [] []).1 = r := by
  intro set reason r
  have hnew : declare countOutline readCount = .ok ⟨countSchema, readCount, none, none, none⟩ := by
    rfl
  have hfive : accept ⟨countSchema, readCount, none, none, none⟩ (set "5") [] = (r, none) := by rfl
  have hlarge : r.accept (set "300") [] = (r, some (.extract reason)) := by rfl
  have harises := ((Arises.declared hnew).offered (set "5") []).offered (set "300") []
  rw [hfive, hlarge] at harises
  obtain ⟨hlast, hnext⟩ := holds_last_accepted harises
  have hmissing : (r.accept [] []).2.isSome = true := by rfl
  obtain ⟨e, he⟩ := Option.isSome_iff_exists.1 hmissing
  refine ⟨harises, ?_, hmissing, (hnext [] []).2 e he⟩
  rcases hlast with ⟨hnone, _⟩ | ⟨_, _, _, b, x, _, _, _, hread, _, hbound, hrecord⟩
  · cases hnone
  · exact ⟨b, x, hread, hbound, hrecord⟩

end ClientRoot
end ParamSchema

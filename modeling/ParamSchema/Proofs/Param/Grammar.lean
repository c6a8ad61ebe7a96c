import ParamSchema.Param.Reader
import ParamSchema.Proofs.Trees
import ParamSchema.Proofs.Outcome

/-!
# The grammar of documents, and the tree a document denotes

A `Form` is what a document writes down: atoms, sequences, and tables of assignments in their order.
`IsValue`, `IsElements` and `IsAssignments` derive token lists from forms.  A form whose dotted keys
lead through nothing but tables (`Form.Fits`) denotes the tree that its assignments build one after
the other (`Form.value`).

* `IsKeyPath`            the keys of assignments (`assignmentPath?_eq_some`);
* `ParamSet.Passable`    no entry on the way of a path is anything but a table;
* `ParamSet.put`         the parameter set with a value under a path; storing the value gives it
                         exactly if the path is passable (`exists_assign`, `erase_of_assign`).
-/

namespace ParamSchema

/-! ## keys -/

/-- identifiers between dots -/
structure IsKeyPath (key : String) (path : List String) : Prop where
  nonempty : path ≠ []
  names : ∀ k ∈ path, isIdentifier k = true
  key : key = ".".intercalate path

theorem not_dot_mem_of_isIdentifierChars {cs : List Char} (h : isIdentifierChars cs = true) :
    '.' ∉ cs := by
  intro hmem
  cases cs with
  | nil => cases hmem
  | cons c cs =>
    simp only [isIdentifierChars, Bool.and_eq_true, List.all_eq_true] at h
    rcases List.mem_cons.1 hmem with rfl | hmem
    · exact absurd h.1 (by decide)
    · exact absurd (h.2 '.' hmem) (by decide)

theorem splitDots_ne_nil (cs : List Char) : splitDots cs ≠ [] := by
  cases cs with
  | nil => exact List.cons_ne_nil _ _
  | cons c cs =>
    rw [splitDots]
    split
    · exact List.cons_ne_nil _ _
    · split <;> exact List.cons_ne_nil _ _

theorem splitDots_of_not_mem {cs : List Char} (h : '.' ∉ cs) : splitDots cs = [cs] := by
  induction cs with
  | nil => rfl
  | cons c cs ih =>
    rw [List.mem_cons, not_or] at h
    rw [splitDots, if_neg (Ne.symm h.1), ih h.2]

theorem splitDots_append_dot {as : List Char} (bs : List Char) (h : '.' ∉ as) :
    splitDots (as ++ '.' :: bs) = as :: splitDots bs := by
  induction as with
  | nil => rw [List.nil_append, splitDots, if_pos rfl]
  | cons a as ih =>
    rw [List.mem_cons, not_or] at h
    rw [List.cons_append, splitDots, if_neg (Ne.symm h.1), ih h.2]

theorem splitDots_intercalate {parts : List (List Char)} (hne : parts ≠ [])
    (h : ∀ cs ∈ parts, '.' ∉ cs) : splitDots (['.'].intercalate parts) = parts := by
  induction parts with
  | nil => exact absurd rfl hne
  | cons cs parts ih =>
    obtain ⟨hcs, hparts⟩ := List.forall_mem_cons.1 h
    cases parts with
    | nil => rw [List.intercalate_singleton, splitDots_of_not_mem hcs]
    | cons ds parts =>
      rw [List.intercalate_cons_cons, List.append_assoc, List.singleton_append]
      rw [splitDots_append_dot _ hcs, ih (List.cons_ne_nil ds parts) hparts]

theorem intercalate_splitDots (cs : List Char) : ['.'].intercalate (splitDots cs) = cs := by
  induction cs with
  | nil => rfl
  | cons c cs ih =>
    obtain ⟨part, parts, hparts⟩ := List.exists_cons_of_ne_nil (splitDots_ne_nil cs)
    rw [splitDots]
    by_cases hc : c = '.'
    · subst hc
      rw [if_pos rfl, hparts, List.intercalate_cons_cons, ← hparts, ih]
      rfl
    · rw [if_neg hc, hparts]
      rw [hparts] at ih
      cases parts with
      | nil =>
        rw [List.intercalate_singleton] at ih
        show ['.'].intercalate [c :: part] = c :: cs
        rw [List.intercalate_singleton, ih]
      | cons part' parts =>
        rw [List.intercalate_cons_cons] at ih
        show ['.'].intercalate ((c :: part) :: part' :: parts) = c :: cs
        rw [List.intercalate_cons_cons, List.cons_append, List.cons_append, ih]

/-- the keys that assignments may have -/
theorem assignmentPath?_eq_some {key : String} {path : List String} :
    assignmentPath? key = some path ↔ IsKeyPath key path := by
  rw [assignmentPath?]
  constructor
  · intro h
    split at h
    · rename_i hall
      obtain rfl := Option.some.inj h
      refine ⟨by simpa using splitDots_ne_nil key.toList, fun k hk => ?_, ?_⟩
      · obtain ⟨part, hpart, rfl⟩ := List.mem_map.1 hk
        rw [isIdentifier, String.toList_ofList]
        exact List.all_eq_true.1 hall part hpart
      · have hparts : ((splitDots key.toList).map String.ofList).map String.toList
            = splitDots key.toList := by
          rw [List.map_map]
          exact List.map_id'' (fun _ => String.toList_ofList) _
        rw [← String.toList_inj, String.toList_intercalate, hparts]
        exact (intercalate_splitDots key.toList).symm
    · cases h
  · rintro ⟨hne, hnames, rfl⟩
    have hparts : splitDots (".".intercalate path).toList = path.map String.toList := by
      rw [String.toList_intercalate]
      refine splitDots_intercalate (by simpa using hne) ?_
      rw [List.forall_mem_map]
      exact fun k hk => not_dot_mem_of_isIdentifierChars (hnames k hk)
    have hall : (path.map String.toList).all isIdentifierChars = true := by
      rw [List.all_eq_true, List.forall_mem_map]
      exact hnames
    have hpath : (path.map String.toList).map String.ofList = path := by
      rw [List.map_map]
      exact List.map_id'' (fun _ => String.ofList_toList) path
    rw [hparts, if_pos hall, hpath]

/-- a plain name is a path of one step -/
theorem isKeyPath_singleton {k : String} (h : isIdentifier k = true) : IsKeyPath k [k] := by
  refine ⟨List.cons_ne_nil k [], List.forall_mem_singleton.2 h, ?_⟩
  rw [← String.toList_inj, String.toList_intercalate, List.map_singleton,
    List.intercalate_singleton]

/-! ## the grammar -/

/-- what a document writes down -/
inductive Form where
  | atom (text : String)
  | sequence (elements : List Form)
  | table (assignments : List (List String × Form))

mutual

inductive IsValue : Form → List Token → Prop
  | word {s : String} : IsValue (.atom s) [.word s]
  | quoted {s : String} : IsValue (.atom s) [.quoted s]
  | sequence {xs : List Form} {ts : List Token} :
      IsElements xs ts → IsValue (.sequence xs) (.openBracket :: ts ++ [.closeBracket])
  | table {as : List (List String × Form)} {ts : List Token} :
      IsAssignments as ts → IsValue (.table as) (.openBrace :: ts ++ [.closeBrace])

/-- values between commas; the last may have one behind it -/
inductive IsElements : List Form → List Token → Prop
  | nil : IsElements [] []
  | last {x : Form} {ts : List Token} : IsValue x ts → IsElements [x] ts
  | cons {x : Form} {xs : List Form} {ts us : List Token} :
      IsValue x ts → IsElements xs us → IsElements (x :: xs) (ts ++ .comma :: us)

inductive IsAssignments : List (List String × Form) → List Token → Prop
  | nil : IsAssignments [] []
  | cons {key : String} {path : List String} {x : Form} {as : List (List String × Form)}
      {ts us : List Token} : IsKeyPath key path → IsValue x ts → IsAssignments as us →
        IsAssignments ((path, x) :: as) (.word key :: .colon :: ts ++ us)

end

/-! ## assignments, one after the other -/

namespace ParamSet

/-- no entry on the way of the path is anything but a table -/
def Passable (p : ParamSet) (path : List String) : Prop :=
  ∀ front back, path = front ++ back → front ≠ [] → back ≠ [] →
    ∀ v, p.follow? (front.map Segment.name) = some v → v.asTable?.isSome = true

/-- the table at a name, empty if there is none -/
def tableAt (p : ParamSet) (name : String) : ParamSet :=
  ((Entries.get? p name).bind Value.asTable?).getD []

/-- the parameter set with a value under a path, and with the tables on its way -/
def put (p : ParamSet) (path : List String) (v : Value) : ParamSet :=
  match path with
  | [] => p
  | [name] => Entries.insert p name v
  | name :: next :: rest =>
    Entries.insert p name (.table none (put (p.tableAt name) (next :: rest) v))

end ParamSet

section
open ParamSet

variable {p q : ParamSet} {name next : String} {rest path : List String} {v : Value}

theorem ParamSet.passable_singleton : p.Passable [name] := by
  intro front back hpath hfront hback
  have hlength := congrArg List.length hpath
  rw [List.length_append] at hlength
  have hfront := List.length_pos_iff.2 hfront
  have hback := List.length_pos_iff.2 hback
  simp at hlength
  omega

theorem ParamSet.passable_empty : ParamSet.Passable [] path := by
  intro front back _ hfront _ w hw
  cases front with
  | nil => exact absurd rfl hfront
  | cons k front => cases hw

/-- a path of two steps or more leads through the entry of its first name -/
theorem ParamSet.passable_cons :
    p.Passable (name :: next :: rest) ↔
      ∀ w, Entries.get? p name = some w →
        ∃ o es, w = .table o es ∧ ParamSet.Passable es (next :: rest) := by
  constructor
  · intro h w hw
    have htable : w.asTable?.isSome = true := by
      refine h [name] (next :: rest) rfl (List.cons_ne_nil _ _) (List.cons_ne_nil _ _) w ?_
      show (Entries.get? p name).bind (fun v => v.follow? []) = some w
      rw [hw]
      rfl
    cases w with
    | atom o t => cases htable
    | sequence o xs => cases htable
    | table o es =>
      refine ⟨o, es, rfl, fun front back hpath hfront hback v hv => ?_⟩
      obtain ⟨k, ks, rfl⟩ := List.exists_cons_of_ne_nil hfront
      refine h (name :: k :: ks) back ?_ (List.cons_ne_nil _ _) hback v ?_
      · rw [List.cons_append, ← hpath]
      · show (Entries.get? p name).bind (fun v => v.follow? ((k :: ks).map Segment.name)) = some v
        rw [hw]
        exact hv
  · intro h front back hpath hfront hback v hv
    obtain ⟨k, ks, rfl⟩ := List.exists_cons_of_ne_nil hfront
    obtain ⟨rfl, hrest⟩ := List.cons.inj hpath
    obtain ⟨w, hw, hv⟩ := Option.bind_eq_some_iff.1 hv
    obtain ⟨o, es, rfl, hes⟩ := h w hw
    cases ks with
    | nil =>
      obtain rfl := Option.some.inj hv
      rfl
    | cons k' ks => exact hes (k' :: ks) back hrest (List.cons_ne_nil _ _) hback v hv

/-! ## assigning -/

theorem eraseEntries_insert (p : ParamSet) (name : String) (v : Value) :
    Value.eraseEntries (Entries.insert p name v)
      = Entries.insert (Value.eraseEntries p) name v.erase := by
  rw [Value.eraseEntries_eq_map, Value.eraseEntries_eq_map, Entries.insert_map]

theorem get?_erase (p : ParamSet) (name : String) :
    Entries.get? p.erase name = (Entries.get? p name).map Value.erase :=
  get?_eraseEntries p name

theorem erase_insert (p : ParamSet) (name : String) (v : Value) :
    ParamSet.erase (Entries.insert p name v) = Entries.insert p.erase name v.erase :=
  eraseEntries_insert p name v

/-- a value can be stored under a passable path -/
theorem exists_assign (h : p.erase.Passable path) (v : Value) :
    ∃ q, p.assign path v = .ok q ∧ ParamSet.erase q = p.erase.put path v.erase := by
  induction path generalizing p with
  | nil => exact ⟨p, ParamSet.assign_nil p v, by rw [put]⟩
  | cons name path ih =>
    cases path with
    | nil => exact ⟨_, ParamSet.assign_singleton p v name, by rw [put, erase_insert]⟩
    | cons next rest =>
      rw [ParamSet.passable_cons, get?_erase] at h
      rw [ParamSet.assign_cons_cons, put, tableAt, get?_erase]
      cases hget : Entries.get? p name with
      | none =>
        obtain ⟨inner, hinner, herase⟩ := ih (p := []) ParamSet.passable_empty
        refine ⟨_, map_eq_ok.2 ⟨inner, hinner, rfl⟩, ?_⟩
        rw [erase_insert, Value.erase]
        rw [ParamSet.erase] at herase
        rw [herase]
        rfl
      | some w =>
        rw [hget] at h
        obtain ⟨o, es, hw, hes⟩ := h w.erase rfl
        cases w with
        | atom o t => cases hw
        | sequence o xs => cases hw
        | table o' es' =>
          obtain ⟨rfl, rfl⟩ := Value.table.inj hw
          obtain ⟨inner, hinner, herase⟩ := ih (p := es') hes
          refine ⟨_, map_eq_ok.2 ⟨inner, hinner, rfl⟩, ?_⟩
          rw [erase_insert, Value.erase]
          rw [ParamSet.erase] at herase
          rw [herase]
          rfl

theorem passable_of_assign (h : p.assign path v = .ok q) : p.erase.Passable path := by
  induction path generalizing p q with
  | nil =>
    intro front back hpath hfront
    exact absurd (List.append_eq_nil_iff.1 hpath.symm).1 hfront
  | cons name path ih =>
    cases path with
    | nil => exact ParamSet.passable_singleton
    | cons next rest =>
      rw [ParamSet.passable_cons, get?_erase]
      intro w hw
      obtain ⟨w', hw', rfl⟩ := Option.map_eq_some_iff.1 hw
      rw [ParamSet.assign_cons_cons, hw'] at h
      cases w' with
      | atom o t => cases h
      | sequence o xs => cases h
      | table o es =>
        obtain ⟨inner, hinner, _⟩ := map_eq_ok.1 h
        exact ⟨none, _, rfl, ih hinner⟩

/-- and under no other -/
theorem erase_of_assign (h : p.assign path v = .ok q) :
    p.erase.Passable path ∧ ParamSet.erase q = p.erase.put path v.erase := by
  have hpassable := passable_of_assign h
  obtain ⟨r, hr, herase⟩ := exists_assign hpassable v
  rw [h] at hr
  obtain rfl := Except.ok.inj hr
  exact ⟨hpassable, herase⟩

end

mutual
/-- the value a form denotes -/
def Form.value : Form → Value
  | .atom s => .atom none s
  | .sequence xs => .sequence none (formValues xs)
  | .table as => .table none (build [] as)
def formValues : List Form → List Value
  | [] => []
  | x :: xs => x.value :: formValues xs
/-- the parameter set after the assignments -/
def build (p : ParamSet) : List (List String × Form) → ParamSet
  | [] => p
  | (path, x) :: as => build (p.put path x.value) as
end

mutual
/-- every path of the form leads through tables only, at the time of its assignment -/
def Form.Fits : Form → Prop
  | .atom _ => True
  | .sequence xs => AllFit xs
  | .table as => AssignmentsFit [] as
def AllFit : List Form → Prop
  | [] => True
  | x :: xs => x.Fits ∧ AllFit xs
def AssignmentsFit (p : ParamSet) : List (List String × Form) → Prop
  | [] => True
  | (path, x) :: as => x.Fits ∧ p.Passable path ∧ AssignmentsFit (p.put path x.value) as
end

end ParamSchema

import ParamSchema.Proofs.Param.Language

/-!
# Reading comes to an end

The readers have a bound on their depth for an argument.  Here they are written down again without
it, with a cursor that goes along the tokens and stays put at the end of the text.  Each of them
that succeeds leaves the cursor behind the place where it was, and not behind the end (`Behind`);
that is what makes them end, on every row of tokens, whether it is a document or not.  The readers
with a bound read the same as these (`follows`).

* `Item`, `items`         the tokens of a text, and its end;
* `current`, `advance`    the cursor on them;
* `Behind`                a place of the cursor after the one it was at;
* `value`, `elements`, `entries`, `assignment`, `document`   the readers without a bound;
* `Follows`               two steps for every token that is left are depth enough.
-/

namespace ParamSchema
namespace Cursor

/-! ## the row of tokens -/

/-- a token, or the end of the text -/
structure Item where
  token? : Option Token
  position : Position

def items (sp : List Spanned) (stop : Position) : List Item :=
  sp.map (fun t => ⟨some t.token, t.position⟩) ++ [⟨none, stop⟩]

section
variable (sp : List Spanned) (stop : Position)

theorem length_items : (items sp stop).length = sp.length + 1 := by
  rw [items, List.length_append, List.length_map, List.length_singleton]

/-- what is at the cursor; behind the end there is nothing but the end -/
def current (pos : Nat) : Item :=
  ((items sp stop)[min pos ((items sp stop).length - 1)]?).getD ⟨none, stop⟩

/-- one further, unless that is behind the end -/
def advance (pos : Nat) : Nat := if pos + 1 < (items sp stop).length then pos + 1 else pos

/-- a place after `pos`, the end at most -/
structure Behind (pos : Nat) where
  place : Nat
  moved : pos < place
  within : place < (items sp stop).length

variable {sp stop} {pos : Nat} {t : Token}

theorem getElem?_items (h : pos < sp.length) :
    (items sp stop)[pos]? = some ⟨some sp[pos].token, sp[pos].position⟩ := by
  rw [items, List.getElem?_append_left (by rwa [List.length_map])]
  simp [h]

theorem getElem?_items_length : (items sp stop)[sp.length]? = some ⟨none, stop⟩ := by
  rw [items, List.getElem?_append_right (Nat.le_of_eq (List.length_map _)), List.length_map,
    Nat.sub_self]
  rfl

variable (stop) in
theorem current_of_lt (h : pos < sp.length) :
    current sp stop pos = ⟨some sp[pos].token, sp[pos].position⟩ := by
  rw [current, length_items, Nat.add_sub_cancel, Nat.min_eq_left (Nat.le_of_lt h),
    getElem?_items h, Option.getD_some]

variable (stop) in
theorem current_of_le (h : sp.length ≤ pos) : current sp stop pos = ⟨none, stop⟩ := by
  rw [current, length_items, Nat.add_sub_cancel, Nat.min_eq_right h, getElem?_items_length,
    Option.getD_some]

theorem lt_of_current (h : (current sp stop pos).token? = some t) : pos < sp.length := by
  by_contra hpos
  rw [current_of_le stop (Nat.le_of_not_lt hpos)] at h
  cases h

theorem advance_of_lt (h : pos < sp.length) : advance sp stop pos = pos + 1 := by
  rw [advance, length_items, if_pos (Nat.succ_lt_succ h)]

/-- a token is not the end, so the cursor can go behind it -/
def Behind.token (h : (current sp stop pos).token? = some t) : Behind sp stop pos where
  place := advance sp stop pos
  moved := by
    rw [advance_of_lt (lt_of_current h)]
    exact Nat.lt_succ_self pos
  within := by
    rw [advance_of_lt (lt_of_current h), length_items]
    exact Nat.succ_lt_succ (lt_of_current h)

def Behind.trans (q : Behind sp stop pos) (r : Behind sp stop q.place) : Behind sp stop pos :=
  ⟨r.place, Nat.lt_trans q.moved r.moved, r.within⟩

/-- fewer tokens are left -/
theorem Behind.left_lt (q : Behind sp stop pos) : sp.length - q.place < sp.length - pos := by
  have hmoved := q.moved
  have hwithin := q.within
  rw [length_items] at hwithin
  omega

variable (sp stop pos) in
/-- the token at the cursor, if it is not at the end, and the place behind it -/
def peek : Option (Token × Behind sp stop pos) :=
  match h : (current sp stop pos).token? with
  | some t => some (t, .token h)
  | none => none

end

/-! ## the readers -/

section
variable (source : String) (sp : List Spanned) (stop : Position)

mutual

def value (pos : Nat) : Located (Value × Behind sp stop pos) :=
  let origin := some ⟨source, (current sp stop pos).position.line⟩
  match peek sp stop pos with
  | some (.word s, q) => .ok (.atom origin s, q)
  | some (.quoted s, q) => .ok (.atom origin s, q)
  | some (.openBracket, q) => do
    let (xs, r) ← elements q.place
    .ok (.sequence origin xs, q.trans r)
  | some (.openBrace, q) => do
    let (es, r) ← entries q.place []
    .ok (.table origin es, q.trans r)
  | none => .error (.valueMissing, (current sp stop pos).position)
  | _ => .error (.expectedValue, (current sp stop pos).position)
termination_by (sp.length - pos, 0)
decreasing_by
  · exact .left _ _ q.left_lt
  · exact .left _ _ q.left_lt

/-- a sequence, from behind its bracket on -/
def elements (pos : Nat) : Located (List Value × Behind sp stop pos) :=
  match peek sp stop pos with
  | some (.closeBracket, q) => .ok ([], q)
  | _ => do
    let (x, q) ← value pos
    match peek sp stop q.place with
    | some (.comma, r) => do
      let (xs, e) ← elements r.place
      .ok (x :: xs, (q.trans r).trans e)
    | some (.closeBracket, _) => do
      let (xs, e) ← elements q.place
      .ok (x :: xs, q.trans e)
    | none => .error (.sequenceOpen, (current sp stop q.place).position)
    | _ => .error (.expectedSeparator, (current sp stop q.place).position)
termination_by (sp.length - pos, 1)
decreasing_by
  · exact .right _ Nat.one_pos
  · exact .left _ _ (q.trans r).left_lt
  · exact .left _ _ q.left_lt

/-- a table, from behind its brace on, added to `p` -/
def entries (pos : Nat) (p : ParamSet) : Located (ParamSet × Behind sp stop pos) :=
  match peek sp stop pos with
  | some (.closeBrace, q) => .ok (p, q)
  | none => .error (.tableOpen, (current sp stop pos).position)
  | _ => do
    let (p, q) ← assignment pos p
    let (p, r) ← entries q.place p
    .ok (p, q.trans r)
termination_by (sp.length - pos, 1)
decreasing_by
  · exact .right _ Nat.one_pos
  · exact .left _ _ q.left_lt

def assignment (pos : Nat) (p : ParamSet) : Located (ParamSet × Behind sp stop pos) :=
  match peek sp stop pos with
  | some (.word key, q) =>
    match assignmentPath? key with
    | none => .error (.invalidName key, (current sp stop pos).position)
    | some path =>
      match peek sp stop q.place with
      | some (.colon, r) => do
        let (v, e) ← value r.place
        match p.assign path v with
        | .ok p => .ok (p, (q.trans r).trans e)
        | .error f => .error (f, (current sp stop pos).position)
      | _ => .error (.expectedColon, (current sp stop q.place).position)
  | _ => .error (.expectedName, (current sp stop pos).position)
termination_by (sp.length - pos, 0)
decreasing_by exact .left _ _ (q.trans r).left_lt

end

/-- assignments up to the end, added to `p`, and where the cursor is then -/
def document (pos : Nat) (p : ParamSet) : Located (ParamSet × Nat) :=
  match peek sp stop pos with
  | none => .ok (p, pos)
  | some _ => do
    let (p, q) ← assignment source sp stop pos p
    document q.place p
termination_by sp.length - pos
decreasing_by exact q.left_lt

end

/-! ## the readers with a bound -/

section
variable {source : String} {sp : List Spanned} {stop : Position} {pos fuel : Nat} {p : ParamSet}
  {α : Type}

/-- what is read, and the tokens behind the cursor -/
def left (r : Located (α × Behind sp stop pos)) : Located (α × List Spanned) :=
  r.map fun (a, q) => (a, sp.drop q.place)

variable (sp stop pos) in
/-- the cursor is at the end, or at the first of the tokens that are left -/
inductive Seen : Prop
  | ending : sp.drop pos = [] → peek sp stop pos = none → current sp stop pos = ⟨none, stop⟩ → Seen
  | token (t : Spanned) (q : Behind sp stop pos) : sp.drop pos = t :: sp.drop q.place →
      peek sp stop pos = some (t.token, q) → (current sp stop pos).position = t.position → Seen

variable (sp stop pos) in
theorem seen : Seen sp stop pos := by
  by_cases hlt : pos < sp.length
  · have hcurrent := current_of_lt stop hlt
    have htoken : (current sp stop pos).token? = some sp[pos].token := by rw [hcurrent]
    refine .token sp[pos] (.token htoken) ?_ ?_ (by rw [hcurrent])
    · show _ = _ :: sp.drop (advance sp stop pos)
      rw [advance_of_lt hlt, List.drop_eq_getElem_cons hlt]
    · unfold peek
      split
      · rename_i t ht
        obtain rfl := Option.some.inj (htoken.symm.trans ht)
        rfl
      · rename_i hnone
        rw [htoken] at hnone
        cases hnone
  · have hcurrent := current_of_le stop (Nat.le_of_not_lt hlt)
    refine .ending (List.drop_eq_nil_of_le (Nat.le_of_not_lt hlt)) ?_ hcurrent
    unfold peek
    split
    · rename_i t ht
      rw [hcurrent] at ht
      cases ht
    · rfl

/-- what does not close a sequence starts with an element -/
theorem elements_of_open (h : ∀ q, peek sp stop pos ≠ some (.closeBracket, q)) :
    elements source sp stop pos = (value source sp stop pos >>= fun (x, q) =>
      match peek sp stop q.place with
      | some (.comma, r) => do
        let (xs, e) ← elements source sp stop r.place
        .ok (x :: xs, (q.trans r).trans e)
      | some (.closeBracket, _) => do
        let (xs, e) ← elements source sp stop q.place
        .ok (x :: xs, q.trans e)
      | none => .error (.sequenceOpen, (current sp stop q.place).position)
      | _ => .error (.expectedSeparator, (current sp stop q.place).position)) := by
  rw [elements.eq_def]
  split
  · rename_i q hq
    exact absurd hq (h q)
  · rfl

/-- what neither closes a table nor is the end starts with an assignment -/
theorem entries_of_open (hclose : ∀ q, peek sp stop pos ≠ some (.closeBrace, q))
    (hend : peek sp stop pos ≠ none) :
    entries source sp stop pos p = (assignment source sp stop pos p >>= fun (p, q) => do
      let (p, r) ← entries source sp stop q.place p
      .ok (p, q.trans r)) := by
  rw [entries.eq_def]
  split
  · rename_i q hq
    exact absurd hq (hclose q)
  · rename_i hq
    exact absurd hq hend
  · rfl

variable (source sp stop) in
/-- two steps for every token that is left, and one or two more, are depth enough -/
structure Follows (fuel pos : Nat) : Prop where
  value : 2 * (sp.length - pos) + 1 ≤ fuel →
    readValue source stop fuel (sp.drop pos) = left (value source sp stop pos)
  elements : 2 * (sp.length - pos) + 2 ≤ fuel →
    readElements source stop fuel (sp.drop pos) = left (elements source sp stop pos)
  entries (p : ParamSet) : 2 * (sp.length - pos) + 2 ≤ fuel →
    readTable source stop fuel (sp.drop pos) p = left (entries source sp stop pos p)
  assignment (p : ParamSet) : 2 * (sp.length - pos) + 1 ≤ fuel →
    readAssignment source stop fuel (sp.drop pos) p = left (assignment source sp stop pos p)

namespace Follows

theorem zero : Follows source sp stop 0 pos := by
  refine ⟨?_, ?_, ?_, ?_⟩ <;> intros <;> omega

theorem value_succ (ih : ∀ pos, Follows source sp stop fuel pos)
    (hfuel : 2 * (sp.length - pos) + 1 ≤ fuel + 1) :
    readValue source stop (fuel + 1) (sp.drop pos) = left (Cursor.value source sp stop pos) := by
  rw [Cursor.value]
  cases seen sp stop pos with
  | ending hdrop hpeek hcurrent =>
    rw [hpeek, hcurrent, hdrop, readValue]
    rfl
  | token t q hdrop hpeek hposition =>
    have hleft := q.left_lt
    rw [hpeek, hposition, hdrop]
    obtain ⟨token, position⟩ := t
    unfold readValue
    cases token with
    | openBracket =>
      simp only [(ih q.place).elements (by omega)]
      cases Cursor.elements source sp stop q.place <;> rfl
    | openBrace =>
      simp only [(ih q.place).entries [] (by omega)]
      cases Cursor.entries source sp stop q.place [] <;> rfl
    | _ => rfl

/-- behind an element: a comma, the closing bracket, or a mistake -/
theorem elements_after (ih : ∀ pos, Follows source sp stop fuel pos)
    (hfuel : 2 * (sp.length - pos) + 1 ≤ fuel) (x : Value) (q : Behind sp stop pos) :
    (match sp.drop q.place with
      | ⟨.closeBracket, _⟩ :: rest => .ok ([x], rest)
      | ⟨.comma, _⟩ :: rest => do
        let (xs, rest) ← readElements source stop fuel rest
        .ok (x :: xs, rest)
      | [] => .error (.sequenceOpen, stop)
      | t :: _ => .error (.expectedSeparator, t.position))
      = left (match peek sp stop q.place with
        | some (.comma, r) => do
          let (xs, e) ← Cursor.elements source sp stop r.place
          .ok (x :: xs, (q.trans r).trans e)
        | some (.closeBracket, _) => do
          let (xs, e) ← Cursor.elements source sp stop q.place
          .ok (x :: xs, q.trans e)
        | none => .error (.sequenceOpen, (current sp stop q.place).position)
        | _ => .error (.expectedSeparator, (current sp stop q.place).position)) := by
  have hleft := q.left_lt
  cases seen sp stop q.place with
  | ending hdrop hpeek hcurrent =>
    rw [hpeek, hcurrent, hdrop]
    rfl
  | token t r hdrop hpeek hposition =>
    have hright := r.left_lt
    rw [hpeek, hposition, hdrop]
    obtain ⟨token, position⟩ := t
    cases token with
    | comma =>
      simp only [(ih r.place).elements (by omega)]
      cases Cursor.elements source sp stop r.place <;> rfl
    | closeBracket =>
      -- the cursor stays at the bracket, and the loop comes by it again
      have hend : Cursor.elements source sp stop q.place = .ok ([], r) := by
        rw [Cursor.elements, hpeek]
      simp only [hend]
      rfl
    | _ => rfl

theorem elements_succ (ih : ∀ pos, Follows source sp stop fuel pos)
    (hfuel : 2 * (sp.length - pos) + 2 ≤ fuel + 1) :
    readElements source stop (fuel + 1) (sp.drop pos)
      = left (Cursor.elements source sp stop pos) := by
  have hread : ((sp.drop pos).map Spanned.token).head? ≠ some .closeBracket →
      (∀ q, peek sp stop pos ≠ some (.closeBracket, q)) →
        readElements source stop (fuel + 1) (sp.drop pos)
          = left (Cursor.elements source sp stop pos) := by
    intro hhead hopen
    rw [readElements_succ hhead, (ih pos).value (by omega), elements_of_open hopen]
    cases Cursor.value source sp stop pos with
    | error e => rfl
    | ok r => exact elements_after ih (by omega) r.1 r.2
  cases seen sp stop pos with
  | ending hdrop hpeek _ =>
    refine hread (by rw [hdrop]; nofun) fun q hq => ?_
    rw [hpeek] at hq
    cases hq
  | token t q hdrop hpeek _ =>
    obtain ⟨token, position⟩ := t
    by_cases hclose : token = .closeBracket
    · subst hclose
      rw [Cursor.elements, hpeek, hdrop, readElements]
      rfl
    · refine hread (by rw [hdrop]; simpa using hclose) fun r hr => ?_
      rw [hpeek] at hr
      exact hclose (Prod.mk.inj (Option.some.inj hr)).1

theorem entries_succ (ih : ∀ pos, Follows source sp stop fuel pos)
    (hfuel : 2 * (sp.length - pos) + 2 ≤ fuel + 1) :
    readTable source stop (fuel + 1) (sp.drop pos) p
      = left (Cursor.entries source sp stop pos p) := by
  cases seen sp stop pos with
  | ending hdrop hpeek hcurrent =>
    rw [Cursor.entries, hpeek, hcurrent, hdrop, readTable]
    rfl
  | token t q hdrop hpeek _ =>
    obtain ⟨token, position⟩ := t
    by_cases hclose : token = .closeBrace
    · subst hclose
      rw [Cursor.entries, hpeek, hdrop, readTable]
      rfl
    · have hopen : ∀ r, peek sp stop pos ≠ some (.closeBrace, r) := by
        intro r hr
        rw [hpeek] at hr
        exact hclose (Prod.mk.inj (Option.some.inj hr)).1
      have hne : sp.drop pos ≠ [] := by
        rw [hdrop]
        exact List.cons_ne_nil _ _
      have hhead : ((sp.drop pos).map Spanned.token).head? ≠ some .closeBrace := by
        rw [hdrop]
        simpa using hclose
      rw [readTable_succ hne hhead, (ih pos).assignment p (by omega),
        entries_of_open hopen (by rw [hpeek]; exact Option.some_ne_none _)]
      cases Cursor.assignment source sp stop pos p with
      | error e => rfl
      | ok r =>
        obtain ⟨p, q⟩ := r
        have hleft := q.left_lt
        dsimp only [left, bind, Except.bind, Except.map]
        rw [(ih q.place).entries p (by omega)]
        cases Cursor.entries source sp stop q.place p <;> rfl

theorem assignment_succ (ih : ∀ pos, Follows source sp stop fuel pos)
    (hfuel : 2 * (sp.length - pos) + 1 ≤ fuel + 1) :
    readAssignment source stop (fuel + 1) (sp.drop pos) p
      = left (Cursor.assignment source sp stop pos p) := by
  rw [Cursor.assignment, readAssignment.eq_def]
  cases seen sp stop pos with
  | ending hdrop hpeek hcurrent =>
    rw [hpeek, hcurrent, hdrop]
    rfl
  | token t q hdrop hpeek hposition =>
    have hleft := q.left_lt
    rw [hpeek, hposition, hdrop]
    obtain ⟨token, start⟩ := t
    cases token with
    | word key =>
      dsimp only
      cases assignmentPath? key with
      | none => rfl
      | some path =>
        dsimp only
        cases seen sp stop q.place with
        | ending hdrop hpeek hcurrent =>
          rw [hpeek, hcurrent, hdrop]
          rfl
        | token t r hdrop hpeek hposition =>
          have hright := r.left_lt
          rw [hpeek, hposition, hdrop]
          obtain ⟨token, position⟩ := t
          cases token with
          | colon =>
            simp only [(ih r.place).value (by omega)]
            cases Cursor.value source sp stop r.place with
            | error e => rfl
            | ok e =>
              obtain ⟨v, e⟩ := e
              dsimp only [left, bind, Except.bind, Except.map]
              cases p.assign path v <;> rfl
          | _ => rfl
    | _ => rfl

end Follows

theorem follows (fuel pos : Nat) : Follows source sp stop fuel pos := by
  induction fuel generalizing pos with
  | zero => exact .zero
  | succ fuel ih =>
    exact ⟨Follows.value_succ ih, Follows.elements_succ ih, fun _ => Follows.entries_succ ih,
      fun _ => Follows.assignment_succ ih⟩

/-! ## documents -/

theorem readAssignments_eq (hfuel : 2 * (sp.length - pos) + 1 ≤ fuel) :
    readAssignments source stop fuel (sp.drop pos) p
      = (document source sp stop pos p).map Prod.fst := by
  induction fuel generalizing pos p with
  | zero => omega
  | succ fuel ih =>
    rw [document]
    cases seen sp stop pos with
    | ending hdrop hpeek _ =>
      rw [hpeek, hdrop, readAssignments]
      rfl
    | token t q hdrop hpeek _ =>
      have hne : sp.drop pos ≠ [] := by
        rw [hdrop]
        exact List.cons_ne_nil _ _
      rw [hpeek, readAssignments.eq_3 source stop _ p fuel hne,
        (follows (fuel + 1) pos).assignment p (by omega)]
      cases assignment source sp stop pos p with
      | error e => rfl
      | ok r =>
        obtain ⟨p, q⟩ := r
        have hleft := q.left_lt
        exact ih (by omega)

theorem readTokens_eq :
    readTokens source sp stop = (document source sp stop 0 []).map Prod.fst :=
  @readAssignments_eq source sp stop 0 _ [] (by omega)

/-- after a document that was read the cursor is at the end -/
theorem place_of_document {q : ParamSet} {e : Nat} (hpos : pos ≤ sp.length)
    (h : document source sp stop pos p = .ok (q, e)) : e = sp.length := by
  fun_induction document source sp stop pos p with
  | case1 pos p hpeek =>
    obtain ⟨_, rfl⟩ := Prod.mk.inj (Except.ok.inj h)
    cases seen sp stop pos with
    | ending hdrop _ _ => exact Nat.le_antisymm hpos (List.drop_eq_nil_iff.1 hdrop)
    | token t r _ hsome _ =>
      rw [hpeek] at hsome
      cases hsome
  | case2 pos p x hpeek ih =>
    obtain ⟨⟨r, next⟩, _, h⟩ := bind_eq_ok.1 h
    have hwithin := next.within
    rw [length_items] at hwithin
    exact ih r next (Nat.le_of_lt_succ hwithin) h

end

/-! ## progress -/

/-- one token or more was taken, and nothing behind the tokens -/
def Takes (ts rest : List Spanned) : Prop := ∃ taken, taken ≠ [] ∧ ts = taken ++ rest

namespace Takes

variable {ts us rest : List Spanned}

theorem token (t : Spanned) (rest : List Spanned) : Takes (t :: rest) rest :=
  ⟨[t], List.cons_ne_nil _ _, rfl⟩

theorem trans (h : Takes ts us) (h' : Takes us rest) : Takes ts rest := by
  obtain ⟨as, has, rfl⟩ := h
  obtain ⟨bs, _, rfl⟩ := h'
  exact ⟨as ++ bs, List.append_ne_nil_of_left_ne_nil has bs, (List.append_assoc _ _ _).symm⟩

end Takes

section
variable {source : String} {stop : Position} {fuel : Nat} {ts rest : List Spanned} {p q : ParamSet}

variable (source stop) in
/-- at this depth, what is read was taken from the tokens -/
structure Moves (fuel : Nat) : Prop where
  value {ts rest : List Spanned} {v : Value} :
    readValue source stop fuel ts = .ok (v, rest) → Takes ts rest
  elements {ts rest : List Spanned} {xs : List Value} :
    readElements source stop fuel ts = .ok (xs, rest) → Takes ts rest
  entries {ts rest : List Spanned} {p q : ParamSet} :
    readTable source stop fuel ts p = .ok (q, rest) → Takes ts rest
  assignment {ts rest : List Spanned} {p q : ParamSet} :
    readAssignment source stop fuel ts p = .ok (q, rest) → Takes ts rest

namespace Moves

theorem zero : Moves source stop 0 := by
  refine ⟨?_, ?_, ?_, ?_⟩
  · intro ts rest v h
    unfold readValue at h
    cases h
  · intro ts rest xs h
    unfold readElements at h
    cases h
  · intro ts rest p q h
    rw [readTable] at h
    cases h
  · intro ts rest p q h
    unfold readAssignment at h
    cases h

theorem value_succ (ih : Moves source stop fuel) {v : Value}
    (h : readValue source stop (fuel + 1) ts = .ok (v, rest)) : Takes ts rest := by
  obtain ⟨t, tail, rfl, hstep⟩ := of_readValue h
  rcases hstep with ⟨_, _, _, rfl⟩ | ⟨_, xs, hxs, _⟩ | ⟨_, es, hes, _⟩
  · exact .token t rest
  · exact (Takes.token t tail).trans (ih.elements hxs)
  · exact (Takes.token t tail).trans (ih.entries hes)

theorem elements_succ (ih : Moves source stop fuel) {xs : List Value}
    (h : readElements source stop (fuel + 1) ts = .ok (xs, rest)) : Takes ts rest := by
  rcases of_readElements h with ⟨_, rfl, _⟩ | ⟨x, after, hx, hstep⟩
  · exact .token _ rest
  · rcases hstep with ⟨_, rfl, _⟩ | ⟨_, tail, ys, rfl, hys, _⟩
    · exact (ih.value hx).trans (.token _ rest)
    · exact ((ih.value hx).trans (.token _ tail)).trans (ih.elements hys)

theorem entries_succ (ih : Moves source stop fuel)
    (h : readTable source stop (fuel + 1) ts p = .ok (q, rest)) : Takes ts rest := by
  rcases of_readTable h with ⟨_, rfl, _⟩ | ⟨r, after, hr, h⟩
  · exact .token _ rest
  · exact (ih.assignment hr).trans (ih.entries h)

theorem assignment_succ (ih : Moves source stop fuel)
    (h : readAssignment source stop (fuel + 1) ts p = .ok (q, rest)) : Takes ts rest := by
  obtain ⟨key, start, colon, tail, path, v, rfl, _, hv, _⟩ := of_readAssignment h
  exact ((Takes.token _ _).trans (.token _ tail)).trans (ih.value hv)

end Moves

theorem moves (fuel : Nat) : Moves source stop fuel := by
  induction fuel with
  | zero => exact .zero
  | succ fuel ih => exact ⟨ih.value_succ, ih.elements_succ, ih.entries_succ, ih.assignment_succ⟩

end

/-! ## the tokens of a text -/

/-- no token without a character -/
theorem length_le_of_splits {cs : List Char} {ts : List Token} (h : Splits cs ts) :
    ts.length ≤ cs.length := by
  induction h with
  | nil => exact Nat.le_refl _
  | blank _ _ ih => exact Nat.le_succ_of_le ih
  | comment _ _ _ ih =>
    rw [List.length_append]
    exact Nat.le_add_left_of_le ih
  | punctuation _ _ ih => exact Nat.succ_le_succ ih
  | quoted _ _ _ ih =>
    simp only [List.length_cons, List.length_append]
    omega
  | word hrun _ _ ih =>
    have hpos := List.length_pos_iff.2 hrun.nonempty
    simp only [List.length_cons, List.length_append]
    omega

theorem token?_eq_none_iff {sp : List Spanned} {stop : Position} {i : Nat} {t : Item}
    (h : (items sp stop)[i]? = some t) : t.token? = none ↔ i + 1 = (items sp stop).length := by
  rw [length_items]
  rcases Nat.lt_trichotomy i sp.length with hi | rfl | hi
  · rw [getElem?_items hi] at h
    obtain rfl := Option.some.inj h
    exact iff_of_false (Option.some_ne_none _) (by omega)
  · rw [getElem?_items_length] at h
    obtain rfl := Option.some.inj h
    exact iff_of_true rfl rfl
  · have hnone : (items sp stop)[i]? = none := by
      rw [List.getElem?_eq_none_iff, length_items]
      exact hi
    rw [hnone] at h
    cases h

/-- **Reading comes to an end.**  A text has no more tokens than characters, the end comes after
them and nowhere else, and no word is empty.  On any row of tokens, whatever a reader returns it has
taken one token or more for it, and none behind the end; so the readers end with nothing to bound
them, and with their bound they return the same.  A document that is read is read to the end. -/
theorem reading_ends (text source : String) :
    (∀ sp stop, lex .start text.toList = .ok (sp, stop) →
        (items sp stop).length ≤ text.length + 1
          ∧ (∀ i t, (items sp stop)[i]? = some t →
              (t.token? = none ↔ i + 1 = (items sp stop).length))
          ∧ ∀ t ∈ items sp stop, t.token? ≠ some (.word ""))
      ∧ ∀ sp stop,
          (∀ fuel, Moves source stop fuel)
          ∧ (∀ fuel pos, Follows source sp stop fuel pos)
          ∧ readTokens source sp stop = (document source sp stop 0 []).map Prod.fst
          ∧ ∀ p e, document source sp stop 0 [] = .ok (p, e) → e + 1 = (items sp stop).length := by
  refine ⟨fun sp stop hlex => ⟨?_, fun i t => token?_eq_none_iff, ?_⟩,
    fun sp stop => ⟨moves, follows, readTokens_eq, fun p e h => ?_⟩⟩
  · have hlength := length_le_of_splits (splits_of_lex hlex)
    rw [List.length_map, String.length_toList] at hlength
    rw [length_items]
    exact Nat.succ_le_succ hlength
  · rintro t ht hword
    rcases List.mem_append.1 ht with ht | ht
    · obtain ⟨s, hs, rfl⟩ := List.mem_map.1 ht
      have hgenuine := isGenuine_of_lex hlex s hs
      rw [Option.some.inj hword] at hgenuine
      exact hgenuine.1 rfl
    · obtain rfl := List.mem_singleton.1 ht
      cases hword
  · rw [place_of_document (Nat.zero_le _) h, length_items]

end Cursor
end ParamSchema

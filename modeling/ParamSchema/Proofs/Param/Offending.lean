import ParamSchema.Proofs.Param.Parts

/-!
# Where a document goes wrong

A text that is refused goes wrong at one place (`Offends`): where the lexer meets what no text may
hold, at the first token that no document goes on with, or at the key of the first assignment that
fails.  The readers complain about the token that they have next, or about a key; each of them fails
where its part goes wrong (`failsWhere`).
-/

namespace ParamSchema

/-! ## going wrong at the next token -/

section
variable {source : String} {text : List Char} {P : Part} {f : ReadFault} {x : Written} {v : Value}
  {p : ParamSet} {key : String} {path : List String} {good : List Mark} {s : Nat}

/-- the position that a reader reports when it complains about the next token -/
theorem nextPosition_map_spanned (text : List Char) (ms : List Mark) :
    nextPosition (positionAt text text.length) (ms.map (Mark.spanned text))
      = positionAt text (nextOffset text ms) := by
  cases ms <;> rfl

theorem head?_map_spanned {text : List Char} {ms : List Mark} {m : Mark} (h : ms.head? = some m) :
    (ms.map (Mark.spanned text)).head? = some (m.spanned text) := by
  rw [List.head?_map, h, Option.map_some]

theorem Fails.of_next (good back : List Mark) (hrejects : f.Rejects (back.head?.map Mark.token))
    (htexts : ∃ more, P.texts (good ++ more))
    (hstarts : ∀ more, more.head? = back.head? → ¬ P.starts (good ++ more))
    (hclashes : ∀ o, ¬ P.clashes o good) :
    Fails text P (good ++ back)
      (f, nextPosition (positionAt text text.length) (back.map (Mark.spanned text))) :=
  ⟨_, nextPosition_map_spanned text back,
    .inl ⟨good, back, rfl, rfl, hrejects, htexts, hstarts, hclashes⟩⟩

/-- no value starts with the next token -/
theorem fails_value (back : List Mark) (hrejects : f.Rejects (back.head?.map Mark.token))
    (hback : ∀ m ∈ back.head?, ¬ m.token.StartsValue) :
    Fails text (valuePart source text) back
      (f, nextPosition (positionAt text text.length) (back.map (Mark.spanned text))) := by
  refine Fails.of_next [] back hrejects ⟨[⟨.word "", 0⟩], .atom 0 "", .word⟩
    (fun more hmore h => ?_) (fun o hc => by cases hc)
  obtain ⟨x, ms, rest, hx, heq⟩ := starts_value.1 h
  obtain ⟨m, ms, rfl, hm⟩ := hx.exists_cons
  refine hback m ?_ hm
  rw [← hmore]
  exact congrArg List.head? heq

/-- neither a comma nor the closing bracket follows a value of a sequence -/
theorem fails_elements (back : List Mark) (hx : IsWritten x good)
    (hv : x.eval source text = .ok v) (hrejects : f.Rejects (back.head?.map Mark.token))
    (hback : ∀ m ∈ back.head?, m.token ≠ .comma ∧ m.token ≠ .closeBracket) :
    Fails text (elementsPart source text) (good ++ back)
      (f, nextPosition (positionAt text text.length) (back.map (Mark.spanned text))) := by
  refine Fails.of_next good back hrejects ⟨[⟨.closeBracket, 0⟩], [x], good, 0, .last hx, rfl⟩
    (fun more hmore h => ?_) (fun o hc => ?_)
  · obtain ⟨xs, ms, c, rest, hxs, heq⟩ := starts_elements.1 h
    cases hxs with
    | nil => exact hx.append_ne_closeBracket heq
    | last hy =>
      obtain ⟨rfl, rfl⟩ := hx.unique hy heq
      obtain rfl := List.append_cancel_left heq
      exact (hback _ hmore.symm).2 rfl
    | cons hy _ =>
      rw [List.append_assoc] at heq
      obtain ⟨rfl, rfl⟩ := hx.unique hy heq
      obtain rfl := List.append_cancel_left heq
      exact (hback _ hmore.symm).1 rfl
  · have hc : ClashesElements source text o (good ++ []) := by
      rw [List.append_nil]
      exact hc
    rcases hc.of_append hx with hc | ⟨c, ns, hcomma, _⟩
    · exact hx.not_clashes hv hc
    · cases hcomma

/-- the text ends in a table -/
theorem fails_table :
    Fails text (tablePart source text p) [] (.tableOpen, positionAt text text.length) := by
  refine Fails.of_next [] [] rfl ⟨[⟨.closeBrace, 0⟩], [], [], 0, .nil, rfl⟩
    (fun more hmore h => ?_) (fun o hc => by cases hc)
  obtain rfl := List.head?_eq_none_iff.1 hmore
  obtain ⟨as, ms, c, rest, _, heq⟩ := starts_table.1 h
  exact List.append_ne_nil_of_right_ne_nil ms (List.cons_ne_nil _ _) heq.symm

/-- the next token is not the key of an assignment -/
theorem fails_key (back : List Mark) (hrejects : f.Rejects (back.head?.map Mark.token))
    (hback : ∀ key path o, IsKeyPath key path → back.head? ≠ some ⟨.word key, o⟩) :
    Fails text (assignmentPart source text p) back
      (f, nextPosition (positionAt text text.length) (back.map (Mark.spanned text))) := by
  have hname : IsKeyPath "a" ["a"] := isKeyPath_singleton (by decide)
  refine Fails.of_next [] back hrejects
    ⟨[⟨.word "a", 0⟩, ⟨.colon, 0⟩, ⟨.word "", 0⟩], "a", ["a"], 0, 0, .atom 0 "", [⟨.word "", 0⟩],
      hname, .word, rfl⟩
    (fun more hmore h => ?_) (fun o hc => by cases hc)
  obtain ⟨key, path, o, c, x, ms, rest, hkey, _, heq⟩ := starts_assignment.1 h
  refine hback key path o hkey ?_
  rw [← hmore]
  exact congrArg List.head? heq

/-- no colon follows the key -/
theorem fails_colon (back : List Mark) (hkey : IsKeyPath key path)
    (hback : ∀ m ∈ back.head?, m.token ≠ .colon) :
    Fails text (assignmentPart source text p) (⟨.word key, s⟩ :: back)
      (.expectedColon,
        nextPosition (positionAt text text.length) (back.map (Mark.spanned text))) := by
  refine Fails.of_next [⟨.word key, s⟩] back (fun hcolon => ?_)
    ⟨[⟨.colon, 0⟩, ⟨.word "", 0⟩], key, path, s, 0, .atom 0 "", [⟨.word "", 0⟩], hkey, .word, rfl⟩
    (fun more hmore h => ?_) (fun o hc => by cases hc)
  · obtain ⟨m, hm, hcolon⟩ := Option.map_eq_some_iff.1 hcolon
    exact hback m hm hcolon
  · obtain ⟨key', path', o, c, x, ms, rest, _, _, heq⟩ := starts_assignment.1 h
    obtain rfl := (List.cons.inj heq).2
    exact hback _ hmore.symm rfl

/-- the path of an assignment leads through something else than a table -/
theorem fails_assign {c : Nat} {ms : List Mark} (hkey : IsKeyPath key path) (hx : IsWritten x good)
    (hv : x.eval source text = .ok v) (hassign : p.assign path v = .error f) :
    Fails text (assignmentPart source text p)
      (⟨.word key, s⟩ :: ⟨.colon, c⟩ :: (good ++ ms)) (f, positionAt text s) := by
  refine ⟨s, rfl, .inr ⟨exists_eq_notATable hassign, .here hkey hx hv fun hpath => ?_⟩⟩
  obtain ⟨q, hq⟩ := exists_assign_iff (v := v).2 hpath
  rw [hassign] at hq
  cases hq

end

/-! ## one step of a reader that fails -/

section
variable {source : String} {stop : Position} {fuel : Nat} {sp : List Spanned} {p : ParamSet}
  {e : ReadFault × Position}

theorem of_readValue_eq_error (h : readValue source stop (fuel + 1) sp = .error e) :
    (sp = [] ∧ e = (.valueMissing, stop))
      ∨ ∃ t tail, sp = t :: tail ∧
        ((¬ t.token.StartsValue ∧ e = (.expectedValue, t.position))
          ∨ (t.token = .openBracket ∧ readElements source stop fuel tail = .error e)
          ∨ (t.token = .openBrace ∧ readTable source stop fuel tail [] = .error e)) := by
  unfold readValue at h
  cases sp with
  | nil => exact .inl ⟨rfl, (Except.error.inj h).symm⟩
  | cons t tail =>
    refine .inr ⟨t, tail, rfl, ?_⟩
    dsimp only at h
    split at h
    · cases h
    · cases h
    · rename_i ht
      rcases bind_eq_error.1 h with h | ⟨_, _, h⟩
      · exact .inr (.inl ⟨ht, h⟩)
      · cases h
    · rename_i ht
      rcases bind_eq_error.1 h with h | ⟨_, _, h⟩
      · exact .inr (.inr ⟨ht, h⟩)
      · cases h
    · rename_i hword hquoted hbracket hbrace
      refine .inl ⟨fun ht => ?_, (Except.error.inj h).symm⟩
      cases htoken : t.token with
      | word s => exact hword s htoken
      | quoted s => exact hquoted s htoken
      | openBracket => exact hbracket htoken
      | openBrace => exact hbrace htoken
      | colon | comma | closeBracket | closeBrace =>
        rw [htoken] at ht
        exact ht

theorem of_readElements_eq_error (h : readElements source stop (fuel + 1) sp = .error e) :
    (∀ c, sp.head? ≠ some ⟨.closeBracket, c⟩)
      ∧ (readValue source stop fuel sp = .error e
        ∨ ∃ v after, readValue source stop fuel sp = .ok (v, after)
          ∧ ((∃ c tail, after = ⟨.comma, c⟩ :: tail
                ∧ readElements source stop fuel tail = .error e)
            ∨ (after = [] ∧ e = (.sequenceOpen, stop))
            ∨ ∃ t tail, after = t :: tail ∧ t.token ≠ .comma ∧ t.token ≠ .closeBracket
                ∧ e = (.expectedSeparator, t.position))) := by
  have hnext : ∀ c, sp.head? ≠ some ⟨.closeBracket, c⟩ := by
    intro c hc
    obtain ⟨tail, rfl⟩ := List.head?_eq_some_iff.1 hc
    unfold readElements at h
    cases h
  refine ⟨hnext, ?_⟩
  have hopen : (sp.map Spanned.token).head? ≠ some .closeBracket := by
    intro hc
    rw [List.head?_map] at hc
    obtain ⟨⟨t, c⟩, hm, rfl⟩ := Option.map_eq_some_iff.1 hc
    exact hnext c hm
  rw [readElements_succ hopen] at h
  rcases bind_eq_error.1 h with h | ⟨⟨v, after⟩, hv, h⟩
  · exact .inl h
  · refine .inr ⟨v, after, hv, ?_⟩
    dsimp only at h
    split at h
    · cases h
    · rename_i c tail
      rcases bind_eq_error.1 h with h | ⟨_, _, h⟩
      · exact .inl ⟨c, tail, rfl, h⟩
      · cases h
    · exact .inr (.inl ⟨rfl, (Except.error.inj h).symm⟩)
    · rename_i t tail hclose hcomma
      refine .inr (.inr ⟨t, tail, rfl, ?_, ?_, (Except.error.inj h).symm⟩)
      · intro ht
        exact hcomma t.position (congrArg (Spanned.mk · t.position) ht)
      · intro ht
        exact hclose t.position (congrArg (Spanned.mk · t.position) ht)

theorem of_readTable_eq_error (h : readTable source stop (fuel + 1) sp p = .error e) :
    (sp = [] ∧ e = (.tableOpen, stop))
      ∨ ((∀ c, sp.head? ≠ some ⟨.closeBrace, c⟩)
        ∧ (readAssignment source stop fuel sp p = .error e
          ∨ ∃ r after, readAssignment source stop fuel sp p = .ok (r, after)
            ∧ readTable source stop fuel after r = .error e)) := by
  cases sp with
  | nil =>
    rw [readTable] at h
    exact .inl ⟨rfl, (Except.error.inj h).symm⟩
  | cons t tail =>
    have hnext : ∀ c, (t :: tail).head? ≠ some ⟨.closeBrace, c⟩ := by
      intro c hc
      obtain rfl := Option.some.inj hc
      rw [readTable] at h
      cases h
    have hopen : ((t :: tail).map Spanned.token).head? ≠ some .closeBrace := by
      intro hc
      exact hnext t.position (congrArg (fun token => some (Spanned.mk token t.position))
        (Option.some.inj hc))
    rw [readTable_succ (List.cons_ne_nil t tail) hopen] at h
    rcases bind_eq_error.1 h with h | ⟨⟨r, after⟩, hr, h⟩
    · exact .inr ⟨hnext, .inl h⟩
    · exact .inr ⟨hnext, .inr ⟨r, after, hr, h⟩⟩

theorem of_readAssignment_eq_error (h : readAssignment source stop (fuel + 1) sp p = .error e) :
    ((∀ key c, sp.head? ≠ some ⟨.word key, c⟩) ∧ e = (.expectedName, nextPosition stop sp))
      ∨ ∃ key start tail, sp = ⟨.word key, start⟩ :: tail ∧
        (((∀ path, ¬ IsKeyPath key path) ∧ e = (.invalidName key, start))
          ∨ ∃ path, IsKeyPath key path ∧
            (((∀ c, tail.head? ≠ some ⟨.colon, c⟩)
                ∧ e = (.expectedColon, nextPosition stop tail))
              ∨ ∃ colon after, tail = ⟨.colon, colon⟩ :: after
                ∧ (readValue source stop fuel after = .error e
                  ∨ ∃ v rest f, readValue source stop fuel after = .ok (v, rest)
                    ∧ p.assign path v = .error f ∧ e = (f, start)))) := by
  rw [readAssignment.eq_def] at h
  split at h
  · rename_i hzero
    cases hzero
  · rename_i key start tail hsucc
    obtain rfl := Nat.succ.inj hsucc
    refine .inr ⟨key, start, tail, rfl, ?_⟩
    cases hpath : assignmentPath? key with
    | none =>
      rw [hpath] at h
      refine .inl ⟨fun path hkey => ?_, (Except.error.inj h).symm⟩
      rw [assignmentPath?_eq_some.2 hkey] at hpath
      cases hpath
    | some path =>
      rw [hpath] at h
      refine .inr ⟨path, assignmentPath?_eq_some.1 hpath, ?_⟩
      dsimp only at h
      split at h
      · rename_i colon after
        refine .inr ⟨colon, after, rfl, ?_⟩
        rcases bind_eq_error.1 h with h | ⟨⟨v, rest⟩, hv, h⟩
        · exact .inl h
        · dsimp only at h
          split at h
          · cases h
          · rename_i f hassign
            exact .inr ⟨v, rest, f, hv, hassign, (Except.error.inj h).symm⟩
      · rename_i hcolon
        refine .inl ⟨fun c hc => ?_, (Except.error.inj h).symm⟩
        obtain ⟨after, rfl⟩ := List.head?_eq_some_iff.1 hc
        exact hcolon c after rfl
  · rename_i hword
    refine .inl ⟨fun key c hc => ?_, (Except.error.inj h).symm⟩
    obtain ⟨tail, rfl⟩ := List.head?_eq_some_iff.1 hc
    exact hword key c tail rfl

end

/-! ## the readers -/

section
variable {source : String} {text : List Char} {fuel : Nat} {ms : List Mark} {p : ParamSet}
  {e : ReadFault × Position}

variable (source text) in
/-- With depth enough a reader fails where its part goes wrong.  Two calls for each token are enough,
since of two calls in a row one takes a token. -/
structure FailsWhere (fuel : Nat) : Prop where
  value {ms : List Mark} {e : ReadFault × Position} : 2 * ms.length + 1 ≤ fuel →
    readValue source (positionAt text text.length) fuel (ms.map (Mark.spanned text)) = .error e →
      Fails text (valuePart source text) ms e
  elements {ms : List Mark} {e : ReadFault × Position} : 2 * ms.length + 2 ≤ fuel →
    readElements source (positionAt text text.length) fuel (ms.map (Mark.spanned text))
        = .error e →
      Fails text (elementsPart source text) ms e
  table {ms : List Mark} {p : ParamSet} {e : ReadFault × Position} : 2 * ms.length + 2 ≤ fuel →
    readTable source (positionAt text text.length) fuel (ms.map (Mark.spanned text)) p
        = .error e →
      Fails text (tablePart source text p) ms e
  assignment {ms : List Mark} {p : ParamSet} {e : ReadFault × Position} :
    2 * ms.length + 1 ≤ fuel →
    readAssignment source (positionAt text text.length) fuel (ms.map (Mark.spanned text)) p
        = .error e →
      Fails text (assignmentPart source text p) ms e

namespace FailsWhere

theorem zero : FailsWhere source text 0 where
  value hfuel := absurd hfuel (by omega)
  elements hfuel := absurd hfuel (by omega)
  table hfuel := absurd hfuel (by omega)
  assignment hfuel := absurd hfuel (by omega)

theorem value_succ (ih : FailsWhere source text fuel) (hfuel : 2 * ms.length + 1 ≤ fuel + 1)
    (h : readValue source (positionAt text text.length) (fuel + 1) (ms.map (Mark.spanned text))
      = .error e) : Fails text (valuePart source text) ms e := by
  rcases of_readValue_eq_error h with ⟨hms, rfl⟩ | ⟨t, tail, hms, hstep⟩
  · obtain rfl := List.map_eq_nil_iff.1 hms
    exact fails_value [] rfl fun m hm => nomatch hm
  · obtain ⟨⟨t, o⟩, back, rfl, rfl, rfl⟩ := List.map_eq_cons_iff.1 hms
    rw [List.length_cons] at hfuel
    rcases hstep with ⟨ht, rfl⟩ | ⟨ht, hinner⟩ | ⟨ht, hinner⟩
    · refine fails_value (⟨t, o⟩ :: back) ⟨t, rfl, ht⟩ fun m hm => ?_
      obtain rfl := Option.some.inj hm
      exact ht
    · obtain rfl : t = .openBracket := ht
      exact (ih.elements (by omega) hinner).within elements_within_value
    · obtain rfl : t = .openBrace := ht
      exact (ih.table (by omega) hinner).within table_within_value

theorem elements_succ (ih : FailsWhere source text fuel) (hfuel : 2 * ms.length + 2 ≤ fuel + 1)
    (h : readElements source (positionAt text text.length) (fuel + 1) (ms.map (Mark.spanned text))
      = .error e) : Fails text (elementsPart source text) ms e := by
  obtain ⟨hopen, hfirst | ⟨v, after, hv, hstep⟩⟩ := of_readElements_eq_error h
  · have hnext : ∀ c, ms.head? ≠ some ⟨.closeBracket, c⟩ := by
      intro c hc
      exact hopen _ (head?_map_spanned hc)
    exact (ih.value (by omega) hfirst).within (value_within_elements hnext)
  · obtain ⟨front, back, x, rfl, hback, hx, heval⟩ := (readsWritten fuel).value hv
    have hpos := hx.length_pos
    rw [List.length_append] at hfuel
    rcases hstep with ⟨c, tail, rfl, hrest⟩ | ⟨rfl, rfl⟩ | ⟨t, tail, rfl, hcomma, hclosing, rfl⟩
    · obtain ⟨c, back, rfl, rfl⟩ := exists_of_map_spanned_eq_cons hback.symm
      rw [List.length_cons] at hfuel
      have hwithin :=
        (ih.elements (by omega) hrest).within (elements_within_elements (c := c) hx heval)
      rwa [List.append_assoc] at hwithin
    · obtain rfl := List.map_eq_nil_iff.1 hback.symm
      exact fails_elements [] hx heval rfl fun m hm => nomatch hm
    · obtain ⟨⟨t, o⟩, back, rfl, rfl, rfl⟩ := List.map_eq_cons_iff.1 hback.symm
      refine fails_elements (⟨t, o⟩ :: back) hx heval ⟨t, rfl, hcomma, hclosing⟩ fun m hm => ?_
      obtain rfl := Option.some.inj hm
      exact ⟨hcomma, hclosing⟩

theorem table_succ (ih : FailsWhere source text fuel) (hfuel : 2 * ms.length + 2 ≤ fuel + 1)
    (h : readTable source (positionAt text text.length) (fuel + 1) (ms.map (Mark.spanned text)) p
      = .error e) : Fails text (tablePart source text p) ms e := by
  rcases of_readTable_eq_error h with ⟨hms, rfl⟩ | ⟨hopen, hfirst | ⟨r, after, hr, hrest⟩⟩
  · obtain rfl := List.map_eq_nil_iff.1 hms
    exact fails_table
  · have hnext : ∀ c, ms.head? ≠ some ⟨.closeBrace, c⟩ := by
      intro c hc
      exact hopen _ (head?_map_spanned hc)
    exact (ih.assignment (by omega) hfirst).within (assignment_within_table hnext)
  · obtain ⟨key, o, c, front, back, path, x, v, rfl, rfl, hkey, hx, heval, hassign⟩ :=
      (readsWritten fuel).assignment hr
    simp only [List.length_cons, List.length_append] at hfuel
    exact (ih.table (by omega) hrest).within (table_within_table hkey hx heval hassign)

theorem assignment_succ (ih : FailsWhere source text fuel) (hfuel : 2 * ms.length + 1 ≤ fuel + 1)
    (h : readAssignment source (positionAt text text.length) (fuel + 1)
      (ms.map (Mark.spanned text)) p = .error e) :
    Fails text (assignmentPart source text p) ms e := by
  rcases of_readAssignment_eq_error h with ⟨hword, rfl⟩ | ⟨key, start, tail, hms, hstep⟩
  · have hnext : ∀ key o, ms.head? ≠ some ⟨.word key, o⟩ := by
      intro key o hm
      exact hword _ _ (head?_map_spanned hm)
    refine fails_key ms (fun key hm => ?_) fun key _ o _ => hnext key o
    obtain ⟨⟨t, o⟩, hm, rfl⟩ := Option.map_eq_some_iff.1 hm
    exact hnext key o hm
  · obtain ⟨⟨t, o⟩, ms, rfl, hm, rfl⟩ := List.map_eq_cons_iff.1 hms
    obtain ⟨rfl, rfl⟩ := Spanned.mk.inj hm
    rcases hstep with ⟨hinvalid, rfl⟩ | ⟨path, hkey, ⟨hcolon, rfl⟩ | ⟨colon, after, htail, hstep⟩⟩
    · refine fails_key (⟨.word key, o⟩ :: ms) ⟨rfl, hinvalid⟩ fun key' path _ hkey hm => ?_
      obtain rfl := Token.word.inj (Mark.mk.inj (Option.some.inj hm)).1
      exact hinvalid path hkey
    · refine fails_colon ms hkey ?_
      rintro ⟨t, c⟩ hm rfl
      exact hcolon _ (head?_map_spanned hm)
    · obtain ⟨c, back, rfl, rfl⟩ := exists_of_map_spanned_eq_cons htail
      simp only [List.length_cons] at hfuel
      rcases hstep with hvalue | ⟨v, rest, f, hv, hassign, rfl⟩
      · exact (ih.value (by omega) hvalue).within (value_within_assignment hkey)
      · obtain ⟨front, back, x, rfl, _, hx, heval⟩ := (readsWritten fuel).value hv
        exact fails_assign hkey hx heval hassign

end FailsWhere

theorem failsWhere (fuel : Nat) : FailsWhere source text fuel := by
  induction fuel with
  | zero => exact .zero
  | succ fuel ih => exact ⟨ih.value_succ, ih.elements_succ, ih.table_succ, ih.assignment_succ⟩

/-- reading a document fails where it goes wrong -/
theorem fails_of_readAssignments (hfuel : 2 * ms.length + 2 ≤ fuel)
    (h : readAssignments source (positionAt text text.length) fuel (ms.map (Mark.spanned text)) p
      = .error e) : Fails text (documentPart source text p) ms e := by
  induction fuel generalizing ms p with
  | zero => omega
  | succ fuel ih =>
    cases ms with
    | nil =>
      rw [List.map_nil, readAssignments] at h
      cases h
    | cons m back =>
      rw [readAssignments] at h
      · rcases bind_eq_error.1 h with h | ⟨⟨r, after⟩, hr, h⟩
        · have hnext : (m :: back).head? ≠ none := by
            intro hnone
            cases hnone
          exact ((failsWhere _).assignment (by omega) h).within (assignment_within_document hnext)
        · obtain ⟨key, o, c, front, rest, path, x, v, hms, rfl, hkey, hx, heval, hassign⟩ :=
            (readsWritten (fuel + 1)).assignment hr
          rw [hms] at hfuel ⊢
          simp only [List.length_cons, List.length_append] at hfuel
          exact (ih (by omega) h).within (document_within_document hkey hx heval hassign)
      · exact List.cons_ne_nil _ _

end

/-! ## documents -/

/-- a text goes wrong with this fault at this offset -/
inductive Offends (source : String) (text : List Char) : ReadFault → Nat → Prop
  /-- the lexer refuses what is there -/
  | refused {f : ReadFault} {ms : List Mark} {o : Nat} {rest : List Char} :
      Marks 0 text ms o rest → Refused f rest → Offends source text f o
  /-- What is before is the front of a document, and no assignment of it fails; but no document goes
  on as the text does there, with this token or by its end. -/
  | stray {f : ReadFault} {good back : List Mark} :
      Marks 0 text (good ++ back) text.length [] →
        f.Rejects (back.head?.map Mark.token) →
        (∃ as more, AreAssignments as (good ++ more)) →
        (∀ as more, more.head? = back.head? → ¬ AreAssignments as (good ++ more)) →
        (∀ o, ¬ ClashesAssignments source text o [] good) →
        Offends source text f (nextOffset text back)
  /-- the first assignment that fails has its key there -/
  | clash {name rest : String} {ms : List Mark} {o : Nat} :
      Marks 0 text ms text.length [] → ClashesAssignments source text o [] ms →
        Offends source text (.notATable name rest) o

theorem offends_of_readLocated {source : String} {text : List Char} {e : ReadFault × Position}
    (h : readLocated source text = .error e) :
    ∃ o, Offends source text e.1 o ∧ e.2 = positionAt text o := by
  have hexact := exact_lex (Counted.start text)
  rcases bind_eq_error.1 h with h | ⟨⟨sp, stop⟩, hlex, h⟩
  · rw [h] at hexact
    obtain ⟨ms, o, rest, hms, hrefused, hp⟩ := hexact
    exact ⟨o, .refused hms hrefused, hp⟩
  · rw [hlex] at hexact
    obtain ⟨ms, hms, rfl, rfl⟩ := hexact
    have hfails : Fails text (documentPart source text []) ms e := by
      refine fails_of_readAssignments ?_ h
      rw [List.length_map]
    obtain ⟨o, he, hstrays | ⟨⟨name, rest, hf⟩, hclash⟩⟩ := hfails
    · obtain ⟨good, back, rfl, rfl, hrejects, ⟨more, as, has⟩, hstarts, hclashes⟩ := hstrays
      exact ⟨_, .stray hms hrejects ⟨as, more, has⟩
        (fun as more hmore has => hstarts more hmore ⟨as, has⟩) hclashes, he⟩
    · rw [hf]
      exact ⟨o, .clash hms hclash, he⟩

/-- **Positions are exact.**  The fault of a document is reported at the line and column of the
offset where the document goes wrong.  If nothing does, the document is read as its assignments, and
every value has the source for its origin and the line that its first token is on; a table that was
opened on the way to a value has the line of that value.  No line and no column is greater than the
length of the text and one. -/
theorem readDocument_positions (text source : String) :
    (match readDocument text source with
      | .error e => ∃ f o, Offends source text.toList f o
          ∧ e = ⟨source, lineAt text.toList o, columnAt text.toList o, f.message⟩
      | .ok p => ∃ ms as, Marks 0 text.toList ms text.toList.length [] ∧ AreAssignments as ms
          ∧ evalAssignments source text.toList [] as = .ok p
          ∧ p.StartsAt source text.toList (startsAfter (fun _ => none) as))
      ∧ ∀ o, lineAt text.toList o ≤ text.length + 1 ∧ columnAt text.toList o ≤ text.length + 1 := by
  refine ⟨?_, fun o => ?_⟩
  · cases hread : readDocument text source with
    | error e =>
      rw [readDocument] at hread
      split at hread
      · cases hread
      · rename_i f p hlocated
        obtain ⟨o, hoffends, rfl⟩ := offends_of_readLocated hlocated
        exact ⟨f, o, hoffends, (Except.error.inj hread).symm⟩
    | ok p =>
      obtain ⟨sp, stop, hlex, htokens⟩ := readDocument_eq_ok.1 hread
      have hexact := exact_lex (Counted.start text.toList)
      rw [hlex] at hexact
      obtain ⟨ms, hms, rfl, rfl⟩ := hexact
      obtain ⟨as, has, heval⟩ := exists_areAssignments_of_readAssignments htokens
      exact ⟨ms, as, hms, has, heval, has.startsAt heval⟩
  · rw [← String.length_toList]
    exact ⟨lineAt_le _ o, columnAt_le _ o⟩

end ParamSchema

import ParamSchema.Proofs.Param.Written

/-!
# One way to read tokens

Tokens are derived from one form only, and no value is the front of another: where a value ends does
not depend on what follows it (`IsWritten.unique`).  The elements of a sequence and the assignments
of a table are delimited by the bracket or brace behind them (`AreElements.unique`,
`AreAssignments.unique`).
-/

namespace ParamSchema

/-- what the first token of a value may be -/
def Token.StartsValue : Token → Prop
  | .word _ | .quoted _ | .openBracket | .openBrace => True
  | _ => False

theorem IsKeyPath.unique {key : String} {path path' : List String} (h : IsKeyPath key path)
    (h' : IsKeyPath key path') : path = path' :=
  Option.some.inj ((assignmentPath?_eq_some.2 h).symm.trans (assignmentPath?_eq_some.2 h'))

section
variable {x : Written} {ms us vs : List Mark} {c : Nat}

theorem IsWritten.exists_cons (h : IsWritten x ms) :
    ∃ m back, ms = m :: back ∧ m.token.StartsValue := by
  cases h with
  | word => exact ⟨_, _, rfl, trivial⟩
  | quoted => exact ⟨_, _, rfl, trivial⟩
  | sequence _ => exact ⟨_, _, rfl, trivial⟩
  | table _ => exact ⟨_, _, rfl, trivial⟩

theorem IsWritten.length_pos (h : IsWritten x ms) : 0 < ms.length := by
  obtain ⟨m, back, rfl, _⟩ := h.exists_cons
  exact Nat.succ_pos _

theorem IsWritten.append_ne_closeBracket (h : IsWritten x ms) :
    ms ++ us ≠ ⟨.closeBracket, c⟩ :: vs := by
  intro heq
  obtain ⟨m, back, rfl, hm⟩ := h.exists_cons
  obtain rfl : m = ⟨.closeBracket, c⟩ := (List.cons.inj heq).1
  exact hm

end

/-! ## unique reading -/

mutual

theorem IsWritten.unique {x y : Written} {ms ns us vs : List Mark} (h : IsWritten x ms)
    (h' : IsWritten y ns) (heq : ms ++ us = ns ++ vs) : x = y ∧ ms = ns := by
  match h with
  | .word =>
    cases h' <;> cases heq
    exact ⟨rfl, rfl⟩
  | .quoted =>
    cases h' <;> cases heq
    exact ⟨rfl, rfl⟩
  | .sequence hxs =>
    cases h' with
    | word => cases heq
    | quoted => cases heq
    | table _ => cases heq
    | sequence hys =>
      simp only [List.cons_append, List.append_assoc, List.nil_append, List.cons.injEq,
        Mark.mk.injEq, true_and] at heq
      obtain ⟨rfl, heq⟩ := heq
      obtain ⟨rfl, rfl⟩ := hxs.unique hys heq
      cases List.append_cancel_left heq
      exact ⟨rfl, rfl⟩
  | .table has =>
    cases h' with
    | word => cases heq
    | quoted => cases heq
    | sequence _ => cases heq
    | table hbs =>
      simp only [List.cons_append, List.append_assoc, List.nil_append, List.cons.injEq,
        Mark.mk.injEq, true_and] at heq
      obtain ⟨rfl, heq⟩ := heq
      obtain ⟨rfl, rfl⟩ := has.unique hbs heq
      cases List.append_cancel_left heq
      exact ⟨rfl, rfl⟩

theorem AreElements.unique {xs ys : List Written} {ms ns us vs : List Mark} {c d : Nat}
    (h : AreElements xs ms) (h' : AreElements ys ns)
    (heq : ms ++ ⟨.closeBracket, c⟩ :: us = ns ++ ⟨.closeBracket, d⟩ :: vs) :
    xs = ys ∧ ms = ns := by
  match h with
  | .nil =>
    cases h' with
    | nil => exact ⟨rfl, rfl⟩
    | last hy => exact absurd heq.symm hy.append_ne_closeBracket
    | cons hy _ =>
      rw [List.append_assoc] at heq
      exact absurd heq.symm hy.append_ne_closeBracket
  | .last hx =>
    cases h' with
    | nil => exact absurd heq hx.append_ne_closeBracket
    | last hy =>
      obtain ⟨rfl, rfl⟩ := hx.unique hy heq
      exact ⟨rfl, rfl⟩
    | cons hy _ =>
      rw [List.append_assoc] at heq
      obtain ⟨rfl, rfl⟩ := hx.unique hy heq
      cases List.append_cancel_left heq
  | .cons hx hxs =>
    rw [List.append_assoc] at heq
    cases h' with
    | nil => exact absurd heq hx.append_ne_closeBracket
    | last hy =>
      obtain ⟨rfl, rfl⟩ := hx.unique hy heq
      cases List.append_cancel_left heq
    | cons hy hys =>
      rw [List.append_assoc] at heq
      obtain ⟨rfl, rfl⟩ := hx.unique hy heq
      have htail := List.append_cancel_left heq
      simp only [List.cons_append, List.cons.injEq, Mark.mk.injEq, true_and] at htail
      obtain ⟨rfl, htail⟩ := htail
      obtain ⟨rfl, rfl⟩ := hxs.unique hys htail
      exact ⟨rfl, rfl⟩

theorem AreAssignments.unique {as bs : List (List String × Written)} {ms ns us vs : List Mark}
    {c d : Nat} (h : AreAssignments as ms) (h' : AreAssignments bs ns)
    (heq : ms ++ ⟨.closeBrace, c⟩ :: us = ns ++ ⟨.closeBrace, d⟩ :: vs) : as = bs ∧ ms = ns := by
  match h with
  | .nil =>
    cases h' with
    | nil => exact ⟨rfl, rfl⟩
    | cons _ _ _ => cases heq
  | .cons hkey hx has =>
    cases h' with
    | nil => cases heq
    | cons hkey' hy hbs =>
      simp only [List.cons_append, List.append_assoc, List.cons.injEq, Mark.mk.injEq,
        Token.word.injEq, true_and] at heq
      obtain ⟨⟨rfl, rfl⟩, rfl, heq⟩ := heq
      obtain rfl := hkey.unique hkey'
      obtain ⟨rfl, rfl⟩ := hx.unique hy heq
      obtain ⟨rfl, rfl⟩ := has.unique hbs (List.append_cancel_left heq)
      exact ⟨rfl, rfl⟩

end

end ParamSchema

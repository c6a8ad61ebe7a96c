import ParamSchema.Proofs.Param.Grammar
import ParamSchema.Proofs.Param.Splitting

/-!
# The language of documents

A text is read exactly if it splits into tokens, the grammar derives these from assignments, and the
assignments fit; it is then read as what they build (`readDocument_language`).

* `ReadsAs`, `IsValue.readsAs`      what the grammar derives is read, given depth enough;
* `Derives`, `derives`              what is read the grammar derives, at any depth.
-/

namespace ParamSchema

theorem exists_of_map_token_eq_cons {sp : List Spanned} {t : Token} {ts : List Token}
    (h : sp.map Spanned.token = t :: ts) :
    ∃ p rest, sp = ⟨t, p⟩ :: rest ∧ rest.map Spanned.token = ts := by
  obtain ⟨⟨t', p⟩, rest, rfl, rfl, hrest⟩ := List.map_eq_cons_iff.1 h
  exact ⟨p, rest, rfl, hrest⟩

section
variable (source : String) (stop : Position)

/-- the tokens, whatever follows, are read as the value, up to origins -/
def ReadsAs (ts : List Token) (w : Value) : Prop :=
  ∀ (fuel : Nat) (sp : List Spanned) (us : List Token),
    sp.map Spanned.token = ts ++ us → 2 * ts.length ≤ fuel →
      ∃ v rest, readValue source stop fuel sp = .ok (v, rest)
        ∧ rest.map Spanned.token = us ∧ v.erase = w

end

section
variable {source : String} {stop : Position}

/-! ## one step of a reader -/

/-- what does not close a sequence starts with an element -/
theorem readElements_succ {fuel : Nat} {sp : List Spanned}
    (h : (sp.map Spanned.token).head? ≠ some .closeBracket) :
    readElements source stop (fuel + 1) sp
      = (readValue source stop fuel sp >>= fun (x, rest) =>
          match rest with
          | ⟨.closeBracket, _⟩ :: rest => .ok ([x], rest)
          | ⟨.comma, _⟩ :: rest => do
            let (xs, rest) ← readElements source stop fuel rest
            .ok (x :: xs, rest)
          | [] => .error (.sequenceOpen, stop)
          | t :: _ => .error (.expectedSeparator, t.position)) := by
  have hopen : ∀ position rest, sp ≠ ⟨.closeBracket, position⟩ :: rest := by
    intro position rest hsp
    rw [hsp] at h
    exact h rfl
  exact readElements.eq_3 source stop sp fuel hopen

/-- what does not close a table starts with an assignment -/
theorem readTable_succ {p : ParamSet} {fuel : Nat} {sp : List Spanned} (hne : sp ≠ [])
    (h : (sp.map Spanned.token).head? ≠ some .closeBrace) :
    readTable source stop (fuel + 1) sp p
      = (readAssignment source stop fuel sp p >>= fun (p, rest) =>
          readTable source stop fuel rest p) := by
  rw [readTable]
  · exact hne
  · rintro q rest rfl
    exact h rfl

/-- what reading a value comes down to -/
theorem of_readValue {fuel : Nat} {sp rest : List Spanned} {v : Value}
    (h : readValue source stop (fuel + 1) sp = .ok (v, rest)) :
    ∃ t tail, sp = t :: tail ∧
      ((∃ s, (t.token = .word s ∨ t.token = .quoted s)
          ∧ v = .atom (some ⟨source, t.position.line⟩) s ∧ rest = tail)
        ∨ (t.token = .openBracket ∧ ∃ xs, readElements source stop fuel tail = .ok (xs, rest)
          ∧ v = .sequence (some ⟨source, t.position.line⟩) xs)
        ∨ (t.token = .openBrace ∧ ∃ es, readTable source stop fuel tail [] = .ok (es, rest)
          ∧ v = .table (some ⟨source, t.position.line⟩) es)) := by
  cases sp with
  | nil =>
    unfold readValue at h
    cases h
  | cons t tail =>
    refine ⟨t, tail, rfl, ?_⟩
    unfold readValue at h
    split at h
    · rename_i s hs
      obtain ⟨rfl, rfl⟩ := Prod.mk.inj (Except.ok.inj h)
      exact .inl ⟨s, .inl hs, rfl, rfl⟩
    · rename_i s hs
      obtain ⟨rfl, rfl⟩ := Prod.mk.inj (Except.ok.inj h)
      exact .inl ⟨s, .inr hs, rfl, rfl⟩
    · rename_i ht
      obtain ⟨⟨xs, after⟩, hxs, h⟩ := bind_eq_ok.1 h
      obtain ⟨rfl, rfl⟩ := Prod.mk.inj (Except.ok.inj h)
      exact .inr (.inl ⟨ht, xs, hxs, rfl⟩)
    · rename_i ht
      obtain ⟨⟨es, after⟩, hes, h⟩ := bind_eq_ok.1 h
      obtain ⟨rfl, rfl⟩ := Prod.mk.inj (Except.ok.inj h)
      exact .inr (.inr ⟨ht, es, hes, rfl⟩)
    · cases h

theorem of_readElements {fuel : Nat} {sp rest : List Spanned} {xs : List Value}
    (h : readElements source stop (fuel + 1) sp = .ok (xs, rest)) :
    (∃ p, sp = ⟨.closeBracket, p⟩ :: rest ∧ xs = [])
      ∨ ∃ x after, readValue source stop fuel sp = .ok (x, after)
        ∧ ((∃ p, after = ⟨.closeBracket, p⟩ :: rest ∧ xs = [x])
          ∨ ∃ p tail ys, after = ⟨.comma, p⟩ :: tail
            ∧ readElements source stop fuel tail = .ok (ys, rest) ∧ xs = x :: ys) := by
  by_cases hclose : (sp.map Spanned.token).head? = some .closeBracket
  · obtain ⟨us, hus⟩ := List.head?_eq_some_iff.1 hclose
    obtain ⟨position, tail, rfl, _⟩ := exists_of_map_token_eq_cons hus
    unfold readElements at h
    obtain ⟨rfl, rfl⟩ := Prod.mk.inj (Except.ok.inj h)
    exact .inl ⟨position, rfl, rfl⟩
  · right
    rw [readElements_succ hclose] at h
    obtain ⟨⟨x, after⟩, hx, h⟩ := bind_eq_ok.1 h
    refine ⟨x, after, hx, ?_⟩
    dsimp only at h
    split at h
    · rename_i position tail
      obtain ⟨rfl, rfl⟩ := Prod.mk.inj (Except.ok.inj h)
      exact .inl ⟨position, rfl, rfl⟩
    · rename_i position tail
      obtain ⟨⟨ys, last⟩, hys, h⟩ := bind_eq_ok.1 h
      obtain ⟨rfl, rfl⟩ := Prod.mk.inj (Except.ok.inj h)
      exact .inr ⟨position, tail, ys, rfl, hys, rfl⟩
    · cases h
    · cases h

theorem of_readTable {fuel : Nat} {sp rest : List Spanned} {p q : ParamSet}
    (h : readTable source stop (fuel + 1) sp p = .ok (q, rest)) :
    (∃ position, sp = ⟨.closeBrace, position⟩ :: rest ∧ q = p)
      ∨ ∃ r after, readAssignment source stop fuel sp p = .ok (r, after)
        ∧ readTable source stop fuel after r = .ok (q, rest) := by
  by_cases hclose : (sp.map Spanned.token).head? = some .closeBrace
  · obtain ⟨us, hus⟩ := List.head?_eq_some_iff.1 hclose
    obtain ⟨position, tail, rfl, _⟩ := exists_of_map_token_eq_cons hus
    rw [readTable] at h
    obtain ⟨rfl, rfl⟩ := Prod.mk.inj (Except.ok.inj h)
    exact .inl ⟨position, rfl, rfl⟩
  · cases sp with
    | nil =>
      rw [readTable] at h
      cases h
    | cons t tail =>
      rw [readTable_succ (List.cons_ne_nil t tail) hclose] at h
      obtain ⟨⟨r, after⟩, hr, h⟩ := bind_eq_ok.1 h
      exact .inr ⟨r, after, hr, h⟩

theorem of_readAssignment {fuel : Nat} {sp rest : List Spanned} {p q : ParamSet}
    (h : readAssignment source stop (fuel + 1) sp p = .ok (q, rest)) :
    ∃ key start colon tail path v, sp = ⟨.word key, start⟩ :: ⟨.colon, colon⟩ :: tail
      ∧ IsKeyPath key path ∧ readValue source stop fuel tail = .ok (v, rest)
      ∧ p.assign path v = .ok q := by
  rw [readAssignment.eq_def] at h
  split at h
  · cases h
  · rename_i key start tail hfuel
    obtain rfl := Nat.succ.inj hfuel
    cases hpath : assignmentPath? key with
    | none =>
      rw [hpath] at h
      cases h
    | some path =>
      rw [hpath] at h
      dsimp only at h
      split at h
      · rename_i colon after
        obtain ⟨⟨v, last⟩, hv, h⟩ := bind_eq_ok.1 h
        dsimp only at h
        split at h
        · rename_i r hr
          obtain ⟨rfl, rfl⟩ := Prod.mk.inj (Except.ok.inj h)
          exact ⟨key, start, colon, after, path, v, rfl, assignmentPath?_eq_some.1 hpath, hv, hr⟩
        · cases h
      · cases h
  · cases h

theorem of_readAssignments {fuel : Nat} {sp : List Spanned} {p q : ParamSet}
    (h : readAssignments source stop fuel sp p = .ok q) :
    (sp = [] ∧ q = p)
      ∨ ∃ n r after, fuel = n + 1 ∧ readAssignment source stop fuel sp p = .ok (r, after)
        ∧ readAssignments source stop n after r = .ok q := by
  cases sp with
  | nil =>
    rw [readAssignments] at h
    exact .inl ⟨rfl, (Except.ok.inj h).symm⟩
  | cons t tail =>
    cases fuel with
    | zero =>
      rw [readAssignments] at h
      · cases h
      · exact List.cons_ne_nil _ _
    | succ n =>
      rw [readAssignments] at h
      · obtain ⟨⟨r, after⟩, hr, h⟩ := bind_eq_ok.1 h
        exact .inr ⟨n, r, after, rfl, hr, h⟩
      · exact List.cons_ne_nil _ _

/-! ## what the grammar derives -/

variable {x : Form} {xs : List Form} {as : List (List String × Form)} {ts us vs : List Token}

theorem IsValue.length_pos (h : IsValue x ts) : 0 < ts.length := by
  cases h <;> simp

/-- no value starts with a closing bracket -/
theorem IsValue.head?_ne (h : IsValue x ts) : (ts ++ us).head? ≠ some .closeBracket := by
  cases h <;> simp

theorem IsValue.readElements_last {w : Value} (h : IsValue x ts) (hx : ReadsAs source stop ts w)
    (fuel : Nat) {sp : List Spanned} (hsp : sp.map Spanned.token = ts ++ .closeBracket :: us)
    (hfuel : 2 * ts.length + 1 ≤ fuel) :
    ∃ v rest, readElements source stop fuel sp = .ok ([v], rest)
      ∧ rest.map Spanned.token = us ∧ v.erase = w := by
  obtain ⟨fuel, rfl⟩ := Nat.exists_eq_succ_of_ne_zero (n := fuel) (by omega)
  obtain ⟨v, rest, hv, hrest, hvw⟩ := hx fuel sp _ hsp (by omega)
  obtain ⟨p, after, rfl, hafter⟩ := exists_of_map_token_eq_cons hrest
  refine ⟨v, after, ?_, hafter, hvw⟩
  rw [readElements_succ (by rw [hsp]; exact h.head?_ne), hv]
  rfl

theorem IsValue.readElements_cons {w : Value} (h : IsValue x ts) (hx : ReadsAs source stop ts w)
    (fuel : Nat) {sp : List Spanned} (hsp : sp.map Spanned.token = ts ++ .comma :: us)
    (hfuel : 2 * ts.length ≤ fuel) :
    ∃ v rest, rest.map Spanned.token = us ∧ v.erase = w
      ∧ readElements source stop (fuel + 1) sp
        = (readElements source stop fuel rest >>= fun (xs, rest) => .ok (v :: xs, rest)) := by
  obtain ⟨v, rest, hv, hrest, hvw⟩ := hx fuel sp _ hsp hfuel
  obtain ⟨p, after, rfl, hafter⟩ := exists_of_map_token_eq_cons hrest
  refine ⟨v, after, hafter, hvw, ?_⟩
  rw [readElements_succ (by rw [hsp]; exact h.head?_ne), hv]
  rfl

theorem ReadsAs.readAssignment {key : String} {path : List String} {w : Value}
    (hx : ReadsAs source stop ts w) (hkey : IsKeyPath key path) {p : ParamSet}
    (hpath : p.erase.Passable path) (fuel : Nat) {sp : List Spanned}
    (hsp : sp.map Spanned.token = .word key :: .colon :: (ts ++ us))
    (hfuel : 2 * ts.length + 1 ≤ fuel) :
    ∃ q rest, readAssignment source stop fuel sp p = .ok (q, rest)
      ∧ rest.map Spanned.token = us ∧ ParamSet.erase q = p.erase.put path w := by
  obtain ⟨fuel, rfl⟩ := Nat.exists_eq_succ_of_ne_zero (n := fuel) (by omega)
  obtain ⟨start, tail, rfl, htail⟩ := exists_of_map_token_eq_cons hsp
  obtain ⟨colon, value, rfl, hvalue⟩ := exists_of_map_token_eq_cons htail
  obtain ⟨v, rest, hv, hrest, rfl⟩ := hx fuel value us hvalue (by omega)
  obtain ⟨q, hq, herase⟩ := exists_assign hpath v
  refine ⟨q, rest, ?_, hrest, herase⟩
  rw [ParamSchema.readAssignment, assignmentPath?_eq_some.2 hkey]
  dsimp only
  rw [hv]
  dsimp only [bind, Except.bind]
  rw [hq]

mutual

theorem IsValue.readsAs {x : Form} {ts : List Token} (h : IsValue x ts) (hfit : x.Fits) :
    ReadsAs source stop ts x.value := by
  intro fuel sp us hsp hfuel
  have hpos := h.length_pos
  obtain ⟨fuel, rfl⟩ := Nat.exists_eq_succ_of_ne_zero (n := fuel) (by omega)
  match h with
  | .word | .quoted =>
    obtain ⟨p, rest, rfl, hrest⟩ := exists_of_map_token_eq_cons hsp
    exact ⟨_, rest, by rw [readValue], hrest, rfl⟩
  | .sequence hxs =>
    rw [List.append_assoc, List.cons_append] at hsp
    obtain ⟨p, rest, rfl, hrest⟩ := exists_of_map_token_eq_cons hsp
    simp only [List.length_cons, List.length_append, List.length_nil] at hfuel
    obtain ⟨vs, last, hvs, hlast, hvse⟩ := hxs.reads hfit fuel hrest (by omega)
    refine ⟨.sequence (some ⟨source, p.line⟩) vs, last, ?_, hlast, ?_⟩
    · unfold readValue
      simp only [hvs]
      rfl
    · rw [Value.erase, hvse, Form.value]
  | .table has =>
    rw [List.append_assoc, List.cons_append] at hsp
    obtain ⟨p, rest, rfl, hrest⟩ := exists_of_map_token_eq_cons hsp
    simp only [List.length_cons, List.length_append, List.length_nil] at hfuel
    obtain ⟨q, last, hq, hlast, hqe⟩ := has.reads (p := []) hfit fuel hrest (by omega)
    refine ⟨.table (some ⟨source, p.line⟩) q, last, ?_, hlast, ?_⟩
    · unfold readValue
      simp only [hq]
      rfl
    · rw [Value.erase, Form.value]
      exact congrArg _ hqe

theorem IsElements.reads {xs : List Form} {ts us : List Token} (h : IsElements xs ts)
    (hfit : AllFit xs) (fuel : Nat) {sp : List Spanned}
    (hsp : sp.map Spanned.token = ts ++ .closeBracket :: us) (hfuel : 2 * ts.length + 2 ≤ fuel) :
    ∃ vs rest, readElements source stop fuel sp = .ok (vs, rest)
      ∧ rest.map Spanned.token = us ∧ Value.eraseAll vs = formValues xs := by
  match h with
  | .nil =>
    obtain ⟨fuel, rfl⟩ := Nat.exists_eq_succ_of_ne_zero (n := fuel) (by omega)
    obtain ⟨p, rest, rfl, hrest⟩ := exists_of_map_token_eq_cons hsp
    exact ⟨[], rest, by rw [readElements], hrest, rfl⟩
  | .last hx =>
    obtain ⟨v, rest, hv, hrest, hve⟩ :=
      hx.readElements_last (hx.readsAs hfit.1) fuel hsp (by omega)
    refine ⟨[v], rest, hv, hrest, ?_⟩
    rw [formValues, formValues, ← hve]
    rfl
  | .cons hx hxs =>
    obtain ⟨fuel, rfl⟩ := Nat.exists_eq_succ_of_ne_zero (n := fuel) (by omega)
    rw [List.append_assoc] at hsp
    rw [List.length_append, List.length_cons] at hfuel
    obtain ⟨v, rest, hrest, hve, hread⟩ :=
      hx.readElements_cons (hx.readsAs hfit.1) fuel hsp (by omega)
    obtain ⟨vs, last, hvs, hlast, hvse⟩ := hxs.reads hfit.2 fuel hrest (by omega)
    refine ⟨v :: vs, last, ?_, hlast, ?_⟩
    · rw [hread, hvs]
      rfl
    · rw [Value.eraseAll, formValues, hve, hvse]

theorem IsAssignments.reads {as : List (List String × Form)} {ts us : List Token}
    (h : IsAssignments as ts) {p : ParamSet} (hfit : AssignmentsFit p.erase as) (fuel : Nat)
    {sp : List Spanned} (hsp : sp.map Spanned.token = ts ++ .closeBrace :: us)
    (hfuel : 2 * ts.length + 2 ≤ fuel) :
    ∃ q rest, readTable source stop fuel sp p = .ok (q, rest)
      ∧ rest.map Spanned.token = us ∧ ParamSet.erase q = build p.erase as := by
  obtain ⟨fuel, rfl⟩ := Nat.exists_eq_succ_of_ne_zero (n := fuel) (by omega)
  match h with
  | .nil =>
    obtain ⟨position, rest, rfl, hrest⟩ := exists_of_map_token_eq_cons hsp
    exact ⟨p, rest, by rw [readTable], hrest, rfl⟩
  | .cons hkey hx has =>
    obtain ⟨hxfit, hpath, hasfit⟩ := hfit
    simp only [List.length_cons, List.length_append] at hfuel
    have hne : sp ≠ [] := by
      rintro rfl
      cases hsp
    have hopen : (sp.map Spanned.token).head? ≠ some .closeBrace := by
      rw [hsp]
      simp
    rw [List.cons_append, List.cons_append, List.cons_append, List.cons_append,
      List.append_assoc] at hsp
    obtain ⟨q, rest, hq, hrest, herase⟩ :=
      (hx.readsAs hxfit).readAssignment hkey hpath fuel hsp (by omega)
    rw [← herase] at hasfit
    obtain ⟨r, last, hr, hlast, hre⟩ := has.reads hasfit fuel hrest (by omega)
    refine ⟨r, last, ?_, hlast, ?_⟩
    · rw [readTable_succ hne hopen, hq]
      exact hr
    · rw [hre, herase, build]

end

/-- assignments up to the end of the text -/
theorem IsAssignments.readAssignments {as : List (List String × Form)} {ts : List Token}
    (h : IsAssignments as ts) {p : ParamSet} (hfit : AssignmentsFit p.erase as) (fuel : Nat)
    {sp : List Spanned} (hsp : sp.map Spanned.token = ts) (hfuel : 2 * ts.length ≤ fuel) :
    ∃ q, readAssignments source stop fuel sp p = .ok q ∧ ParamSet.erase q = build p.erase as := by
  induction as generalizing ts p fuel sp with
  | nil =>
    cases h with
    | nil =>
      obtain rfl := List.map_eq_nil_iff.1 hsp
      exact ⟨p, by rw [ParamSchema.readAssignments], rfl⟩
  | cons a as ih =>
    cases h with
    | @cons key path x as ts us hkey hx has =>
      obtain ⟨hxfit, hpath, hasfit⟩ := hfit
      simp only [List.length_cons, List.length_append] at hfuel
      have hne : sp ≠ [] := by
        rintro rfl
        cases hsp
      obtain ⟨fuel, rfl⟩ := Nat.exists_eq_succ_of_ne_zero (n := fuel) (by omega)
      rw [List.cons_append, List.cons_append] at hsp
      obtain ⟨q, rest, hq, hrest, herase⟩ :=
        (hx.readsAs hxfit).readAssignment hkey hpath (fuel + 1) hsp (by omega)
      rw [← herase] at hasfit
      obtain ⟨r, hr, hre⟩ := ih has hasfit fuel hrest (by omega)
      refine ⟨r, ?_, ?_⟩
      · rw [ParamSchema.readAssignments]
        · rw [hq]
          exact hr
        · exact hne
      · rw [hre, herase, build]

/-! ## what is read -/

variable (source stop) in
/-- at this depth, what is read is derived from a form that fits, and read as its value -/
structure Derives (fuel : Nat) : Prop where
  value {sp rest : List Spanned} {v : Value} :
    readValue source stop fuel sp = .ok (v, rest) →
      ∃ x ts, sp.map Spanned.token = ts ++ rest.map Spanned.token
        ∧ IsValue x ts ∧ x.Fits ∧ x.value = v.erase
  elements {sp rest : List Spanned} {vs : List Value} :
    readElements source stop fuel sp = .ok (vs, rest) →
      ∃ xs ts, sp.map Spanned.token = ts ++ .closeBracket :: rest.map Spanned.token
        ∧ IsElements xs ts ∧ AllFit xs ∧ formValues xs = Value.eraseAll vs
  table {sp rest : List Spanned} {p q : ParamSet} :
    readTable source stop fuel sp p = .ok (q, rest) →
      ∃ as ts, sp.map Spanned.token = ts ++ .closeBrace :: rest.map Spanned.token
        ∧ IsAssignments as ts ∧ AssignmentsFit p.erase as ∧ build p.erase as = ParamSet.erase q
  assignment {sp rest : List Spanned} {p q : ParamSet} :
    readAssignment source stop fuel sp p = .ok (q, rest) →
      ∃ key path x ts,
        sp.map Spanned.token = .word key :: .colon :: ts ++ rest.map Spanned.token
          ∧ IsKeyPath key path ∧ IsValue x ts ∧ x.Fits ∧ p.erase.Passable path
          ∧ p.erase.put path x.value = ParamSet.erase q

namespace Derives

variable {fuel : Nat} {sp rest : List Spanned} {p q : ParamSet}

theorem zero : Derives source stop 0 := by
  refine ⟨?_, ?_, ?_, ?_⟩
  · intro sp rest v h
    unfold readValue at h
    cases h
  · intro sp rest vs h
    unfold readElements at h
    cases h
  · intro sp rest p q h
    rw [readTable] at h
    cases h
  · intro sp rest p q h
    unfold readAssignment at h
    cases h

theorem value_succ (ih : Derives source stop fuel) {v : Value}
    (h : readValue source stop (fuel + 1) sp = .ok (v, rest)) :
    ∃ x ts, sp.map Spanned.token = ts ++ rest.map Spanned.token
      ∧ IsValue x ts ∧ x.Fits ∧ x.value = v.erase := by
  obtain ⟨⟨token, position⟩, tail, rfl, hstep⟩ := of_readValue h
  rcases hstep with ⟨s, rfl | rfl, rfl, rfl⟩ | ⟨rfl, vs, hvs, rfl⟩ | ⟨rfl, q, hq, rfl⟩
  · exact ⟨.atom s, [.word s], rfl, .word, trivial, rfl⟩
  · exact ⟨.atom s, [.quoted s], rfl, .quoted, trivial, rfl⟩
  · obtain ⟨xs, ts, hts, hxs, hfit, hvalue⟩ := ih.elements hvs
    refine ⟨.sequence xs, _, ?_, .sequence hxs, hfit, ?_⟩
    · rw [List.map_cons, hts, List.append_assoc, List.cons_append]
      rfl
    · rw [Form.value, Value.erase, hvalue]
  · obtain ⟨as, ts, hts, has, hfit, hbuild⟩ := ih.table hq
    refine ⟨.table as, _, ?_, .table has, hfit, ?_⟩
    · rw [List.map_cons, hts, List.append_assoc, List.cons_append]
      rfl
    · rw [Form.value, Value.erase]
      exact congrArg _ hbuild

theorem elements_succ (ih : Derives source stop fuel) {vs : List Value}
    (h : readElements source stop (fuel + 1) sp = .ok (vs, rest)) :
    ∃ xs ts, sp.map Spanned.token = ts ++ .closeBracket :: rest.map Spanned.token
      ∧ IsElements xs ts ∧ AllFit xs ∧ formValues xs = Value.eraseAll vs := by
  rcases of_readElements h with ⟨position, rfl, rfl⟩ | ⟨v, after, hv, hstep⟩
  · exact ⟨[], [], rfl, .nil, trivial, rfl⟩
  · obtain ⟨x, ts, hts, hx, hfit, hvalue⟩ := ih.value hv
    rcases hstep with ⟨position, rfl, rfl⟩ | ⟨position, tail, ws, rfl, hws, rfl⟩
    · refine ⟨[x], ts, hts, .last hx, ⟨hfit, trivial⟩, ?_⟩
      rw [formValues, formValues, hvalue]
      rfl
    · obtain ⟨xs, us, hus, hxs, hallfit, hvalues⟩ := ih.elements hws
      refine ⟨x :: xs, _, ?_, .cons hx hxs, ⟨hfit, hallfit⟩, ?_⟩
      · rw [hts, List.map_cons, hus, List.append_assoc, List.cons_append]
      · rw [formValues, Value.eraseAll, hvalue, hvalues]

theorem table_succ (ih : Derives source stop fuel)
    (h : readTable source stop (fuel + 1) sp p = .ok (q, rest)) :
    ∃ as ts, sp.map Spanned.token = ts ++ .closeBrace :: rest.map Spanned.token
      ∧ IsAssignments as ts ∧ AssignmentsFit p.erase as
      ∧ build p.erase as = ParamSet.erase q := by
  rcases of_readTable h with ⟨position, rfl, rfl⟩ | ⟨r, after, hr, h⟩
  · exact ⟨[], [], rfl, .nil, trivial, rfl⟩
  · obtain ⟨key, path, x, ts, hts, hkey, hx, hxfit, hpath, hput⟩ := ih.assignment hr
    obtain ⟨as, us, hus, has, hasfit, hbuild⟩ := ih.table h
    rw [← hput] at hasfit hbuild
    refine ⟨(path, x) :: as, _, ?_, .cons hkey hx has, ⟨hxfit, hpath, hasfit⟩, hbuild⟩
    rw [hts, hus, List.append_assoc]

theorem assignment_succ (ih : Derives source stop fuel)
    (h : readAssignment source stop (fuel + 1) sp p = .ok (q, rest)) :
    ∃ key path x ts,
      sp.map Spanned.token = .word key :: .colon :: ts ++ rest.map Spanned.token
        ∧ IsKeyPath key path ∧ IsValue x ts ∧ x.Fits ∧ p.erase.Passable path
        ∧ p.erase.put path x.value = ParamSet.erase q := by
  obtain ⟨key, start, colon, tail, path, v, rfl, hkey, hv, hassign⟩ := of_readAssignment h
  obtain ⟨x, ts, hts, hx, hfit, hvalue⟩ := ih.value hv
  obtain ⟨hpath, herase⟩ := erase_of_assign hassign
  refine ⟨key, path, x, ts, ?_, hkey, hx, hfit, hpath, ?_⟩
  · rw [List.map_cons, List.map_cons, hts]
    rfl
  · rw [hvalue, herase]

end Derives

theorem derives (fuel : Nat) : Derives source stop fuel := by
  induction fuel with
  | zero => exact .zero
  | succ fuel ih => exact ⟨ih.value_succ, ih.elements_succ, ih.table_succ, ih.assignment_succ⟩

theorem exists_isAssignments_of_readAssignments {fuel : Nat} {sp : List Spanned} {p q : ParamSet}
    (h : readAssignments source stop fuel sp p = .ok q) :
    ∃ as, IsAssignments as (sp.map Spanned.token) ∧ AssignmentsFit p.erase as
      ∧ build p.erase as = ParamSet.erase q := by
  induction fuel using Nat.strongRecOn generalizing sp p with
  | _ fuel ih =>
    rcases of_readAssignments h with ⟨rfl, rfl⟩ | ⟨n, r, after, rfl, hr, h⟩
    · exact ⟨[], .nil, trivial, rfl⟩
    · obtain ⟨key, path, x, ts, hts, hkey, hx, hxfit, hpath, hput⟩ :=
        (derives (n + 1)).assignment hr
      obtain ⟨as, has, hasfit, hbuild⟩ := ih n (Nat.lt_succ_self n) h
      rw [← hput] at hasfit hbuild
      refine ⟨(path, x) :: as, ?_, ⟨hxfit, hpath, hasfit⟩, hbuild⟩
      rw [hts]
      exact .cons hkey hx has

end

/-! ## documents -/

theorem readDocument_eq_ok {text source : String} {p : ParamSet} :
    readDocument text source = .ok p ↔
      ∃ sp stop, lex .start text.toList = .ok (sp, stop) ∧ readTokens source sp stop = .ok p := by
  have hlocated : readDocument text source = .ok p ↔ readLocated source text.toList = .ok p := by
    unfold readDocument
    cases readLocated source text.toList with
    | ok q => simp
    | error f =>
      constructor
      · intro h
        cases h
      · intro h
        cases h
  rw [hlocated, readLocated, bind_eq_ok]
  constructor
  · intro h
    obtain ⟨⟨sp, stop⟩, hlex, hread⟩ := h
    exact ⟨sp, stop, hlex, hread⟩
  · intro h
    obtain ⟨sp, stop, hlex, hread⟩ := h
    exact ⟨(sp, stop), hlex, hread⟩

/-- assignments are read as what they build, from any text with their tokens -/
theorem IsAssignments.readTokens {as : List (List String × Form)} {ts : List Token}
    (h : IsAssignments as ts) (hfit : AssignmentsFit [] as) (source : String) (stop : Position)
    {sp : List Spanned} (hsp : sp.map Spanned.token = ts) :
    ∃ q, readTokens source sp stop = .ok q ∧ ParamSet.erase q = build [] as := by
  have hlength : sp.length = ts.length := by rw [← hsp, List.length_map]
  exact h.readAssignments (p := []) hfit _ hsp (by omega)

/-- **The language of documents.**  A text is read exactly if it splits into tokens that the grammar
derives from assignments that fit, and it is then read as the tree that the assignments build. -/
theorem readDocument_language (text source : String) :
    ((∃ p, readDocument text source = .ok p) ↔
        ∃ ts as, Splits text.toList ts ∧ IsAssignments as ts ∧ AssignmentsFit [] as)
      ∧ ∀ ts as, Splits text.toList ts → IsAssignments as ts → AssignmentsFit [] as →
          ∃ p, readDocument text source = .ok p ∧ ParamSet.erase p = build [] as := by
  have hread : ∀ ts as, Splits text.toList ts → IsAssignments as ts → AssignmentsFit [] as →
      ∃ p, readDocument text source = .ok p ∧ ParamSet.erase p = build [] as := by
    intro ts as hsplits has hfit
    obtain ⟨sp, stop, hlex, hsp⟩ := exists_lex_iff.2 hsplits
    obtain ⟨q, hq, herase⟩ := has.readTokens hfit source stop hsp
    exact ⟨q, readDocument_eq_ok.2 ⟨sp, stop, hlex, hq⟩, herase⟩
  refine ⟨⟨?_, ?_⟩, hread⟩
  · rintro ⟨p, hp⟩
    obtain ⟨sp, stop, hlex, htokens⟩ := readDocument_eq_ok.1 hp
    obtain ⟨as, has, hfit, _⟩ := exists_isAssignments_of_readAssignments htokens
    exact ⟨_, as, splits_of_lex hlex, has, hfit⟩
  · rintro ⟨ts, as, hsplits, has, hfit⟩
    obtain ⟨p, hp, _⟩ := hread ts as hsplits has hfit
    exact ⟨p, hp⟩

end ParamSchema

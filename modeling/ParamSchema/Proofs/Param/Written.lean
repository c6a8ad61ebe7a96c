import ParamSchema.Proofs.Param.Assigning
import ParamSchema.Proofs.Param.Position

/-!
# What is written, and where

A `Written` is a form whose values know the offsets that they start at; the grammar derives it from
tokens with their offsets.  To evaluate it is to do its assignments in their order, with the line of
its start for the origin of each value (`Written.eval`).  The readers do just that
(`readsWritten`).

* `Written.startOf?`     where the value at a path has its origin;
* `startsAt_of_eval`     the origins of all values are the lines that these are on.
-/

namespace ParamSchema

/-! ## the grammar, with offsets -/

/-- what a document writes down, each value with the offset of its first token -/
inductive Written where
  | atom (start : Nat) (text : String)
  | sequence (start : Nat) (elements : List Written)
  | table (start : Nat) (assignments : List (List String × Written))

mutual

inductive IsWritten : Written → List Mark → Prop
  | word {o : Nat} {s : String} : IsWritten (.atom o s) [⟨.word s, o⟩]
  | quoted {o : Nat} {s : String} : IsWritten (.atom o s) [⟨.quoted s, o⟩]
  | sequence {o c : Nat} {xs : List Written} {ms : List Mark} :
      AreElements xs ms →
        IsWritten (.sequence o xs) (⟨.openBracket, o⟩ :: ms ++ [⟨.closeBracket, c⟩])
  | table {o c : Nat} {as : List (List String × Written)} {ms : List Mark} :
      AreAssignments as ms →
        IsWritten (.table o as) (⟨.openBrace, o⟩ :: ms ++ [⟨.closeBrace, c⟩])

inductive AreElements : List Written → List Mark → Prop
  | nil : AreElements [] []
  | last {x : Written} {ms : List Mark} : IsWritten x ms → AreElements [x] ms
  | cons {x : Written} {xs : List Written} {c : Nat} {ms ns : List Mark} :
      IsWritten x ms → AreElements xs ns → AreElements (x :: xs) (ms ++ ⟨.comma, c⟩ :: ns)

inductive AreAssignments : List (List String × Written) → List Mark → Prop
  | nil : AreAssignments [] []
  | cons {key : String} {path : List String} {x : Written} {as : List (List String × Written)}
      {o c : Nat} {ms ns : List Mark} :
      IsKeyPath key path → IsWritten x ms → AreAssignments as ns →
        AreAssignments ((path, x) :: as) (⟨.word key, o⟩ :: ⟨.colon, c⟩ :: ms ++ ns)

end

section
variable (source : String) (text : List Char)

mutual
/-- the value, with the origins that its starts give it -/
def Written.eval : Written → Except ReadFault Value
  | .atom o s => .ok (.atom (some ⟨source, lineAt text o⟩) s)
  | .sequence o xs => do
    let vs ← evalElements xs
    .ok (.sequence (some ⟨source, lineAt text o⟩) vs)
  | .table o as => do
    let p ← evalAssignments [] as
    .ok (.table (some ⟨source, lineAt text o⟩) p)
def evalElements : List Written → Except ReadFault (List Value)
  | [] => .ok []
  | x :: xs => do
    let v ← x.eval
    let vs ← evalElements xs
    .ok (v :: vs)
/-- the parameter set after the assignments -/
def evalAssignments (p : ParamSet) : List (List String × Written) → Except ReadFault ParamSet
  | [] => .ok p
  | (path, x) :: as => do
    let v ← x.eval
    let q ← p.assign path v
    evalAssignments q as
end

end

/-! ## where values start -/

/-- The starts after an assignment: at its path and below those of its value; on the way there, a
table that was missing starts where the value does. -/
def assignStarts (starts : List Segment → Option Nat) (path : List String)
    (value : List Segment → Option Nat) (ss : List Segment) : Option Nat :=
  if path.map .name <+: ss then value (ss.drop path.length)
  else if ss <+: path.map .name then (starts ss).or (value [])
  else starts ss

mutual
/-- where the value at a path of a written value starts -/
def Written.startOf? : Written → List Segment → Option Nat
  | .atom o _, [] => some o
  | .atom _ _, _ :: _ => none
  | .sequence o _, [] => some o
  | .sequence _ xs, .index i :: ss => elementStart? xs i ss
  | .sequence _ _, .name _ :: _ => none
  | .table o _, [] => some o
  | .table _ as, s :: ss => startsAfter (fun _ => none) as (s :: ss)
def elementStart? : List Written → Nat → List Segment → Option Nat
  | [], _, _ => none
  | x :: _, 0, ss => x.startOf? ss
  | _ :: xs, i + 1, ss => elementStart? xs i ss
/-- the starts after all assignments, in their order -/
def startsAfter (starts : List Segment → Option Nat) :
    List (List String × Written) → List Segment → Option Nat
  | [], ss => starts ss
  | (path, x) :: as, ss => startsAfter (assignStarts starts path x.startOf?) as ss
end

section
variable (source : String) (text : List Char)

/-- every value in this one has the line of its start for its origin -/
def Value.StartsAt (v : Value) (starts : List Segment → Option Nat) : Prop :=
  ∀ ss, (v.follow? ss).map origin = (starts ss).map fun o => some ⟨source, lineAt text o⟩

/-- every value in the parameter set has -/
def ParamSet.StartsAt (p : ParamSet) (starts : List Segment → Option Nat) : Prop :=
  ∀ ss, ss ≠ [] → ((Value.table none p).follow? ss).map Value.origin
    = (starts ss).map fun o => some ⟨source, lineAt text o⟩

end

section
variable {source : String} {text : List Char} {p q : ParamSet} {v : Value}
  {starts value : List Segment → Option Nat} {path : List String} {ss : List Segment}

/-- a path of segments on the way of a path of names -/
theorem exists_append_of_prefix_names (h : ss <+: path.map .name)
    (hnot : ¬ path.map .name <+: ss) :
    ∃ front name back, path = front ++ name :: back ∧ ss = front.map .name := by
  obtain ⟨rest, hrest⟩ := h
  obtain ⟨front, back, rfl, rfl, rfl⟩ := List.map_eq_append_iff.1 hrest.symm
  cases back with
  | nil =>
    rw [List.append_nil] at hnot
    exact absurd (List.prefix_refl _) hnot
  | cons name back => exact ⟨front, name, back, rfl, rfl⟩

/-- an assignment of a value moves the starts as it moves the values -/
theorem ParamSet.StartsAt.assign (hp : p.StartsAt source text starts)
    (hv : v.StartsAt source text value) (hne : path ≠ []) (h : p.assign path v = .ok q) :
    ParamSet.StartsAt source text q (assignStarts starts path value) := by
  have hupdates : (Value.table none p).Updates path v (.table none q) := updates_of_assign hne h
  intro ss hss
  unfold assignStarts
  split
  · rename_i hbelow
    obtain ⟨below, rfl⟩ := hbelow
    have hdrop : (path.map Segment.name ++ below).drop path.length = below :=
      List.drop_left' (List.length_map _)
    rw [Value.follow?_append, hupdates.stored, Option.bind_some, hdrop]
    exact hv below
  · rename_i hnot
    split
    · rename_i habove
      obtain ⟨front, name, back, hpath, rfl⟩ := exists_append_of_prefix_names habove hnot
      obtain ⟨o, es, fs, hopens, hfs, _⟩ := hupdates.along front name back hpath
      have hold := hp _ hss
      rw [hfs]
      rcases hopens with hthere | ⟨hmissing, rfl, _⟩
      · rw [hthere] at hold
        obtain ⟨n, hn, ho⟩ := Option.map_eq_some_iff.1 hold.symm
        rw [hn, Option.some_or, Option.map_some, Option.map_some, ho]
        rfl
      · rw [hmissing] at hold
        have hnone : starts (front.map .name) = none := Option.map_eq_none_iff.1 hold.symm
        rw [hnone, Option.none_or]
        exact hv []
    · rename_i habove
      rw [hupdates.apart ss habove hnot]
      exact hp ss hss

end

/-! ## evaluation -/

@[elab_as_elim, induction_eliminator]
theorem Written.induction {motive : Written → Prop}
    (atom : ∀ o t, motive (.atom o t))
    (sequence : ∀ o xs, (∀ x ∈ xs, motive x) → motive (.sequence o xs))
    (table : ∀ o as, (∀ a ∈ as, motive a.2) → motive (.table o as)) (x : Written) : motive x :=
  @Written.rec motive (fun xs => ∀ x ∈ xs, motive x) (fun as => ∀ a ∈ as, motive a.2)
    (fun a => motive a.2) atom sequence table (List.forall_mem_nil _)
    (fun _ _ hx hxs => List.forall_mem_cons.2 ⟨hx, hxs⟩) (List.forall_mem_nil _)
    (fun _ _ ha has => List.forall_mem_cons.2 ⟨ha, has⟩) (fun _ _ hx => hx) x

section
variable {source : String} {text : List Char} {p q : ParamSet} {x : Written} {v : Value}
  {xs : List Written} {vs : List Value} {as : List (List String × Written)} {path : List String}

theorem evalElements_cons_eq_ok :
    evalElements source text (x :: xs) = .ok vs
      ↔ ∃ w ws, x.eval source text = .ok w ∧ evalElements source text xs = .ok ws
        ∧ vs = w :: ws := by
  simp only [evalElements, bind_eq_ok]
  constructor
  · rintro ⟨w, hw, ws, hws, h⟩
    exact ⟨w, ws, hw, hws, (Except.ok.inj h).symm⟩
  · rintro ⟨w, ws, hw, hws, rfl⟩
    exact ⟨w, hw, ws, hws, rfl⟩

theorem evalAssignments_cons_eq_ok :
    evalAssignments source text p ((path, x) :: as) = .ok q
      ↔ ∃ w r, x.eval source text = .ok w ∧ p.assign path w = .ok r
        ∧ evalAssignments source text r as = .ok q := by
  simp [evalAssignments, bind_eq_ok]

theorem AreElements.exists_isWritten {ms : List Mark} (h : AreElements xs ms) :
    ∀ x ∈ xs, ∃ ms, IsWritten x ms := by
  induction xs generalizing ms with
  | nil => exact List.forall_mem_nil _
  | cons x xs ih =>
    cases h with
    | last hx => exact List.forall_mem_singleton.2 ⟨ms, hx⟩
    | cons hx hxs => exact List.forall_mem_cons.2 ⟨⟨_, hx⟩, ih hxs⟩

theorem AreAssignments.exists_isWritten {ms : List Mark} (h : AreAssignments as ms) :
    ∀ a ∈ as, a.1 ≠ [] ∧ ∃ ms, IsWritten a.2 ms := by
  induction as generalizing ms with
  | nil => exact List.forall_mem_nil _
  | cons a as ih =>
    cases h with
    | cons hkey hx has => exact List.forall_mem_cons.2 ⟨⟨hkey.nonempty, _, hx⟩, ih has⟩

variable (source text) in
/-- evaluating gives all values the lines of their starts -/
def Written.EvalsAtStarts (x : Written) : Prop :=
  ∀ v, x.eval source text = .ok v → v.StartsAt source text x.startOf?

theorem startsAt_elements (hxs : ∀ x ∈ xs, x.EvalsAtStarts source text)
    (h : evalElements source text xs = .ok vs) (i : Nat) (ss : List Segment) :
    ((vs[i]?).bind fun v => v.follow? ss).map Value.origin
      = (elementStart? xs i ss).map fun o => some ⟨source, lineAt text o⟩ := by
  induction xs generalizing vs i with
  | nil =>
    obtain rfl := Except.ok.inj h
    rfl
  | cons x xs ih =>
    obtain ⟨hx, hxs⟩ := List.forall_mem_cons.1 hxs
    obtain ⟨w, ws, hw, hws, rfl⟩ := evalElements_cons_eq_ok.1 h
    cases i with
    | zero => exact hx w hw ss
    | succ i => exact ih hxs hws i

theorem startsAt_assignments {starts : List Segment → Option Nat}
    (has : ∀ a ∈ as, a.1 ≠ [] ∧ a.2.EvalsAtStarts source text)
    (hp : p.StartsAt source text starts) (h : evalAssignments source text p as = .ok q) :
    q.StartsAt source text (startsAfter starts as) := by
  induction as generalizing p starts with
  | nil =>
    obtain rfl := Except.ok.inj h
    exact hp
  | cons a as ih =>
    obtain ⟨path, x⟩ := a
    obtain ⟨⟨hpath, hx⟩, has⟩ := List.forall_mem_cons.1 has
    obtain ⟨w, r, hw, hr, h⟩ := evalAssignments_cons_eq_ok.1 h
    exact ih has (hp.assign (hx w hw) hpath hr) h

theorem startsAt_empty :
    ParamSet.StartsAt source text ([] : ParamSet) fun _ => none := by
  intro ss hss
  obtain ⟨s, ss, rfl⟩ := List.exists_cons_of_ne_nil hss
  cases s <;> rfl

theorem IsWritten.evalsAtStarts {ms : List Mark} (h : IsWritten x ms) :
    x.EvalsAtStarts source text := by
  induction x generalizing ms with
  | atom o t =>
    rintro v hv ss
    obtain rfl := Except.ok.inj hv
    cases ss with
    | nil => rfl
    | cons s ss => cases s <;> rfl
  | sequence o xs ih =>
    intro v hv ss
    obtain ⟨vs, hvs, hv⟩ := bind_eq_ok.1 hv
    obtain rfl := Except.ok.inj hv
    cases h with
    | sequence hxs =>
      have helements : ∀ x ∈ xs, x.EvalsAtStarts source text := by
        intro x hx
        obtain ⟨ms, hms⟩ := hxs.exists_isWritten x hx
        exact ih x hx hms
      cases ss with
      | nil => rfl
      | cons s ss =>
        cases s with
        | name k => rfl
        | index i => exact startsAt_elements helements hvs i ss
  | table o as ih =>
    intro v hv ss
    obtain ⟨p, hp, hv⟩ := bind_eq_ok.1 hv
    obtain rfl := Except.ok.inj hv
    cases h with
    | table has =>
      have hassignments : ∀ a ∈ as, a.1 ≠ [] ∧ a.2.EvalsAtStarts source text := by
        intro a ha
        obtain ⟨hpath, ms, hms⟩ := has.exists_isWritten a ha
        exact ⟨hpath, ih a ha hms⟩
      cases ss with
      | nil => rfl
      | cons s ss =>
        have hinner := startsAt_assignments hassignments startsAt_empty hp (s :: ss)
          (List.cons_ne_nil s ss)
        cases s <;> exact hinner

/-- evaluating a document gives all its values the lines of their starts -/
theorem AreAssignments.startsAt {ms : List Mark} (h : AreAssignments as ms)
    (hp : evalAssignments source text [] as = .ok p) :
    p.StartsAt source text (startsAfter (fun _ => none) as) := by
  refine startsAt_assignments (fun a ha => ?_) startsAt_empty hp
  obtain ⟨hpath, ms, hms⟩ := h.exists_isWritten a ha
  exact ⟨hpath, hms.evalsAtStarts⟩

end

/-! ## reading -/

section
variable {source : String} {text : List Char} {stop : Position} {fuel : Nat} {ms : List Mark}
  {rest : List Spanned} {p q : ParamSet}

theorem exists_of_map_spanned_eq_cons {t : Token} {at' : Position}
    (h : ms.map (Mark.spanned text) = ⟨t, at'⟩ :: rest) :
    ∃ o back, ms = ⟨t, o⟩ :: back ∧ rest = back.map (Mark.spanned text) := by
  obtain ⟨⟨t', o⟩, back, rfl, hm, hrest⟩ := List.map_eq_cons_iff.1 h
  obtain rfl : t' = t := congrArg Spanned.token hm
  exact ⟨o, back, rfl, hrest.symm⟩

variable (source text stop) in
/-- at this depth, what is read is what the grammar derives a written value from, evaluated -/
structure ReadsWritten (fuel : Nat) : Prop where
  value {ms : List Mark} {rest : List Spanned} {v : Value} :
    readValue source stop fuel (ms.map (Mark.spanned text)) = .ok (v, rest) →
      ∃ front back x, ms = front ++ back ∧ rest = back.map (Mark.spanned text)
        ∧ IsWritten x front ∧ x.eval source text = .ok v
  elements {ms : List Mark} {rest : List Spanned} {vs : List Value} :
    readElements source stop fuel (ms.map (Mark.spanned text)) = .ok (vs, rest) →
      ∃ front c back xs, ms = front ++ ⟨.closeBracket, c⟩ :: back
        ∧ rest = back.map (Mark.spanned text)
        ∧ AreElements xs front ∧ evalElements source text xs = .ok vs
  table {ms : List Mark} {rest : List Spanned} {p q : ParamSet} :
    readTable source stop fuel (ms.map (Mark.spanned text)) p = .ok (q, rest) →
      ∃ front c back as, ms = front ++ ⟨.closeBrace, c⟩ :: back
        ∧ rest = back.map (Mark.spanned text)
        ∧ AreAssignments as front ∧ evalAssignments source text p as = .ok q
  assignment {ms : List Mark} {rest : List Spanned} {p q : ParamSet} :
    readAssignment source stop fuel (ms.map (Mark.spanned text)) p = .ok (q, rest) →
      ∃ key o c front back path x v, ms = ⟨.word key, o⟩ :: ⟨.colon, c⟩ :: (front ++ back)
        ∧ rest = back.map (Mark.spanned text) ∧ IsKeyPath key path
        ∧ IsWritten x front ∧ x.eval source text = .ok v ∧ p.assign path v = .ok q

namespace ReadsWritten

theorem zero : ReadsWritten source text stop 0 := by
  refine ⟨?_, ?_, ?_, ?_⟩
  · intro ms rest v h
    unfold readValue at h
    cases h
  · intro ms rest vs h
    unfold readElements at h
    cases h
  · intro ms rest p q h
    rw [readTable] at h
    cases h
  · intro ms rest p q h
    unfold readAssignment at h
    cases h

theorem value_succ (ih : ReadsWritten source text stop fuel) {v : Value}
    (h : readValue source stop (fuel + 1) (ms.map (Mark.spanned text)) = .ok (v, rest)) :
    ∃ front back x, ms = front ++ back ∧ rest = back.map (Mark.spanned text)
      ∧ IsWritten x front ∧ x.eval source text = .ok v := by
  obtain ⟨t, tail, hms, hstep⟩ := of_readValue h
  obtain ⟨⟨token, o⟩, ms, rfl, rfl, rfl⟩ := List.map_eq_cons_iff.1 hms
  rcases hstep with ⟨s, hs, rfl, rfl⟩ | ⟨ht, vs, hvs, rfl⟩ | ⟨ht, q, hq, rfl⟩
  · refine ⟨[⟨token, o⟩], ms, .atom o s, rfl, rfl, ?_, rfl⟩
    rcases hs with hs | hs
    · obtain rfl : token = .word s := hs
      exact .word
    · obtain rfl : token = .quoted s := hs
      exact .quoted
  · obtain rfl : token = .openBracket := ht
    obtain ⟨front, c, back, xs, rfl, hrest, hxs, heval⟩ := ih.elements hvs
    refine ⟨_, back, .sequence o xs, ?_, hrest, .sequence (c := c) hxs, ?_⟩
    · rw [List.append_assoc, List.cons_append]
      rfl
    · rw [Written.eval, heval]
      rfl
  · obtain rfl : token = .openBrace := ht
    obtain ⟨front, c, back, as, rfl, hrest, has, heval⟩ := ih.table hq
    refine ⟨_, back, .table o as, ?_, hrest, .table (c := c) has, ?_⟩
    · rw [List.append_assoc, List.cons_append]
      rfl
    · rw [Written.eval, heval]
      rfl

theorem elements_succ (ih : ReadsWritten source text stop fuel) {vs : List Value}
    (h : readElements source stop (fuel + 1) (ms.map (Mark.spanned text)) = .ok (vs, rest)) :
    ∃ front c back xs, ms = front ++ ⟨.closeBracket, c⟩ :: back
      ∧ rest = back.map (Mark.spanned text)
      ∧ AreElements xs front ∧ evalElements source text xs = .ok vs := by
  rcases of_readElements h with ⟨position, hms, rfl⟩ | ⟨v, after, hv, hstep⟩
  · obtain ⟨c, back, rfl, hrest⟩ := exists_of_map_spanned_eq_cons hms
    exact ⟨[], c, back, [], rfl, hrest, .nil, rfl⟩
  · obtain ⟨front, back, x, rfl, rfl, hx, heval⟩ := ih.value hv
    rcases hstep with ⟨position, hback, rfl⟩ | ⟨position, tail, ws, hback, hws, rfl⟩
    · obtain ⟨c, back, rfl, hrest⟩ := exists_of_map_spanned_eq_cons hback
      refine ⟨front, c, back, [x], rfl, hrest, .last hx, ?_⟩
      exact evalElements_cons_eq_ok.2 ⟨v, [], heval, rfl, rfl⟩
    · obtain ⟨comma, back, rfl, rfl⟩ := exists_of_map_spanned_eq_cons hback
      obtain ⟨middle, c, back, xs, rfl, hrest, hxs, hevals⟩ := ih.elements hws
      refine ⟨_, c, back, x :: xs, ?_, hrest, .cons (c := comma) hx hxs, ?_⟩
      · rw [List.append_assoc, List.cons_append]
      · exact evalElements_cons_eq_ok.2 ⟨v, ws, heval, hevals, rfl⟩

theorem table_succ (ih : ReadsWritten source text stop fuel)
    (h : readTable source stop (fuel + 1) (ms.map (Mark.spanned text)) p = .ok (q, rest)) :
    ∃ front c back as, ms = front ++ ⟨.closeBrace, c⟩ :: back
      ∧ rest = back.map (Mark.spanned text)
      ∧ AreAssignments as front ∧ evalAssignments source text p as = .ok q := by
  rcases of_readTable h with ⟨position, hms, rfl⟩ | ⟨r, after, hr, h⟩
  · obtain ⟨c, back, rfl, hrest⟩ := exists_of_map_spanned_eq_cons hms
    exact ⟨[], c, back, [], rfl, hrest, .nil, rfl⟩
  · obtain ⟨key, o, colon, front, back, path, x, v, rfl, rfl, hkey, hx, heval, hassign⟩ :=
      ih.assignment hr
    obtain ⟨middle, c, back, as, rfl, hrest, has, hevals⟩ := ih.table h
    refine ⟨_, c, back, (path, x) :: as, ?_, hrest, .cons (o := o) (c := colon) hkey hx has, ?_⟩
    · simp only [List.cons_append, List.append_assoc]
    · exact evalAssignments_cons_eq_ok.2 ⟨v, r, heval, hassign, hevals⟩

theorem assignment_succ (ih : ReadsWritten source text stop fuel)
    (h : readAssignment source stop (fuel + 1) (ms.map (Mark.spanned text)) p = .ok (q, rest)) :
    ∃ key o c front back path x v, ms = ⟨.word key, o⟩ :: ⟨.colon, c⟩ :: (front ++ back)
      ∧ rest = back.map (Mark.spanned text) ∧ IsKeyPath key path
      ∧ IsWritten x front ∧ x.eval source text = .ok v ∧ p.assign path v = .ok q := by
  obtain ⟨key, start, colon, tail, path, v, hms, hkey, hv, hassign⟩ := of_readAssignment h
  obtain ⟨o, ms, rfl, htail⟩ := exists_of_map_spanned_eq_cons hms
  obtain ⟨c, ms, rfl, rfl⟩ := exists_of_map_spanned_eq_cons htail.symm
  obtain ⟨front, back, x, rfl, hrest, hx, heval⟩ := ih.value hv
  exact ⟨key, o, c, front, back, path, x, v, rfl, hrest, hkey, hx, heval, hassign⟩

end ReadsWritten

theorem readsWritten (fuel : Nat) : ReadsWritten source text stop fuel := by
  induction fuel with
  | zero => exact .zero
  | succ fuel ih => exact ⟨ih.value_succ, ih.elements_succ, ih.table_succ, ih.assignment_succ⟩

theorem exists_areAssignments_of_readAssignments
    (h : readAssignments source stop fuel (ms.map (Mark.spanned text)) p = .ok q) :
    ∃ as, AreAssignments as ms ∧ evalAssignments source text p as = .ok q := by
  induction fuel using Nat.strongRecOn generalizing ms p with
  | _ fuel ih =>
    rcases of_readAssignments h with ⟨hms, rfl⟩ | ⟨n, r, after, rfl, hr, h⟩
    · obtain rfl := List.map_eq_nil_iff.1 hms
      exact ⟨[], .nil, rfl⟩
    · obtain ⟨key, o, c, front, back, path, x, v, rfl, rfl, hkey, hx, heval, hassign⟩ :=
        (readsWritten (n + 1)).assignment hr
      obtain ⟨as, has, hevals⟩ := ih n (Nat.lt_succ_self n) h
      refine ⟨(path, x) :: as, ?_, evalAssignments_cons_eq_ok.2 ⟨v, r, heval, hassign, hevals⟩⟩
      exact .cons (o := o) (c := c) hkey hx has

end

end ParamSchema

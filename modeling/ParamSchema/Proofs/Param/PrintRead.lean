import ParamSchema.Proofs.Param.Reading

/-!
# Reading what was printed

What the readers build from genuine tokens can be printed: keys are names, each of them once in its
table, atoms are literals (`ReadsLegible`).  So a document is legible, its print has the tokens of
its tree, and reading these gives the tree back (`readDocument_print`).
-/

namespace ParamSchema

/-! ## assignments -/

namespace ParamSet.Legible

variable {p q : ParamSet}

theorem nil : ParamSet.Legible [] :=
  ⟨List.nodup_nil, List.forall_mem_nil _, List.forall_mem_nil _⟩

theorem insert {k : String} {v : Value} (hp : p.Legible) (hk : isIdentifier k = true)
    (hv : v.Legible) : ParamSet.Legible (Entries.insert p k v) := by
  refine ⟨Entries.nodup_keys_insert k v hp.distinct, ?_, ?_⟩
  · intro e he
    rcases Entries.eq_or_mem_of_mem_insert he with rfl | he
    · exact hk
    · exact hp.names e he
  · intro e he
    rcases Entries.eq_or_mem_of_mem_insert he with rfl | he
    · exact hv
    · exact hp.values e he

theorem toTable {o : Option Origin} (hp : p.Legible) (ho : ∀ a ∈ o, a.OnLine) :
    (Value.table o p).Legible := .table ho hp.distinct hp.names hp.values

theorem ofTable {o : Option Origin} (h : (Value.table o p).Legible) : p.Legible := by
  cases h with
  | table _ hdistinct hnames hvalues => exact ⟨hdistinct, hnames, hvalues⟩

/-- tables that an assignment opens on its way are as legible as its value -/
theorem assign {path : List String} {v : Value} (hp : p.Legible)
    (hpath : ∀ k ∈ path, isIdentifier k = true) (hv : v.Legible) (h : p.assign path v = .ok q) :
    q.Legible := by
  induction path generalizing p q with
  | nil =>
    rw [ParamSet.assign_nil] at h
    exact Except.ok.inj h ▸ hp
  | cons k path ih =>
    have hk := hpath k List.mem_cons_self
    have hrest := fun j hj => hpath j (List.mem_cons_of_mem k hj)
    cases path with
    | nil =>
      rw [ParamSet.assign_singleton] at h
      exact Except.ok.inj h ▸ hp.insert hk hv
    | cons next rest =>
      rw [ParamSet.assign_cons_cons] at h
      cases hget : Entries.get? p k with
      | none =>
        rw [hget] at h
        obtain ⟨inner, hinner, rfl⟩ := map_eq_ok.1 h
        exact hp.insert hk ((ih nil hrest hinner).toTable hv.onLine)
      | some w =>
        rw [hget] at h
        have hw : w.Legible := hp.values (k, w) (Entries.mem_of_get? hget)
        cases w with
        | table o es =>
          obtain ⟨inner, hinner, rfl⟩ := map_eq_ok.1 h
          exact hp.insert hk ((ih (ofTable hw) hrest hinner).toTable hw.onLine)
        | atom o t => cases h
        | sequence o xs => cases h

end ParamSet.Legible

/-! ## what the readers build -/

def Genuine (sp : List Spanned) : Prop := ∀ t ∈ sp, t.token.IsGenuine

/-- at this depth, what is read from genuine tokens is legible, and what is left is genuine -/
structure ReadsLegible (source : String) (stop : Position) (fuel : Nat) : Prop where
  value {sp rest : List Spanned} {v : Value} :
    Genuine sp → readValue source stop fuel sp = .ok (v, rest) → v.Legible ∧ Genuine rest
  elements {sp rest : List Spanned} {xs : List Value} :
    Genuine sp → readElements source stop fuel sp = .ok (xs, rest) →
      (∀ x ∈ xs, x.Legible) ∧ Genuine rest
  table {sp rest : List Spanned} {p q : ParamSet} :
    Genuine sp → p.Legible → readTable source stop fuel sp p = .ok (q, rest) →
      q.Legible ∧ Genuine rest
  assignment {sp rest : List Spanned} {p q : ParamSet} :
    Genuine sp → p.Legible → readAssignment source stop fuel sp p = .ok (q, rest) →
      q.Legible ∧ Genuine rest

namespace ReadsLegible

variable {source : String} {stop : Position} {fuel : Nat}

theorem zero : ReadsLegible source stop 0 := by
  refine ⟨?_, ?_, ?_, ?_⟩
  · intro sp rest v _ h
    unfold readValue at h
    cases h
  · intro sp rest xs _ h
    unfold readElements at h
    cases h
  · intro sp rest p q _ _ h
    rw [readTable] at h
    cases h
  · intro sp rest p q _ _ h
    unfold readAssignment at h
    cases h

theorem value_succ (hsource : '\n' ∉ source.toList) (ih : ReadsLegible source stop fuel)
    {sp rest : List Spanned} {v : Value} (hsp : Genuine sp)
    (h : readValue source stop (fuel + 1) sp = .ok (v, rest)) : v.Legible ∧ Genuine rest := by
  have horigin : ∀ line, ∀ a ∈ some (Origin.mk source line), a.OnLine := by
    intro line a ha
    obtain rfl := Option.some.inj ha
    exact hsource
  obtain ⟨⟨token, position⟩, tail, rfl, hstep⟩ := of_readValue h
  obtain ⟨htoken, htail⟩ := List.forall_mem_cons.1 hsp
  rcases hstep with ⟨s, rfl | rfl, rfl, rfl⟩ | ⟨rfl, xs, hxs, rfl⟩ | ⟨rfl, es, hes, rfl⟩
  · exact ⟨.atom (horigin _) (.inl htoken), htail⟩
  · exact ⟨.atom (horigin _) (.inr htoken), htail⟩
  · obtain ⟨hlegible, hrest⟩ := ih.elements htail hxs
    exact ⟨.sequence (horigin _) hlegible, hrest⟩
  · obtain ⟨hlegible, hrest⟩ := ih.table htail .nil hes
    exact ⟨hlegible.toTable (horigin _), hrest⟩

theorem elements_succ (ih : ReadsLegible source stop fuel) {sp rest : List Spanned}
    {xs : List Value} (hsp : Genuine sp)
    (h : readElements source stop (fuel + 1) sp = .ok (xs, rest)) :
    (∀ x ∈ xs, x.Legible) ∧ Genuine rest := by
  rcases of_readElements h with ⟨position, rfl, rfl⟩ | ⟨x, after, hx, hstep⟩
  · exact ⟨List.forall_mem_nil _, (List.forall_mem_cons.1 hsp).2⟩
  · obtain ⟨hlegible, hafter⟩ := ih.value hsp hx
    rcases hstep with ⟨position, rfl, rfl⟩ | ⟨position, tail, ys, rfl, hys, rfl⟩
    · exact ⟨List.forall_mem_singleton.2 hlegible, (List.forall_mem_cons.1 hafter).2⟩
    · obtain ⟨hrest, hlast⟩ := ih.elements (List.forall_mem_cons.1 hafter).2 hys
      exact ⟨List.forall_mem_cons.2 ⟨hlegible, hrest⟩, hlast⟩

theorem table_succ (ih : ReadsLegible source stop fuel) {sp rest : List Spanned} {p q : ParamSet}
    (hsp : Genuine sp) (hp : p.Legible)
    (h : readTable source stop (fuel + 1) sp p = .ok (q, rest)) : q.Legible ∧ Genuine rest := by
  rcases of_readTable h with ⟨position, rfl, rfl⟩ | ⟨r, after, hr, h⟩
  · exact ⟨hp, (List.forall_mem_cons.1 hsp).2⟩
  · obtain ⟨hlegible, hafter⟩ := ih.assignment hsp hp hr
    exact ih.table hafter hlegible h

theorem assignment_succ (ih : ReadsLegible source stop fuel) {sp rest : List Spanned}
    {p q : ParamSet} (hsp : Genuine sp) (hp : p.Legible)
    (h : readAssignment source stop (fuel + 1) sp p = .ok (q, rest)) :
    q.Legible ∧ Genuine rest := by
  obtain ⟨key, start, colon, tail, path, v, rfl, hkey, hv, hassign⟩ := of_readAssignment h
  have htail : Genuine tail := (List.forall_mem_cons.1 (List.forall_mem_cons.1 hsp).2).2
  obtain ⟨hlegible, hrest⟩ := ih.value htail hv
  exact ⟨hp.assign hkey.names hlegible hassign, hrest⟩

end ReadsLegible

theorem readsLegible {source : String} (hsource : '\n' ∉ source.toList) (stop : Position)
    (fuel : Nat) : ReadsLegible source stop fuel := by
  induction fuel with
  | zero => exact .zero
  | succ fuel ih =>
    exact ⟨ih.value_succ hsource, ih.elements_succ, ih.table_succ, ih.assignment_succ⟩

/-! ## documents -/

theorem legible_of_readAssignments {source : String} (hsource : '\n' ∉ source.toList)
    {stop : Position} {fuel : Nat} {sp : List Spanned} {p q : ParamSet} (hsp : Genuine sp)
    (hp : p.Legible) (h : readAssignments source stop fuel sp p = .ok q) : q.Legible := by
  induction fuel using Nat.strongRecOn generalizing sp p with
  | _ fuel ih =>
    rcases of_readAssignments h with ⟨rfl, rfl⟩ | ⟨n, r, after, rfl, hr, h⟩
    · exact hp
    · obtain ⟨hlegible, hafter⟩ := (readsLegible hsource stop (n + 1)).assignment hsp hp hr
      exact ih n (Nat.lt_succ_self n) hafter hlegible h

/-- a document under a name of one line is legible -/
theorem legible_of_readDocument {text source : String} {p : ParamSet}
    (hsource : '\n' ∉ source.toList) (h : readDocument text source = .ok p) : p.Legible := by
  obtain ⟨sp, stop, hlex, hread⟩ := readDocument_eq_ok.1 h
  exact legible_of_readAssignments hsource (isGenuine_of_lex hlex) .nil hread

/-- a text with the tokens of one entry is read as that entry -/
theorem Value.Legible.exists_readDocument {k : String} {v : Value} (hk : isIdentifier k = true)
    (hv : v.Legible) {text : String} (h : Lexes text.toList (entryTokens [(k, v)]))
    (source : String) :
    ∃ w, readDocument text source = .ok [(k, w)] ∧ w.erase = v.erase := by
  obtain ⟨sp, stop, hlex, htokens⟩ := h .start
  obtain ⟨q, hq, herase⟩ :=
    readTokens_entryTokens source stop (ParamSet.Legible.nil.insert hk hv) htokens
  rw [ParamSet.erase, eraseEntries_eq_map] at herase
  obtain ⟨⟨j, w⟩, es, rfl, he, hes⟩ := List.map_eq_cons_iff.1 herase
  obtain rfl := List.map_eq_nil_iff.1 hes
  obtain ⟨rfl, hw⟩ := Prod.mk.inj he
  exact ⟨w, readDocument_eq_ok.2 ⟨sp, stop, hlex, hq⟩, hw⟩

/-- printed entries are read as what they make when inserted one by one -/
theorem exists_readDocument_entries {es : ParamSet} (hnames : ∀ e ∈ es, isIdentifier e.1 = true)
    (hes : ∀ e ∈ es, e.2.Legible) (level : Nat) (mode : PrintMode) (source : String) :
    ∃ q, readDocument (es.print level mode) source = .ok q
      ∧ ParamSet.erase q = ParamSet.erase (Entries.ofList es) := by
  obtain ⟨sp, stop, hlex, htokens⟩ := lexes_print hnames hes level mode .start
  obtain ⟨q, hq, hqe⟩ := readTokens_entries source stop hnames hes htokens
  exact ⟨q, readDocument_eq_ok.2 ⟨sp, stop, hlex, hq⟩, hqe⟩

/-- a legible parameter set is read back from its print, up to origins -/
theorem ParamSet.Legible.exists_readDocument {p : ParamSet} (h : p.Legible) (level : Nat)
    (mode : PrintMode) (source : String) :
    ∃ q, readDocument (p.print level mode) source = .ok q
      ∧ ParamSet.erase q = ParamSet.erase p := by
  have hread := exists_readDocument_entries h.names h.values level mode source
  rw [Entries.ofList_of_nodup h.distinct] at hread
  exact hread

/-- **Printing and reading again changes nothing but origins.**  A parameter set that was read under
a name of one line is read back from its print, in every mode, at every level and under every name,
with the same keys in the same order, the same shapes and the same literals. -/
theorem readDocument_print {text source : String} {p : ParamSet} (hsource : '\n' ∉ source.toList)
    (h : readDocument text source = .ok p) (level : Nat) (mode : PrintMode) (name : String) :
    ∃ q, readDocument (p.print level mode) name = .ok q
      ∧ ParamSet.erase q = ParamSet.erase p :=
  (legible_of_readDocument hsource h).exists_readDocument level mode name

/-- a literal of two lines, and a table inside a sequence -/
def nestedDocument : ParamSet :=
  [("a", .sequence (some ⟨"in", 1⟩)
    [.atom (some ⟨"in", 1⟩) "'\n#'", .table (some ⟨"in", 2⟩) [("b", .atom (some ⟨"in", 2⟩) "1")]])]

theorem readDocument_print_nested :
    '\n' ∉ "in".toList
      ∧ readDocument "a: ['\n#', \x7bb: 1\x7d] #" "in" = .ok nestedDocument
      ∧ ∃ q, readDocument (nestedDocument.print 2 .annotated) "out" = .ok q
        ∧ ParamSet.erase q = ParamSet.erase nestedDocument := by
  have hsource : '\n' ∉ "in".toList := by decide
  have hlex : lex .start "a: ['\n#', \x7bb: 1\x7d] #".toList = .ok
      ([⟨.word "a", ⟨1, 1⟩⟩, ⟨.colon, ⟨1, 2⟩⟩, ⟨.openBracket, ⟨1, 4⟩⟩, ⟨.quoted "'\n#'", ⟨1, 5⟩⟩,
        ⟨.comma, ⟨2, 3⟩⟩, ⟨.openBrace, ⟨2, 5⟩⟩, ⟨.word "b", ⟨2, 6⟩⟩, ⟨.colon, ⟨2, 7⟩⟩,
        ⟨.word "1", ⟨2, 9⟩⟩, ⟨.closeBrace, ⟨2, 10⟩⟩, ⟨.closeBracket, ⟨2, 11⟩⟩], ⟨2, 14⟩) := by
    decide +kernel
  have hread : readDocument "a: ['\n#', \x7bb: 1\x7d] #" "in" = .ok nestedDocument :=
    readDocument_eq_ok.2 ⟨_, _, hlex, rfl⟩
  exact ⟨hsource, hread, readDocument_print hsource hread 2 .annotated "out"⟩

end ParamSchema

import Mathlib.Data.List.Forall2

/-!
# Computations that can fail

When `Except` computations in a row succeed: each of them does.  A walk over a list succeeds exactly
when it succeeds at every place, and its result then has the results of the places, in order.
-/

namespace ParamSchema

variable {ε α β : Type}

theorem bind_eq_ok {x : Except ε α} {f : α → Except ε β} {b : β} :
    x >>= f = .ok b ↔ ∃ a, x = .ok a ∧ f a = .ok b := by
  constructor
  · intro h
    cases x with
    | error e => cases h
    | ok a => exact ⟨a, rfl, h⟩
  · intro h
    obtain ⟨a, rfl, h⟩ := h
    exact h

/-- a row of two fails where the first of them that fails does -/
theorem bind_eq_error {x : Except ε α} {f : α → Except ε β} {e : ε} :
    x >>= f = .error e ↔ x = .error e ∨ ∃ a, x = .ok a ∧ f a = .error e := by
  constructor
  · intro h
    cases x with
    | error e' =>
      cases h
      exact .inl rfl
    | ok a => exact .inr ⟨a, rfl, h⟩
  · rintro (rfl | ⟨a, rfl, h⟩)
    · rfl
    · exact h

theorem map_eq_ok {x : Except ε α} {f : α → β} {b : β} :
    x.map f = .ok b ↔ ∃ a, x = .ok a ∧ f a = b := by
  constructor
  · intro h
    cases x with
    | error e => cases h
    | ok a => exact ⟨a, rfl, Except.ok.inj h⟩
  · intro h
    obtain ⟨a, rfl, rfl⟩ := h
    rfl

theorem map_eq_error {x : Except ε α} {f : α → β} {e : ε} : x.map f = .error e ↔ x = .error e := by
  cases x with
  | error e' => simp [Except.map]
  | ok a => simp [Except.map]

theorem mapM_eq_ok {f : α → Except ε β} {xs : List α} {ys : List β} :
    xs.mapM f = .ok ys ↔ List.Forall₂ (fun x y => f x = .ok y) xs ys := by
  induction xs generalizing ys with
  | nil =>
    rw [List.mapM_nil, List.forall₂_nil_left_iff]
    exact ⟨fun h => (Except.ok.inj h).symm, fun h => h ▸ rfl⟩
  | cons x xs ih =>
    rw [List.mapM_cons, bind_eq_ok]
    simp only [bind_eq_ok, List.forall₂_cons_left_iff, ih]
    constructor
    · intro h
      obtain ⟨y, hy, zs, hzs, h⟩ := h
      exact ⟨y, zs, hy, hzs, (Except.ok.inj h).symm⟩
    · intro h
      obtain ⟨y, zs, hy, hzs, rfl⟩ := h
      exact ⟨y, hy, zs, hzs, rfl⟩

/-- every result of a walk comes from a place of the list -/
theorem exists_mem_of_forall₂ {r : α → β → Prop} {xs : List α} {ys : List β}
    (h : List.Forall₂ r xs ys) : ∀ y ∈ ys, ∃ x ∈ xs, r x y := by
  induction h with
  | nil => exact List.forall_mem_nil _
  | cons hxy _ ih =>
    refine List.forall_mem_cons.2 ⟨⟨_, List.mem_cons_self, hxy⟩, ?_⟩
    intro z hz
    obtain ⟨w, hw, hwz⟩ := ih z hz
    exact ⟨w, List.mem_cons_of_mem _ hw, hwz⟩

/-- what belongs together has a property at all places or at none -/
theorem forall_mem_congr_of_forall₂ {p : α → Prop} {q : β → Prop} {xs : List α} {ys : List β}
    (h : List.Forall₂ (fun x y => p x ↔ q y) xs ys) : (∀ y ∈ ys, q y) ↔ ∀ x ∈ xs, p x := by
  induction h with
  | nil => exact ⟨fun _ => List.forall_mem_nil _, fun _ => List.forall_mem_nil _⟩
  | cons hxy _ ih => rw [List.forall_mem_cons, List.forall_mem_cons, hxy, ih]

/-- results by which every step of a walk is decided decide the walk -/
theorem forall₂_iff_forall_mem {r : α → β → Prop} {q : β → Prop} {xs : List α} {ys : List β}
    (h : List.Forall₂ (fun x y => r x y ↔ q y) xs ys) :
    List.Forall₂ r xs ys ↔ ∀ y ∈ ys, q y := by
  induction h with
  | nil => exact ⟨fun _ => List.forall_mem_nil _, fun _ => .nil⟩
  | cons hxy _ ih => rw [List.forall₂_cons, List.forall_mem_cons, hxy, ih]

/-- what stands at one place of a walk and of its results belongs together -/
theorem of_forall₂_of_getElem? {r : α → β → Prop} {xs : List α} {ys : List β}
    (h : List.Forall₂ r xs ys) {i : Nat} {x : α} {y : β} (hx : xs[i]? = some x)
    (hy : ys[i]? = some y) : r x y := by
  induction h generalizing i with
  | nil => cases hx
  | cons hxy _ ih =>
    cases i with
    | zero =>
      obtain rfl := Option.some.inj hx
      obtain rfl := Option.some.inj hy
      exact hxy
    | succ i => exact ih hx hy

/-- what stands at a place of a walk has its result at the same place -/
theorem exists_getElem?_of_forall₂ {r : α → β → Prop} {xs : List α} {ys : List β}
    (h : List.Forall₂ r xs ys) {i : Nat} {x : α} (hx : xs[i]? = some x) :
    ∃ y, ys[i]? = some y ∧ r x y := by
  have hi : i < ys.length := h.length_eq ▸ (List.getElem?_eq_some_iff.1 hx).1
  have hy : ys[i]? = some ys[i] := List.getElem?_eq_getElem hi
  exact ⟨ys[i], hy, of_forall₂_of_getElem? h hx hy⟩

/-- what every member of a list has, a walk over the list may use -/
theorem forall₂_imp_of_mem {r s : α → β → Prop} {xs : List α} {ys : List β}
    (h : List.Forall₂ r xs ys) (hrs : ∀ x ∈ xs, ∀ y, r x y → s x y) : List.Forall₂ s xs ys := by
  have hboth : List.Forall₂ (fun x y => x ∈ xs ∧ r x y) xs ys :=
    (List.forall₂_and_left xs ys).2 ⟨fun _ hx => hx, h⟩
  exact hboth.imp fun x y hxy => hrs x hxy.1 y hxy.2

/-- a walk whose steps compute their results is a map -/
theorem eq_map_of_forall₂ {f : α → β} {xs : List α} {ys : List β}
    (h : List.Forall₂ (fun x y => y = f x) xs ys) : ys = xs.map f := by
  induction h with
  | nil => rfl
  | cons hxy _ ih => rw [List.map_cons, hxy, ih]

/-- a walk can be made if every step of it can -/
theorem exists_forall₂ {r : α → β → Prop} {xs : List α} (h : ∀ x ∈ xs, ∃ y, r x y) :
    ∃ ys, List.Forall₂ r xs ys := by
  induction xs with
  | nil => exact ⟨[], .nil⟩
  | cons x xs ih =>
    obtain ⟨hx, hxs⟩ := List.forall_mem_cons.1 h
    obtain ⟨y, hy⟩ := hx
    obtain ⟨ys, hys⟩ := ih hxs
    exact ⟨y :: ys, .cons hy hys⟩

/-- a walk that succeeds at every place succeeds -/
theorem exists_mapM_eq_ok {f : α → Except ε β} {xs : List α} (h : ∀ x ∈ xs, ∃ y, f x = .ok y) :
    ∃ ys, xs.mapM f = .ok ys := by
  obtain ⟨ys, hys⟩ := exists_forall₂ h
  exact ⟨ys, mapM_eq_ok.2 hys⟩

/-- a walk fails where the first of its steps that fails does -/
theorem mapM_eq_error {f : α → Except ε β} {front : List α} (h : ∀ x ∈ front, ∃ y, f x = .ok y)
    {x : α} {e : ε} (hx : f x = .error e) (back : List α) :
    (front ++ x :: back).mapM f = .error e := by
  obtain ⟨ys, hys⟩ := exists_mapM_eq_ok h
  rw [List.mapM_append, hys, List.mapM_cons, hx]
  rfl

/-- a walk over numbered places goes up to one of them, makes the step there, and goes on -/
theorem mapM_zipIdx_append (f : α × Nat → Except ε β) (xs : List α) (x : α) (ys : List α) :
    (xs ++ x :: ys).zipIdx.mapM f = do
      let front ← xs.zipIdx.mapM f
      let z ← f (x, xs.length)
      let back ← (ys.zipIdx (xs.length + 1)).mapM f
      return front ++ z :: back := by
  rw [List.zipIdx_append, List.zipIdx_cons, Nat.zero_add, List.mapM_append, List.mapM_cons]
  simp only [bind_assoc, pure_bind]

/-- results on either side of one result -/
theorem bind_append_cons_eq_ok {front? back? : Except ε (List β)} {z? : Except ε β}
    {zs : List β} :
    (do let front ← front?; let z ← z?; let back ← back?; return front ++ z :: back) = .ok zs ↔
      ∃ front z back, front? = .ok front ∧ z? = .ok z ∧ back? = .ok back
        ∧ zs = front ++ z :: back := by
  simp only [bind_eq_ok]
  constructor
  · intro h
    obtain ⟨front, hfront, z, hz, back, hback, hzs⟩ := h
    exact ⟨front, z, back, hfront, hz, hback, (Except.ok.inj hzs).symm⟩
  · intro h
    obtain ⟨front, z, back, hfront, hz, hback, rfl⟩ := h
    exact ⟨front, hfront, z, hz, back, hback, rfl⟩

theorem length_of_mapM_zipIdx {f : α × Nat → Except ε β} {xs : List α} {i : Nat} {ys : List β}
    (h : (xs.zipIdx i).mapM f = .ok ys) : ys.length = xs.length := by
  rw [← (mapM_eq_ok.1 h).length_eq, List.length_zipIdx]

end ParamSchema

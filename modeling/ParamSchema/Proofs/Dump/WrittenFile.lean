import ParamSchema.Dump.Files
import ParamSchema.Proofs.Outcome

/-!
# A file that has been written

A text that was written under a path is read under the same path (`read_of_write`): to write makes
a node where no folder is, so every folder on the way is still where it was (`walk_put`), and the
last name leads to the new node.
-/

namespace ParamSchema
namespace Files

/-! ## one more node -/

section
variable {fs : Files} {l l' place : Location} {node : Node}

theorem nodeAt?_put_self (h : place ≠ []) : (fs.put place node).nodeAt? place = some node := by
  have hothers : (fs.nodes.filter fun e => e.1 != place).find? (fun e => e.1 == place) = none := by
    rw [List.find?_eq_none]
    intro e he
    simpa using (List.mem_filter.1 he).2
  rw [nodeAt?, if_neg h, put, List.find?_append, hothers]
  simp

theorem nodeAt?_put_of_ne (h : l ≠ place) : (fs.put place node).nodeAt? l = fs.nodeAt? l := by
  have hothers : (fs.nodes.filter fun e => e.1 != place).find? (fun e => e.1 == l)
      = fs.nodes.find? fun e => e.1 == l := by
    rw [List.find?_filter]
    congr 1
    funext e
    by_cases he : e.1 = l <;> simp [he, h]
  rw [nodeAt?, nodeAt?, put, List.find?_append, hothers]
  simp [Ne.symm h]

theorem checkFolder_eq_ok : fs.checkFolder l = .ok () ↔ fs.nodeAt? l = some .folder := by
  rw [checkFolder]
  constructor
  · intro h
    split at h
    · cases h
    · cases h
    · assumption
  · intro h
    rw [h]

/-- a node that is not put over a folder leaves every folder as it was -/
theorem checkFolder_put (hplace : fs.nodeAt? place ≠ some .folder) (h : fs.checkFolder l = .ok ()) :
    (fs.put place node).checkFolder l = .ok () := by
  rw [checkFolder_eq_ok] at h
  have hne : l ≠ place := by
    rintro rfl
    exact hplace h
  rw [checkFolder_eq_ok, nodeAt?_put_of_ne hne, h]

theorem goTo_put {name : String} (hplace : fs.nodeAt? place ≠ some .folder)
    (h : fs.goTo l name = .ok l') : (fs.put place node).goTo l name = .ok l' := by
  obtain ⟨_, hfolder, hstep⟩ := bind_eq_ok.1 h
  exact bind_eq_ok.2 ⟨(), checkFolder_put hplace hfolder, hstep⟩

theorem walk_put {names : List String} (hplace : fs.nodeAt? place ≠ some .folder)
    (h : fs.walk l names = .ok l') : (fs.put place node).walk l names = .ok l' := by
  induction names generalizing l with
  | nil => exact h
  | cons name names ih =>
    obtain ⟨next, hgo, hwalk⟩ := bind_eq_ok.1 h
    exact bind_eq_ok.2 ⟨next, goTo_put hplace hgo, ih hwalk⟩

theorem walk_append (fs : Files) (l : Location) (front back : List String) :
    fs.walk l (front ++ back) = fs.walk l front >>= fun l => fs.walk l back := by
  induction front generalizing l with
  | nil => rfl
  | cons name front ih =>
    rw [List.cons_append, walk, walk, bind_assoc]
    congr 1
    funext next
    exact ih next

end

/-! ## the last name of a path -/

theorem splitSlashes_ne_nil (cs : List Char) : splitSlashes cs ≠ [] := by
  cases cs with
  | nil => exact List.cons_ne_nil _ _
  | cons c cs =>
    rw [splitSlashes]
    split
    · exact List.cons_ne_nil _ _
    · split <;> exact List.cons_ne_nil _ _

/-- only a path that is empty or ends in a slash has an empty name at its end -/
theorem getLast?_splitSlashes {cs : List Char} (hne : cs ≠ []) (hslash : cs.getLast? ≠ some '/') :
    (splitSlashes cs).getLast? ≠ some [] := by
  induction cs with
  | nil => exact absurd rfl hne
  | cons c cs ih =>
    cases cs with
    | nil =>
      have hc : c ≠ '/' := fun hc => hslash (congrArg some hc)
      rw [splitSlashes, if_neg hc]
      intro h
      cases h
    | cons d ds =>
      rw [List.getLast?_cons_cons] at hslash
      have hlast := ih (List.cons_ne_nil d ds) hslash
      obtain ⟨part, parts, hparts⟩ := List.exists_cons_of_ne_nil (splitSlashes_ne_nil (d :: ds))
      rw [hparts] at hlast
      rw [splitSlashes, hparts]
      split
      · rw [List.getLast?_cons_cons]
        exact hlast
      · cases parts with
        | nil =>
          intro h
          cases h
        | cons part' parts =>
          show ((c :: part) :: part' :: parts).getLast? ≠ some []
          rw [List.getLast?_cons_cons] at hlast ⊢
          exact hlast

theorem head?_reverse_pathNames {path : String} (hne : path ≠ "")
    (hslash : endsInSlash path = false) :
    (pathNames path).reverse.head? ≠ some "" := by
  have hchars : path.toList ≠ [] := fun h => hne (String.toList_eq_nil_iff.1 h)
  have hlast := getLast?_splitSlashes hchars (of_decide_eq_false hslash)
  rw [List.head?_reverse, pathNames, List.getLast?_map]
  intro h
  obtain ⟨part, hpart, hempty⟩ := Option.map_eq_some_iff.1 h
  obtain rfl : part = [] := by simpa using hempty
  exact hlast hpart

theorem dropWhile_reverse_pathNames {path : String} (hne : path ≠ "")
    (hslash : endsInSlash path = false) :
    (pathNames path).reverse.dropWhile (· == "") = (pathNames path).reverse := by
  have hhead := head?_reverse_pathNames hne hslash
  cases hnames : (pathNames path).reverse with
  | nil => rfl
  | cons name rest =>
    rw [hnames] at hhead
    have hname : name ≠ "" := fun h => hhead (congrArg some h)
    exact List.dropWhile_cons_of_neg (by simpa using hname)

theorem placeFrom_eq_new {fs : Files} {l folder : Location} {names : List String} {name : String}
    (h : fs.placeFrom l names = .ok (.new folder name)) :
    ∃ rest, names = name :: rest ∧ fs.walk l rest.reverse = .ok folder
      ∧ fs.checkFolder folder = .ok () ∧ name ≠ "." ∧ name ≠ ".." := by
  cases names with
  | nil => cases h
  | cons name' rest =>
    obtain ⟨folder', hwalk, h⟩ := bind_eq_ok.1 h
    obtain ⟨_, hfolder, h⟩ := bind_eq_ok.1 h
    split at h
    · cases h
    · rename_i hname
      obtain ⟨rfl, rfl⟩ := Place.new.inj (Except.ok.inj h)
      simp only [Bool.or_eq_true, decide_eq_true_eq, not_or] at hname
      exact ⟨rest, rfl, hwalk, hfolder, hname.1, hname.2⟩

/-! ## writing and reading -/

theorem write_of_place {fs : Files} {path : String} {folder : Location} {name : String}
    (h : fs.place path = .ok (.new folder name)) (text : String) :
    fs.write path text
      = if endsInSlash path then .error .isAFolder
        else checkName name >>= fun _ =>
          if fs.nodeAt? (folder ++ [name]) = some .folder then .error .isAFolder
          else .ok (fs.put (folder ++ [name]) (.file (some text))) := by
  rw [write, h]
  rfl

/-- what is written: the file under the last name of the path, in the folder before it -/
theorem of_write {fs after : Files} {path text : String} (h : fs.write path text = .ok after) :
    ∃ front name folder, pathNames path = front ++ [name]
      ∧ checkPath path = .ok () ∧ fs.walk (fs.origin path) front = .ok folder
      ∧ fs.goTo folder name = .ok (folder ++ [name])
      ∧ fs.nodeAt? (folder ++ [name]) ≠ some .folder
      ∧ after = fs.put (folder ++ [name]) (.file (some text)) := by
  obtain ⟨place, hplace, hknown⟩ := bind_eq_ok.1 h
  cases place with
  | known => cases hknown
  | new folder name =>
    rw [write_of_place hplace] at h
    split at h
    · cases h
    · rename_i hslash
      have hslash : endsInSlash path = false := Bool.eq_false_iff.2 hslash
      obtain ⟨_, hname, h⟩ := bind_eq_ok.1 h
      split at h
      · cases h
      · rename_i hnode
        obtain ⟨_, hpath, hfrom⟩ := bind_eq_ok.1 hplace
        have hne : path ≠ "" := by
          rintro rfl
          cases hpath
        rw [dropWhile_reverse_pathNames hne hslash] at hfrom
        obtain ⟨rest, hnames, hwalk, hfolder, hdot, hdots⟩ := placeFrom_eq_new hfrom
        have hempty : name ≠ "" := by
          have hhead := head?_reverse_pathNames hne hslash
          rw [hnames] at hhead
          exact fun hname => hhead (congrArg some hname)
        refine ⟨rest.reverse, name, folder, ?_, hpath, hwalk, ?_, hnode, (Except.ok.inj h).symm⟩
        · rw [← List.reverse_cons, ← hnames, List.reverse_reverse]
        · refine bind_eq_ok.2 ⟨(), hfolder, ?_⟩
          rw [if_neg (by simp [hempty, hdot]), if_neg hdots]
          exact bind_eq_ok.2 ⟨(), hname, rfl⟩

/-- a text that was written is what is read -/
theorem read_of_write {fs after : Files} {path text : String}
    (h : fs.write path text = .ok after) : after.read path = .ok text := by
  obtain ⟨front, name, folder, hnames, hpath, hwalk, hgo, hnode, rfl⟩ := of_write h
  have hlocate : (fs.put (folder ++ [name]) (.file (some text))).locate path
      = .ok (folder ++ [name]) := by
    rw [locate, hpath, hnames]
    refine (walk_append _ _ front [name]).trans ?_
    exact bind_eq_ok.2 ⟨folder, walk_put hnode hwalk,
      bind_eq_ok.2 ⟨folder ++ [name], goTo_put hnode hgo, rfl⟩⟩
  have hlook : (fs.put (folder ++ [name]) (.file (some text))).look path
      = .ok (.file (some text)) := by
    refine bind_eq_ok.2 ⟨_, hlocate, ?_⟩
    rw [nodeAt?_put_self (by simp)]
  rw [read, hlook]

end Files
end ParamSchema

import Marginalia.Path
import Marginalia.Proofs.Lines

/-!
# Components of paths

A resolved path and its components determine each other, as long as every component is a name: not
empty, without a slash and none of the dots. The components that normalizing gives are names, and
the path of an entry has the components of its directory with the entry's name behind them.
-/

namespace Marginalia

/-! ## Names -/

namespace Path

/-- The text names an entry of a directory. -/
structure IsName (name : Text) : Prop where
  /-- A name is not empty. -/
  some : name ≠ []
  /-- The directory itself has another sort of name. -/
  notHere : name ≠ here
  /-- So has the directory above. -/
  notParent : name ≠ parent
  /-- A name is a single component. -/
  single : separator ∉ name

variable {name : Text} {names : List Text}

/-- The conditions on a name, put together. -/
theorem isName_iff : IsName name ↔ name ≠ [] ∧ name ≠ here ∧ name ≠ parent ∧ separator ∉ name := by
  constructor
  · intro isName
    exact ⟨isName.some, isName.notHere, isName.notParent, isName.single⟩
  · intro conditions
    exact ⟨conditions.1, conditions.2.1, conditions.2.2.1, conditions.2.2.2⟩

instance : Decidable (IsName name) := decidable_of_iff' _ isName_iff

/-- A name leads one step down. -/
theorem descend_name (isName : IsName name) (directory : List Text) :
    descend directory name = name :: directory := by
  rw [descend, if_neg (by simp [isName.some, isName.notHere]), if_neg isName.notParent]

/-- Names lead down one after the other. -/
theorem foldl_descend (areNames : ∀ name ∈ names, IsName name) (directory : List Text) :
    names.foldl descend directory = names.reverse ++ directory := by
  induction names generalizing directory with
  | nil => rfl
  | cons name rest ih =>
    obtain ⟨first, others⟩ := List.forall_mem_cons.mp areNames
    rw [List.foldl_cons, descend_name first, ih others]
    simp

/-- Components without slashes lead through names only. -/
theorem isName_of_foldl_descend {components directory : List Text}
    (single : ∀ c ∈ components, separator ∉ c) (areNames : ∀ name ∈ directory, IsName name) :
    ∀ name ∈ components.foldl descend directory, IsName name := by
  induction components generalizing directory with
  | nil => exact areNames
  | cons component rest ih =>
    obtain ⟨alone, others⟩ := List.forall_mem_cons.mp single
    refine ih others ?_
    rw [descend]
    split
    · exact areNames
    · rename_i solid
      split
      · exact fun name member => areNames name (List.mem_of_mem_drop member)
      · rename_i notParent
        obtain ⟨some, notHere⟩ := not_or.mp solid
        exact List.forall_mem_cons.mpr ⟨⟨some, notHere, notParent, alone⟩, areNames⟩

/-- The components of a normalized path are names. -/
theorem isName_of_mem_normalize (path : Text) : ∀ name ∈ normalize path, IsName name := by
  intro name member
  exact isName_of_foldl_descend Text.notMem_of_mem_split (List.forall_mem_nil _) name
    (List.mem_reverse.mp member)

/-- A path is split into nothing, before its first slash, and its components; the root has an empty
one. -/
theorem split_ofComponents (areNames : ∀ name ∈ names, IsName name) :
    (ofComponents names).split separator = [] :: if names = [] then [[]] else names := by
  rw [ofComponents, Text.split, if_pos rfl]
  split
  · rename_i none
    subst none
    rfl
  · rename_i some
    rw [Text.split_intercalate (fun name member => (areNames name member).single) some]

/-- The names a path is made of are its components. -/
theorem normalize_ofComponents (areNames : ∀ name ∈ names, IsName name) :
    normalize (ofComponents names) = names := by
  have skips (directory : List Text) : descend directory [] = directory := by simp [descend]
  rw [normalize, split_ofComponents areNames, List.foldl_cons, skips]
  split
  · rename_i none
    simp [none, skips]
  · rw [foldl_descend areNames, List.append_nil, List.reverse_reverse]

/-- Different names make different paths. -/
theorem ofComponents_inj {others : List Text} (areNames : ∀ name ∈ names, IsName name)
    (areOthers : ∀ name ∈ others, IsName name) (same : ofComponents names = ofComponents others) :
    names = others := by
  rw [← normalize_ofComponents areNames, same, normalize_ofComponents areOthers]

/-- A resolved path is made of its components. -/
theorem ofComponents_normalize_resolve (directory path : Text) :
    ofComponents (normalize (resolve directory path)) = resolve directory path := by
  rw [resolve, normalize_ofComponents (isName_of_mem_normalize _)]

/-- The path of an entry has the components of its directory and the entry's name. -/
theorem child_ofComponents (areNames : ∀ name ∈ names, IsName name) (isName : IsName name) :
    child (ofComponents names) name = ofComponents (names ++ [name]) := by
  have relative : isAbsolute name = false := by
    cases name with
    | nil => rfl
    | cons u rest =>
      obtain ⟨other, -⟩ := List.ne_and_not_mem_of_not_mem_cons isName.single
      simpa [isAbsolute] using other.symm
  have joined : normalize (ofComponents names ++ [separator] ++ name) = names ++ [name] := by
    rw [List.append_assoc, List.singleton_append, normalize, Text.split_append,
      Text.split_of_notMem isName.single, List.foldl_append, List.reverse_eq_iff, List.foldl_cons,
      List.foldl_nil, descend_name isName]
    have inner := normalize_ofComponents areNames
    rw [normalize, List.reverse_eq_iff] at inner
    rw [inner]
    simp
  rw [child, resolve, if_neg (by simp [relative]), joined]

end Path

end Marginalia

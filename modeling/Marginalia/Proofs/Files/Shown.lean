import Marginalia.Proofs.Files.Component

/-!
# Shown paths

The components that lead from one directory to another place lead there, and they begin with the
directory above exactly if the place is not below the first directory. A path is shown as seen from
a directory unless that begins with two dots, as it also does where an entry of the directory has
such a name. Main statement: what is shown leads to the path, and it is said without reference to
texts which of the two forms is shown.
-/

namespace Marginalia.Path

variable {source target rest : List Text} {directory path : Text}

/-! ## Following components -/

/-- Two dots lead one step up. -/
theorem descend_parent (directory : List Text) : descend directory parent = directory.drop 1 := by
  rw [descend, if_neg (by decide), if_pos rfl]

/-- An empty component leads nowhere else. -/
theorem descend_nil (directory : List Text) : descend directory [] = directory := by
  rw [descend, if_pos (.inl rfl)]

/-- As many double dots as there are components lead up over all of them. -/
theorem foldl_descend_parents (components directory : List Text) :
    (components.map fun _ => parent).foldl descend directory =
      directory.drop components.length := by
  induction components generalizing directory with
  | nil => rfl
  | cons component others ih =>
    rw [List.map_cons, List.foldl_cons, descend_parent, ih, List.drop_drop,
      List.length_cons, Nat.add_comm]

/-- The components from one directory to another place lead there, whatever both are below. -/
theorem foldl_descend_steps (source : List Text)
    (areNames : ∀ name ∈ target, IsName name) (above : List Text) :
    (steps source target).foldl descend (source.reverse ++ above) = target.reverse ++ above := by
  induction source generalizing target above with
  | nil => exact foldl_descend areNames above
  | cons first source ih =>
    have up : ((first :: source).map fun _ => parent).foldl descend
          ((first :: source).reverse ++ above) = above := by
      rw [foldl_descend_parents, ← List.length_reverse, List.drop_left]
    cases target with
    | nil => simpa [steps] using up
    | cons second target =>
      by_cases same : first = second
      · have others : ∀ name ∈ target, IsName name :=
          fun name member => areNames name (.tail _ member)
        have onward := ih others (first :: above)
        simpa [steps, same] using onward
      · rw [steps, if_neg same, List.foldl_append, up]
        exact foldl_descend areNames above

/-- The components from one directory to another place are double dots and names. -/
theorem mem_steps (areNames : ∀ name ∈ target, IsName name) :
    ∀ component ∈ steps source target, component = parent ∨ IsName component := by
  induction source generalizing target with
  | nil => exact fun component member => .inr (areNames component member)
  | cons first source ih =>
    cases target with
    | nil => simp [steps]
    | cons second target =>
      have others : ∀ name ∈ target, IsName name :=
        fun name member => areNames name (.tail _ member)
      by_cases same : first = second
      · simpa [steps, same] using ih others
      · intro component member
        rw [steps, if_neg same] at member
        by_cases up : component = parent
        · exact .inl up
        · have notUp : component ∉ (first :: source).map fun _ => parent := by
            intro inside
            obtain ⟨_, -, same⟩ := List.mem_map.mp inside
            exact up same.symm
          have down : component ∈ second :: target := (List.mem_append.mp member).resolve_left notUp
          exact .inr (areNames component down)

/-- Below a directory the components that lead to a place are those that it has more. -/
theorem steps_append (source rest : List Text) : steps source (source ++ rest) = rest := by
  induction source with
  | nil => rfl
  | cons first source ih => rw [List.cons_append, steps, if_pos rfl, ih]

/-- To a place that is not below a directory one has to go up first. -/
theorem steps_of_not_prefix (outside : ¬source <+: target) :
    ∃ rest, steps source target = parent :: rest := by
  induction source generalizing target with
  | nil => exact absurd List.nil_prefix outside
  | cons first source ih =>
    cases target with
    | nil => exact ⟨_, rfl⟩
    | cons second target =>
      by_cases same : first = second
      · have further : ¬source <+: target := by simpa [same] using outside
        rw [steps, if_pos same]
        exact ih further
      · exact ⟨_, by rw [steps, if_neg same]; rfl⟩

/-! ## Relative paths -/

/-- The path is resolved: it is absolute and spelled by its components. -/
def IsResolved (path : Text) : Prop := ofComponents (normalize path) = path

instance : Decidable (IsResolved path) := inferInstanceAs (Decidable (_ = _))

/-- A resolved path begins at the root. -/
theorem IsResolved.isAbsolute (resolved : IsResolved path) : isAbsolute path = true := by
  rw [← resolved]
  rfl

/-- A resolved path leads from any directory to the same place. -/
theorem IsResolved.resolve_eq (resolved : IsResolved path) (directory : Text) :
    resolve directory path = path := by
  rw [resolve, if_pos resolved.isAbsolute, resolved]

/-- The components of a path behind those of a directory are followed from there. -/
theorem normalize_append (directory path : Text) :
    normalize (directory ++ [separator] ++ path) =
      ((path.split separator).foldl descend (normalize directory).reverse).reverse := by
  rw [normalize, List.append_assoc, List.singleton_append, Text.split_append, List.foldl_append,
    normalize, List.reverse_reverse]

/-- The components that lead from one resolved place to another are not empty and have no slashes in
them. -/
theorem mem_steps_normalize (directory path : Text) :
    ∀ component ∈ steps (normalize directory) (normalize path), component ≠ [] ∧
      separator ∉ component := by
  intro component member
  rcases mem_steps (isName_of_mem_normalize path) component member with rfl | isName
  · decide
  · exact ⟨isName.some, isName.single⟩

/-- A path as seen from a directory does not begin at the root. -/
theorem isAbsolute_relative (directory path : Text) :
    isAbsolute (relative directory path) = false := by
  have areSteps := mem_steps_normalize directory path
  rw [relative]
  cases spelled : steps (normalize directory) (normalize path) with
  | nil => rfl
  | cons component others =>
    rw [spelled] at areSteps
    have first := areSteps component (.head _)
    cases component with
    | nil => exact absurd rfl first.1
    | cons u more =>
      have other : u ≠ separator := fun same => first.2 (same ▸ .head _)
      cases others <;> simpa [isAbsolute, List.intercalate, List.intersperse] using other

/-- A path as seen from a directory leads to the path. -/
theorem resolve_relative (resolved : IsResolved path) :
    resolve directory (relative directory path) = path := by
  have single : ∀ component ∈ steps (normalize directory) (normalize path), separator ∉ component :=
    fun component member => (mem_steps_normalize directory path component member).2
  have leads : (steps (normalize directory) (normalize path)).foldl descend
        (normalize directory).reverse = (normalize path).reverse := by
    have below := foldl_descend_steps (normalize directory) (isName_of_mem_normalize path) []
    rwa [List.append_nil, List.append_nil] at below
  have followed : ((relative directory path).split separator).foldl descend
        (normalize directory).reverse = (normalize path).reverse := by
    rw [relative]
    by_cases none : steps (normalize directory) (normalize path) = []
    · rw [none] at leads
      rw [none, ← leads]
      exact descend_nil _
    · rw [Text.split_intercalate single none, leads]
  rw [resolve, isAbsolute_relative, if_neg Bool.false_ne_true, normalize_append, followed,
    List.reverse_reverse, resolved]

/-! ## Shown paths -/

/-- The path is the directory or leads to a place below it. -/
def IsWithin (directory path : Text) : Prop := normalize directory <+: normalize path

/-- The path leads through an entry of the directory whose name begins with two dots. -/
def IsDotted (directory path : Text) : Prop :=
  ∃ name rest, normalize path = normalize directory ++ name :: rest ∧ parent <+: name

instance : Decidable (IsWithin directory path) := inferInstanceAs (Decidable (_ <+: _))

/-- Below a directory a path is seen as the components that it has more. -/
theorem relative_of_append (below : normalize path = normalize directory ++ rest) :
    relative directory path = [separator].intercalate rest := by
  rw [relative, below, steps_append]

/-- What stands behind a slash does not matter for the two dots at the front. -/
theorem parent_prefix_append (component others : Text) :
    parent <+: component ++ separator :: others ↔ parent <+: component := by
  constructor
  · intro begins
    by_cases long : parent.length ≤ component.length
    · exact List.prefix_of_prefix_length_le begins (List.prefix_append _ _) long
    · -- a shorter component would have its slash among the two dots
      have inside : component ++ [separator] <+: parent := by
        have shorter : component ++ [separator] <+: component ++ separator :: others :=
          ⟨others, by simp⟩
        exact List.prefix_of_prefix_length_le shorter begins
          (by rw [List.length_append, List.length_singleton]; omega)
      have member : separator ∈ parent := inside.subset (by simp)
      exact absurd member (by decide)
  · intro begins
    exact begins.trans (List.prefix_append _ _)

/-- A path that is spelled by components begins with two dots exactly if the first component
does. -/
theorem parent_prefix_intercalate (component : Text) (others : List Text) :
    parent <+: [separator].intercalate (component :: others) ↔ parent <+: component := by
  cases others with
  | nil => simp [List.intercalate]
  | cons next more =>
    have spelled : [separator].intercalate (component :: next :: more) =
        component ++ separator :: [separator].intercalate (next :: more) := by
      simp [List.intercalate, List.intersperse]
    rw [spelled, parent_prefix_append]

/-- A path is seen from a directory without two dots at the front exactly if it is within the
directory and does not lead through an entry with such a name. -/
theorem parent_prefix_relative :
    parent <+: relative directory path ↔ ¬(IsWithin directory path ∧ ¬IsDotted directory path) := by
  by_cases within : IsWithin directory path
  · obtain ⟨rest, below⟩ := within
    have dotted : parent <+: [separator].intercalate rest ↔ IsDotted directory path := by
      cases rest with
      | nil =>
        have notDotted : ¬IsDotted directory path := by
          rintro ⟨name, others, longer, -⟩
          simp [← below] at longer
        exact iff_of_false (by decide) notDotted
      | cons name others =>
        rw [parent_prefix_intercalate]
        constructor
        · intro begins
          exact ⟨name, others, below.symm, begins⟩
        · rintro ⟨entry, further, longer, begins⟩
          rw [← below] at longer
          obtain ⟨rfl, -⟩ := List.cons.inj (List.append_cancel_left longer)
          exact begins
    rw [relative_of_append below.symm, dotted]
    simp [IsWithin, ← below]
  · have outside : parent <+: relative directory path := by
      obtain ⟨others, up⟩ := steps_of_not_prefix within
      have seen : relative directory path = [separator].intercalate (parent :: others) := by
        rw [relative, up]
      exact seen ▸ (parent_prefix_intercalate parent others).mpr List.prefix_rfl
    simp [within, outside]

/-- What is shown of a resolved path leads to it from the directory. The path is shown as seen from
the directory exactly if it is within the directory and does not lead through an entry whose name
begins with two dots, and it is shown as it is otherwise. -/
theorem shown_faithful (resolved : IsResolved path) :
    resolve directory (shown directory path) = path ∧
    (shown directory path = relative directory path ↔ IsWithin directory path ∧
      ¬IsDotted directory path) ∧
    (shown directory path = path ↔ ¬(IsWithin directory path ∧ ¬IsDotted directory path)) := by
  have different : path ≠ relative directory path := by
    intro same
    have notAbsolute := isAbsolute_relative directory path
    rw [← same, resolved.isAbsolute] at notAbsolute
    cases notAbsolute
  have dots :
      parent <+: relative directory path ↔ ¬(IsWithin directory path ∧ ¬IsDotted directory path) :=
    parent_prefix_relative
  by_cases plain : IsWithin directory path ∧ ¬IsDotted directory path
  · have seen : shown directory path = relative directory path := by
      rw [shown]
      simp [dots, plain]
    rw [seen]
    exact ⟨resolve_relative resolved, by simp [plain], by simp [plain, different.symm]⟩
  · have whole : shown directory path = path := by
      rw [shown]
      simp [dots, plain]
    rw [whole]
    exact ⟨resolved.resolve_eq directory, by simp [plain, different], by simp [plain]⟩

/-- A file two directories below is shown as seen from the directory. -/
theorem nested_file_is_shown_relative :
    IsResolved "/work/src/Page/Home.elm" ∧
    resolve "/work" (shown "/work" "/work/src/Page/Home.elm") = "/work/src/Page/Home.elm" ∧
    IsWithin "/work" "/work/src/Page/Home.elm" ∧ ¬IsDotted "/work" "/work/src/Page/Home.elm" := by
  have resolved : IsResolved "/work/src/Page/Home.elm" := by decide +kernel
  obtain ⟨leads, seen, -⟩ := @shown_faithful "/work" _ resolved
  exact ⟨resolved, leads, seen.mp (by decide +kernel)⟩

/-- Being within a directory does not mean to be shown as seen from there: a file whose name begins
with two dots is shown by its whole path. -/
theorem dotted_entry_is_shown_whole :
    ¬∀ directory path : Text, IsResolved directory → IsResolved path →
      (shown directory path = relative directory path ↔ IsWithin directory path) := by
  intro always
  have seen := (always "/work" "/work/..a.elm" (by decide +kernel) (by decide +kernel)).mpr
    (by decide +kernel)
  revert seen
  decide +kernel

end Marginalia.Path

import Marginalia.FileTree
import Marginalia.Proofs.Files.Component
import Marginalia.Proofs.Keyed

/-!
# Listing files

A path made of names leads where the names lead, one below the other. Main statement: the files that
are listed below a directory are those that some names lead to from there, the last of which has the
extension, and each is listed once.
-/

namespace Marginalia.FileTree

open Marginalia.Path (IsName ofComponents child child_ofComponents ofComponents_inj)

variable {tree found : FileTree} {names : List Text} {extension name path : Text}
  {precedes : Text → Text → Bool}

/-- The names in every directory of the tree tell its entries apart. -/
inductive WellFormed : FileTree → Prop
  | file (bytes : List UInt8) : WellFormed (file bytes)
  | directory {entries : List (Text × FileTree)} (areNames : ∀ entry ∈ entries, IsName entry.1)
      (distinct : (entries.map Prod.fst).Nodup) (inner : ∀ entry ∈ entries, WellFormed entry.2) :
      WellFormed (directory entries)

/-! ## Following names -/

/-- What names lead to, one below the other. -/
def below? : FileTree → List Text → Option FileTree
  | tree, [] => some tree
  | file _, _ :: _ => none
  | directory entries, name :: rest =>
    match entries.find? (·.1 == name) with
    | some entry => below? entry.2 rest
    | none => none

/-- Following names never leads up. -/
theorem follow_names (areNames : ∀ name ∈ names, IsName name) (above : List FileTree) :
    follow tree above names = .ok found ↔ tree.below? names = some found := by
  induction names generalizing tree above with
  | nil => simp [follow, below?]
  | cons name rest ih =>
    obtain ⟨isName, others⟩ := List.forall_mem_cons.mp areNames
    cases tree with
    | file bytes => simp [follow, below?]
    | directory entries =>
      unfold follow
      dsimp only
      rw [if_neg (by simp [isName.some, isName.notHere]), if_neg isName.notParent, below?]
      cases entries.find? (·.1 == name) with
      | none => simp
      | some entry => exact ih others _

/-- A path made of names leads where the names do, from a directory at the root. -/
theorem find_ofComponents (areNames : ∀ name ∈ names, IsName name) :
    tree.find (ofComponents names) = .ok found ↔
      (∃ entries, tree = directory entries) ∧ tree.below? names = some found := by
  rw [find, Path.split_ofComponents areNames]
  cases tree with
  | file bytes => simp [follow]
  | directory entries =>
    rw [follow, if_pos (.inl rfl)]
    split
    · rename_i none
      simp [none, follow, below?]
    · simp [follow_names areNames]

/-- Names lead on from where other names lead. -/
theorem below?_append (tree : FileTree) (first second : List Text) :
    tree.below? (first ++ second) = (tree.below? first).bind (·.below? second) := by
  induction first generalizing tree with
  | nil => simp [below?]
  | cons name rest ih =>
    cases tree with
    | file bytes => rfl
    | directory entries =>
      rw [List.cons_append, below?, below?]
      cases entries.find? (·.1 == name) with
      | none => rfl
      | some entry => exact ih entry.2

/-- From a directory names lead through the entry that has the first of them. -/
theorem below?_directory {entries : List (Text × FileTree)}
    (distinct : (entries.map Prod.fst).Nodup) :
    (directory entries).below? (name :: names) = some found ↔ ∃ entry ∈ entries, entry.1 = name ∧
      entry.2.below? names = some found := by
  rw [below?]
  constructor
  · intro leads
    cases here : entries.find? (·.1 == name) with
    | none =>
      rw [here] at leads
      cases leads
    | some entry =>
      rw [here] at leads
      obtain ⟨member, same⟩ := (find?_key distinct).mp here
      exact ⟨entry, member, same, leads⟩
  · rintro ⟨entry, member, same, leads⟩
    rw [(find?_key distinct).mpr ⟨member, same⟩]
    exact leads

namespace WellFormed

/-- What names lead to in a well-formed tree is well-formed. -/
theorem inside (wellFormed : tree.WellFormed) (leads : tree.below? names = some found) :
    found.WellFormed := by
  induction names generalizing tree with
  | nil =>
    obtain rfl := Option.some.inj leads
    exact wellFormed
  | cons name rest ih =>
    cases wellFormed with
    | file bytes => cases leads
    | directory areNames distinct inner =>
      obtain ⟨entry, member, -, further⟩ := (below?_directory distinct).mp leads
      exact ih (inner entry member) further

/-- Only names lead anywhere in a well-formed tree. -/
theorem areNames (wellFormed : tree.WellFormed) (leads : tree.below? names = some found) :
    ∀ name ∈ names, IsName name := by
  induction names generalizing tree with
  | nil => exact List.forall_mem_nil _
  | cons name rest ih =>
    cases wellFormed with
    | file bytes => cases leads
    | directory areNames distinct inner =>
      obtain ⟨entry, member, rfl, further⟩ := (below?_directory distinct).mp leads
      exact List.forall_mem_cons.mpr ⟨areNames entry member, ih (inner entry member) further⟩

end WellFormed

/-! ## Files in a listing -/

/-- Entries are listed one by one. -/
theorem filesInEntries_eq_map (precedes : Text → Text → Bool) (extension path : Text)
    (entries : List (Text × FileTree)) :
    filesInEntries precedes extension path entries = entries.map fun entry =>
      (entry.1, filesNamed precedes extension (child path entry.1) entry.1 entry.2) := by
  induction entries with
  | nil => rw [filesInEntries, List.map_nil]
  | cons entry rest ih => rw [filesInEntries, ih, List.map_cons]

/-- Up to order, the files below a directory are those of its entries. -/
theorem filesNamed_directory (precedes : Text → Text → Bool) (extension path name : Text)
    (entries : List (Text × FileTree)) :
    (filesNamed precedes extension path name (directory entries)).Perm (entries.flatMap fun entry =>
      filesNamed precedes extension (child path entry.1) entry.1 entry.2) := by
  rw [filesNamed, filesInEntries_eq_map]
  refine ((List.mergeSort_perm _ _).flatMap_right _).trans ?_
  rw [List.flatMap_map]

/-- A file is listed if some names lead to it, of which the last one has the extension. -/
theorem mem_filesNamed (wellFormed : tree.WellFormed) (areNames : ∀ name ∈ names, IsName name) :
    path ∈ filesNamed precedes extension (ofComponents names) name tree ↔
      ∃ more bytes, tree.below? more = some (file bytes) ∧ path = ofComponents (names ++ more) ∧
        hasExtension extension (more.getLastD name) = true := by
  induction wellFormed generalizing names name with
  | file bytes =>
    have single : path ∈ filesNamed precedes extension (ofComponents names) name (file bytes) ↔
        hasExtension extension name = true ∧ path = ofComponents names := by
      rw [filesNamed]
      split <;> simp_all
    rw [single]
    constructor
    · rintro ⟨ends, rfl⟩
      exact ⟨[], bytes, rfl, by rw [List.append_nil], ends⟩
    · rintro ⟨more, others, leads, rfl, ends⟩
      cases more with
      | nil => exact ⟨ends, by rw [List.append_nil]⟩
      | cons first rest => cases leads
  | @directory entries areEntryNames distinct inner ih =>
    rw [(filesNamed_directory precedes extension _ name entries).mem_iff, List.mem_flatMap]
    have grown (entry : Text × FileTree) (member : entry ∈ entries) :
        ∀ name ∈ names ++ [entry.1], IsName name :=
      List.forall_mem_append.mpr
        ⟨areNames, List.forall_mem_singleton.mpr (areEntryNames entry member)⟩
    constructor
    · rintro ⟨entry, member, listed⟩
      rw [child_ofComponents areNames (areEntryNames entry member),
        ih entry member (grown entry member)] at listed
      obtain ⟨more, bytes, leads, rfl, ends⟩ := listed
      refine ⟨entry.1 :: more, bytes,
        (below?_directory distinct).mpr ⟨entry, member, rfl, leads⟩, ?_, ?_⟩
      · rw [List.append_assoc, List.singleton_append]
      · rw [List.getLastD_cons]
        exact ends
    · rintro ⟨more, bytes, leads, rfl, ends⟩
      cases more with
      | nil => cases leads
      | cons first rest =>
        obtain ⟨entry, member, rfl, further⟩ := (below?_directory distinct).mp leads
        refine ⟨entry, member, ?_⟩
        rw [child_ofComponents areNames (areEntryNames entry member),
          ih entry member (grown entry member)]
        refine ⟨rest, bytes, further, ?_, ?_⟩
        · rw [List.append_assoc, List.singleton_append]
        · rw [List.getLastD_cons] at ends
          exact ends

/-- No file is listed twice. -/
theorem nodup_filesNamed (wellFormed : tree.WellFormed) (areNames : ∀ name ∈ names, IsName name) :
    (filesNamed precedes extension (ofComponents names) name tree).Nodup := by
  induction wellFormed generalizing names name with
  | file bytes =>
    rw [filesNamed]
    split <;> simp
  | @directory entries areEntryNames distinct inner ih =>
    rw [(filesNamed_directory precedes extension _ name entries).nodup_iff, List.nodup_flatMap]
    have grown (entry : Text × FileTree) (member : entry ∈ entries) :
        ∀ name ∈ names ++ [entry.1], IsName name :=
      List.forall_mem_append.mpr
        ⟨areNames, List.forall_mem_singleton.mpr (areEntryNames entry member)⟩
    refine ⟨fun entry member => ?_, ?_⟩
    · rw [child_ofComponents areNames (areEntryNames entry member)]
      exact ih entry member (grown entry member)
    · -- Files in different entries differ in the component behind those of the directory.
      refine (List.pairwise_map.mp distinct).imp_of_mem
        fun {first second} inFirst inSecond different path isFirst isSecond => ?_
      dsimp only at isFirst isSecond
      rw [child_ofComponents areNames (areEntryNames first inFirst),
        mem_filesNamed (inner first inFirst) (grown first inFirst)] at isFirst
      rw [child_ofComponents areNames (areEntryNames second inSecond),
        mem_filesNamed (inner second inSecond) (grown second inSecond)] at isSecond
      obtain ⟨more, _, leads, rfl, -⟩ := isFirst
      obtain ⟨others, _, leadsOther, same, -⟩ := isSecond
      have components := ofComponents_inj (List.forall_mem_append.mpr
          ⟨grown first inFirst, (inner first inFirst).areNames leads⟩) (List.forall_mem_append.mpr
          ⟨grown second inSecond, (inner second inSecond).areNames leadsOther⟩) same
      rw [List.append_assoc, List.append_assoc, List.append_cancel_left_eq] at components
      exact different (List.cons.inj components).1

/-- The files that are listed below a directory are those that names lead to from there, the last of
which has the extension, each of them once. -/
theorem filesBelow_directory (precedes : Text → Text → Bool) (extension : Text)
    {entries : List (Text × FileTree)} (wellFormed : tree.WellFormed)
    (areNames : ∀ name ∈ names, IsName name)
    (isDirectory : tree.find (ofComponents names) = .ok (directory entries)) :
    ∃ paths, tree.filesBelow precedes extension (ofComponents names) = .ok paths ∧
      paths.Nodup ∧ ∀ path, path ∈ paths ↔
      ∃ directories name bytes, (∀ part ∈ directories ++ [name], IsName part) ∧
      path = ofComponents (names ++ (directories ++ [name])) ∧ tree.find path = .ok (file bytes) ∧
      extension <:+ name := by
  obtain ⟨root, leads⟩ := (find_ofComponents areNames).mp isDirectory
  have inside := wellFormed.inside leads
  refine ⟨_, by rw [filesBelow, isDirectory], nodup_filesNamed inside areNames, fun path => ?_⟩
  rw [mem_filesNamed inside areNames]
  constructor
  · rintro ⟨more, bytes, further, rfl, ends⟩
    have moreNames := inside.areNames further
    rcases List.eq_nil_or_concat' more with rfl | ⟨directories, name, rfl⟩
    · cases further
    · have whole : ∀ part ∈ names ++ (directories ++ [name]), IsName part :=
        List.forall_mem_append.mpr ⟨areNames, moreNames⟩
      refine ⟨directories, name, bytes, moreNames, rfl,
        (find_ofComponents whole).mpr ⟨root, ?_⟩, ?_⟩
      · rw [below?_append, leads]
        exact further
      · simpa [hasExtension] using ends
  · rintro ⟨directories, name, bytes, moreNames, rfl, isFile, ends⟩
    have whole : ∀ part ∈ names ++ (directories ++ [name]), IsName part :=
      List.forall_mem_append.mpr ⟨areNames, moreNames⟩
    have further := ((find_ofComponents whole).mp isFile).2
    rw [below?_append, leads] at further
    exact ⟨directories ++ [name], bytes, further, rfl, by simpa [hasExtension] using ends⟩

end Marginalia.FileTree

import Marginalia.Token

/-!
# Comments and the places they are kept at

Comments stay in source order and are attached to the place where they were written, so that a
printer can reach every one of them. Beside them a tree records where the source broke lines.
-/

namespace Marginalia

/-- A comment without its delimiters. -/
inductive Comment where
  /-- The text after the two dashes. -/
  | line (text : Text)
  /-- The lines between the braces. -/
  | block (lines : List Text)
deriving DecidableEq, Repr, Inhabited

/-- The comment that a comment token holds. -/
def Comment.ofToken (token : Token) : Comment :=
  match token.kind with
  | .lineComment => .line (token.lexeme.drop 2)
  | _ => .block (token.lexeme.trimEnds 2 2).lines

/-- Comments in source order. -/
abbrev Comments := List Comment

/-- A value with the comments written immediately before and after it. A side that cannot carry
comments in some place is empty there. -/
structure Commented (α : Type) where
  /-- The comments in front of the value. -/
  before : Comments
  /-- The value itself. -/
  value : α
  /-- The comments behind the value. -/
  after : Comments
deriving DecidableEq, Repr, Inhabited

namespace Commented

/-- A value with comments in front of it only. -/
def pre (before : Comments) (value : α) : Commented α := ⟨before, value, []⟩

/-- A value with comments behind it only. -/
def post (value : α) (after : Comments) : Commented α := ⟨[], value, after⟩

/-- The same comments around a changed value. -/
def map (f : α → β) (commented : Commented α) : Commented β :=
  ⟨commented.before, f commented.value, commented.after⟩

/-- A value is among those of a place that holds it alone. -/
theorem value_mem_singleton (commented : Commented α) : commented.value ∈ [commented.value] :=
  List.mem_singleton_self _

/-- A value is among those of a place where others follow it. -/
theorem value_mem_cons (first : Commented α) (rest : List (Commented α)) :
    first.value ∈ first.value :: rest.map value :=
  List.mem_cons_self

/-- What follows a value is among those of a place that begins with it. -/
theorem mem_cons_of_mem_rest (first : Commented α) {rest : List (Commented α)} {a : α}
    (member : a ∈ rest.map value) : a ∈ first.value :: rest.map value :=
  List.mem_cons_of_mem _ member

/-- Changes every value of a list, knowing that it is one of the list's. -/
def mapMem (items : List (Commented α)) (f : (a : α) → a ∈ items.map value → β) :
    List (Commented β) :=
  items.attach.map fun item =>
    ⟨item.1.before, f item.1.value (List.mem_map_of_mem item.2), item.1.after⟩

/-- Without use of the membership, changing every value is mapping. -/
@[simp]
theorem mapMem_eq_map (items : List (Commented α)) (f : α → β) :
    mapMem items (fun a _ => f a) = items.map (map f) := by
  simp [mapMem, map]

/-- A value is smaller than the commented value it stands in. -/
theorem sizeOf_value_lt [SizeOf α] (commented : Commented α) :
    sizeOf commented.value < sizeOf commented := by
  cases commented with
  | mk before value after => simp only [mk.sizeOf_spec]; omega

/-- A value in a list is smaller than the list. -/
theorem sizeOf_lt_of_mem [SizeOf α] (items : List (Commented α)) {a : α}
    (member : a ∈ items.map value) : sizeOf a < sizeOf items := by
  obtain ⟨item, inList, rfl⟩ := List.mem_map.mp member
  exact Nat.lt_trans item.sizeOf_value_lt (List.sizeOf_lt_of_mem inList)

end Commented

/-- Whether a region was written on one line or crossed a line break. -/
inductive Layout where
  | joinAll
  | splitAll
deriving DecidableEq, Repr, Inhabited

/-- The layout of a region that did or did not cross a line break. -/
def Layout.ofCrossed (crossed : Bool) : Layout := if crossed then .splitAll else .joinAll

/-- The name under which a layout is printed. -/
def Layout.name : Layout → String
  | .joinAll => "JoinAll"
  | .splitAll => "SplitAll"

/-- Where the first line break of a function application was: before the end of the first argument,
or, with head and first argument on one line, among the further arguments or nowhere. -/
inductive ApplicationLayout where
  | splitFirst
  | joinFirst (rest : Layout)
deriving DecidableEq, Repr, Inhabited

end Marginalia

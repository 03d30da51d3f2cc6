import Marginalia.Comment
import Marginalia.Syntax.Literal
import Marginalia.Syntax.Name

/-!
# Patterns

A pattern is a node with a span, and a node says which patterns it is made of. Node types are
written over the type of their children, so that what is computed from a whole tree is one function
on nodes, applied from the leaves up by `Pattern.fold`.
-/

namespace Marginalia

/-- The forms of a pattern over the patterns `π` inside it. -/
inductive PatternNode (π : Type) where
  /-- The underscore. -/
  | anything
  /-- An empty pair of parentheses. -/
  | unit (comments : Comments)
  | literal (literal : Literal)
  /-- A lower-case name, which is bound. -/
  | name (name : Text)
  /-- An operator in parentheses, which is bound. -/
  | operator (symbol : Text)
  /-- A constructor and its arguments. -/
  | data (tag : QualifiedName) (arguments : List (Commented π))
  | parens (pattern : Commented π)
  | tuple (elements : List (Commented π))
  | emptyList (comments : Comments)
  | list (elements : List (Commented π))
  /-- Operands joined by `::`; comments before each `::` follow the operand on its left. -/
  | cons (first : Commented π) (rest : List (Commented π))
  | record (fields : List (Commented Text))
  /-- A pattern with a name for the whole. -/
  | named (pattern : Commented π) (name : Commented Text)
deriving Repr, DecidableEq

/-- A pattern and where it was written. -/
structure Pattern where
  /-- The stretch of source of the pattern. -/
  span : Span
  /-- The form of the pattern. -/
  node : PatternNode Pattern

namespace PatternNode

/-- The patterns a node is made of, in source order. -/
def children : PatternNode π → List π
  | anything => []
  | unit _ => []
  | literal _ => []
  | name _ => []
  | operator _ => []
  | data _ arguments => arguments.map (·.value)
  | parens pattern => [pattern.value]
  | tuple elements => elements.map (·.value)
  | emptyList _ => []
  | list elements => elements.map (·.value)
  | cons first rest => first.value :: rest.map (·.value)
  | record _ => []
  | named pattern _ => [pattern.value]

/-- Changes every child of a node, knowing that it is one of the node's. -/
def mapMem : (node : PatternNode π) → ((p : π) → p ∈ node.children → β) → PatternNode β
  | anything, _ => anything
  | unit comments, _ => unit comments
  | literal l, _ => literal l
  | name n, _ => name n
  | operator symbol, _ => operator symbol
  | data tag arguments, f => data tag (Commented.mapMem arguments f)
  | parens pattern, f =>
    parens ⟨pattern.before, f pattern.value pattern.value_mem_singleton, pattern.after⟩
  | tuple elements, f => tuple (Commented.mapMem elements f)
  | emptyList comments, _ => emptyList comments
  | list elements, f => list (Commented.mapMem elements f)
  | cons first rest, f =>
    cons ⟨first.before, f first.value (first.value_mem_cons rest), first.after⟩
      (Commented.mapMem rest fun p member => f p (first.mem_cons_of_mem_rest member))
  | record fields, _ => record fields
  | named pattern n, f =>
    named ⟨pattern.before, f pattern.value pattern.value_mem_singleton, pattern.after⟩ n

/-- Changes every child of a node. -/
def map (f : π → β) (node : PatternNode π) : PatternNode β := node.mapMem fun p _ => f p

/-- A child is smaller than its node. -/
theorem sizeOf_lt_of_mem [SizeOf π] {node : PatternNode π} {p : π} (member : p ∈ node.children) :
    sizeOf p < sizeOf node := by
  cases node with
  | data tag arguments =>
    have smaller := Commented.sizeOf_lt_of_mem arguments member
    simp only [data.sizeOf_spec]; omega
  | tuple elements =>
    have smaller := Commented.sizeOf_lt_of_mem elements member
    simp only [tuple.sizeOf_spec]; omega
  | list elements =>
    have smaller := Commented.sizeOf_lt_of_mem elements member
    simp only [list.sizeOf_spec]; omega
  | parens pattern =>
    obtain rfl := List.mem_singleton.mp member
    have smaller := pattern.sizeOf_value_lt
    simp only [parens.sizeOf_spec]; omega
  | named pattern n =>
    obtain rfl := List.mem_singleton.mp member
    have smaller := pattern.sizeOf_value_lt
    simp only [named.sizeOf_spec]; omega
  | cons first rest =>
    rcases List.mem_cons.mp member with rfl | inRest
    · have smaller := first.sizeOf_value_lt
      simp only [cons.sizeOf_spec]; omega
    · have smaller := Commented.sizeOf_lt_of_mem rest inRest
      simp only [cons.sizeOf_spec]; omega
  | _ => simp [children] at member

end PatternNode

namespace Pattern

/-- Computes a value from a pattern: `f` at every node, from the leaves up. -/
def fold (f : Span → PatternNode β → β) (pattern : Pattern) : β :=
  f pattern.span (pattern.node.mapMem fun p _ => p.fold f)
termination_by sizeOf pattern
decreasing_by
  rename_i member
  have smaller := PatternNode.sizeOf_lt_of_mem member
  cases pattern with
  | mk span node => simp only [mk.sizeOf_spec] at smaller ⊢; omega

/-- Folding is folding the children first. -/
theorem fold_eq (f : Span → PatternNode β → β) (pattern : Pattern) :
    pattern.fold f = f pattern.span (pattern.node.map (fold f)) := by
  rw [fold]; rfl

end Pattern

end Marginalia

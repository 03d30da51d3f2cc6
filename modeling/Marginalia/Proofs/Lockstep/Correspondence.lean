import Marginalia.Proofs.Parser.Place
import Marginalia.Proofs.Tree.View

/-!
# Corresponding inputs

Two inputs correspond when there is a relation between their cursors that everything a parser can
ask of the next token, of blanks and of positions respects. A correspondence carries these facts,
and is all that is known of the two inputs when parsers are shown to run in lockstep on them.
-/

namespace Marginalia

/-- A value that every view sees as it is. -/
def View.plain {α : Type} (_ : View) (value : α) : α := value

/-- Seeing a value as it is changes nothing. -/
@[simp]
theorem View.plain_eq_id {α : Type} (view : View) : (view.plain : α → α) = id := rfl

/-- What is seen of a token. -/
def Token.view (view : View) (token : Token) : Token :=
  ⟨token.kind, token.lexeme, view.span token.span⟩

/-- Tokens that are seen alike have one kind and one spelling. -/
theorem Token.eq_of_view {view view' : View} {t t' : Token} (same : t.view view = t'.view view') :
    t.kind = t'.kind ∧ t.lexeme = t'.lexeme := by
  injection same with kind lexeme _
  exact ⟨kind, lexeme⟩

/-- The token cannot be read at the cursor: it is a comment, or blanks stand before it. -/
def Parser.Hidden (token : Token) (cursor : Cursor) : Prop := token.isComment = true ∨
  ¬ StartsAt token cursor

/-- A relation between the cursors of two inputs under which both look the same to every parser. -/
structure Correspondence (left right : Input) where
  /-- How trees of the left input are looked at. -/
  leftView : View
  /-- How trees of the right input are looked at. -/
  rightView : View
  /-- Two runs can be at these cursors at the same time. -/
  Along : Cursor → Cursor → Prop
  /-- The next tokens of two such cursors, which a failure reports. -/
  Found : Token → Token → Prop
  /-- The left tokens are those of the left source. -/
  scannedLeft : left.Scanned
  /-- The right tokens are those of the right source. -/
  scannedRight : right.Scanned
  /-- The left input has at least as many tokens. -/
  size_le : right.tokens.size ≤ left.tokens.size
  /-- The left cursor stands at a token. -/
  standsLeft {l r : Cursor} (along : Along l r) : ∃ before next after,
      left.Stands l before next after
  /-- The right cursor stands at a token. -/
  standsRight {l r : Cursor} (along : Along l r) : ∃ before next after,
      right.Stands r before next after
  /-- The references of indentation are the same. -/
  indentation {l r : Cursor} (along : Along l r) : l.indentation = r.indentation
  /-- Other references of indentation change nothing. -/
  reindent {l r : Cursor} (along : Along l r) (levels : List Nat) :
    Along { l with indentation := levels } { r with indentation := levels }
  /-- The positions are seen alike. -/
  position {l r : Cursor} (along : Along l r) :
    leftView.position l.position = rightView.position r.position
  /-- The columns are the same. -/
  column {l r : Cursor} (along : Along l r) : l.position.column = r.position.column
  /-- The left run has come back to an offset where the right one has. -/
  offset {l r l' r' : Cursor} (along : Along l r) (along' : Along l' r') :
    l'.position.offset = l.position.offset ↔ r'.position.offset = r.position.offset
  /-- Both runs cross a line break or none does. -/
  crossed {l r l' r' : Cursor} (along : Along l r) (along' : Along l' r') :
    (left.source.slice l.position.offset l'.position.offset).hasNewline =
      (right.source.slice r.position.offset r'.position.offset).hasNewline
  /-- The next tokens are seen alike, with blanks before both or before none, or neither can be
  read. -/
  sees {l r : Cursor} {t t' : Token} (along : Along l r) (found : left.tokenAt? l.index = some t)
    (found' : right.tokenAt? r.index = some t') : Found t t' ∧
    ((t.view leftView = t'.view rightView ∧ (Parser.StartsAt t l ↔ Parser.StartsAt t' r)) ∨
      (Parser.Hidden t l ∧ Parser.Hidden t' r))
  /-- Both runs can read a token that is seen alike. -/
  past {l r : Cursor} {t t' : Token} (along : Along l r) (found : left.tokenAt? l.index = some t)
    (found' : right.tokenAt? r.index = some t') (same : t.view leftView = t'.view rightView)
    (starts : Parser.StartsAt t l) (solid : t.isComment = false) (notEnd : t.kind ≠ .eof) :
    Along (Parser.past t l) (Parser.past t' r)
  /-- Both runs can pass over blanks and comments. -/
  skips {l r l' r' : Cursor} {comments comments' : Comments} (along : Along l r)
    (run : Parser.whitespace left l = .done comments l')
    (run' : Parser.whitespace right r = .done comments' r') :
    leftView.comments comments = rightView.comments comments' ∧ Along l' r'

namespace Correspondence

variable {left right : Input} (c : Correspondence left right) {α β γ δ : Type}

/-- The two values are seen alike. -/
@[simp]
abbrev Same (seen : View → α → γ) (a b : α) : Prop := seen c.leftView a = seen c.rightView b

/-- Values that are seen as they are and seen alike are the same. -/
theorem Same.eq {a b : α} (same : c.Same View.plain a b) : a = b := same

/-- Values between comments are seen alike if values and comments are. -/
theorem Same.commented {seen : View → α → γ} {before before' after after' : Comments} {a b : α}
    (sameBefore : c.Same View.comments before before') (same : c.Same seen a b)
    (sameAfter : c.Same View.comments after after') :
    c.Same (fun view => Commented.view view (seen view)) ⟨before, a, after⟩
      ⟨before', b, after'⟩ := by
  simp [sameBefore, same, sameAfter]

/-- Values behind comments are seen alike if values and comments are. -/
theorem Same.pre {seen : View → α → γ} {before before' : Comments} {a b : α}
    (sameBefore : c.Same View.comments before before') (same : c.Same seen a b) :
    c.Same (fun view => Commented.view view (seen view)) (.pre before a) (.pre before' b) :=
  Same.commented c sameBefore same (by simp)

/-- The two failures report the same. -/
inductive Faults : ParseError → ParseError → Prop where
  | unexpected (expected : List String) {t t' : Token} (found : c.Found t t') :
      Faults (.unexpected expected t) (.unexpected expected t')
  | invalidPrecedence {t t' : Token} (same : c.Same Token.view t t') (found : c.Found t t') :
      Faults (.invalidPrecedence t) (.invalidPrecedence t')

/-- Failures that report the same expect the same. -/
theorem Faults.expected {e e' : ParseError} (faults : c.Faults e e') :
    e.expected = e'.expected := by
  cases faults <;> rfl

/-- Both outcomes are successes as described, or both are failures that report the same. -/
inductive Meets (post : α → Cursor → α → Cursor → Prop) : Outcome α → Outcome α → Prop where
  | done {a b : α} {l r : Cursor} (holds : post a l b r) : Meets post (.done a l) (.done b r)
  | failed {e e' : ParseError} {l r : Cursor} (faults : c.Faults e e') (along : c.Along l r) :
      Meets post (.failed (.rejected e) l) (.failed (.rejected e') r)

variable {c}

/-- Outcomes that meet meet under every weaker description. -/
theorem Meets.imp {post weaker : α → Cursor → α → Cursor → Prop} {o o' : Outcome α}
    (meets : c.Meets post o o') (implies : ∀ a l b r, post a l b r → weaker a l b r) :
    c.Meets weaker o o' := by
  cases meets with
  | done holds => exact .done (implies _ _ _ _ holds)
  | failed faults along => exact .failed faults along

/-- The successes of outcomes that meet are the outcomes. -/
theorem Meets.withRun {post : α → Cursor → α → Cursor → Prop} {o o' : Outcome α}
    (meets : c.Meets post o o') :
    c.Meets (fun a l b r => post a l b r ∧ o = .done a l ∧ o' = .done b r) o o' := by
  cases meets with
  | done holds => exact .done ⟨holds, rfl, rfl⟩
  | failed faults along => exact .failed faults along

/-- Sequences meet if their first parts do and from there on the second ones. -/
theorem Meets.bind {middle : α → Cursor → α → Cursor → Prop} {post : β → Cursor → β → Cursor → Prop}
    {p q : Parser α} {f g : α → Parser β} {l r : Cursor}
    (first : c.Meets middle (p left l) (q right r))
    (second : ∀ a l' b r', middle a l' b r' → c.Meets post (f a left l') (g b right r')) :
    c.Meets post ((p >>= f) left l) ((q >>= g) right r) := by
  rw [Parser.bind_apply, Parser.bind_apply]
  generalize p left l = o at first
  generalize q right r = o' at first
  cases first with
  | done holds => exact second _ _ _ _ holds
  | failed faults along => exact .failed faults along

variable (c)

/-! ## What the two cursors tell -/

/-- There are next tokens. -/
theorem next {l r : Cursor} (along : c.Along l r) :
    ∃ t t', left.tokenAt? l.index = some t ∧ right.tokenAt? r.index = some t' := by
  obtain ⟨_, t, _, stands⟩ := c.standsLeft along
  obtain ⟨_, t', _, stands'⟩ := c.standsRight along
  exact ⟨t, t', stands.tokenAt?, stands'.tokenAt?⟩

/-- The right cursor is not past the last token. -/
theorem unread_pos {l r : Cursor} (along : c.Along l r) : 0 < right.tokens.size - r.index := by
  obtain ⟨_, _, _, stands⟩ := c.standsRight along
  exact Nat.sub_pos_of_lt stands.index_lt

/-- Both runs have consumed something or none has. -/
theorem moved {l r l' r' : Cursor} (along : c.Along l r) (along' : c.Along l' r') :
    l'.movedFrom l = r'.movedFrom r := by
  obtain ⟨_, _, _, standsLeft⟩ := c.standsLeft along
  obtain ⟨_, _, _, standsLeft'⟩ := c.standsLeft along'
  obtain ⟨_, _, _, standsRight⟩ := c.standsRight along
  obtain ⟨_, _, _, standsRight'⟩ := c.standsRight along'
  rw [Bool.eq_iff_iff, standsLeft.movedFrom_iff c.scannedLeft standsLeft',
    standsRight.movedFrom_iff c.scannedRight standsRight', ne_eq, ne_eq, c.offset along along']

/-- Where something was consumed, less is ahead. -/
theorem ahead_lt {l r l' r' : Cursor} (along : c.Along l r) (along' : c.Along l' r')
    (le : r.position.offset ≤ r'.position.offset) (moved : r'.movedFrom r = true) :
    right.ahead r' < right.ahead r := by
  obtain ⟨_, _, _, stands⟩ := c.standsRight along
  obtain ⟨_, _, _, stands'⟩ := c.standsRight along'
  exact stands.ahead_lt c.scannedRight stands' le moved

include c in
/-- What is ahead of a right cursor is less than the bounds of repetition on both sides. -/
theorem ahead_lt_limits (r : Cursor) :
    right.ahead r < left.repetitionLimit ∧ right.ahead r < right.repetitionLimit := by
  have bound := right.ahead_lt r
  have sizes := c.size_le
  unfold Input.repetitionLimit
  omega

/-- The next tokens are of one kind, whether they can be read or not. -/
def Settled (_ : Correspondence left right) (l r : Cursor) : Prop :=
  ∃ t t', left.tokenAt? l.index = some t ∧ right.tokenAt? r.index = some t' ∧ t.kind = t'.kind

/-- Behind blanks and comments the next tokens are of one kind. -/
theorem settled {l r l' r' : Cursor} {comments comments' : Comments} (along : c.Along l r)
    (run : Parser.whitespace left l = .done comments l')
    (run' : Parser.whitespace right r = .done comments' r') : c.Settled l' r' := by
  obtain ⟨_, _, _, stands⟩ := c.standsLeft along
  obtain ⟨_, _, _, next, _, again, stands', starts, solid, -⟩ := stands.whitespace c.scannedLeft
  obtain ⟨-, rfl⟩ := Outcome.done.inj (again.symm.trans run)
  obtain ⟨-, along'⟩ := c.skips along run run'
  obtain ⟨t, t', found, found'⟩ := c.next along'
  obtain rfl : next = t := Option.some.inj (stands'.tokenAt?.symm.trans found)
  rcases (c.sees along' found found').2 with ⟨same, -⟩ | ⟨comment | apart, -⟩
  · exact ⟨next, t', found, found', (Token.eq_of_view same).1⟩
  · rw [solid] at comment
    cases comment
  · exact absurd starts apart

end Correspondence

end Marginalia

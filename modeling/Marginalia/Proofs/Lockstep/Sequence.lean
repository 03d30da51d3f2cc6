import Marginalia.Proofs.Lockstep.Combinators

/-!
# Repetition in lockstep

A repetition that consumes something each time ends before its bound, since there is less ahead of
the cursor each time; so the two bounds of corresponding inputs do not show. What reads a token each
time is bounded by the tokens that are left.
-/

namespace Marginalia

open Marginalia.Parser

variable {left right : Input} {c : Correspondence left right} {α β γ δ : Type}

/-- What is seen of the items of a sequence. -/
def Parser.Items.view (view : View) (inner : α → γ) (items : Items α) : Items γ :=
  ⟨items.items.map (Commented.view view inner), view.comments items.trailing⟩

namespace Correspondence.Steps

variable {seen : View → α → γ} {p q : Parser α} {n m d : Nat}

/-! ## Bounds -/

/-- A bound that exceeds the tokens left leaves one for when there is a token less. -/
theorem exists_succ_of_lt {m bound : Nat} (enough : m + 1 < bound) :
    ∃ inner, bound = inner + 1 ∧ m < inner :=
  ⟨bound - 1, by omega, by omega⟩

/-- A parser under a bound from the input runs in lockstep, if it does whenever the bounds exceed
the tokens left. -/
theorem limited {limit : Input → Nat} {f g : Nat → Parser α}
    (enough : ∀ input : Input, input.tokens.size < limit input) (steps : ∀ m bound bound', m ≤ n →
      m < bound → m < bound' → c.Steps m d seen (f bound) (g bound')) :
    c.Steps n d seen (fun input => f (limit input) input) (fun input => g (limit input) input) := by
  intro l r along within
  have enoughLeft := enough left
  have enoughRight := enough right
  have sizes := c.size_le
  exact steps (right.tokens.size - r.index) (limit left) (limit right) within (by omega)
    (by omega) l r along (Nat.le_refl _)

/-- There are fewer tokens than repetitions. -/
theorem size_lt_repetitionLimit (input : Input) : input.tokens.size < input.repetitionLimit := by
  unfold Input.repetitionLimit
  omega

/-- There are fewer tokens than levels. -/
theorem size_lt_nestingLimit (input : Input) : input.tokens.size < input.nestingLimit := by
  unfold Input.nestingLimit
  omega

/-! ## As often as something is consumed -/

/-- Values under bounds that exceed what is ahead run in lockstep. -/
theorem valuesUpTo {p q : Parser (Option α)}
    (steps : c.Steps n 0 (fun view => Option.map (seen view)) p q) (bound bound' : Nat)
    {l r : Cursor} (along : c.Along l r) (within : right.tokens.size - r.index ≤ n)
    (enough : right.ahead r < bound) (enough' : right.ahead r < bound') :
    c.Meets (c.Leads (fun view => List.map (seen view)) 0 r) (valuesUpTo p bound left l)
      (valuesUpTo q bound' right r) := by
  induction bound generalizing bound' l r with
  | zero => omega
  | succ bound ih =>
    obtain ⟨bound', rfl⟩ := Nat.exists_eq_succ_of_ne_zero (Nat.ne_of_gt (Nat.zero_lt_of_lt enough'))
    -- The first cursor is told without moving, so both runs begin with the optional value.
    show c.Meets _ ((Parser.optional p >>= _) left l) ((Parser.optional q >>= _) right r)
    refine (optional steps l r along within).bind ?_
    rintro found l' found' r' ⟨same, along', index, offset⟩
    match found, found', same with
    | none, none, _ => exact .done ⟨rfl, along', index, offset⟩
    | some none, some none, _ => exact .done ⟨rfl, along', index, offset⟩
    | some (some a), some (some b), same =>
      have sameValue : seen c.leftView a = seen c.rightView b :=
        Option.some.inj (Option.some.inj same)
      show c.Meets _ ((if l'.movedFrom l = true then _ else _ : Parser (List α)) left l')
        ((if r'.movedFrom r = true then _ else _ : Parser (List α)) right r')
      rw [c.moved along along']
      by_cases moved : r'.movedFrom r = true
      · have less := c.ahead_lt along along' offset moved
        rw [if_pos moved, if_pos moved]
        refine (ih bound' along' (by omega) (by omega) (by omega)).bind ?_
        rintro rest l₂ rest' r₂ ⟨sameRest, along₂, index₂, offset₂⟩
        exact .done ⟨congrArg₂ List.cons sameValue sameRest, along₂, by omega, by omega⟩
      · rw [if_neg moved, if_neg moved]
        exact .done ⟨congrArg (fun value => [value]) sameValue, along', index, offset⟩

/-- Repeated parsers run in lockstep if the parsers do. -/
theorem many (steps : c.Steps n d seen p q) :
    c.Steps n 0 (fun view => List.map (seen view)) (many p) (many q) := by
  intro l r along within
  have reads : c.Steps n 0 (fun view => Option.map (seen view)) (some <$> p) (some <$> q) := by
    intro l r along within
    refine Meets.bind (steps l r along within) ?_
    rintro a l' b r' ⟨same, along', index, offset⟩
    exact .done ⟨congrArg some same, along', by omega, offset⟩
  obtain ⟨enough, enough'⟩ := c.ahead_lt_limits r
  exact valuesUpTo reads _ _ along within enough enough'

/-! ## Up to a closing token -/

variable {close : TokenKind}

/-- Items under bounds that exceed the tokens left run in lockstep. -/
theorem itemsUpTo (solid : close ≠ .eof) (item : c.Steps n d seen p q) (label : String)
    (m bound bound' : Nat) {before before' : Comments} (same : c.Same View.comments before before')
    (within : m ≤ n) (enough : m < bound) (enough' : m < bound') :
    c.Steps m 0 (fun view => List.map (Commented.view view (seen view)))
      (itemsUpTo close p label bound before) (itemsUpTo close q label bound' before') := by
  induction m generalizing bound bound' before before' with
  | zero => exact of_none
  | succ m ih =>
    obtain ⟨bound, rfl, further⟩ := exists_succ_of_lt enough
    obtain ⟨bound', rfl, further'⟩ := exists_succ_of_lt enough'
    refine bind (item.mono within).weaken fun value value' sameValue => ?_
    refine bind whitespace fun after after' sameAfter => ?_
    have sameItem := Same.commented c same sameValue sameAfter
    refine ifThen (peekIs rfl) ?_ ?_
    · refine weaken (follow (token (by decide) _) fun _ _ _ => ?_)
      refine bind whitespace fun next next' sameNext => ?_
      refine bind (ih bound bound' sameNext (by omega) further further')
        fun rest rest' sameRest => ?_
      exact pure (congrArg₂ List.cons sameItem sameRest)
    · refine weaken (andThen (token solid label) fun _ _ _ => ?_)
      exact pure (congrArg (fun item => [item]) sameItem)

/-- Items up to a closing token run in lockstep if the items do. -/
theorem separated (solid : close.isComment = false) (notEnd : close ≠ .eof)
    (item : c.Steps n d seen p q) (label : String) :
    c.Steps n 0 (fun view => Items.view view (seen view)) (separated close p label)
      (separated close q label) := by
  refine bind whitespace fun before before' sameBefore => ?_
  refine ifThen (peekIs solid) ?_ ?_
  · refine weaken (andThen (token notEnd label) fun _ _ _ => pure ?_)
    exact congrArg (Items.mk []) sameBefore
  · have items := limited (n := n) size_lt_repetitionLimit
      fun m bound bound' within enough enough' =>
      itemsUpTo notEnd item label m bound bound' sameBefore within enough enough'
    exact bind items fun found found' same => pure (by simp [Items.view, same])

/-- Bracketed sequences run in lockstep if the items do with one token less. -/
theorem group {opening : TokenKind} (notEndOpening : opening ≠ .eof)
    (solid : close.isComment = false) (notEnd : close ≠ .eof)
    (item : c.Steps (n - 1) d seen p q) (label : String) :
    c.Steps n 1 (fun view found => (Items.view view (seen view) found.1, found.2))
      (group opening close p label) (group opening close q label) :=
  trackNewline (follow (token notEndOpening label) fun _ _ _ => separated solid notEnd item label)

end Correspondence.Steps

/-! ## What alike sequences are made of -/

/-- Bracketed sequences that are seen alike have items and comments that are, and the same line
breaks. -/
theorem Parser.Items.eq_of_view {seen : View → α → γ} {found found' : Items α × Bool} (same : c.Same
      (fun view found => (Items.view view (seen view) found.1, found.2)) found found') :
    c.Same (fun view => List.map (Commented.view view (seen view))) found.1.items found'.1.items ∧
    c.Same View.comments found.1.trailing found'.1.trailing ∧ found.2 = found'.2 := by
  simpa [view, and_assoc] using same

/-- Lists with equal images are both empty, both have one entry or both have more. -/
theorem few_or_many {f : α → γ} {g : β → γ} {items : List α} {items' : List β}
    (same : items.map f = items'.map g) :
    (items = [] ∧ items' = []) ∨ (∃ a b, items = [a] ∧ items' = [b]) ∨ ∃ a₁ a₂ rest b₁ b₂ rest',
      items = a₁ :: a₂ :: rest ∧ items' = b₁ :: b₂ :: rest' := by
  match items, items', congrArg List.length same with
  | [], [], _ => exact .inl ⟨rfl, rfl⟩
  | [a], [b], _ => exact .inr (.inl ⟨a, b, rfl, rfl⟩)
  | a₁ :: a₂ :: rest, b₁ :: b₂ :: rest', _ =>
    exact .inr (.inr ⟨a₁, a₂, rest, b₁, b₂, rest', rfl, rfl⟩)

end Marginalia

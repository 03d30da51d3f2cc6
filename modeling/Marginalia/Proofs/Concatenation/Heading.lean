import Marginalia.Proofs.Concatenation.Expression

/-!
# Headers, imports and types carry over

The rules for what is at the top level carry over from a shorter input to a longer one where they
are not at their end: the header of a module, its imports, and the constructors of a type. Behind a
name in a listing two dots in parentheses may stand; where a declaration begins they do not, though
a parenthesis may.
-/

namespace Marginalia.Grammar

open Marginalia.Parser

set_option synthInstance.maxSize 512

variable {α : Type} {s : Sequel} {before between : Bool}

/-! ## Listings -/

instance moduleName_carries : Carries s before (.within false) .reads moduleName moduleName := by
  unfold moduleName; infer_instance

instance everything_carries : Carries s true (.within false) .reads everything everything := by
  unfold everything; infer_instance

/-- A declaration does not begin with two dots in parentheses. -/
instance constructorsMark_misses (f g : Token → Parser α) : Misses s
    (token .leftParen "'('" >>= fun _ => token .range "'..'" >>= f)
    (token .leftParen "'('" >>= fun _ => token .range "'..'" >>= g) where
  misses {levels l r} parted := by
    have stops : Stops false false (token .leftParen "'('") := inferInstance
    obtain ⟨_, short⟩ := rejected_of_stays (stops.short parted)
    refine .inr ⟨⟨_, _, by rw [bind_apply, short]⟩, ?_⟩
    rw [bind_apply]
    rcases run : token .leftParen "'('" s.long r with ⟨opening, cursor⟩ | ⟨failure, cursor⟩
    · obtain ⟨found, ⟨-, -, isOpening⟩, rfl⟩ := satisfy_done run
      have kind : opening.kind = .leftParen := beq_iff_eq.mp isOpening
      have notEnd : opening.kind ≠ .eof := by simp [kind]
      have plain : ∀ token ∈ [opening], token.parts = false :=
        List.forall_mem_singleton.mpr
          (Token.parts_of_kind (by simp [kind, partingKinds]) (by simp [kind]))
      have split : s.long.tokens.toList.drop r.index = [opening] ++
            s.long.tokens.toList.drop (past opening r).index :=
        s.scannedLong.drop_eq_cons found notEnd
      obtain ⟨_, unread⟩ := unread_behind_pattern parted split plain (.inr rfl) "'..'"
      dsimp only
      rw [bind_apply, unread]
      exact ⟨_, _, rfl⟩
    · rw [token, satisfy_apply, tokenAt?_of_parted parted] at run
      dsimp only at run
      split at run
      · cases run
      · obtain ⟨rfl, rfl⟩ := Outcome.failed.inj run
        exact ⟨_, _, rfl⟩

instance allConstructors_carries :
    Carries s before (.within false) .stays allConstructors allConstructors :=
  .of_free (by unfold allConstructors; infer_instance)

instance listedName_carries : Carries s before (.within false) .reads listedName listedName := by
  unfold listedName; infer_instance

instance listing_carries : Carries s before (.within false) .reads listing listing := by
  unfold listing
  refine .bindReads inferInstance fun _ => (?_ : Carries s true (.within false) .stays _ _)
  refine .bindOptional everything_carries (fun comments => inferInstance) (Carries.toStays ?_)
  infer_instance

/-! ## Header and imports -/

instance moduleHeader_carries :
    Carries s before (.within false) .reads moduleHeader moduleHeader := by
  unfold moduleHeader; infer_instance

instance introducedAs_carries :
    Carries s before (.within false) .stays (introduced "as" upperName)
      (introduced "as" upperName) :=
  .of_free (by unfold introduced; infer_instance)

instance introducedExposing_carries :
    Carries s before (.within false) .stays (introduced "exposing" listing)
      (introduced "exposing" listing) :=
  .of_free (by unfold introduced; infer_instance)

instance importDeclaration_carries :
    Carries s before (.within false) .reads importDeclaration importDeclaration := by
  unfold importDeclaration; infer_instance

instance peekImport_carries :
    Carries s before (.within before) .stays (peekSpelled .keyword "import")
      (peekSpelled .keyword "import") :=
  .peekThat fun token holds ends => by
    rw [(isSpelled_iff.mp holds).1] at ends
    cases ends

/-! ## Types -/

instance aliasWord_carries : Carries s true (.within false) .reads aliasWord aliasWord := by
  have plain :
      ∀ token : Token, (token.kind == .lowerIdentifier && token.lexeme == Text.ofString "alias") =
        true → token.nesting = 0 ∧ ¬ token.DeclaresFixity := by
    intro token holds
    refine Token.plain_of_kind ?_
    rw [(isSpelled_iff.mp holds).1]
    nofun
  have word (before : Bool) : Carries s before (.within false) .reads
        (spelled .lowerIdentifier "alias") (spelled .lowerIdentifier "alias") := by
    refine .satisfy _ (fun token holds ends => ?_) (fun token holds => (plain token holds).1)
      (fun token holds => (plain token holds).2) nofun
    rw [(isSpelled_iff.mp holds).1] at ends
    cases ends
  unfold aliasWord
  infer_instance

instance variant_carries : Carries s before (.within false) .reads variant variant := by
  unfold variant
  infer_instance

instance variantBar_carries : Carries s before (.within true) .stays variantBar variantBar :=
  .of_free (by unfold variantBar; infer_instance)

/-- The constructors of a type carry under every bound, and under one no smaller than it. -/
theorem variantsUpTo_carries (bound bound' : Nat) (le : bound ≤ bound') (comments : Comments) :
    Carries s before (.within false) .reads (variantsUpTo bound comments)
      (variantsUpTo bound' comments) := by
  induction bound generalizing before bound' comments with
  | zero =>
    unfold variantsUpTo
    exact ⟨fun _ _ => .cut⟩
  | succ bound ih =>
    obtain ⟨bound', rfl⟩ : ∃ more, bound' = more + 1 := ⟨bound' - 1, by omega⟩
    have again (before : Bool) (comments : Comments) : Carries s before (.within false) .reads
        (variantsUpTo bound comments) (variantsUpTo bound' comments) :=
      ih bound' (Nat.le_of_succ_le_succ le) comments
    unfold variantsUpTo
    refine .bindReads inferInstance fun variant => (?_ : Carries s false (.within false) .stays _ _)
    exact .bindOptional variantBar_carries
      (fun after => Carries.toStays inferInstance) inferInstance

instance variants_carries (comments : Comments) :
    Carries s before (.within false) .reads (variants comments) (variants comments) :=
  .bounded Input.repetitionLimit s.repetition_le fun bound bound' le =>
    variantsUpTo_carries bound bound' le comments

end Marginalia.Grammar

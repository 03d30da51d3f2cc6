import Marginalia.Proofs.Json.Expression

/-!
# Modules that can be told from how they are printed

Headers and imports tell what they are made of, and so do the entries of a module without
floating-point numbers. Main statement: what is printed of such a module is printed of no other one.
-/

namespace Marginalia

/-- Associativities are printed under different names. -/
theorem Associativity.name_inj {first second : Associativity} :
    first.name = second.name ↔ first = second := by
  cases first <;> cases second <;> simp [name]

namespace Json

/-! ## Headers and imports -/

/-- A name in a listing. -/
def listedName (value : ListedName) : Json :=
  fields [("name", .string value.name), ("constructors", optional comments value.constructors)]

/-- The names of a listing are written one by one. -/
theorem listing_explicit (names : List (Commented ListedName)) (trailing : Comments) :
    listing (.explicit names trailing) = node "ExplicitListing"
      [("names", commentedList listedName names), ("trailing", comments trailing)] := rfl

/-- A name in a listing can be told. -/
theorem faithful_listedName (value : ListedName) : Faithful listedName value := by
  have constructors : Faithful (optional comments) value.constructors :=
    faithful_optional (fun inner _ => faithful_comments inner) nofun
  constructor
  · simp [listedName]
  · intro other same
    obtain ⟨_, _⟩ := value
    obtain ⟨_, _⟩ := other
    simpa [listedName, constructors.write_eq_iff] using same

/-- A listing can be told. -/
theorem faithful_listing (value : Listing) : Faithful listing value := by
  cases value with
  | everything values =>
    constructor
    · simp [listing]
    · intro other same
      cases other with
      | everything others => simpa [listing] using same
      | explicit => simp [listing] at same
  | explicit names trailing =>
    have inNames := faithful_commentedList fun name (_ : name ∈ names) =>
      faithful_listedName name.value
    constructor
    · simp [listing_explicit, inNames.exact]
    · intro other same
      cases other with
      | everything => simp [listing] at same
      | explicit => simpa [listing_explicit, inNames.write_eq_iff] using same

/-- A header can be told. -/
theorem faithful_moduleHeader (value : ModuleHeader) : Faithful moduleHeader value := by
  have name := faithful_commented (faithful_texts value.name.value)
  have exposes := faithful_commented (faithful_listing value.exposes.value)
  constructor
  · simpa [moduleHeader] using And.intro name.exact exposes.exact
  · intro other same
    obtain ⟨_, _⟩ := value
    obtain ⟨_, _⟩ := other
    simpa [moduleHeader, name.write_eq_iff, exposes.write_eq_iff] using same

/-- An import can be told. -/
theorem faithful_importDeclaration (value : Import) : Faithful importDeclaration value := by
  have name := faithful_commented (faithful_texts value.name.value)
  have qualifier := faithful_optionalText value.qualifier
  have exposes : Faithful (optional (commented listing)) value.exposes :=
    faithful_optional (fun inner _ => faithful_commented (faithful_listing inner.value)) nofun
  constructor
  · simpa [importDeclaration] using And.intro name.exact (And.intro qualifier.exact exposes.exact)
  · intro other same
    obtain ⟨_, _, _⟩ := value
    obtain ⟨_, _, _⟩ := other
    simpa [importDeclaration, name.write_eq_iff, qualifier.write_eq_iff,
      exposes.write_eq_iff] using same

/-! ## Entries at the top level -/

/-- A fixity declaration can be told. -/
theorem faithful_fixityDeclaration (value : FixityDeclaration) :
    Faithful fixityDeclaration value := by
  have precedence := faithful_commented (faithful_natural value.precedence.value)
  have operator := faithful_commentedText value.operator
  constructor
  · simp [fixityDeclaration]
  · intro other same
    obtain ⟨_, _, _⟩ := value
    obtain ⟨_, _, _⟩ := other
    simpa [fixityDeclaration, Associativity.name_inj, precedence.write_eq_iff,
      operator.write_eq_iff] using same

/-- A constructor can be told. -/
theorem faithful_variant (value : ConstructorVariant) : Faithful printed.variant value := by
  have arguments := faithful_commentedList fun type (_ : type ∈ value.arguments) =>
    faithful_typeExpression type.value
  constructor
  · simp [Style.variant, arguments.exact]
  · intro other same
    obtain ⟨_, _⟩ := value
    obtain ⟨_, _⟩ := other
    simpa [Style.variant, arguments.write_eq_iff] using same

/-- A definition or signature can be told, if there is no floating-point number in it. -/
theorem faithful_declarationTree {value : Declaration Expression}
    (noFloats : NoFloats value.literals) : Faithful printed.declarationTree value := by
  rw [Declaration.literals, noFloats_append, noFloats_flatMap, noFloats_flatMap] at noFloats
  exact faithful_declaration noFloats.1 fun body isBody =>
    faithful_expression (noFloats.2 body isBody)

/-- An entry at the top level can be told, if there is no floating-point number in it. -/
theorem faithful_topLevel {value : TopLevel} (noFloats : NoFloats value.literals) :
    Faithful printed.topLevel value := by
  cases value with
  | declaration value =>
    have inner := faithful_declarationTree noFloats
    constructor
    · simp [Style.topLevel, inner.exact]
    · intro other same
      cases other with
      | declaration => simpa [Style.topLevel, inner.write_eq_iff] using same
      | _ => simp [Style.topLevel, fixityDeclaration] at same
  | fixity value =>
    have inner := faithful_fixityDeclaration value
    constructor
    · exact inner.exact
    · intro other same
      cases other with
      | fixity other => rw [inner.eq_of_write other same]
      | _ => simp [Style.topLevel, fixityDeclaration] at same
  | typeAlias value =>
    have name := faithful_commentedText value.name
    have parameters := faithful_commentedTexts value.parameters
    have type := faithful_commented (faithful_typeExpression value.type.value)
    constructor
    · simpa [Style.topLevel] using type.exact
    · intro other same
      cases other with
      | typeAlias other =>
        obtain ⟨_, _, _⟩ := value
        obtain ⟨_, _, _⟩ := other
        simpa [Style.topLevel, name.write_eq_iff, parameters.write_eq_iff,
          type.write_eq_iff] using same
      | _ => simp [Style.topLevel, fixityDeclaration] at same
  | datatype value =>
    have name := faithful_commentedText value.name
    have parameters := faithful_commentedTexts value.parameters
    have variants := faithful_commentedList fun variant (_ : variant ∈ value.variants) =>
      faithful_located (faithful_variant variant.value.value)
    constructor
    · simpa [Style.topLevel] using variants.exact
    · intro other same
      cases other with
      | datatype other =>
        obtain ⟨_, _, _⟩ := value
        obtain ⟨_, _, _⟩ := other
        simpa [Style.topLevel, name.write_eq_iff, parameters.write_eq_iff,
          variants.write_eq_iff] using same
      | _ => simp [Style.topLevel, fixityDeclaration] at same
  | comment value =>
    have inner := faithful_comment value
    constructor
    · simp [Style.topLevel, inner.exact]
    · intro other same
      cases other with
      | comment => simpa [Style.topLevel, inner.write_eq_iff] using same
      | _ => simp [Style.topLevel, fixityDeclaration] at same

/-! ## Modules -/

/-- A module can be told, if there is no floating-point number in it. -/
theorem faithful_module {value : Module} (noFloats : NoFloats value.literals) :
    Faithful printed.module value := by
  have inHeader : Faithful (optional (printed.located moduleHeader)) value.header :=
    faithful_optional (fun header _ => faithful_located (faithful_moduleHeader header.value)) nofun
  have inImports := faithful_commentedList fun declaration (_ : declaration ∈ value.imports) =>
    faithful_located (faithful_importDeclaration declaration.value.value)
  have inBody : Faithful (fun entries =>
        .array (entries.map (printed.located printed.topLevel))) value.body :=
    .list fun entry member =>
      faithful_located (faithful_topLevel (noFloats_flatMap.mp noFloats entry member))
  constructor
  · simp [Style.module, inHeader.exact, inImports.exact, inBody.exact]
  · intro other same
    obtain ⟨_, _, _, _⟩ := value
    obtain ⟨_, _, _, _⟩ := other
    simpa [Style.module, inHeader.write_eq_iff, inImports.write_eq_iff,
      inBody.write_eq_iff] using same

end Json

end Marginalia

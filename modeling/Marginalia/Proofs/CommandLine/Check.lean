import Marginalia.Collation
import Marginalia.CommandLine.Run
import Marginalia.Proofs.Configuration
import Marginalia.Proofs.Files.Listing
import Marginalia.Proofs.Registry

/-!
# Checking files

Files that are checked together are judged as each of them is alone, and that a file passes is said
without reference to how it is checked. Which configuration a check is under is said of the files
that it can see. Main statement: what a check writes and its exit code are put together from those
of the single files. The files are the named ones, as seen from the working directory, or else the
sources below the configured directory, each of them once.
-/

namespace Marginalia

/-- Something is always shown. -/
theorem Diagnostic.render_ne_nil (path source : Text) (diagnostic : Diagnostic) :
    diagnostic.render path source ≠ [] := by
  cases diagnostic <;> simp [render, line]

/-- A line is never empty. -/
theorem Diagnostic.line_ne_nil (content : Text) : line content ≠ [] := by
  simp [line]

namespace Config

variable {files : FileTree} {cwd : Text} {name : Option Text} {config : Config}

/-- A configuration that is loaded was read from the value of a file. -/
theorem exists_value_of_load (loaded : load files cwd name = .ok config) :
    ∃ text value, files.readText (locate cwd name) = .ok text ∧ Json.read? text = some value ∧
      ofJson value = .ok (config.src, config.operators) := by
  cases isThere : files.contains (locate cwd name) with
  | false => simp [load, isThere, throw, throwThe, MonadExceptOf.throw, bind, Except.bind] at loaded
  | true =>
    cases isText : files.readText (locate cwd name) with
    | error error => simp [load, isThere, isText, Except.mapError, bind, Except.bind] at loaded
    | ok text =>
      cases isJson : Json.read? text with
      | none => simp [load, isThere, isText, isJson, Except.mapError, bind, Except.bind] at loaded
      | some value =>
        rw [load_eq isText isJson] at loaded
        cases read : ofJson value with
        | error fault => simp [read] at loaded
        | ok result =>
          rw [read] at loaded
          obtain rfl := Except.ok.inj loaded
          exact ⟨text, value, rfl, isJson, read⟩

/-- The fixities that are read from a value can be declared. -/
theorem declarable_of_ofJson {value : Json} {src : Text} {operators : Registry}
    (read : ofJson value = .ok (src, operators)) :
    ∀ entry ∈ operators.entries, entry.2.Declarable := by
  have reads := readsValue_ofJson value
  rw [read] at reads
  cases reads with
  | configuration object source has readEntries =>
    intro operator member
    obtain ⟨entry, -, isFixity⟩ := (readFixities_ok readEntries).2.2 operator member
    obtain ⟨precedence, same, number, -, -, le⟩ := (readFixity_ok isFixity).2.precedence
    obtain ⟨symbol, associativity, given⟩ := operator
    obtain rfl : given = precedence := same
    exact Fixity.declarable_of_le associativity le

end Config

namespace CommandLine

/-- The fixities that a configuration gives. -/
def configured (config : Option Config) : List (Text × Fixity) :=
  (config.map fun config => config.operators.entries).getD []

namespace Surroundings

variable (surroundings : Surroundings) {config : Option Config} {path source : Text}

/-! ## What passes -/

/-- The fixities of the core library are overridden by those of the configuration, and both by those
of a module. -/
theorem fixity_merge_baseRegistry (config : Option Config)
    (declared : List (Text × Fixity)) (symbol : Text) :
    Registry.fixity ((baseRegistry config).merge ⟨declared⟩) symbol =
      (Registry.layered [Registry.builtin.entries, configured config, declared]).fixity symbol := by
  rw [← Registry.fixity_layered]
  cases config <;> rfl

/-- A module is without fault: it declares the fixities of different operators, and there is a
grouping for each of its chains by the fixities of the core library, of the configuration and of its
own, of which later ones override earlier ones. -/
structure Faultless (config : Option Config) (module : Module) : Prop where
  /-- No operator is declared twice. -/
  distinct : ((fixityEntries module.body).map Prod.fst).Nodup
  /-- Every chain can be grouped. -/
  grouped : ∀ chain : PlacedChain, chain.IsIn module → ∃ tree,
      IsGrouping (.layered [Registry.builtin.entries, configured config, fixityEntries module.body])
      chain.left chain.clauses tree

/-- A file passes: it can be read, and parsed as a module without fault. -/
def Passes (config : Option Config) (path : Text) : Prop :=
  ∃ source module, surroundings.files.readText path = .ok source ∧
    Module.parse source = .ok module ∧ Faultless config module

/-- The fixities that a configuration gives can be declared. -/
def Declarable (config : Option Config) : Prop :=
  ∀ entry ∈ configured config, entry.2.Declarable

/-- What counts for the operators of a file that was read under such a configuration can be
declared, so that adding one makes its precedence greater. -/
theorem raisable_merge_baseRegistry (declarable : Declarable config) {module : Module}
    (read : Module.parse source = .ok module) (symbol : Text) :
    (Registry.fixity ((baseRegistry config).merge ⟨fixityEntries module.body⟩)
      symbol).precedence.Raisable := by
  rw [fixity_merge_baseRegistry]
  refine Fixity.Declarable.raisable (Registry.declarable_fixity (fun entry member => ?_) symbol)
  have builtin : ∀ entry ∈ Registry.builtin.entries, entry.2.Declarable := by
    unfold Fixity.Declarable
    decide +kernel
  have own : ∀ entry ∈ fixityEntries module.body, entry.2.Declarable := by
    intro entry inBody
    obtain ⟨found, inModule, declared, isFixity, rfl⟩ := mem_fixityEntries inBody
    exact Fixity.declarable_of_le _ (precedence_le read inModule isFixity)
  have inLayer : entry ∈ fixityEntries module.body ∨ entry ∈ configured config ∨
      entry ∈ Registry.builtin.entries := by
    simpa [Registry.layered] using member
  rcases inLayer with inModule | inConfig | inCore
  · exact own entry inModule
  · exact declarable entry inConfig
  · exact builtin entry inCore

/-! ## Verdicts -/

/-- Something is written about every error. -/
theorem describe_ne_nil (diagnostic : Diagnostic) :
    surroundings.describe path source diagnostic ≠ [] :=
  Diagnostic.render_ne_nil _ _ diagnostic

/-- Nothing is written about faults in fixities where there are none. -/
theorem flatMap_describeFixity_eq_nil {errors : List FixityError} :
    errors.flatMap (surroundings.describeFixity path source) = [] ↔ errors = [] := by
  cases errors with
  | nil => simp
  | cons first others => simp [describeFixity, describe_ne_nil]

/-- The verdict on a source and what is written about it agree. -/
theorem passed_checkSource (registry : Registry) (path source : Text) :
    (surroundings.checkSource registry path source).passed = true ↔
      (surroundings.checkSource registry path source).text = [] := by
  rw [checkSource]
  cases Module.parse source with
  | error error => simp [describe_ne_nil]
  | ok module =>
    dsimp only
    cases module.resolve (registry.merge module.declaredFixities.registry) with
    | ok chains => rw [List.isEmpty_iff, flatMap_describeFixity_eq_nil]
    | error error => simp [describeFixity, describe_ne_nil]

/-- The verdict on a file and what is written about it agree. -/
theorem passed_iff_text_eq_nil (registry : Registry) (path : Text) :
    (surroundings.checkFile registry path).passed = true ↔
      (surroundings.checkFile registry path).text = [] := by
  rw [checkFile]
  cases surroundings.files.readText path with
  | error error => simp [describe_ne_nil]
  | ok source => exact surroundings.passed_checkSource registry path source

/-- The source of a module without fault passes, and no other one. -/
theorem passed_iff_faultless (declarable : Declarable config) :
    (surroundings.checkSource (baseRegistry config) path source).passed = true ↔
      ∃ module, Module.parse source = .ok module ∧ Faultless config module := by
  rw [checkSource]
  cases read : Module.parse source with
  | error error => simp
  | ok module =>
    have grouping (distinct : ((fixityEntries module.body).map Prod.fst).Nodup) :
        (∃ chains, module.resolve ((baseRegistry config).merge module.declaredFixities.registry) =
          .ok chains) ↔ ∀ chain : PlacedChain, chain.IsIn module →
            ∃ tree, IsGrouping
              (.layered [Registry.builtin.entries, configured config, fixityEntries module.body])
              chain.left chain.clauses tree := by
      rw [Module.registry_declaredFixities distinct]
      exact module.resolve_ok_iff (raisable_merge_baseRegistry declarable read)
        (fixity_merge_baseRegistry config (fixityEntries module.body))
    have duplicates := module.errors_declaredFixities
    cases resolved : module.resolve
        ((baseRegistry config).merge module.declaredFixities.registry) with
    | ok chains =>
      simp only [resolved, List.isEmpty_iff, Except.ok.injEq, exists_eq_left']
      constructor
      · intro none
        have distinct := duplicates.mp none
        exact ⟨distinct, (grouping distinct).mp ⟨chains, resolved⟩⟩
      · exact fun faultless => duplicates.mpr faultless.distinct
    | error error =>
      simp only [resolved, Bool.false_eq_true, Except.ok.injEq, exists_eq_left', false_iff]
      intro faultless
      obtain ⟨chains, found⟩ := (grouping faultless.distinct).mpr faultless.grouped
      rw [resolved] at found
      cases found

/-- The files with a good verdict are those that pass. -/
theorem passed_checkFile (declarable : Declarable config) :
    (surroundings.checkFile (baseRegistry config) path).passed = true ↔
      surroundings.Passes config path := by
  rw [checkFile, Passes]
  cases surroundings.files.readText path with
  | error error => simp
  | ok source => simp [surroundings.passed_iff_faultless declarable]

/-! ## Files one by one -/

/-- What checking a single file comes to. -/
def checkAlone (config : Option Config) (path : Text) : Outcome :=
  surroundings.checkFiles (baseRegistry config) [path]

/-- What is written about a file alone. -/
theorem stderr_checkAlone : (surroundings.checkAlone config path).stderr =
    (surroundings.checkFile (baseRegistry config) path).text := by
  simp [checkAlone, checkFiles]

/-- Checking a file alone ends well if the verdict is good. -/
theorem exitCode_checkAlone : (surroundings.checkAlone config path).exitCode =
    if (surroundings.checkFile (baseRegistry config) path).passed then 0 else 1 := by
  rw [checkAlone, checkFiles]
  by_cases passes : (surroundings.checkFile (baseRegistry config) path).passed <;> simp [passes]

/-- A check of files comes to what checks of each of them alone come to, put together: what they
write in the order of the files, the number of the files and that of the files that fail, and
whether one fails. -/
structure Judges (config : Option Config) (paths : List Text) (outcome : Outcome) : Prop where
  /-- What is written about the files follows in their order. -/
  stderr : outcome.stderr = paths.flatMap fun path => (surroundings.checkAlone config path).stderr
  /-- Both numbers are given. -/
  stdout : outcome.stdout =
    Diagnostic.line ("Checked " ++ Text.ofNat paths.length ++ " file(s), " ++
      Text.ofNat (paths.countP fun path => (surroundings.checkAlone config path).exitCode = 1) ++
      " failed")
  /-- All is well if all files pass alone. -/
  zero : outcome.exitCode = 0 ↔
    ∀ path ∈ paths, (surroundings.checkAlone config path).exitCode = 0
  /-- Otherwise some file fails alone. -/
  one : outcome.exitCode = 1 ↔
    ∃ path ∈ paths, (surroundings.checkAlone config path).exitCode = 1

/-- Checking files is checking each of them alone. -/
theorem judges_checkFiles (config : Option Config) (paths : List Text) :
    surroundings.Judges config paths
      (surroundings.checkFiles (baseRegistry config) paths) := by
  have failed : (paths.map (surroundings.checkFile (baseRegistry config))).countP (!·.passed) =
      paths.countP fun path => (surroundings.checkAlone config path).exitCode = 1 := by
    rw [List.countP_map]
    refine List.countP_congr fun path _ => ?_
    simp [exitCode_checkAlone]
  have some : 0 < paths.countP (fun path => (surroundings.checkAlone config path).exitCode = 1) ↔
      ∃ path ∈ paths, (surroundings.checkAlone config path).exitCode = 1 := by
    simp [List.countP_pos_iff]
  have none : (∀ path ∈ paths, (surroundings.checkAlone config path).exitCode = 0) ↔
      ¬∃ path ∈ paths, (surroundings.checkAlone config path).exitCode = 1 := by
    simp [exitCode_checkAlone]
  refine ⟨?_, ?_, ?_, ?_⟩
  · simp [checkFiles, stderr_checkAlone, List.flatMap_map]
  · simp only [checkFiles, failed]
  · simp only [checkFiles, failed, some, none]
    split <;> simp_all
  · simp only [checkFiles, failed, some]
    split <;> simp_all

/-- Printing says what goes wrong. -/
theorem exitCode_print (file : Text) (settings : Settings)
    (view : Text → Except SourceError Json) :
    (surroundings.print file settings view).exitCode = 0 ↔
      (surroundings.print file settings view).stderr = [] := by
  unfold print
  dsimp only
  split
  · simp [Outcome.failure, describe_ne_nil]
  · split <;> simp [Outcome.failure, Outcome.success, describe_ne_nil]

/-- A check says what goes wrong. -/
theorem exitCode_check (files : List Text) (settings : Settings) :
    (surroundings.check files settings).exitCode = 0 ↔
      (surroundings.check files settings).stderr = [] := by
  rw [check]
  split
  · simp [Outcome.failure, Diagnostic.line_ne_nil]
  · split
    · simp [Outcome.failure, Diagnostic.line_ne_nil]
    · rename_i config _ _ paths _
      have judges := surroundings.judges_checkFiles config paths
      rw [judges.zero, judges.stderr, List.flatMap_eq_nil_iff]
      refine forall_congr' fun path => forall_congr' fun _ => ?_
      rw [exitCode_checkAlone, stderr_checkAlone, ← passed_iff_text_eq_nil]
      split <;> simp_all

/-! ## What is checked -/

/-- A check of files is under a configuration: under none if no name is given for one, files are
named, and nothing is at the place where one is looked for; and otherwise under the one that is
loaded. -/
def Configures (settings : Settings) (files : List Text) : Option Config → Prop
  | none => (settings.config = none ∨ settings.config = some []) ∧ files ≠ [] ∧
      ∀ found, surroundings.files.find (Config.locate surroundings.cwd none) ≠ .ok found
  | some config => ((∃ unit rest, settings.config = some (unit :: rest)) ∨ files = [] ∨
      ∃ found, surroundings.files.find (Config.locate surroundings.cwd none) = .ok found) ∧
      Config.load surroundings.files surroundings.cwd settings.config = .ok config

/-- Whether a path leads to something. -/
theorem contains_eq_false_iff (tree : FileTree) (path : Text) :
    tree.contains path = false ↔ ∀ found, tree.find path ≠ .ok found := by
  rw [FileTree.contains]
  cases tree.find path <;> simp [Except.toBool]

/-- A name is given unless there is none or the empty one. -/
theorem isNamed_iff (name : Option Text) :
    (name.any (· != []) = true ↔ ∃ unit rest, name = some (unit :: rest)) ∧
      (name.any (· != []) = false ↔ name = none ∨ name = some []) := by
  cases name with
  | none => simp
  | some name => cases name <;> simp

/-- What is there only as a value is that value. -/
theorem map_some_eq_ok_iff {ε α : Type} {result : Except ε α} {value : Option α} :
    result.map some = .ok value ↔ ∃ found, value = some found ∧ result = .ok found := by
  cases result <;> simp [Except.map, eq_comm]

/-- The configuration that a check is under is the one that is found for it. -/
theorem findConfig_eq_ok_iff {settings : Settings} {files : List Text} {config : Option Config} :
    surroundings.findConfig settings.config files.isEmpty = .ok config ↔
      surroundings.Configures settings files config := by
  have place := contains_eq_false_iff surroundings.files (Config.locate surroundings.cwd none)
  obtain ⟨isNamed, named⟩ := isNamed_iff settings.config
  rw [findConfig]
  by_cases without : settings.config.any (· != []) = false ∧ files ≠ [] ∧
      surroundings.files.contains (Config.locate surroundings.cwd none) = false
  · obtain ⟨notNamed, someFiles, notThere⟩ := without
    rw [if_pos (by simp [notNamed, someFiles, notThere])]
    have noName := named.mp notNamed
    have nothing := place.mp notThere
    cases config with
    | none => simp [Configures, noName, someFiles, nothing]
    | some config =>
      simp only [Except.ok.injEq, reduceCtorEq, Configures, false_iff, not_and]
      rintro (⟨unit, rest, isName⟩ | noFiles | ⟨found, isThere⟩)
      · simp [isName] at noName
      · exact absurd noFiles someFiles
      · exact absurd isThere (nothing found)
  · have needed : ¬((!settings.config.any (· != []) && !files.isEmpty &&
        !surroundings.files.contains (Config.locate surroundings.cwd none)) = true) := by
      simpa [and_assoc] using without
    rw [if_neg needed, map_some_eq_ok_iff]
    cases config with
    | none =>
      simp only [reduceCtorEq, false_and, exists_false, Configures, false_iff]
      rintro ⟨noName, someFiles, notThere⟩
      exact without ⟨named.mpr noName, someFiles, place.mpr notThere⟩
    | some config =>
      simp only [Option.some.injEq, exists_eq_left', Configures, iff_and_self]
      intro _
      by_contra none
      push Not at none
      obtain ⟨noName, someFiles, notThere⟩ := none
      refine without ⟨?_, someFiles, place.mpr notThere⟩
      rw [← Bool.not_eq_true, isNamed]
      rintro ⟨unit, rest, isName⟩
      exact noName unit rest isName

/-- The path is that of a file below a directory, at any depth, whose name ends in that of source
files. -/
def IsSourceBelow (directory path : Text) : Prop :=
  ∃ directories name bytes, (∀ part ∈ directories ++ [name], Path.IsName part) ∧
    path = Path.ofComponents (Path.normalize directory ++ (directories ++ [name])) ∧
    surroundings.files.find path = .ok (.file bytes) ∧ sourceExtension <:+ name

/-- Without named files the sources below the configured directory are checked, each of them
once. -/
theorem targets_sources (wellFormed : surroundings.files.WellFormed) {config : Config}
    {entries : List (Text × FileTree)}
    (isDirectory : surroundings.files.find config.srcDir = .ok (.directory entries)) :
    ∃ paths, surroundings.targets [] (some config) = .ok paths ∧ paths.Nodup ∧
      ∀ path, path ∈ paths ↔ surroundings.IsSourceBelow config.srcDir path := by
  have resolved : Path.ofComponents (Path.normalize config.srcDir) = config.srcDir :=
    Path.ofComponents_normalize_resolve _ _
  rw [← resolved] at isDirectory
  obtain ⟨paths, listed, nodup, mem⟩ :=
    FileTree.filesBelow_directory surroundings.precedes sourceExtension wellFormed
      (Path.isName_of_mem_normalize config.srcDir) isDirectory
  rw [resolved] at listed isDirectory
  refine ⟨paths, ?_, nodup, mem⟩
  simp [targets, FileTree.contains, isDirectory, listed, Except.toBool, Except.mapError]

/-- The fixities of the configuration that a check is under can be declared. -/
theorem Configures.declarable {settings : Settings} {files : List Text}
    (configures : surroundings.Configures settings files config) : Declarable config := by
  cases config with
  | none => exact fun entry member => nomatch member
  | some config =>
    obtain ⟨_, _, -, -, read⟩ := Config.exists_value_of_load configures.2
    exact Config.declarable_of_ofJson read

/-- A check whose configuration and files are found is one of those files under it. -/
theorem check_eq {settings : Settings} {files paths : List Text}
    (configures : surroundings.Configures settings files config)
    (aims : surroundings.targets files config = .ok paths) :
    surroundings.check files settings =
      surroundings.checkFiles (baseRegistry config) paths := by
  rw [check, surroundings.findConfig_eq_ok_iff.mpr configures]
  dsimp only
  rw [aims]

/-- Named files are found where their names lead to from the working directory. -/
theorem targets_named (config : Option Config) {files : List Text} (some : files ≠ []) :
    surroundings.targets files config = .ok (files.map (Path.resolve surroundings.cwd)) := by
  cases files with
  | nil => exact absurd rfl some
  | cons first others => cases config <;> rfl

/-- A check of one file is under the configuration of a check of several. -/
theorem Configures.single {settings : Settings} {files : List Text} (some : files ≠ [])
    (configures : surroundings.Configures settings files config) (file : Text) :
    surroundings.Configures settings [file] config := by
  cases config with
  | none => exact ⟨configures.1, by simp, configures.2.2⟩
  | some config =>
    refine ⟨?_, configures.2⟩
    rcases configures.1 with named | none | isThere
    · exact .inl named
    · exact absurd none some
    · exact .inr (.inr isThere)

/-- A check is under the configuration that is named or is at its place, or under none. What it
writes and its exit code are put together from those of checks of each file alone under this
configuration, and a file passes alone if it can be read and parsed without fault. The files are the
named ones as seen from the working directory, each of which comes to the same when it is named
alone; or else the sources below the configured directory, each of them once. And the exit code is
zero if nothing is written to the standard error output. -/
theorem check_judges_alone :
    (∀ settings files config, surroundings.Configures settings files config →
      (∀ path, (surroundings.checkAlone config path).exitCode = 0 ↔
        surroundings.Passes config path) ∧
      (files ≠ [] →
        surroundings.Judges config (files.map (Path.resolve surroundings.cwd))
          (surroundings.check files settings) ∧
        ∀ file, surroundings.check [file] settings =
          surroundings.checkAlone config (Path.resolve surroundings.cwd file)) ∧
      (files = [] → surroundings.files.WellFormed → ∀ found entries, config = some found →
        surroundings.files.find found.srcDir = .ok (.directory entries) →
        ∃ paths, paths.Nodup ∧
          (∀ path, path ∈ paths ↔ surroundings.IsSourceBelow found.srcDir path) ∧
          surroundings.Judges config paths (surroundings.check files settings))) ∧
    (∀ files settings, (surroundings.check files settings).exitCode = 0 ↔
      (surroundings.check files settings).stderr = []) ∧
    (∀ file settings,
      ((surroundings.parse file settings).exitCode = 0 ↔
        (surroundings.parse file settings).stderr = []) ∧
      ((surroundings.tokenize file settings).exitCode = 0 ↔
        (surroundings.tokenize file settings).stderr = [])) := by
  refine ⟨fun settings files config configures => ⟨fun path => ?_, fun some => ⟨?_, fun file => ?_⟩,
    fun none wellFormed found entries isFound isDirectory => ?_⟩, surroundings.exitCode_check,
    fun file settings => ⟨surroundings.exitCode_print file settings _,
      surroundings.exitCode_print file settings _⟩⟩
  · rw [exitCode_checkAlone, ← surroundings.passed_checkFile configures.declarable]
    split <;> simp_all
  · rw [surroundings.check_eq configures (surroundings.targets_named config some)]
    exact surroundings.judges_checkFiles config _
  · exact surroundings.check_eq (configures.single surroundings some file)
      (surroundings.targets_named config (List.cons_ne_nil _ _))
  · subst none isFound
    obtain ⟨paths, aims, nodup, mem⟩ := surroundings.targets_sources wellFormed isDirectory
    refine ⟨paths, nodup, mem, ?_⟩
    rw [surroundings.check_eq configures aims]
    exact surroundings.judges_checkFiles (some found) paths

/-- Two sources below a configured directory, of which one declares an operator twice. -/
def twoSources : Surroundings where
  files :=
    let text (content : String) : FileTree :=
      .file (content.toList.map fun char => char.toNat.toUInt8)
    .directory [("app", .directory [
      ("groom.json", text <| "\x7b\"src\":\"src\",\"operators\":\x7b\"|.\":" ++
        "\x7b\"precedence\":6,\"associativity\":\"left\"\x7d\x7d\x7d"),
      ("src", .directory [
        ("inner", .directory [("B.elm", text "infix left 1 (|=) = a\ninfix left 2 (|=) = b\n")]),
        ("A.elm", text "x = 1 |. 2 + 3\n"),
        ("A.txt", text "x =")])])]
  cwd := "/app"
  precedes := Collation.precedes

/-- The configuration of the two sources. -/
def twoSourcesConfig : Config := ⟨"src", ⟨[("|.", ⟨.left, 6⟩)]⟩, "/app", "/app/groom.json"⟩

/-- The entries of each directory around the two sources have different names. -/
theorem twoSources_wellFormed : twoSources.files.WellFormed := by
  refine .directory (by decide +kernel) (by decide +kernel) (List.forall_mem_singleton.mpr ?_)
  refine .directory (by decide +kernel) (by decide +kernel)
    (List.forall_mem_cons.mpr ⟨.file _, List.forall_mem_singleton.mpr ?_⟩)
  refine .directory (by decide +kernel) (by decide +kernel) (List.forall_mem_cons.mpr
      ⟨?_, List.forall_mem_cons.mpr ⟨.file _, List.forall_mem_singleton.mpr (.file _)⟩⟩)
  exact .directory (by decide +kernel) (by decide +kernel) (List.forall_mem_singleton.mpr (.file _))

/-- Checking two sources without naming them finds both, and it fails as the one of them that fails
alone does. Naming the other one alone is a check that ends well. -/
theorem two_sources_checked :
    twoSources.Configures .initial [] (some twoSourcesConfig) ∧ twoSources.files.WellFormed ∧
    (∃ paths, Text.ofString "/app/src/A.elm" ∈ paths ∧
      Text.ofString "/app/src/inner/B.elm" ∈ paths ∧
      twoSources.Judges (some twoSourcesConfig) paths (twoSources.check [] .initial) ∧
      (twoSources.check [] .initial).exitCode = 1) ∧
    twoSources.Configures .initial ["src/A.elm"] (some twoSourcesConfig) ∧
    twoSources.Judges (some twoSourcesConfig) [Text.ofString "/app/src/A.elm"]
      (twoSources.check ["src/A.elm"] .initial) ∧
    twoSources.Passes (some twoSourcesConfig) "/app/src/A.elm" := by
  have configured : twoSources.Configures .initial [] (some twoSourcesConfig) :=
    twoSources.findConfig_eq_ok_iff.mp (by decide +kernel)
  have named : twoSources.Configures .initial ["src/A.elm"] (some twoSourcesConfig) :=
    twoSources.findConfig_eq_ok_iff.mp (by decide +kernel)
  obtain ⟨alone, -, listing⟩ := twoSources.check_judges_alone.1 .initial [] _ configured
  obtain ⟨-, together, -⟩ := twoSources.check_judges_alone.1 .initial ["src/A.elm"] _ named
  obtain ⟨paths, -, mem, judges⟩ := listing rfl twoSources_wellFormed twoSourcesConfig _ rfl rfl
  have passing : Text.ofString "/app/src/A.elm" ∈ paths :=
    (mem _).mpr ⟨[], "A.elm", _, by decide +kernel, by decide +kernel, rfl, by decide +kernel⟩
  have failing : Text.ofString "/app/src/inner/B.elm" ∈ paths :=
    (mem _).mpr ⟨["inner"], "B.elm", _, by decide +kernel, by decide +kernel,
      rfl, by decide +kernel⟩
  exact ⟨configured, twoSources_wellFormed,
    ⟨paths, passing, failing, judges, judges.one.mpr ⟨_, failing, by decide +kernel⟩⟩, named,
    (together (List.cons_ne_nil _ _)).1, (alone _).mp (by decide +kernel)⟩

end Surroundings

end CommandLine

end Marginalia

import RefGraph.Script.Exports
import RefGraph.Proofs.Script.References

/-!
# What the top of a script declares and exports

A node declares names by its kind: functions, classes, interfaces, types and enumerations one by
name, declarations of variables one for each declarator that is a plain name, and ambient
declarations what stands in them. An export statement exports what it declares, a default, or the
names of a clause, and nothing if it takes its names from another module.

* `HasKind`, `Declares`, `DeclaresAtTop`: the names that a node declares.
* `SpecifierExports`, `DefaultExports`, `DeclarationExports`, `ExportsAtTop`: the exports of a node.
* `declares_iff`, `declaresAtTop_iff`, `exportsAtTop_iff`: exactly these are found, in their order.
-/

namespace RefGraph.Script

variable {source : List Char}

/-! ## Induction over trees -/

/-- A property that a node has if its children have it holds for all nodes. -/
theorem Node.induct {P : Node → Prop}
    (h : ∀ node : Node, (∀ child ∈ node.children, P child) → P node) (node : Node) : P node :=
  h node fun child _hchild => Node.induct h child
termination_by sizeOf node
decreasing_by
  have hlt := List.sizeOf_lt_of_mem _hchild
  cases node
  simp only [Node.mk.sizeOf_spec] at hlt ⊢
  omega

/-! ## Declarations -/

/-- The kinds of nodes that declare a single name, with the kinds of what they declare. -/
def namedDeclarations : List (String × SymbolKind) :=
  [("function_declaration", .function), ("generator_function_declaration", .function),
    ("function_signature", .function), ("class_declaration", .classLike),
    ("abstract_class_declaration", .classLike), ("interface_declaration", .interface),
    ("type_alias_declaration", .typeAlias), ("enum_declaration", .enumeration)]

/-- The kind of what a node declares. -/
inductive HasKind (source : List Char) (node : Node) : SymbolKind → Prop where
  | named {kind : SymbolKind} (listed : (node.kind, kind) ∈ namedDeclarations) :
      HasKind source node kind
  | var (kind : node.kind = "variable_declaration") : HasKind source node .varBinding
  | const {word : Node} {others : List Node} (kind : node.kind = "lexical_declaration")
      (children : node.children = word :: others) (isConst : word.text source = "const") :
      HasKind source node .constant
  | «let» {word : Node} {others : List Node} (kind : node.kind = "lexical_declaration")
      (children : node.children = word :: others) (isLet : word.text source = "let") :
      HasKind source node .letBinding

/-- A declarator of a plain name. One with a pattern declares none. -/
inductive DeclaresVariable (source : List Char) (declarator : Node) : String → Prop where
  | intro {name : Node} (kind : declarator.kind = "variable_declarator")
      (field : declarator.childByField? "name" = some name) (isPlain : name.kind = "identifier") :
      DeclaresVariable source declarator (name.text source)

/-- The names that a node declares, with their kinds. -/
inductive Declares (source : List Char) : Node → List (String × SymbolKind) → Prop where
  | named {node name : Node} {kind : SymbolKind} (listed : (node.kind, kind) ∈ namedDeclarations)
      (field : node.childByField? "name" = some name) :
      Declares source node [(name.text source, kind)]
  | unnamed {node : Node} {kind : SymbolKind} (listed : (node.kind, kind) ∈ namedDeclarations)
      (noName : node.childByField? "name" = none) : Declares source node []
  | ofVariables {node : Node} {kind : SymbolKind} {names : List String}
      (isVariables : node.kind ∈ ["lexical_declaration", "variable_declaration"])
      (hasKind : HasKind source node kind)
      (declarators : InOrder (OneOrNone (DeclaresVariable source)) node.namedChildren names) :
      Declares source node (names.map fun name => (name, kind))
  | ambient {node : Node} {declared : List (String × SymbolKind)}
      (isAmbient : node.kind = "ambient_declaration")
      (inside : InOrder (Declares source) node.namedChildren declared) :
      Declares source node declared
  | other {node : Node} (noKind : ∀ kind, ¬ HasKind source node kind)
      (notAmbient : node.kind ≠ "ambient_declaration") : Declares source node []

section Declarations

variable {node : Node}

/-- A kind that is found is the kind of the declaration. -/
theorem hasKind_of_declarationKind? {kind : SymbolKind}
    (h : declarationKind? source node = some kind) : HasKind source node kind := by
  unfold declarationKind? at h
  split at h
  -- the kinds that are listed
  any_goals (refine .named ?_; simp_all [namedDeclarations]; done)
  · rw [← Option.some.inj h]
    exact .var ‹_›
  · rename_i hkind
    cases hchildren : node.children with
    | nil => simp [hchildren] at h
    | cons word others =>
      rw [hchildren, List.head?_cons, Option.map_some] at h
      split at h
      · rename_i hword
        rw [← Option.some.inj h]
        exact .const hkind hchildren (Option.some.inj hword)
      · rename_i hword
        rw [← Option.some.inj h]
        exact .let hkind hchildren (Option.some.inj hword)
      · cases h

/-- The kind of a declaration is found. -/
theorem declarationKind?_of_hasKind {kind : SymbolKind} (h : HasKind source node kind) :
    declarationKind? source node = some kind := by
  cases h with
  | named listed =>
    simp only [namedDeclarations, List.mem_cons, Prod.mk.injEq, List.not_mem_nil, or_false]
      at listed
    rcases listed with h | h | h | h | h | h | h | h <;> simp [declarationKind?, h.1, h.2]
  | var kind => simp [declarationKind?, kind]
  | const kind children isConst => simp [declarationKind?, kind, children, isConst]
  | «let» kind children isLet => simp [declarationKind?, kind, children, isLet]

/-- The kind of what a node declares is found. -/
theorem declarationKind?_eq_some_iff {kind : SymbolKind} :
    declarationKind? source node = some kind ↔ HasKind source node kind :=
  ⟨hasKind_of_declarationKind?, declarationKind?_of_hasKind⟩

/-- No kind is found just where the node declares nothing. -/
theorem declarationKind?_eq_none_iff :
    declarationKind? source node = none ↔ ∀ kind, ¬ HasKind source node kind := by
  simp only [Option.eq_none_iff_forall_ne_some, ne_eq, declarationKind?_eq_some_iff]

/-- The plain name that a node declares as a declarator. -/
def declaratorName? (source : List Char) (declarator : Node) : Option String :=
  if declarator.kind = "variable_declarator" then
    match declarator.childByField? "name" with
    | some name => if name.kind = "identifier" then some (name.text source) else none
    | none => none
  else none

/-- A name is found in a declarator just if that declares a variable of this name. -/
theorem declaratorName?_eq_some_iff {declarator : Node} {name : String} :
    declaratorName? source declarator = some name ↔ DeclaresVariable source declarator name := by
  unfold declaratorName?
  constructor
  · intro h
    split at h
    · rename_i hkind
      split at h
      · rename_i name hname
        split at h
        · rw [← Option.some.inj h]
          exact .intro hkind hname ‹_›
        · cases h
      · cases h
    · cases h
  · rintro ⟨kind, field, isPlain⟩
    rw [if_pos kind, field]
    exact if_pos isPlain

theorem declaratorNames_eq (node : Node) :
    declaratorNames source node = node.namedChildren.filterMap (declaratorName? source) := rfl

/-- The names of a list of declarators are those of its variables, in the order in which they
stand. -/
theorem inOrder_declaratorNames_iff {names : List String} :
    InOrder (OneOrNone (DeclaresVariable source)) node.namedChildren names ↔
      names = declaratorNames source node := by
  rw [declaratorNames_eq, List.filterMap_eq_flatMap_toList]
  exact inOrder_iff fun declarator here =>
    oneOrNone_iff fun declarator name => declaratorName?_eq_some_iff

/-- The names of several declarations are those of each, one after the other. -/
theorem declaredNamesOfList_eq (nodes : List Node) : declaredNamesOfList source nodes =
    (nodes.filter (·.named)).flatMap (declaredNames source) := by
  induction nodes with
  | nil => rfl
  | cons node nodes ih =>
    rw [declaredNamesOfList, ih, List.filter_cons]
    cases node.named <;> rfl

/-- An ambient declaration declares what stands in it. -/
theorem declaredNames_eq (node : Node) : declaredNames source node =
    if node.kind = "ambient_declaration" then node.namedChildren.flatMap (declaredNames source)
    else plainDeclaredNames source node := by
  cases node
  rw [declaredNames, declaredNamesOfList_eq]
  rfl

/-- What is found in a declaration that is not ambient is declared there. -/
theorem declares_plainDeclaredNames (h : node.kind ≠ "ambient_declaration") :
    Declares source node (plainDeclaredNames source node) := by
  unfold plainDeclaredNames
  split
  · rename_i hkind
    exact .other (declarationKind?_eq_none_iff.1 hkind) h
  · rename_i kind hkind
    have hasKind := declarationKind?_eq_some_iff.1 hkind
    split
    · rename_i hvariables
      exact .ofVariables (by simpa using hvariables) hasKind (inOrder_declaratorNames_iff.2 rfl)
    · rename_i hvariables
      have listed : (node.kind, kind) ∈ namedDeclarations := by
        cases hasKind with
        | named listed => exact listed
        | var kind => simp [kind] at hvariables
        | const kind => simp [kind] at hvariables
        | «let» kind => simp [kind] at hvariables
      split
      · exact .named listed ‹_›
      · exact .unnamed listed ‹_›

/-- **The names that a node declares are found**, those of an ambient declaration below it. -/
theorem declares_declaredNames (node : Node) :
    Declares source node (declaredNames source node) := by
  induction node using Node.induct with
  | h node ih =>
    rw [declaredNames_eq]
    split
    · refine .ambient ‹_› (inOrder_flatMap fun child hchild => ?_)
      exact ih child (List.mem_of_mem_filter hchild)
    · exact declares_plainDeclaredNames ‹_›

theorem ne_of_listed {kind : SymbolKind} (listed : (node.kind, kind) ∈ namedDeclarations) :
    node.kind ≠ "ambient_declaration" ∧ node.kind ≠ "lexical_declaration" ∧
      node.kind ≠ "variable_declaration" := by
  have hall : ∀ d ∈ namedDeclarations, d.1 ≠ "ambient_declaration" ∧
      d.1 ≠ "lexical_declaration" ∧ d.1 ≠ "variable_declaration" := by decide
  exact hall _ listed

/-- A declaration that is not ambient declares nothing but what is found. -/
theorem eq_plainDeclaredNames {declared : List (String × SymbolKind)}
    (notAmbient : node.kind ≠ "ambient_declaration") (h : Declares source node declared) :
    declared = plainDeclaredNames source node := by
  unfold plainDeclaredNames
  cases h with
  | named listed field =>
    obtain ⟨-, notLexical, notVariable⟩ := ne_of_listed listed
    have hkind := declarationKind?_of_hasKind (.named listed : HasKind source node _)
    simp [hkind, notLexical, notVariable, field]
  | unnamed listed noName =>
    obtain ⟨-, notLexical, notVariable⟩ := ne_of_listed listed
    have hkind := declarationKind?_of_hasKind (.named listed : HasKind source node _)
    simp [hkind, notLexical, notVariable, noName]
  | ofVariables isVariables hasKind declarators =>
    rw [declarationKind?_eq_some_iff.2 hasKind, inOrder_declaratorNames_iff.1 declarators]
    exact (if_pos (by simpa using isVariables)).symm
  | ambient isAmbient inside => exact absurd isAmbient notAmbient
  | other noKind notAmbient => rw [declarationKind?_eq_none_iff.2 noKind]

/-- A node declares nothing else. The induction is on the tree, for the sake of what stands in an
ambient declaration. -/
theorem declares_iff {declared : List (String × SymbolKind)} :
    Declares source node declared ↔ declared = declaredNames source node := by
  refine ⟨fun h => ?_, fun h => h ▸ declares_declaredNames node⟩
  induction node using Node.induct generalizing declared with
  | h node ih =>
    rw [declaredNames_eq]
    split
    · rename_i isAmbient
      cases h with
      | ambient _ inside =>
        refine (inOrder_iff fun child here => Iff.rfl).1 (inside.imp fun child hchild here h => ?_)
        exact ih child (List.mem_of_mem_filter hchild) h
      | named listed => exact absurd isAmbient (ne_of_listed listed).1
      | unnamed listed => exact absurd isAmbient (ne_of_listed listed).1
      | ofVariables isVariables => simp [isAmbient] at isVariables
      | other _ notAmbient => exact absurd isAmbient notAmbient
    · exact eq_plainDeclaredNames ‹_› h

end Declarations

/-! ## The top of a script -/

/-- The names that a node at the top of a script declares, itself or in an export statement. -/
inductive DeclaresAtTop (source : List Char) (node : Node) : List (String × SymbolKind) → Prop where
  | own {declared : List (String × SymbolKind)} (kind : node.kind ≠ "export_statement")
      (declares : Declares source node declared) : DeclaresAtTop source node declared
  | exported {declaration : Node} {declared : List (String × SymbolKind)}
      (kind : node.kind = "export_statement") (noSource : node.childByField? "source" = none)
      (field : node.childByField? "declaration" = some declaration)
      (declares : Declares source declaration declared) : DeclaresAtTop source node declared
  | noDeclaration (kind : node.kind = "export_statement")
      (noDeclaration : node.childByField? "declaration" = none) : DeclaresAtTop source node []
  | elsewhere {specifier : Node} (kind : node.kind = "export_statement")
      (field : node.childByField? "source" = some specifier) : DeclaresAtTop source node []

/-- What is found in a statement at the top is declared there. -/
theorem declaresAtTop_localsOf (node : Node) :
    DeclaresAtTop source node (localsOf source node) := by
  unfold localsOf
  split
  · rename_i kind
    cases hsource : node.childByField? "source" with
    | some specifier => exact .elsewhere kind hsource
    | none =>
      cases hdeclaration : node.childByField? "declaration" with
      | none => exact .noDeclaration kind hdeclaration
      | some declaration =>
        exact .exported kind hsource hdeclaration (declares_declaredNames declaration)
  · exact .own ‹_› (declares_declaredNames node)

/-- A statement at the top declares what is found, and nothing else. -/
theorem declaresAtTop_iff {node : Node} {declared : List (String × SymbolKind)} :
    DeclaresAtTop source node declared ↔ declared = localsOf source node := by
  refine ⟨fun h => ?_, fun h => h ▸ declaresAtTop_localsOf node⟩
  unfold localsOf
  cases h with
  | own kind declares => rw [if_neg kind, declares_iff.1 declares]
  | exported kind noSource field declares =>
    rw [if_pos kind, noSource, field, declares_iff.1 declares]
    rfl
  | noDeclaration kind noDeclaration =>
    rw [if_pos kind, noDeclaration]
    exact (ite_self _).symm
  | elsewhere kind field =>
    rw [if_pos kind, field]
    rfl

/-! ## Exports -/

/-- The name that a part of an export clause exports, under its own name or another one. -/
inductive SpecifierExports (source : List Char) (part : Node) : Export → Prop where
  | plain {name : Node} {localName : String} (kind : part.kind = "export_specifier")
      (field : part.childByField? "name" = some name) (isName : IsName source name localName)
      (noAlias : part.childByField? "alias" = none) :
      SpecifierExports source part (.ofLocal localName localName)
  | renamed {name newName : Node} {localName exported : String}
      (kind : part.kind = "export_specifier") (field : part.childByField? "name" = some name)
      (isName : IsName source name localName)
      (renames : part.childByField? "alias" = some newName)
      (isNewName : IsName source newName exported) :
      SpecifierExports source part (.ofLocal localName exported)

/-- An export is found in a part of a list just if the part names it. -/
theorem specifierExport?_eq_some_iff {part : Node} {e : Export} :
    specifierExport? source part = some e ↔ SpecifierExports source part e := by
  rw [specifierExport?]
  constructor
  · intro h
    split at h
    · cases h
    · rename_i hkind
      obtain ⟨name, hname, rfl⟩ := Option.map_eq_some_iff.1 h
      cases halias : part.childByField? "alias" with
      | none => exact .plain (not_not.1 hkind) hname (nameValue_eq_iff.1 rfl) halias
      | some newName =>
        exact .renamed (not_not.1 hkind) hname (nameValue_eq_iff.1 rfl) halias
          (nameValue_eq_iff.1 rfl)
  · intro h
    cases h with
    | plain kind field isName noAlias =>
      rw [if_neg (not_not.2 kind), field, Option.map_some, nameValue_eq_iff.2 isName, noAlias]
      rfl
    | renamed kind field isName renames isNewName =>
      rw [if_neg (not_not.2 kind), field, Option.map_some, nameValue_eq_iff.2 isName, renames,
        Option.map_some, nameValue_eq_iff.2 isNewName]
      rfl

/-- The kinds of expressions that are functions. -/
def functionKinds : List String :=
  ["function_expression", "function", "generator_function", "arrow_function"]

/-- The export of an expression as the default. -/
inductive DefaultExports (source : List Char) (value : Node) : Export → Prop where
  | name (kind : value.kind = "identifier") :
      DefaultExports source value (.ofLocal (value.text source) "default")
  | function (kind : value.kind ∈ functionKinds) :
      DefaultExports source value
        (.known ⟨"default", .function, (value.childByField? "name").map (Node.text source)⟩)
  | classLike (kind : value.kind = "class") :
      DefaultExports source value
        (.known ⟨"default", .classLike, (value.childByField? "name").map (Node.text source)⟩)
  | other (kind : value.kind ∉ "identifier" :: "class" :: functionKinds) :
      DefaultExports source value (.known ⟨"default", .exported, none⟩)

/-- A value that is exported by default is one export. -/
theorem defaultExports_iff {value : Node} {e : Export} :
    DefaultExports source value e ↔ e = defaultValueExport source value := by
  constructor
  · intro h
    cases h with
    | name kind => simp [defaultValueExport, kind]
    | function kind =>
      simp only [functionKinds, List.mem_cons, List.not_mem_nil, or_false] at kind
      rcases kind with kind | kind | kind | kind <;> simp [defaultValueExport, kind]
    | classLike kind => simp [defaultValueExport, kind]
    | other kind =>
      unfold defaultValueExport
      dsimp only
      split
      all_goals first | rfl | (exfalso; simp_all [functionKinds])
  · rintro rfl
    unfold defaultValueExport
    dsimp only
    split
    · exact .name ‹_›
    any_goals (refine .function ?_; simp_all [functionKinds])
    · exact .classLike ‹_›
    · exact .other (by simp_all [functionKinds])

/-- The exports of a declaration: all its names, or the first one as the default. -/
inductive DeclarationExports (source : List Char) (isDefault : Bool) (declaration : Node) :
    List Export → Prop where
  | all {declared : List (String × SymbolKind)} (plain : isDefault = false)
      (declares : Declares source declaration declared) :
      DeclarationExports source isDefault declaration
        (declared.map fun d => .known ⟨d.1, d.2, none⟩)
  | first {name : String} {kind : SymbolKind} {more : List (String × SymbolKind)}
      (default : isDefault = true) (declares : Declares source declaration ((name, kind) :: more)) :
      DeclarationExports source isDefault declaration [.known ⟨"default", kind, some name⟩]
  | unnamed {kind : SymbolKind} (default : isDefault = true)
      (declares : Declares source declaration []) (hasKind : HasKind source declaration kind) :
      DeclarationExports source isDefault declaration [.known ⟨"default", kind, none⟩]
  | unknown (default : isDefault = true) (declares : Declares source declaration [])
      (noKind : ∀ kind, ¬ HasKind source declaration kind) :
      DeclarationExports source isDefault declaration [.known ⟨"default", .exported, none⟩]

/-- An exported declaration exports what is found, and nothing else. -/
theorem declarationExports_iff {isDefault : Bool} {declaration : Node} {exports : List Export} :
    DeclarationExports source isDefault declaration exports ↔
      exports = declarationExports source isDefault declaration := by
  unfold declarationExports
  dsimp only
  constructor
  · intro h
    cases h with
    | all plain declares =>
      subst plain
      rw [declares_iff.1 declares]
      rfl
    | first isDefault declares => rw [if_pos isDefault, ← declares_iff.1 declares]
    | unnamed isDefault declares hasKind =>
      rw [if_pos isDefault, ← declares_iff.1 declares, declarationKind?_eq_some_iff.2 hasKind]
      rfl
    | unknown isDefault declares noKind =>
      rw [if_pos isDefault, ← declares_iff.1 declares, declarationKind?_eq_none_iff.2 noKind]
      rfl
  · rintro rfl
    have declares : Declares source declaration _ := declares_declaredNames declaration
    -- A default export takes the first declared name, or else the kind of what is declared.
    cases isDefault with
    | false => exact .all rfl declares
    | true =>
      rw [if_pos rfl]
      split
      · rename_i name kind more hnames
        exact .first rfl (hnames ▸ declares)
      · rename_i hnames
        rw [hnames] at declares
        cases hkind : declarationKind? source declaration with
        | some kind => exact .unnamed rfl declares (declarationKind?_eq_some_iff.1 hkind)
        | none => exact .unknown rfl declares (declarationKind?_eq_none_iff.1 hkind)

/-- The exports of a node at the top of a script. -/
inductive ExportsAtTop (source : List Char) (node : Node) : List Export → Prop where
  | noExport (kind : node.kind ≠ "export_statement") : ExportsAtTop source node []
  | elsewhere {specifier : Node} (kind : node.kind = "export_statement")
      (field : node.childByField? "source" = some specifier) : ExportsAtTop source node []
  | declaration {declaration : Node} {exports : List Export} (kind : node.kind = "export_statement")
      (noSource : node.childByField? "source" = none)
      (field : node.childByField? "declaration" = some declaration)
      (inside : DeclarationExports source (isDefaultExport node) declaration exports) :
      ExportsAtTop source node exports
  | defaultValue {value : Node} {e : Export} (kind : node.kind = "export_statement")
      (noSource : node.childByField? "source" = none)
      (noDeclaration : node.childByField? "declaration" = none)
      (default : isDefaultExport node = true) (field : node.childByField? "value" = some value)
      (inside : DefaultExports source value e) : ExportsAtTop source node [e]
  | noValue (kind : node.kind = "export_statement")
      (noSource : node.childByField? "source" = none)
      (noDeclaration : node.childByField? "declaration" = none)
      (default : isDefaultExport node = true) (noValue : node.childByField? "value" = none) :
      ExportsAtTop source node []
  | clause {clause : Node} {exports : List Export} (kind : node.kind = "export_statement")
      (noSource : node.childByField? "source" = none)
      (noDeclaration : node.childByField? "declaration" = none)
      (plain : isDefaultExport node = false)
      (hasClause : node.childOfKind? "export_clause" = some clause)
      (parts : InOrder (OneOrNone (SpecifierExports source)) clause.namedChildren exports) :
      ExportsAtTop source node exports
  | noClause (kind : node.kind = "export_statement")
      (noSource : node.childByField? "source" = none)
      (noDeclaration : node.childByField? "declaration" = none)
      (plain : isDefaultExport node = false)
      (noClause : node.childOfKind? "export_clause" = none) : ExportsAtTop source node []

/-- The exports that are found at a node at the top of a script. -/
def exportsAtTop (source : List Char) (node : Node) : List Export :=
  if node.kind = "export_statement" then statementExports source node else []

/-- A list of exports exports what is found in its parts, in their order. -/
theorem inOrder_specifierExports_iff {parts : List Node} {exports : List Export} :
    InOrder (OneOrNone (SpecifierExports source)) parts exports ↔
      exports = parts.filterMap (specifierExport? source) := by
  rw [List.filterMap_eq_flatMap_toList]
  exact inOrder_iff fun part here => oneOrNone_iff fun part e => specifierExport?_eq_some_iff

/-- The exports of a node at the top of a script are found. -/
theorem ExportsAtTop.eq {node : Node} {exports : List Export}
    (h : ExportsAtTop source node exports) : exports = exportsAtTop source node := by
  unfold exportsAtTop statementExports
  cases h with
  | noExport kind => rw [if_neg kind]
  | elsewhere kind field => rw [if_pos kind, field]; rfl
  | declaration kind noSource field inside =>
    rw [if_pos kind, noSource, field, declarationExports_iff.1 inside]
    rfl
  | defaultValue kind noSource noDeclaration default field inside =>
    rw [if_pos kind, noSource, noDeclaration, default, field, defaultExports_iff.1 inside]
    rfl
  | noValue kind noSource noDeclaration default noValue =>
    rw [if_pos kind, noSource, noDeclaration, default, noValue]
    rfl
  | clause kind noSource noDeclaration plain hasClause parts =>
    rw [if_pos kind, noSource, noDeclaration, plain, hasClause,
      inOrder_specifierExports_iff.1 parts]
    rfl
  | noClause kind noSource noDeclaration plain noClause =>
    rw [if_pos kind, noSource, noDeclaration, plain, noClause]
    rfl

/-- What is found are exports of the node. -/
theorem exportsAtTop_exportsAtTop (node : Node) :
    ExportsAtTop source node (exportsAtTop source node) := by
  unfold exportsAtTop statementExports
  split
  · -- The fields are asked for in this order, and the first one that is there decides.
    rename_i kind
    cases hsource : node.childByField? "source" with
    | some specifier => exact .elsewhere kind hsource
    | none =>
      cases hdeclaration : node.childByField? "declaration" with
      | some declaration =>
        exact .declaration kind hsource hdeclaration (declarationExports_iff.2 rfl)
      | none =>
        cases hdefault : isDefaultExport node with
        | true =>
          cases hvalue : node.childByField? "value" with
          | none => exact .noValue kind hsource hdeclaration hdefault hvalue
          | some value =>
            exact .defaultValue kind hsource hdeclaration hdefault hvalue
              (defaultExports_iff.2 rfl)
        | false =>
          cases hclause : node.childOfKind? "export_clause" with
          | none => exact .noClause kind hsource hdeclaration hdefault hclause
          | some clause =>
            exact .clause kind hsource hdeclaration hdefault hclause
              (inOrder_specifierExports_iff.2 rfl)
  · exact .noExport ‹_›

/-- **Exactly the exports of a node at the top of a script are found.** A statement that takes its
names from another module has none. -/
theorem exportsAtTop_iff {node : Node} {exports : List Export} :
    ExportsAtTop source node exports ↔ exports = exportsAtTop source node := by
  constructor
  · exact ExportsAtTop.eq
  · rintro rfl
    exact exportsAtTop_exportsAtTop node

end RefGraph.Script

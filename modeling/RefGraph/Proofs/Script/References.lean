import RefGraph.Script.References
import Mathlib.Data.List.Basic

/-!
# What a script refers to

A syntax tree refers to a module with an import statement, with an export from elsewhere, or with a
call of `import` or `require` that has a single string literal for its argument. The references of a
tree are those of its nodes, each node before the ones below it, and nothing else. Comments may
stand among the arguments of a call, but comments as in markup count as arguments.

* `IsLiteral`, `IsName`: texts between quotes, and names.
* `SpecifierBinds`, `PartBinds`: the names that an import brings in.
* `Mentions`, `RefersTo`: the reference that a node makes.
* `reference?_eq_some_iff`: exactly that reference is found.
* `inOrder_references`: the references of a tree, in the order of its nodes.
* `references_markedUpCall`: what a comment as in markup does to a call.
-/

namespace RefGraph.Script

variable {source : List Char}

/-! ## Finds in their order -/

/-- What is found at nodes, put together in the order of the nodes. -/
inductive InOrder {α : Type} (found : Node → List α → Prop) : List Node → List α → Prop where
  | nil : InOrder found [] []
  | cons {node : Node} {nodes : List Node} {here more : List α} (first : found node here)
      (others : InOrder found nodes more) : InOrder found (node :: nodes) (here ++ more)

/-- What is found at a node is the one thing that belongs to it, or nothing if nothing does. -/
inductive OneOrNone {α : Type} (belongs : Node → α → Prop) (node : Node) : List α → Prop where
  | one {a : α} (this : belongs node a) (only : ∀ b, belongs node b → b = a) :
      OneOrNone belongs node [a]
  | none (nothing : ∀ a, ¬ belongs node a) : OneOrNone belongs node []

/-- What belongs to each node alone belongs in order to all of them. -/
theorem inOrder_iff {α : Type} {found : Node → List α → Prop} {f : Node → List α}
    (h : ∀ node here, found node here ↔ here = f node) {nodes : List Node} {all : List α} :
    InOrder found nodes all ↔ all = nodes.flatMap f := by
  constructor
  · intro hall
    induction hall with
    | nil => rfl
    | cons first others ih => rw [(h _ _).1 first, ih, List.flatMap_cons]
  · rintro rfl
    induction nodes with
    | nil => exact .nil
    | cons node nodes ih =>
      rw [List.flatMap_cons]
      exact .cons ((h _ _).2 rfl) ih

theorem inOrder_flatMap {α : Type} {found : Node → List α → Prop} {f : Node → List α}
    {nodes : List Node} (h : ∀ node ∈ nodes, found node (f node)) :
    InOrder found nodes (nodes.flatMap f) := by
  induction nodes with
  | nil => exact .nil
  | cons node nodes ih =>
    rw [List.flatMap_cons]
    exact .cons (h node List.mem_cons_self) (ih fun n hn => h n (List.mem_cons_of_mem _ hn))

/-- What at most one thing stands for is what is found, if anything is. -/
theorem oneOrNone_iff {α : Type} {belongs : Node → α → Prop} {f : Node → Option α}
    (h : ∀ node a, f node = some a ↔ belongs node a) {node : Node} {here : List α} :
    OneOrNone belongs node here ↔ here = (f node).toList := by
  constructor
  · intro hone
    cases hone with
    | one this only => rw [(h _ _).2 this, Option.toList_some]
    | none nothing =>
      have hnone : f node = none := Option.eq_none_iff_forall_ne_some.2 fun a ha =>
        nothing a ((h _ _).1 ha)
      rw [hnone, Option.toList_none]
  · rintro rfl
    cases hf : f node with
    | none => exact .none fun a ha => by simp [(h _ _).2 ha] at hf
    | some a =>
      refine .one ((h _ _).1 hf) fun b hb => ?_
      rw [(h _ _).2 hb] at hf
      exact Option.some.inj hf

/-- Where nothing is found, nothing is found at any of the nodes. -/
theorem InOrder.of_nil {α : Type} {found : Node → List α → Prop} {nodes : List Node}
    (h : InOrder found nodes []) : ∀ node ∈ nodes, found node [] := by
  generalize hall : ([] : List α) = all at h
  induction h with
  | nil => exact fun node hnode => absurd hnode List.not_mem_nil
  | cons first others ih =>
    obtain ⟨rfl, rfl⟩ := List.append_eq_nil_iff.1 hall.symm
    intro node hnode
    rcases List.mem_cons.1 hnode with rfl | hnode
    · exact first
    · exact ih rfl node hnode

/-! ## Texts between quotes -/

/-- A string literal with what stands between its quotes. -/
structure IsLiteral (source : List Char) (node : Node) (inside : String) : Prop where
  kind : node.kind = "string"
  text : ∃ opening closing, (node.text source).toList = opening :: (inside.toList ++ [closing])

/-- A value is found just in a string literal, between its quotation marks. -/
theorem stringValue?_eq_some_iff {node : Node} {inside : String} :
    stringValue? source node = some inside ↔ IsLiteral source node inside := by
  rw [stringValue?]
  constructor
  · intro h
    split at h
    · cases h
    · rename_i hkind
      split at h
      · rename_i opening c cs htext
        refine ⟨not_not.1 hkind, opening, (c :: cs).getLast (List.cons_ne_nil _ _), ?_⟩
        rw [htext, ← Option.some.inj h, String.toList_ofList, List.dropLast_append_getLast]
      · cases h
  · rintro ⟨hkind, opening, closing, htext⟩
    obtain ⟨c, cs, hcs⟩ := List.exists_cons_of_ne_nil (List.concat_ne_nil closing inside.toList)
    rw [if_neg (not_not.2 hkind), htext, hcs]
    dsimp only
    rw [← hcs, List.dropLast_concat, String.ofList_toList]

/-- A name as it is written, or as what stands between the quotes of a string literal. -/
inductive IsName (source : List Char) (node : Node) : String → Prop where
  | quoted {name : String} (literal : IsLiteral source node name) : IsName source node name
  | plain (noLiteral : ∀ inside, ¬ IsLiteral source node inside) :
      IsName source node (node.text source)

/-- The name of a node is its text, or what is in its quotation marks. -/
theorem nameValue_eq_iff {node : Node} {name : String} :
    nameValue source node = name ↔ IsName source node name := by
  rw [nameValue]
  constructor
  · rintro rfl
    cases hvalue : stringValue? source node with
    | some inside => exact .quoted (stringValue?_eq_some_iff.1 hvalue)
    | none =>
      refine .plain fun inside hinside => ?_
      rw [stringValue?_eq_some_iff.2 hinside] at hvalue
      cases hvalue
  · rintro (hliteral | hnone)
    · rw [stringValue?_eq_some_iff.2 hliteral, Option.getD_some]
    · have hvalue : stringValue? source node = none :=
        Option.eq_none_iff_forall_ne_some.2 fun inside h => hnone inside
          (stringValue?_eq_some_iff.1 h)
      rw [hvalue, Option.getD_none]

/-! ## Names that imports bring in -/

/-- The kind of binding of a name in a list of imports. -/
def listedKind (imported : String) : BindingKind :=
  if imported = "default" then .default else .named

/-- The name that a part of a list of imports brings in, under its own name or another one. -/
inductive SpecifierBinds (source : List Char) (part : Node) : Binding → Prop where
  | plain {name : Node} {imported : String} (kind : part.kind = "import_specifier")
      (field : part.childByField? "name" = some name) (isName : IsName source name imported)
      (noAlias : part.childByField? "alias" = none) :
      SpecifierBinds source part ⟨listedKind imported, imported, imported⟩
  | renamed {name newName : Node} {imported : String} (kind : part.kind = "import_specifier")
      (field : part.childByField? "name" = some name) (isName : IsName source name imported)
      (renames : part.childByField? "alias" = some newName) :
      SpecifierBinds source part ⟨listedKind imported, imported, newName.text source⟩

/-- A binding is found in a part of a list just if the part brings it in. -/
theorem specifierBinding?_eq_some_iff {part : Node} {b : Binding} :
    specifierBinding? source part = some b ↔ SpecifierBinds source part b := by
  rw [specifierBinding?]
  constructor
  · intro h
    split at h
    · cases h
    · rename_i hkind
      obtain ⟨name, hname, rfl⟩ := Option.map_eq_some_iff.1 h
      cases halias : part.childByField? "alias" with
      | none => exact .plain (not_not.1 hkind) hname (nameValue_eq_iff.1 rfl) halias
      | some newName => exact .renamed (not_not.1 hkind) hname (nameValue_eq_iff.1 rfl) halias
  · intro h
    cases h with
    | plain kind field isName noAlias =>
      rw [if_neg (not_not.2 kind), field, Option.map_some, nameValue_eq_iff.2 isName, noAlias]
      rfl
    | renamed kind field isName renames =>
      rw [if_neg (not_not.2 kind), field, Option.map_some, nameValue_eq_iff.2 isName, renames]
      rfl

/-- The names that a part of an import clause brings in. -/
inductive PartBinds (source : List Char) (part : Node) : List Binding → Prop where
  | default (kind : part.kind = "identifier") :
      PartBinds source part [⟨.default, "default", part.text source⟩]
  | whole {name : Node} (kind : part.kind = "namespace_import")
      (identifier : part.childOfKind? "identifier" = some name) :
      PartBinds source part [⟨.namespace, "*", name.text source⟩]
  | unnamed (kind : part.kind = "namespace_import")
      (noIdentifier : part.childOfKind? "identifier" = none) : PartBinds source part []
  | listed {names : List Binding} (kind : part.kind = "named_imports")
      (specifiers : InOrder (OneOrNone (SpecifierBinds source)) part.namedChildren names) :
      PartBinds source part names
  | other (kind : part.kind ∉ ["identifier", "namespace_import", "named_imports"]) :
      PartBinds source part []

theorem inOrder_specifierBinds_iff {nodes : List Node} {names : List Binding} :
    InOrder (OneOrNone (SpecifierBinds source)) nodes names ↔
      names = nodes.filterMap (specifierBinding? source) := by
  rw [inOrder_iff fun node here => oneOrNone_iff fun node a => specifierBinding?_eq_some_iff,
    List.filterMap_eq_flatMap_toList]

/-- A part of an import clause brings in what is found, and nothing else. -/
theorem partBinds_iff {part : Node} {bindings : List Binding} :
    PartBinds source part bindings ↔ bindings = clausePartBindings source part := by
  rw [clausePartBindings, namespaceBinding]
  constructor
  · intro h
    cases h with
    | default kind => simp [kind]
    | whole kind identifier => simp [kind, identifier]
    | unnamed kind noIdentifier => simp [kind, noIdentifier]
    | listed kind specifiers => simp [kind, inOrder_specifierBinds_iff.1 specifiers]
    | other kind => simp_all
  · rintro rfl
    split
    · exact .default ‹_›
    split
    · rename_i kind
      cases hname : part.childOfKind? "identifier" with
      | none => exact .unnamed kind hname
      | some name => exact .whole kind hname
    split
    · exact .listed ‹_› (inOrder_specifierBinds_iff.2 rfl)
    · exact .other (by simp_all)

/-- An import clause brings in what is found in its parts, in their order. -/
theorem inOrder_partBinds_iff {clause : Node} {bindings : List Binding} :
    InOrder (PartBinds source) clause.namedChildren bindings ↔
      bindings = clauseBindings source clause := by
  refine inOrder_iff fun part here => ?_
  exact partBinds_iff

/-! ## The reference of a node -/

/-- The kinds of nodes that are comments. -/
def commentKinds : List String := ["comment", "html_comment"]

/-- A node mentions a module: with which node, in which way, and which names it brings in. Nodes of
the skipped kinds do not count as arguments. -/
inductive Mentions (source : List Char) (skipped : List String) (node : Node) :
    Node → EdgeKind → List Binding → Prop where
  | importOnly {specifier : Node} (kind : node.kind = "import_statement")
      (field : node.childByField? "source" = some specifier)
      (noClause : node.childOfKind? "import_clause" = none) :
      Mentions source skipped node specifier .static []
  | importNames {specifier clause : Node} {bindings : List Binding}
      (kind : node.kind = "import_statement")
      (field : node.childByField? "source" = some specifier)
      (hasClause : node.childOfKind? "import_clause" = some clause)
      (parts : InOrder (PartBinds source) clause.namedChildren bindings) :
      Mentions source skipped node specifier .static bindings
  | importRequire {specifier clause name : Node} (kind : node.kind = "import_statement")
      (noSource : node.childByField? "source" = none)
      (hasClause : node.childOfKind? "import_require_clause" = some clause)
      (field : clause.childByField? "source" = some specifier)
      (identifier : clause.childOfKind? "identifier" = some name) :
      Mentions source skipped node specifier .static [⟨.namespace, "*", name.text source⟩]
  | importRequireUnnamed {specifier clause : Node} (kind : node.kind = "import_statement")
      (noSource : node.childByField? "source" = none)
      (hasClause : node.childOfKind? "import_require_clause" = some clause)
      (field : clause.childByField? "source" = some specifier)
      (noIdentifier : clause.childOfKind? "identifier" = none) :
      Mentions source skipped node specifier .static []
  | exportFrom {specifier : Node} (kind : node.kind = "export_statement")
      (field : node.childByField? "source" = some specifier) :
      Mentions source skipped node specifier .static []
  | importCall {specifier function arguments : Node} (kind : node.kind = "call_expression")
      (callee : node.childByField? "function" = some function)
      (isImport : function.kind = "import")
      (field : node.childByField? "arguments" = some arguments)
      (only : arguments.namedChildren.filter (·.kind ∉ skipped) = [specifier]) :
      Mentions source skipped node specifier .dynamic []
  | requireCall {specifier function arguments : Node} (kind : node.kind = "call_expression")
      (callee : node.childByField? "function" = some function)
      (isIdentifier : function.kind = "identifier") (isRequire : function.text source = "require")
      (field : node.childByField? "arguments" = some arguments)
      (only : arguments.namedChildren.filter (·.kind ∉ skipped) = [specifier]) :
      Mentions source skipped node specifier .static []

/-- A node refers to a module: it mentions one with a string literal that is not empty and is no
address on the network. -/
inductive RefersTo (source : List Char) (skipped : List String) (node : Node) :
    Dependency → Prop where
  | intro {specifier : Node} {kind : EdgeKind} {bindings : List Binding} {name : String}
      (mentions : Mentions source skipped node specifier kind bindings)
      (literal : IsLiteral source specifier name) (nonempty : name ≠ "")
      (isLocal : ¬ "http".toList <+: name.toList) :
      RefersTo source skipped node
        { specifier := name
          kind
          statement := some (shownStatement (node.text source))
          location := some ⟨node.line source, node.column source⟩
          bindings }

section Node

variable {node : Node} {d : Dependency}

/-- A reference is reported just for a string literal that is neither empty nor begins with
`http`. -/
theorem dependencyOf?_eq_some_iff {specifier : Node} {kind : EdgeKind} {bindings : List Binding} :
    dependencyOf? source node specifier kind bindings = some d ↔
      ∃ name, IsLiteral source specifier name ∧ name ≠ "" ∧ ¬ "http".toList <+: name.toList ∧
        d =
          { specifier := name
            kind
            statement := some (shownStatement (node.text source))
            location := some ⟨node.line source, node.column source⟩
            bindings } := by
  -- The check asks for what is left out, the statement for what stays.
  have hremote : ∀ name : String, (name = "" || isRemote name.toList) = true ↔
      ¬ (name ≠ "" ∧ ¬ "http".toList <+: name.toList) := by
    intro name
    rw [Bool.or_eq_true, decide_eq_true_iff, isRemote, List.isPrefixOf_iff_prefix, not_and_or,
      not_not, not_not]
    rfl
  unfold dependencyOf?
  constructor
  · intro h
    split at h
    · cases h
    · rename_i name hname
      split at h
      · cases h
      · rename_i hlocal
        obtain ⟨hne, hlocal⟩ := not_not.1 (mt (hremote name).2 hlocal)
        exact ⟨name, stringValue?_eq_some_iff.1 hname, hne, hlocal, (Option.some.inj h).symm⟩
  · rintro ⟨name, hliteral, hne, hlocal, rfl⟩
    rw [stringValue?_eq_some_iff.2 hliteral]
    exact if_neg (mt (hremote name).1 (not_not.2 ⟨hne, hlocal⟩))

/-- A node refers to what the literal that it mentions names. -/
theorem refersTo_iff {skipped : List String} :
    RefersTo source skipped node d ↔ ∃ specifier kind bindings,
      Mentions source skipped node specifier kind bindings ∧
        dependencyOf? source node specifier kind bindings = some d := by
  constructor
  · rintro ⟨mentions, literal, nonempty, isLocal⟩
    exact ⟨_, _, _, mentions, dependencyOf?_eq_some_iff.2 ⟨_, literal, nonempty, isLocal, rfl⟩⟩
  · rintro ⟨specifier, kind, bindings, mentions, h⟩
    obtain ⟨name, literal, nonempty, isLocal, rfl⟩ := dependencyOf?_eq_some_iff.1 h
    exact .intro mentions literal nonempty isLocal

/-- Only a string literal names a module. -/
theorem dependencyOf?_of_ne {specifier : Node} (h : specifier.kind ≠ "string") (kind : EdgeKind)
    (bindings : List Binding) : dependencyOf? source node specifier kind bindings = none := by
  rw [dependencyOf?, stringValue?, if_pos h]

theorem filter_notMem_comment (nodes : List Node) :
    nodes.filter (·.kind ∉ ["comment"]) = nodes.filter fun a => a.kind ≠ "comment" := by
  simp only [List.mem_singleton, ne_eq]

/-- A call with one argument but for comments refers to what that argument says. -/
theorem callReference?_of_only {specifier function arguments : Node} {kind : EdgeKind}
    (callee : node.childByField? "function" = some function)
    (hkind : callKind? source function = some kind)
    (field : node.childByField? "arguments" = some arguments)
    (only : arguments.namedChildren.filter (·.kind ∉ ["comment"]) = [specifier]) :
    callReference? source node = dependencyOf? source node specifier kind [] := by
  rw [filter_notMem_comment] at only
  rw [callReference?, callee, Option.bind_some, hkind, Option.bind_some, field, Option.bind_some,
    only]
  dsimp only
  split
  · rfl
  · rw [dependencyOf?_of_ne ‹_›]

/-- A node that mentions a module refers to it if it can. -/
theorem reference?_of_mentions {specifier : Node} {kind : EdgeKind} {bindings : List Binding}
    (h : Mentions source ["comment"] node specifier kind bindings) :
    reference? source node = dependencyOf? source node specifier kind bindings := by
  rw [reference?]
  -- The kind of the statement decides the branch, its fields what is read there.
  cases h with
  | importOnly kind field noClause =>
    rw [if_pos kind, importReference?, field]
    dsimp only
    rw [noClause]
    rfl
  | importNames kind field hasClause parts =>
    rw [if_pos kind, importReference?, field, inOrder_partBinds_iff.1 parts]
    dsimp only
    rw [hasClause]
    rfl
  | importRequire kind noSource hasClause field identifier =>
    rw [if_pos kind, importReference?, noSource]
    dsimp only
    rw [hasClause, Option.bind_some, field, Option.bind_some, namespaceBinding, identifier]
    rfl
  | importRequireUnnamed kind noSource hasClause field noIdentifier =>
    rw [if_pos kind, importReference?, noSource]
    dsimp only
    rw [hasClause, Option.bind_some, field, Option.bind_some, namespaceBinding, noIdentifier]
    rfl
  | exportFrom kind field =>
    rw [if_neg (by simp [kind]), if_pos kind, field, Option.bind_some]
  | importCall kind callee isImport field only =>
    rw [if_neg (by simp [kind]), if_neg (by simp [kind]), if_pos kind]
    exact callReference?_of_only callee (by rw [callKind?, if_pos isImport]) field only
  | requireCall kind callee isIdentifier isRequire field only =>
    rw [if_neg (by simp [kind]), if_neg (by simp [kind]), if_pos kind]
    exact callReference?_of_only callee (by simp [callKind?, isIdentifier, isRequire]) field only

/-- An import statement refers to nothing or mentions a module. -/
theorem exists_mentions_of_import (kind : node.kind = "import_statement") :
    importReference? source node = none ∨ ∃ specifier way bindings,
      Mentions source ["comment"] node specifier way bindings := by
  rw [importReference?]
  cases hsource : node.childByField? "source" with
  | some specifier =>
    right
    cases hclause : node.childOfKind? "import_clause" with
    | none => exact ⟨_, _, _, .importOnly kind hsource hclause⟩
    | some clause =>
      exact ⟨_, _, _, .importNames kind hsource hclause (inOrder_partBinds_iff.2 rfl)⟩
  | none =>
    dsimp only
    cases hclause : node.childOfKind? "import_require_clause" with
    | none => exact .inl rfl
    | some clause =>
      cases hspecifier : clause.childByField? "source" with
      | none => exact .inl (by rw [Option.bind_some, hspecifier, Option.bind_none])
      | some specifier =>
        right
        cases hname : clause.childOfKind? "identifier" with
        | none => exact ⟨_, _, _, .importRequireUnnamed kind hsource hclause hspecifier hname⟩
        | some name => exact ⟨_, _, _, .importRequire kind hsource hclause hspecifier hname⟩

/-- A call refers to a module as a call of `import` or of `require`. -/
theorem mentions_of_callKind? {specifier function arguments : Node} {way : EdgeKind}
    (kind : node.kind = "call_expression") (callee : node.childByField? "function" = some function)
    (h : callKind? source function = some way)
    (field : node.childByField? "arguments" = some arguments)
    (only : arguments.namedChildren.filter (·.kind ∉ ["comment"]) = [specifier]) :
    Mentions source ["comment"] node specifier way [] := by
  rw [callKind?] at h
  split at h
  · rename_i isImport
    rw [← Option.some.inj h]
    exact .importCall kind callee isImport field only
  split at h
  · rename_i isRequire
    rw [Bool.and_eq_true, decide_eq_true_iff, decide_eq_true_iff] at isRequire
    rw [← Option.some.inj h]
    exact .requireCall kind callee isRequire.1 isRequire.2 field only
  · cases h

/-- A call refers to nothing or mentions a module. -/
theorem exists_mentions_of_call (kind : node.kind = "call_expression") :
    callReference? source node = none ∨ ∃ specifier way bindings,
      Mentions source ["comment"] node specifier way bindings := by
  rw [callReference?]
  cases hfunction : node.childByField? "function" with
  | none => exact .inl rfl
  | some function =>
    rw [Option.bind_some]
    cases hway : callKind? source function with
    | none => exact .inl rfl
    | some way =>
      rw [Option.bind_some]
      cases harguments : node.childByField? "arguments" with
      | none => exact .inl rfl
      | some arguments =>
        rw [Option.bind_some, ← filter_notMem_comment]
        split
        · rename_i specifier hspecifier
          exact .inr ⟨_, _, _, mentions_of_callKind? kind hfunction hway harguments hspecifier⟩
        · exact .inl rfl

/-- A node that mentions no module refers to none. -/
theorem reference?_eq_none_or_exists_mentions :
    reference? source node = none ∨ ∃ specifier kind bindings,
      Mentions source ["comment"] node specifier kind bindings := by
  rw [reference?]
  split
  · exact exists_mentions_of_import ‹_›
  split
  · rename_i kind
    cases hsource : node.childByField? "source" with
    | none => exact .inl rfl
    | some specifier => exact .inr ⟨_, _, _, .exportFrom kind hsource⟩
  split
  · exact exists_mentions_of_call ‹_›
  · exact .inl rfl

/-- **The reference that is found at a node is the one that the node makes**, if no comments but
plain ones are skipped among the arguments of a call. -/
theorem reference?_eq_some_iff : reference? source node = some d ↔
    RefersTo source ["comment"] node d := by
  rw [refersTo_iff]
  constructor
  · intro h
    rcases reference?_eq_none_or_exists_mentions with hnone | ⟨specifier, kind, bindings, mentions⟩
    · rw [hnone] at h
      cases h
    · exact ⟨specifier, kind, bindings, mentions, reference?_of_mentions mentions ▸ h⟩
  · rintro ⟨specifier, kind, bindings, mentions, h⟩
    rw [reference?_of_mentions mentions, h]

/-! ## Comments as in markup -/

/-- No comment as in markup stands among the arguments of a call. -/
def HasPlainArguments (node : Node) : Prop :=
  node.kind = "call_expression" → ∀ arguments ∈ node.childByField? "arguments",
    ∀ a ∈ arguments.namedChildren, a.kind ≠ "html_comment"

instance (node : Node) : Decidable (HasPlainArguments node) :=
  inferInstanceAs (Decidable (_ → ∀ arguments ∈ node.childByField? "arguments", _))

/-- What a node mentions depends on what is skipped only by the arguments that are left. -/
theorem Mentions.of_filter_eq {skipped skipped' : List String} {specifier : Node} {way : EdgeKind}
    {bindings : List Binding} (h : Mentions source skipped node specifier way bindings)
    (hleft : node.kind = "call_expression" → ∀ arguments ∈ node.childByField? "arguments",
      arguments.namedChildren.filter (·.kind ∉ skipped) =
        arguments.namedChildren.filter (·.kind ∉ skipped')) :
    Mentions source skipped' node specifier way bindings := by
  cases h with
  | importOnly kind field noClause => exact .importOnly kind field noClause
  | importNames kind field hasClause parts => exact .importNames kind field hasClause parts
  | importRequire kind noSource hasClause field identifier =>
    exact .importRequire kind noSource hasClause field identifier
  | importRequireUnnamed kind noSource hasClause field noIdentifier =>
    exact .importRequireUnnamed kind noSource hasClause field noIdentifier
  | exportFrom kind field => exact .exportFrom kind field
  | importCall kind callee isImport field only =>
    exact .importCall kind callee isImport field (hleft kind _ field ▸ only)
  | requireCall kind callee isIdentifier isRequire field only =>
    exact .requireCall kind callee isIdentifier isRequire field (hleft kind _ field ▸ only)

/-- Where no comment as in markup is an argument, it makes no difference which comments are left
out. -/
theorem refersTo_commentKinds_iff (h : HasPlainArguments node) :
    RefersTo source ["comment"] node d ↔ RefersTo source commentKinds node d := by
  have hleft : node.kind = "call_expression" → ∀ arguments ∈ node.childByField? "arguments",
      arguments.namedChildren.filter (·.kind ∉ ["comment"]) =
        arguments.namedChildren.filter (·.kind ∉ commentKinds) := by
    intro kind arguments harguments
    refine List.filter_congr fun a ha => ?_
    simp [commentKinds, h kind arguments harguments a ha]
  constructor
  · rintro ⟨mentions, literal, nonempty, isLocal⟩
    exact .intro (mentions.of_filter_eq hleft) literal nonempty isLocal
  · rintro ⟨mentions, literal, nonempty, isLocal⟩
    refine .intro (mentions.of_filter_eq fun kind arguments harguments => ?_) literal nonempty
      isLocal
    exact (hleft kind arguments harguments).symm

end Node

/-! ## All references -/

theorem InOrder.imp {α : Type} {found found' : Node → List α → Prop} {nodes : List Node}
    {all : List α} (h : InOrder found nodes all)
    (himp : ∀ node ∈ nodes, ∀ here, found node here → found' node here) :
    InOrder found' nodes all := by
  induction h with
  | nil => exact .nil
  | cons first others ih =>
    exact .cons (himp _ List.mem_cons_self _ first)
      (ih fun node hnode => himp node (List.mem_cons_of_mem _ hnode))

theorem OneOrNone.congr {α : Type} {belongs belongs' : Node → α → Prop} {node : Node}
    {here : List α} (h : OneOrNone belongs node here)
    (hiff : ∀ a, belongs node a ↔ belongs' node a) : OneOrNone belongs' node here := by
  cases h with
  | one this only => exact .one ((hiff _).1 this) fun b hb => only b ((hiff b).2 hb)
  | none nothing => exact .none fun a ha => nothing a ((hiff a).2 ha)

/-- **The references of a tree are those of its nodes**, each node before the ones below it, and
nothing else. Plain comments among the arguments of a call are skipped, and where no others stand
there, all comments are. -/
theorem inOrder_references (source : List Char) (root : Node) :
    InOrder (OneOrNone (RefersTo source ["comment"])) root.preorder (references source root) ∧
      ((∀ node ∈ root.preorder, HasPlainArguments node) →
        InOrder (OneOrNone (RefersTo source commentKinds)) root.preorder
          (references source root)) := by
  have hplain : InOrder (OneOrNone (RefersTo source ["comment"])) root.preorder
      (references source root) := by
    rw [inOrder_iff fun node here => oneOrNone_iff fun node a => reference?_eq_some_iff,
      references_eq_filterMap, List.filterMap_eq_flatMap_toList]
  refine ⟨hplain, fun h => hplain.imp fun node hnode here hhere => hhere.congr fun d => ?_⟩
  exact refersTo_commentKinds_iff (h node hnode)

/-- A script that imports a module and calls `require` with a comment before its argument. -/
def importAndCallText : List Char :=
  "import a, { default as b } from './x';\nrequire(/**/'y')".toList

/-- The tree of that script, without the spellings. -/
def importAndCall : Node :=
  { kind := "program", start := 0, stop := 55
    children :=
      [{ kind := "import_statement", start := 0, stop := 38
         children :=
          [{ kind := "import_clause", start := 7, stop := 26
             children :=
              [{ kind := "identifier", start := 7, stop := 8 },
               { kind := "named_imports", start := 10, stop := 26
                 children :=
                  [{ kind := "import_specifier", start := 12, stop := 24
                     children :=
                      [{ kind := "identifier", field := some "name", start := 12, stop := 19 },
                       { kind := "identifier", field := some "alias", start := 23,
                         stop := 24 }] }] }] },
           { kind := "string", field := some "source", start := 32, stop := 37 }] },
       { kind := "expression_statement", start := 39, stop := 55
         children :=
          [{ kind := "call_expression", start := 39, stop := 55
             children :=
              [{ kind := "identifier", field := some "function", start := 39, stop := 46 },
               { kind := "arguments", field := some "arguments", start := 46, stop := 55
                 children :=
                  [{ kind := "comment", start := 47, stop := 51 },
                   { kind := "string", start := 51, stop := 54 }] }] }] }] }

theorem inOrder_references_importAndCall :
    (∀ node ∈ importAndCall.preorder, HasPlainArguments node) ∧
      InOrder (OneOrNone (RefersTo importAndCallText commentKinds)) importAndCall.preorder
        (references importAndCallText importAndCall) ∧
      (references importAndCallText importAndCall).map (fun d => (d.specifier, d.bindings)) =
        [("./x", [⟨.default, "default", "a"⟩, ⟨.default, "default", "b"⟩]), ("y", [])] := by
  have hplain : ∀ node ∈ importAndCall.preorder, HasPlainArguments node := by decide
  refine ⟨hplain, (inOrder_references importAndCallText importAndCall).2 hplain, ?_⟩
  rw [references_eq_filterMap]
  decide

/-- A call of `require` with a comment as in markup before its argument. -/
def markedUpText : List Char := "require(<!-- note\n\"./a\");".toList

/-- The argument of that call. -/
def markedUpArgument : Node :=
  { kind := "string", start := 18, stop := 23
    children :=
      [{ kind := "\"", named := false, start := 18, stop := 19 },
       { kind := "string_fragment", start := 19, stop := 22 },
       { kind := "\"", named := false, start := 22, stop := 23 }] }

/-- The tree of that call. -/
def markedUpCall : Node :=
  { kind := "call_expression", start := 0, stop := 24
    children :=
      [{ kind := "identifier", field := some "function", start := 0, stop := 7 },
       { kind := "arguments", field := some "arguments", start := 7, stop := 24
         children :=
          [{ kind := "(", named := false, start := 7, stop := 8 },
           { kind := "html_comment", start := 8, stop := 17 },
           markedUpArgument,
           { kind := ")", named := false, start := 23, stop := 24 }] }] }

/-- A comment as in markup is not skipped: the call refers to `./a`, but nothing is found. -/
theorem references_markedUpCall : ¬ ∀ (source : List Char) (root : Node),
    InOrder (OneOrNone (RefersTo source commentKinds)) root.preorder (references source root) := by
  intro h
  have hall := h markedUpText markedUpCall
  have hempty : references markedUpText markedUpCall = [] := by
    rw [references_eq_filterMap]
    decide
  rw [hempty] at hall
  have hmem : markedUpCall ∈ markedUpCall.preorder := by
    rw [Cursor.preorder_eq]
    exact List.mem_cons_self
  cases hall.of_nil markedUpCall hmem with
  | none nothing =>
    have mentions : Mentions markedUpText commentKinds markedUpCall markedUpArgument .static [] :=
      .requireCall rfl rfl rfl (by decide) rfl rfl
    have literal : IsLiteral markedUpText markedUpArgument "./a" := ⟨rfl, '"', '"', by decide⟩
    exact nothing _ (.intro mentions literal (by decide) (by decide))

end RefGraph.Script

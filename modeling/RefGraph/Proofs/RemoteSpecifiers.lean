import RefGraph.Proofs.Script.References
import RefGraph.Proofs.Style.Sheets

/-!
# Specifiers that are left out

Of the specifiers that a script or a stylesheet names, exactly those that begin with `http` are left
out. All others are reported, be they paths or names of packages.

* `Script.exists_reference_iff`: a module that a node of a script mentions.
* `Style.exists_import_iff`: an item of a list in a stylesheet.
* `reported_iff_not_http`: both.
* `not_reported_httpProxy`: a package whose name begins with `http` is left out as well.
-/

namespace RefGraph

/-! ## Scripts -/

namespace Script

variable {source : List Char} {root node specifier : Node} {kind : EdgeKind}
  {bindings : List Binding} {name : String} {d : Dependency}

/-- The references of a script are those of its nodes. -/
theorem mem_references_iff :
    d ∈ references source root ↔ ∃ node ∈ root.preorder, RefersTo source ["comment"] node d := by
  rw [references_eq_filterMap, List.mem_filterMap]
  constructor
  · rintro ⟨node, hnode, hd⟩
    exact ⟨node, hnode, reference?_eq_some_iff.1 hd⟩
  · rintro ⟨node, hnode, hd⟩
    exact ⟨node, hnode, reference?_eq_some_iff.2 hd⟩

/-- **A module that a node mentions is reported** with the way in which it is mentioned and with the
place of the node, unless its name begins with `http`. -/
theorem exists_reference_iff (hnode : node ∈ root.preorder) (hplain : HasPlainArguments node)
    (mentions : Mentions source commentKinds node specifier kind bindings)
    (literal : IsLiteral source specifier name) (hne : name ≠ "") :
    (∃ d ∈ references source root, d.specifier = name ∧ d.kind = kind ∧ d.bindings = bindings ∧
        d.location = some ⟨node.line source, node.column source⟩) ↔
      ¬ "http".toList <+: name.toList := by
  constructor
  · rintro ⟨d, hd, rfl, -⟩
    obtain ⟨other, -, hrefers⟩ := mem_references_iff.1 hd
    cases hrefers with
    | intro mentions literal nonempty isLocal => exact isLocal
  · intro hlocal
    have hrefers := (refersTo_commentKinds_iff hplain).2 (.intro mentions literal hne hlocal)
    exact ⟨_, mem_references_iff.2 ⟨node, hnode, hrefers⟩, rfl, rfl, rfl, rfl⟩

end Script

/-! ## Stylesheets -/

namespace Style

variable {lineComments : Bool} {source statement white tail : List Char} {place : Nat}
  {list : ItemList} {d : Dependency}

/-- The references of a statement are its specifiers that do not begin with `http`. -/
theorem mem_statementImports_iff {text : List Char} : d ∈ statementImports text place statement ↔
    ∃ s ∈ specifiers (statement.drop importWord.length), ¬ "http".toList <+: s ∧
      d = { specifier := String.ofList s, kind := .style
            statement := some (shownStatement (String.ofList statement))
            location := some (locate text place) } := by
  have hremote : ∀ s : List Char, (!isRemote s) = true ↔ ¬ "http".toList <+: s := by
    intro s
    rw [Bool.not_eq_true', ← Bool.not_eq_true, isRemote, List.isPrefixOf_iff_prefix]
    rfl
  unfold statementImports
  rw [List.mem_map]
  constructor
  · rintro ⟨s, hs, rfl⟩
    obtain ⟨hmem, hlocal⟩ := List.mem_filter.1 hs
    exact ⟨s, hmem, (hremote s).1 hlocal, rfl⟩
  · rintro ⟨s, hmem, hlocal, rfl⟩
    exact ⟨s, List.mem_filter.2 ⟨hmem, (hremote s).2 hlocal⟩, rfl⟩

/-- **An item of a list is reported** with the place of its statement, unless its content begins
with `http`. The list is at the beginning of a statement that is found in the stylesheet. -/
theorem exists_import_iff
    (hfound : (place, statement) ∈ statements (blankComments lineComments source))
    (hstatement : statement = importWord ++ (white ++ (list.text ++ tail)))
    (hwhite : ∀ c ∈ white, isWhite c = true) (hstop : list.last.StopsAt tail) {i : Item}
    (hi : i ∈ list.items) :
    (∃ d ∈ imports lineComments source, d.specifier = String.ofList i.content ∧ d.kind = .style ∧
        d.location = some (locate (blankComments lineComments source) place)) ↔
      ¬ "http".toList <+: i.content := by
  constructor
  · rintro ⟨d, hd, hspecifier, -⟩
    obtain ⟨found, -, hfound⟩ := List.mem_flatMap.1 hd
    obtain ⟨s, -, hlocal, rfl⟩ := mem_statementImports_iff.1 hfound
    rw [← String.ofList_injective hspecifier]
    exact hlocal
  · intro hlocal
    have hlisted : i.content ∈ specifiers (statement.drop importWord.length) := by
      rw [hstatement, List.drop_left]
      exact (specifiers_append hwhite hstop).subset (List.mem_map_of_mem hi)
    refine ⟨_, List.mem_flatMap.2 ⟨_, hfound, mem_statementImports_iff.2
      ⟨i.content, hlisted, hlocal, rfl⟩⟩, rfl, rfl, rfl⟩

end Style

/-! ## Both -/

open scoped Style
open Style (importedSheets importedSheetsText)

/-- **Exactly the specifiers that begin with `http` are left out**: of the modules that the nodes of
a script mention, where no comment as in markup stands among the arguments of a call, and of the
items of the lists in a stylesheet. -/
theorem reported_iff_not_http :
    (∀ (source : List Char) (root : Script.Node), ∀ node ∈ root.preorder,
      Script.HasPlainArguments node → ∀ specifier kind bindings name,
        Script.Mentions source Script.commentKinds node specifier kind bindings →
        Script.IsLiteral source specifier name → name ≠ "" →
          ((∃ d ∈ Script.references source root, d.specifier = name ∧ d.kind = kind ∧
              d.bindings = bindings ∧
              d.location = some ⟨node.line source, node.column source⟩) ↔
            ¬ "http".toList <+: name.toList)) ∧
    ∀ lineComments source place statement,
      (place, statement) ∈ Style.statements (Style.blankComments lineComments source) →
      ∀ (white : List Char) (list : Style.ItemList) (tail : List Char),
        statement = Style.importWord ++ (white ++ (list.text ++ tail)) →
        (∀ c ∈ white, isWhite c = true) → list.last.StopsAt tail →
          ∀ i ∈ list.items,
            ((∃ d ∈ Style.imports lineComments source, d.specifier = String.ofList i.content ∧
                d.kind = .style ∧
                d.location =
                  some (Style.locate (Style.blankComments lineComments source) place)) ↔
              ¬ "http".toList <+: i.content) := by
  constructor
  · intro source root node hnode hplain specifier kind bindings name mentions literal hne
    exact Script.exists_reference_iff hnode hplain mentions literal hne
  · intro lineComments source place statement hfound white list tail hstatement hwhite hstop i hi
    exact Style.exists_import_iff hfound hstatement hwhite hstop hi

/-- The import of a package in a script. -/
def importText (package : String) : List Char := "import '".toList ++ package.toList ++ "';".toList

/-- The specifier of that import. -/
def importSpecifier (package : String) : Script.Node :=
  { kind := "string", field := some "source", start := 7, stop := 9 + package.toList.length }

/-- The tree of that import. -/
def importTree (package : String) : Script.Node :=
  { kind := "import_statement", start := 0, stop := 10 + package.toList.length
    children := [importSpecifier package] }

theorem mem_preorder_importTree (package : String) :
    importTree package ∈ (importTree package).preorder := by
  rw [Script.Cursor.preorder_eq]
  exact List.mem_cons_self

/-- The tree of an import statement mentions the package. -/
theorem mentions_importTree (package : String) :
    Script.Mentions (importText package) Script.commentKinds (importTree package)
      (importSpecifier package) .static [] :=
  .importOnly rfl rfl rfl

theorem importedSheetsText_mem_statements :
    (0, importedSheetsText) ∈ Style.statements (Style.blankComments false importedSheetsText) := by
  decide

/-- A package is reported, and a sheet whose name begins with `http` is not. -/
theorem reported_iff_not_http_samples :
    (∃ d ∈ Script.references (importText "proxy") (importTree "proxy"), d.specifier = "proxy" ∧
        d.kind = .static ∧ d.bindings = [] ∧ d.location = some ⟨1, 0⟩) ∧
      ¬ ∃ d ∈ Style.imports false importedSheetsText, d.specifier = "httpd" ∧ d.kind = .style ∧
        d.location = some ⟨1, 0⟩ := by
  constructor
  · have hliteral : Script.IsLiteral (importText "proxy") (importSpecifier "proxy") "proxy" :=
      ⟨rfl, '\'', '\'', by decide⟩
    exact (reported_iff_not_http.1 (importText "proxy") (importTree "proxy") (importTree "proxy")
      (mem_preorder_importTree _) (by decide) _ _ _ _ (mentions_importTree _) hliteral
      (by decide)).2 (by decide)
  · intro h
    exact (reported_iff_not_http.2 false importedSheetsText 0 importedSheetsText
      importedSheetsText_mem_statements [' '] importedSheets [';'] rfl (by decide) (by decide)
      { content := ['h', 't', 't', 'p', 'd'], quote := some '\'' }
      (List.mem_cons_of_mem _ List.mem_cons_self)).1 h (by decide)

/-- A package and a stylesheet whose names begin with `http` are left out, although they are no
addresses on the network. -/
theorem not_reported_httpProxy :
    (¬ ∀ (source : List Char) (root : Script.Node), ∀ node ∈ root.preorder,
      Script.HasPlainArguments node → ∀ specifier kind bindings name,
        Script.Mentions source Script.commentKinds node specifier kind bindings →
        Script.IsLiteral source specifier name → name ≠ "" →
          ¬ "http://".toList <+: name.toList → ¬ "https://".toList <+: name.toList →
            ∃ d ∈ Script.references source root, d.specifier = name) ∧
    ¬ ∀ lineComments source place statement,
      (place, statement) ∈ Style.statements (Style.blankComments lineComments source) →
      ∀ (white : List Char) (list : Style.ItemList) (tail : List Char),
        statement = Style.importWord ++ (white ++ (list.text ++ tail)) →
        (∀ c ∈ white, isWhite c = true) → list.last.StopsAt tail →
          ∀ i ∈ list.items, ¬ "http://".toList <+: i.content → ¬ "https://".toList <+: i.content →
            ∃ d ∈ Style.imports lineComments source, d.specifier = String.ofList i.content := by
  constructor
  · intro h
    have hliteral : Script.IsLiteral (importText "http-proxy") (importSpecifier "http-proxy")
        "http-proxy" := ⟨rfl, '\'', '\'', by decide⟩
    obtain ⟨d, hd, -⟩ := h _ _ _ (mem_preorder_importTree "http-proxy") (by decide) _ _ _ _
      (mentions_importTree _) hliteral (by decide) (by decide) (by decide)
    have hempty : Script.references (importText "http-proxy") (importTree "http-proxy") = [] := by
      rw [Script.references_eq_filterMap]
      decide
    rw [hempty] at hd
    exact List.not_mem_nil hd
  · intro h
    obtain ⟨d, hd, hspecifier⟩ := h false _ _ _ importedSheetsText_mem_statements [' ']
      importedSheets [';'] rfl (by decide) (by decide)
      { content := ['h', 't', 't', 'p', 'd'], quote := some '\'' }
      (List.mem_cons_of_mem _ List.mem_cons_self) (by decide) (by decide)
    have hall : ∀ d ∈ Style.imports false importedSheetsText, d.specifier ≠ "httpd" := by decide
    exact hall d hd hspecifier

end RefGraph

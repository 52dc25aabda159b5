import RefGraph.Proofs.FirstByKey
import RefGraph.Proofs.Script.Copies

/-!
# Exported names

The exported names of a script are those of its exports, each once and in the order of their first
exports. A name that is exported by a clause, or as the default by its name, is of the kind of the
first declaration of the local name at the top of the script, before or behind the export.
Statements that export nothing may therefore be moved to other places, as long as no two
declarations of one name are of different kinds.

* `IsSymbolOf`: the symbol of an export, given what is declared.
* `IsReordering`: scripts that differ in the places of the statements that are no exports.
* `exportedSymbols_eq_of_reordering`: they export the same symbols.
* `keepsFirst_exportedSymbols`: what the symbols of a script are, and that they do not depend on
  these places.
-/

namespace RefGraph.Script

variable {source source' : List Char} {root root' : Node}

/-! ## Symbols of exports -/

/-- The name that is shown for a default export by name: the local one, unless that says nothing. -/
inductive ShownFor (localName exported : String) : Option String → Prop where
  | localName (isDefault : exported = "default") (differs : localName ≠ "default") :
      ShownFor localName exported (some localName)
  | nothing (plain : ¬ (exported = "default" ∧ localName ≠ "default")) :
      ShownFor localName exported none

/-- The symbol of an export, given the declared names with their kinds in the order of their
declarations: the first declaration of a local name tells its kind. -/
inductive IsSymbolOf (declared : List (String × SymbolKind)) : Export → ExportedSymbol → Prop where
  | known (symbol : ExportedSymbol) : IsSymbolOf declared (.known symbol) symbol
  | declared {localName exported : String} {kind : SymbolKind} {shown : Option String}
      {before after : List (String × SymbolKind)}
      (first : declared = before ++ (localName, kind) :: after)
      (new : localName ∉ before.map Prod.fst) (isShown : ShownFor localName exported shown) :
      IsSymbolOf declared (.ofLocal localName exported) ⟨exported, kind, shown⟩
  | undeclared {localName exported : String} {shown : Option String}
      (unknown : localName ∉ declared.map Prod.fst) (isShown : ShownFor localName exported shown) :
      IsSymbolOf declared (.ofLocal localName exported) ⟨exported, .exported, shown⟩

/-- Only a default export of something with a name of its own is shown under that name. -/
theorem shownFor_iff {localName exported : String} {shown : Option String} :
    ShownFor localName exported shown ↔
      shown = if exported = "default" && localName ≠ "default" then some localName else none := by
  have hiff : (exported = "default" && localName ≠ "default") = true ↔
      exported = "default" ∧ localName ≠ "default" := by
    rw [Bool.and_eq_true, decide_eq_true_iff, decide_eq_true_iff]
  rw [if_congr hiff rfl rfl]
  constructor
  · intro h
    cases h with
    | localName isDefault differs => exact (if_pos ⟨isDefault, differs⟩).symm
    | nothing plain => exact (if_neg plain).symm
  · rintro rfl
    split
    · rename_i h
      exact .localName h.1 h.2
    · exact .nothing ‹_›

theorem lookup_eq_none_iff_notMem {declared : List (String × SymbolKind)} {localName : String} :
    declared.lookup localName = none ↔ localName ∉ declared.map Prod.fst := by
  rw [List.lookup_eq_none_iff, List.mem_map]
  constructor
  · rintro h ⟨d, hd, rfl⟩
    simpa using h d hd
  · intro h d hd
    rw [bne_iff_ne]
    exact fun hname => h ⟨d, hd, hname.symm⟩

/-- The kind that is looked up is that of the first declaration. -/
theorem lookup_eq_some_iff_first {declared : List (String × SymbolKind)} {localName : String}
    {kind : SymbolKind} : declared.lookup localName = some kind ↔ ∃ before after,
      declared = before ++ (localName, kind) :: after ∧ localName ∉ before.map Prod.fst := by
  rw [List.lookup_eq_some_iff]
  refine exists_congr fun before => exists_congr fun after => and_congr_right fun _ => ?_
  rw [← lookup_eq_none_iff_notMem, List.lookup_eq_none_iff]

/-- An export gives one symbol: its kind is that of the first declaration of the name. -/
theorem isSymbolOf_iff {declared : List (String × SymbolKind)} {e : Export} {s : ExportedSymbol} :
    IsSymbolOf declared e s ↔ s = e.symbol declared := by
  constructor
  · intro h
    cases h with
    | known => rfl
    | declared first new isShown =>
      rw [Export.symbol, lookup_eq_some_iff_first.2 ⟨_, _, first, new⟩, ← shownFor_iff.1 isShown]
      rfl
    | undeclared unknown isShown =>
      rw [Export.symbol, lookup_eq_none_iff_notMem.2 unknown, ← shownFor_iff.1 isShown]
      rfl
  · rintro rfl
    cases e with
    | known symbol => exact .known symbol
    | ofLocal localName exported =>
      rw [Export.symbol]
      cases hlookup : declared.lookup localName with
      | none => exact .undeclared (lookup_eq_none_iff_notMem.1 hlookup) (shownFor_iff.2 rfl)
      | some kind =>
        obtain ⟨before, after, first, new⟩ := lookup_eq_some_iff_first.1 hlookup
        exact .declared first new (shownFor_iff.2 rfl)

/-! ## Statements at other places -/

/-- Two scripts with the same export statements in the same order, and with the same other
statements, each at any place. -/
structure IsReordering (source source' : List Char) (root root' : Node) : Prop where
  exports : List.Forall₂ (IsCopy source source')
    (root.namedChildren.filter (·.kind = "export_statement"))
    (root'.namedChildren.filter (·.kind = "export_statement"))
  others : ∃ moved, moved.Perm (root.namedChildren.filter (·.kind ≠ "export_statement")) ∧
    List.Forall₂ (IsCopy source source') moved
      (root'.namedChildren.filter (·.kind ≠ "export_statement"))

/-- No two declarations of one name at the top of a script are of different kinds. -/
def KindsAgree (source : List Char) (root : Node) : Prop :=
  ∀ node ∈ root.namedChildren, ∀ node' ∈ root.namedChildren, ∀ declared declared',
    DeclaresAtTop source node declared → DeclaresAtTop source node' declared' →
      ∀ name kind kind', (name, kind) ∈ declared → (name, kind') ∈ declared' → kind = kind'

/-- What is declared at the top of a script, in the order of the declarations. -/
def declaredAtTop (source : List Char) (root : Node) : List (String × SymbolKind) :=
  root.namedChildren.flatMap (localsOf source)

/-- What a script declares at the top is found, in the order in which it stands. -/
theorem inOrder_declaresAtTop_iff {declared : List (String × SymbolKind)} :
    InOrder (DeclaresAtTop source) root.namedChildren declared ↔
      declared = declaredAtTop source root :=
  inOrder_iff (f := localsOf source) fun _ _ => declaresAtTop_iff

/-- What is exported at the top of a script, in the order of the exports. -/
def allExports (source : List Char) (root : Node) : List Export :=
  root.namedChildren.flatMap (exportsAtTop source)

/-- What a script exports is found, in the order in which it stands. -/
theorem inOrder_exportsAtTop_iff {exports : List Export} :
    InOrder (ExportsAtTop source) root.namedChildren exports ↔ exports = allExports source root :=
  inOrder_iff (f := exportsAtTop source) fun _ _ => exportsAtTop_iff

/-- Only export statements export something. -/
theorem flatMap_statementExports (nodes : List Node) :
    (nodes.filter fun n => n.kind = "export_statement").flatMap (statementExports source) =
      nodes.flatMap (exportsAtTop source) := by
  induction nodes with
  | nil => rfl
  | cons node nodes ih =>
    rw [List.filter_cons, List.flatMap_cons, ← ih]
    unfold exportsAtTop
    split
    · rename_i hkind
      rw [if_pos (of_decide_eq_true hkind), List.flatMap_cons]
    · rename_i hkind
      rw [if_neg (by simpa using hkind), List.nil_append]

/-- Of several symbols of one name the first is kept. -/
theorem firstOfEachName_eq (symbols : List ExportedSymbol) :
    firstOfEachName symbols = firstsBy (·.name) symbols := by
  induction symbols with
  | nil => rfl
  | cons s symbols ih => rw [firstOfEachName, ih, firstsBy_cons_eq_filter]

/-- The exported symbols are those of all exports, the first of each name. -/
theorem exportedSymbols_eq (source : List Char) (root : Node) :
    exportedSymbols source root = firstsBy (·.name)
      ((allExports source root).map (Export.symbol (declaredAtTop source root))) := by
  unfold exportedSymbols
  dsimp only
  rw [flatMap_statementExports, firstOfEachName_eq]
  rfl

/-- What is made from a list is made from its items with a property or from the others. -/
theorem mem_flatMap_filter_iff {α : Type} {f : Node → List α} {p : Node → Prop} [DecidablePred p]
    (nodes : List Node) {a : α} : a ∈ nodes.flatMap f ↔
      a ∈ (nodes.filter (p ·)).flatMap f ∨ a ∈ (nodes.filter (¬ p ·)).flatMap f := by
  simp only [List.mem_flatMap, List.mem_filter, decide_eq_true_iff]
  constructor
  · rintro ⟨node, hnode, ha⟩
    by_cases hp : p node
    · exact .inl ⟨node, ⟨hnode, hp⟩, ha⟩
    · exact .inr ⟨node, ⟨hnode, hp⟩, ha⟩
  · rintro (⟨node, ⟨hnode, -⟩, ha⟩ | ⟨node, ⟨hnode, -⟩, ha⟩) <;> exact ⟨node, hnode, ha⟩

/-- The same names are declared in scripts that differ in the places of statements. -/
theorem IsReordering.mem_declaredAtTop_iff (h : IsReordering source source' root root')
    (d : String × SymbolKind) :
    d ∈ declaredAtTop source' root' ↔ d ∈ declaredAtTop source root := by
  obtain ⟨moved, hperm, hmoved⟩ := h.others
  have hexports := flatMap_eq_of_forall₂ h.exports fun _ _ _ _ hcopy => hcopy.localsOf_eq
  have hothers := flatMap_eq_of_forall₂ hmoved fun _ _ _ _ hcopy => hcopy.localsOf_eq
  unfold declaredAtTop
  -- the order of the declarations is lost, but not which ones there are
  rw [mem_flatMap_filter_iff (p := fun n => n.kind = "export_statement") root'.namedChildren,
    ← hexports, ← hothers,
    mem_flatMap_filter_iff (p := fun n => n.kind = "export_statement") root.namedChildren,
    (hperm.flatMap_right _).mem_iff]

/-- Where no two kinds are declared for one name, a lookup finds any declaration. -/
theorem lookup_eq_some_iff_mem {declared : List (String × SymbolKind)}
    (hagree : ∀ d ∈ declared, ∀ d' ∈ declared, d.1 = d'.1 → d.2 = d'.2) {name : String}
    {kind : SymbolKind} : declared.lookup name = some kind ↔ (name, kind) ∈ declared := by
  have hmem : ∀ kind, declared.lookup name = some kind → (name, kind) ∈ declared := by
    intro kind hlookup
    obtain ⟨before, after, rfl, -⟩ := lookup_eq_some_iff_first.1 hlookup
    exact List.mem_append_right _ List.mem_cons_self
  constructor
  · exact hmem kind
  · intro hd
    cases hlookup : declared.lookup name with
    | none => exact absurd (List.mem_map_of_mem hd) (lookup_eq_none_iff_notMem.1 hlookup)
    | some kind' => exact congrArg some (hagree _ (hmem kind' hlookup) _ hd rfl)

/-- Lists of the same declarations that agree on each name have the same kinds for all names. -/
theorem lookup_eq_of_mem_iff {declared declared' : List (String × SymbolKind)}
    (hmem : ∀ d, d ∈ declared' ↔ d ∈ declared)
    (hagree : ∀ d ∈ declared, ∀ d' ∈ declared, d.1 = d'.1 → d.2 = d'.2) (name : String) :
    declared'.lookup name = declared.lookup name := by
  apply Option.ext
  intro kind
  rw [lookup_eq_some_iff_mem hagree, lookup_eq_some_iff_mem, hmem]
  intro d hd d' hd'
  exact hagree d ((hmem d).1 hd) d' ((hmem d').1 hd')

theorem kindsAgree_iff : KindsAgree source root ↔
    ∀ d ∈ declaredAtTop source root, ∀ d' ∈ declaredAtTop source root, d.1 = d'.1 → d.2 = d'.2 := by
  constructor
  · rintro h ⟨name, kind⟩ hd ⟨_, kind'⟩ hd' rfl
    obtain ⟨node, hnode, hmem⟩ := List.mem_flatMap.1 hd
    obtain ⟨node', hnode', hmem'⟩ := List.mem_flatMap.1 hd'
    exact h node hnode node' hnode' _ _ (declaresAtTop_localsOf node) (declaresAtTop_localsOf node')
      name kind kind' hmem hmem'
  · intro h node hnode node' hnode' declared declared' hdeclared hdeclared' name kind kind' hd hd'
    rw [declaresAtTop_iff.1 hdeclared] at hd
    rw [declaresAtTop_iff.1 hdeclared'] at hd'
    exact h _ (List.mem_flatMap.2 ⟨node, hnode, hd⟩) _ (List.mem_flatMap.2 ⟨node', hnode', hd'⟩) rfl

instance (source : List Char) (root : Node) : Decidable (KindsAgree source root) :=
  decidable_of_iff _ kindsAgree_iff.symm

/-- **Scripts that differ in the places of statements export the same symbols**, if no two
declarations of one name are of different kinds. -/
theorem exportedSymbols_eq_of_reordering (hagree : KindsAgree source root)
    (h : IsReordering source source' root root') :
    exportedSymbols source' root' = exportedSymbols source root := by
  have hexports : allExports source' root' = allExports source root := by
    rw [allExports, allExports, ← flatMap_statementExports, ← flatMap_statementExports]
    exact (flatMap_eq_of_forall₂ h.exports fun _ _ _ _ hcopy => hcopy.statementExports_eq).symm
  -- the exports keep their order, so that only the kinds of local names might be others
  have hlookup : ∀ name, (declaredAtTop source' root').lookup name =
      (declaredAtTop source root).lookup name :=
    lookup_eq_of_mem_iff h.mem_declaredAtTop_iff (kindsAgree_iff.1 hagree)
  have hsymbol : Export.symbol (declaredAtTop source' root') =
      Export.symbol (declaredAtTop source root) := by
    funext e
    cases e with
    | known symbol => rfl
    | ofLocal localName exported => rw [Export.symbol, Export.symbol, hlookup]
  rw [exportedSymbols_eq, exportedSymbols_eq, hexports, hsymbol]

/-- **The exported symbols of a script** are those of its exports, the first of each name and in the
order of these first ones, where a local name is of the kind of its first declaration at the top of
the script. Where no two declarations of one name are of different kinds, they do not depend on the
places of the statements that are no exports. -/
theorem keepsFirst_exportedSymbols (source : List Char) (root : Node) :
    (∃ declared exports offered,
      InOrder (DeclaresAtTop source) root.namedChildren declared ∧
        InOrder (ExportsAtTop source) root.namedChildren exports ∧
        List.Forall₂ (IsSymbolOf declared) exports offered ∧
        KeepsFirst (·.name) offered (exportedSymbols source root)) ∧
      ((exportedSymbols source root).map (·.name)).Nodup ∧
      (KindsAgree source root → ∀ source' root', IsReordering source source' root root' →
        exportedSymbols source' root' = exportedSymbols source root) := by
  have hkeeps := keepsFirst_firstsBy (·.name)
    ((allExports source root).map (Export.symbol (declaredAtTop source root)))
  rw [← exportedSymbols_eq] at hkeeps
  have hoffered : List.Forall₂ (IsSymbolOf (declaredAtTop source root)) (allExports source root)
      ((allExports source root).map (Export.symbol (declaredAtTop source root))) := by
    rw [List.forall₂_map_right_iff, List.forall₂_same]
    intro e _
    exact isSymbolOf_iff.2 rfl
  refine ⟨⟨_, _, _, inOrder_declaresAtTop_iff.2 rfl, inOrder_exportsAtTop_iff.2 rfl, hoffered,
    hkeeps⟩, hkeeps.nodup, ?_⟩
  intro hagree source' root' h
  exact exportedSymbols_eq_of_reordering hagree h

/-- The statements of the script `export { f as default };function f() {}const a = 1;`. -/
def exportText : List Char := "export { f as default };".toList

@[inherit_doc exportText]
def functionText : List Char := "function f() {}".toList

@[inherit_doc exportText]
def constantText : List Char := "const a = 1;".toList

/-- The tree of the export, without the spellings. -/
def exportTree : Node :=
  { kind := "export_statement", start := 0, stop := 24
    children :=
      [{ kind := "export_clause", start := 7, stop := 23
         children :=
          [{ kind := "export_specifier", start := 9, stop := 21
             children :=
              [{ kind := "identifier", field := some "name", start := 9, stop := 10 },
               { kind := "identifier", field := some "alias", start := 14, stop := 21 }] }] }] }

/-- The tree of the function. -/
def functionTree : Node :=
  { kind := "function_declaration", start := 0, stop := 15
    children :=
      [{ kind := "identifier", field := some "name", start := 9, stop := 10 },
       { kind := "formal_parameters", field := some "parameters", start := 10, stop := 12 },
       { kind := "statement_block", field := some "body", start := 13, stop := 15 }] }

/-- The tree of the constant. -/
def constantTree : Node :=
  { kind := "lexical_declaration", start := 0, stop := 12
    children :=
      [{ kind := "const", named := false, start := 0, stop := 5 },
       { kind := "variable_declarator", start := 6, stop := 11
         children :=
          [{ kind := "identifier", field := some "name", start := 6, stop := 7 },
           { kind := "number", field := some "value", start := 10, stop := 11 }] }] }

/-- The script that exports the function before its declaration. -/
def exportsBeforeText : List Char := exportText ++ (functionText ++ constantText)

/-- Its tree. -/
def exportsBefore : Node :=
  { kind := "program", start := 0, stop := 51
    children := [exportTree.movedBy 0, functionTree.movedBy 24, constantTree.movedBy 39] }

/-- The script with the export at its end, and with the other two statements in the other order. -/
def exportsBehindText : List Char := constantText ++ (functionText ++ exportText)

/-- Its tree. -/
def exportsBehind : Node :=
  { kind := "program", start := 0, stop := 51
    children := [constantTree.movedBy 0, functionTree.movedBy 12, exportTree.movedBy 27] }

theorem isReordering_exportsBefore :
    IsReordering exportsBeforeText exportsBehindText exportsBefore exportsBehind := by
  have hexport : IsCopy exportsBeforeText exportsBehindText (exportTree.movedBy 0)
      (exportTree.movedBy 27) :=
    isCopy_movedBy exportText exportTree (by decide) [] (functionText ++ constantText)
      (constantText ++ functionText) []
  have hfunction : IsCopy exportsBeforeText exportsBehindText (functionTree.movedBy 24)
      (functionTree.movedBy 12) :=
    isCopy_movedBy functionText functionTree (by decide) exportText constantText constantText
      exportText
  have hconstant : IsCopy exportsBeforeText exportsBehindText (constantTree.movedBy 39)
      (constantTree.movedBy 0) := by
    have hcopy := isCopy_movedBy constantText constantTree (by decide) (exportText ++ functionText)
      [] [] (functionText ++ exportText)
    rw [List.append_nil, List.append_assoc] at hcopy
    exact hcopy
  refine ⟨.cons hexport .nil, [constantTree.movedBy 39, functionTree.movedBy 24], ?_, ?_⟩
  · exact .swap _ _ _
  · exact .cons hconstant (.cons hfunction .nil)

theorem keepsFirst_exportedSymbols_exportsBefore :
    KindsAgree exportsBeforeText exportsBefore ∧
      IsReordering exportsBeforeText exportsBehindText exportsBefore exportsBehind ∧
      exportedSymbols exportsBehindText exportsBehind =
        exportedSymbols exportsBeforeText exportsBefore ∧
      exportedSymbols exportsBeforeText exportsBefore = [⟨"default", .function, some "f"⟩] := by
  have hagree : KindsAgree exportsBeforeText exportsBefore := by decide
  have hsame := (keepsFirst_exportedSymbols exportsBeforeText exportsBefore).2.2 hagree
    exportsBehindText exportsBehind isReordering_exportsBefore
  exact ⟨hagree, isReordering_exportsBefore, hsame, by decide⟩

end RefGraph.Script

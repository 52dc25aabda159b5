import RefGraph.Script.Rule

/-!
# Statements, declarations and module items

The rules from the whole text down to statements: imports and exports, declarations, control flow.
Expressions are left to `RefGraph.Script.Grammar.Expression`.
-/

namespace RefGraph.Script.Grammar

open Rule

/-- What an export statement may be. -/
def exportForms : List Rule := [
    seq [
      "export",
      alt [
        seq ["*", .ref "_from_clause"], seq [.ref "namespace_export", .ref "_from_clause"],
        seq [.ref "export_clause", .ref "_from_clause"], .ref "export_clause"],
      .ref "_semicolon"],
    seq [
      many (field "decorator" (.ref "decorator")), "export",
      alt [
        field "declaration" (.ref "declaration"),
        seq [
          "default",
          alt [
            field "declaration" (.ref "declaration"),
            seq [field "value" (.ref "expression"), .ref "_semicolon"]]]]]]

/-- What a declaration may be. -/
def declarationForms : List Rule := [
    .ref "function_declaration", .ref "generator_function_declaration", .ref "class_declaration",
    .ref "lexical_declaration", .ref "variable_declaration"]

/-- One name of an export clause, with the name under which it is exported. -/
def exportSpecifier : Rule :=
  seq [
    field "name" (.ref "_module_export_name"),
    opt (seq ["as", field "alias" (.ref "_module_export_name")])]

/-- The rules of statements; the first one is the whole text. -/
def statementRules : Rules := [
  ("program", seq [opt (.lex .hashBang), many (.ref "statement")]),
  ("export_statement", alt exportForms),
  ("namespace_export", seq ["*", "as", .ref "_module_export_name"]),
  ("export_clause", seq ["\x7b", commas (.ref "export_specifier"), opt ",", "\x7d"]),
  ("export_specifier", exportSpecifier),
  ("_module_export_name", alt [.lex .identifier, .ref "string"]),
  ("declaration", alt declarationForms),
  ("import", "import"),
  ("import_statement", seq [
      "import",
      alt [seq [.ref "import_clause", .ref "_from_clause"], field "source" (.ref "string")],
      opt (.ref "import_attribute"), .ref "_semicolon"]),
  ("import_clause", alt [
      .ref "namespace_import", .ref "named_imports",
      seq [
        .lex .identifier, opt (seq [",", alt [.ref "namespace_import", .ref "named_imports"]])]]),
  ("_from_clause", seq ["from", field "source" (.ref "string")]),
  ("namespace_import", seq ["*", "as", .lex .identifier]),
  ("named_imports", seq ["\x7b", commas (.ref "import_specifier"), opt ",", "\x7d"]),
  ("import_specifier", alt [
      field "name" (.lex .identifier),
      seq [field "name" (.ref "_module_export_name"), "as", field "alias" (.lex .identifier)]]),
  ("import_attribute", seq [alt ["with", "assert"], .ref "object"]),
  ("statement", alt [
      .ref "export_statement", .ref "import_statement", .ref "debugger_statement",
      .ref "expression_statement", .ref "declaration", .ref "statement_block",
      .ref "if_statement", .ref "switch_statement", .ref "for_statement", .ref "for_in_statement",
      .ref "while_statement", .ref "do_statement", .ref "try_statement", .ref "with_statement",
      .ref "break_statement", .ref "continue_statement", .ref "return_statement",
      .ref "throw_statement", .ref "empty_statement", .ref "labeled_statement"]),
  ("expression_statement", seq [.ref "_expressions", .ref "_semicolon"]),
  ("variable_declaration", seq ["var", commas1 (.ref "variable_declarator"), .ref "_semicolon"]),
  ("lexical_declaration", seq [
      field "kind" (alt ["let", "const"]), commas1 (.ref "variable_declarator"),
      .ref "_semicolon"]),
  ("variable_declarator", seq [
      field "name" (alt [.lex .identifier, .ref "_destructuring_pattern"]),
      opt (.ref "_initializer")]),
  ("statement_block", bindsRight 0 (seq [
      "\x7b", many (.ref "statement"), "\x7d", opt (.lex .automaticSemicolon)])),
  ("else_clause", seq ["else", .ref "statement"]),
  ("if_statement", bindsRight 0 (seq [
      "if", field "condition" (.ref "parenthesized_expression"),
      field "consequence" (.ref "statement"), opt (field "alternative" (.ref "else_clause"))])),
  ("switch_statement", seq [
      "switch", field "value" (.ref "parenthesized_expression"),
      field "body" (.ref "switch_body")]),
  ("for_statement", seq [
      "for", "(",
      alt [
        field "initializer" (alt [.ref "lexical_declaration", .ref "variable_declaration"]),
        seq [field "initializer" (.ref "_expressions"), ";"],
        field "initializer" (.ref "empty_statement")],
      field "condition" (alt [seq [.ref "_expressions", ";"], .ref "empty_statement"]),
      field "increment" (opt (.ref "_expressions")), ")", field "body" (.ref "statement")]),
  ("for_in_statement", seq [
      "for", opt "await", .ref "_for_header", field "body" (.ref "statement")]),
  ("_for_header", seq [
      "(",
      alt [
        field "left" (alt [.ref "_lhs_expression", .ref "parenthesized_expression"]),
        seq [
          field "kind" "var",
          field "left" (alt [.lex .identifier, .ref "_destructuring_pattern"]),
          opt (.ref "_initializer")],
        seq [
          field "kind" (alt ["let", "const"]),
          field "left" (alt [.lex .identifier, .ref "_destructuring_pattern"]),
          opt (.lex .automaticSemicolon)]],
      field "operator" (alt ["in", "of"]), field "right" (.ref "_expressions"), ")"]),
  ("while_statement", seq [
      "while", field "condition" (.ref "parenthesized_expression"),
      field "body" (.ref "statement")]),
  ("do_statement", bindsRight 0 (seq [
      "do", field "body" (.ref "statement"), "while",
      field "condition" (.ref "parenthesized_expression"), opt (.ref "_semicolon")])),
  ("try_statement", seq [
      "try", field "body" (.ref "statement_block"), opt (field "handler" (.ref "catch_clause")),
      opt (field "finalizer" (.ref "finally_clause"))]),
  ("with_statement", seq [
      "with", field "object" (.ref "parenthesized_expression"), field "body" (.ref "statement")]),
  ("break_statement", seq [
      "break", field "label" (opt (renamed "statement_identifier" (.lex .identifier))),
      .ref "_semicolon"]),
  ("continue_statement", seq [
      "continue", field "label" (opt (renamed "statement_identifier" (.lex .identifier))),
      .ref "_semicolon"]),
  ("debugger_statement", seq ["debugger", .ref "_semicolon"]),
  ("return_statement", seq ["return", opt (.ref "_expressions"), .ref "_semicolon"]),
  ("throw_statement", seq ["throw", .ref "_expressions", .ref "_semicolon"]),
  ("empty_statement", ";"),
  ("labeled_statement", weighed (-1) (seq [
      field "label" (renamed "statement_identifier" (alt [
        .lex .identifier, .ref "_reserved_identifier"])),
      ":", field "body" (.ref "statement")])),
  ("switch_body", seq ["\x7b", many (alt [.ref "switch_case", .ref "switch_default"]), "\x7d"]),
  ("switch_case", seq [
      "case", field "value" (.ref "_expressions"), ":", field "body" (many (.ref "statement"))]),
  ("switch_default", seq ["default", ":", field "body" (many (.ref "statement"))]),
  ("catch_clause", seq [
      "catch",
      opt (seq [
        "(", field "parameter" (alt [.lex .identifier, .ref "_destructuring_pattern"]), ")"]),
      field "body" (.ref "statement_block")]),
  ("finally_clause", seq ["finally", field "body" (.ref "statement_block")])]

end RefGraph.Script.Grammar

import RefGraph.Script.Rule

/-!
# Expressions

The rules of expressions, patterns, functions, classes and literals.
-/

namespace RefGraph.Script.Grammar

open Rule

/-- What an expression may be. -/
def expressionForms : List Rule := [
    .ref "primary_expression", .ref "_jsx_element", .ref "assignment_expression",
    .ref "augmented_assignment_expression", .ref "await_expression", .ref "unary_expression",
    .ref "binary_expression", .ref "ternary_expression", .ref "update_expression",
    .ref "new_expression", .ref "yield_expression"]

/-- What an expression may be that needs no parentheses before a call. -/
def primaryForms : List Rule := [
    .ref "subscript_expression", .ref "member_expression", .ref "parenthesized_expression",
    .ref "_identifier", renamed "identifier" (.ref "_reserved_identifier"), .ref "this",
    .ref "super", .lex .number, .ref "string", .ref "template_string", .ref "regex", .ref "true",
    .ref "false", .ref "null", .ref "object", .ref "array", .ref "function_expression",
    .ref "arrow_function", .ref "generator_function", .ref "class", .ref "meta_property",
    .ref "call_expression"]

/-- What may stand to the left of an assignment. -/
def assignableForms : List Rule := [
    .ref "member_expression", .ref "subscript_expression", .ref "_identifier",
    renamed "identifier" (.ref "_reserved_identifier"), .ref "_destructuring_pattern"]

/-- What may stand to the left of a combined assignment. -/
def updatableForms : List Rule := [
    .ref "member_expression", .ref "subscript_expression",
    renamed "identifier" (.ref "_reserved_identifier"), .lex .identifier,
    .ref "parenthesized_expression"]

/-- Words with a meaning of their own that may also serve as identifiers. -/
def softWords : List Rule := ["get", "set", "async", "static", "export", "let"]

/-- The binary operators that take expressions on both sides, with the level at which each binds
and the side to which it groups. -/
def binaryOperators : List (String × String × Side) := [
  ("&&", "logical_and", .left), ("||", "logical_or", .left),
  (">>", "binary_shift", .left), (">>>", "binary_shift", .left), ("<<", "binary_shift", .left),
  ("&", "bitwise_and", .left), ("^", "bitwise_xor", .left), ("|", "bitwise_or", .left),
  ("+", "binary_plus", .left), ("-", "binary_plus", .left),
  ("*", "binary_times", .left), ("/", "binary_times", .left), ("%", "binary_times", .left),
  ("**", "binary_exp", .right),
  ("<", "binary_relation", .left), ("<=", "binary_relation", .left),
  ("==", "binary_equality", .left), ("===", "binary_equality", .left),
  ("!=", "binary_equality", .left), ("!==", "binary_equality", .left),
  (">=", "binary_relation", .left), (">", "binary_relation", .left),
  ("??", "ternary", .left), ("instanceof", "binary_relation", .left),
  ("in", "binary_relation", .left)]

/-- An operator between two operands. Only `in` may have a private name to its left. -/
def binaryForm : String × String × Side → Rule
  | (operator, level, side) =>
    let left : Rule :=
      if operator = "in" then alt [.ref "expression", .lex .privateName] else .ref "expression"
    binding level side
      (seq [field "left" left, field "operator" operator, field "right" (.ref "expression")])

/-- The rules of expressions. -/
def expressionRules : Rules := [
  ("parenthesized_expression", seq ["(", .ref "_expressions", ")"]),
  ("_expressions", alt [.ref "expression", .ref "sequence_expression"]),
  ("expression", alt expressionForms),
  ("primary_expression", alt primaryForms),
  ("yield_expression", bindsRight 0 (seq [
      "yield", alt [seq ["*", .ref "expression"], opt (.ref "expression")]])),
  ("object", binds "object" (seq [
      "\x7b",
      commas (opt (alt [
        .ref "pair", .ref "spread_element", .ref "method_definition",
        renamed "shorthand_property_identifier" (alt [
          .lex .identifier, .ref "_reserved_identifier"])])),
      "\x7d"])),
  ("object_pattern", binds "object" (seq [
      "\x7b",
      commas (opt (alt [
        .ref "pair_pattern", .ref "rest_pattern", .ref "object_assignment_pattern",
        renamed "shorthand_property_identifier_pattern" (alt [
          .lex .identifier, .ref "_reserved_identifier"])])),
      "\x7d"])),
  ("assignment_pattern", seq [
      field "left" (.ref "pattern"), "=", field "right" (.ref "expression")]),
  ("object_assignment_pattern", seq [
      field "left" (alt [
        renamed "shorthand_property_identifier_pattern" (alt [
          .ref "_reserved_identifier", .lex .identifier]),
        .ref "_destructuring_pattern"]),
      "=", field "right" (.ref "expression")]),
  ("array", seq ["[", commas (opt (alt [.ref "expression", .ref "spread_element"])), "]"]),
  ("array_pattern", seq [
      "[", commas (opt (alt [.ref "pattern", .ref "assignment_pattern"])), "]"]),
  ("nested_identifier", binds "member" (seq [
      field "object" (alt [
        .lex .identifier, renamed "member_expression" (.ref "nested_identifier")]),
      ".", field "property" (renamed "property_identifier" (.lex .identifier))])),
  ("class", binds "literal" (seq [
      many (field "decorator" (.ref "decorator")), "class", field "name" (opt (.lex .identifier)),
      opt (.ref "class_heritage"), field "body" (.ref "class_body")])),
  ("class_declaration", binds "declare" (seq [
      many (field "decorator" (.ref "decorator")), "class", field "name" (.lex .identifier),
      opt (.ref "class_heritage"), field "body" (.ref "class_body"),
      opt (.lex .automaticSemicolon)])),
  ("class_heritage", seq ["extends", .ref "expression"]),
  ("function_expression", binds "literal" (seq [
      opt "async", "function", field "name" (opt (.lex .identifier)), .ref "_call_signature",
      field "body" (.ref "statement_block")])),
  ("function_declaration", bindsRight "declare" (seq [
      opt "async", "function", field "name" (.lex .identifier), .ref "_call_signature",
      field "body" (.ref "statement_block"), opt (.lex .automaticSemicolon)])),
  ("generator_function", binds "literal" (seq [
      opt "async", "function", "*", field "name" (opt (.lex .identifier)), .ref "_call_signature",
      field "body" (.ref "statement_block")])),
  ("generator_function_declaration", bindsRight "declare" (seq [
      opt "async", "function", "*", field "name" (.lex .identifier), .ref "_call_signature",
      field "body" (.ref "statement_block"), opt (.lex .automaticSemicolon)])),
  ("arrow_function", seq [
      opt "async",
      alt [
        field "parameter" (alt [
          renamed "identifier" (.ref "_reserved_identifier"), .lex .identifier]),
        .ref "_call_signature"],
      "=>", field "body" (alt [.ref "expression", .ref "statement_block"])]),
  ("_call_signature", field "parameters" (.ref "formal_parameters")),
  ("_formal_parameter", alt [.ref "pattern", .ref "assignment_pattern"]),
  ("call_expression", alt [
      binds "call" (seq [
        field "function" (alt [.ref "expression", .ref "import"]),
        field "arguments" (.ref "arguments")]),
      binds "template_call" (seq [
        field "function" (alt [.ref "primary_expression", .ref "new_expression"]),
        field "arguments" (.ref "template_string")]),
      binds "member" (seq [
        field "function" (.ref "primary_expression"),
        field "optional_chain" (.ref "optional_chain"), field "arguments" (.ref "arguments")])]),
  ("new_expression", bindsRight "new" (seq [
      "new", field "constructor" (alt [.ref "primary_expression", .ref "new_expression"]),
      field "arguments" (opt (weighed 1 (.ref "arguments")))])),
  ("await_expression", binds "unary_void" (seq ["await", .ref "expression"])),
  ("member_expression", binds "member" (seq [
      field "object" (alt [.ref "expression", .ref "primary_expression", .ref "import"]),
      alt [".", field "optional_chain" (.ref "optional_chain")],
      field "property" (alt [
        .lex .privateName, renamed "property_identifier" (.lex .identifier)])])),
  ("subscript_expression", bindsRight "member" (seq [
      field "object" (alt [.ref "expression", .ref "primary_expression"]),
      opt (field "optional_chain" (.ref "optional_chain")), "[",
      field "index" (.ref "_expressions"), "]"])),
  ("_lhs_expression", alt assignableForms),
  ("assignment_expression", bindsRight "assign" (seq [
      opt "using", field "left" (alt [.ref "parenthesized_expression", .ref "_lhs_expression"]),
      "=", field "right" (.ref "expression")])),
  ("_augmented_assignment_lhs", alt updatableForms),
  ("augmented_assignment_expression", bindsRight "assign" (seq [
      field "left" (.ref "_augmented_assignment_lhs"),
      field "operator" (alt [
        "+=", "-=", "*=", "/=", "%=", "^=", "&=", "|=", ">>=", ">>>=", "<<=", "**=", "&&=", "||=",
        "??="]),
      field "right" (.ref "expression")])),
  ("_initializer", seq ["=", field "value" (.ref "expression")]),
  ("_destructuring_pattern", alt [.ref "object_pattern", .ref "array_pattern"]),
  ("spread_element", seq ["...", .ref "expression"]),
  ("ternary_expression", bindsRight "ternary" (seq [
      field "condition" (.ref "expression"), spelled "?" (.lex .ternaryMark),
      field "consequence" (.ref "expression"), ":", field "alternative" (.ref "expression")])),
  ("binary_expression", alt (binaryOperators.map binaryForm)),
  ("unary_expression", bindsLeft "unary_void" (seq [
      field "operator" (alt ["!", "~", "-", "+", "typeof", "void", "delete"]),
      field "argument" (.ref "expression")])),
  ("update_expression", bindsLeft 0 (alt [
      seq [field "argument" (.ref "expression"), field "operator" (alt ["++", "--"])],
      seq [field "operator" (alt ["++", "--"]), field "argument" (.ref "expression")]])),
  ("sequence_expression", bindsRight 0 (commas1 (.ref "expression"))),
  ("string", alt [
      seq [
        "\"", many (alt [renamed "string_fragment" (.lex .doubleFragment), .lex .escape]), "\""],
      seq [
        "'", many (alt [renamed "string_fragment" (.lex .singleFragment), .lex .escape]), "'"]]),
  ("template_string", seq [
      "`",
      many (alt [
        renamed "string_fragment" (.lex .templateFragment), .lex .escape,
        .ref "template_substitution"]),
      "`"]),
  ("template_substitution", seq ["$\x7b", .ref "_expressions", "\x7d"]),
  ("regex", seq [
      "/", field "pattern" (.lex .regexBody), .lex .regexClose,
      opt (field "flags" (.lex .regexFlags))]),
  ("_identifier", alt [.ref "undefined", .lex .identifier]),
  ("meta_property", alt [seq ["new", ".", "target"], seq ["import", ".", "meta"]]),
  ("arguments", seq ["(", commas (opt (alt [.ref "expression", .ref "spread_element"])), ")"]),
  ("decorator", seq [
      "@",
      alt [
        .lex .identifier, renamed "member_expression" (.ref "decorator_member_expression"),
        renamed "call_expression" (.ref "decorator_call_expression")]]),
  ("decorator_member_expression", binds "member" (seq [
      field "object" (alt [
        .lex .identifier, renamed "member_expression" (.ref "decorator_member_expression")]),
      ".", field "property" (renamed "property_identifier" (.lex .identifier))])),
  ("decorator_call_expression", binds "call" (seq [
      field "function" (alt [
        .lex .identifier, renamed "member_expression" (.ref "decorator_member_expression")]),
      field "arguments" (.ref "arguments")])),
  ("class_body", seq [
      "\x7b",
      many (alt [
        seq [field "member" (.ref "method_definition"), opt ";"],
        seq [field "member" (.ref "field_definition"), .ref "_semicolon"],
        field "member" (.ref "class_static_block"), ";"]),
      "\x7d"]),
  ("field_definition", seq [
      many (field "decorator" (.ref "decorator")), opt "static",
      field "property" (.ref "_property_name"), opt (.ref "_initializer")]),
  ("formal_parameters", seq ["(", opt (seq [commas1 (.ref "_formal_parameter"), opt ","]), ")"]),
  ("class_static_block", seq [
      "static", opt (.lex .automaticSemicolon), field "body" (.ref "statement_block")]),
  ("pattern", weighed (-1) (alt [.ref "_lhs_expression", .ref "rest_pattern"])),
  ("rest_pattern", bindsRight 0 (seq ["...", .ref "_lhs_expression"])),
  ("method_definition", seq [
      many (field "decorator" (.ref "decorator")),
      opt (alt ["static", spelled "static get" (.lex .staticGetter)]), opt "async",
      opt (alt ["get", "set", "*"]), field "name" (.ref "_property_name"),
      field "parameters" (.ref "formal_parameters"), field "body" (.ref "statement_block")]),
  ("pair", seq [field "key" (.ref "_property_name"), ":", field "value" (.ref "expression")]),
  ("pair_pattern", seq [
      field "key" (.ref "_property_name"), ":",
      field "value" (alt [.ref "pattern", .ref "assignment_pattern"])]),
  ("_property_name", alt [
      renamed "property_identifier" (alt [.lex .identifier, .ref "_reserved_identifier"]),
      .lex .privateName, .ref "string", .lex .number, .ref "computed_property_name"]),
  ("computed_property_name", seq ["[", .ref "expression", "]"]),
  ("_reserved_identifier", alt softWords),
  ("_semicolon", alt [.lex .automaticSemicolon, ";"])]

end RefGraph.Script.Grammar

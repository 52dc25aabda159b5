import RefGraph.Script.Grammar.Statement
import RefGraph.Script.Grammar.Expression
import RefGraph.Script.Grammar.Markup

/-!
# Types and declarations of types

What the typed dialects change and add: type annotations, type declarations, signatures, modifiers
and decorators with parentheses.
-/

namespace RefGraph.Script.Grammar

open Rule

/-- Words of the typed dialects that may also serve as identifiers. -/
def typedSoftWords : List Rule := [
    "declare", "namespace", "type", "public", "private", "protected", "override", "readonly",
    "module", "any", "number", "boolean", "string", "symbol", "export", "object", "new",
    "readonly"]

/-- The rules of a typed dialect that differ from the untyped ones or are new. -/
def typedRules : Rules := [
  ("optional_chain", "?."),
  ("public_field_definition", seq [
      many (field "decorator" (.ref "decorator")),
      opt (alt [
        seq ["declare", opt (.ref "accessibility_modifier")],
        seq [.ref "accessibility_modifier", opt "declare"]]),
      alt [
        seq [opt "static", opt (.ref "override_modifier"), opt "readonly"],
        seq [opt "abstract", opt "readonly"], seq [opt "readonly", opt "abstract"], opt "accessor"],
      field "name" (.ref "_property_name"), opt (alt ["?", "!"]),
      field "type" (opt (.ref "type_annotation")), opt (.ref "_initializer")]),
  ("catch_clause", seq [
      "catch",
      opt (seq [
        "(", field "parameter" (alt [.lex .identifier, .ref "_destructuring_pattern"]),
        opt (field "type" (.ref "type_annotation")), ")"]),
      field "body" (.ref "statement_block")]),
  ("call_expression", alt [
      binds "call" (seq [
        field "function" (alt [.ref "expression", .ref "import"]),
        field "type_arguments" (opt (.ref "type_arguments")),
        field "arguments" (.ref "arguments")]),
      binds "template_call" (seq [
        field "function" (alt [.ref "primary_expression", .ref "new_expression"]),
        field "arguments" (.ref "template_string")]),
      binds "member" (seq [
        field "function" (.ref "primary_expression"), "?.",
        field "type_arguments" (opt (.ref "type_arguments")),
        field "arguments" (.ref "arguments")])]),
  ("new_expression", bindsRight "new" (seq [
      "new", field "constructor" (.ref "primary_expression"),
      field "type_arguments" (opt (.ref "type_arguments")),
      field "arguments" (opt (.ref "arguments"))])),
  ("_augmented_assignment_lhs", alt (updatableForms ++ [.ref "non_null_expression"])),
  ("_lhs_expression", alt (assignableForms ++ [.ref "non_null_expression"])),
  ("primary_expression", alt (primaryForms ++ [.ref "non_null_expression"])),
  ("export_specifier", seq [opt (alt ["type", "typeof"]), exportSpecifier]),
  ("_import_identifier", alt [.lex .identifier, renamed "identifier" "type"]),
  ("import_specifier", seq [
      opt (alt ["type", "typeof"]),
      alt [
        field "name" (.ref "_import_identifier"),
        seq [
          field "name" (alt [.ref "_module_export_name", renamed "identifier" "type"]), "as",
          field "alias" (.ref "_import_identifier")]]]),
  ("import_clause", alt [
      .ref "namespace_import", .ref "named_imports",
      seq [
        .ref "_import_identifier",
        opt (seq [",", alt [.ref "namespace_import", .ref "named_imports"]])]]),
  ("import_statement", seq [
      "import", opt (alt ["type", "typeof"]),
      alt [
        seq [.ref "import_clause", .ref "_from_clause"], .ref "import_require_clause",
        field "source" (.ref "string")],
      opt (.ref "import_attribute"), .ref "_semicolon"]),
  ("export_statement", alt (exportForms ++ [
      seq [
        "export", "type", .ref "export_clause", opt (.ref "_from_clause"), .ref "_semicolon"],
      seq ["export", "import", .ref "import_alias"],
      seq ["export", "=", .ref "expression", .ref "_semicolon"],
      seq ["export", "as", "namespace", .lex .identifier, .ref "_semicolon"]])),
  ("non_null_expression", bindsLeft "unary" (seq [.ref "expression", "!"])),
  ("variable_declarator", alt [
      seq [
        field "name" (alt [.lex .identifier, .ref "_destructuring_pattern"]),
        field "type" (opt (.ref "type_annotation")), opt (.ref "_initializer")],
      binds "declare" (seq [
        field "name" (.lex .identifier), "!", field "type" (.ref "type_annotation")])]),
  ("method_signature", seq [
      opt (.ref "accessibility_modifier"), opt "static", opt (.ref "override_modifier"),
      opt "readonly", opt "async", opt (alt ["get", "set", "*"]),
      field "name" (.ref "_property_name"), opt "?", .ref "_call_signature"]),
  ("abstract_method_signature", seq [
      opt (.ref "accessibility_modifier"), "abstract", opt (.ref "override_modifier"),
      opt (alt ["get", "set", "*"]), field "name" (.ref "_property_name"), opt "?",
      .ref "_call_signature"]),
  ("parenthesized_expression", seq [
      "(",
      alt [
        seq [.ref "expression", field "type" (opt (.ref "type_annotation"))],
        .ref "sequence_expression"],
      ")"]),
  ("_formal_parameter", alt [.ref "required_parameter", .ref "optional_parameter"]),
  ("function_signature", seq [
      opt "async", "function", field "name" (.lex .identifier), .ref "_call_signature",
      alt [.ref "_semicolon", .lex .signatureSemicolon]]),
  ("decorator", seq [
      "@",
      alt [
        .lex .identifier, renamed "member_expression" (.ref "decorator_member_expression"),
        renamed "call_expression" (.ref "decorator_call_expression"),
        renamed "parenthesized_expression" (.ref "decorator_parenthesized_expression")]]),
  ("decorator_call_expression", binds "call" (seq [
      field "function" (alt [
        .lex .identifier, renamed "member_expression" (.ref "decorator_member_expression")]),
      field "type_arguments" (opt (.ref "type_arguments")), field "arguments" (.ref "arguments")])),
  ("decorator_parenthesized_expression", seq [
      "(",
      alt [
        .lex .identifier, renamed "member_expression" (.ref "decorator_member_expression"),
        renamed "call_expression" (.ref "decorator_call_expression")],
      ")"]),
  ("class_body", seq [
      "\x7b",
      many (alt [
        seq [
          many (field "decorator" (.ref "decorator")), .ref "method_definition",
          opt (.ref "_semicolon")],
        seq [.ref "method_signature", alt [.lex .signatureSemicolon, ","]],
        .ref "class_static_block",
        seq [
          alt [
            .ref "abstract_method_signature", .ref "index_signature", .ref "method_signature",
            .ref "public_field_definition"],
          alt [.ref "_semicolon", ","]],
        ";"]),
      "\x7d"]),
  ("method_definition", bindsLeft 0 (seq [
      opt (.ref "accessibility_modifier"), opt "static", opt (.ref "override_modifier"),
      opt "readonly", opt "async", opt (alt ["get", "set", "*"]),
      field "name" (.ref "_property_name"), opt "?", .ref "_call_signature",
      field "body" (.ref "statement_block")])),
  ("declaration", alt (declarationForms ++ [
      .ref "function_signature", .ref "abstract_class_declaration", .ref "module",
      binds "declare" (.ref "internal_module"), .ref "type_alias_declaration",
      .ref "enum_declaration", .ref "interface_declaration", .ref "import_alias",
      .ref "ambient_declaration"])),
  ("type_assertion", bindsLeft "unary" (seq [.ref "type_arguments", .ref "expression"])),
  ("as_expression", bindsLeft "binary" (seq [
      .ref "expression", "as", alt ["const", .ref "type"]])),
  ("satisfies_expression", bindsLeft "binary" (seq [
      .ref "expression", "satisfies", .ref "type"])),
  ("instantiation_expression", binds "instantiation" (seq [
      .ref "expression", field "type_arguments" (.ref "type_arguments")])),
  ("class_heritage", alt [
      seq [.ref "extends_clause", opt (.ref "implements_clause")], .ref "implements_clause"]),
  ("import_require_clause", seq [
      .lex .identifier, "=", "require", "(", field "source" (.ref "string"), ")"]),
  ("extends_clause", seq ["extends", commas1 (.ref "_extends_clause_single")]),
  ("_extends_clause_single", binds "extends" (seq [
      field "value" (.ref "expression"), field "type_arguments" (opt (.ref "type_arguments"))])),
  ("implements_clause", seq ["implements", commas1 (.ref "type")]),
  ("ambient_declaration", seq [
      "declare",
      alt [
        .ref "declaration", seq ["global", .ref "statement_block"],
        seq [
          "module", ".", renamed "property_identifier" (.lex .identifier), ":", .ref "type",
          .ref "_semicolon"]]]),
  ("class", binds "literal" (seq [
      many (field "decorator" (.ref "decorator")), "class",
      field "name" (opt (.ref "_type_identifier")),
      field "type_parameters" (opt (.ref "type_parameters")), opt (.ref "class_heritage"),
      field "body" (.ref "class_body")])),
  ("abstract_class_declaration", binds "declare" (seq [
      many (field "decorator" (.ref "decorator")), "abstract", "class",
      field "name" (.ref "_type_identifier"),
      field "type_parameters" (opt (.ref "type_parameters")), opt (.ref "class_heritage"),
      field "body" (.ref "class_body")])),
  ("class_declaration", bindsLeft "declare" (seq [
      many (field "decorator" (.ref "decorator")), "class",
      field "name" (.ref "_type_identifier"),
      field "type_parameters" (opt (.ref "type_parameters")), opt (.ref "class_heritage"),
      field "body" (.ref "class_body"), opt (.lex .automaticSemicolon)])),
  ("module", seq ["module", .ref "_module"]),
  ("internal_module", seq ["namespace", .ref "_module"]),
  ("_module", bindsRight 0 (seq [
      field "name" (alt [.ref "string", .lex .identifier, .ref "nested_identifier"]),
      field "body" (opt (.ref "statement_block"))])),
  ("import_alias", seq [
      "import", .lex .identifier, "=", alt [.lex .identifier, .ref "nested_identifier"],
      .ref "_semicolon"]),
  ("nested_type_identifier", binds "member" (seq [
      field "module" (alt [.lex .identifier, .ref "nested_identifier"]), ".",
      field "name" (.ref "_type_identifier")])),
  ("interface_declaration", seq [
      "interface", field "name" (.ref "_type_identifier"),
      field "type_parameters" (opt (.ref "type_parameters")), opt (.ref "extends_type_clause"),
      field "body" (renamed "interface_body" (.ref "object_type"))]),
  ("extends_type_clause", seq [
      "extends",
      commas1 (field "type" (alt [
        .ref "_type_identifier", .ref "nested_type_identifier", .ref "generic_type"]))]),
  ("enum_declaration", seq [
      opt "const", "enum", field "name" (.lex .identifier), field "body" (.ref "enum_body")]),
  ("enum_body", seq [
      "\x7b",
      opt (seq [
        separated1 "," (alt [field "name" (.ref "_property_name"), .ref "enum_assignment"]),
        opt ","]),
      "\x7d"]),
  ("enum_assignment", seq [field "name" (.ref "_property_name"), .ref "_initializer"]),
  ("type_alias_declaration", seq [
      "type", field "name" (.ref "_type_identifier"),
      field "type_parameters" (opt (.ref "type_parameters")), "=", field "value" (.ref "type"),
      .ref "_semicolon"]),
  ("accessibility_modifier", alt ["public", "private", "protected"]),
  ("override_modifier", "override"),
  ("required_parameter", seq [
      .ref "_parameter_name", field "type" (opt (.ref "type_annotation")),
      opt (.ref "_initializer")]),
  ("optional_parameter", seq [
      .ref "_parameter_name", "?", field "type" (opt (.ref "type_annotation")),
      opt (.ref "_initializer")]),
  ("_parameter_name", seq [
      many (field "decorator" (.ref "decorator")), opt (.ref "accessibility_modifier"),
      opt (.ref "override_modifier"), opt "readonly",
      field "pattern" (alt [.ref "pattern", .ref "this"])]),
  ("omitting_type_annotation", seq ["-?:", .ref "type"]),
  ("adding_type_annotation", seq ["+?:", .ref "type"]),
  ("opting_type_annotation", seq ["?:", .ref "type"]),
  ("type_annotation", seq [
      ":",
      alt [
        .ref "type",
        renamed "member_expression" (.ref "_type_query_member_expression_in_type_annotation"),
        renamed "call_expression" (.ref "_type_query_call_expression_in_type_annotation")]]),
  ("_type_query_member_expression_in_type_annotation", seq [
      field "object" (alt [
        .ref "import",
        renamed "member_expression" (.ref "_type_query_member_expression_in_type_annotation"),
        renamed "call_expression" (.ref "_type_query_call_expression_in_type_annotation")]),
      ".",
      field "property" (alt [
        .lex .privateName, renamed "property_identifier" (.lex .identifier)])]),
  ("_type_query_call_expression_in_type_annotation", seq [
      field "function" (alt [
        .ref "import",
        renamed "member_expression" (.ref "_type_query_member_expression_in_type_annotation")]),
      field "arguments" (.ref "arguments")]),
  ("asserts", seq ["asserts", alt [.ref "type_predicate", .lex .identifier, .ref "this"]]),
  ("asserts_annotation", seq [":", .ref "asserts"]),
  ("type", alt [
      .ref "primary_type", .ref "function_type", .ref "readonly_type", .ref "constructor_type",
      .ref "infer_type",
      binds (-1) (renamed "member_expression"
        (.ref "_type_query_member_expression_in_type_annotation")),
      binds (-1) (renamed "call_expression"
        (.ref "_type_query_call_expression_in_type_annotation"))]),
  ("tuple_parameter", seq [
      field "name" (alt [.lex .identifier, .ref "rest_pattern"]),
      field "type" (.ref "type_annotation")]),
  ("optional_tuple_parameter", seq [
      field "name" (.lex .identifier), "?", field "type" (.ref "type_annotation")]),
  ("optional_type", seq [.ref "type", "?"]),
  ("rest_type", seq ["...", .ref "type"]),
  ("_tuple_type_member", alt [
      renamed "required_parameter" (.ref "tuple_parameter"),
      renamed "optional_parameter" (.ref "optional_tuple_parameter"), .ref "optional_type",
      .ref "rest_type", .ref "type"]),
  ("constructor_type", bindsLeft 0 (seq [
      opt "abstract", "new", field "type_parameters" (opt (.ref "type_parameters")),
      field "parameters" (.ref "formal_parameters"), "=>", field "type" (.ref "type")])),
  ("primary_type", alt [
      .ref "parenthesized_type", .ref "predefined_type", .ref "_type_identifier",
      .ref "nested_type_identifier", .ref "generic_type", .ref "object_type", .ref "array_type",
      .ref "tuple_type", .ref "flow_maybe_type", .ref "type_query", .ref "index_type_query",
      renamed "this_type" (.ref "this"), .ref "existential_type", .ref "literal_type",
      .ref "lookup_type", .ref "conditional_type", .ref "template_literal_type",
      .ref "intersection_type", .ref "union_type", "const"]),
  ("template_type", seq ["$\x7b", alt [.ref "primary_type", .ref "infer_type"], "\x7d"]),
  ("template_literal_type", seq [
      "`", many (alt [renamed "string_fragment" (.lex .templateFragment), .ref "template_type"]),
      "`"]),
  ("infer_type", bindsRight 0 (seq [
      "infer", .ref "_type_identifier", opt (seq ["extends", .ref "type"])])),
  ("conditional_type", bindsRight 0 (seq [
      field "left" (.ref "type"), "extends", field "right" (.ref "type"), "?",
      field "consequence" (.ref "type"), ":", field "alternative" (.ref "type")])),
  ("generic_type", binds "call" (seq [
      field "name" (alt [.ref "_type_identifier", .ref "nested_type_identifier"]),
      field "type_arguments" (.ref "type_arguments")])),
  ("type_predicate", seq [
      field "name" (alt [
        .lex .identifier, .ref "this", renamed "identifier" (.ref "predefined_type")]),
      "is", field "type" (.ref "type")]),
  ("type_predicate_annotation", seq [seq [":", .ref "type_predicate"]]),
  ("_type_query_member_expression", seq [
      field "object" (alt [
        .lex .identifier, .ref "this",
        renamed "subscript_expression" (.ref "_type_query_subscript_expression"),
        renamed "member_expression" (.ref "_type_query_member_expression"),
        renamed "call_expression" (.ref "_type_query_call_expression")]),
      alt [".", "?."],
      field "property" (alt [
        .lex .privateName, renamed "property_identifier" (.lex .identifier)])]),
  ("_type_query_subscript_expression", seq [
      field "object" (alt [
        .lex .identifier, .ref "this",
        renamed "subscript_expression" (.ref "_type_query_subscript_expression"),
        renamed "member_expression" (.ref "_type_query_member_expression"),
        renamed "call_expression" (.ref "_type_query_call_expression")]),
      opt "?.", "[", field "index" (alt [.ref "predefined_type", .ref "string", .lex .number]),
      "]"]),
  ("_type_query_call_expression", seq [
      field "function" (alt [
        .ref "import", .lex .identifier,
        renamed "member_expression" (.ref "_type_query_member_expression"),
        renamed "subscript_expression" (.ref "_type_query_subscript_expression")]),
      field "arguments" (.ref "arguments")]),
  ("_type_query_instantiation_expression", seq [
      field "function" (alt [
        .ref "import", .lex .identifier,
        renamed "member_expression" (.ref "_type_query_member_expression"),
        renamed "subscript_expression" (.ref "_type_query_subscript_expression")]),
      field "type_arguments" (.ref "type_arguments")]),
  ("type_query", bindsRight 0 (seq [
      "typeof",
      alt [
        renamed "subscript_expression" (.ref "_type_query_subscript_expression"),
        renamed "member_expression" (.ref "_type_query_member_expression"),
        renamed "call_expression" (.ref "_type_query_call_expression"),
        renamed "instantiation_expression" (.ref "_type_query_instantiation_expression"),
        .lex .identifier, .ref "this"]])),
  ("index_type_query", seq ["keyof", .ref "primary_type"]),
  ("lookup_type", seq [.ref "primary_type", "[", .ref "type", "]"]),
  ("mapped_type_clause", seq [
      field "name" (.ref "_type_identifier"), "in", field "type" (.ref "type"),
      opt (seq ["as", field "alias" (.ref "type")])]),
  ("literal_type", alt [
      renamed "unary_expression" (.ref "_number"), .lex .number, .ref "string", .ref "true",
      .ref "false", .ref "null", .ref "undefined"]),
  ("_number", bindsLeft 1 (seq [
      field "operator" (alt ["-", "+"]), field "argument" (.lex .number)])),
  ("existential_type", "*"),
  ("flow_maybe_type", bindsRight 0 (seq ["?", .ref "primary_type"])),
  ("parenthesized_type", seq ["(", .ref "type", ")"]),
  ("predefined_type", alt [
      "any", "number", "boolean", "string", "symbol",
      spelled "unique symbol" (seq ["unique", "symbol"]), "void", "unknown", "string", "never",
      "object"]),
  ("type_arguments", seq ["<", commas1 (.ref "type"), opt ",", ">"]),
  ("object_type", seq [
      alt ["\x7b", "\x7b|"],
      opt (seq [
        opt (alt [",", ";"]),
        separated1 (alt [",", .ref "_semicolon"]) (alt [
          .ref "export_statement", .ref "property_signature", .ref "call_signature",
          .ref "construct_signature", .ref "index_signature", .ref "method_signature"]),
        opt (alt [",", .ref "_semicolon"])]),
      alt ["\x7d", "|\x7d"]]),
  ("call_signature", .ref "_call_signature"),
  ("property_signature", seq [
      opt (.ref "accessibility_modifier"), opt "static", opt (.ref "override_modifier"),
      opt "readonly", field "name" (.ref "_property_name"), opt "?",
      field "type" (opt (.ref "type_annotation"))]),
  ("_call_signature", seq [
      field "type_parameters" (opt (.ref "type_parameters")),
      field "parameters" (.ref "formal_parameters"),
      field "return_type" (opt (alt [
        .ref "type_annotation", .ref "asserts_annotation", .ref "type_predicate_annotation"]))]),
  ("type_parameters", seq ["<", commas1 (.ref "type_parameter"), opt ",", ">"]),
  ("type_parameter", seq [
      opt "const", field "name" (.ref "_type_identifier"),
      field "constraint" (opt (.ref "constraint")), field "value" (opt (.ref "default_type"))]),
  ("default_type", seq ["=", .ref "type"]),
  ("constraint", seq [alt ["extends", ":"], .ref "type"]),
  ("construct_signature", seq [
      opt "abstract", "new", field "type_parameters" (opt (.ref "type_parameters")),
      field "parameters" (.ref "formal_parameters"), field "type" (opt (.ref "type_annotation"))]),
  ("index_signature", seq [
      opt (seq [field "sign" (opt (alt ["-", "+"])), "readonly"]), "[",
      alt [
        seq [
          field "name" (alt [
            .lex .identifier, renamed "identifier" (.ref "_reserved_identifier")]),
          ":", field "index_type" (.ref "type")],
        .ref "mapped_type_clause"],
      "]",
      field "type" (alt [
        .ref "type_annotation", .ref "omitting_type_annotation", .ref "adding_type_annotation",
        .ref "opting_type_annotation"])]),
  ("array_type", seq [.ref "primary_type", "[", "]"]),
  ("tuple_type", seq ["[", commas (.ref "_tuple_type_member"), opt ",", "]"]),
  ("readonly_type", seq ["readonly", .ref "type"]),
  ("union_type", bindsLeft 0 (seq [opt (.ref "type"), "|", .ref "type"])),
  ("intersection_type", bindsLeft 0 (seq [opt (.ref "type"), "&", .ref "type"])),
  ("function_type", bindsLeft 0 (seq [
      field "type_parameters" (opt (.ref "type_parameters")),
      field "parameters" (.ref "formal_parameters"), "=>",
      field "return_type" (alt [.ref "type", .ref "asserts", .ref "type_predicate"])])),
  ("_type_identifier", renamed "type_identifier" (.lex .identifier)),
  ("_reserved_identifier", alt (softWords ++ typedSoftWords))]

/-- What an expression may be in a typed dialect that has markup. -/
def typedMarkupExpressionForms : List Rule :=
  [.ref "as_expression", .ref "satisfies_expression", .ref "instantiation_expression",
    .ref "internal_module"] ++ expressionForms

/-- What an expression may be in a typed dialect without markup: there a type in angle brackets
before an expression asserts its type. -/
def typedExpressionForms : List Rule :=
  .ref "type_assertion" :: typedMarkupExpressionForms.filter (· != .ref "_jsx_element")

/-- Opening elements of a typed dialect may carry type arguments. -/
def typedMarkupRules : Rules := [
  ("_jsx_start_opening_element", seq [
      "<",
      opt (seq [
        alt [
          field "name" (alt [.ref "_jsx_identifier", .ref "jsx_namespace_name"]),
          seq [
            field "name" (alt [
              .lex .identifier, renamed "member_expression" (.ref "nested_identifier")]),
            field "type_arguments" (opt (.ref "type_arguments"))]],
        many (field "attribute" (.ref "_jsx_attribute"))])]),
  ("jsx_opening_element", weighed (-1) (seq [.ref "_jsx_start_opening_element", ">"])),
  ("jsx_self_closing_element", weighed (-1) (seq [.ref "_jsx_start_opening_element", "/>"]))]

end RefGraph.Script.Grammar

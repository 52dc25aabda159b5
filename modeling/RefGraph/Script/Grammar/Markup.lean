import RefGraph.Script.Rule

/-!
# Markup inside scripts

The rules of elements, attributes and text that may stand where an expression may.
-/

namespace RefGraph.Script.Grammar

open Rule

/-- The rules of markup. -/
def markupRules : Rules := [
  ("_jsx_element", alt [.ref "jsx_element", .ref "jsx_self_closing_element"]),
  ("jsx_element", seq [
      field "open_tag" (.ref "jsx_opening_element"), many (.ref "_jsx_child"),
      field "close_tag" (.ref "jsx_closing_element")]),
  ("jsx_expression", seq [
      "\x7b", opt (alt [.ref "expression", .ref "sequence_expression", .ref "spread_element"]),
      "\x7d"]),
  ("_jsx_child", alt [
      .lex .markupText, .lex .characterReference, .ref "_jsx_element", .ref "jsx_expression"]),
  ("jsx_opening_element", weighed (-1) (seq [
      "<",
      opt (seq [
        field "name" (.ref "_jsx_element_name"), many (field "attribute" (.ref "_jsx_attribute"))]),
      ">"])),
  ("_jsx_identifier", alt [renamed "identifier" (.lex .dashedName), .lex .identifier]),
  ("jsx_namespace_name", seq [.ref "_jsx_identifier", ":", .ref "_jsx_identifier"]),
  ("_jsx_element_name", alt [
      .ref "_jsx_identifier", renamed "member_expression" (.ref "nested_identifier"),
      .ref "jsx_namespace_name"]),
  ("jsx_closing_element", seq ["</", opt (field "name" (.ref "_jsx_element_name")), ">"]),
  ("jsx_self_closing_element", seq [
      "<", field "name" (.ref "_jsx_element_name"),
      many (field "attribute" (.ref "_jsx_attribute")), "/>"]),
  ("_jsx_attribute", alt [.ref "jsx_attribute", .ref "jsx_expression"]),
  ("_jsx_attribute_name", alt [
      renamed "property_identifier" (.ref "_jsx_identifier"), .ref "jsx_namespace_name"]),
  ("jsx_attribute", seq [
      .ref "_jsx_attribute_name", opt (seq ["=", .ref "_jsx_attribute_value"])]),
  ("_jsx_string", alt [
      seq [
        "\"",
        many (alt [
          renamed "string_fragment" (.lex .doubleMarkupFragment), .lex .characterReference]),
        "\""],
      seq [
        "'",
        many (alt [
          renamed "string_fragment" (.lex .singleMarkupFragment), .lex .characterReference]),
        "'"]]),
  ("_jsx_attribute_value", alt [
      renamed "string" (.ref "_jsx_string"), .ref "jsx_expression", .ref "_jsx_element"])]

end RefGraph.Script.Grammar

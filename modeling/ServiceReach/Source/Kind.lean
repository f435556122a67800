/-
  The kinds of node in a Java syntax tree, and the fields under which a node stands in its parent.
  Only the kinds and fields that the index looks at have names of their own; the others keep the
  symbol of the grammar.
-/

namespace ServiceReach.Source

/-- The kind of a syntax node. -/
inductive Kind where
  | identifier
  | scopedIdentifier
  | asterisk
  | modifiers
  | typeList
  | lineComment
  | blockComment
  | packageDeclaration
  | importDeclaration
  | classDeclaration
  | interfaceDeclaration
  | enumDeclaration
  | recordDeclaration
  | extendsInterfaces
  | superclass
  | superInterfaces
  | classBody
  | enumBodyDeclarations
  | fieldDeclaration
  | constantDeclaration
  | methodDeclaration
  | constructorDeclaration
  | staticInitializer
  | formalParameter
  | spreadParameter
  | variableDeclarator
  | block
  | constructorBody
  | labeledStatement
  | localVariableDeclaration
  | returnStatement
  | doStatement
  | ifStatement
  | whileStatement
  | forStatement
  | enhancedForStatement
  | synchronizedStatement
  | tryStatement
  | tryWithResourcesStatement
  | catchClause
  | catchFormalParameter
  | catchType
  | finallyClause
  | switchExpression
  | switchStatement
  | switchBlock
  | switchBlockStatementGroup
  | switchRule
  | switchLabel
  | decimalIntegerLiteral
  | hexIntegerLiteral
  | octalIntegerLiteral
  | binaryIntegerLiteral
  | decimalFloatingPointLiteral
  | hexFloatingPointLiteral
  | trueLiteral
  | falseLiteral
  | characterLiteral
  | stringLiteral
  | textBlock
  | nullLiteral
  | thisExpression
  | superExpression
  | parenthesizedExpression
  | castExpression
  | objectCreationExpression
  | arrayCreationExpression
  | methodInvocation
  | explicitConstructorInvocation
  | fieldAccess
  | arrayAccess
  | ternaryExpression
  | assignmentExpression
  | instanceofExpression
  | classLiteral
  | binaryExpression
  | lambdaExpression
  | staticKeyword
  /-- Any other symbol of the grammar, keywords and operators included. -/
  | other (symbol : String)
deriving DecidableEq, Repr

/-- The kind with a given symbol. -/
def Kind.ofSymbol (symbol : String) : Kind :=
  match symbol with
  | "identifier" => .identifier
  | "scoped_identifier" => .scopedIdentifier
  | "asterisk" => .asterisk
  | "modifiers" => .modifiers
  | "type_list" => .typeList
  | "line_comment" => .lineComment
  | "block_comment" => .blockComment
  | "package_declaration" => .packageDeclaration
  | "import_declaration" => .importDeclaration
  | "class_declaration" => .classDeclaration
  | "interface_declaration" => .interfaceDeclaration
  | "enum_declaration" => .enumDeclaration
  | "record_declaration" => .recordDeclaration
  | "extends_interfaces" => .extendsInterfaces
  | "superclass" => .superclass
  | "super_interfaces" => .superInterfaces
  | "class_body" => .classBody
  | "enum_body_declarations" => .enumBodyDeclarations
  | "field_declaration" => .fieldDeclaration
  | "constant_declaration" => .constantDeclaration
  | "method_declaration" => .methodDeclaration
  | "constructor_declaration" => .constructorDeclaration
  | "static_initializer" => .staticInitializer
  | "formal_parameter" => .formalParameter
  | "spread_parameter" => .spreadParameter
  | "variable_declarator" => .variableDeclarator
  | "block" => .block
  | "constructor_body" => .constructorBody
  | "labeled_statement" => .labeledStatement
  | "local_variable_declaration" => .localVariableDeclaration
  | "return_statement" => .returnStatement
  | "do_statement" => .doStatement
  | "if_statement" => .ifStatement
  | "while_statement" => .whileStatement
  | "for_statement" => .forStatement
  | "enhanced_for_statement" => .enhancedForStatement
  | "synchronized_statement" => .synchronizedStatement
  | "try_statement" => .tryStatement
  | "try_with_resources_statement" => .tryWithResourcesStatement
  | "catch_clause" => .catchClause
  | "catch_formal_parameter" => .catchFormalParameter
  | "catch_type" => .catchType
  | "finally_clause" => .finallyClause
  | "switch_expression" => .switchExpression
  | "switch_statement" => .switchStatement
  | "switch_block" => .switchBlock
  | "switch_block_statement_group" => .switchBlockStatementGroup
  | "switch_rule" => .switchRule
  | "switch_label" => .switchLabel
  | "decimal_integer_literal" => .decimalIntegerLiteral
  | "hex_integer_literal" => .hexIntegerLiteral
  | "octal_integer_literal" => .octalIntegerLiteral
  | "binary_integer_literal" => .binaryIntegerLiteral
  | "decimal_floating_point_literal" => .decimalFloatingPointLiteral
  | "hex_floating_point_literal" => .hexFloatingPointLiteral
  | "true" => .trueLiteral
  | "false" => .falseLiteral
  | "character_literal" => .characterLiteral
  | "string_literal" => .stringLiteral
  | "text_block" => .textBlock
  | "null_literal" => .nullLiteral
  | "this" => .thisExpression
  | "super" => .superExpression
  | "parenthesized_expression" => .parenthesizedExpression
  | "cast_expression" => .castExpression
  | "object_creation_expression" => .objectCreationExpression
  | "array_creation_expression" => .arrayCreationExpression
  | "method_invocation" => .methodInvocation
  | "explicit_constructor_invocation" => .explicitConstructorInvocation
  | "field_access" => .fieldAccess
  | "array_access" => .arrayAccess
  | "ternary_expression" => .ternaryExpression
  | "assignment_expression" => .assignmentExpression
  | "instanceof_expression" => .instanceofExpression
  | "class_literal" => .classLiteral
  | "binary_expression" => .binaryExpression
  | "lambda_expression" => .lambdaExpression
  | "static" => .staticKeyword
  | symbol => .other symbol

/-- The symbol of a kind in the grammar. -/
def Kind.symbol : Kind → String
  | .identifier => "identifier"
  | .scopedIdentifier => "scoped_identifier"
  | .asterisk => "asterisk"
  | .modifiers => "modifiers"
  | .typeList => "type_list"
  | .lineComment => "line_comment"
  | .blockComment => "block_comment"
  | .packageDeclaration => "package_declaration"
  | .importDeclaration => "import_declaration"
  | .classDeclaration => "class_declaration"
  | .interfaceDeclaration => "interface_declaration"
  | .enumDeclaration => "enum_declaration"
  | .recordDeclaration => "record_declaration"
  | .extendsInterfaces => "extends_interfaces"
  | .superclass => "superclass"
  | .superInterfaces => "super_interfaces"
  | .classBody => "class_body"
  | .enumBodyDeclarations => "enum_body_declarations"
  | .fieldDeclaration => "field_declaration"
  | .constantDeclaration => "constant_declaration"
  | .methodDeclaration => "method_declaration"
  | .constructorDeclaration => "constructor_declaration"
  | .staticInitializer => "static_initializer"
  | .formalParameter => "formal_parameter"
  | .spreadParameter => "spread_parameter"
  | .variableDeclarator => "variable_declarator"
  | .block => "block"
  | .constructorBody => "constructor_body"
  | .labeledStatement => "labeled_statement"
  | .localVariableDeclaration => "local_variable_declaration"
  | .returnStatement => "return_statement"
  | .doStatement => "do_statement"
  | .ifStatement => "if_statement"
  | .whileStatement => "while_statement"
  | .forStatement => "for_statement"
  | .enhancedForStatement => "enhanced_for_statement"
  | .synchronizedStatement => "synchronized_statement"
  | .tryStatement => "try_statement"
  | .tryWithResourcesStatement => "try_with_resources_statement"
  | .catchClause => "catch_clause"
  | .catchFormalParameter => "catch_formal_parameter"
  | .catchType => "catch_type"
  | .finallyClause => "finally_clause"
  | .switchExpression => "switch_expression"
  | .switchStatement => "switch_statement"
  | .switchBlock => "switch_block"
  | .switchBlockStatementGroup => "switch_block_statement_group"
  | .switchRule => "switch_rule"
  | .switchLabel => "switch_label"
  | .decimalIntegerLiteral => "decimal_integer_literal"
  | .hexIntegerLiteral => "hex_integer_literal"
  | .octalIntegerLiteral => "octal_integer_literal"
  | .binaryIntegerLiteral => "binary_integer_literal"
  | .decimalFloatingPointLiteral => "decimal_floating_point_literal"
  | .hexFloatingPointLiteral => "hex_floating_point_literal"
  | .trueLiteral => "true"
  | .falseLiteral => "false"
  | .characterLiteral => "character_literal"
  | .stringLiteral => "string_literal"
  | .textBlock => "text_block"
  | .nullLiteral => "null_literal"
  | .thisExpression => "this"
  | .superExpression => "super"
  | .parenthesizedExpression => "parenthesized_expression"
  | .castExpression => "cast_expression"
  | .objectCreationExpression => "object_creation_expression"
  | .arrayCreationExpression => "array_creation_expression"
  | .methodInvocation => "method_invocation"
  | .explicitConstructorInvocation => "explicit_constructor_invocation"
  | .fieldAccess => "field_access"
  | .arrayAccess => "array_access"
  | .ternaryExpression => "ternary_expression"
  | .assignmentExpression => "assignment_expression"
  | .instanceofExpression => "instanceof_expression"
  | .classLiteral => "class_literal"
  | .binaryExpression => "binary_expression"
  | .lambdaExpression => "lambda_expression"
  | .staticKeyword => "static"
  | .other symbol => symbol

/-- The field under which a node stands in its parent. -/
inductive Field where
  | name
  | body
  | type
  | declarator
  | parameters
  | condition
  | consequence
  | alternative
  | value
  | resources
  | init
  | arguments
  | constructor
  | object
  | field
  | array
  | left
  | right
  | operator
  /-- Any other field. -/
  | other (name : String)
deriving DecidableEq, Repr

/-- The field with a given name. -/
def Field.ofName (name : String) : Field :=
  match name with
  | "name" => .name
  | "body" => .body
  | "type" => .type
  | "declarator" => .declarator
  | "parameters" => .parameters
  | "condition" => .condition
  | "consequence" => .consequence
  | "alternative" => .alternative
  | "value" => .value
  | "resources" => .resources
  | "init" => .init
  | "arguments" => .arguments
  | "constructor" => .constructor
  | "object" => .object
  | "field" => .field
  | "array" => .array
  | "left" => .left
  | "right" => .right
  | "operator" => .operator
  | name => .other name

end ServiceReach.Source

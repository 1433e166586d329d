/-
The built-in schema for ESTree-shaped JavaScript trees: ES2022 and its JSX extension. The fields of a kind are in the
order in which they appear in source, which is the order in which they are visited. `TemplateLiteral` is the one
exception: ESTree keeps its quasis and its expressions in separate arrays, so they are visited as two runs.
-/
import Arbor.Schema.Table

namespace Arbor.Estree

/-- a field with at most one child -/
def optional (name : String) : Field := ⟨name, .optional⟩

/-- a field with exactly one child -/
def single (name : String) : Field := ⟨name, .single⟩

/-- a field with a sequence of children -/
def many (name : String) : Field := ⟨name, .many⟩

/-- the node kinds of ESTree with their child fields -/
def table : Table := ⟨#[
  ("ArrayExpression", [many "elements"]),
  ("ArrayPattern", [many "elements"]),
  ("ArrowFunctionExpression", [many "params", single "body"]),
  ("AssignmentExpression", [single "left", single "right"]),
  ("AssignmentPattern", [single "left", single "right"]),
  ("AwaitExpression", [single "argument"]),
  ("BinaryExpression", [single "left", single "right"]),
  ("BlockStatement", [many "body"]),
  ("BreakStatement", [optional "label"]),
  ("CallExpression", [single "callee", many "arguments"]),
  ("CatchClause", [optional "param", single "body"]),
  ("ChainExpression", [single "expression"]),
  ("ClassBody", [many "body"]),
  ("ClassDeclaration", [optional "id", optional "superClass", single "body"]),
  ("ClassExpression", [optional "id", optional "superClass", single "body"]),
  ("ConditionalExpression", [single "test", single "consequent", single "alternate"]),
  ("ContinueStatement", [optional "label"]),
  ("DebuggerStatement", []),
  ("DoWhileStatement", [single "body", single "test"]),
  ("EmptyStatement", []),
  ("ExportAllDeclaration", [optional "exported", single "source", many "attributes"]),
  ("ExportDefaultDeclaration", [single "declaration"]),
  ("ExportNamedDeclaration", [optional "declaration", many "specifiers", optional "source", many "attributes"]),
  ("ExportSpecifier", [single "local", single "exported"]),
  ("ExpressionStatement", [single "expression"]),
  ("ForInStatement", [single "left", single "right", single "body"]),
  ("ForOfStatement", [single "left", single "right", single "body"]),
  ("ForStatement", [optional "init", optional "test", optional "update", single "body"]),
  ("FunctionDeclaration", [optional "id", many "params", single "body"]),
  ("FunctionExpression", [optional "id", many "params", single "body"]),
  ("Identifier", []),
  ("IfStatement", [single "test", single "consequent", optional "alternate"]),
  ("ImportAttribute", [single "key", single "value"]),
  ("ImportDeclaration", [many "specifiers", single "source", many "attributes"]),
  ("ImportDefaultSpecifier", [single "local"]),
  ("ImportExpression", [single "source", optional "options"]),
  ("ImportNamespaceSpecifier", [single "local"]),
  ("ImportSpecifier", [single "imported", single "local"]),
  ("JSXAttribute", [single "name", optional "value"]),
  ("JSXClosingElement", [single "name"]),
  ("JSXClosingFragment", []),
  ("JSXElement", [single "openingElement", many "children", optional "closingElement"]),
  ("JSXEmptyExpression", []),
  ("JSXExpressionContainer", [single "expression"]),
  ("JSXFragment", [single "openingFragment", many "children", single "closingFragment"]),
  ("JSXIdentifier", []),
  ("JSXMemberExpression", [single "object", single "property"]),
  ("JSXNamespacedName", [single "namespace", single "name"]),
  ("JSXOpeningElement", [single "name", many "attributes"]),
  ("JSXOpeningFragment", []),
  ("JSXSpreadAttribute", [single "argument"]),
  ("JSXSpreadChild", [single "expression"]),
  ("JSXText", []),
  ("LabeledStatement", [single "label", single "body"]),
  ("Literal", []),
  ("LogicalExpression", [single "left", single "right"]),
  ("MemberExpression", [single "object", single "property"]),
  ("MetaProperty", [single "meta", single "property"]),
  ("MethodDefinition", [single "key", single "value"]),
  ("NewExpression", [single "callee", many "arguments"]),
  ("ObjectExpression", [many "properties"]),
  ("ObjectPattern", [many "properties"]),
  ("ParenthesizedExpression", [single "expression"]),
  ("PrivateIdentifier", []),
  ("Program", [many "body"]),
  ("Property", [single "key", single "value"]),
  ("PropertyDefinition", [single "key", optional "value"]),
  ("RestElement", [single "argument"]),
  ("ReturnStatement", [optional "argument"]),
  ("SequenceExpression", [many "expressions"]),
  ("SpreadElement", [single "argument"]),
  ("StaticBlock", [many "body"]),
  ("Super", []),
  ("SwitchCase", [optional "test", many "consequent"]),
  ("SwitchStatement", [single "discriminant", many "cases"]),
  ("TaggedTemplateExpression", [single "tag", single "quasi"]),
  ("TemplateElement", []),
  ("TemplateLiteral", [many "quasis", many "expressions"]),
  ("ThisExpression", []),
  ("ThrowStatement", [single "argument"]),
  ("TryStatement", [single "block", optional "handler", optional "finalizer"]),
  ("UnaryExpression", [single "argument"]),
  ("UpdateExpression", [single "argument"]),
  ("VariableDeclaration", [many "declarations"]),
  ("VariableDeclarator", [single "id", optional "init"]),
  ("WhileStatement", [single "test", single "body"]),
  ("WithStatement", [single "object", single "body"]),
  ("YieldExpression", [optional "argument"])]⟩

/-- the built-in schema -/
def schema : Schema := table.toSchema

end Arbor.Estree

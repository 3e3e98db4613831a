/-
# ClassChart.Tree — the concrete syntax tree of a unit

Every significant token that was read is kept as a leaf, grouped under nodes labelled with the
grammar rule that read them. Bodies and initializers are single leaves. Whoever reads a tree asks the
queries of this module: immediate children by kind or by rule, all descendants by rule, and all
leaves.
-/
import ClassChart.Token

namespace ClassChart

/-! ## Rules -/

/-- The grammar rules that label nodes. -/
inductive Rule where
  | compilationUnit
  | importDecl
  | namespaceDecl
  | classDecl
  | enumDecl
  | enumBody
  | enumValue
  | baseList
  | modifier
  | attrDecl
  | accessorList
  | accessor
  | methodDecl
  | returnType
  | params
  | param
  | defaultValue
  | typeName
deriving DecidableEq, Repr

namespace Rule

/-- The grammar name of the rule. -/
def name : Rule → String
  | compilationUnit => "compilation_unit"
  | importDecl => "import"
  | namespaceDecl => "namespace_decl"
  | classDecl => "class_decl"
  | enumDecl => "enum_decl"
  | enumBody => "enum_body"
  | enumValue => "enum_value"
  | baseList => "base_list"
  | modifier => "modifier"
  | attrDecl => "attr_decl"
  | accessorList => "accessor_list"
  | accessor => "accessor"
  | methodDecl => "method_decl"
  | returnType => "return_type"
  | params => "params"
  | param => "param"
  | defaultValue => "default_value"
  | typeName => "type_name"

end Rule

/-! ## Trees -/

/-- A token, or a rule with what it read in source order. -/
inductive Tree where
  | leaf (token : Token)
  | node (rule : Rule) (children : List Tree)
deriving Repr

namespace Tree

/-- The token of a leaf. -/
def token? : Tree → Option Token
  | leaf t => some t
  | node _ _ => none

/-- The rule of a node. -/
def rule? : Tree → Option Rule
  | leaf _ => none
  | node r _ => some r

/-- The children of a node; a leaf has none. -/
def children : Tree → List Tree
  | leaf _ => []
  | node _ cs => cs

mutual

/-- The span of a tree: that of its token, or from the start of its first child to the end of its
last. A node without children has the empty span. -/
def span : Tree → Span
  | leaf t => t.span
  | node _ cs =>
    match spans cs with
    | [] => Span.empty
    | first :: more => first.union ((first :: more).getLast (List.cons_ne_nil first more))

/-- The spans of several trees. -/
def spans : List Tree → List Span
  | [] => []
  | t :: ts => t.span :: spans ts

end

mutual

/-- The tree in nested form, a rule name before its children and a leaf as its text:
`(attr_decl (modifier public) (type_name int) x ;)`. -/
def render : Tree → String
  | leaf t => t.text
  | node r cs => "(" ++ r.name ++ renderAll cs ++ ")"

/-- Several trees, each after a space. -/
def renderAll : List Tree → String
  | [] => ""
  | t :: ts => " " ++ t.render ++ renderAll ts

end

/-! ## Immediate children -/

/-- The first leaf of the given kind among the immediate children. -/
def childToken? (t : Tree) (kind : TokenKind) : Option Token :=
  (t.children.filterMap token?).find? (·.isKind kind)

/-- The first node of the given rule among the immediate children. -/
def childNode? (t : Tree) (rule : Rule) : Option Tree :=
  t.children.find? fun c => c.rule? == some rule

/-- The nodes of the given rule among the immediate children. -/
def childNodes (t : Tree) (rule : Rule) : List Tree :=
  t.children.filter fun c => c.rule? == some rule

/-! ## Whole subtrees -/

mutual

/-- The leaves of a tree in source order. -/
def leaves : Tree → List Token
  | leaf t => [t]
  | node _ cs => leavesAll cs

/-- The leaves of several trees in source order. -/
def leavesAll : List Tree → List Token
  | [] => []
  | t :: ts => t.leaves ++ leavesAll ts

end

mutual

/-- Every node and leaf of a tree, a node before its children. -/
def preorder : Tree → List Tree
  | leaf t => [leaf t]
  | node r cs => node r cs :: preorderAll cs

/-- Every node and leaf of several trees. -/
def preorderAll : List Tree → List Tree
  | [] => []
  | t :: ts => t.preorder ++ preorderAll ts

end

mutual

/-- Adds the nodes of the given rule in a tree behind those already found, a node before those
inside it. -/
def collect (rule : Rule) (found : List Tree) : Tree → List Tree
  | leaf _ => found
  | node r cs => collectAll rule (if r = rule then found ++ [node r cs] else found) cs

/-- Adds the nodes of the given rule in several trees behind those already found. -/
def collectAll (rule : Rule) (found : List Tree) : List Tree → List Tree
  | [] => found
  | t :: ts => collectAll rule (collect rule found t) ts

end

/-- Every node of the given rule in a tree, the tree itself included, in source order. -/
def descendants (t : Tree) (rule : Rule) : List Tree := collect rule [] t

end Tree

end ClassChart

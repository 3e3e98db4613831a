/-
# ClassChart.Extract — the model of a tree

`Extract.model` walks a unit from left to right and gives one entity for each class and enum, in the
order of their declarations. It finds what it needs through the queries of trees. On trees that were
read from a source every lookup succeeds; a tree made by other means may lack a part, and then the
first missing one is reported.
-/
import ClassChart.Diagnostic
import ClassChart.Extract.Facts
import ClassChart.Grammar.Unit
import ClassChart.Policy
import ClassChart.Warning

namespace ClassChart.Extract

open ClassChart.Tree

/-! ## Failures -/

/-- Why a tree has no model. -/
inductive Failure where
  /-- A node lacks a part. -/
  | missing (rule : Rule) (expected : String) (span : Span)
  /-- A parameter default is unsupported, and the policy rejects such. -/
  | unsupported (value : UnsupportedDefault)
deriving DecidableEq, Repr

namespace Failure

/-- The failure in words. -/
def message : Failure → String
  | missing rule expected _ => "`" ++ rule.name ++ "` has no " ++ expected
  | unsupported value => value.message

/-- The failure as a diagnostic. -/
def diagnostic : Failure → Diagnostic
  | missing rule expected span =>
    { message := "internal error: " ++ (missing rule expected span).message
      code := some .missingNode
      labels := [⟨span, "expected a " ++ expected ++ " here", true⟩]
      help := some ("the declaration is valid but the extractor could not read it; "
        ++ "this is a bug in classmap, please report it") }
  | unsupported value =>
    { message := value.message
      code := some .unsupportedDefault
      labels := [⟨value.span, value.kind.describe ++ " default", true⟩]
      help := some "only signed integer and string literals are supported as parameter defaults" }

end Failure

/-! ## Required parts -/

/-- The failure that a node lacks a part. (A leaf is never asked; it counts as a unit.) -/
def lacks (t : Tree) (expected : String) : Failure :=
  .missing (t.rule?.getD .compilationUnit) expected t.span

/-- The text of the first immediate leaf of the given kind, or the failure that it is missing. -/
def requiredToken (t : Tree) (kind : TokenKind) (expected : String) : Except Failure String :=
  match t.childToken? kind with
  | some found => .ok found.text
  | none => .error (lacks t expected)

/-- The text of the type of a declaration, or the failure that it is missing. -/
def requiredType (t : Tree) (expected : String) : Except Failure String :=
  match typeText? t .typeName with
  | some text => .ok text
  | none => .error (lacks t expected)

/-! ## Members -/

/-- An attribute of a class. -/
def attributeOf (decl : Tree) : Except Failure Attribute := do
  let name ← requiredToken decl .identifier "attribute name"
  let typeName ← requiredType decl "attribute type"
  let initial := (initializer? decl.children).map fun value =>
    String.ofList (stripTerminator value.text.toList)
  pure ⟨name, typeName, visibility decl, initial⟩

/-- The default of the parameter `name` under a policy, with the warning if it is dropped. -/
def supported (policy : DefaultPolicy) (name : String) (param : Tree) :
    Except Failure (Option String × List Warning) :=
  match default? param with
  | .ok value => .ok (value, [])
  | .error value =>
    match policy with
    | .drop => .ok (none, [.droppedDefault name value.text value.kind])
    | .keep => .ok (some value.text, [])
    | .reject => .error (.unsupported value)

/-- A parameter of a method. -/
def parameterOf (policy : DefaultPolicy) (param : Tree) : Except Failure (Parameter × List Warning) := do
  let name ← requiredToken param .identifier "parameter name"
  let typeName ← requiredType param "parameter type"
  let (value, warnings) ← supported policy name param
  pure (⟨name, typeName, direction param, value⟩, warnings)

/-- Collects several results with their warnings. -/
def gather (results : List (α × List Warning)) : List α × List Warning :=
  (results.map (·.1), results.flatMap (·.2))

/-- The parameter nodes of a method. -/
def parameterNodes (method : Tree) : List Tree :=
  match method.childNode? .params with
  | some params => params.descendants .param
  | none => []

/-- A method of a class. -/
def methodOf (policy : DefaultPolicy) (decl : Tree) : Except Failure (Method × List Warning) := do
  let name ← requiredToken decl .identifier "method name"
  let (parameters, warnings) := gather (← (parameterNodes decl).mapM (parameterOf policy))
  pure (⟨name, typeText? decl .returnType, visibility decl, parameters⟩, warnings)

/-! ## Entities -/

/-- A class with its attributes and methods. -/
def classEntity (policy : DefaultPolicy) (scope : String) (decl : Tree) :
    Except Failure (Entity × List Warning) := do
  let name ← requiredToken decl .identifier "class name"
  let attributes ← (decl.descendants .attrDecl).mapM attributeOf
  let (methods, warnings) := gather (← (decl.descendants .methodDecl).mapM (methodOf policy))
  pure (⟨⟨scope, name⟩, .ofClass attributes methods⟩, warnings)

/-- An enum with its values. -/
def enumEntity (scope : String) (decl : Tree) : Except Failure (Entity × List Warning) := do
  let name ← requiredToken decl .identifier "enum name"
  match decl.childNode? .enumBody with
  | none => .error (.missing .enumDecl "enum body" decl.span)
  | some body =>
    let values ← (body.descendants .enumValue).mapM (requiredToken · .identifier "enum member name")
    pure (⟨⟨scope, name⟩, .ofEnum values⟩, [])

/-- The entity that an immediate child of a namespace declares, if it declares one. -/
def declared (policy : DefaultPolicy) (scope : String) (child : Tree) :
    Except Failure (List Entity × List Warning) :=
  match child.rule? with
  | some .classDecl => (classEntity policy scope child).map fun (e, warnings) => ([e], warnings)
  | some .enumDecl => (enumEntity scope child).map fun (e, warnings) => ([e], warnings)
  | _ => .ok ([], [])

/-- The entities of a namespace. -/
def namespaceEntities (policy : DefaultPolicy) (decl : Tree) :
    Except Failure (List Entity × List Warning) := do
  let scope ← requiredToken decl .identifier "namespace name"
  let (entities, warnings) := gather (← decl.children.mapM (declared policy scope))
  pure (entities.flatten, warnings)

/-- The model of a unit, with the warnings in source order. -/
def model (policy : DefaultPolicy) (unit : Tree) : Except Failure (Model × List Warning) := do
  let (parts, warnings) :=
    gather (← (unit.descendants .namespaceDecl).mapM (namespaceEntities policy))
  pure (parts.flatten, warnings)

end ClassChart.Extract

namespace ClassChart

/-! ## Source texts -/

/-- A source text without the byte order mark at its start. -/
def stripMark (source : String) : String :=
  match source.toList with
  | '\uFEFF' :: rest => String.ofList rest
  | _ => source

/-- The model of a source text, with its warnings: tokens, tree, entities. A byte order mark at the
start does not count, and positions in diagnostics are those behind it. -/
def parse (policy : DefaultPolicy) (source : String) : Except ParseError (Model × List Warning) :=
  match Grammar.parseTree (stripMark source) with
  | .error error => .error error
  | .ok tree =>
    match Extract.model policy tree with
    | .error failure => .error (.single failure.diagnostic)
    | .ok result => .ok result

end ClassChart

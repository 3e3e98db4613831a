/-
# ClassChart.Grammar.Unit — declarations and whole units

The rules from class and enum declarations up to the unit, and `parseTree`, which reads a source text
into its tree. Reading stops at the first token that no declaration admits; the report names it, what
was expected in its place, and where the declaration began that it broke.
-/
import ClassChart.Grammar.Member
import ClassChart.Token.Stream

namespace ClassChart.Grammar

open Reader

/-! ## Classes -/

/-- `base_list := ":" type_name ("," type_name)*` -/
def baseList : Reader :=
  node .baseList (mark ":" ++ typeName ++ whileNext (nextIsMark ",") (mark "," ++ typeName))

/-- `class_decl := modifier? "partial"? "class" IDENT base_list? "{" member* "}" ";"?`, committed from
the keyword on. -/
def classDecl (source : List Char) : Reader :=
  node .classDecl
    (optionalModifier
      ++ ifNext (·.isKind .partialKeyword) (keyword .partialKeyword)
      ++ keyword .classKeyword
      ++ committed
        (identifier ++ attempt baseList ++ expectMark "\x7b" .classBody
          ++ whileNext (fun next => !nextIsMark "\x7d" next) (member source) ++ mark "\x7d"
          ++ ifNext (·.isMark ";") (mark ";")))

/-! ## Enums -/

/-- `enum_value := IDENT ("=" (INTEGER | NUMBER))?` -/
def enumValue : Reader :=
  node .enumValue
    (identifier
      ++ ifNext (·.isMark "=")
        (mark "=" ++ token (fun t => t.isKind .integerLiteral || t.isKind .numberLiteral)
          (some .enumNumber)))

/-- A value of an enum, unless the enum ends. -/
def optionalEnumValue : Reader :=
  byNext fun next => if nextIsMark "\x7d" next then nothing else enumValue

/-- `enum_body := (enum_value ",")* enum_value?` -/
def enumBody : Reader :=
  node .enumBody
    (byNext fun next =>
      if nextIsMark "\x7d" next then nothing
      else enumValue ++ whileNext (nextIsMark ",") (mark "," ++ optionalEnumValue))

/-- `enum_decl := modifier? "enum" IDENT (":" IDENT)? "{" enum_body "}" ";"?`, committed from the
keyword on. -/
def enumDecl : Reader :=
  node .enumDecl
    (optionalModifier
      ++ keyword .enumKeyword
      ++ committed
        (identifier ++ ifNext (·.isMark ":") (mark ":" ++ identifier)
          ++ expectMark "\x7b" .enumBody ++ enumBody ++ expectMark "\x7d" .enumEnd
          ++ ifNext (·.isMark ";") (mark ";")))

/-! ## Units -/

/-- The first token that is neither a modifier nor `partial`: the keyword of a type declaration. -/
def declarationKeyword? (ts : List Token) : Option TokenKind :=
  (ts.find? fun t => !isModifier t && !t.isKind .partialKeyword).map (·.kind)

/-- `type_decl := class_decl | enum_decl`, told apart by the keyword behind the modifiers. -/
def typeDecl (source : List Char) : Reader := fun ts =>
  match declarationKeyword? ts with
  | some .classKeyword => classDecl source ts
  | some .enumKeyword => enumDecl ts
  | _ => refuse (some .typeDeclaration) ts

/-- `namespace_decl := "namespace" IDENT ("{" type_decl* "}" | ";" type_decl*)`. The declarations after
a semicolon run to the next namespace or the end. -/
def namespaceDecl (source : List Char) : Reader :=
  node .namespaceDecl
    (token (·.isKind .namespaceKeyword) (some .namespaceDeclaration)
      ++ committed
        (identifier
          ++ byNext fun next =>
            if nextIsMark ";" next then
              semicolon
                ++ whileNext (fun next => next.any (!·.isKind .namespaceKeyword))
                  (committed (typeDecl source))
            else
              expectMark "\x7b" .namespaceBody
                ++ whileNext (fun next => !nextIsMark "\x7d" next) (committed (typeDecl source))
                ++ mark "\x7d"))

/-- `import := "using" "static"? IDENT ";"`, committed from the keyword on. -/
def importDecl : Reader :=
  node .importDecl
    (keyword .usingKeyword
      ++ committed
        (ifNext (·.isKind .staticKeyword) (keyword .staticKeyword) ++ identifier ++ semicolon))

/-- `unit := import* namespace_decl+`, the parts of a unit up to the last token. -/
def unitParts (source : List Char) : Reader :=
  whileNext (nextIsKind .usingKeyword) importDecl
    ++ committed (namespaceDecl source)
    ++ whileNext (·.isSome) (committed (namespaceDecl source))

/-! ## Refusals as diagnostics -/

/-- The report of a refusal while reading the given tokens. A unit that ends too early is marked
behind its last token; otherwise the refused token is marked, and the start of the construct it broke
when that lies before it. -/
def Refusal.diagnostic (refusal : Refusal) (tokens : List Token) : Diagnostic :=
  match refusal.rest with
  | [] =>
    let stop := match tokens.getLast? with
      | some last => last.span.stop
      | none => 0
    { message := match refusal.expected with
        | some expectation => "unexpected end of input: expected " ++ expectation.describe
        | none => "unexpected end of input"
      code := some .incompleteInput
      labels := [⟨⟨stop, stop⟩, ErrorCode.incompleteInput.description, true⟩]
      help := some "the unit ends before the declaration is complete" }
  | found :: later =>
    let isTypeMissing := refusal.expected = some .typeDeclaration
    let primary : Label := ⟨found.span, "unexpected `" ++ found.text ++ "`", true⟩
    let secondary := match refusal.construct with
      | some (start :: more) =>
        if later.length < more.length then [⟨start.span, "while parsing this declaration", false⟩]
        else []
      | _ => []
    { message := match refusal.expected with
        | some expectation => "unexpected token: expected " ++ expectation.describe
        | none => "unexpected token `" ++ found.text ++ "`"
      code := some (if isTypeMissing then .expectedTypeDeclaration else .unexpectedToken)
      labels := primary :: secondary
      help := if isTypeMissing then some "only classes and enums may appear inside a namespace"
        else none }

/-- The tree of a unit with the given tokens, which were read from the given source. -/
def buildTree (source : List Char) (tokens : List Token) : Except Diagnostic Tree :=
  match unitParts source tokens with
  | .ok parts _ => .ok (.node .compilationUnit parts)
  | .plain refusal => .error (refusal.diagnostic tokens)
  | .final refusal => .error (refusal.diagnostic tokens)

/-- The tree of a source text, or every lexical problem of it, or its first grammatical one. -/
def parseTree (source : String) : Except ParseError Tree :=
  match tokenize source with
  | .error error => .error error
  | .ok tokens =>
    match buildTree source.toList tokens with
    | .error diagnostic => .error (.single diagnostic)
    | .ok tree => .ok tree

end ClassChart.Grammar

/-
# ClassChart.Grammar.Member — types and the members of classes

The rules for type expressions, parameters, methods, accessors and attributes. A member is read as a
method first; until the parenthesis after its name is seen nothing is settled, and a member that is
no method is read again as an attribute.
-/
import ClassChart.Grammar.Region

namespace ClassChart.Grammar

open Reader

/-! ## Modifiers and types -/

/-- Whether the token is a visibility keyword or `static`. -/
def isModifier (t : Token) : Bool := t.isKind .visibility || t.isKind .staticKeyword

/-- `modifier := (VISIBILITY | "static"){1,2}`, where there is one. -/
def optionalModifier : Reader :=
  ifNext isModifier (node .modifier (token isModifier none ++ ifNext isModifier (token isModifier none)))

/-- `type_name := IDENT ("<" type_name ("," type_name)* ">")? "?"? ("[" ","* "]")*`, for types nested
less than `depth` deep. -/
def typeNameWithin : Nat → Reader
  | 0 => refuse none
  | depth + 1 =>
    node .typeName
      (identifier
        ++ ifNext (·.isMark "<")
          (mark "<" ++ typeNameWithin depth
            ++ whileNext (nextIsMark ",") (mark "," ++ typeNameWithin depth)
            ++ expectMark ">" .typeArgumentsEnd)
        ++ ifNext (·.isMark "?") (mark "?")
        ++ whileNext (nextIsMark "[")
          (mark "[" ++ whileNext (nextIsMark ",") (mark ",") ++ expectMark "]" .rankEnd))

/-- A type expression. Each level of nesting takes a token, so the number of tokens bounds the depth. -/
def typeName : Reader := fun ts => typeNameWithin (ts.length + 1) ts

/-! ## Parameters -/

/-- Whether a parameter default may consist of the token. -/
def isDefaultValue (t : Token) : Bool :=
  t.isKind .integerLiteral || t.isKind .stringLiteral || t.isKind .numberLiteral
    || t.isKind .charLiteral || t.isKind .identifier

/-- `default_value := INTEGER | STRING | NUMBER | CHAR | IDENT` -/
def defaultValue : Reader := node .defaultValue (token isDefaultValue (some .defaultValue))

/-- `param := ("out" | "ref")? type_name IDENT ("=" default_value)?` -/
def param : Reader :=
  node .param
    (ifNext (·.isKind .direction) (keyword .direction) ++ typeName ++ identifier
      ++ ifNext (·.isMark "=") (mark "=" ++ defaultValue))

/-- `params := param ("," param)*` -/
def params : Reader := node .params (param ++ whileNext (nextIsMark ",") (mark "," ++ param))

/-! ## Methods -/

/-- `return_type := "void" | type_name` -/
def returnType : Reader :=
  node .returnType
    (byNext fun next => if nextIsKind .voidKeyword next then keyword .voidKeyword else typeName)

/-- `method_decl := modifier? "override"? return_type? IDENT "(" params? ")" (body | "=>" value_literal)`,
committed from the parenthesis on. -/
def methodDecl (source : List Char) : Reader :=
  node .methodDecl
    (optionalModifier
      ++ ifNext (·.isKind .overrideKeyword) (keyword .overrideKeyword)
      ++ orElse (returnType ++ identifier ++ mark "(") (identifier ++ mark "(")
      ++ committed
        (byNext (fun next => if nextIsMark ")" next then nothing else params)
          ++ expectMark ")" .parametersEnd
          ++ byNext fun next =>
            if nextIsMark "=>" next then mark "=>" ++ valueLiteral source
            else body source (some .methodBody)))

/-! ## Attributes -/

/-- Whether the token names an accessor. -/
def isAccessorName (t : Token) : Bool :=
  t.isKind .identifier && (t.text == "get" || t.text == "set" || t.text == "init")

/-- `accessor := VISIBILITY? ("get" | "set" | "init") (";" | body | "=>" value_literal)` -/
def accessor (source : List Char) : Reader :=
  node .accessor
    (ifNext (·.isKind .visibility) (keyword .visibility)
      ++ token isAccessorName (some .accessorName)
      ++ byNext fun next =>
        if nextIsMark "\x7b" next then body source none
        else if nextIsMark "=>" next then mark "=>" ++ valueLiteral source
        else semicolon)

/-- `accessor_list := "{" accessor+ "}"` -/
def accessorList (source : List Char) : Reader :=
  node .accessorList
    (mark "\x7b" ++ accessor source
      ++ whileNext (fun next => !nextIsMark "\x7d" next) (accessor source) ++ mark "\x7d")

/-- `attr_decl := modifier? type_name IDENT
("=" value_literal | "=>" value_literal | ";" | accessor_list ("=" value_literal)?)` -/
def attrDecl (source : List Char) : Reader :=
  node .attrDecl
    (optionalModifier ++ typeName ++ identifier
      ++ byNext fun next =>
        if nextIsMark "=" next then mark "=" ++ valueLiteral source
        else if nextIsMark "=>" next then mark "=>" ++ valueLiteral source
        else if nextIsMark "\x7b" next then
          accessorList source ++ ifNext (·.isMark "=") (mark "=" ++ valueLiteral source)
        else semicolon)

/-- A member of a class: a method if it is one, else an attribute. -/
def member (source : List Char) : Reader := orElse (methodDecl source) (committed (attrDecl source))

end ClassChart.Grammar

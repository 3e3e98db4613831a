/-
# ClassChart.Proofs.Grammar.Derivation — the grammar of units, apart from any reader

The grammar is data here: `Phrase.production` gives each rule the phrase it stands for, in the notation of
an extended BNF (`++` for sequence, `|||` for choice, `opt` and `many` for brackets and braces). A
`Derivation` of a phrase is a whole derivation tree, every choice in it recorded, so that two
derivations are equal exactly when the same choices were made. `yield` is the token list that is
derived and `trees` is what the derivation looks like as a syntax tree.

Two phrases are regions of raw tokens. Their extent is described by what they are, the shortest run
with balanced braces and the run up to the first semicolon outside brackets, and not by how they are
searched for. The classes of single tokens are spelled here too, and so are the brackets that count: no
test of a reader stands in the grammar.
-/
import ClassChart.Grammar.Unit

namespace ClassChart.Grammar

/-! ## Regions -/

/-- As many closing braces as opening ones. -/
def Balanced (run : List Token) : Prop :=
  run.countP (·.isMark "\x7b") = run.countP (·.isMark "\x7d")

/-- A body: it begins with an opening brace and is the shortest run from there on in which the braces
balance. -/
structure IsBody (run : List Token) : Prop where
  opens : run.head?.any (·.isMark "\x7b") = true
  balanced : Balanced run
  shortest : ∀ shorter, shorter <+: run → shorter ≠ [] → Balanced shorter → shorter = run

/-- The bracket counter behind one more token. It never goes below zero. -/
def countBracket (depth : Nat) (t : Token) : Nat :=
  if t.isMark "(" || t.isMark "[" || t.isMark "\x7b" then depth + 1
  else if t.isMark ")" || t.isMark "]" || t.isMark "\x7d" then depth - 1
  else depth

/-- The bracket counter behind a run. -/
def bracketDepth (run : List Token) : Nat := run.foldl countBracket 0

/-- A semicolon outside brackets, when `front` is what stands before it. -/
def EndsValue (front : List Token) (t : Token) : Prop := t.isMark ";" = true ∧ bracketDepth front = 0

/-- A value: it does not begin with a semicolon and ends with its first semicolon outside brackets. -/
structure IsValue (run : List Token) : Prop where
  begins : run.head?.any (!·.isMark ";") = true
  ends : ∃ front last, run = front ++ [last] ∧ EndsValue front last
  first : ∀ front t, front ++ [t] <+: run → EndsValue front t → front ++ [t] = run

/-- The leaf that stands for a run of tokens: the source text from its first to its last. -/
def runLeaf (source : List Char) (kind : TokenKind) (run : List Token) : List Tree :=
  match run.head?, run.getLast? with
  | some first, some last => [regionLeaf source kind first last]
  | _, _ => []

/-! ## Phrases -/

/-- A phrase of the grammar. -/
inductive Phrase where
  /-- One token of a class. -/
  | terminal (admits : Token → Bool)
  /-- One phrase behind another. -/
  | seq (first second : Phrase)
  /-- One of two phrases. -/
  | alt (left right : Phrase)
  /-- A phrase or nothing. -/
  | opt (phrase : Phrase)
  /-- A phrase any number of times. -/
  | many (phrase : Phrase)
  /-- A phrase that has a name. -/
  | rule (name : Rule)
  /-- A body in braces. -/
  | body
  /-- A value with the semicolon that ends it. -/
  | value

namespace Phrase

instance : Append Phrase := ⟨seq⟩

instance : OrOp Phrase := ⟨alt⟩

/-- A token of the given kind. -/
def kind (k : TokenKind) : Phrase := terminal (·.isKind k)

/-- The given punctuation mark. -/
def mark (text : String) : Phrase := terminal (·.isMark text)

/-- An identifier. Qualified names are single identifiers too. -/
def ident : Phrase := kind .identifier

/-- `VISIBILITY | "static"` -/
def modifierWord : Phrase := terminal fun t => t.isKind .visibility || t.isKind .staticKeyword

/-- `"get" | "set" | "init"`, which are identifiers everywhere else. -/
def accessorWord : Phrase :=
  terminal fun t => t.isKind .identifier && (t.text == "get" || t.text == "set" || t.text == "init")

/-- `INTEGER | STRING | NUMBER | CHAR | IDENT` -/
def defaultWord : Phrase :=
  terminal fun t => t.isKind .integerLiteral || t.isKind .stringLiteral || t.isKind .numberLiteral
    || t.isKind .charLiteral || t.isKind .identifier

/-- `type_decl := class_decl | enum_decl` -/
def typeDecl : Phrase := rule .classDecl ||| rule .enumDecl

/-- `member := method_decl | attr_decl` -/
def member : Phrase := rule .methodDecl ||| rule .attrDecl

/-- What each rule stands for. Parentheses group what follows a commitment of the reader; they do not
change what is derived. -/
def production : Rule → Phrase
  -- unit := import* namespace_decl+
  | .compilationUnit => many (rule .importDecl) ++ rule .namespaceDecl ++ many (rule .namespaceDecl)
  -- import := "using" "static"? qualified_name ";"
  | .importDecl => kind .usingKeyword ++ (opt (kind .staticKeyword) ++ ident ++ mark ";")
  -- namespace_decl := "namespace" qualified_name ("{" type_decl* "}" | ";" type_decl*)
  | .namespaceDecl =>
    kind .namespaceKeyword
      ++ (ident ++ (mark "\x7b" ++ many typeDecl ++ mark "\x7d" ||| mark ";" ++ many typeDecl))
  -- class_decl := modifier? "partial"? "class" IDENT base_list? "{" member* "}" ";"?
  | .classDecl =>
    opt (rule .modifier) ++ opt (kind .partialKeyword) ++ kind .classKeyword
      ++ (ident ++ opt (rule .baseList) ++ mark "\x7b" ++ many member ++ mark "\x7d" ++ opt (mark ";"))
  -- enum_decl := modifier? "enum" IDENT (":" IDENT)? "{" enum_body "}" ";"?
  | .enumDecl =>
    opt (rule .modifier) ++ kind .enumKeyword
      ++ (ident ++ opt (mark ":" ++ ident) ++ mark "\x7b" ++ rule .enumBody ++ mark "\x7d"
        ++ opt (mark ";"))
  -- enum_body := (enum_value ",")* enum_value?
  | .enumBody => many (rule .enumValue ++ mark ",") ++ opt (rule .enumValue)
  -- enum_value := IDENT ("=" (INTEGER | NUMBER))?
  | .enumValue =>
    ident ++ opt (mark "=" ++ terminal fun t => t.isKind .integerLiteral || t.isKind .numberLiteral)
  -- base_list := ":" type_name ("," type_name)*
  | .baseList => mark ":" ++ rule .typeName ++ many (mark "," ++ rule .typeName)
  -- modifier := (VISIBILITY | "static"){1,2}
  | .modifier => modifierWord ++ opt modifierWord
  -- attr_decl := modifier? type_name IDENT
  --   ("=" value_literal | "=>" value_literal | ";" | accessor_list ("=" value_literal)?)
  | .attrDecl =>
    opt (rule .modifier) ++ rule .typeName ++ ident
      ++ (mark "=" ++ value ||| mark "=>" ++ value ||| mark ";"
        ||| rule .accessorList ++ opt (mark "=" ++ value))
  -- accessor_list := "{" accessor+ "}"
  | .accessorList => mark "\x7b" ++ rule .accessor ++ many (rule .accessor) ++ mark "\x7d"
  -- accessor := VISIBILITY? ("get" | "set" | "init") (";" | body | "=>" value_literal)
  | .accessor =>
    opt (kind .visibility) ++ accessorWord ++ (mark ";" ||| body ||| mark "=>" ++ value)
  -- method_decl := modifier? "override"? return_type? IDENT "(" params? ")" (body | "=>" value_literal)
  | .methodDecl =>
    opt (rule .modifier) ++ opt (kind .overrideKeyword)
      ++ (opt (rule .returnType) ++ (ident ++ mark "("))
      ++ (opt (rule .params) ++ mark ")" ++ (body ||| mark "=>" ++ value))
  -- return_type := "void" | type_name
  | .returnType => kind .voidKeyword ||| rule .typeName
  -- params := (param ",")* param
  | .params => many (rule .param ++ mark ",") ++ rule .param
  -- param := ("out" | "ref")? type_name IDENT ("=" default_value)?
  | .param =>
    opt (kind .direction) ++ rule .typeName ++ ident ++ opt (mark "=" ++ rule .defaultValue)
  -- default_value := INTEGER | STRING | NUMBER | CHAR | IDENT
  | .defaultValue => defaultWord
  -- type_name := (IDENT | IDENT "<" (type_name ",")* type_name ">") "?"? ("[" ","* "]")*
  | .typeName =>
    (ident
        ||| ident ++ (mark "<" ++ (many (rule .typeName ++ mark ",") ++ rule .typeName) ++ mark ">"))
      ++ opt (mark "?") ++ many (mark "[" ++ many (mark ",") ++ mark "]")

end Phrase

/-! ## Derivations -/

/-- A derivation tree of a phrase. -/
inductive Derivation : Phrase → Type where
  | token {admits : Token → Bool} (t : Token) (admitted : admits t = true) :
      Derivation (.terminal admits)
  | seq {e f : Phrase} (a : Derivation e) (b : Derivation f) : Derivation (.seq e f)
  | left {e f : Phrase} (a : Derivation e) : Derivation (.alt e f)
  | right {e f : Phrase} (b : Derivation f) : Derivation (.alt e f)
  | none {e : Phrase} : Derivation (.opt e)
  | some {e : Phrase} (a : Derivation e) : Derivation (.opt e)
  | nil {e : Phrase} : Derivation (.many e)
  | cons {e : Phrase} (a : Derivation e) (more : Derivation (.many e)) : Derivation (.many e)
  | rule {r : Rule} (a : Derivation (Phrase.production r)) : Derivation (.rule r)
  | body (run : List Token) (isBody : IsBody run) : Derivation .body
  | value (run : List Token) (isValue : IsValue run) : Derivation .value

namespace Derivation

/-- The tokens that are derived. -/
def yield {e : Phrase} : Derivation e → List Token
  | token t _ => [t]
  | seq a b => a.yield ++ b.yield
  | left a => a.yield
  | right b => b.yield
  | none => []
  | some a => a.yield
  | nil => []
  | cons a more => a.yield ++ more.yield
  | rule a => a.yield
  | body run _ => run
  | value run _ => run

/-- The derivation as syntax trees: a leaf for each token outside regions, a leaf for each region, and
a node for each rule. -/
def trees (source : List Char) {e : Phrase} : Derivation e → List Tree
  | token t _ => [.leaf t]
  | seq a b => a.trees source ++ b.trees source
  | left a => a.trees source
  | right b => b.trees source
  | none => []
  | some a => a.trees source
  | nil => []
  | cons a more => a.trees source ++ more.trees source
  | @rule r a => [.node r (a.trees source)]
  | body run _ => runLeaf source .body run
  | value run _ => runLeaf source .valueLiteral run

/-! ### What a derivation of a given phrase is -/

theorem exists_token {p : Token → Bool} (d : Derivation (.terminal p)) :
    ∃ t h, d = token t h := by
  cases d with
  | token t h => exact ⟨t, h, rfl⟩

theorem exists_seq {e f : Phrase} (d : Derivation (e ++ f)) :
    ∃ (a : Derivation e) (b : Derivation f), d = seq a b := by
  cases d with
  | seq a b => exact ⟨a, b, rfl⟩

theorem left_or_right {e f : Phrase} (d : Derivation (e ||| f)) :
    (∃ a : Derivation e, d = left a) ∨ ∃ b : Derivation f, d = right b := by
  cases d with
  | left a => exact Or.inl ⟨a, rfl⟩
  | right b => exact Or.inr ⟨b, rfl⟩

theorem none_or_some {e : Phrase} (d : Derivation (.opt e)) :
    d = none ∨ ∃ a : Derivation e, d = some a := by
  cases d with
  | none => exact Or.inl rfl
  | some a => exact Or.inr ⟨a, rfl⟩

theorem exists_rule {r : Rule} (d : Derivation (.rule r)) :
    ∃ a : Derivation (Phrase.production r), d = rule a := by
  cases d with
  | rule a => exact ⟨a, rfl⟩

/-- Repetitions are taken apart from the front. -/
@[elab_as_elim]
theorem many_induction {e : Phrase} {motive : Derivation (.many e) → Prop} (nil : motive nil)
    (cons : ∀ (a : Derivation e) (more : Derivation (.many e)), motive more → motive (cons a more))
    (d : Derivation (.many e)) : motive d :=
  match d with
  | .nil => nil
  | .cons a more => cons a more (many_induction nil cons more)

/-! ### Derivations with one yield -/

/-- In a choice, derivations with one yield are equal if they are so in each alternative and no yield
belongs to both. -/
theorem alt_unique {e f : Phrase} {d d' : Derivation (e ||| f)} (hyield : d.yield = d'.yield)
    (inLeft : ∀ a a' : Derivation e, a.yield = d.yield → a.yield = a'.yield → a = a')
    (inRight : ∀ b b' : Derivation f, b.yield = d.yield → b.yield = b'.yield → b = b')
    (apart : ∀ (a : Derivation e) (b : Derivation f), a.yield = d.yield → a.yield ≠ b.yield) :
    d = d' := by
  rcases d.left_or_right with ⟨a, rfl⟩ | ⟨b, rfl⟩ <;>
    rcases d'.left_or_right with ⟨a', rfl⟩ | ⟨b', rfl⟩ <;>
    simp only [yield] at hyield
  · rw [inLeft a a' rfl hyield]
  · exact absurd hyield (apart a b' rfl)
  · exact absurd hyield.symm (apart a' b hyield.symm)
  · rw [inRight b b' rfl hyield]

/-- Where a phrase derives no empty list, leaving it out is told from deriving it. -/
theorem opt_unique {e : Phrase} {d d' : Derivation (.opt e)} (hyield : d.yield = d'.yield)
    (nonempty : ∀ a : Derivation e, a.yield ≠ [])
    (inSome : ∀ a a' : Derivation e, a.yield = d.yield → a.yield = a'.yield → a = a') : d = d' := by
  rcases d.none_or_some with rfl | ⟨a, rfl⟩ <;>
    rcases d'.none_or_some with rfl | ⟨a', rfl⟩ <;>
    simp only [yield] at hyield
  · rfl
  · exact absurd hyield.symm (nonempty a')
  · exact absurd hyield (nonempty a)
  · rw [inSome a a' rfl hyield]

end Derivation

end ClassChart.Grammar

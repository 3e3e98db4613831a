/-
# ClassChart.Proofs.Extract.Parts — the parts of declarations that extraction asks for

Each kind of declaration is taken apart at its name: what stands before it, the name, and what stands
behind. The queries of extraction follow from that, since nothing before the name is an identifier at
the same level. All of it is about derivations, so it holds of every tree that was read.
-/
import ClassChart.Proofs.Extract.Results
import ClassChart.Proofs.Grammar.Shape
import ClassChart.Proofs.Grammar.Unit

namespace ClassChart.Extract

open ClassChart.Tree ClassChart.Grammar

/-- What stands behind the name of a namespace. -/
def behindNamespace : Phrase :=
  .mark "\x7b" ++ .many .typeDecl ++ .mark "\x7d" ||| .mark ";" ++ .many .typeDecl

/-- What stands before the keyword of a class. -/
def beforeClass : Phrase := .opt (.rule .modifier) ++ .opt (.kind .partialKeyword)

/-- What stands behind the name of a class. -/
def behindClass : Phrase :=
  .opt (.rule .baseList) ++ (.mark "\x7b" ++ (.many .member ++ (.mark "\x7d" ++ .opt (.mark ";"))))

/-- What stands between the name and the values of an enum. -/
def behindEnum : Phrase := .opt (.mark ":" ++ .ident) ++ .mark "\x7b"

/-- What stands behind the values of an enum. -/
def endOfEnum : Phrase := .mark "\x7d" ++ .opt (.mark ";")

/-- What stands before the name of a method. -/
def beforeMethod : Phrase :=
  .opt (.rule .modifier) ++ .opt (.kind .overrideKeyword) ++ .opt (.rule .returnType)

/-! ## Lookups -/

section Lookups

variable {source : List Char} {e : Phrase} {r : Rule} {name keyword : Token}

/-- The name of a node is its first identifier, behind a front without any. -/
theorem requiredToken_name (he : e.Admits fun t => t.isKind .identifier = false)
    (front : Derivation e) (hname : name.isKind .identifier = true) (ts : List Tree)
    (expected : String) :
    requiredToken (node r (front.trees source ++ leaf name :: ts)) .identifier expected =
      .ok name.text := by
  have hregion : TokenKind.identifier ≠ .body ∧ TokenKind.identifier ≠ .valueLiteral := by decide
  rw [requiredToken, childToken?_skip he hregion, childToken?_hit hname]

/-- A keyword between is passed over. -/
theorem requiredToken_keyword (he : e.Admits fun t => t.isKind .identifier = false)
    (front : Derivation e) (hkeyword : keyword.isKind .identifier = false)
    (hname : name.isKind .identifier = true) (ts : List Tree) (expected : String) :
    requiredToken (node r (front.trees source ++ leaf keyword :: leaf name :: ts)) .identifier
      expected = .ok name.text := by
  have hself : keyword.isKind keyword.kind = true := beq_self_eq_true _
  have hboth : (e ++ Phrase.kind keyword.kind).Admits fun t => t.isKind .identifier = false :=
    ⟨he, fun t ht => by grind⟩
  have hfound : requiredToken (node r ((Derivation.seq front (.token keyword hself)).trees source
      ++ leaf name :: ts)) .identifier expected = .ok name.text :=
    requiredToken_name hboth _ hname ts expected
  simpa only [Derivation.trees, List.append_assoc, List.cons_append, List.nil_append] using hfound

/-- A type between is passed over. -/
theorem requiredToken_typed (he : e.Admits fun t => t.isKind .identifier = false)
    (front : Derivation e) (ty : Derivation (.production .typeName))
    (hname : name.isKind .identifier = true) (ts : List Tree) (expected : String) :
    requiredToken (node r (front.trees source ++ node .typeName (ty.trees source) :: leaf name :: ts))
      .identifier expected = .ok name.text := by
  have hboth : (e ++ Phrase.rule .typeName).Admits fun t => t.isKind .identifier = false :=
    ⟨he, trivial⟩
  have hfound : requiredToken (node r ((Derivation.seq front (.rule ty)).trees source
      ++ leaf name :: ts)) .identifier expected = .ok name.text :=
    requiredToken_name hboth _ hname ts expected
  simpa only [Derivation.trees, List.append_assoc, List.cons_append, List.nil_append] using hfound

/-- A type begins with an identifier. -/
theorem type_parts (source : List Char) (a : Derivation (.production .typeName)) :
    ∃ (name : Token) (rest : List Tree), name.isKind .identifier = true ∧
      a.trees source = .leaf name :: rest := by
  obtain ⟨a, ranks, rfl⟩ := a.exists_seq
  obtain ⟨base, question, rfl⟩ := a.exists_seq
  rcases base.left_or_right with ⟨b, rfl⟩ | ⟨b, rfl⟩
  · obtain ⟨t, ht, rfl⟩ := b.exists_token
    exact ⟨t, question.trees source ++ ranks.trees source, ht, rfl⟩
  · obtain ⟨name, arguments, rfl⟩ := b.exists_seq
    obtain ⟨t, ht, rfl⟩ := name.exists_token
    exact ⟨t, arguments.trees source ++ question.trees source ++ ranks.trees source, ht, rfl⟩

/-- The type of a declaration is found, and it is not `void`. -/
theorem requiredType_parts (he : Rule.typeName ∉ e.rules) (front : Derivation e)
    (ty : Derivation (.production .typeName)) (ts : List Tree) (expected : String) :
    requiredType (node r (front.trees source ++ node .typeName (ty.trees source) :: ts)) expected =
      .ok (flatten (leavesAll (ty.trees source))) := by
  obtain ⟨name, rest, hname, htrees⟩ := type_parts source ty
  have hleaves : (node .typeName (ty.trees source)).tokens = leavesAll (ty.trees source) :=
    tokens_eq _
  have hvoid : (leavesAll (ty.trees source)).head?.any (·.isKind .voidKeyword) = false := by
    rw [htrees, leavesAll_cons, leaves_leaf]
    show name.isKind .voidKeyword = false
    grind
  unfold requiredType typeText?
  rw [childNode?_skip he, childNode?_hit]
  simp only [hleaves, hvoid]
  rfl

end Lookups

/-! ## Declarations -/

section Parts

variable (source : List Char)

/-- No modifier is taken for a name. -/
theorem modifier_admits :
    (Phrase.opt (.rule .modifier)).Admits fun t => t.isKind .identifier = false :=
  trivial

/-- The name of a node is found. -/
abbrev HasName (t : Tree) (name : Token) : Prop :=
  name.isKind .identifier = true ∧
    ∀ expected, requiredToken t .identifier expected = .ok name.text

/-- The type of a node is found. -/
abbrev HasType (t : Tree) (ty : Derivation (.production .typeName)) : Prop :=
  ∀ expected, requiredType t expected = .ok (flatten (leavesAll (ty.trees source)))

/-- A namespace: its keyword, its name, and the rest. -/
theorem namespace_parts (a : Derivation (.production .namespaceDecl)) :
    ∃ (keyword name : Token) (rest : Derivation behindNamespace),
      keyword.isKind .namespaceKeyword = true ∧
      HasName (node .namespaceDecl (a.trees source)) name ∧
      a.trees source = .leaf keyword :: .leaf name :: rest.trees source := by
  obtain ⟨keyword, a, rfl⟩ := a.exists_seq
  obtain ⟨name, rest, rfl⟩ := a.exists_seq
  obtain ⟨t, ht, rfl⟩ := keyword.exists_token
  obtain ⟨u, hu, rfl⟩ := name.exists_token
  have hfront : (Phrase.kind .namespaceKeyword).Admits fun t => t.isKind .identifier = false :=
    fun t ht => by grind
  have hname (expected : String) : requiredToken (node .namespaceDecl
      ((Derivation.token t ht).trees source ++ leaf u :: rest.trees source)) .identifier expected =
        .ok u.text :=
    requiredToken_name hfront _ hu _ expected
  exact ⟨t, u, rest, ht, ⟨hu, hname⟩, rfl⟩

/-- A class: what stands before its keyword, the keyword, its name, and the rest. -/
theorem class_parts (a : Derivation (.production .classDecl)) :
    ∃ (front : Derivation beforeClass) (keyword name : Token) (rest : Derivation behindClass),
      keyword.isKind .classKeyword = true ∧ HasName (node .classDecl (a.trees source)) name ∧
      a.trees source = front.trees source ++ .leaf keyword :: .leaf name :: rest.trees source := by
  obtain ⟨a, b, rfl⟩ := a.exists_seq
  obtain ⟨front, keyword, rfl⟩ := a.exists_seq
  obtain ⟨b, semicolon, rfl⟩ := b.exists_seq
  obtain ⟨b, closing, rfl⟩ := b.exists_seq
  obtain ⟨b, members, rfl⟩ := b.exists_seq
  obtain ⟨b, opening, rfl⟩ := b.exists_seq
  obtain ⟨name, bases, rfl⟩ := b.exists_seq
  obtain ⟨t, ht, rfl⟩ := keyword.exists_token
  obtain ⟨u, hu, rfl⟩ := name.exists_token
  have hkeyword : t.isKind .identifier = false := by grind
  have hfront : beforeClass.Admits fun t => t.isKind .identifier = false :=
    ⟨trivial, fun t ht => by grind⟩
  refine ⟨front, t, u, .seq bases (.seq opening (.seq members (.seq closing semicolon))), ht,
    ⟨hu, fun expected => ?_⟩, ?_⟩
  · simp only [Derivation.trees, List.append_assoc, List.cons_append, List.nil_append]
    exact requiredToken_keyword hfront front hkeyword hu _ expected
  · simp only [Derivation.trees, List.append_assoc, List.cons_append, List.nil_append]
    rfl

/-- An enum: its modifiers, its keyword, its name, and its values further on. -/
theorem enum_parts (a : Derivation (.production .enumDecl)) :
    ∃ (front : Derivation (.opt (.rule .modifier))) (keyword name : Token)
      (between : Derivation behindEnum) (values : Derivation (.production .enumBody))
      (rest : Derivation endOfEnum),
      keyword.isKind .enumKeyword = true ∧ HasName (node .enumDecl (a.trees source)) name ∧
      a.trees source = front.trees source ++ .leaf keyword :: .leaf name ::
        (between.trees source ++ .node .enumBody (values.trees source) :: rest.trees source) := by
  obtain ⟨a, b, rfl⟩ := a.exists_seq
  obtain ⟨front, keyword, rfl⟩ := a.exists_seq
  obtain ⟨b, semicolon, rfl⟩ := b.exists_seq
  obtain ⟨b, closing, rfl⟩ := b.exists_seq
  obtain ⟨b, values, rfl⟩ := b.exists_seq
  obtain ⟨b, opening, rfl⟩ := b.exists_seq
  obtain ⟨name, underlying, rfl⟩ := b.exists_seq
  obtain ⟨t, ht, rfl⟩ := keyword.exists_token
  obtain ⟨u, hu, rfl⟩ := name.exists_token
  obtain ⟨values, rfl⟩ := values.exists_rule
  have hkeyword : t.isKind .identifier = false := by grind
  refine ⟨front, t, u, .seq underlying opening, values, .seq closing semicolon, ht,
    ⟨hu, fun expected => ?_⟩, ?_⟩
  · simp only [Derivation.trees, List.append_assoc, List.cons_append, List.nil_append]
    exact requiredToken_keyword modifier_admits front hkeyword hu _ expected
  · simp only [Derivation.trees, List.append_assoc, List.cons_append, List.nil_append]

theorem enum_body (a : Derivation (.production .enumDecl)) :
    ∃ body, (node .enumDecl (a.trees source)).childNode? .enumBody = some body := by
  obtain ⟨front, keyword, name, between, values, rest, _, _, htrees⟩ := enum_parts source a
  refine ⟨node .enumBody (values.trees source), ?_⟩
  rw [htrees, childNode?_skip (by decide) front, childNode?_leaf, childNode?_leaf,
    childNode?_skip (by decide) between, childNode?_hit]

theorem enumValue_parts (a : Derivation (.production .enumValue)) :
    ∃ name : Token, HasName (node .enumValue (a.trees source)) name := by
  obtain ⟨name, rest, rfl⟩ := a.exists_seq
  obtain ⟨t, ht, rfl⟩ := name.exists_token
  refine ⟨t, ht, fun expected => ?_⟩
  show requiredToken (node .enumValue (leaf t :: rest.trees source)) .identifier expected = _
  rw [requiredToken, childToken?_hit ht]

/-- An attribute has a name and a type. -/
theorem attribute_parts (a : Derivation (.production .attrDecl)) :
    ∃ (name : Token) (ty : Derivation (.production .typeName)),
      HasName (node .attrDecl (a.trees source)) name ∧
      HasType source (node .attrDecl (a.trees source)) ty := by
  obtain ⟨a, rest, rfl⟩ := a.exists_seq
  obtain ⟨a, name, rfl⟩ := a.exists_seq
  obtain ⟨front, ty, rfl⟩ := a.exists_seq
  obtain ⟨ty, rfl⟩ := ty.exists_rule
  obtain ⟨t, ht, rfl⟩ := name.exists_token
  simp only [Derivation.trees, List.append_assoc, List.cons_append, List.nil_append]
  refine ⟨t, ty, ⟨ht, fun expected => ?_⟩, fun expected => ?_⟩
  · exact requiredToken_typed modifier_admits front ty ht _ expected
  · exact requiredType_parts (by decide) front ty _ expected

/-- So has a parameter. -/
theorem parameter_parts (a : Derivation (.production .param)) :
    ∃ (name : Token) (ty : Derivation (.production .typeName)),
      HasName (node .param (a.trees source)) name ∧
      HasType source (node .param (a.trees source)) ty := by
  obtain ⟨a, rest, rfl⟩ := a.exists_seq
  obtain ⟨a, name, rfl⟩ := a.exists_seq
  obtain ⟨front, ty, rfl⟩ := a.exists_seq
  obtain ⟨ty, rfl⟩ := ty.exists_rule
  obtain ⟨t, ht, rfl⟩ := name.exists_token
  have hfront : (Phrase.opt (.kind .direction)).Admits fun t => t.isKind .identifier = false :=
    fun t ht => by grind
  simp only [Derivation.trees, List.append_assoc, List.cons_append, List.nil_append]
  refine ⟨t, ty, ⟨ht, fun expected => ?_⟩, fun expected => ?_⟩
  · exact requiredToken_typed hfront front ty ht _ expected
  · exact requiredType_parts (by decide) front ty _ expected

/-- A method has a name, whether or not it has a return type. -/
theorem method_parts (a : Derivation (.production .methodDecl)) :
    ∃ name : Token, HasName (node .methodDecl (a.trees source)) name := by
  obtain ⟨a, rest, rfl⟩ := a.exists_seq
  obtain ⟨front, b, rfl⟩ := a.exists_seq
  obtain ⟨returns, b, rfl⟩ := b.exists_seq
  obtain ⟨name, opening, rfl⟩ := b.exists_seq
  obtain ⟨t, ht, rfl⟩ := name.exists_token
  have hfront : beforeMethod.Admits fun t => t.isKind .identifier = false :=
    ⟨⟨trivial, fun t ht => by grind⟩, trivial⟩
  have hname (expected : String) : requiredToken (node .methodDecl
      ((Derivation.seq front returns).trees source
        ++ leaf t :: (opening.trees source ++ rest.trees source))) .identifier expected = .ok t.text :=
    requiredToken_name hfront _ ht _ expected
  simp only [Derivation.trees, List.append_assoc, List.cons_append, List.nil_append] at hname ⊢
  exact ⟨t, ht, hname⟩

end Parts

/-! ## Parameters -/

/-- The parameter nodes among the immediate children of the parameter list of a method. -/
def parameterChildren (method : Tree) : List Tree :=
  match method.childNode? .params with
  | some params => params.childNodes .param
  | none => []

/-- The parameters of a method are immediate children of its parameter list. -/
theorem parameterNodes_eq {source : List Char} (a : Derivation (.production .methodDecl)) :
    parameterNodes (node .methodDecl (a.trees source)) =
      parameterChildren (node .methodDecl (a.trees source)) := by
  unfold parameterNodes parameterChildren
  cases hparams : (node .methodDecl (a.trees source)).childNode? .params with
  | none => rfl
  | some params =>
      obtain ⟨_, b, rfl⟩ := exists_of_childNode? hparams
      exact descendants_eq_childNodes (by decide) b

/-- The parameters of a method stand in its one list of them. -/
theorem exists_of_mem_parameterNodes {source : List Char} {a : Derivation (.production .methodDecl)}
    {c : Tree}
    (hc : c ∈ parameterNodes (node .methodDecl (a.trees source))) :
    c.leaves ⊆ leavesAll (a.trees source) ∧
      ∃ b : Derivation (.production .param), c = node .param (b.trees source) := by
  rw [parameterNodes_eq, parameterChildren] at hc
  split at hc
  · rename_i params hparams
    obtain ⟨hmem, b, rfl⟩ := exists_of_childNode? hparams
    obtain ⟨hin, hderived⟩ := exists_of_mem_childNodes hc
    refine ⟨fun u hu => mem_leavesAll hmem ?_, hderived⟩
    rw [leaves_node]
    exact mem_leavesAll hin hu
  · exact absurd hc List.not_mem_nil

end ClassChart.Extract

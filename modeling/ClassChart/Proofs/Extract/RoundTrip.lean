/-
# ClassChart.Proofs.Extract.RoundTrip — a model that is written out is read back

The source text of a model has the model, under the policy that the model was made with, and no
warnings. Each part of a model is taken on its own: its words derive the rule of the part, and extraction
finds the part in the node that is read. A declaration is put together from its parts by the laws of
`Written`, and its node is known down to positions, so that extraction can be computed on it.
-/
import ClassChart.Proofs.Extract.Writable

namespace ClassChart.Extract

open ClassChart.Tree ClassChart.Grammar Text

/-! ## Repetitions -/

/-- The step gives the result without warnings. -/
abbrev Silent {α β : Type} (f : α → Except Failure (β × List Warning)) (x : α) (y : β) : Prop :=
  f x = .ok (y, [])

/-- A repetition is silent when its steps are. -/
theorem gather_silent {α β : Type} {f : α → Except Failure (β × List Warning)} {xs : List α}
    {ys : List β} (h : List.Forall₂ (Silent f) xs ys) :
    ∃ results, xs.mapM f = .ok results ∧ gather results = (ys, []) := by
  refine ⟨ys.map fun y => (y, []), mapM_eq_of_forall₂ (List.forall₂_map_right_iff.mpr h), ?_⟩
  simp [gather, Function.comp_def]

section Declarations

variable {policy : DefaultPolicy}

/-! ## Words of every declaration -/

theorem isToken_visibility (v : Visibility) : IsToken .visibility v.word := by
  cases v <;> decide

/-- A visibility keyword is a modifier. -/
theorem written_modifier (v : Visibility) :
    Written (.opt (.rule .modifier)) [v.word] [node .modifier [bareLeaf .visibility v.word]] := by
  have hkeyword : Written .modifierWord [v.word] [bareLeaf .visibility v.word] :=
    .token (isToken_visibility v) fun _ => rfl
  have hmodifier : Written (.production .modifier) [v.word] [bareLeaf .visibility v.word] :=
    hkeyword.seq .opt_none
  exact hmodifier.rule.opt_some

theorem written_identifier {name : String} (h : IsToken .identifier name) :
    Written .ident [name] [bareLeaf .identifier name] :=
  .kind h

theorem visibility_modifier (v : Visibility) (r : Rule) (ts : List Tree) :
    visibility (node r (node .modifier [bareLeaf .visibility v.word] :: ts)) = v := by
  cases v <;> rfl

/-! ## Attributes -/

/-- What stands behind the name of an attribute. -/
def behindAttribute : Phrase :=
  .mark "=" ++ .value ||| .mark "=>" ++ .value ||| .mark ";"
    ||| .rule .accessorList ++ .opt (.mark "=" ++ .value)

theorem written_equals : Written (.mark "=") ["="] [bareLeaf .punctuation "="] :=
  .mark (by decide)

/-- The initial value of an attribute is found behind its name. -/
theorem initial_written {initial? : Option String} (h : ∀ value ∈ initial?, IsInitial value) :
    ∃ ts, Written behindAttribute (initialWords initial?) ts ∧
      ∀ name, (initializer? (bareLeaf .identifier name :: ts)).map
        (fun value => String.ofList (stripTerminator value.text.toList)) = initial? := by
  cases initial? with
  | none =>
      have hend : Written (.mark ";") [";"] [bareLeaf .punctuation ";"] := .mark (by decide)
      refine ⟨_, hend.right.left, fun name => ?_⟩
      simp [bareLeaf, initializer?]
  | some value =>
      have hvalue := h value rfl
      refine ⟨_, (written_equals.seq hvalue.written).left.left.left, fun name => ?_⟩
      have hsplit : (value ++ "\n;").toList = (value.toList ++ ['\n']) ++ [';'] := by
        simp
      simp only [List.cons_append, List.nil_append, bareLeaf, initializer?, reduceCtorEq, and_false,
        if_false, and_self, if_true, Option.map_some, hsplit, stripTerminator_concat]
      rw [trimBlanks_concat (by decide), hvalue.trimmed, String.ofList_toList]

/-- The children of an attribute, when `ty` is those of its type and `ts` is what stands behind its
name. -/
def attributeTrees (a : Attribute) (ty ts : List Tree) : List Tree :=
  node .modifier [bareLeaf .visibility a.visibility.word] :: node .typeName ty ::
    bareLeaf .identifier a.name :: ts

theorem attribute_written {a : Attribute} (h : WritableAttribute a) :
    ∃ t, Written .member a.words [t] ∧ t.rule? = some .attrDecl ∧ attributeOf t = .ok a := by
  obtain ⟨ty, hty, hvoid, htext⟩ := h.typeName
  obtain ⟨ts, hts, hinitial⟩ := initial_written h.initial
  have hdecl : Written (.production .attrDecl) a.words (attributeTrees a ty ts) :=
    (((written_modifier a.visibility).seq hty.rule).seq (written_identifier h.name)).seq hts
  refine ⟨node .attrDecl (attributeTrees a ty ts), hdecl.rule.right, rfl, ?_⟩
  have hname : requiredToken (node .attrDecl (attributeTrees a ty ts)) .identifier "attribute name" =
      .ok a.name := rfl
  have htype : typeText? (node .attrDecl (attributeTrees a ty ts)) .typeName = some a.typeName :=
    typeText?_eq_some.mpr ⟨_, rfl, hvoid, htext⟩
  have hvisibility : visibility (node .attrDecl (attributeTrees a ty ts)) = a.visibility :=
    visibility_modifier a.visibility .attrDecl _
  have hvalue : initializer? (attributeTrees a ty ts) =
      initializer? (bareLeaf .identifier a.name :: ts) := rfl
  rw [attributeOf, hname, requiredType, htype, hvisibility, children, hvalue, hinitial]
  rfl

/-! ## Parameters -/

/-- The default of a parameter is found, and the policy leaves it as it is. -/
theorem default_written {default? : Option String}
    (h : ∀ value ∈ default?, IsDefault policy value) :
    ∃ ts, Written (.opt (.mark "=" ++ .rule .defaultValue)) (defaultWords default?) ts ∧
      (node .param ts).childToken? .direction = none ∧
      ∀ decl name, defaultLeaf? decl = defaultLeaf? (node .param ts) →
        supported policy name decl = .ok (default?, []) := by
  cases default? with
  | none =>
      refine ⟨[], .opt_none, rfl, fun decl name hleaf => ?_⟩
      rw [supported, default?_eq, hleaf]
      rfl
  | some value =>
      obtain ⟨kind, htoken, hadmits, hkept⟩ := h value rfl
      have hvalue : Written (.production .defaultValue) [value] [bareLeaf kind value] :=
        .token htoken hadmits
      refine ⟨_, (written_equals.seq hvalue.rule).opt_some, rfl, fun decl name hleaf => ?_⟩
      have hfound : defaultLeaf? decl = some ⟨kind, value, Span.empty⟩ := hleaf
      rw [supported, default?_eq, hfound]
      by_cases hkind : kind = .integerLiteral ∨ kind = .stringLiteral
      · simp only [if_pos hkind]
      · obtain rfl : policy = .keep := by
          rcases hkept with hkept | hkept | hkept
          · exact absurd (Or.inl hkept) hkind
          · exact absurd (Or.inr hkept) hkind
          · exact hkept
        simp only [if_neg hkind]

/-- The leaf for the direction of a parameter, if it needs one. -/
def directionTrees (d : Direction) : List Tree := d.keyword?.toList.map (bareLeaf .direction)

theorem written_direction (d : Direction) :
    Written (.opt (.kind .direction)) d.keyword?.toList (directionTrees d) := by
  cases d with
  | input => exact .opt_none
  | output => exact (Written.kind (by decide)).opt_some
  | both => exact (Written.kind (by decide)).opt_some

/-- The children of a parameter, when `ty` is those of its type and `ts` is what stands behind its
name. -/
def parameterTrees (p : Parameter) (ty ts : List Tree) : List Tree :=
  directionTrees p.direction ++ node .typeName ty :: bareLeaf .identifier p.name :: ts

theorem parameter_written {p : Parameter} (h : WritableParameter policy p) :
    ∃ t, Written (.rule .param) p.words [t] ∧ t.rule? = some .param ∧
      Silent (parameterOf policy) t p := by
  obtain ⟨ty, hty, hvoid, htext⟩ := h.typeName
  obtain ⟨ts, hts, hundirected, hdefault⟩ := default_written h.default
  have hdecl : Written (.production .param) p.words (parameterTrees p ty ts) :=
    ((((written_direction p.direction).seq hty.rule).seq (written_identifier h.name)).seq hts).congr
      (by simp [Parameter.words]) (by simp [parameterTrees])
  refine ⟨node .param (parameterTrees p ty ts), hdecl.rule, rfl, ?_⟩
  -- A leaf for the direction is in the way of no other query.
  have hname : requiredToken (node .param (parameterTrees p ty ts)) .identifier "parameter name" =
      .ok p.name := by
    rw [parameterTrees]
    cases p.direction <;> rfl
  have htype : typeText? (node .param (parameterTrees p ty ts)) .typeName = some p.typeName := by
    have hchild : (node .param (parameterTrees p ty ts)).childNode? .typeName = some (node .typeName ty) := by
      rw [parameterTrees]
      cases p.direction <;> rfl
    exact typeText?_eq_some.mpr ⟨_, hchild, hvoid, htext⟩
  have hdirection : direction (node .param (parameterTrees p ty ts)) = p.direction := by
    have hkeyword : (node .param (parameterTrees p ty ts)).childToken? .direction =
        p.direction.keyword?.map fun text => ⟨.direction, text, Span.empty⟩ := by
      rw [parameterTrees]
      cases p.direction with
      | input => exact hundirected
      | output => rfl
      | both => rfl
    rw [direction, hkeyword]
    cases p.direction <;> rfl
  have hleaf : defaultLeaf? (node .param (parameterTrees p ty ts)) = defaultLeaf? (node .param ts) := by
    rw [parameterTrees]
    cases p.direction <;> rfl
  rw [Silent, parameterOf, hname, requiredType, htype, hdirection]
  simp only [hdefault _ _ hleaf]
  rfl

/-! ## Methods -/

/-- A return type is found, and none where `void` stands for it. -/
theorem returnType_written {returnType? : Option String} (h : ∀ typeName ∈ returnType?, IsType typeName) :
    ∃ ts, Written (.production .returnType) [returnType?.getD "void"] ts ∧
      ∀ decl : Tree, decl.childNode? .returnType = some (node .returnType ts) →
        typeText? decl .returnType = returnType? := by
  cases returnType? with
  | none =>
      have hvoid : Written (.kind .voidKeyword) ["void"] [bareLeaf .voidKeyword "void"] :=
        .kind (by decide)
      refine ⟨_, hvoid.left, fun decl hchild => ?_⟩
      rw [typeText?, hchild]
      simp only [tokens_eq, children]
      rfl
  | some typeName =>
      obtain ⟨ty, hty, hvoid, htext⟩ := h typeName rfl
      have hleaves : leavesAll [node .typeName ty] = leavesAll ty := by
        rw [leavesAll_cons, leaves_node, leavesAll_nil, List.append_nil]
      refine ⟨_, hty.rule.right, fun decl hchild => typeText?_eq_some.mpr ⟨_, hchild, ?_, ?_⟩⟩
      · rwa [children, hleaves]
      · rwa [children, hleaves]

/-- The parameters of a method are found in order. -/
theorem parameters_written {parameters : List Parameter}
    (h : ∀ p ∈ parameters, WritableParameter policy p) :
    ∃ ts, Written (.opt (.rule .params)) (separated (parameters.map Parameter.words)) ts ∧
      ∀ decl : Tree, decl.childNode? .params = (node .methodDecl ts).childNode? .params →
        List.Forall₂ (Silent (parameterOf policy)) (parameterNodes decl) parameters := by
  by_cases hparameters : parameters = []
  · subst hparameters
    refine ⟨[], .opt_none, fun decl hchild => ?_⟩
    rw [parameterNodes, hchild]
    exact .nil
  · obtain ⟨ts, hts, hall⟩ := Written.exists_separated (fun p hp => parameter_written (h p hp))
      (fun t p ht => ht.1) hparameters
    have hparams : Written (.production .params) _ ts := hts
    refine ⟨_, hparams.rule.opt_some, fun decl hchild => ?_⟩
    have hnodes : parameterNodes decl = (node .params ts).childNodes .param := by
      rw [parameterNodes, hchild, childNode?_hit]
      exact hparams.descendants (by decide)
    rw [hnodes]
    exact hall.imp fun t p ht => ht.2

/-- The children of a method, when `returns` is those of its return type and `ts` is what stands in
parentheses. -/
def methodTrees (m : Method) (returns ts : List Tree) : List Tree :=
  node .modifier [bareLeaf .visibility m.visibility.word] :: node .returnType returns ::
    bareLeaf .identifier m.name :: bareLeaf .punctuation "(" ::
      (ts ++ [bareLeaf .punctuation ")", bareLeaf .body ""])

theorem method_written {m : Method} (h : WritableMethod policy m) :
    ∃ t, Written .member m.words [t] ∧ t.rule? = some .methodDecl ∧ Silent (methodOf policy) t m := by
  obtain ⟨returns, hreturns, hreturnType⟩ := returnType_written h.returnType
  obtain ⟨ts, hts, hparameters⟩ := parameters_written h.parameters
  have hopen : Written (.mark "(") ["("] [bareLeaf .punctuation "("] := .mark (by decide)
  have hclose : Written (.mark ")") [")"] [bareLeaf .punctuation ")"] := .mark (by decide)
  have hdecl : Written (.production .methodDecl) m.words (methodTrees m returns ts) :=
    ((((written_modifier m.visibility).seq .opt_none).seq
        (hreturns.rule.opt_some.seq ((written_identifier h.name).seq hopen))).seq
      ((hts.seq hclose).seq written_body.left)).congr
        (by simp [Method.words]) (by simp [methodTrees])
  refine ⟨node .methodDecl (methodTrees m returns ts), hdecl.rule.left, rfl, ?_⟩
  have hname : requiredToken (node .methodDecl (methodTrees m returns ts)) .identifier "method name" =
      .ok m.name := rfl
  have htype := hreturnType (node .methodDecl (methodTrees m returns ts)) rfl
  have hvisibility : visibility (node .methodDecl (methodTrees m returns ts)) = m.visibility :=
    visibility_modifier m.visibility .methodDecl _
  have hparams : (node .methodDecl (methodTrees m returns ts)).childNode? .params =
      (node .methodDecl ts).childNode? .params := by
    show (ts ++ [bareLeaf .punctuation ")", bareLeaf .body ""]).find? _ = ts.find? _
    rw [List.find?_append]
    exact Option.or_none
  obtain ⟨results, hresults, hgather⟩ := gather_silent (hparameters _ hparams)
  rw [Silent, methodOf, hname, htype, hvisibility, hresults]
  show Except.ok (Method.mk m.name m.returnType? m.visibility (gather results).1, (gather results).2) = _
  rw [hgather]

/-! ## Entities -/

section Nodes

variable {ts : List Tree} {r s : Rule}

theorem filter_rule_eq_self (h : ∀ t ∈ ts, t.rule? = some r) :
    ts.filter (fun c => c.rule? == some r) = ts :=
  List.filter_eq_self.mpr fun t ht => beq_iff_eq.mpr (h t ht)

theorem filter_rule_eq_nil (h : ∀ t ∈ ts, t.rule? = some r) (hne : r ≠ s) :
    ts.filter (fun c => c.rule? == some s) = [] := by
  refine List.filter_eq_nil_iff.mpr fun t ht hs => hne ?_
  rw [h t ht] at hs
  exact Option.some.inj (eq_of_beq hs)

theorem filter_rule_leaf (kind : TokenKind) (text : String) :
    [bareLeaf kind text].filter (fun c => c.rule? == some s) = [] := rfl

end Nodes

theorem written_open : Written (.mark "\x7b") ["\x7b"] [bareLeaf .punctuation "\x7b"] :=
  .mark (by decide)

theorem written_close : Written (.mark "\x7d") ["\x7d"] [bareLeaf .punctuation "\x7d"] :=
  .mark (by decide)

/-- The children of a class. -/
def classTrees (name : String) (attributes methods : List Tree) : List Tree :=
  bareLeaf .classKeyword "class" :: bareLeaf .identifier name :: bareLeaf .punctuation "\x7b" ::
    (attributes ++ methods ++ [bareLeaf .punctuation "\x7d"])

theorem class_written {key : EntityKey} {attributes : List Attribute}
    {methods : List Method} (hname : IsToken .identifier key.name)
    (hattributes : ∀ a ∈ attributes, WritableAttribute a)
    (hmethods : ∀ m ∈ methods, WritableMethod policy m) :
    ∃ t, Written .typeDecl (Entity.words ⟨key, .ofClass attributes methods⟩) [t] ∧
      Silent (declared policy key.scope) t [⟨key, .ofClass attributes methods⟩] := by
  obtain ⟨us, hus, hmethod⟩ := Written.exists_many (fun m hm => method_written (hmethods m hm)) .many_nil
  obtain ⟨ts, hts, hattribute⟩ :=
    Written.exists_many (fun a ha => attribute_written (hattributes a ha)) hus
  have hkeyword : Written (.kind .classKeyword) ["class"] [bareLeaf .classKeyword "class"] :=
    .kind (by decide)
  have hdecl : Written (.production .classDecl) (Entity.words ⟨key, .ofClass attributes methods⟩)
      (classTrees key.name ts us) :=
    (((Written.opt_none.seq .opt_none).seq hkeyword).seq
      ((((((written_identifier hname).seq .opt_none).seq written_open).seq hts).seq written_close).seq
        .opt_none)).congr (by simp [Entity.words]) (by simp [classTrees])
  refine ⟨node .classDecl (classTrees key.name ts us), hdecl.rule.left, ?_⟩
  obtain ⟨hattributeRule, hattribute⟩ := (List.forall₂_and_left _ _).mp hattribute
  obtain ⟨hmethodRule, hmethod⟩ := (List.forall₂_and_left _ _).mp hmethod
  have hname : requiredToken (node .classDecl (classTrees key.name ts us)) .identifier "class name" =
      .ok key.name := rfl
  have hattributeNodes : (node .classDecl (classTrees key.name ts us)).descendants .attrDecl = ts := by
    rw [hdecl.descendants (by decide)]
    show (ts ++ us ++ [bareLeaf .punctuation "\x7d"]).filter _ = ts
    rw [List.filter_append, List.filter_append, filter_rule_eq_self hattributeRule,
      filter_rule_eq_nil hmethodRule (by decide), filter_rule_leaf, List.append_nil, List.append_nil]
  have hmethodNodes : (node .classDecl (classTrees key.name ts us)).descendants .methodDecl = us := by
    rw [hdecl.descendants (by decide)]
    show (ts ++ us ++ [bareLeaf .punctuation "\x7d"]).filter _ = us
    rw [List.filter_append, List.filter_append, filter_rule_eq_nil hattributeRule (by decide),
      filter_rule_eq_self hmethodRule, filter_rule_leaf, List.append_nil, List.nil_append]
  obtain ⟨results, hresults, hgather⟩ := gather_silent hmethod
  have hclass : classEntity policy key.scope (node .classDecl (classTrees key.name ts us)) =
      .ok (⟨key, .ofClass attributes methods⟩, []) := by
    rw [classEntity, hname, hattributeNodes, hmethodNodes, mapM_eq_of_forall₂ hattribute, hresults]
    show Except.ok (Entity.mk key (.ofClass attributes (gather results).1), (gather results).2) = _
    rw [hgather]
  show (classEntity policy key.scope (node .classDecl (classTrees key.name ts us))).map _ = _
  rw [hclass]
  rfl

/-- The values of an enum are found in order. -/
theorem values_written {values : List String} (h : ∀ v ∈ values, IsToken .identifier v) :
    ∃ ts, Written (.production .enumBody) (separated (values.map ([·]))) ts ∧
      List.Forall₂ (fun t v => requiredToken t .identifier "enum member name" = .ok v)
        ((node .enumBody ts).descendants .enumValue) values := by
  have hvalue : ∀ v ∈ values, ∃ t, Written (.rule .enumValue) [v] [t] ∧ t.rule? = some .enumValue ∧
      requiredToken t .identifier "enum member name" = .ok v := by
    intro v hv
    have hdecl : Written (.production .enumValue) [v] [bareLeaf .identifier v] :=
      (written_identifier (h v hv)).seq .opt_none
    exact ⟨_, hdecl.rule, rfl, rfl⟩
  by_cases hvalues : values = []
  · subst hvalues
    have hbody : Written (.production .enumBody) [] [] := Written.many_nil.seq .opt_none
    refine ⟨[], hbody, ?_⟩
    rw [hbody.descendants (by decide)]
    exact .nil
  · obtain ⟨ts, hts, hall⟩ := Written.exists_separated hvalue (fun t v ht => ht.1) hvalues
    have hbody : Written (.production .enumBody) (separated (values.map ([·]))) ts := hts.opt_last
    refine ⟨ts, hbody, ?_⟩
    rw [hbody.descendants (by decide)]
    exact hall.imp fun t v ht => ht.2

/-- The children of an enum. -/
def enumTrees (name : String) (values : List Tree) : List Tree :=
  [bareLeaf .enumKeyword "enum", bareLeaf .identifier name, bareLeaf .punctuation "\x7b",
    node .enumBody values, bareLeaf .punctuation "\x7d"]

theorem enum_written {key : EntityKey} {values : List String}
    (hname : IsToken .identifier key.name) (hvalues : ∀ v ∈ values, IsToken .identifier v) :
    ∃ t, Written .typeDecl (Entity.words ⟨key, .ofEnum values⟩) [t] ∧
      Silent (declared policy key.scope) t [⟨key, .ofEnum values⟩] := by
  obtain ⟨ts, hts, hall⟩ := values_written hvalues
  have hkeyword : Written (.kind .enumKeyword) ["enum"] [bareLeaf .enumKeyword "enum"] :=
    .kind (by decide)
  have hdecl : Written (.production .enumDecl) (Entity.words ⟨key, .ofEnum values⟩)
      (enumTrees key.name ts) :=
    ((Written.opt_none.seq hkeyword).seq
      ((((((written_identifier hname).seq .opt_none).seq written_open).seq hts.rule).seq
        written_close).seq .opt_none)).congr (by simp [Entity.words]) (by simp [enumTrees])
  refine ⟨node .enumDecl (enumTrees key.name ts), hdecl.rule.right, ?_⟩
  have hname : requiredToken (node .enumDecl (enumTrees key.name ts)) .identifier "enum name" =
      .ok key.name := rfl
  have hbody : (node .enumDecl (enumTrees key.name ts)).childNode? .enumBody =
      some (node .enumBody ts) := rfl
  have henum : enumEntity key.scope (node .enumDecl (enumTrees key.name ts)) =
      .ok (⟨key, .ofEnum values⟩, []) := by
    rw [enumEntity, hname, hbody]
    simp only [mapM_eq_of_forall₂ hall]
    rfl
  show (enumEntity key.scope (node .enumDecl (enumTrees key.name ts))).map _ = _
  rw [henum]
  rfl

theorem entity_written {e : Entity} (h : WritableEntity policy e) :
    ∃ t, Written .typeDecl e.words [t] ∧ Silent (declared policy e.key.scope) t [e] := by
  obtain ⟨key, body⟩ := e
  cases body with
  | ofClass attributes methods => exact class_written h.name h.attributes h.methods
  | ofEnum values => exact enum_written h.name h.values

/-! ## Units -/

/-- The children of a namespace with one declaration. -/
def namespaceTrees (scope : String) (decl : Tree) : List Tree :=
  [bareLeaf .namespaceKeyword "namespace", bareLeaf .identifier scope, bareLeaf .punctuation "\x7b",
    decl, bareLeaf .punctuation "\x7d"]

theorem namespace_written {e : Entity} (h : WritableEntity policy e) :
    ∃ t, Written (.rule .namespaceDecl) e.blockWords [t] ∧ t.rule? = some .namespaceDecl ∧
      Silent (namespaceEntities policy) t [e] := by
  obtain ⟨t, ht, hdeclared⟩ := entity_written h
  have hkeyword : Written (.kind .namespaceKeyword) ["namespace"]
      [bareLeaf .namespaceKeyword "namespace"] := .kind (by decide)
  have hdecl : Written (.production .namespaceDecl) e.blockWords (namespaceTrees e.key.scope t) :=
    (hkeyword.seq ((written_identifier h.scope).seq
      ((written_open.seq (ht.many_cons .many_nil)).seq written_close).left)).congr
        (by simp [Entity.blockWords]) (by simp [namespaceTrees])
  refine ⟨node .namespaceDecl (namespaceTrees e.key.scope t), hdecl.rule, rfl, ?_⟩
  have hscope : requiredToken (node .namespaceDecl (namespaceTrees e.key.scope t)) .identifier
      "namespace name" = .ok e.key.scope := rfl
  -- The leaves around the declaration declare nothing.
  have hleaf (kind : TokenKind) (text : String) :
      Silent (declared policy e.key.scope) (bareLeaf kind text) [] := rfl
  have hchildren : List.Forall₂ (Silent (declared policy e.key.scope)) (namespaceTrees e.key.scope t)
      [[], [], [], [e], []] :=
    .cons (hleaf _ _) (.cons (hleaf _ _) (.cons (hleaf _ _) (.cons hdeclared (.cons (hleaf _ _) .nil))))
  obtain ⟨results, hresults, hgather⟩ := gather_silent hchildren
  rw [Silent, namespaceEntities, hscope]
  show ((namespaceTrees e.key.scope t).mapM (declared policy e.key.scope) >>= fun results =>
    pure ((gather results).1.flatten, (gather results).2)) = _
  rw [hresults]
  show Except.ok ((gather results).1.flatten, (gather results).2) = _
  rw [hgather]
  rfl

/-- The words of writable entities are a unit with these entities. -/
theorem unit_written {m : Model} (h : ∀ e ∈ m, WritableEntity policy e) (hne : m ≠ []) :
    ∃ ts, Written (.production .compilationUnit) (m.flatMap Entity.blockWords) ts ∧
      Silent (model policy) (node .compilationUnit ts) m := by
  cases m with
  | nil => exact absurd rfl hne
  | cons e es =>
      obtain ⟨t, ht, hfirst⟩ := namespace_written (h e List.mem_cons_self)
      obtain ⟨us, hus, hothers⟩ := Written.exists_many
        (fun f hf => namespace_written (h f (List.mem_cons_of_mem e hf))) .many_nil
      have hunit : Written (.production .compilationUnit) ((e :: es).flatMap Entity.blockWords) (t :: us) :=
        ((Written.many_nil.seq ht).seq hus).congr (by simp) (by simp)
      refine ⟨t :: us, hunit, ?_⟩
      obtain ⟨hrules, hentities⟩ := (List.forall₂_and_left _ _).mp (.cons hfirst hothers)
      have hnodes : (node .compilationUnit (t :: us)).descendants .namespaceDecl = t :: us := by
        rw [hunit.descendants (by decide)]
        exact filter_rule_eq_self hrules
      obtain ⟨results, hresults, hgather⟩ := gather_silent (List.forall₂_map_right_iff.mpr hentities)
      rw [Silent, model, hnodes, hresults]
      show Except.ok ((gather results).1.flatten, (gather results).2) = _
      rw [hgather, ← List.flatMap_def, List.flatMap_singleton']

end Declarations

/-! ## Source texts -/

/-- A model of writable entities is that of its source text, without warnings. -/
theorem parse_written {policy : DefaultPolicy} {m : Model} (h : ∀ e ∈ m, WritableEntity policy e)
    (hne : m ≠ []) : parse policy m.toSource = .ok (m, []) := by
  obtain ⟨ts, hwritten, hmodel⟩ := unit_written h hne
  obtain ⟨a, hscan, hbare⟩ := hwritten [] []
  have hsource : m.toSource.toList = chars (m.flatMap Entity.blockWords) := toList_spaced _
  have hhead : m.toSource.toList.head? = some 'n' := by
    cases m with
    | nil => exact absurd rfl hne
    | cons e es =>
        rw [hsource, List.flatMap_cons, Entity.blockWords]
        simp
  have hmark : stripMark m.toSource = m.toSource := stripMark_eq_self (by rw [hhead]; decide)
  have htokens : tokenize m.toSource = .ok a.yield := by
    rw [tokenize_ok, hsource]
    simpa [scan, Scan.after] using hscan
  rw [List.nil_append, List.append_nil, ← hsource] at hbare
  refine parse_of_derivation (by rwa [hmark]) ?_
  rw [hmark, hbare, hmodel]
  rfl

/-- Parsing is a left inverse of writing a model out. Whatever source a model was made of, and under
whatever policy, the source text of the model has the same model under the same policy, without
warnings. -/
theorem parse_toSource {policy : DefaultPolicy} {source : String} {m : Model} {warnings : List Warning}
    (h : parse policy source = .ok (m, warnings)) (hne : m ≠ []) :
    parse policy m.toSource = .ok (m, []) :=
  parse_written (model_writable h) hne

/-- A class with blanks in a type and a comment in an initial value, a default that is dropped, and an
enum. -/
def looseSource : String :=
  "namespace N; class A \x7b T < U > [ ] x = 1 // ;\n; A(ref T y, T z = 1.5) \x7b \x7d \x7d"
    ++ " enum E \x7b C, \x7d"

/-- The model of the source. -/
def looseModel : Model :=
  [⟨⟨"N", "A"⟩, .ofClass [⟨"x", "T<U>[]", .isPrivate, some "1 // ;"⟩]
      [⟨"A", none, .isPrivate, [⟨"y", "T", .both, none⟩, ⟨"z", "T", .input, none⟩]⟩]⟩,
    ⟨⟨"N", "E"⟩, .ofEnum ["C"]⟩]

theorem parse_toSource_loose :
    parse .drop looseSource = .ok (looseModel, [.droppedDefault "z" "1.5" .numberLiteral]) ∧
      parse .drop looseModel.toSource = .ok (looseModel, []) := by
  have hparse : (parse .drop looseSource).toOption =
      some (looseModel, [.droppedDefault "z" "1.5" .numberLiteral]) := by
    decide +kernel
  exact ⟨eq_ok_of_toOption hparse, parse_toSource (eq_ok_of_toOption hparse) (List.cons_ne_nil _ _)⟩

end ClassChart.Extract

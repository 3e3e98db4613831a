/-
# ClassChart.Proofs.Extract.Bare — extraction looks neither at positions nor into bodies

A tree that was read and the same tree when bare have the same model, with the same warnings. Only
failures differ, since they name a place; so results are compared as options. Each step of extraction
has a law of this form, from the innermost declarations outwards.
-/
import ClassChart.Proofs.Extract.Order
import ClassChart.Proofs.Grammar.Plain
import ClassChart.Proofs.Tree.Bare

namespace ClassChart.Extract

open ClassChart.Tree ClassChart.Grammar

/-! ## Successes -/

section Success

variable {ε α β γ : Type}

theorem eq_ok_of_toOption {x : Except ε α} {a : α} (h : x.toOption = some a) : x = .ok a := by
  cases x with
  | error e => cases h
  | ok b =>
      cases h
      rfl

/-- Two steps succeed if the first does, and the second does on what it gave. -/
theorem toOption_bind (x : Except ε α) (f : α → Except ε β) :
    (x >>= f).toOption = x.toOption.bind fun a => (f a).toOption := by
  cases x with
  | error e => rfl
  | ok a => rfl

theorem toOption_map (x : Except ε α) (f : α → β) : (x.map f).toOption = x.toOption.map f := by
  cases x with
  | error e => rfl
  | ok a => rfl

/-- Repetitions succeed alike when their steps do. -/
theorem toOption_mapM_congr {f : β → Except ε γ} {f' : α → Except ε γ} {g : α → β} {xs : List α}
    (h : ∀ x ∈ xs, (f (g x)).toOption = (f' x).toOption) :
    ((xs.map g).mapM f).toOption = (xs.mapM f').toOption := by
  induction xs with
  | nil => rfl
  | cons x xs ih =>
      rw [List.map_cons, List.mapM_cons, List.mapM_cons, toOption_bind, toOption_bind,
        h x List.mem_cons_self]
      congr 1
      funext y
      rw [toOption_bind, toOption_bind, ih fun z hz => h z (List.mem_cons_of_mem x hz)]

end Success

/-! ## Facts -/

theorem childToken?_kind {t : Tree} {kind : TokenKind} {u : Token}
    (h : t.childToken? kind = some u) : u.kind = kind :=
  eq_of_beq (childToken?_mem_leaves h).2

/-- Names are read alike, because no body is asked for its text. -/
theorem bare_requiredToken (t : Tree) {kind : TokenKind} (hkind : kind ≠ .body) (expected : String) :
    (requiredToken t.bare kind expected).toOption = (requiredToken t kind expected).toOption := by
  unfold requiredToken
  rw [bare_childToken?]
  cases hfound : t.childToken? kind with
  | none => rfl
  | some u =>
      have hbare := Token.bare_text (t := u) (by rw [childToken?_kind hfound]; exact hkind)
      simp only [Option.map_some, hbare]

theorem bare_visibility (decl : Tree) : visibility decl.bare = visibility decl := by
  unfold visibility
  rw [bare_childNode?]
  cases decl.childNode? .modifier with
  | none => rfl
  | some modifier =>
      cases hfound : modifier.childToken? .visibility with
      | none => simp [hfound]
      | some keyword =>
          have hkind : keyword.kind ≠ .body := by
            rw [childToken?_kind hfound]
            decide
          simp [hfound, Token.bare_text hkind]

theorem bare_direction (param : Tree) : direction param.bare = direction param := by
  unfold direction
  cases hfound : param.childToken? .direction with
  | none => simp [hfound]
  | some keyword =>
      have hkind : keyword.kind ≠ .body := by
        rw [childToken?_kind hfound]
        decide
      simp [hfound, Token.bare_text hkind]

/-- The initial value stays where it was. -/
theorem bare_initializer? (ts : List Tree) :
    initializer? (ts.map bare) = (initializer? ts).map Token.bare := by
  fun_induction initializer? ts with
  | case1 equals value rest h => simp [initializer?, h]
  | case2 equals value rest h ih =>
      simp only [List.map_cons, bare_leaf, initializer?, Token.bare_text_eq, Token.bare_kind, h,
        if_false] at ih ⊢
      exact ih
  | case3 t rest hleaves ih =>
      rw [← ih]
      cases t with
      | node r cs => simp [initializer?]
      | leaf equals =>
          cases rest with
          | nil => simp [initializer?]
          | cons next rest =>
              cases next with
              | leaf value => exact absurd rfl (hleaves equals value rest rfl)
              | node r cs => simp [initializer?]
  | case4 => rfl

theorem initializer?_kind {ts : List Tree} {value : Token} (h : initializer? ts = some value) :
    value.kind = .valueLiteral := by
  fun_induction initializer? ts with
  | case1 equals found rest hfound =>
      cases h
      exact hfound.2
  | case2 _ _ _ _ ih => exact ih h
  | case3 _ _ _ ih => exact ih h
  | case4 => cases h

section Facts

variable {source : List Char} {e : Phrase} {r : Rule}

theorem kind_ne_body {t : Token} (h : ¬ IsRegion t) : t.kind ≠ .body := fun hbody => h (Or.inl hbody)

/-- The leaves of plain rules are no regions. -/
theorem plain_outside {rule : Rule} (hrule : isPlainRule rule = true)
    (a : Derivation (.production rule)) : ∀ t ∈ leavesAll (a.trees source), ¬ IsRegion t := by
  intro t ht
  rw [leavesAll_plain (production_isPlain hrule)] at ht
  exact mem_yield_plain (fun r _ => production_outside r) (production_isPlain hrule)
    (production_outside rule) a ht

theorem bare_flatten {ts : List Token} (hts : ∀ t ∈ ts, ¬ IsRegion t) :
    flatten (ts.map Token.bare) = flatten ts := by
  rw [flatten, flatten, List.map_map]
  congr 1
  exact List.map_congr_left fun t ht => Token.bare_text (kind_ne_body (hts t ht))

/-- No body stands in a type, so its text stays. -/
theorem bare_typeText? {rule : Rule} (hrule : isPlainRule rule = true) (d : Derivation e) :
    typeText? (node r (d.trees source)).bare rule = typeText? (node r (d.trees source)) rule := by
  unfold typeText?
  rw [bare_childNode?]
  cases hchild : (node r (d.trees source)).childNode? rule with
  | none => rfl
  | some child =>
      obtain ⟨_, a, rfl⟩ := exists_of_childNode? hchild
      have hleaves : (node rule (a.trees source)).tokens = leavesAll (a.trees source) := tokens_eq _
      have houtside : ∀ t ∈ leavesAll (a.trees source), ¬ IsRegion t := plain_outside hrule a
      simp only [Option.map_some, bare_tokens, hleaves, bare_flatten houtside, List.head?_map,
        Option.any_map]
      rfl

theorem bare_requiredType (d : Derivation e) (expected : String) :
    (requiredType (node r (d.trees source)).bare expected).toOption =
      (requiredType (node r (d.trees source)) expected).toOption := by
  unfold requiredType
  rw [bare_typeText? (by rfl) d]
  cases typeText? (node r (d.trees source)) .typeName with
  | none => rfl
  | some text => rfl

end Facts

/-! ## Declarations -/

/-- The first leaf of the default of a parameter. -/
def defaultLeaf? (param : Tree) : Option Token :=
  (param.childNode? .defaultValue).bind fun value => (leavesAll value.children).head?

theorem default?_eq (param : Tree) :
    default? param =
      match defaultLeaf? param with
      | none => .ok none
      | some value =>
        if value.kind = .integerLiteral ∨ value.kind = .stringLiteral then .ok (some value.text)
        else .error ⟨value.kind, value.text, value.span⟩ := by
  have hleaf : defaultLeaf? param =
      ((param.childNode? .defaultValue).bind (·.cursor.next?)).map (·.1) := by
    unfold defaultLeaf?
    cases param.childNode? .defaultValue with
    | none => rfl
    | some value => exact (cursor_next? value).symm
  rw [default?, hleaf]
  cases (param.childNode? .defaultValue).bind (·.cursor.next?) with
  | none => rfl
  | some found => rfl

section Steps

variable {source : List Char} {policy : DefaultPolicy}

/-- An attribute does not depend on bodies. -/
theorem bare_attributeOf (a : Derivation (.production .attrDecl)) :
    (attributeOf (node .attrDecl (a.trees source)).bare).toOption =
      (attributeOf (node .attrDecl (a.trees source))).toOption := by
  have hinitial : (initializer? (node .attrDecl (a.trees source)).bare.children).map
      (fun value => String.ofList (stripTerminator value.text.toList)) =
      (initializer? (node .attrDecl (a.trees source)).children).map
        (fun value => String.ofList (stripTerminator value.text.toList)) := by
    rw [bare_children, bare_initializer?]
    cases hvalue : initializer? (node .attrDecl (a.trees source)).children with
    | none => rfl
    | some value =>
        have hkind : value.kind ≠ .body := by
          rw [initializer?_kind hvalue]
          decide
        simp only [Option.map_some, Token.bare_text hkind]
  unfold attributeOf
  simp only [toOption_bind, bare_requiredToken _ (show TokenKind.identifier ≠ .body by decide),
    bare_requiredType, hinitial, bare_visibility]

/-- The default of a parameter is a single token of its parameter. -/
theorem defaultLeaf?_mem {a : Derivation (.production .param)} {value : Token}
    (h : defaultLeaf? (node .param (a.trees source)) = some value) :
    value ∈ leavesAll (a.trees source) ∧ isDefaultValue value = true := by
  obtain ⟨child, hchild, hvalue⟩ := Option.bind_eq_some_iff.mp h
  obtain ⟨hmem, b, rfl⟩ := exists_of_childNode? hchild
  obtain ⟨t, ht, rfl⟩ := b.exists_token
  obtain rfl : t = value := Option.some.inj hvalue
  refine ⟨mem_leavesAll hmem ?_, ht⟩
  rw [leaves_node]
  exact List.mem_cons_self

/-- A default is no region. -/
theorem defaultLeaf?_outside (a : Derivation (.production .param)) {value : Token}
    (h : defaultLeaf? (node .param (a.trees source)) = some value) : ¬ IsRegion value := by
  obtain ⟨child, hchild, hvalue⟩ := Option.bind_eq_some_iff.mp h
  obtain ⟨_, b, rfl⟩ := exists_of_childNode? hchild
  have hrule : isPlainRule .defaultValue = true := rfl
  exact plain_outside hrule b value (List.mem_of_head? hvalue)

/-- A default does not depend on bodies, whatever the policy. -/
theorem bare_supported (name : String) (a : Derivation (.production .param)) :
    (supported policy name (node .param (a.trees source)).bare).toOption =
      (supported policy name (node .param (a.trees source))).toOption := by
  have hleaf : defaultLeaf? (node .param (a.trees source)).bare =
      (defaultLeaf? (node .param (a.trees source))).map Token.bare := by
    unfold defaultLeaf?
    rw [bare_childNode?]
    cases (node .param (a.trees source)).childNode? .defaultValue with
    | none => rfl
    | some value => simp [bare_leavesAll]
  unfold supported
  rw [default?_eq, default?_eq, hleaf]
  cases hvalue : defaultLeaf? (node .param (a.trees source)) with
  | none => rfl
  | some value =>
      have htext := Token.bare_text (kind_ne_body (defaultLeaf?_outside a hvalue))
      simp only [Option.map_some, Token.bare_kind, htext]
      by_cases hkind : value.kind = .integerLiteral ∨ value.kind = .stringLiteral
      · rw [if_pos hkind, if_pos hkind]
      · rw [if_neg hkind, if_neg hkind]
        cases policy <;> rfl

theorem bare_parameterOf (a : Derivation (.production .param)) :
    (parameterOf policy (node .param (a.trees source)).bare).toOption =
      (parameterOf policy (node .param (a.trees source))).toOption := by
  unfold parameterOf
  simp only [toOption_bind, bare_requiredToken _ (show TokenKind.identifier ≠ .body by decide),
    bare_requiredType, bare_supported, bare_direction]

theorem bare_parameterNodes (method : Tree) :
    parameterNodes method.bare = (parameterNodes method).map bare := by
  unfold parameterNodes
  rw [bare_childNode?]
  cases method.childNode? .params with
  | none => rfl
  | some params => simp

/-- A method does not depend on its body. -/
theorem bare_methodOf (a : Derivation (.production .methodDecl)) :
    (methodOf policy (node .methodDecl (a.trees source)).bare).toOption =
      (methodOf policy (node .methodDecl (a.trees source))).toOption := by
  have hparameters : ((parameterNodes (node .methodDecl (a.trees source)).bare).mapM
      (parameterOf policy)).toOption =
      ((parameterNodes (node .methodDecl (a.trees source))).mapM (parameterOf policy)).toOption := by
    rw [bare_parameterNodes]
    refine toOption_mapM_congr fun c hc => ?_
    obtain ⟨_, b, rfl⟩ := exists_of_mem_parameterNodes hc
    exact bare_parameterOf b
  unfold methodOf
  simp only [toOption_bind, bare_requiredToken _ (show TokenKind.identifier ≠ .body by decide),
    hparameters, bare_visibility, bare_typeText? (show isPlainRule .returnType = true by rfl)]

/-- A class does not depend on the bodies in it. -/
theorem bare_classEntity (scope : String) (a : Derivation (.production .classDecl)) :
    (classEntity policy scope (node .classDecl (a.trees source)).bare).toOption =
      (classEntity policy scope (node .classDecl (a.trees source))).toOption := by
  have hattributes : (((node .classDecl (a.trees source)).bare.descendants .attrDecl).mapM
      attributeOf).toOption =
      (((node .classDecl (a.trees source)).descendants .attrDecl).mapM attributeOf).toOption := by
    rw [bare_descendants, descendants_eq_childNodes (by decide) a]
    refine toOption_mapM_congr fun c hc => ?_
    obtain ⟨_, b, rfl⟩ := exists_of_mem_childNodes hc
    exact bare_attributeOf b
  have hmethods : (((node .classDecl (a.trees source)).bare.descendants .methodDecl).mapM
      (methodOf policy)).toOption =
      (((node .classDecl (a.trees source)).descendants .methodDecl).mapM
        (methodOf policy)).toOption := by
    rw [bare_descendants, descendants_eq_childNodes (by decide) a]
    refine toOption_mapM_congr fun c hc => ?_
    obtain ⟨_, b, rfl⟩ := exists_of_mem_childNodes hc
    exact bare_methodOf b
  unfold classEntity
  simp only [toOption_bind, bare_requiredToken _ (show TokenKind.identifier ≠ .body by decide),
    hattributes, hmethods]

theorem bare_enumEntity (scope : String) (a : Derivation (.production .enumDecl)) :
    (enumEntity scope (node .enumDecl (a.trees source)).bare).toOption =
      (enumEntity scope (node .enumDecl (a.trees source))).toOption := by
  obtain ⟨body, hbody⟩ := enum_body source a
  unfold enumEntity
  rw [bare_childNode?, hbody]
  simp only [toOption_bind, bare_requiredToken _ (show TokenKind.identifier ≠ .body by decide),
    Option.map_some, bare_descendants]
  congr 1
  funext name
  congr 1
  refine toOption_mapM_congr fun c _ => ?_
  exact bare_requiredToken c (by decide) _

/-- Nor does anything that a namespace declares. -/
theorem bare_declared (scope : String) {e : Phrase} (d : Derivation e) {c : Tree}
    (hc : c ∈ d.trees source) :
    (declared policy scope c.bare).toOption = (declared policy scope c).toOption := by
  unfold declared
  rw [bare_rule?]
  split
  · rename_i hrule
    obtain ⟨a, rfl⟩ := exists_derivation d hc hrule
    rw [toOption_map, toOption_map, bare_classEntity]
  · rename_i hrule
    obtain ⟨a, rfl⟩ := exists_derivation d hc hrule
    rw [toOption_map, toOption_map, bare_enumEntity]
  · rfl

theorem bare_namespaceEntities (a : Derivation (.production .namespaceDecl)) :
    (namespaceEntities policy (node .namespaceDecl (a.trees source)).bare).toOption =
      (namespaceEntities policy (node .namespaceDecl (a.trees source))).toOption := by
  have hdeclared (scope : String) : (((node .namespaceDecl (a.trees source)).bare.children).mapM
      (declared policy scope)).toOption =
      (((node .namespaceDecl (a.trees source)).children).mapM (declared policy scope)).toOption := by
    rw [bare_children]
    exact toOption_mapM_congr fun c hc => bare_declared scope a hc
  unfold namespaceEntities
  simp only [toOption_bind, bare_requiredToken _ (show TokenKind.identifier ≠ .body by decide),
    hdeclared]

/-- A tree that was read and the same tree when bare have the same model and the same warnings. -/
theorem bare_model (a : Derivation (.production .compilationUnit)) :
    (model policy (node .compilationUnit (a.trees source)).bare).toOption =
      (model policy (node .compilationUnit (a.trees source))).toOption := by
  have hparts : (((node .compilationUnit (a.trees source)).bare.descendants .namespaceDecl).mapM
      (namespaceEntities policy)).toOption =
      (((node .compilationUnit (a.trees source)).descendants .namespaceDecl).mapM
        (namespaceEntities policy)).toOption := by
    rw [bare_descendants, descendants_eq_childNodes (by decide) a]
    refine toOption_mapM_congr fun c hc => ?_
    obtain ⟨_, b, rfl⟩ := exists_of_mem_childNodes hc
    exact bare_namespaceEntities b
  unfold model
  simp only [toOption_bind, hparts]

end Steps

/-- A source whose tokens are derived has the model of the derivation when bare. -/
theorem parse_of_derivation {policy : DefaultPolicy} {source : String} {result : Model × List Warning}
    {a : Derivation (.production .compilationUnit)} (htokens : tokenize (stripMark source) = .ok a.yield)
    (hmodel : (model policy
      (node .compilationUnit ((a.trees (stripMark source).toList).map bare))).toOption = some result) :
    parse policy source = .ok result := by
  have htree : parseTree (stripMark source) =
      .ok (node .compilationUnit (a.trees (stripMark source).toList)) := by
    unfold parseTree
    rw [htokens]
    simp only [buildTree_complete]
  rw [← bare_node, bare_model a] at hmodel
  unfold parse
  rw [htree]
  simp only [eq_ok_of_toOption hmodel]

end ClassChart.Extract

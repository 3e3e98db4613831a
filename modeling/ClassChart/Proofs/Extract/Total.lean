/-
# ClassChart.Proofs.Extract.Total — extraction finds what it asks for

Every tree that was read has a model: under each policy extraction succeeds, or it fails for the single
reason that the policy rejects a default. So the report of a missing part is never seen. And what a model
names are identifiers of the source, with types that are not empty. Both go from the innermost
declarations outwards, along the nodes that each step looks at.
-/
import ClassChart.Proofs.Extract.Parts
import ClassChart.Proofs.Token.Scan

namespace ClassChart.Extract

open ClassChart.Tree ClassChart.Grammar

/-! ## Every step settles -/

section Settling

variable {source : List Char} {policy : DefaultPolicy}

theorem attributeOf_settles (a : Derivation (.production .attrDecl)) :
    Settles policy (attributeOf (node .attrDecl (a.trees source))) := by
  obtain ⟨name, ty, hname, htype⟩ := attribute_parts source a
  unfold attributeOf
  rw [hname.2, htype]
  trivial

theorem parameterOf_settles (a : Derivation (.production .param)) :
    Settles policy (parameterOf policy (node .param (a.trees source))) := by
  obtain ⟨name, ty, hname, htype⟩ := parameter_parts source a
  unfold parameterOf
  rw [hname.2, htype]
  refine Settles.bind trivial fun _ _ => Settles.bind trivial fun _ _ => ?_
  exact Settles.bind (supported_settles policy _ _) fun _ _ => trivial

theorem methodOf_settles (a : Derivation (.production .methodDecl)) :
    Settles policy (methodOf policy (node .methodDecl (a.trees source))) := by
  obtain ⟨name, hname⟩ := method_parts source a
  unfold methodOf
  rw [hname.2]
  refine Settles.bind trivial fun _ _ => Settles.bind (Settles.mapM fun c hc => ?_) fun _ _ => trivial
  obtain ⟨_, b, rfl⟩ := exists_of_mem_parameterNodes hc
  exact parameterOf_settles b

theorem classEntity_settles (scope : String) (a : Derivation (.production .classDecl)) :
    Settles policy (classEntity policy scope (node .classDecl (a.trees source))) := by
  obtain ⟨_, _, name, _, _, hname, _⟩ := class_parts source a
  unfold classEntity
  rw [hname.2, descendants_eq_childNodes (by decide) a,
    descendants_eq_childNodes (by decide) a]
  refine Settles.bind trivial fun _ _ => Settles.bind (Settles.mapM fun c hc => ?_) fun _ _ =>
    Settles.bind (Settles.mapM fun c hc => ?_) fun _ _ => trivial
  · obtain ⟨_, b, rfl⟩ := exists_of_mem_childNodes hc
    exact attributeOf_settles b
  · obtain ⟨_, b, rfl⟩ := exists_of_mem_childNodes hc
    exact methodOf_settles b

theorem enumEntity_settles (scope : String) (a : Derivation (.production .enumDecl)) :
    Settles policy (enumEntity scope (node .enumDecl (a.trees source))) := by
  obtain ⟨_, _, name, _, _, _, _, hname, _⟩ := enum_parts source a
  obtain ⟨body, hbody⟩ := enum_body source a
  obtain ⟨_, b, rfl⟩ := exists_of_childNode? hbody
  unfold enumEntity
  rw [hname.2, hbody]
  refine Settles.bind trivial fun _ _ => Settles.bind (Settles.mapM fun c hc => ?_) fun _ _ => trivial
  rw [descendants_eq_childNodes (by decide) b] at hc
  obtain ⟨_, v, rfl⟩ := exists_of_mem_childNodes hc
  obtain ⟨name, hname⟩ := enumValue_parts source v
  rw [hname.2]
  trivial

theorem declared_settles (scope : String) {e : Phrase} (d : Derivation e) {c : Tree}
    (hc : c ∈ d.trees source) : Settles policy (declared policy scope c) := by
  unfold declared
  split
  · rename_i hrule
    obtain ⟨a, rfl⟩ := exists_derivation d hc hrule
    exact (classEntity_settles scope a).map
  · rename_i hrule
    obtain ⟨a, rfl⟩ := exists_derivation d hc hrule
    exact (enumEntity_settles scope a).map
  · trivial

theorem namespaceEntities_settles (a : Derivation (.production .namespaceDecl)) :
    Settles policy (namespaceEntities policy (node .namespaceDecl (a.trees source))) := by
  obtain ⟨_, name, _, _, hname, _⟩ := namespace_parts source a
  unfold namespaceEntities
  rw [hname.2]
  refine Settles.bind trivial fun _ _ => Settles.bind (Settles.mapM fun c hc => ?_) fun _ _ => trivial
  exact declared_settles _ a hc

theorem model_settles (a : Derivation (.production .compilationUnit)) :
    Settles policy (model policy (node .compilationUnit (a.trees source))) := by
  unfold model
  rw [descendants_eq_childNodes (by decide) a]
  refine Settles.bind (Settles.mapM fun c hc => ?_) fun _ _ => trivial
  obtain ⟨_, b, rfl⟩ := exists_of_mem_childNodes hc
  exact namespaceEntities_settles b

end Settling

/-! ## Names -/

/-- The text is that of an identifier among the tokens: it has characters and is no keyword. -/
structure IsIdentifierOf (tokens : List Token) (text : String) : Prop where
  nonempty : text ≠ ""
  isWord : TokenKind.ofWord text = .identifier
  occurs : ∃ t ∈ tokens, t.kind = .identifier ∧ t.text = text

/-- Everything in an entity is named by identifiers among the tokens, and no type is empty. -/
structure WellNamed (tokens : List Token) (e : Entity) : Prop where
  scope : IsIdentifierOf tokens e.key.scope
  name : IsIdentifierOf tokens e.key.name
  attributes : ∀ a ∈ e.attributes, IsIdentifierOf tokens a.name ∧ a.typeName ≠ ""
  methods : ∀ m ∈ e.methods, IsIdentifierOf tokens m.name
  parameters : ∀ m ∈ e.methods, ∀ p ∈ m.parameters, IsIdentifierOf tokens p.name ∧ p.typeName ≠ ""
  values : ∀ v ∈ e.values, IsIdentifierOf tokens v

/-- Every identifier among the leaves of a tree is one among the tokens. -/
def LeavesNamed (tokens : List Token) (t : Tree) : Prop :=
  ∀ u ∈ t.leaves, u.isKind .identifier = true → IsIdentifierOf tokens u.text

section Naming

variable {source : List Char} {policy : DefaultPolicy} {tokens : List Token} {r : Rule}

theorem LeavesNamed.of_mem {cs : List Tree} {c : Tree} (h : LeavesNamed tokens (node r cs))
    (hc : c ∈ cs) : LeavesNamed tokens c := by
  intro u hu
  exact h u (by rw [leaves_node]; exact mem_leavesAll hc hu)

theorem requiredToken_named {t : Tree} {expected text : String} (h : LeavesNamed tokens t)
    (hok : requiredToken t .identifier expected = .ok text) : IsIdentifierOf tokens text := by
  obtain ⟨u, hu, rfl⟩ := requiredToken_ok hok
  obtain ⟨hmem, hkind⟩ := childToken?_mem_leaves hu
  exact h u hmem hkind

theorem requiredType_ne_empty {e : Phrase} {d : Derivation e} {expected text : String}
    (h : LeavesNamed tokens (node r (d.trees source)))
    (hok : requiredType (node r (d.trees source)) expected = .ok text) : text ≠ "" := by
  have htype := requiredType_ok hok
  unfold typeText? at htype
  split at htype
  · cases htype
  · rename_i child hchild
    obtain ⟨hmem, ty, rfl⟩ := exists_of_childNode? hchild
    obtain ⟨name, rest, hname, htrees⟩ := type_parts source ty
    have hleaves : (node .typeName (ty.trees source)).tokens = name :: leavesAll rest := by
      rw [tokens_eq, children, htrees, leavesAll_cons, leaves_leaf]
      rfl
    have hnamed : IsIdentifierOf tokens name.text := by
      refine h.of_mem hmem name ?_ hname
      rw [leaves_node, htrees, leavesAll_cons, leaves_leaf]
      exact List.mem_cons_self
    simp only [hleaves] at htype
    split at htype
    · cases htype
    · obtain rfl := Option.some.inj htype
      rw [flatten, List.map_cons, String.join_cons]
      intro hempty
      exact hnamed.nonempty (String.append_eq_empty_iff.mp hempty).1

theorem attribute_named {d : Derivation (.production .attrDecl)} {a : Attribute}
    (h : LeavesNamed tokens (node .attrDecl (d.trees source)))
    (hok : attributeOf (node .attrDecl (d.trees source)) = .ok a) :
    IsIdentifierOf tokens a.name ∧ a.typeName ≠ "" := by
  obtain ⟨hname, htype⟩ := attributeOf_ok hok
  exact ⟨requiredToken_named h hname, requiredType_ne_empty h htype⟩

theorem parameter_named {d : Derivation (.production .param)} {p : Parameter}
    (h : LeavesNamed tokens (node .param (d.trees source)))
    (hok : Gives (parameterOf policy) (node .param (d.trees source)) p) :
    IsIdentifierOf tokens p.name ∧ p.typeName ≠ "" := by
  obtain ⟨hname, htype⟩ := parameterOf_ok hok
  exact ⟨requiredToken_named h hname, requiredType_ne_empty h htype⟩

theorem method_named {d : Derivation (.production .methodDecl)} {m : Method}
    (h : LeavesNamed tokens (node .methodDecl (d.trees source)))
    (hok : Gives (methodOf policy) (node .methodDecl (d.trees source)) m) :
    IsIdentifierOf tokens m.name ∧
      ∀ p ∈ m.parameters, IsIdentifierOf tokens p.name ∧ p.typeName ≠ "" := by
  obtain ⟨hname, hparameters⟩ := methodOf_ok hok
  refine ⟨requiredToken_named h hname, fun p hp => ?_⟩
  obtain ⟨c, hc, hgives⟩ := exists_of_forall₂ hparameters hp
  obtain ⟨hleaves, b, rfl⟩ := exists_of_mem_parameterNodes hc
  refine parameter_named (fun u hu => h u ?_) hgives
  rw [leaves_node]
  exact hleaves hu

theorem class_named {scope : String} {d : Derivation (.production .classDecl)} {e : Entity}
    (hscope : IsIdentifierOf tokens scope)
    (h : LeavesNamed tokens (node .classDecl (d.trees source)))
    (hok : Gives (classEntity policy scope) (node .classDecl (d.trees source)) e) :
    WellNamed tokens e := by
  obtain ⟨name, attributes, methods, rfl, hname, hattributes, hmethods⟩ := classEntity_ok hok
  rw [descendants_eq_childNodes (by decide) d] at hattributes hmethods
  have hmethod : ∀ m ∈ methods, IsIdentifierOf tokens m.name ∧
      ∀ p ∈ m.parameters, IsIdentifierOf tokens p.name ∧ p.typeName ≠ "" := by
    intro m hm
    obtain ⟨c, hc, hgives⟩ := exists_of_forall₂ hmethods hm
    obtain ⟨hmem, b, rfl⟩ := exists_of_mem_childNodes hc
    exact method_named (h.of_mem hmem) hgives
  refine ⟨hscope, requiredToken_named h hname, fun a ha => ?_, fun m hm => (hmethod m hm).1,
    fun m hm => (hmethod m hm).2, fun v hv => absurd hv List.not_mem_nil⟩
  obtain ⟨c, hc, hgives⟩ := exists_of_forall₂ hattributes ha
  obtain ⟨hmem, b, rfl⟩ := exists_of_mem_childNodes hc
  exact attribute_named (h.of_mem hmem) hgives

theorem enum_named {scope : String} {d : Derivation (.production .enumDecl)} {e : Entity}
    (hscope : IsIdentifierOf tokens scope)
    (h : LeavesNamed tokens (node .enumDecl (d.trees source)))
    (hok : Gives (enumEntity scope) (node .enumDecl (d.trees source)) e) : WellNamed tokens e := by
  obtain ⟨name, body, values, rfl, hname, hbody, hvalues⟩ := enumEntity_ok hok
  obtain ⟨hmem, b, rfl⟩ := exists_of_childNode? hbody
  rw [descendants_eq_childNodes (by decide) b] at hvalues
  refine ⟨hscope, requiredToken_named h hname, fun a ha => absurd ha List.not_mem_nil,
    fun m hm => absurd hm List.not_mem_nil, fun m hm => absurd hm List.not_mem_nil, fun v hv => ?_⟩
  obtain ⟨c, hc, hok⟩ := exists_of_forall₂ hvalues hv
  obtain ⟨hin, _⟩ := exists_of_mem_childNodes hc
  exact requiredToken_named ((h.of_mem hmem).of_mem hin) hok

theorem namespace_named {d : Derivation (.production .namespaceDecl)} {es : List Entity}
    (h : LeavesNamed tokens (node .namespaceDecl (d.trees source)))
    (hok : Gives (namespaceEntities policy) (node .namespaceDecl (d.trees source)) es) :
    ∀ e ∈ es, WellNamed tokens e := by
  obtain ⟨scope, groups, hscope, hgroups, rfl⟩ := namespaceEntities_ok hok
  have hnamed := requiredToken_named h hscope
  intro e he
  obtain ⟨group, hgroup, he⟩ := List.mem_flatten.mp he
  obtain ⟨c, hc, hgives⟩ := exists_of_forall₂ hgroups hgroup
  rcases declared_ok hgives with ⟨hrule, f, rfl, hf⟩ | ⟨hrule, f, rfl, hf⟩ | ⟨_, _, rfl⟩
  · obtain rfl := List.mem_singleton.mp he
    obtain ⟨a, rfl⟩ := exists_derivation d hc hrule
    exact class_named hnamed (h.of_mem hc) hf
  · obtain rfl := List.mem_singleton.mp he
    obtain ⟨a, rfl⟩ := exists_derivation d hc hrule
    exact enum_named hnamed (h.of_mem hc) hf
  · exact absurd he List.not_mem_nil

theorem model_named {d : Derivation (.production .compilationUnit)} {m : Model}
    (h : LeavesNamed tokens (node .compilationUnit (d.trees source)))
    (hok : Gives (model policy) (node .compilationUnit (d.trees source)) m) :
    ∀ e ∈ m, WellNamed tokens e := by
  obtain ⟨parts, hparts, rfl⟩ := model_ok hok
  rw [descendants_eq_childNodes (by decide) d] at hparts
  intro e he
  obtain ⟨part, hpart, he⟩ := List.mem_flatten.mp he
  obtain ⟨c, hc, hgives⟩ := exists_of_forall₂ hparts hpart
  obtain ⟨hmem, b, rfl⟩ := exists_of_mem_childNodes hc
  exact namespace_named (h.of_mem hmem) hgives e he

end Naming

/-! ## Source texts -/

/-- The identifiers among the leaves of a tree that was read are those of its source. -/
theorem leavesNamed_of_tokenize {source : String} {a : Derivation (.production .compilationUnit)}
    (htokens : tokenize source = .ok a.yield) (chars : List Char) :
    LeavesNamed a.yield (node .compilationUnit (a.trees chars)) := by
  intro u hu hkind
  have hidentifier : u.kind = .identifier := eq_of_beq hkind
  rw [leaves_node] at hu
  rcases mem_yield_of_mem_leaves a hu with hmem | hbody | hvalue
  · obtain ⟨hnonempty, hword⟩ := tokenize_identifier htokens hmem hidentifier
    exact ⟨hnonempty, hword, u, hmem, hidentifier, rfl⟩
  · rw [hidentifier] at hbody
    cases hbody
  · rw [hidentifier] at hvalue
    cases hvalue

/-- Under every policy, a tree that was read has a model or a default that the policy rejects. -/
theorem parseTree_settles {source : String} {tree : Tree} (htree : parseTree source = .ok tree)
    (policy : DefaultPolicy) : Settles policy (model policy tree) := by
  obtain ⟨a, _, rfl⟩ := parseTree_ok htree
  exact model_settles a

theorem parse_error_code {policy : DefaultPolicy} {source : String} {error : ParseError}
    {d : Diagnostic} (herror : parse policy source = .error error) (hd : d ∈ error.diagnostics) :
    d.code ≠ some .missingNode := by
  intro hmissing
  rcases parse_error herror with hread | ⟨tree, failure, htree, hmodel, rfl⟩
  · rcases parseTree_error hread with htokens | ⟨found, code, rfl, hcode, hphase⟩
    · obtain ⟨code, hcode, hphase⟩ := tokenize_lexical htokens hd
      rw [hmissing] at hcode
      cases hcode
      cases hphase
    · obtain rfl := List.mem_singleton.mp hd
      rw [hmissing] at hcode
      cases hcode
      cases hphase
  · have hsettles := parseTree_settles htree policy
    rw [hmodel] at hsettles
    obtain ⟨_, value, rfl⟩ := hsettles
    obtain rfl := List.mem_singleton.mp hd
    cases hmissing

/-- Where defaults are rejected, a tree that was read has a model or gives one diagnostic. -/
theorem parse_reject {source : String} {tree : Tree}
    (htree : parseTree (stripMark source) = .ok tree) :
    (∃ result, model .reject tree = .ok result) ∨
      ∃ d, parse .reject source = .error ⟨[d]⟩ ∧ d.code = some .unsupportedDefault := by
  have hsettles := parseTree_settles htree .reject
  cases hmodel : model .reject tree with
  | ok result => exact Or.inl ⟨result, rfl⟩
  | error failure =>
      rw [hmodel] at hsettles
      obtain ⟨_, value, rfl⟩ := hsettles
      refine Or.inr ⟨(Failure.unsupported value).diagnostic, ?_, rfl⟩
      unfold parse
      rw [htree]
      simp only [hmodel]
      rfl

/-- Extraction never misses a part. No source is answered with the report of one. A source with a tree
has a model if defaults are dropped or kept, and if they are rejected it has a model or fails with a
single diagnostic about a default. And whatever is in a model is named by identifiers of the source, with
types that are not empty. -/
theorem parse_settles (policy : DefaultPolicy) (source : String) :
    (∀ error, parse policy source = .error error →
      ∀ d ∈ error.diagnostics, d.code ≠ some .missingNode) ∧
    (∀ tree, parseTree (stripMark source) = .ok tree →
      (∃ result, model .drop tree = .ok result) ∧ (∃ result, model .keep tree = .ok result) ∧
      ((∃ result, model .reject tree = .ok result) ∨
        ∃ d, parse .reject source = .error ⟨[d]⟩ ∧ d.code = some .unsupportedDefault)) ∧
    (∀ m warnings, parse policy source = .ok (m, warnings) →
      ∃ tokens, tokenize (stripMark source) = .ok tokens ∧ ∀ e ∈ m, WellNamed tokens e) := by
  refine ⟨?_, ?_, ?_⟩
  · intro error herror d hd
    exact parse_error_code herror hd
  · intro tree htree
    refine ⟨?_, ?_, parse_reject htree⟩
    · exact (parseTree_settles htree .drop).exists_ok (by decide)
    · exact (parseTree_settles htree .keep).exists_ok (by decide)
  · intro m warnings hparse
    obtain ⟨tree, htree, hmodel⟩ := parse_ok hparse
    obtain ⟨a, htokens, rfl⟩ := parseTree_ok htree
    exact ⟨a.yield, htokens, model_named (leavesNamed_of_tokenize htokens _) ⟨warnings, hmodel⟩⟩

end ClassChart.Extract

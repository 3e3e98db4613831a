/-
# ClassChart.Proofs.Extract.Order — a model has what the source has, in its order

The declarations of a model are found a second time here, without a tree: a scan over the tokens outside
bodies and values takes each keyword of a class or an enum, names the declaration by the token behind
it and places it in the last namespace that was seen. The scan passes over whatever admits none of these
keywords, which is everything below class and enum declarations. Members are compared with the immediate
children of the declaration, although extraction searches whole subtrees for them.
-/
import ClassChart.Proofs.Extract.Parts

namespace ClassChart.Extract

open ClassChart.Tree ClassChart.Grammar

/-! ## The scan -/

/-- The kind, the place and the name of a declaration. -/
structure Heading where
  isClass : Bool
  key : EntityKey
deriving DecidableEq, Repr

/-- The heading of an entity. -/
def headingOf (e : Entity) : Heading := ⟨e.isClass, e.key⟩

/-- The declarations that a scan finds, when `scope` is the namespace it is in. -/
def headings (scope : String) : List Token → List Heading
  | [] => []
  | t :: rest =>
    let next := (rest.head?.map (·.text)).getD ""
    if t.isKind .namespaceKeyword then headings next rest
    else if t.isKind .classKeyword then ⟨true, scope, next⟩ :: headings scope rest
    else if t.isKind .enumKeyword then ⟨false, scope, next⟩ :: headings scope rest
    else headings scope rest

instance : DecidablePred IsRegion := fun t =>
  inferInstanceAs (Decidable (t.kind = .body ∨ t.kind = .valueLiteral))

/-- The leaves of several trees outside bodies and values. -/
def outer (ts : List Tree) : List Token := (leavesAll ts).filter fun t => ¬ IsRegion t

/-- The leaves of a tree outside bodies and values. -/
def outerTokens (t : Tree) : List Token := t.leaves.filter fun t => ¬ IsRegion t

/-- The token is none of the keywords that the scan looks for. -/
def Quiet (t : Token) : Prop :=
  t.isKind .namespaceKeyword = false ∧ t.isKind .classKeyword = false ∧ t.isKind .enumKeyword = false

section Scan

variable {scope : String} {t name : Token} {front rest : List Token}

/-- Tokens that are no keyword of a declaration are passed over. -/
theorem headings_quiet (hfront : ∀ t ∈ front, Quiet t) :
    headings scope (front ++ rest) = headings scope rest := by
  induction front with
  | nil => rfl
  | cons t front ih =>
      obtain ⟨hnamespace, hclass, henum⟩ := hfront t List.mem_cons_self
      rw [List.cons_append, headings]
      simp only [hnamespace, hclass, henum]
      exact ih fun u hu => hfront u (List.mem_cons_of_mem t hu)

theorem quiet_of_identifier (hname : name.isKind .identifier = true) : Quiet name := by
  refine ⟨?_, ?_, ?_⟩ <;> grind

/-- A name alone declares nothing. -/
theorem headings_name (hname : name.isKind .identifier = true) :
    headings scope (name :: rest) = headings scope rest := by
  have hquiet : ∀ t ∈ [name], Quiet t := by
    intro t ht
    rw [List.mem_singleton.mp ht]
    exact quiet_of_identifier hname
  exact headings_quiet hquiet

/-- Behind a namespace its name is the scope. -/
theorem headings_namespace (ht : t.isKind .namespaceKeyword = true)
    (hname : name.isKind .identifier = true) :
    headings scope (t :: name :: rest) = headings name.text rest := by
  rw [headings, if_pos ht, headings_name hname]
  rfl

/-- A class is declared by its keyword and the name behind it. -/
theorem headings_class (ht : t.isKind .classKeyword = true)
    (hname : name.isKind .identifier = true) :
    headings scope (t :: name :: rest) = ⟨true, scope, name.text⟩ :: headings scope rest := by
  have hnamespace : t.isKind .namespaceKeyword = false := by grind
  rw [headings, if_neg (Bool.eq_false_iff.mp hnamespace), if_pos ht, headings_name hname]
  rfl

/-- So is an enum. -/
theorem headings_enum (ht : t.isKind .enumKeyword = true)
    (hname : name.isKind .identifier = true) :
    headings scope (t :: name :: rest) = ⟨false, scope, name.text⟩ :: headings scope rest := by
  have hnamespace : t.isKind .namespaceKeyword = false := by grind
  have hclass : t.isKind .classKeyword = false := by grind
  rw [headings, if_neg (Bool.eq_false_iff.mp hnamespace), if_neg (Bool.eq_false_iff.mp hclass),
    if_pos ht, headings_name hname]
  rfl

end Scan

/-! ## What is passed over -/

theorem outer_append (ts us : List Tree) : outer (ts ++ us) = outer ts ++ outer us := by
  rw [outer, leavesAll_append, List.filter_append]
  rfl

theorem outer_cons (t : Tree) (ts : List Tree) : outer (t :: ts) = outer [t] ++ outer ts :=
  outer_append [t] ts

theorem outer_node (r : Rule) (cs : List Tree) : outer [node r cs] = outer cs := by
  rw [outer, leavesAll_cons, leaves_node, leavesAll_nil, List.append_nil]
  rfl

theorem outer_leaf {t : Token} (ht : ¬ IsRegion t) : outer [leaf t] = [t] := by
  rw [outer, leavesAll_cons, leaves_leaf, leavesAll_nil]
  simp [ht]

/-- Nothing below class and enum declarations admits a keyword that the scan looks for. -/
theorem production_quiet (r : Rule) (hr : rank r ≤ 4) : (Phrase.production r).Admits Quiet := by
  cases r with
  | compilationUnit => exact absurd hr (by decide)
  | namespaceDecl => exact absurd hr (by decide)
  | classDecl => exact absurd hr (by decide)
  | enumDecl => exact absurd hr (by decide)
  | _ =>
      simp only [Phrase.production, Phrase.modifierWord, Phrase.accessorWord, Phrase.defaultWord,
        Phrase.admits_append, Phrase.admits_or, Phrase.admits_opt, Phrase.admits_many,
        Phrase.admits_rule, Phrase.admits_body, Phrase.admits_value, Phrase.admits_terminal,
        Phrase.admits_kind, Phrase.admits_ident, Phrase.admits_mark]
      grind [Quiet]

section Passing

variable {source : List Char} {e : Phrase} {scope : String}

/-- Where a phrase and its rules admit none of the keywords, the scan passes over all of it. -/
theorem headings_pass (he : e.Admits Quiet) (hrules : ∀ r ∈ e.rules, rank r ≤ 4) (d : Derivation e)
    (rest : List Token) :
    headings scope (outer (d.trees source) ++ rest) = headings scope rest := by
  refine headings_quiet fun t ht => ?_
  obtain ⟨hmem, houter⟩ := List.mem_filter.mp ht
  exact (mem_leaves production_quiet he hrules d hmem).resolve_right (of_decide_eq_true houter)

theorem headings_leaf {t : Token} (ht : Quiet t ∨ IsRegion t) (rest : List Token) :
    headings scope (outer [leaf t] ++ rest) = headings scope rest := by
  refine headings_quiet fun u hu => ?_
  obtain ⟨hmem, houter⟩ := List.mem_filter.mp hu
  rw [leavesAll_cons, leaves_leaf, leavesAll_nil, List.append_nil] at hmem
  obtain rfl := List.mem_singleton.mp hmem
  exact ht.resolve_right (of_decide_eq_true houter)

/-- A keyword and a name at the front of some trees stand outside regions. -/
theorem outer_keyword {t name : Token} (ht : ¬ IsRegion t) (hname : name.isKind .identifier = true)
    (ts : List Tree) : outer (leaf t :: leaf name :: ts) = t :: name :: outer ts := by
  have hregion : ¬ IsRegion name := by grind [IsRegion]
  rw [outer_cons, outer_cons (leaf name), outer_leaf ht, outer_leaf hregion]
  rfl

/-- A class gives one heading. -/
theorem headings_classDecl (scope : String) (a : Derivation (.production .classDecl))
    (rest : List Token) :
    ∃ name, HasName (node .classDecl (a.trees source)) name ∧
      headings scope (outer (a.trees source) ++ rest) =
        ⟨true, scope, name.text⟩ :: headings scope rest := by
  obtain ⟨front, keyword, name, behind, hkeyword, hname, htrees⟩ := class_parts source a
  refine ⟨name, hname, ?_⟩
  have hregion : ¬ IsRegion keyword := by grind [IsRegion]
  have hfront : beforeClass.Admits Quiet := by
    simp only [beforeClass, Phrase.admits_append, Phrase.admits_opt, Phrase.admits_rule,
      Phrase.admits_kind]
    grind [Quiet]
  have hbehind : behindClass.Admits Quiet := by
    simp only [behindClass, Phrase.member, Phrase.admits_append, Phrase.admits_or, Phrase.admits_opt,
      Phrase.admits_many, Phrase.admits_rule, Phrase.admits_mark]
    grind [Quiet]
  rw [htrees, outer_append, outer_keyword hregion hname.1, List.append_assoc,
    headings_pass hfront (by decide) front, List.cons_append, List.cons_append,
    headings_class hkeyword hname.1, headings_pass hbehind (by decide) behind]

/-- An enum gives one heading. -/
theorem headings_enumDecl (scope : String) (a : Derivation (.production .enumDecl))
    (rest : List Token) :
    ∃ name, HasName (node .enumDecl (a.trees source)) name ∧
      headings scope (outer (a.trees source) ++ rest) =
        ⟨false, scope, name.text⟩ :: headings scope rest := by
  obtain ⟨front, keyword, name, between, values, behind, hkeyword, hname, htrees⟩ :=
    enum_parts source a
  refine ⟨name, hname, ?_⟩
  have hregion : ¬ IsRegion keyword := by grind [IsRegion]
  have hfront : (Phrase.opt (.rule .modifier)).Admits Quiet := trivial
  have hbehind : (behindEnum ++ .rule .enumBody ++ endOfEnum).Admits Quiet := by
    simp only [behindEnum, endOfEnum, Phrase.admits_append, Phrase.admits_opt, Phrase.admits_rule,
      Phrase.admits_mark, Phrase.admits_ident]
    grind [Quiet]
  have hpass : headings scope (outer ((Derivation.seq (.seq between (.rule values)) behind).trees source)
      ++ rest) = headings scope rest :=
    headings_pass hbehind (by decide) _ rest
  simp only [Derivation.trees, List.append_assoc, List.cons_append, List.nil_append] at hpass
  rw [htrees, outer_append, outer_keyword hregion hname.1, List.append_assoc,
    headings_pass hfront (by decide) front, List.cons_append, List.cons_append,
    headings_enum hkeyword hname.1, hpass]

end Passing

/-! ## Declarations in order -/

section Ordering

variable {source : List Char} {e : Phrase} {policy : DefaultPolicy} {scope : String}

/-- What a child of a namespace declares is what the scan finds in it. -/
theorem headings_declared (he : e.Admits Quiet)
    (hrules : ∀ r ∈ e.rules, r = .classDecl ∨ r = .enumDecl) (d : Derivation e) {c : Tree}
    (hc : c ∈ d.trees source) {es : List Entity} (hes : Gives (declared policy scope) c es)
    (rest : List Token) :
    headings scope (outer [c] ++ rest) = es.map headingOf ++ headings scope rest := by
  rcases declared_ok hes with ⟨hrule, f, rfl, hf⟩ | ⟨hrule, f, rfl, hf⟩ | ⟨hclass, henum, rfl⟩
  · obtain ⟨a, rfl⟩ := exists_derivation d hc hrule
    obtain ⟨text, attributes, methods, rfl, htext, _⟩ := classEntity_ok hf
    obtain ⟨name, hname, hheadings⟩ := headings_classDecl scope a rest
    rw [hname.2] at htext
    cases htext
    rw [outer_node, hheadings]
    rfl
  · obtain ⟨a, rfl⟩ := exists_derivation d hc hrule
    obtain ⟨text, body, values, rfl, htext, _⟩ := enumEntity_ok hf
    obtain ⟨name, hname, hheadings⟩ := headings_enumDecl scope a rest
    rw [hname.2] at htext
    cases htext
    rw [outer_node, hheadings]
    rfl
  · rcases mem_trees he d hc with ⟨t, rfl, ht⟩ | ⟨r, hr, a, rfl⟩
    · exact headings_leaf ht rest
    · rcases hrules r hr with rfl | rfl
      · exact absurd rfl hclass
      · exact absurd rfl henum

/-- The headings among the children of a node are those of what they declare, in order. -/
theorem headings_children (he : e.Admits Quiet)
    (hrules : ∀ r ∈ e.rules, r = .classDecl ∨ r = .enumDecl) (d : Derivation e) {ts : List Tree}
    (hts : ts ⊆ d.trees source) {groups : List (List Entity)}
    (hgroups : List.Forall₂ (Gives (declared policy scope)) ts groups) (rest : List Token) :
    headings scope (outer ts ++ rest) = groups.flatten.map headingOf ++ headings scope rest := by
  induction hgroups with
  | nil => rfl
  | @cons c es ts groups hes _ ih =>
      obtain ⟨hc, hts⟩ := List.cons_subset.mp hts
      rw [outer_cons, List.append_assoc, headings_declared he hrules d hc hes, ih hts,
        List.flatten_cons, List.map_append, List.append_assoc]

/-- A leaf declares nothing. -/
theorem declared_leaf {t : Token} {es : List Entity} (hes : Gives (declared policy scope) (leaf t) es) :
    es = [] := by
  rcases declared_ok hes with ⟨hrule, _⟩ | ⟨hrule, _⟩ | ⟨_, _, hnil⟩
  · cases hrule
  · cases hrule
  · exact hnil

/-- A namespace gives the headings of its declarations, and what follows is in it. -/
theorem headings_namespaceDecl (scope : String) (a : Derivation (.production .namespaceDecl))
    {es : List Entity}
    (hes : Gives (namespaceEntities policy) (node .namespaceDecl (a.trees source)) es)
    (rest : List Token) :
    ∃ last, headings scope (outer (a.trees source) ++ rest) =
      es.map headingOf ++ headings last rest := by
  obtain ⟨keyword, name, behind, hkeyword, hname, htrees⟩ := namespace_parts source a
  obtain ⟨text, groups, htext, hgroups, rfl⟩ := namespaceEntities_ok hes
  rw [hname.2] at htext
  cases htext
  have hregion : ¬ IsRegion keyword := by grind [IsRegion]
  have hbehind : behindNamespace.Admits Quiet := by
    simp only [behindNamespace, Phrase.typeDecl, Phrase.admits_append, Phrase.admits_or,
      Phrase.admits_many, Phrase.admits_rule, Phrase.admits_mark]
    grind [Quiet]
  rw [children, htrees] at hgroups
  cases hgroups with | cons hfirst hgroups =>
  cases hgroups with | cons hsecond hgroups =>
  obtain rfl := declared_leaf hfirst
  obtain rfl := declared_leaf hsecond
  refine ⟨name.text, ?_⟩
  rw [htrees, outer_keyword hregion hname.1, List.cons_append, List.cons_append,
    headings_namespace hkeyword hname.1,
    headings_children hbehind (by decide) behind (List.Subset.refl _) hgroups]
  rfl

/-- The scan finds the declarations of the namespaces among the given parts of a unit. -/
theorem headings_unit (scope : String) (d : Derivation (.production .compilationUnit)) {ts : List Tree}
    (hts : ts ⊆ d.trees source) {parts : List (List Entity)}
    (hparts : List.Forall₂ (Gives (namespaceEntities policy))
      (ts.filter fun c => c.rule? == some .namespaceDecl) parts) :
    headings scope (outer ts) = parts.flatten.map headingOf := by
  have hquiet : (Phrase.production .compilationUnit).Admits Quiet := ⟨⟨trivial, trivial⟩, trivial⟩
  have hrules : ∀ r ∈ (Phrase.production .compilationUnit).rules,
      r = .importDecl ∨ r = .namespaceDecl := by
    decide
  induction ts generalizing parts scope with
  | nil =>
      cases hparts
      rfl
  | cons c ts ih =>
      obtain ⟨hc, hrest⟩ := List.cons_subset.mp hts
      rw [outer_cons]
      rcases mem_trees hquiet d hc with ⟨t, rfl, ht⟩ | ⟨r, hr, a, rfl⟩
      · rw [headings_leaf ht]
        exact ih scope hrest hparts
      · rcases hrules r hr with rfl | rfl
        · have himport : ∀ r ∈ (Phrase.production .importDecl).rules, rank r ≤ 4 := by decide
          rw [outer_node, headings_pass (production_quiet .importDecl (by decide)) himport a]
          exact ih scope hrest hparts
        · rw [List.filter_cons_of_pos (by rfl)] at hparts
          cases hparts with | cons hpart hparts =>
          obtain ⟨last, hheadings⟩ := headings_namespaceDecl scope a hpart (outer ts)
          rw [outer_node, hheadings, ih last hrest hparts, List.flatten_cons, List.map_append]

end Ordering

/-! ## Members in order -/

/-- The class and enum declarations among several trees. -/
def typeNodes (ts : List Tree) : List Tree :=
  ts.filter fun c => c.rule? == some .classDecl || c.rule? == some .enumDecl

/-- The class and enum declarations of a unit, namespace by namespace. -/
def typeDeclarations (unit : Tree) : List Tree :=
  (unit.childNodes .namespaceDecl).flatMap fun n => typeNodes n.children

/-- The method is that of the node, with one parameter for each parameter node. -/
structure MirrorsMethod (policy : DefaultPolicy) (decl : Tree) (m : Method) : Prop where
  gives : Gives (methodOf policy) decl m
  parameters : List.Forall₂ (Gives (parameterOf policy)) (parameterChildren decl) m.parameters

/-- The entity is that of the node, with one member for each member node. -/
inductive Mirrors (policy : DefaultPolicy) : Tree → Entity → Prop where
  | ofClass {decl : Tree} {key : EntityKey} {attributes : List Attribute} {methods : List Method}
      (rule : decl.rule? = some .classDecl)
      (attributes_eq : List.Forall₂ (fun node a => attributeOf node = .ok a)
        (decl.childNodes .attrDecl) attributes)
      (methods_eq : List.Forall₂ (MirrorsMethod policy) (decl.childNodes .methodDecl) methods) :
      Mirrors policy decl ⟨key, .ofClass attributes methods⟩
  | ofEnum {decl body : Tree} {key : EntityKey} {values : List String}
      (rule : decl.rule? = some .enumDecl)
      (body_eq : decl.childNode? .enumBody = some body)
      (values_eq : List.Forall₂ (fun node v => requiredToken node .identifier "enum member name" = .ok v)
        (body.childNodes .enumValue) values) :
      Mirrors policy decl ⟨key, .ofEnum values⟩

section Mirroring

variable {source : List Char} {policy : DefaultPolicy} {scope : String}

/-- The parameters of a method mirror its parameter nodes. -/
theorem method_mirrors (a : Derivation (.production .methodDecl)) {m : Method}
    (hm : Gives (methodOf policy) (node .methodDecl (a.trees source)) m) :
    MirrorsMethod policy (node .methodDecl (a.trees source)) m := by
  obtain ⟨_, hparameters⟩ := methodOf_ok hm
  rw [parameterNodes_eq] at hparameters
  exact ⟨hm, hparameters⟩

/-- The members of a class mirror the nodes right below its own. -/
theorem class_mirrors (a : Derivation (.production .classDecl)) {f : Entity}
    (hf : Gives (classEntity policy scope) (node .classDecl (a.trees source)) f) :
    Mirrors policy (node .classDecl (a.trees source)) f := by
  obtain ⟨name, attributes, methods, rfl, _, hattributes, hmethods⟩ := classEntity_ok hf
  rw [descendants_eq_childNodes (by decide) a] at hattributes hmethods
  have hderived : ∀ c ∈ (node .classDecl (a.trees source)).childNodes .methodDecl,
      ∃ b : Derivation (.production .methodDecl), c = node .methodDecl (b.trees source) :=
    fun c hc => (exists_of_mem_childNodes hc).2
  refine .ofClass rfl hattributes (((List.forall₂_and_left _ _).mpr ⟨hderived, hmethods⟩).imp ?_)
  rintro c m ⟨⟨b, rfl⟩, hm⟩
  exact method_mirrors b hm

/-- The values of an enum mirror the nodes of its body. -/
theorem enum_mirrors (a : Derivation (.production .enumDecl)) {f : Entity}
    (hf : Gives (enumEntity scope) (node .enumDecl (a.trees source)) f) :
    Mirrors policy (node .enumDecl (a.trees source)) f := by
  obtain ⟨name, body, values, rfl, _, hbody, hvalues⟩ := enumEntity_ok hf
  obtain ⟨_, b, rfl⟩ := exists_of_childNode? hbody
  rw [descendants_eq_childNodes (by decide) b] at hvalues
  exact .ofEnum rfl hbody hvalues

/-- Children that declare nothing are left out on both sides. -/
theorem children_mirror {e : Phrase} (d : Derivation e) {ts : List Tree} (hts : ts ⊆ d.trees source)
    {groups : List (List Entity)}
    (hgroups : List.Forall₂ (Gives (declared policy scope)) ts groups) :
    List.Forall₂ (Mirrors policy) (typeNodes ts) groups.flatten := by
  induction hgroups with
  | nil => exact .nil
  | @cons c es ts groups hes _ ih =>
      obtain ⟨hc, hrest⟩ := List.cons_subset.mp hts
      rw [List.flatten_cons]
      rcases declared_ok hes with ⟨hrule, f, rfl, hf⟩ | ⟨hrule, f, rfl, hf⟩ | ⟨hclass, henum, rfl⟩
      · obtain ⟨a, rfl⟩ := exists_derivation d hc hrule
        rw [typeNodes, List.filter_cons_of_pos (by rfl)]
        exact .cons (class_mirrors a hf) (ih hrest)
      · obtain ⟨a, rfl⟩ := exists_derivation d hc hrule
        rw [typeNodes, List.filter_cons_of_pos (by rfl)]
        exact .cons (enum_mirrors a hf) (ih hrest)
      · rw [typeNodes, List.filter_cons_of_neg (by simp [hclass, henum])]
        exact ih hrest

/-- Namespace by namespace, the entities mirror the declarations. -/
theorem namespaces_mirror {nodes : List Tree} {parts : List (List Entity)}
    (hderived : ∀ c ∈ nodes,
      ∃ b : Derivation (.production .namespaceDecl), c = node .namespaceDecl (b.trees source))
    (hparts : List.Forall₂ (Gives (namespaceEntities policy)) nodes parts) :
    List.Forall₂ (Mirrors policy) (nodes.flatMap fun n => typeNodes n.children) parts.flatten := by
  induction hparts with
  | nil => exact .nil
  | @cons c es nodes parts hes _ ih =>
      obtain ⟨b, rfl⟩ := hderived c List.mem_cons_self
      obtain ⟨scope, groups, _, hgroups, rfl⟩ := namespaceEntities_ok hes
      rw [List.flatMap_cons, List.flatten_cons]
      exact List.rel_append (children_mirror b (List.Subset.refl _) hgroups)
        (ih fun c hc => hderived c (List.mem_cons_of_mem _ hc))

/-- The entities of a model mirror the declarations of the unit, in order. -/
theorem model_mirrors (a : Derivation (.production .compilationUnit)) {m : Model}
    (hm : Gives (model policy) (node .compilationUnit (a.trees source)) m) :
    List.Forall₂ (Mirrors policy) (typeDeclarations (node .compilationUnit (a.trees source))) m := by
  obtain ⟨parts, hparts, rfl⟩ := model_ok hm
  rw [descendants_eq_childNodes (by decide) a] at hparts
  exact namespaces_mirror (fun c hc => (exists_of_mem_childNodes hc).2) hparts

end Mirroring

/-! ## Source texts -/

/-- The leaf covers the run of tokens: it is the only token of the run, or the region that the run is. -/
inductive Covers (source : List Char) : Token → List Token → Prop where
  | token {t : Token} (outside : ¬ IsRegion t) : Covers source t [t]
  | body {t : Token} {run : List Token} (isBody : IsBody run)
      (leaf_eq : runLeaf source .body run = [leaf t]) : Covers source t run
  | value {t : Token} {run : List Token} (isValue : IsValue run)
      (leaf_eq : runLeaf source .valueLiteral run = [leaf t]) : Covers source t run

/-- The leaves cover the tokens one run behind the other, with no token left out. -/
def CoverAll (source : List Char) (leaves tokens : List Token) : Prop :=
  ∃ runs, List.Forall₂ (Covers source) leaves runs ∧ runs.flatten = tokens

section Covering

variable {source : List Char} {leaves leaves' tokens tokens' run : List Token}

/-- What covers two runs covers them together. -/
theorem CoverAll.append (h : CoverAll source leaves tokens) (h' : CoverAll source leaves' tokens') :
    CoverAll source (leaves ++ leaves') (tokens ++ tokens') := by
  obtain ⟨runs, hruns, rfl⟩ := h
  obtain ⟨runs', hruns', rfl⟩ := h'
  exact ⟨runs ++ runs', List.rel_append hruns hruns', List.flatten_append⟩

theorem CoverAll.nil : CoverAll source [] [] := ⟨[], .nil, rfl⟩

theorem CoverAll.single {t : Token} (h : Covers source t run) : CoverAll source [t] run :=
  ⟨[run], .cons h .nil, List.append_nil run⟩

/-- A region that is not empty has its one leaf. -/
theorem exists_runLeaf (source : List Char) (kind : TokenKind) (hrun : run.head?.isSome) :
    ∃ t, runLeaf source kind run = [leaf t] := by
  cases run with
  | nil => cases hrun
  | cons first rest => exact ⟨_, by rw [runLeaf, List.head?_cons, List.getLast?_cons]; rfl⟩

/-- No token that the grammar admits on its own has the kind of a region. -/
theorem production_outside (r : Rule) :
    (Phrase.production r).Admits fun t => ¬ IsRegion t := by
  cases r <;>
    simp only [Phrase.production, Phrase.typeDecl, Phrase.member, Phrase.modifierWord,
      Phrase.accessorWord, Phrase.defaultWord, Phrase.admits_append, Phrase.admits_or, Phrase.admits_opt,
      Phrase.admits_many, Phrase.admits_rule, Phrase.admits_body, Phrase.admits_value,
      Phrase.admits_terminal, Phrase.admits_kind, Phrase.admits_ident, Phrase.admits_mark] <;>
    grind [IsRegion]

/-- The leaves of a derivation cover the tokens that are derived. -/
theorem coverAll_leaves {e : Phrase} (he : e.Admits fun t => ¬ IsRegion t) (d : Derivation e) :
    CoverAll source (leavesAll (d.trees source)) d.yield := by
  induction d with
  | token t ht => exact CoverAll.single (.token (he t ht))
  | seq a b iha ihb =>
      rw [Derivation.trees, leavesAll_append]
      exact (iha he.1).append (ihb he.2)
  | left a ih => exact ih he.1
  | right b ih => exact ih he.2
  | none => exact CoverAll.nil
  | some a ih => exact ih he
  | nil => exact CoverAll.nil
  | cons a more iha ihmore =>
      rw [Derivation.trees, leavesAll_append]
      exact (iha he).append (ihmore he)
  | @rule r a ih =>
      rw [Derivation.trees, leavesAll_cons, leaves_node, leavesAll_nil, List.append_nil]
      exact ih (production_outside r)
  | body run hrun =>
      obtain ⟨t, ht⟩ := exists_runLeaf source .body (Option.isSome_of_any hrun.opens)
      rw [Derivation.trees, ht, leavesAll_cons, leaves_leaf, leavesAll_nil]
      exact CoverAll.single (.body hrun ht)
  | value run hrun =>
      obtain ⟨t, ht⟩ := exists_runLeaf source .valueLiteral (Option.isSome_of_any hrun.begins)
      rw [Derivation.trees, ht, leavesAll_cons, leaves_leaf, leavesAll_nil]
      exact CoverAll.single (.value hrun ht)

end Covering

/-- Extraction loses nothing, repeats nothing and takes nothing that is not a declaration of its own.
The leaves of the tree cover all tokens of the source; the entities of the model are, in order, what the
scan of the leaves outside bodies and values finds; and the members of each are those of the immediate
member nodes of its declaration. -/
theorem parse_in_order {policy : DefaultPolicy} {source : String} {m : Model} {warnings : List Warning}
    (h : parse policy source = .ok (m, warnings)) :
    ∃ tree tokens, parseTree (stripMark source) = .ok tree ∧
      tokenize (stripMark source) = .ok tokens ∧
      CoverAll (stripMark source).toList tree.leaves tokens ∧
      m.map headingOf = headings "" (outerTokens tree) ∧
      List.Forall₂ (Mirrors policy) (typeDeclarations tree) m := by
  obtain ⟨tree, htree, hmodel⟩ := parse_ok h
  obtain ⟨a, htokens, rfl⟩ := parseTree_ok htree
  have hm : Gives (model policy) (node .compilationUnit (a.trees (stripMark source).toList)) m :=
    ⟨warnings, hmodel⟩
  refine ⟨_, a.yield, htree, htokens, ?_, ?_, model_mirrors a hm⟩
  · rw [leaves_node]
    exact coverAll_leaves (production_outside .compilationUnit) a
  · obtain ⟨parts, hparts, rfl⟩ := model_ok hm
    rw [descendants_eq_childNodes (by decide) a] at hparts
    rw [outerTokens, leaves_node]
    exact (headings_unit "" a (List.Subset.refl _) hparts).symm

/-- A class whose constructor mentions `class`, and an enum. -/
def classAndEnum : String :=
  "namespace N; class A \x7b int x; A(int y) \x7b class X; \x7d \x7d enum B \x7b C \x7d"

/-- A class with a body and an enum behind it. -/
theorem parse_in_order_classAndEnum :
    ∃ m, parse .drop classAndEnum = .ok (m, []) ∧
      m.map headingOf = [⟨true, "N", "A"⟩, ⟨false, "N", "B"⟩] ∧
      ∃ tree tokens, parseTree (stripMark classAndEnum) = .ok tree ∧
        tokenize (stripMark classAndEnum) = .ok tokens ∧
        CoverAll (stripMark classAndEnum).toList tree.leaves tokens ∧
        m.map headingOf = headings "" (outerTokens tree) ∧
        List.Forall₂ (Mirrors .drop) (typeDeclarations tree) m := by
  have hsome : (parse .drop classAndEnum).toOption = some
      ([⟨⟨"N", "A"⟩, .ofClass [⟨"x", "int", .isPrivate, none⟩]
          [⟨"A", none, .isPrivate, [⟨"y", "int", .input, none⟩]⟩]⟩,
        ⟨⟨"N", "B"⟩, .ofEnum ["C"]⟩], []) := by
    decide +kernel
  match hparse : parse .drop classAndEnum with
  | .error e =>
      rw [hparse] at hsome
      cases hsome
  | .ok (m, warnings) =>
      rw [hparse] at hsome
      cases hsome
      exact ⟨_, rfl, rfl, parse_in_order hparse⟩

end ClassChart.Extract

/-
# ClassChart.Proofs.Extract.Policies — the policies differ at unsupported defaults only

A unit is read under three policies. They are compared step by step: `Agree` says of one step of
extraction what each policy makes of it, given the sites that the step comes to, and it is closed under
repetition and under what is done with the result. So three runs of which one may break off midway are
compared by one walk outwards from parameters to units. What is left for whole sources is that a source
without a tree fails alike under every policy.
-/
import ClassChart.Proofs.Extract.Sites
import ClassChart.Proofs.Extract.Total

namespace ClassChart

/-! ## Defaults left out -/

/-- The parameter without its default. -/
def Parameter.eraseDefault (p : Parameter) : Parameter := { p with default? := none }

/-- The method without the defaults of its parameters. -/
def Method.eraseDefaults (m : Method) : Method :=
  { m with parameters := m.parameters.map Parameter.eraseDefault }

namespace Entity

/-- The entity without the defaults of parameters. -/
def eraseDefaults (e : Entity) : Entity :=
  match e.body with
  | .ofClass attributes methods => ⟨e.key, .ofClass attributes (methods.map Method.eraseDefaults)⟩
  | .ofEnum _ => e

/-- The parameters of an entity, method by method. -/
def parameters (e : Entity) : List Parameter := e.methods.flatMap (·.parameters)

end Entity

namespace Model

/-- The model without the defaults of parameters. -/
def eraseDefaults (m : Model) : Model := m.map Entity.eraseDefaults

/-- The parameters of a model, entity by entity. -/
def parameters (m : Model) : List Parameter := m.flatMap Entity.parameters

end Model

end ClassChart

namespace ClassChart.Extract

open ClassChart.Tree ClassChart.Grammar

/-! ## Steps under each policy -/

/-- How a result holds parameters: which ones in which order, and what it is without their defaults. -/
structure Holding (α : Type) where
  parameters : α → List Parameter
  erase : α → α

namespace Holding

/-- A parameter holds itself. -/
def parameter : Holding Parameter := ⟨fun p => [p], Parameter.eraseDefault⟩

/-- A method holds its parameters. -/
def method : Holding Method := ⟨Method.parameters, Method.eraseDefaults⟩

/-- An entity holds those of its methods. -/
def entity : Holding Entity := ⟨Entity.parameters, Entity.eraseDefaults⟩

/-- A list holds those of its elements. -/
def list {α : Type} (h : Holding α) : Holding (List α) := ⟨List.flatMap h.parameters, List.map h.erase⟩

end Holding

/-- What the policies make of a step that comes to the given sites. Dropping and keeping give results that
differ in defaults alone, and these are as the sites have it; each unsupported default that is dropped
gives one warning. Rejecting gives the same result where there is none, and fails at the first one
otherwise. -/
structure Agree {α : Type} (holding : Holding α) (places : List Site)
    (step : DefaultPolicy → Except Failure (α × List Warning)) (dropped kept : α) : Prop where
  drop_eq : step .drop = .ok (dropped, places.filterMap Site.warning?)
  keep_eq : step .keep = .ok (kept, [])
  erase_eq : holding.erase dropped = holding.erase kept
  dropped_eq : (holding.parameters dropped).map (fun p => (p.name, p.default?)) =
    places.map fun s => (s.name, s.dropped)
  kept_eq : (holding.parameters kept).map (fun p => (p.name, p.default?)) =
    places.map fun s => (s.name, s.kept)
  same : places.filterMap Site.unsupported? = [] → dropped = kept ∧ step .reject = .ok (dropped, [])
  first : ∀ t rest, places.filterMap Site.unsupported? = t :: rest →
    step .reject = .error (.unsupported ⟨t.kind, t.text, t.span⟩)

/-- The policies agree on a step at a node, with the sites of the node as those that it comes to. -/
def AgreeOn {α : Type} (holding : Holding α)
    (step : DefaultPolicy → Tree → Except Failure (α × List Warning)) (t : Tree) : Prop :=
  ∃ dropped kept, Agree holding (sites t) (fun policy => step policy t) dropped kept

/-- A step is repeated, and the results are collected with their warnings. -/
def repeated {α β : Type} (f : α → Except Failure (β × List Warning)) (xs : List α) :
    Except Failure (List β × List Warning) :=
  (xs.mapM f).map gather

section Steps

variable {α β : Type} {holding : Holding α} {holding' : Holding β} {places : List Site}
  {step : DefaultPolicy → Except Failure (α × List Warning)} {dropped kept : α}

/-- A repetition does its first step, and then the rest with its own values and warnings. -/
theorem repeated_cons (f : α → Except Failure (β × List Warning)) (x : α) (xs : List α) :
    repeated f (x :: xs) =
      f x >>= fun y => (repeated f xs).map fun ys => (y.1 :: ys.1, y.2 ++ ys.2) := by
  unfold repeated
  rw [List.mapM_cons]
  cases f x with
  | error failure => rfl
  | ok y =>
      cases xs.mapM f with
      | error failure => rfl
      | ok ys => rfl

/-- A step whose value is wrapped keeps its warnings. -/
theorem map_step (x : Except Failure (α × List Warning)) (g : α → β) :
    (x >>= fun found => pure (g found.1, found.2)) = x.map (Prod.map g id) := by
  cases x with
  | error failure => rfl
  | ok found => rfl

/-- A traversal with the warnings gathered is a repetition. -/
theorem map_repeated {γ : Type} (f : α → Except Failure (β × List Warning)) (xs : List α)
    (g : List β → γ) :
    (xs.mapM f >>= fun results => pure (g (gather results).1, (gather results).2)) =
      (repeated f xs).map (Prod.map g id) := by
  unfold repeated
  cases xs.mapM f with
  | error failure => rfl
  | ok results => rfl

/-- A step that comes to no site does the same under every policy. -/
theorem Agree.const {a : α} (hstep : ∀ policy, step policy = .ok (a, []))
    (hnone : holding.parameters a = []) : Agree holding [] step a a where
  drop_eq := hstep .drop
  keep_eq := hstep .keep
  erase_eq := rfl
  dropped_eq := by rw [hnone]; rfl
  kept_eq := by rw [hnone]; rfl
  same _ := ⟨rfl, hstep .reject⟩
  first t rest hnil := by cases hnil

/-- A parameter without an unsupported default is the same under every policy. -/
theorem Agree.shown {step : DefaultPolicy → Except Failure (Parameter × List Warning)} {s : Site}
    {p : Parameter} (hsite : s.unsupported? = none) (hname : p.name = s.name)
    (hdefault : p.default? = s.dropped) (hstep : ∀ policy, step policy = .ok (p, [])) :
    Agree .parameter [s] step p p where
  drop_eq := by
    have hquiet : s.warning? = none := by rw [Site.warning?, hsite, Option.map_none]
    rw [hstep, List.filterMap_cons_none hquiet, List.filterMap_nil]
  keep_eq := hstep .keep
  erase_eq := rfl
  dropped_eq := by
    show [(p.name, p.default?)] = [(s.name, s.dropped)]
    rw [hname, hdefault]
  kept_eq := by
    show [(p.name, p.default?)] = [(s.name, s.kept)]
    rw [hname, hdefault, Site.dropped_eq_kept hsite]
  same _ := ⟨rfl, hstep .reject⟩
  first t rest hfirst := by
    rw [List.filterMap_cons_none hsite, List.filterMap_nil] at hfirst
    cases hfirst

/-- A parameter with an unsupported default loses it, keeps it or fails. -/
theorem Agree.hidden {step : DefaultPolicy → Except Failure (Parameter × List Warning)} {s : Site}
    {t : Token} {p : Parameter} (hsite : s.unsupported? = some t) (hname : p.name = s.name)
    (hdrop : step .drop = .ok (p.eraseDefault, [.droppedDefault s.name t.text t.kind]))
    (hkeep : step .keep = .ok ({ p with default? := some t.text }, []))
    (hreject : step .reject = .error (.unsupported ⟨t.kind, t.text, t.span⟩)) :
    Agree .parameter [s] step p.eraseDefault { p with default? := some t.text } where
  drop_eq := by
    have hwarning : s.warning? = some (.droppedDefault s.name t.text t.kind) := by
      rw [Site.warning?, hsite, Option.map_some]
    rw [hdrop, List.filterMap_cons_some hwarning, List.filterMap_nil]
  keep_eq := hkeep
  erase_eq := rfl
  dropped_eq := by
    obtain ⟨_, _, hdropped, _⟩ := Site.of_unsupported? hsite
    show [(p.name, none)] = [(s.name, s.dropped)]
    rw [hname, hdropped]
  kept_eq := by
    obtain ⟨_, _, _, hkept⟩ := Site.of_unsupported? hsite
    show [(p.name, some t.text)] = [(s.name, s.kept)]
    rw [hname, hkept]
  same hnone := by
    rw [List.filterMap_cons_some hsite] at hnone
    cases hnone
  first u rest hfirst := by
    rw [List.filterMap_cons_some hsite] at hfirst
    cases hfirst
    exact hreject

/-- What is done with a result does not matter, as long as it keeps the parameters. -/
theorem Agree.map (h : Agree holding places step dropped kept) (g : α → β)
    (hparameters : ∀ a, holding'.parameters (g a) = holding.parameters a)
    (herase : ∀ a b, holding.erase a = holding.erase b → holding'.erase (g a) = holding'.erase (g b)) :
    Agree holding' places (fun policy => (step policy).map (Prod.map g id)) (g dropped) (g kept) where
  drop_eq := by rw [h.drop_eq]; rfl
  keep_eq := by rw [h.keep_eq]; rfl
  erase_eq := herase dropped kept h.erase_eq
  dropped_eq := by rw [hparameters, h.dropped_eq]
  kept_eq := by rw [hparameters, h.kept_eq]
  same hnone := by
    obtain ⟨rfl, hreject⟩ := h.same hnone
    rw [hreject]
    exact ⟨rfl, rfl⟩
  first t rest hfirst := by
    rw [h.first t rest hfirst]
    rfl

/-- One step more at the head of a repetition. -/
theorem Agree.cons {f : DefaultPolicy → β → Except Failure (α × List Warning)} {x : β} {xs : List β}
    {places' : List Site} {droppedRest keptRest : List α}
    (h : Agree holding places (fun policy => f policy x) dropped kept)
    (hrest : Agree holding.list places' (fun policy => repeated (f policy) xs) droppedRest keptRest) :
    Agree holding.list (places ++ places') (fun policy => repeated (f policy) (x :: xs))
      (dropped :: droppedRest) (kept :: keptRest) where
  drop_eq := by
    rw [repeated_cons, h.drop_eq, hrest.drop_eq, List.filterMap_append]
    rfl
  keep_eq := by
    rw [repeated_cons, h.keep_eq, hrest.keep_eq]
    rfl
  erase_eq := congrArg₂ List.cons h.erase_eq hrest.erase_eq
  dropped_eq := by
    rw [List.map_append, ← h.dropped_eq, ← hrest.dropped_eq, ← List.map_append]
    rfl
  kept_eq := by
    rw [List.map_append, ← h.kept_eq, ← hrest.kept_eq, ← List.map_append]
    rfl
  same hnone := by
    rw [List.filterMap_append] at hnone
    obtain ⟨hhead, htail⟩ := List.append_eq_nil_iff.mp hnone
    obtain ⟨rfl, hreject⟩ := h.same hhead
    obtain ⟨rfl, hrejectRest⟩ := hrest.same htail
    rw [repeated_cons, hreject, hrejectRest]
    exact ⟨rfl, rfl⟩
  first t rest hfirst := by
    rw [List.filterMap_append] at hfirst
    rw [repeated_cons]
    -- The step at the head fails, or it succeeds and a later one fails.
    cases hhead : places.filterMap Site.unsupported? with
    | nil =>
        rw [hhead, List.nil_append] at hfirst
        rw [(h.same hhead).2, hrest.first t rest hfirst]
        rfl
    | cons u more =>
        rw [hhead] at hfirst
        cases hfirst
        rw [h.first t more hhead]
        rfl

/-- The policies agree on a repetition if they do so on each step. -/
theorem Agree.repeated {f : DefaultPolicy → Tree → Except Failure (α × List Warning)} {ts : List Tree}
    (h : ∀ t ∈ ts, AgreeOn holding f t) :
    ∃ as bs, Agree holding.list (ts.flatMap sites) (fun policy => repeated (f policy) ts) as bs := by
  induction ts with
  | nil => exact ⟨[], [], Agree.const (fun _ => rfl) rfl⟩
  | cons t ts ih =>
      obtain ⟨a, b, hhead⟩ := h t List.mem_cons_self
      obtain ⟨as, bs, htail⟩ := ih fun u hu => h u (List.mem_cons_of_mem t hu)
      exact ⟨a :: as, b :: bs, hhead.cons htail⟩

end Steps

/-! ## Declarations -/

section Defaults

variable {name : String} {param : Tree}

/-- A default that is shown, or none at all, is the same under every policy. -/
theorem supported_of_none (h : Site.unsupported? ⟨name, defaultLeaf? param⟩ = none)
    (policy : DefaultPolicy) :
    supported policy name param = .ok (Site.dropped ⟨name, defaultLeaf? param⟩, []) := by
  rw [supported, default?_eq]
  cases hvalue : defaultLeaf? param with
  | none => rfl
  | some t =>
      rw [hvalue] at h
      by_cases hshown : IsShown t
      · rw [Site.dropped_shown hshown]
        simp only [if_pos (show t.kind = .integerLiteral ∨ t.kind = .stringLiteral from hshown)]
      · rw [Site.unsupported?_hidden hshown] at h
        cases h

/-- An unsupported default is found to be one. -/
theorem default?_of_some {t : Token} (h : Site.unsupported? ⟨name, defaultLeaf? param⟩ = some t) :
    default? param = .error ⟨t.kind, t.text, t.span⟩ := by
  obtain ⟨hvalue, hhidden, _, _⟩ := Site.of_unsupported? h
  have hleaf : defaultLeaf? param = some t := hvalue
  rw [default?_eq, hleaf]
  exact if_neg hhidden

end Defaults

/-! ### Each step as a repetition -/

section Equations

variable {decl : Tree} {name : String}

/-- Only the default of a parameter depends on the policy. -/
theorem parameterOf_eq {typeName : String} {param : Tree}
    (hname : requiredToken param .identifier "parameter name" = .ok name)
    (htype : requiredType param "parameter type" = .ok typeName) (policy : DefaultPolicy) :
    parameterOf policy param =
      (supported policy name param).map
        (Prod.map (fun value => ⟨name, typeName, direction param, value⟩) id) := by
  unfold parameterOf
  rw [hname, htype]
  exact map_step _ _

/-- A method repeats its parameters. -/
theorem methodOf_eq (hname : requiredToken decl .identifier "method name" = .ok name)
    (policy : DefaultPolicy) :
    methodOf policy decl = (repeated (parameterOf policy) (parameterNodes decl)).map
      (Prod.map (Method.mk name (typeText? decl .returnType) (visibility decl)) id) := by
  unfold methodOf
  rw [hname]
  exact map_repeated _ _ _

/-- A class repeats its methods; its attributes have nothing to do with the policy. -/
theorem classEntity_eq {attributes : List Attribute}
    (hname : requiredToken decl .identifier "class name" = .ok name)
    (hattributes : (decl.descendants .attrDecl).mapM attributeOf = .ok attributes) (scope : String)
    (policy : DefaultPolicy) :
    classEntity policy scope decl = (repeated (methodOf policy) (decl.descendants .methodDecl)).map
      (Prod.map (fun methods => ⟨⟨scope, name⟩, .ofClass attributes methods⟩) id) := by
  unfold classEntity
  rw [hname, hattributes]
  exact map_repeated _ _ fun methods => Entity.mk ⟨scope, name⟩ (.ofClass attributes methods)

/-- A namespace repeats its children. -/
theorem namespaceEntities_eq (hname : requiredToken decl .identifier "namespace name" = .ok name)
    (policy : DefaultPolicy) :
    namespaceEntities policy decl =
      (repeated (declared policy name) decl.children).map (Prod.map List.flatten id) := by
  unfold namespaceEntities
  rw [hname]
  exact map_repeated _ _ _

/-- A model repeats its namespaces. -/
theorem model_eq (unit : Tree) (policy : DefaultPolicy) :
    model policy unit =
      (repeated (namespaceEntities policy) (unit.descendants .namespaceDecl)).map
        (Prod.map List.flatten id) := by
  unfold model
  exact map_repeated _ _ _

/-- Enums are never remarked on. -/
theorem enumEntity_quiet {scope : String} {e : Entity} {warnings : List Warning}
    (h : enumEntity scope decl = .ok (e, warnings)) : warnings = [] := by
  obtain ⟨name, _, h⟩ := bind_eq_ok h
  split at h
  · cases h
  · obtain ⟨values, _, h⟩ := bind_eq_ok h
    cases h
    rfl

end Equations

/-! ### The policies agree on each step -/

section Declarations

variable {source : List Char}

theorem siteOf_eq {param : Tree} {name expected : String}
    (hname : requiredToken param .identifier expected = .ok name) :
    siteOf param = ⟨name, defaultLeaf? param⟩ := by
  obtain ⟨t, ht, rfl⟩ := requiredToken_ok hname
  rw [siteOf, ht]
  rfl

/-- The one step in which policies differ: a default that is not supported is dropped, kept or refused.
-/
theorem parameterOf_agree (a : Derivation (.production .param)) :
    AgreeOn .parameter parameterOf (node .param (a.trees source)) := by
  obtain ⟨name, ty, hname, htype⟩ := parameter_parts source a
  rw [AgreeOn, sites_param, siteOf_eq (hname.2 "parameter name")]
  have hstep := parameterOf_eq (hname.2 "parameter name") (htype "parameter type")
  cases hsite : Site.unsupported? ⟨name.text, defaultLeaf? (node .param (a.trees source))⟩ with
  | none =>
      let p : Parameter := ⟨name.text, flatten (leavesAll (ty.trees source)),
        direction (node .param (a.trees source)),
        Site.dropped ⟨name.text, defaultLeaf? (node .param (a.trees source))⟩⟩
      have hparameter (policy : DefaultPolicy) :
          parameterOf policy (node .param (a.trees source)) = .ok (p, []) := by
        rw [hstep, supported_of_none hsite]
        rfl
      exact ⟨p, p, Agree.shown hsite rfl rfl hparameter⟩
  | some t =>
      have hdefault := default?_of_some hsite
      let p : Parameter := ⟨name.text, flatten (leavesAll (ty.trees source)),
        direction (node .param (a.trees source)), none⟩
      have hagree : Agree .parameter [⟨name.text, defaultLeaf? (node .param (a.trees source))⟩]
          (fun policy => parameterOf policy (node .param (a.trees source)))
          p.eraseDefault { p with default? := some t.text } := by
        apply Agree.hidden hsite rfl
        · rw [hstep, supported, hdefault]
          rfl
        · rw [hstep, supported, hdefault]
          rfl
        · rw [hstep, supported, hdefault]
          rfl
      exact ⟨_, _, hagree⟩

/-- They agree on methods, since they do on parameters. -/
theorem methodOf_agree (a : Derivation (.production .methodDecl)) :
    AgreeOn .method methodOf (node .methodDecl (a.trees source)) := by
  obtain ⟨name, hname⟩ := method_parts source a
  simp only [AgreeOn, methodOf_eq (hname.2 "method name"), sites_method]
  have hparameters : ∀ c ∈ parameterNodes (node .methodDecl (a.trees source)),
      AgreeOn .parameter parameterOf c := by
    intro c hc
    obtain ⟨_, b, rfl⟩ := exists_of_mem_parameterNodes hc
    exact parameterOf_agree b
  obtain ⟨ps, qs, hagree⟩ := Agree.repeated hparameters
  refine ⟨_, _, hagree.map _ ?_ ?_⟩
  · intro ps
    exact (List.flatMap_singleton' ps).symm
  · intro ps qs heq
    exact congrArg (Method.mk _ _ _) heq

/-- They agree on classes, since they do on methods. -/
theorem classEntity_agree (scope : String) (a : Derivation (.production .classDecl)) :
    AgreeOn .entity (fun policy => classEntity policy scope) (node .classDecl (a.trees source)) := by
  obtain ⟨_, _, name, _, _, hname, _⟩ := class_parts source a
  have hsettles : Settles .drop
      (((node .classDecl (a.trees source)).descendants .attrDecl).mapM attributeOf) := by
    rw [descendants_eq_childNodes (by decide) a]
    apply Settles.mapM
    intro c hc
    obtain ⟨_, b, rfl⟩ := exists_of_mem_childNodes hc
    exact attributeOf_settles b
  obtain ⟨attributes, hattributes⟩ := hsettles.exists_ok (by decide)
  have hmethods : ∀ c ∈ (node .classDecl (a.trees source)).childNodes .methodDecl,
      AgreeOn .method methodOf c := by
    intro c hc
    obtain ⟨_, b, rfl⟩ := exists_of_mem_childNodes hc
    exact methodOf_agree b
  obtain ⟨ms, ms', hagree⟩ := Agree.repeated hmethods
  simp only [AgreeOn, classEntity_eq (hname.2 "class name") hattributes,
    descendants_eq_childNodes (show IsImmediate .classDecl .methodDecl by decide) a]
  rw [sites_childNodes (show Rule.classDecl ≠ .param by decide)
    (show ∀ r ∈ (Phrase.production .classDecl).rules, r = .methodDecl ∨ Siteless r by decide) a]
  refine ⟨_, _, hagree.map _ ?_ ?_⟩
  · intro ms
    rfl
  · intro ms ms' heq
    exact congrArg (fun methods => Entity.mk _ (.ofClass attributes methods)) heq

theorem enumEntity_agree (scope : String) (a : Derivation (.production .enumDecl)) :
    AgreeOn .entity (fun _ => enumEntity scope) (node .enumDecl (a.trees source)) := by
  have hsettles : Settles .drop (enumEntity scope (node .enumDecl (a.trees source))) :=
    enumEntity_settles scope a
  obtain ⟨⟨e, warnings⟩, he⟩ := hsettles.exists_ok (by decide)
  obtain ⟨name, body, values, rfl, _⟩ := enumEntity_ok ⟨warnings, he⟩
  obtain rfl := enumEntity_quiet he
  rw [AgreeOn, sites_siteless (by decide) a]
  exact ⟨_, _, Agree.const (fun _ => he) rfl⟩

/-- They agree on whatever a child of a namespace declares. -/
theorem declared_agree (scope : String) (a : Derivation (.production .namespaceDecl)) {c : Tree}
    (hc : c ∈ a.trees source) :
    AgreeOn Holding.entity.list (fun policy => declared policy scope) c := by
  rcases mem_trees (admits_true _) a hc with ⟨t, rfl, _⟩ | ⟨r, hr, b, rfl⟩
  · rw [AgreeOn, sites_leaf]
    exact ⟨[], [], Agree.const (fun _ => rfl) rfl⟩
  · have htypes : ∀ r ∈ (Phrase.production .namespaceDecl).rules, r = .classDecl ∨ r = .enumDecl := by
      decide
    have hparameters (e : Entity) : Holding.entity.list.parameters [e] = Holding.entity.parameters e :=
      List.append_nil _
    have herase (e e' : Entity) (heq : Holding.entity.erase e = Holding.entity.erase e') :
        Holding.entity.list.erase [e] = Holding.entity.list.erase [e'] :=
      congrArg (fun f => [f]) heq
    rcases htypes r hr with rfl | rfl
    · obtain ⟨e, e', hagree⟩ := classEntity_agree scope b
      exact ⟨[e], [e'], hagree.map (fun e => [e]) hparameters herase⟩
    · obtain ⟨e, e', hagree⟩ := enumEntity_agree scope b
      exact ⟨[e], [e'], hagree.map (fun e => [e]) hparameters herase⟩

theorem flatten_parameters (groups : List Model) :
    Holding.entity.list.parameters groups.flatten = Holding.entity.list.list.parameters groups := by
  show groups.flatten.flatMap Entity.parameters = groups.flatMap (List.flatMap Entity.parameters)
  rw [List.flatMap_def, List.map_flatten, List.flatten_flatten, List.map_map]
  rfl

theorem flatten_erase {groups groups' : List Model}
    (heq : Holding.entity.list.list.erase groups = Holding.entity.list.list.erase groups') :
    Holding.entity.list.erase groups.flatten = Holding.entity.list.erase groups'.flatten := by
  show groups.flatten.map Entity.eraseDefaults = groups'.flatten.map Entity.eraseDefaults
  rw [List.map_flatten, List.map_flatten]
  exact congrArg List.flatten heq

/-- They agree on namespaces, since they do on children. -/
theorem namespaceEntities_agree (a : Derivation (.production .namespaceDecl)) :
    AgreeOn Holding.entity.list namespaceEntities (node .namespaceDecl (a.trees source)) := by
  obtain ⟨_, name, _, _, hname, _⟩ := namespace_parts source a
  obtain ⟨groups, groups', hagree⟩ := Agree.repeated fun c hc => declared_agree name.text a hc
  simp only [AgreeOn, namespaceEntities_eq (hname.2 "namespace name"), children]
  rw [sites_node (by decide)]
  exact ⟨_, _, hagree.map List.flatten flatten_parameters fun _ _ => flatten_erase⟩

/-- They agree on whole units. -/
theorem model_agree (a : Derivation (.production .compilationUnit)) :
    AgreeOn Holding.entity.list model (node .compilationUnit (a.trees source)) := by
  have hparts : ∀ c ∈ (node .compilationUnit (a.trees source)).childNodes .namespaceDecl,
      AgreeOn Holding.entity.list namespaceEntities c := by
    intro c hc
    obtain ⟨_, b, rfl⟩ := exists_of_mem_childNodes hc
    exact namespaceEntities_agree b
  obtain ⟨parts, parts', hagree⟩ := Agree.repeated hparts
  simp only [AgreeOn, model_eq,
    descendants_eq_childNodes (show IsImmediate .compilationUnit .namespaceDecl by decide) a]
  rw [sites_childNodes (show Rule.compilationUnit ≠ .param by decide)
    (show ∀ r ∈ (Phrase.production .compilationUnit).rules, r = .namespaceDecl ∨ Siteless r by decide) a]
  exact ⟨_, _, hagree.map List.flatten flatten_parameters fun _ _ => flatten_erase⟩

end Declarations

/-! ## Source texts -/

section Sources

variable {source : String}

/-- A text that has no tree fails the same way under every policy. -/
theorem parse_of_error {error : ParseError} (h : parseTree (stripMark source) = .error error)
    (policy : DefaultPolicy) : parse policy source = .error error := by
  unfold parse
  rw [h]

theorem parse_of_model {tree : Tree} {policy : DefaultPolicy} {result : Model × List Warning}
    (htree : parseTree (stripMark source) = .ok tree) (h : model policy tree = .ok result) :
    parse policy source = .ok result := by
  unfold parse
  rw [htree]
  simp only [h]

/-- A tree without a model fails with a single diagnostic. -/
theorem parse_of_failure {tree : Tree} {policy : DefaultPolicy} {failure : Failure}
    (htree : parseTree (stripMark source) = .ok tree) (h : model policy tree = .error failure) :
    parse policy source = .error (.single failure.diagnostic) := by
  unfold parse
  rw [htree]
  simp only [h]

/-- A source without a tree does not fail for a default. -/
theorem code_of_parseTree_error {d : Diagnostic} (h : parseTree source = .error (.single d)) :
    d.code ≠ some .unsupportedDefault := by
  intro hdefault
  rcases parseTree_error h with htokens | ⟨found, code, hfound, hcode, hphase⟩
  · obtain ⟨code, hcode, hphase⟩ := tokenize_lexical htokens (List.mem_singleton_self d)
    rw [hdefault] at hcode
    cases hcode
    cases hphase
  · cases hfound
    rw [hdefault] at hcode
    cases hcode
    cases hphase

end Sources

/-- What the policies make of a source that has a tree: the models where unsupported defaults are dropped
and where they are kept, and what comes of rejecting them. The defaults in the models are those at the
sites, place by place, and the sites come in the order of the source. -/
structure Treated (source : String) (tree : Tree) (dropped kept : Model) : Prop where
  drop_eq : parse .drop source = .ok (dropped, (sites tree).filterMap Site.warning?)
  keep_eq : parse .keep source = .ok (kept, [])
  erase_eq : dropped.eraseDefaults = kept.eraseDefaults
  dropped_eq : dropped.parameters.map (fun p => (p.name, p.default?)) =
    (sites tree).map fun s => (s.name, s.dropped)
  kept_eq : kept.parameters.map (fun p => (p.name, p.default?)) =
    (sites tree).map fun s => (s.name, s.kept)
  same : unsupportedDefaults tree = [] → dropped = kept ∧ parse .reject source = .ok (dropped, [])
  first : ∀ t rest, unsupportedDefaults tree = t :: rest → ∃ d, parse .reject source = .error (.single d) ∧
    d.code = some .unsupportedDefault ∧ d.labels.map (·.span) = [t.span]
  ordered : ∃ tokens, tokenize (stripMark source) = .ok tokens ∧
    ((sites tree).filterMap Site.value?).Sublist tokens ∧ (unsupportedDefaults tree).Pairwise Token.Before

/-- The runs that drop and keep succeed on every tree, and with them the three runs are compared. -/
theorem exists_treated {source : String} {tree : Tree} (htree : parseTree (stripMark source) = .ok tree) :
    ∃ dropped kept, Treated source tree dropped kept := by
  obtain ⟨a, htokens, rfl⟩ := parseTree_ok htree
  have hmodel : AgreeOn Holding.entity.list model
      (node .compilationUnit (a.trees (stripMark source).toList)) := model_agree a
  obtain ⟨dropped, kept, hagree⟩ := hmodel
  refine ⟨dropped, kept, ⟨?_, ?_, hagree.erase_eq, hagree.dropped_eq, hagree.kept_eq, ?_, ?_, ?_⟩⟩
  · exact parse_of_model htree hagree.drop_eq
  · exact parse_of_model htree hagree.keep_eq
  · intro hnone
    obtain ⟨heq, hreject⟩ := hagree.same hnone
    exact ⟨heq, parse_of_model htree hreject⟩
  · intro t rest hfirst
    exact ⟨_, parse_of_failure htree (hagree.first t rest hfirst), rfl, rfl⟩
  · exact ⟨a.yield, htokens, values_sublist_tokens htree htokens,
      unsupportedDefaults_pairwise htree htokens⟩

/-- Rejecting succeeds where there is nothing to reject. -/
theorem Treated.reject_iff {source : String} {tree : Tree} {dropped kept : Model}
    (h : Treated source tree dropped kept) :
    (∃ result, parse .reject source = .ok result) ↔ unsupportedDefaults tree = [] := by
  constructor
  · rintro ⟨result, hresult⟩
    cases hfirst : unsupportedDefaults tree with
    | nil => rfl
    | cons t rest =>
        obtain ⟨d, hreject, _⟩ := h.first t rest hfirst
        rw [hreject] at hresult
        cases hresult
  · intro hnone
    exact ⟨_, (h.same hnone).2⟩

/-- The policies differ at unsupported defaults only. Dropping them, keeping them and rejecting them
succeed for the same sources, but for the one failure that rejecting is for. A source without a tree fails
alike under every policy; what the policies make of a source with a tree is said by `Treated`. -/
theorem policies_agree (source : String) :
    ((∃ result, parse .drop source = .ok result) ↔ ∃ result, parse .keep source = .ok result) ∧
    ((∃ result, parse .keep source = .ok result) ↔
      (∃ result, parse .reject source = .ok result) ∨
        ∃ d, parse .reject source = .error (.single d) ∧ d.code = some .unsupportedDefault) ∧
    (∀ error, parseTree (stripMark source) = .error error →
      ∀ policy, parse policy source = .error error) ∧
    (∀ tree, parseTree (stripMark source) = .ok tree →
      ∃ dropped kept, Treated source tree dropped kept ∧
        ((∃ result, parse .reject source = .ok result) ↔ unsupportedDefaults tree = [])) := by
  cases htree : parseTree (stripMark source) with
  | error error =>
      have hfails := parse_of_error htree
      have hnone (policy : DefaultPolicy) : ¬ ∃ result, parse policy source = .ok result := by
        rintro ⟨result, hresult⟩
        rw [hfails] at hresult
        cases hresult
      refine ⟨iff_of_false (hnone .drop) (hnone .keep), iff_of_false (hnone .keep) ?_, ?_, ?_⟩
      · rintro (hresult | ⟨d, hd, hcode⟩)
        · exact hnone .reject hresult
        · rw [hfails] at hd
          cases hd
          exact code_of_parseTree_error htree hcode
      · intro error' herror
        cases herror
        exact hfails
      · intro tree hok
        cases hok
  | ok tree =>
      obtain ⟨dropped, kept, htreated⟩ := exists_treated htree
      refine ⟨iff_of_true ⟨_, htreated.drop_eq⟩ ⟨_, htreated.keep_eq⟩,
        iff_of_true ⟨_, htreated.keep_eq⟩ ?_, ?_, ?_⟩
      · cases hfirst : unsupportedDefaults tree with
        | nil => exact Or.inl ⟨_, (htreated.same hfirst).2⟩
        | cons t rest =>
            obtain ⟨d, hreject, hcode, _⟩ := htreated.first t rest hfirst
            exact Or.inr ⟨d, hreject, hcode⟩
      · intro error herror
        cases herror
      · intro tree' hok
        cases hok
        exact ⟨dropped, kept, htreated, htreated.reject_iff⟩

/-- Defaults of each kind in two methods, with an attribute between them. -/
def mixedDefaults : String :=
  "namespace N; class A \x7b void F(int a = 1, float b = 1.5) \x7b \x7d int x = 2; " ++
    "void G(char c = 'x', string d = \"y\", int e) \x7b \x7d \x7d"

/-- Five parameters, three defaults of which are not supported. -/
theorem policies_agree_mixed :
    ∃ tree, parseTree (stripMark mixedDefaults) = .ok tree ∧
      sites tree =
        [⟨"a", some ⟨.integerLiteral, "1", ⟨38, 39⟩⟩⟩, ⟨"b", some ⟨.numberLiteral, "1.5", ⟨51, 54⟩⟩⟩,
          ⟨"c", some ⟨.charLiteral, "'x'", ⟨87, 90⟩⟩⟩,
          ⟨"d", some ⟨.stringLiteral, "\"y\"", ⟨103, 106⟩⟩⟩, ⟨"e", none⟩] ∧
      ∃ dropped kept, Treated mixedDefaults tree dropped kept ∧
        ((∃ result, parse .reject mixedDefaults = .ok result) ↔ unsupportedDefaults tree = []) := by
  have hsome : (parseTree (stripMark mixedDefaults)).toOption.map sites = some
      [⟨"a", some ⟨.integerLiteral, "1", ⟨38, 39⟩⟩⟩, ⟨"b", some ⟨.numberLiteral, "1.5", ⟨51, 54⟩⟩⟩,
        ⟨"c", some ⟨.charLiteral, "'x'", ⟨87, 90⟩⟩⟩,
        ⟨"d", some ⟨.stringLiteral, "\"y\"", ⟨103, 106⟩⟩⟩, ⟨"e", none⟩] := by
    decide +kernel
  match htree : parseTree (stripMark mixedDefaults) with
  | .error error =>
      rw [htree] at hsome
      cases hsome
  | .ok tree =>
      rw [htree] at hsome
      exact ⟨tree, rfl, Option.some.inj hsome, (policies_agree mixedDefaults).2.2.2 tree htree⟩

end ClassChart.Extract

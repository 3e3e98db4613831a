/-
# ClassChart.Proofs.Extract.Results — what each step of extraction gives and how it can fail

Extraction is a tree of steps that may fail, most of them repeated over a list of nodes. A step that
succeeds is taken apart into the steps inside it, once for each function, so that later proofs need not
open any. How a step can fail is said in the other direction: `Settles` is closed under sequence and
repetition, and it holds of a whole when it holds of the parts.
-/
import ClassChart.Extract
import Mathlib.Data.List.Forall2

namespace ClassChart.Extract

open ClassChart.Tree

/-! ## Sequences and repetitions -/

section Except

variable {ε α β : Type} {x : Except ε α} {f : α → Except ε β}

/-- What two steps give, the second one gives from what the first one gave. -/
theorem bind_eq_ok {b : β} (h : x >>= f = .ok b) : ∃ a, x = .ok a ∧ f a = .ok b := by
  cases x with
  | error e => cases h
  | ok a => exact ⟨a, rfl, h⟩

theorem map_eq_ok {g : α → β} {b : β} (h : x.map g = .ok b) : ∃ a, x = .ok a ∧ b = g a := by
  cases x with
  | error e => cases h
  | ok a =>
      cases h
      exact ⟨a, rfl, rfl⟩

/-- A repetition that succeeds has succeeded at each element. -/
theorem mapM_eq_ok {xs : List α} {ys : List β} (h : xs.mapM f = .ok ys) :
    List.Forall₂ (fun x y => f x = .ok y) xs ys := by
  induction xs generalizing ys with
  | nil =>
      cases h
      exact .nil
  | cons x xs ih =>
      rw [List.mapM_cons] at h
      obtain ⟨y, hy, h⟩ := bind_eq_ok h
      obtain ⟨ys, hys, h⟩ := bind_eq_ok h
      cases h
      exact .cons hy (ih hys)

/-- It succeeds when it does at each element. -/
theorem mapM_eq_of_forall₂ {xs : List α} {ys : List β}
    (h : List.Forall₂ (fun x y => f x = .ok y) xs ys) : xs.mapM f = .ok ys := by
  induction h with
  | nil => rfl
  | cons hxy _ ih =>
      rw [List.mapM_cons, hxy, ih]
      rfl

/-- It fails with the error of the first element at which it does. -/
theorem mapM_eq_error {before after : List α} {ys : List β} {a : α} {e : ε}
    (h : List.Forall₂ (fun x y => f x = .ok y) before ys) (he : f a = .error e) :
    (before ++ a :: after).mapM f = .error e := by
  rw [List.mapM_append, mapM_eq_of_forall₂ h, List.mapM_cons, he]
  rfl

end Except

/-- What stands on the right has a partner on the left. -/
theorem exists_of_forall₂ {α β : Type} {R : α → β → Prop} {xs : List α} {ys : List β} {y : β}
    (h : List.Forall₂ R xs ys) (hy : y ∈ ys) : ∃ x ∈ xs, R x y := by
  induction h with
  | nil => exact absurd hy List.not_mem_nil
  | cons hxy _ ih =>
      rcases List.mem_cons.mp hy with rfl | hy
      · exact ⟨_, List.mem_cons_self, hxy⟩
      · obtain ⟨x, hx, hR⟩ := ih hy
        exact ⟨x, List.mem_cons_of_mem _ hx, hR⟩

/-- The step gives the result, with warnings or without. -/
def Gives {α β : Type} (f : α → Except Failure (β × List Warning)) (x : α) (y : β) : Prop :=
  ∃ warnings, f x = .ok (y, warnings)

/-- What a traversal gathers, its elements give one by one. -/
theorem gather_gives {α β : Type} {f : α → Except Failure (β × List Warning)} {xs : List α}
    {results : List (β × List Warning)} (h : xs.mapM f = .ok results) :
    List.Forall₂ (Gives f) xs (gather results).1 := by
  refine List.forall₂_map_right_iff.mpr ((mapM_eq_ok h).imp ?_)
  intro x result hresult
  exact ⟨result.2, hresult⟩

/-! ## Steps that succeed -/

section Steps

variable {policy : DefaultPolicy} {scope : String} {decl : Tree}

/-- A required token is the first one of its kind among the children. -/
theorem requiredToken_ok {kind : TokenKind} {expected text : String}
    (h : requiredToken decl kind expected = .ok text) :
    ∃ t, decl.childToken? kind = some t ∧ t.text = text := by
  unfold requiredToken at h
  split at h
  · rename_i t ht
    cases h
    exact ⟨t, ht, rfl⟩
  · cases h

theorem requiredType_ok {expected text : String} (h : requiredType decl expected = .ok text) :
    typeText? decl .typeName = some text := by
  unfold requiredType at h
  split at h
  · rename_i found hfound
    cases h
    exact hfound
  · cases h

/-- An attribute has its name and its type from its own node. -/
theorem attributeOf_ok {a : Attribute} (h : attributeOf decl = .ok a) :
    requiredToken decl .identifier "attribute name" = .ok a.name ∧
      requiredType decl "attribute type" = .ok a.typeName := by
  obtain ⟨name, hname, h⟩ := bind_eq_ok h
  obtain ⟨typeName, htype, h⟩ := bind_eq_ok h
  cases h
  exact ⟨hname, htype⟩

/-- So has a parameter. -/
theorem parameterOf_ok {p : Parameter} (h : Gives (parameterOf policy) decl p) :
    requiredToken decl .identifier "parameter name" = .ok p.name ∧
      requiredType decl "parameter type" = .ok p.typeName := by
  obtain ⟨warnings, h⟩ := h
  obtain ⟨name, hname, h⟩ := bind_eq_ok h
  obtain ⟨typeName, htype, h⟩ := bind_eq_ok h
  obtain ⟨⟨value, found⟩, _, h⟩ := bind_eq_ok h
  cases h
  exact ⟨hname, htype⟩

/-- A method has one parameter for each parameter node. -/
theorem methodOf_ok {m : Method} (h : Gives (methodOf policy) decl m) :
    requiredToken decl .identifier "method name" = .ok m.name ∧
      List.Forall₂ (Gives (parameterOf policy)) (parameterNodes decl) m.parameters := by
  obtain ⟨warnings, h⟩ := h
  obtain ⟨name, hname, h⟩ := bind_eq_ok h
  obtain ⟨results, hresults, h⟩ := bind_eq_ok h
  cases h
  exact ⟨hname, gather_gives hresults⟩

/-- A class has one attribute for each attribute node and one method for each method node. -/
theorem classEntity_ok {e : Entity} (h : Gives (classEntity policy scope) decl e) :
    ∃ name attributes methods, e = ⟨⟨scope, name⟩, .ofClass attributes methods⟩ ∧
      requiredToken decl .identifier "class name" = .ok name ∧
      List.Forall₂ (fun node a => attributeOf node = .ok a) (decl.descendants .attrDecl) attributes ∧
      List.Forall₂ (Gives (methodOf policy)) (decl.descendants .methodDecl) methods := by
  obtain ⟨warnings, h⟩ := h
  obtain ⟨name, hname, h⟩ := bind_eq_ok h
  obtain ⟨attributes, hattributes, h⟩ := bind_eq_ok h
  obtain ⟨results, hresults, h⟩ := bind_eq_ok h
  cases h
  exact ⟨name, attributes, _, rfl, hname, mapM_eq_ok hattributes, gather_gives hresults⟩

/-- An enum has one value for each value node of its body. -/
theorem enumEntity_ok {e : Entity} (h : Gives (enumEntity scope) decl e) :
    ∃ name body values, e = ⟨⟨scope, name⟩, .ofEnum values⟩ ∧
      requiredToken decl .identifier "enum name" = .ok name ∧
      decl.childNode? .enumBody = some body ∧
      List.Forall₂ (fun node v => requiredToken node .identifier "enum member name" = .ok v)
        (body.descendants .enumValue) values := by
  obtain ⟨warnings, h⟩ := h
  obtain ⟨name, hname, h⟩ := bind_eq_ok h
  split at h
  · cases h
  · rename_i body hbody
    obtain ⟨values, hvalues, h⟩ := bind_eq_ok h
    cases h
    exact ⟨name, body, values, rfl, hname, hbody, mapM_eq_ok hvalues⟩

/-- A child of a namespace is a class, an enum, or declares nothing. -/
theorem declared_ok {es : List Entity} (h : Gives (declared policy scope) decl es) :
    (decl.rule? = some .classDecl ∧ ∃ e, es = [e] ∧ Gives (classEntity policy scope) decl e) ∨
    (decl.rule? = some .enumDecl ∧ ∃ e, es = [e] ∧ Gives (enumEntity scope) decl e) ∨
    (decl.rule? ≠ some .classDecl ∧ decl.rule? ≠ some .enumDecl ∧ es = []) := by
  obtain ⟨warnings, h⟩ := h
  unfold declared at h
  split at h
  · rename_i hrule
    obtain ⟨⟨e, found⟩, he, hes⟩ := map_eq_ok h
    cases hes
    exact Or.inl ⟨hrule, e, rfl, _, he⟩
  · rename_i hrule
    obtain ⟨⟨e, found⟩, he, hes⟩ := map_eq_ok h
    cases hes
    exact Or.inr (Or.inl ⟨hrule, e, rfl, _, he⟩)
  · rename_i hclass henum
    cases h
    exact Or.inr (Or.inr ⟨hclass, henum, rfl⟩)

/-- A namespace has what its children declare, in order. -/
theorem namespaceEntities_ok {es : List Entity} (h : Gives (namespaceEntities policy) decl es) :
    ∃ scope groups, requiredToken decl .identifier "namespace name" = .ok scope ∧
      List.Forall₂ (Gives (declared policy scope)) decl.children groups ∧ es = groups.flatten := by
  obtain ⟨warnings, h⟩ := h
  obtain ⟨scope, hscope, h⟩ := bind_eq_ok h
  obtain ⟨results, hresults, h⟩ := bind_eq_ok h
  cases h
  exact ⟨scope, _, hscope, gather_gives hresults, rfl⟩

/-- A model has the entities of its namespaces, in order. -/
theorem model_ok {m : Model} (h : Gives (model policy) decl m) :
    ∃ parts, List.Forall₂ (Gives (namespaceEntities policy)) (decl.descendants .namespaceDecl) parts ∧
      m = parts.flatten := by
  obtain ⟨warnings, h⟩ := h
  obtain ⟨results, hresults, h⟩ := bind_eq_ok h
  cases h
  exact ⟨_, gather_gives hresults, rfl⟩

end Steps

/-! ## Source texts -/

/-- A text that does not begin with a mark is left alone. -/
theorem stripMark_eq_self {source : String} (h : source.toList.head? ≠ some '\uFEFF') :
    stripMark source = source := by
  unfold stripMark
  split
  · rename_i rest htext
    rw [htext] at h
    exact absurd rfl h
  · rfl

/-- A text with a model has a tree, and the model is that of the tree. -/
theorem parse_ok {policy : DefaultPolicy} {source : String} {result : Model × List Warning}
    (h : parse policy source = .ok result) :
    ∃ tree, Grammar.parseTree (stripMark source) = .ok tree ∧ model policy tree = .ok result := by
  unfold parse at h
  split at h
  · cases h
  · rename_i tree htree
    split at h
    · cases h
    · rename_i found hmodel
      cases h
      exact ⟨tree, htree, hmodel⟩

/-- A text without a model has no tree, or a tree without a model. -/
theorem parse_error {policy : DefaultPolicy} {source : String} {error : ParseError}
    (h : parse policy source = .error error) :
    Grammar.parseTree (stripMark source) = .error error ∨
      ∃ tree failure, Grammar.parseTree (stripMark source) = .ok tree ∧
        model policy tree = .error failure ∧ error = .single failure.diagnostic := by
  unfold parse at h
  split at h
  · rename_i found htree
    cases h
    exact Or.inl htree
  · rename_i tree htree
    split at h
    · rename_i failure hmodel
      cases h
      exact Or.inr ⟨tree, failure, htree, hmodel, rfl⟩
    · cases h

/-! ## Steps that settle -/

/-- The step succeeds, or it fails because the policy rejects a default. -/
def Settles {α : Type} (policy : DefaultPolicy) : Except Failure α → Prop
  | .ok _ => True
  | .error failure => policy = .reject ∧ ∃ value, failure = .unsupported value

namespace Settles

variable {policy : DefaultPolicy} {α β : Type} {x : Except Failure α}

/-- Two steps settle if each of them does. -/
theorem bind {f : α → Except Failure β} (hx : Settles policy x)
    (hf : ∀ a, x = .ok a → Settles policy (f a)) : Settles policy (x >>= f) := by
  cases x with
  | error failure => exact hx
  | ok a => exact hf a rfl

theorem map {g : α → β} (hx : Settles policy x) : Settles policy (x.map g) := by
  cases x with
  | error failure => exact hx
  | ok a => trivial

/-- A traversal settles if all its steps do. -/
theorem mapM {f : α → Except Failure β} {xs : List α} (hf : ∀ a ∈ xs, Settles policy (f a)) :
    Settles policy (xs.mapM f) := by
  induction xs with
  | nil => trivial
  | cons a xs ih =>
      rw [List.mapM_cons]
      refine bind (hf a List.mem_cons_self) fun b _ => bind ?_ fun bs _ => trivial
      exact ih fun c hc => hf c (List.mem_cons_of_mem a hc)

/-- Only one policy lets a step fail. -/
theorem exists_ok (hx : Settles policy x) (hpolicy : policy ≠ .reject) : ∃ a, x = .ok a := by
  cases x with
  | error failure => exact absurd hx.1 hpolicy
  | ok a => exact ⟨a, rfl⟩

end Settles

/-- A default settles: it is taken, or the policy says what happens. -/
theorem supported_settles (policy : DefaultPolicy) (name : String) (param : Tree) :
    Settles policy (supported policy name param) := by
  unfold supported
  cases default? param with
  | ok value => trivial
  | error value =>
      cases policy with
      | drop => trivial
      | keep => trivial
      | reject => exact ⟨rfl, value, rfl⟩

end ClassChart.Extract

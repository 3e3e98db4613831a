/-
# ClassChart.Proofs.Grammar.Shape — what the trees of a derivation look like

Facts about the trees of every derivation of a phrase, read off the phrase: which nodes stand in them and
what those are made of, which tokens can be leaves, which queries pass over them. Rules nest in one
direction only, apart from types in types. So a search of whole subtrees for a rule finds nothing but
immediate children, wherever all rules at hand rank no higher than the one that is searched for.
-/
import ClassChart.Proofs.Grammar.Derivation
import ClassChart.Proofs.Tree.Queries

namespace ClassChart.Grammar

open ClassChart.Tree

/-! ## What a phrase is made of -/

/-- The rules that a phrase names. -/
def Phrase.rules : Phrase → List Rule
  | terminal _ => []
  | seq e f => e.rules ++ f.rules
  | alt e f => e.rules ++ f.rules
  | opt e => e.rules
  | many e => e.rules
  | rule r => [r]
  | body => []
  | value => []

/-- Every token that the phrase itself admits has the property. Tokens inside rules and regions are
left aside. -/
def Phrase.Admits (P : Token → Prop) : Phrase → Prop
  | terminal admits => ∀ t, admits t = true → P t
  | seq e f => e.Admits P ∧ f.Admits P
  | alt e f => e.Admits P ∧ f.Admits P
  | opt e => e.Admits P
  | many e => e.Admits P
  | rule _ => True
  | body => True
  | value => True

namespace Phrase

variable {P : Token → Prop} {e f : Phrase}

@[simp] theorem admits_terminal {admits : Token → Bool} :
    (terminal admits).Admits P ↔ ∀ t, admits t = true → P t := Iff.rfl

@[simp] theorem admits_kind {k : TokenKind} :
    (kind k).Admits P ↔ ∀ t, t.isKind k = true → P t := Iff.rfl

@[simp] theorem admits_ident : ident.Admits P ↔ ∀ t, t.isKind .identifier = true → P t := Iff.rfl

@[simp] theorem admits_mark {text : String} :
    (mark text).Admits P ↔ ∀ t, t.isMark text = true → P t := Iff.rfl

@[simp] theorem admits_append : (e ++ f).Admits P ↔ e.Admits P ∧ f.Admits P := Iff.rfl

@[simp] theorem admits_or : (e ||| f).Admits P ↔ e.Admits P ∧ f.Admits P := Iff.rfl

@[simp] theorem admits_opt : (opt e).Admits P ↔ e.Admits P := Iff.rfl

@[simp] theorem admits_many : (many e).Admits P ↔ e.Admits P := Iff.rfl

@[simp] theorem admits_rule {r : Rule} : (rule r).Admits P ↔ True := Iff.rfl

@[simp] theorem admits_body : body.Admits P ↔ True := Iff.rfl

@[simp] theorem admits_value : value.Admits P ↔ True := Iff.rfl

end Phrase

/-- The token stands for a region. -/
def IsRegion (t : Token) : Prop := t.kind = .body ∨ t.kind = .valueLiteral

/-- A region is a single leaf of its kind. -/
theorem mem_runLeaf {source : List Char} {kind : TokenKind} {run : List Token} {c : Tree}
    (hc : c ∈ runLeaf source kind run) : ∃ t : Token, c = .leaf t ∧ t.kind = kind := by
  unfold runLeaf at hc
  split at hc
  · obtain rfl := List.mem_singleton.mp hc
    exact ⟨_, rfl, rfl⟩
  · exact absurd hc List.not_mem_nil

theorem kind_of_mem_leaves_runLeaf {source : List Char} {kind : TokenKind} {run : List Token}
    {t : Token} (ht : t ∈ leavesAll (runLeaf source kind run)) : t.kind = kind := by
  unfold runLeaf at ht
  split at ht
  · rw [regionLeaf, leavesAll_cons, leaves_leaf, leavesAll_nil, List.append_nil] at ht
    rw [List.mem_singleton.mp ht]
  · exact absurd ht List.not_mem_nil

/-- Nothing is asked of the tokens. -/
theorem admits_true (e : Phrase) : e.Admits fun _ => True := by
  induction e with
  | terminal _ => exact fun _ _ => trivial
  | seq e f ihe ihf => exact ⟨ihe, ihf⟩
  | alt e f ihe ihf => exact ⟨ihe, ihf⟩
  | opt e ih => exact ih
  | many e ih => exact ih
  | rule _ => trivial
  | body => trivial
  | value => trivial

section Trees

variable {source : List Char} {e : Phrase} {P : Token → Prop} {c : Tree} {r s : Rule} {k : TokenKind}

/-- A tree of a derivation is a token that the phrase admits, or a region, or the derivation of a rule
that the phrase names. -/
theorem mem_trees (he : e.Admits P) (d : Derivation e) (hc : c ∈ d.trees source) :
    (∃ t, c = .leaf t ∧ (P t ∨ IsRegion t)) ∨
      ∃ r ∈ e.rules, ∃ a : Derivation (.production r), c = .node r (a.trees source) := by
  induction d with
  | token t ht =>
      obtain rfl := List.mem_singleton.mp hc
      exact Or.inl ⟨t, rfl, Or.inl (he t ht)⟩
  | seq a b iha ihb =>
      rcases List.mem_append.mp hc with hc | hc
      · rcases iha he.1 hc with hleaf | ⟨r, hr, hnode⟩
        · exact Or.inl hleaf
        · exact Or.inr ⟨r, List.mem_append_left _ hr, hnode⟩
      · rcases ihb he.2 hc with hleaf | ⟨r, hr, hnode⟩
        · exact Or.inl hleaf
        · exact Or.inr ⟨r, List.mem_append_right _ hr, hnode⟩
  | left a ih =>
      rcases ih he.1 hc with hleaf | ⟨r, hr, hnode⟩
      · exact Or.inl hleaf
      · exact Or.inr ⟨r, List.mem_append_left _ hr, hnode⟩
  | right b ih =>
      rcases ih he.2 hc with hleaf | ⟨r, hr, hnode⟩
      · exact Or.inl hleaf
      · exact Or.inr ⟨r, List.mem_append_right _ hr, hnode⟩
  | none => exact absurd hc List.not_mem_nil
  | some a ih => exact ih he hc
  | nil => exact absurd hc List.not_mem_nil
  | cons a more iha ihmore =>
      rcases List.mem_append.mp hc with hc | hc
      · exact iha he hc
      · exact ihmore he hc
  | rule a _ =>
      obtain rfl := List.mem_singleton.mp hc
      exact Or.inr ⟨_, List.mem_singleton_self _, a, rfl⟩
  | body run _ =>
      obtain ⟨t, rfl, ht⟩ := mem_runLeaf hc
      exact Or.inl ⟨t, rfl, Or.inr (Or.inl ht)⟩
  | value run _ =>
      obtain ⟨t, rfl, ht⟩ := mem_runLeaf hc
      exact Or.inl ⟨t, rfl, Or.inr (Or.inr ht)⟩

/-- A leaf that stands for no region is one of the tokens that are derived. -/
theorem mem_yield_of_mem_leaves (d : Derivation e) {t : Token} (ht : t ∈ leavesAll (d.trees source)) :
    t ∈ d.yield ∨ IsRegion t := by
  induction d with
  | token u _ => exact Or.inl ht
  | seq a b iha ihb =>
      rw [Derivation.trees, leavesAll_append, List.mem_append] at ht
      rcases ht with ht | ht
      · exact (iha ht).imp_left (List.mem_append_left _)
      · exact (ihb ht).imp_left (List.mem_append_right _)
  | left a ih => exact ih ht
  | right b ih => exact ih ht
  | none => exact absurd ht List.not_mem_nil
  | some a ih => exact ih ht
  | nil => exact absurd ht List.not_mem_nil
  | cons a more iha ihmore =>
      rw [Derivation.trees, leavesAll_append, List.mem_append] at ht
      rcases ht with ht | ht
      · exact (iha ht).imp_left (List.mem_append_left _)
      · exact (ihmore ht).imp_left (List.mem_append_right _)
  | rule a ih =>
      rw [Derivation.trees, leavesAll_cons, leaves_node, leavesAll_nil, List.append_nil] at ht
      exact ih ht
  | body run _ => exact Or.inr (Or.inl (kind_of_mem_leaves_runLeaf ht))
  | value run _ => exact Or.inr (Or.inr (kind_of_mem_leaves_runLeaf ht))

/-! ## Queries on the children of a node -/

/-- What admits no token of a kind is passed over by a search for such tokens. -/
theorem childToken?_skip (he : e.Admits fun t => t.isKind k = false)
    (hk : k ≠ .body ∧ k ≠ .valueLiteral) (d : Derivation e) (ts : List Tree) :
    (node r (d.trees source ++ ts)).childToken? k = (node r ts).childToken? k := by
  have hnone : ((d.trees source).filterMap token?).find? (·.isKind k) = none := by
    refine List.find?_eq_none.mpr fun t ht => ?_
    obtain ⟨c, hc, hct⟩ := List.mem_filterMap.mp ht
    rcases mem_trees he d hc with ⟨u, rfl, hu⟩ | ⟨r', _, a, rfl⟩
    · cases hct
      rcases hu with hu | hu | hu
      · exact Bool.eq_false_iff.mp hu
      · simpa [Token.isKind, hu] using hk.1.symm
      · simpa [Token.isKind, hu] using hk.2.symm
    · cases hct
  rw [childToken?, childToken?, children, children, List.filterMap_append, List.find?_append, hnone,
    Option.none_or]

/-- The first leaf of the kind is the one that is found. -/
theorem childToken?_hit {t : Token} (ht : t.isKind k = true) (ts : List Tree) :
    (node r (leaf t :: ts)).childToken? k = some t := by
  show (t :: ts.filterMap token?).find? (·.isKind k) = some t
  exact List.find?_cons_of_pos ht

/-- What does not name a rule is passed over by a search for nodes of the rule. -/
theorem childNode?_skip (hs : s ∉ e.rules) (d : Derivation e) (ts : List Tree) :
    (node r (d.trees source ++ ts)).childNode? s = (node r ts).childNode? s := by
  have hnone : (d.trees source).find? (fun c => c.rule? == some s) = none := by
    refine List.find?_eq_none.mpr fun c hc => ?_
    rcases mem_trees (admits_true e) d hc with ⟨u, rfl, _⟩ | ⟨r', hr', a, rfl⟩
    · exact Bool.false_ne_true
    · intro heq
      have hrs : r' = s := Option.some.inj (eq_of_beq heq)
      exact hs (hrs ▸ hr')
  rw [childNode?, childNode?, children, children, List.find?_append, hnone, Option.none_or]

/-- Leaves are passed over in the search for a node. -/
theorem childNode?_leaf (t : Token) (ts : List Tree) :
    (node r (leaf t :: ts)).childNode? s = (node r ts).childNode? s := by
  have hleaf : ((leaf t).rule? == some s) = false := rfl
  exact List.find?_cons_of_neg (Bool.eq_false_iff.mp hleaf)

/-- The first node of the rule is the one that is found. -/
theorem childNode?_hit (cs ts : List Tree) :
    (node r (node s cs :: ts)).childNode? s = some (node s cs) := by
  have hself : ((node s cs).rule? == some s) = true := beq_self_eq_true (some s)
  exact List.find?_cons_of_pos hself

/-- A node that a query finds among the trees of a derivation is a derivation of its rule. -/
theorem exists_derivation (d : Derivation e) (hc : c ∈ d.trees source) (hrule : c.rule? = some s) :
    ∃ a : Derivation (.production s), c = node s (a.trees source) := by
  rcases mem_trees (admits_true e) d hc with ⟨t, rfl, _⟩ | ⟨r', _, a, rfl⟩
  · cases hrule
  · cases hrule
    exact ⟨a, rfl⟩

/-- A node that is found among the children is a derivation of its rule. -/
theorem exists_of_childNode? {d : Derivation e}
    (hc : (node r (d.trees source)).childNode? s = some c) :
    c ∈ d.trees source ∧ ∃ a : Derivation (.production s), c = node s (a.trees source) := by
  have hfound : (d.trees source).find? (fun c => c.rule? == some s) = some c := hc
  have hmem : c ∈ d.trees source := List.mem_of_find?_eq_some hfound
  have hrule := List.find?_some hfound
  exact ⟨hmem, exists_derivation d hmem (eq_of_beq hrule)⟩

/-- So is each of those that are listed. -/
theorem exists_of_mem_childNodes {d : Derivation e}
    (hc : c ∈ (node r (d.trees source)).childNodes s) :
    c ∈ d.trees source ∧ ∃ a : Derivation (.production s), c = node s (a.trees source) := by
  obtain ⟨hmem, hrule⟩ := List.mem_filter.mp hc
  exact ⟨hmem, exists_derivation d hmem (eq_of_beq hrule)⟩

end Trees

/-! ## Nesting -/

/-- How far out a rule stands. -/
def rank : Rule → Nat
  | .modifier => 0
  | .defaultValue => 0
  | .accessor => 0
  | .enumValue => 0
  | .importDecl => 0
  | .typeName => 1
  | .accessorList => 1
  | .enumBody => 1
  | .baseList => 2
  | .returnType => 2
  | .param => 2
  | .params => 3
  | .attrDecl => 4
  | .methodDecl => 4
  | .classDecl => 5
  | .enumDecl => 5
  | .namespaceDecl => 6
  | .compilationUnit => 7

/-- Rules are made of rules of lower rank, and types of types. -/
theorem rank_production (r : Rule) :
    ∀ r' ∈ (Phrase.production r).rules, r' = r ∧ r = .typeName ∨ rank r' < rank r := by
  cases r <;> decide

section Nesting

variable {source : List Char} {e : Phrase} {P : Token → Prop} {r s : Rule} {bound : Nat}

/-- What holds of every token that rules up to a rank admit holds of every leaf they derive. -/
theorem mem_leaves (hbound : ∀ r, rank r ≤ bound → (Phrase.production r).Admits P)
    (he : e.Admits P) (hrules : ∀ r ∈ e.rules, rank r ≤ bound) (d : Derivation e) {t : Token}
    (ht : t ∈ leavesAll (d.trees source)) : P t ∨ IsRegion t := by
  induction d with
  | token u hu =>
      obtain rfl := List.mem_singleton.mp ht
      exact Or.inl (he t hu)
  | seq a b iha ihb =>
      rw [Derivation.trees, leavesAll_append, List.mem_append] at ht
      rcases ht with ht | ht
      · exact iha he.1 (fun r hr => hrules r (List.mem_append_left _ hr)) ht
      · exact ihb he.2 (fun r hr => hrules r (List.mem_append_right _ hr)) ht
  | left a ih => exact ih he.1 (fun r hr => hrules r (List.mem_append_left _ hr)) ht
  | right b ih => exact ih he.2 (fun r hr => hrules r (List.mem_append_right _ hr)) ht
  | none => exact absurd ht List.not_mem_nil
  | some a ih => exact ih he hrules ht
  | nil => exact absurd ht List.not_mem_nil
  | cons a more iha ihmore =>
      rw [Derivation.trees, leavesAll_append, List.mem_append] at ht
      rcases ht with ht | ht
      · exact iha he hrules ht
      · exact ihmore he hrules ht
  | @rule r a ih =>
      rw [Derivation.trees, leavesAll_cons, leaves_node, leavesAll_nil, List.append_nil] at ht
      have hr : rank r ≤ bound := hrules r (List.mem_singleton_self r)
      refine ih (hbound r hr) (fun r' hr' => ?_) ht
      rcases rank_production r r' hr' with ⟨rfl, _⟩ | hlt
      · exact hr
      · omega
  | body run _ => exact Or.inr (Or.inl (kind_of_mem_leaves_runLeaf ht))
  | value run _ => exact Or.inr (Or.inr (kind_of_mem_leaves_runLeaf ht))

/-- No declaration stands in a region. -/
theorem collectAll_runLeaf {kind : TokenKind} {run : List Token} :
    collectAll s [] (runLeaf source kind run) = [] := by
  unfold runLeaf
  split
  · rw [regionLeaf, collectAll, collectAll, collect]
  · rw [collectAll]

theorem filter_runLeaf {kind : TokenKind} {run : List Token} :
    (runLeaf source kind run).filter (fun c => c.rule? == some s) = [] := by
  refine List.filter_eq_nil_iff.mpr fun c hc => ?_
  obtain ⟨t, rfl, _⟩ := mem_runLeaf hc
  exact Bool.false_ne_true

/-- A rule is not found among rules that do not rank higher, unless it is one of them. -/
theorem collectAll_eq_nil (hrules : ∀ r ∈ e.rules, rank r ≤ rank s ∧ r ≠ s) (d : Derivation e) :
    collectAll s [] (d.trees source) = [] := by
  induction d with
  | token t _ => rw [Derivation.trees, collectAll, collectAll, collect]
  | seq a b iha ihb =>
      rw [Derivation.trees, collectAll_append, iha fun r hr => hrules r (List.mem_append_left _ hr),
        ihb fun r hr => hrules r (List.mem_append_right _ hr), List.append_nil]
  | left a ih => exact ih fun r hr => hrules r (List.mem_append_left _ hr)
  | right b ih => exact ih fun r hr => hrules r (List.mem_append_right _ hr)
  | none => rw [Derivation.trees, collectAll]
  | some a ih => exact ih hrules
  | nil => rw [Derivation.trees, collectAll]
  | cons a more iha ihmore =>
      rw [Derivation.trees, collectAll_append, iha hrules, ihmore hrules, List.append_nil]
  | @rule r a ih =>
      obtain ⟨hle, hne⟩ := hrules r (List.mem_singleton_self r)
      rw [Derivation.trees, collectAll_node, if_neg hne, List.nil_append]
      -- What the rule is made of ranks lower, or it is a type in a type.
      refine ih fun r' hr' => ?_
      rcases rank_production r r' hr' with ⟨rfl, _⟩ | hlt
      · exact ⟨hle, hne⟩
      · exact ⟨by omega, by rintro rfl; omega⟩
  | body run _ => exact collectAll_runLeaf
  | value run _ => exact collectAll_runLeaf

/-- Among rules that do not rank higher than a rule, other than types, the search for it in whole
subtrees finds the nodes at the top and no others. -/
theorem collectAll_eq_filter (hs : s ≠ .typeName) (hrules : ∀ r ∈ e.rules, rank r ≤ rank s)
    (d : Derivation e) :
    collectAll s [] (d.trees source) = (d.trees source).filter fun c => c.rule? == some s := by
  induction d with
  | token t _ =>
      rw [Derivation.trees, collectAll, collectAll, collect]
      rfl
  | seq a b iha ihb =>
      rw [Derivation.trees, collectAll_append, List.filter_append,
        iha fun r hr => hrules r (List.mem_append_left _ hr),
        ihb fun r hr => hrules r (List.mem_append_right _ hr)]
  | left a ih => exact ih fun r hr => hrules r (List.mem_append_left _ hr)
  | right b ih => exact ih fun r hr => hrules r (List.mem_append_right _ hr)
  | none => rw [Derivation.trees, collectAll, List.filter_nil]
  | some a ih => exact ih hrules
  | nil => rw [Derivation.trees, collectAll, List.filter_nil]
  | cons a more iha ihmore =>
      rw [Derivation.trees, collectAll_append, List.filter_append, iha hrules, ihmore hrules]
  | @rule r a ih =>
      have hle : rank r ≤ rank s := hrules r (List.mem_singleton_self r)
      have hnone : collectAll s [] (a.trees source) = [] := by
        refine collectAll_eq_nil (fun r' hr' => ?_) a
        rcases rank_production r r' hr' with ⟨rfl, rfl⟩ | hlt
        · exact ⟨hle, hs.symm⟩
        · exact ⟨by omega, by rintro rfl; omega⟩
      rw [Derivation.trees, collectAll_node, hnone, List.append_nil]
      by_cases hr : r = s
      · rw [if_pos hr, List.filter_cons_of_pos (by simp [rule?, hr]), List.filter_nil]
      · rw [if_neg hr, List.filter_cons_of_neg (by simp [rule?, hr]), List.filter_nil]
  | body run _ => rw [Derivation.trees, collectAll_runLeaf, filter_runLeaf]
  | value run _ => rw [Derivation.trees, collectAll_runLeaf, filter_runLeaf]

/-- Nodes of the rule `s` occur below those of `r` as immediate children only. -/
def IsImmediate (r s : Rule) : Prop :=
  s ≠ .typeName ∧ r ≠ s ∧ ∀ r' ∈ (Phrase.production r).rules, rank r' ≤ rank s

instance (r s : Rule) : Decidable (IsImmediate r s) :=
  inferInstanceAs
    (Decidable (s ≠ .typeName ∧ r ≠ s ∧ ∀ r' ∈ (Phrase.production r).rules, rank r' ≤ rank s))

/-- The descendants of a node of a lower rule are immediate children. -/
theorem descendants_eq_childNodes (h : IsImmediate r s) (a : Derivation (.production r)) :
    (node r (a.trees source)).descendants s = (node r (a.trees source)).childNodes s := by
  obtain ⟨hs, hne, hrules⟩ := h
  rw [descendants_node hne, collectAll_eq_filter hs hrules]
  rfl

end Nesting

end ClassChart.Grammar

/-
# ClassChart.Proofs.Extract.Sites — the parameter defaults of a source, place by place

A site is a parameter of the source with the literal that is its default, if it has one. The sites of a
tree come from one search through all of it. Extraction comes to parameters along another way, namespace
by namespace and method by method, and passes over everything else; here the sites of each declaration
are found to be those of the parts that extraction goes into, in the same order. The literals at the
sites are tokens of the source, and they come in its order.
-/
import ClassChart.Proofs.Extract.Bare
import ClassChart.Proofs.Token.Lossless

namespace ClassChart.Extract

open ClassChart.Tree ClassChart.Grammar

/-! ## Sites -/

/-- A parameter by its name, with its default. -/
structure Site where
  name : String
  value? : Option Token
deriving DecidableEq, Repr

/-- The site of a parameter node. -/
def siteOf (param : Tree) : Site :=
  ⟨((param.childToken? .identifier).map (·.text)).getD "", defaultLeaf? param⟩

/-- The sites of a tree in source order. -/
def sites (t : Tree) : List Site := (t.descendants .param).map siteOf

/-- The literal is one that models show: an integer or a string. -/
def IsShown (t : Token) : Prop := t.kind = .integerLiteral ∨ t.kind = .stringLiteral

instance : DecidablePred IsShown := fun t =>
  inferInstanceAs (Decidable (t.kind = .integerLiteral ∨ t.kind = .stringLiteral))

namespace Site

/-- The default of the site if it is unsupported. -/
def unsupported? (s : Site) : Option Token := s.value?.filter fun t => ¬ IsShown t

/-- The default in a model where unsupported ones are dropped. -/
def dropped (s : Site) : Option String := (s.value?.filter fun t => IsShown t).map (·.text)

/-- The default in a model where unsupported ones are kept. -/
def kept (s : Site) : Option String := s.value?.map (·.text)

/-- What is remarked on where an unsupported default is dropped. -/
def warning? (s : Site) : Option Warning :=
  s.unsupported?.map fun t => .droppedDefault s.name t.text t.kind

section Values

variable {name : String} {t : Token}

theorem unsupported?_hidden (h : ¬ IsShown t) : unsupported? ⟨name, some t⟩ = some t := by
  simp [unsupported?, h]

theorem dropped_shown (h : IsShown t) : dropped ⟨name, some t⟩ = some t.text := by
  simp [dropped, h]

theorem dropped_hidden (h : ¬ IsShown t) : dropped ⟨name, some t⟩ = none := by
  simp [dropped, h]

end Values

/-- Where the default is supported or absent, dropping and keeping come to the same. -/
theorem dropped_eq_kept {s : Site} (h : s.unsupported? = none) : s.dropped = s.kept := by
  obtain ⟨name, value?⟩ := s
  cases value? with
  | none => rfl
  | some t =>
      by_cases hshown : IsShown t
      · exact dropped_shown hshown
      · rw [unsupported?_hidden hshown] at h
        cases h

/-- An unsupported default is nothing where it is dropped and its text where it is kept. -/
theorem of_unsupported? {s : Site} {t : Token} (h : s.unsupported? = some t) :
    s.value? = some t ∧ ¬ IsShown t ∧ s.dropped = none ∧ s.kept = some t.text := by
  obtain ⟨name, value?⟩ := s
  obtain ⟨hvalue, hfilter⟩ := Option.filter_eq_some_iff.mp h
  cases hvalue
  have hhidden : ¬ IsShown t := of_decide_eq_true hfilter
  exact ⟨rfl, hhidden, dropped_hidden hhidden, rfl⟩

end Site

/-! ## Sites of declarations -/

/-- No parameter stands inside a node of the rule. -/
def Siteless (r : Rule) : Prop :=
  r ≠ .param ∧ ∀ r' ∈ (Phrase.production r).rules, rank r' ≤ rank .param ∧ r' ≠ .param

instance (r : Rule) : Decidable (Siteless r) :=
  inferInstanceAs (Decidable
    (r ≠ .param ∧ ∀ r' ∈ (Phrase.production r).rules, rank r' ≤ rank .param ∧ r' ≠ .param))

/-- What gives nothing may be left out before. -/
theorem flatMap_filter_eq {α β : Type} {p : α → Bool} {f : α → List β} {xs : List α}
    (h : ∀ x ∈ xs, p x = false → f x = []) : xs.flatMap f = (xs.filter p).flatMap f := by
  induction xs with
  | nil => rfl
  | cons x xs ih =>
      have hrest := ih fun y hy => h y (List.mem_cons_of_mem x hy)
      by_cases hx : p x = true
      · rw [List.filter_cons_of_pos hx, List.flatMap_cons, List.flatMap_cons, hrest]
      · rw [List.filter_cons_of_neg hx, List.flatMap_cons,
          h x List.mem_cons_self (Bool.eq_false_iff.mpr hx), List.nil_append, hrest]

section Sites

variable {source : List Char} {e : Phrase} {r s : Rule}

theorem sites_leaf (t : Token) : sites (leaf t) = [] := by
  rw [sites, descendants, collect, List.map_nil]

theorem sites_node (hr : r ≠ .param) (cs : List Tree) : sites (node r cs) = cs.flatMap sites := by
  rw [sites, descendants_node hr, collectAll_eq_flatMap, List.map_flatMap]
  rfl

/-- A parameter has no other one inside it. -/
theorem sites_param (a : Derivation (.production .param)) :
    sites (node .param (a.trees source)) = [siteOf (node .param (a.trees source))] := by
  have hinside : ∀ r ∈ (Phrase.production .param).rules, rank r ≤ rank .param ∧ r ≠ .param := by
    decide
  rw [sites, descendants, collect, if_pos rfl, collectAll_eq, collectAll_eq_nil hinside a]
  rfl

theorem sites_siteless (hr : Siteless r) (a : Derivation (.production r)) :
    sites (node r (a.trees source)) = [] := by
  rw [sites, descendants_node hr.1, collectAll_eq_nil hr.2 a, List.map_nil]

/-- Where parameters stand inside nodes of one rule only, the sites are those of these nodes. -/
theorem flatMap_sites (hrules : ∀ r ∈ e.rules, r = s ∨ Siteless r) (d : Derivation e) :
    (d.trees source).flatMap sites =
      ((d.trees source).filter fun c => c.rule? == some s).flatMap sites := by
  have hother : ∀ c ∈ d.trees source, (c.rule? == some s) = false → sites c = [] := by
    intro c hc hrule
    rcases mem_trees (admits_true e) d hc with ⟨t, rfl, _⟩ | ⟨r, hr, a, rfl⟩
    · exact sites_leaf t
    · rcases hrules r hr with rfl | hsiteless
      · exact absurd hrule (by simp [rule?])
      · exact sites_siteless hsiteless a
  exact flatMap_filter_eq hother

theorem flatMap_sites_eq_nil (hrules : ∀ r ∈ e.rules, Siteless r) (d : Derivation e) :
    (d.trees source).flatMap sites = [] := by
  apply List.flatMap_eq_nil_iff.mpr
  intro c hc
  rcases mem_trees (admits_true e) d hc with ⟨t, rfl, _⟩ | ⟨r, hr, a, rfl⟩
  · exact sites_leaf t
  · exact sites_siteless (hrules r hr) a

theorem sites_childNodes (hr : r ≠ .param)
    (hrules : ∀ r' ∈ (Phrase.production r).rules, r' = s ∨ Siteless r')
    (a : Derivation (.production r)) :
    sites (node r (a.trees source)) = ((node r (a.trees source)).childNodes s).flatMap sites := by
  rw [sites_node hr, flatMap_sites hrules a]
  rfl

/-- The sites of a method are those of the parameters that extraction finds. -/
theorem sites_method (a : Derivation (.production .methodDecl)) :
    sites (node .methodDecl (a.trees source)) =
      (parameterNodes (node .methodDecl (a.trees source))).flatMap sites := by
  obtain ⟨front, rest, rfl⟩ := a.exists_seq
  obtain ⟨b, behind, rfl⟩ := rest.exists_seq
  obtain ⟨params, closing, rfl⟩ := b.exists_seq
  have hfront : (front.trees source).flatMap sites = [] := flatMap_sites_eq_nil (by decide) front
  have hclosing : (closing.trees source).flatMap sites = [] := flatMap_sites_eq_nil (by decide) closing
  have hbehind : (behind.trees source).flatMap sites = [] := flatMap_sites_eq_nil (by decide) behind
  rw [sites_node (by decide), parameterNodes]
  simp only [Derivation.trees, List.flatMap_append, hfront, hclosing, hbehind, List.append_nil,
    List.nil_append]
  rw [childNode?_skip (by decide) front]
  rcases params.none_or_some with rfl | ⟨params, rfl⟩
  · have hnone : (node .methodDecl ((closing.trees source ++ behind.trees source) ++ [])).childNode?
        .params = none := by
      rw [List.append_assoc, childNode?_skip (by decide) closing, childNode?_skip (by decide) behind]
      rfl
    rw [List.append_nil] at hnone
    simp only [Derivation.trees, List.nil_append, hnone, List.flatMap_nil]
  · obtain ⟨params, rfl⟩ := params.exists_rule
    simp only [Derivation.trees, List.cons_append, List.nil_append, childNode?_hit]
    rw [descendants_eq_childNodes (by decide) params, List.flatMap_singleton]
    exact sites_childNodes (by decide) (by decide) params

/-! ## Order -/

/-- The literals at the sites are tokens that are derived, in the order of the sites. -/
theorem values_sublist (d : Derivation e) :
    (((d.trees source).flatMap sites).filterMap Site.value?).Sublist d.yield := by
  induction d with
  | token t ht =>
      rw [flatMap_sites_eq_nil (by simp [Phrase.rules]) (.token t ht)]
      exact List.nil_sublist _
  | seq a b iha ihb =>
      rw [Derivation.trees, List.flatMap_append, List.filterMap_append]
      exact iha.append ihb
  | left a ih => exact ih
  | right b ih => exact ih
  | none => exact List.nil_sublist _
  | some a ih => exact ih
  | nil => exact List.nil_sublist _
  | cons a more iha ihmore =>
      rw [Derivation.trees, List.flatMap_append, List.filterMap_append]
      exact iha.append ihmore
  | @rule r a ih =>
      rw [Derivation.trees, List.flatMap_singleton]
      by_cases hr : r = .param
      · subst hr
        have hplain : leavesAll (a.trees source) = a.yield := leavesAll_plain rfl a
        rw [sites_param]
        cases hvalue : defaultLeaf? (node .param (a.trees source)) with
        | none =>
            rw [List.filterMap_cons_none (by exact hvalue)]
            exact List.nil_sublist _
        | some t =>
            rw [List.filterMap_cons_some (by exact hvalue)]
            apply List.singleton_sublist.mpr
            rw [Derivation.yield, ← hplain]
            exact (defaultLeaf?_mem hvalue).1
      · rwa [sites_node hr]
  | body run hrun =>
      rw [flatMap_sites_eq_nil (by simp [Phrase.rules]) (.body run hrun)]
      exact List.nil_sublist _
  | value run hrun =>
      rw [flatMap_sites_eq_nil (by simp [Phrase.rules]) (.value run hrun)]
      exact List.nil_sublist _

end Sites

/-- The unsupported defaults of a tree in source order. -/
def unsupportedDefaults (t : Tree) : List Token := (sites t).filterMap Site.unsupported?

theorem unsupportedDefaults_eq (t : Tree) :
    unsupportedDefaults t = ((sites t).filterMap Site.value?).filter fun t => ¬ IsShown t :=
  List.filter_filterMap.symm

/-- The defaults of a source are among its tokens, in their order. -/
theorem values_sublist_tokens {source : String} {tree : Tree} {tokens : List Token}
    (htree : parseTree source = .ok tree) (htokens : tokenize source = .ok tokens) :
    ((sites tree).filterMap Site.value?).Sublist tokens := by
  obtain ⟨a, hyield, rfl⟩ := parseTree_ok htree
  rw [htokens] at hyield
  cases hyield
  rw [sites_node (by decide)]
  exact values_sublist a

theorem unsupportedDefaults_pairwise {source : String} {tree : Tree} {tokens : List Token}
    (htree : parseTree source = .ok tree) (htokens : tokenize source = .ok tokens) :
    (unsupportedDefaults tree).Pairwise Token.Before := by
  have hordered : tokens.Pairwise Token.Before := (run_of_tokenize htokens).pairwise
  have hvalues := hordered.sublist (values_sublist_tokens htree htokens)
  rw [unsupportedDefaults_eq]
  exact hvalues.filter _

end ClassChart.Extract

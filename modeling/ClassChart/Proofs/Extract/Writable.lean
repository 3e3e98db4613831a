/-
# ClassChart.Proofs.Extract.Writable — what is in a model can be written down

Whatever a model holds is text of a source, but taken out of its place: names and defaults are single
tokens, types are joined from their tokens, initial values are trimmed slices. `WritableEntity` says that
each of these texts is read in a new place as what it was, and every model of a source consists of
writable entities. The leaves of the tree carry this over: a token stays one, and a value stays one
before a line break.
-/
import ClassChart.Proofs.Extract.Bare
import ClassChart.Proofs.Grammar.Written
import Mathlib.Data.List.DropRight

namespace ClassChart.Extract

open ClassChart.Tree ClassChart.Grammar Text

/-! ## Writable parts -/

/-- The text is that of a type, and the type that is read has this text. -/
def IsType (text : String) : Prop :=
  ∃ ts, Written (.production .typeName) [text] ts ∧
    (leavesAll ts).head?.any (·.isKind .voidKeyword) = false ∧ flatten (leavesAll ts) = text

/-- The text is that of an initial value: a value with a semicolon on the next line, without blanks at
its ends. -/
structure IsInitial (text : String) : Prop where
  trimmed : trimBlanks text.toList = text.toList
  written : Written .value [text ++ "\n;"] [bareLeaf .valueLiteral (text ++ "\n;")]

/-- The text is that of a parameter default which the policy leaves as it is. -/
def IsDefault (policy : DefaultPolicy) (text : String) : Prop :=
  ∃ kind, IsToken kind text ∧ (∀ span, isDefaultValue ⟨kind, text, span⟩ = true) ∧
    (kind = .integerLiteral ∨ kind = .stringLiteral ∨ policy = .keep)

/-- The attribute can be written down. -/
structure WritableAttribute (a : Attribute) : Prop where
  name : IsToken .identifier a.name
  typeName : IsType a.typeName
  initial : ∀ value ∈ a.initial?, IsInitial value

/-- The parameter can be written down. -/
structure WritableParameter (policy : DefaultPolicy) (p : Parameter) : Prop where
  name : IsToken .identifier p.name
  typeName : IsType p.typeName
  default : ∀ value ∈ p.default?, IsDefault policy value

/-- The method can be written down. -/
structure WritableMethod (policy : DefaultPolicy) (m : Method) : Prop where
  name : IsToken .identifier m.name
  returnType : ∀ typeName ∈ m.returnType?, IsType typeName
  parameters : ∀ p ∈ m.parameters, WritableParameter policy p

/-- The entity can be written down. -/
structure WritableEntity (policy : DefaultPolicy) (e : Entity) : Prop where
  scope : IsToken .identifier e.key.scope
  name : IsToken .identifier e.key.name
  attributes : ∀ a ∈ e.attributes, WritableAttribute a
  methods : ∀ m ∈ e.methods, WritableMethod policy m
  values : ∀ v ∈ e.values, IsToken .identifier v

/-! ## Blanks at the ends -/

section Trimming

variable {text : List Char}

/-- A text without blanks at its start is trimmed at its end only. -/
theorem trimBlanks_eq (h : Lexeme.headIs isBlank text = false) :
    trimBlanks text = text.rdropWhile isBlank := by
  have hfront : text.dropWhile isBlank = text := by
    cases text with
    | nil => rfl
    | cons c text => exact List.dropWhile_cons_of_neg (Bool.eq_false_iff.mp h)
  rw [trimBlanks, hfront]
  rfl

/-- Trimming once is enough. -/
theorem trimBlanks_idempotent (h : Lexeme.headIs isBlank text = false) :
    trimBlanks (trimBlanks text) = trimBlanks text := by
  have hhead : Lexeme.headIs isBlank (text.rdropWhile isBlank) = false := by
    cases htrim : text.rdropWhile isBlank with
    | nil => rfl
    | cons c more =>
        have hfront := List.rdropWhile_prefix isBlank text
        rw [htrim] at hfront
        obtain ⟨rest, rfl⟩ := hfront
        exact h
  rw [trimBlanks_eq h, trimBlanks_eq hhead, List.rdropWhile_idempotent]

theorem trimBlanks_concat {c : Char} (hc : isBlank c = true) (text : List Char) :
    trimBlanks (text ++ [c]) = trimBlanks text := by
  rw [trimBlanks, trimBlanks, List.dropWhile_append]
  split
  · rename_i hempty
    rw [List.isEmpty_iff.mp hempty, List.dropWhile_cons_of_pos hc]
    rfl
  · rw [List.reverse_append, List.reverse_singleton, List.singleton_append,
      List.dropWhile_cons_of_pos hc]

/-- The semicolon of a value is taken off with the blanks before it. -/
theorem stripTerminator_concat (text : List Char) :
    stripTerminator (text ++ [';']) = trimBlanks text := by
  simp [stripTerminator]

end Trimming

/-! ## Values -/

/-- A run that is a value and its place in a text. -/
structure ValueAt (base : Nat) (middle back : List Char) (first : Token) (inner : List Token) : Prop where
  run : Run (';' :: back) base middle (first :: inner)
  start : first.span.start = base
  begins : Lexeme.headIs isBlank middle = false
  other : first.isMark ";" = false
  ends : ∀ last : Token, last.isMark ";" = true → EndsAt 0 (first :: inner) last

/-- The leaf of a value is its text and the semicolon behind it. -/
theorem exists_valueAt {text : List Char} {before run behind : List Token} {u : Token}
    (hrun : Run [] 0 text (before ++ (run ++ behind))) (hvalue : IsValue run)
    (hu : u ∈ leavesAll (runLeaf text .valueLiteral run)) :
    ∃ base middle back first inner, ValueAt base middle back first inner ∧
      u.text.toList = middle ++ [';'] := by
  obtain ⟨first, inner, last, rfl, hother, hat⟩ := isValue_iff.mp hvalue
  rw [List.cons_append, List.append_assoc, List.singleton_append] at hrun
  -- The text falls into what stands before the value, the value, its semicolon and the rest.
  obtain ⟨kind, front, x, behind, rfl, rfl, _, hread, hmore⟩ := hrun.split
  have hbegin := Run.token hread hmore
  rw [← List.cons_append] at hbegin
  obtain ⟨_, middle, mark, back, hsplit, rfl, hmiddle, _, _⟩ := hbegin.split
  obtain ⟨rfl, rfl⟩ : _ ∧ mark = [';'] := eq_of_isMark hat.ends
  rw [Nat.zero_add] at *
  rw [List.append_nil] at hmiddle hread
  have hne : middle ≠ [] := by
    rintro rfl
    exact List.cons_ne_nil _ _ hmiddle.eq_nil
  refine ⟨byteLength front, middle, back, _, inner, ⟨hmiddle, rfl, ?_, hother, ?_⟩, ?_⟩
  · have hblank := headIs_isBlank_of_reads hread
    rwa [hsplit, Lexeme.headIs_append hne] at hblank
  · exact fun last hlast => ⟨hlast, hat.level, hat.first⟩
  · have hspan : (Token.placed (byteLength front) kind x).span.union
        (Token.placed (byteLength front + byteLength middle) .punctuation [';']).span =
        ⟨byteLength front, byteLength front + byteLength (middle ++ [';'])⟩ := by
      have hwithin := hmiddle.within _ List.mem_cons_self
      simp only [Token.placed, Span.union, byteLength_append, Span.mk.injEq] at hwithin ⊢
      omega
    have hslice := Span.slice_between front (middle ++ [';']) back
    rw [List.append_assoc] at hslice
    rw [runLeaf_cons_concat, regionLeaf, leavesAll_cons, leaves_leaf, leavesAll_nil, hsplit] at hu
    rw [List.mem_singleton.mp hu]
    simp only [hspan]
    exact (String.toList_ofList).trans hslice

/-- A value that was read from a source is one when it is trimmed and stands before a line break. -/
theorem ValueAt.isInitial {base : Nat} {middle back : List Char} {first : Token} {inner : List Token}
    (h : ValueAt base middle back first inner) : IsInitial (String.ofList (trimBlanks middle)) := by
  refine ⟨by rw [String.toList_ofList, trimBlanks_idempotent h.begins], ?_⟩
  rw [trimBlanks_eq h.begins]
  have hstops : Lexeme.Stops (';' :: back) := .cons (by decide) back
  have hblanks : ∀ c ∈ middle.rtakeWhile isBlank, isBlank c = true :=
    fun c hc => List.mem_rtakeWhile_imp hc
  have hlast : ∀ c ∈ (middle.rdropWhile isBlank).getLast?, isBlank c = false := by
    intro c hc
    have hne : middle.rdropWhile isBlank ≠ [] := List.ne_nil_of_mem (List.mem_of_getLast? hc)
    have hnot := List.rdropWhile_last_not isBlank middle hne
    rw [List.getLast?_eq_some_getLast hne] at hc
    rw [← Option.some.inj hc]
    exact Bool.eq_false_iff.mpr hnot
  have hrun (rest : List Char) := (h.run.trim hstops
    List.rdropWhile_append_rtakeWhile.symm hblanks hlast rest).move 0
  refine written_value hrun ?_ ?_
  · rw [Token.move_span, Span.move_start, h.start, Nat.sub_self]
  · -- The value is the same one at another place, with a semicolon of its own.
    have hvalue (place : Nat) : IsValue (first :: (inner ++ [.placed place .punctuation [';']])) :=
      isValue_iff.mpr ⟨first, inner, _, rfl, h.other, h.ends _ rfl⟩
    have hmoved := isValue_map (f := Token.move base 0) (fun t => ⟨rfl, rfl⟩)
      (hvalue (base + (byteLength (middle.rdropWhile isBlank) + 1)))
    have hend (place : Nat) : (Token.placed (base + place) .punctuation [';']).move base 0 =
        .placed place .punctuation [';'] := by
      simp only [Token.placed, Token.move, Span.move, Token.mk.injEq, Span.mk.injEq, true_and]
      omega
    simpa only [List.map_cons, List.map_append, List.map_nil, hend] using hmoved

/-! ## Leaves -/

/-- A leaf can be written down: a token is one when it stands alone, and a value is one before a line
break. -/
structure Legible (u : Token) : Prop where
  token : ¬ IsRegion u → ∃ kind, IsToken kind u.text ∧ u.kind.Settled kind
  value : u.kind = .valueLiteral → IsInitial (String.ofList (stripTerminator u.text.toList))

/-- Every leaf of the tree can be written down. -/
def LeavesLegible (t : Tree) : Prop := ∀ u ∈ t.leaves, Legible u

/-- The leaves of a tree that was read can be written down. -/
theorem legible_of_run {text : List Char} {e : Phrase} {a : Derivation e} (hrun : Run [] 0 text a.yield)
    {u : Token} (hu : u ∈ leavesAll (a.trees text)) : Legible u := by
  refine ⟨fun houtside => ?_, fun hkind => ?_⟩
  · exact isToken_of_run hrun ((mem_yield_of_mem_leaves a hu).resolve_right houtside)
  · obtain ⟨before, c, behind, hchunks, hmem⟩ := exists_chunk a hu
    have hregion : c.IsRegion := chunk_isRegion a c (by simp [hchunks])
    rw [yield_eq_chunks, hchunks, List.flatMap_append, List.flatMap_cons] at hrun
    cases c with
    | token t =>
        obtain rfl := List.mem_singleton.mp hmem
        exact absurd hkind (hrun.not_region u (by simp [Chunk.run])).2
    | body run =>
        rw [kind_of_mem_leaves_runLeaf hmem] at hkind
        cases hkind
    | value run =>
        obtain ⟨_, middle, _, _, _, hat, htext⟩ := exists_valueAt hrun hregion hmem
        rw [htext, stripTerminator_concat]
        exact hat.isInitial

section Legibility

variable {source : List Char} {policy : DefaultPolicy} {e : Phrase} {r : Rule}

theorem LeavesLegible.of_mem {cs : List Tree} {c : Tree} (h : LeavesLegible (node r cs)) (hc : c ∈ cs) :
    LeavesLegible c := by
  intro u hu
  exact h u (by rw [leaves_node]; exact mem_leavesAll hc hu)

theorem Legible.identifier {u : Token} (h : Legible u) (hkind : u.kind = .identifier) :
    IsToken .identifier u.text := by
  obtain ⟨kind, htoken, rfl | ⟨_, hnumber⟩⟩ := h.token (by rw [IsRegion, hkind]; decide)
  · rwa [hkind] at htoken
  · rw [hkind] at hnumber
    cases hnumber

/-- A name that was found in the source is read as an identifier again. -/
theorem requiredToken_isToken {t : Tree} {expected text : String} (h : LeavesLegible t)
    (hok : requiredToken t .identifier expected = .ok text) : IsToken .identifier text := by
  obtain ⟨u, hu, rfl⟩ := requiredToken_ok hok
  obtain ⟨hmem, hkind⟩ := childToken?_mem_leaves hu
  exact (h u hmem).identifier (eq_of_beq hkind)

/-! ## Types -/

theorem toList_flatten (ts : List Token) : (flatten ts).toList = joined ts := by
  induction ts with
  | nil => rfl
  | cons t ts ih =>
      rw [flatten, List.map_cons, String.join_cons, ← flatten, String.toList_append, ih, joined, joined,
        List.flatMap_cons]

/-- The text of a type that was read is that of a type. -/
theorem isType_of_derivation (ty : Derivation (.production .typeName))
    (h : LeavesLegible (node .typeName (ty.trees source))) :
    IsType (flatten (leavesAll (ty.trees source))) := by
  have hplain : (Phrase.production .typeName).isPlain = true := rfl
  have hleaves (source : List Char) : leavesAll (ty.trees source) = ty.yield := leavesAll_plain hplain ty
  have hnamed : Named ty.yield := by
    intro t ht hkind
    refine (h t ?_).identifier hkind
    rwa [leaves_node, hleaves]
  have hbare : leavesAll ((ty.trees []).map bare) = ty.yield.map Token.bare := by
    rw [bare_leavesAll, hleaves]
  have houtside : ∀ t ∈ ty.yield, ¬ IsRegion t := by
    rw [← hleaves []]
    exact plain_outside rfl ty
  obtain ⟨name, rest, hname, htrees⟩ := type_parts [] ty
  refine ⟨(ty.trees []).map bare, ?_, ?_, ?_⟩
  · have hwritten := written_type ty hnamed
    rwa [← toList_flatten, String.ofList_toList, ← hleaves source] at hwritten
  · rw [bare_leavesAll, htrees, leavesAll_cons, leaves_leaf]
    show name.isKind .voidKeyword = false
    grind
  · rw [hbare, bare_flatten houtside, hleaves]

/-- A type is found where the first child of the rule has leaves that do not begin with `void`. -/
theorem typeText?_eq_some {t : Tree} {rule : Rule} {text : String} :
    typeText? t rule = some text ↔ ∃ child, t.childNode? rule = some child ∧
      (leavesAll child.children).head?.any (·.isKind .voidKeyword) = false ∧
      flatten (leavesAll child.children) = text := by
  unfold typeText?
  cases t.childNode? rule with
  | none => simp
  | some child =>
      simp only [tokens_eq]
      split
      · rename_i hvoid
        simp [hvoid]
      · rename_i hvoid
        simp [hvoid]

/-- A type that was found in the source is the text of one. -/
theorem requiredType_isType {d : Derivation e} {expected text : String}
    (h : LeavesLegible (node r (d.trees source)))
    (hok : requiredType (node r (d.trees source)) expected = .ok text) : IsType text := by
  obtain ⟨child, hchild, _, rfl⟩ := typeText?_eq_some.mp (requiredType_ok hok)
  obtain ⟨hmem, ty, rfl⟩ := exists_of_childNode? hchild
  exact isType_of_derivation ty (h.of_mem hmem)

/-- A return type other than `void` is a type. -/
theorem returnType_isType {d : Derivation e} {text : String}
    (h : LeavesLegible (node r (d.trees source)))
    (htype : typeText? (node r (d.trees source)) .returnType = some text) : IsType text := by
  obtain ⟨child, hchild, hvoid, rfl⟩ := typeText?_eq_some.mp htype
  obtain ⟨hmem, a, rfl⟩ := exists_of_childNode? hchild
  rw [children] at hvoid ⊢
  rcases a.left_or_right with ⟨b, rfl⟩ | ⟨b, rfl⟩
  · obtain ⟨t, ht, rfl⟩ := b.exists_token
    exact absurd ht (Bool.eq_false_iff.mp hvoid)
  · obtain ⟨ty, rfl⟩ := b.exists_rule
    have hty := isType_of_derivation ty ((h.of_mem hmem).of_mem List.mem_cons_self)
    simpa only [Derivation.trees, leavesAll_cons, leaves_node, leavesAll_nil, List.append_nil] using hty

/-! ## Members -/

/-- An initial value stands among the children it is looked for in. -/
theorem initializer?_mem {ts : List Tree} {value : Token} (h : initializer? ts = some value) :
    leaf value ∈ ts := by
  fun_induction initializer? ts with
  | case1 equals found rest _ =>
      cases h
      exact List.mem_cons_of_mem _ List.mem_cons_self
  | case2 _ _ _ _ ih => exact List.mem_cons_of_mem _ (ih h)
  | case3 _ _ _ ih => exact List.mem_cons_of_mem _ (ih h)
  | case4 => cases h

/-- The initial value of an attribute is its value without the semicolon. -/
theorem attributeOf_initial {decl : Tree} {a : Attribute} (h : attributeOf decl = .ok a) :
    a.initial? = (initializer? decl.children).map fun value =>
      String.ofList (stripTerminator value.text.toList) := by
  obtain ⟨name, _, h⟩ := bind_eq_ok h
  obtain ⟨typeName, _, h⟩ := bind_eq_ok h
  cases h
  rfl

/-- Attributes of a source can be written. -/
theorem attribute_writable {d : Derivation (.production .attrDecl)} {a : Attribute}
    (h : LeavesLegible (node .attrDecl (d.trees source)))
    (hok : attributeOf (node .attrDecl (d.trees source)) = .ok a) : WritableAttribute a := by
  obtain ⟨hname, htype⟩ := attributeOf_ok hok
  refine ⟨requiredToken_isToken h hname, requiredType_isType h htype, fun text htext => ?_⟩
  rw [attributeOf_initial hok] at htext
  obtain ⟨value, hvalue, rfl⟩ := Option.map_eq_some_iff.mp htext
  refine (h value ?_).value (initializer?_kind hvalue)
  rw [leaves_node]
  exact mem_leavesAll (initializer?_mem hvalue) (by rw [leaves_leaf]; exact List.mem_cons_self)

theorem parameterOf_default {decl : Tree} {p : Parameter} (h : Gives (parameterOf policy) decl p) :
    ∃ warnings, supported policy p.name decl = .ok (p.default?, warnings) := by
  obtain ⟨_, h⟩ := h
  obtain ⟨name, _, h⟩ := bind_eq_ok h
  obtain ⟨typeName, _, h⟩ := bind_eq_ok h
  obtain ⟨⟨value, found⟩, hvalue, h⟩ := bind_eq_ok h
  cases h
  exact ⟨_, hvalue⟩

/-- A default in a model is an integer, a string, or one that was kept. -/
theorem supported_eq_some {name : String} {decl : Tree} {text : String} {warnings : List Warning}
    (h : supported policy name decl = .ok (some text, warnings)) :
    ∃ value, defaultLeaf? decl = some value ∧ value.text = text ∧
      (value.kind = .integerLiteral ∨ value.kind = .stringLiteral ∨ policy = .keep) := by
  unfold supported at h
  rw [default?_eq] at h
  cases hleaf : defaultLeaf? decl with
  | none =>
      rw [hleaf] at h
      cases h
  | some value =>
      rw [hleaf] at h
      refine ⟨value, rfl, ?_⟩
      by_cases hkind : value.kind = .integerLiteral ∨ value.kind = .stringLiteral
      · simp only [if_pos hkind] at h
        cases h
        exact ⟨rfl, hkind.imp_right Or.inl⟩
      · simp only [if_neg hkind] at h
        cases policy with
        | drop => cases h
        | reject => cases h
        | keep =>
            cases h
            exact ⟨rfl, Or.inr (Or.inr rfl)⟩

/-- So can parameters, with the defaults that the policy left. -/
theorem parameter_writable {d : Derivation (.production .param)} {p : Parameter}
    (h : LeavesLegible (node .param (d.trees source)))
    (hok : Gives (parameterOf policy) (node .param (d.trees source)) p) :
    WritableParameter policy p := by
  obtain ⟨hname, htype⟩ := parameterOf_ok hok
  obtain ⟨warnings, hdefault⟩ := parameterOf_default hok
  refine ⟨requiredToken_isToken h hname, requiredType_isType h htype, fun text htext => ?_⟩
  rw [Option.mem_def.mp htext] at hdefault
  obtain ⟨value, hvalue, rfl, hkept⟩ := supported_eq_some hdefault
  obtain ⟨hmem, hadmits⟩ := defaultLeaf?_mem hvalue
  obtain ⟨kind, htoken, hsettled⟩ := (h value (by rwa [leaves_node])).token (defaultLeaf?_outside d hvalue)
  refine ⟨kind, htoken, fun span => ?_, ?_⟩
  · rcases hsettled with rfl | ⟨rfl, _⟩
    · exact hadmits
    · rfl
  · rcases hsettled with rfl | ⟨rfl, _⟩
    · exact hkept
    · exact Or.inl rfl

theorem methodOf_returnType {decl : Tree} {m : Method} (h : Gives (methodOf policy) decl m) :
    m.returnType? = typeText? decl .returnType := by
  obtain ⟨_, h⟩ := h
  obtain ⟨name, _, h⟩ := bind_eq_ok h
  obtain ⟨results, _, h⟩ := bind_eq_ok h
  cases h
  rfl

/-- So can methods. -/
theorem method_writable {d : Derivation (.production .methodDecl)} {m : Method}
    (h : LeavesLegible (node .methodDecl (d.trees source)))
    (hok : Gives (methodOf policy) (node .methodDecl (d.trees source)) m) : WritableMethod policy m := by
  obtain ⟨hname, hparameters⟩ := methodOf_ok hok
  refine ⟨requiredToken_isToken h hname, fun text htext => ?_, fun p hp => ?_⟩
  · rw [methodOf_returnType hok] at htext
    exact returnType_isType h htext
  · obtain ⟨c, hc, hgives⟩ := exists_of_forall₂ hparameters hp
    obtain ⟨hleaves, b, rfl⟩ := exists_of_mem_parameterNodes hc
    refine parameter_writable (fun u hu => h u ?_) hgives
    rw [leaves_node]
    exact hleaves hu

/-! ## Entities -/

/-- So can classes. -/
theorem class_writable {scope : String} {d : Derivation (.production .classDecl)} {f : Entity}
    (hscope : IsToken .identifier scope) (h : LeavesLegible (node .classDecl (d.trees source)))
    (hok : Gives (classEntity policy scope) (node .classDecl (d.trees source)) f) :
    WritableEntity policy f := by
  obtain ⟨name, attributes, methods, rfl, hname, hattributes, hmethods⟩ := classEntity_ok hok
  rw [descendants_eq_childNodes (by decide) d] at hattributes hmethods
  refine ⟨hscope, requiredToken_isToken h hname, fun a ha => ?_, fun m hm => ?_,
    fun v hv => absurd hv List.not_mem_nil⟩
  · obtain ⟨c, hc, hgives⟩ := exists_of_forall₂ hattributes ha
    obtain ⟨hmem, b, rfl⟩ := exists_of_mem_childNodes hc
    exact attribute_writable (h.of_mem hmem) hgives
  · obtain ⟨c, hc, hgives⟩ := exists_of_forall₂ hmethods hm
    obtain ⟨hmem, b, rfl⟩ := exists_of_mem_childNodes hc
    exact method_writable (h.of_mem hmem) hgives

/-- So can enums. -/
theorem enum_writable {scope : String} {d : Derivation (.production .enumDecl)} {f : Entity}
    (hscope : IsToken .identifier scope) (h : LeavesLegible (node .enumDecl (d.trees source)))
    (hok : Gives (enumEntity scope) (node .enumDecl (d.trees source)) f) : WritableEntity policy f := by
  obtain ⟨name, body, values, rfl, hname, hbody, hvalues⟩ := enumEntity_ok hok
  obtain ⟨hmem, b, rfl⟩ := exists_of_childNode? hbody
  rw [descendants_eq_childNodes (by decide) b] at hvalues
  refine ⟨hscope, requiredToken_isToken h hname, fun a ha => absurd ha List.not_mem_nil,
    fun m hm => absurd hm List.not_mem_nil, fun v hv => ?_⟩
  obtain ⟨c, hc, hok⟩ := exists_of_forall₂ hvalues hv
  obtain ⟨hin, _⟩ := exists_of_mem_childNodes hc
  exact requiredToken_isToken ((h.of_mem hmem).of_mem hin) hok

/-- So can whole namespaces. -/
theorem namespace_writable {d : Derivation (.production .namespaceDecl)} {es : List Entity}
    (h : LeavesLegible (node .namespaceDecl (d.trees source)))
    (hok : Gives (namespaceEntities policy) (node .namespaceDecl (d.trees source)) es) :
    ∀ f ∈ es, WritableEntity policy f := by
  obtain ⟨scope, groups, hscope, hgroups, rfl⟩ := namespaceEntities_ok hok
  have hname := requiredToken_isToken h hscope
  intro f hf
  obtain ⟨group, hgroup, hf⟩ := List.mem_flatten.mp hf
  obtain ⟨c, hc, hgives⟩ := exists_of_forall₂ hgroups hgroup
  rcases declared_ok hgives with ⟨hrule, g, rfl, hg⟩ | ⟨hrule, g, rfl, hg⟩ | ⟨_, _, rfl⟩
  · obtain rfl := List.mem_singleton.mp hf
    obtain ⟨a, rfl⟩ := exists_derivation d hc hrule
    exact class_writable hname (h.of_mem hc) hg
  · obtain rfl := List.mem_singleton.mp hf
    obtain ⟨a, rfl⟩ := exists_derivation d hc hrule
    exact enum_writable hname (h.of_mem hc) hg
  · exact absurd hf List.not_mem_nil

end Legibility

/-- Every entity in the model of a source can be written down. -/
theorem model_writable {policy : DefaultPolicy} {source : String} {m : Model} {warnings : List Warning}
    (h : parse policy source = .ok (m, warnings)) : ∀ e ∈ m, WritableEntity policy e := by
  obtain ⟨tree, htree, hmodel⟩ := parse_ok h
  obtain ⟨a, htokens, rfl⟩ := parseTree_ok htree
  have hlegible : LeavesLegible (node .compilationUnit (a.trees (stripMark source).toList)) := by
    intro u hu
    rw [leaves_node] at hu
    exact legible_of_run (run_of_tokenize htokens) hu
  obtain ⟨parts, hparts, rfl⟩ := model_ok ⟨warnings, hmodel⟩
  rw [descendants_eq_childNodes (by decide) a] at hparts
  intro e he
  obtain ⟨part, hpart, he⟩ := List.mem_flatten.mp he
  obtain ⟨c, hc, hgives⟩ := exists_of_forall₂ hparts hpart
  obtain ⟨hmem, b, rfl⟩ := exists_of_mem_childNodes hc
  exact namespace_writable (hlegible.of_mem hmem) hgives e he

end ClassChart.Extract

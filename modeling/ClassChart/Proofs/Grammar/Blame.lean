/-
# ClassChart.Proofs.Grammar.Blame — no report blames a token too late

Rule by rule from types up to units, what a reader has taken when it refuses is the beginning of something
the rule derives. It does not matter that a member is read twice, or that a base list is given up: the
refusal that counts is the one at the end, and what was read again counts for nothing. So the tokens before
the one that a report marks are the beginning of a unit, and a source that is said to end too early goes
on to one.
-/
import ClassChart.Proofs.Grammar.Viable
import ClassChart.Proofs.Model.Source
import ClassChart.Proofs.Token.Lossless

namespace ClassChart.Grammar

open Reader

/-! ## Types and parameters -/

variable {source : List Char}

theorem completable_ident : Completable .ident [] := .kind (by decide : IsToken .identifier "A")

/-- One word is a modifier, so the second one need not be added. -/
theorem completable_modifier : Completable .modifierWord [] :=
  .token (by decide : IsToken .visibility "public") fun _ => rfl

/-- Where modifiers are refused, what was read can be completed; at their start this takes no token at
all. -/
theorem optionalModifier_completes : Completes source optionalModifier (.opt (.rule .modifier)) :=
  .ifNext (.node (.append (.token completable_modifier) (.ifNext (.token completable_modifier))
    .opt_nil))

theorem completable_typeName : Completable (.rule .typeName) [] :=
  .rule (.append (.append (.left completable_ident) .opt_nil) .many_nil)

/-- A list of type arguments is completed by the argument that is due, if any, and its closing bracket.
-/
theorem typeArguments_completes {inner : Reader} (hinner : Completes source inner (.rule .typeName)) :
    Completes source (typeArguments inner) typeArgumentsPhrase := by
  have others : Completes source (mark "," ++ inner) (.mark "," ++ .rule .typeName) :=
    .append (.token (.mark (by decide))) hinner completable_typeName
  rw [typeArguments, Reader.append_assoc (mark "<")]
  refine .thenToken (.append (.token (.mark (by decide))) (.alike (Alike.separated _ _) ?_) ?_)
    (.mark (by decide))
  · exact hinner.append others.whileNext .many_nil
  · exact .append .many_nil completable_typeName

/-- By induction on the depth to which arguments may be nested. Where it is used up, nothing has been
read. -/
theorem typeNameWithin_completes (depth : Nat) :
    Completes source (typeNameWithin depth) (.rule .typeName) := by
  induction depth with
  | zero =>
      refine ⟨typeNameWithin_sound 0, fun ts refusal hread => ?_⟩
      cases hread
      exact viable_start none completable_typeName ts
  | succ depth ih =>
      refine .node (.append (.append (.alike (Alike.factor _ _) ?_) ?_ .opt_nil) ?_ .many_nil)
      · exact .append (.token completable_ident) (.ifNext (typeArguments_completes ih)) .opt_nil
      · exact .ifNext (.token (.mark (by decide)))
      · exact .whileNext (.thenToken (.append (.token (.mark (by decide)))
          (.whileNext (.token (.mark (by decide)))) .many_nil) (.mark (by decide)))

/-- The depth that a type is read to is one more than there are tokens, and it matters for no refusal.
-/
theorem typeName_completes : Completes source typeName (.rule .typeName) := by
  have within (depth : Nat) : Completes source (typeNameWithin depth) (.rule .typeName) :=
    typeNameWithin_completes depth
  exact ⟨typeName_sound, fun ts => (within (ts.length + 1)).viable ts⟩

theorem completable_defaultValue : Completable (.rule .defaultValue) [] :=
  .rule (.token (by decide : IsToken .integerLiteral "0") fun _ => rfl)

theorem defaultValue_completes : Completes source defaultValue (.rule .defaultValue) :=
  .node (.token (.token (by decide : IsToken .integerLiteral "0") fun _ => rfl))

theorem completable_param : Completable (.rule .param) [] :=
  .rule (.append (.append (.append .opt_nil completable_typeName) completable_ident) .opt_nil)

/-- A parameter is completed by its type, its name or the default behind its `=`. -/
theorem param_completes : Completes source param (.rule .param) := by
  refine .node (.append (.thenToken (.append ?_ typeName_completes completable_typeName)
    completable_ident) ?_ .opt_nil)
  · exact .ifNext (.token (.kind (by decide : IsToken .direction "out")))
  · exact .ifNext (.append (.token (.mark (by decide))) defaultValue_completes completable_defaultValue)

/-- The list of parameters, with the commas before the later ones as the reader takes them. -/
theorem params_completes : Completes source params (.rule .params) := by
  refine .node (.alike (Alike.separated _ _) (.append param_completes (.whileNext ?_) .many_nil))
  exact .append (.token (.mark (by decide))) param_completes completable_param

/-! ## Members -/

theorem arrowValue_completes :
    Completes source (mark "=>" ++ valueLiteral source) (.mark "=>" ++ .value) :=
  .append (.token (.mark (by decide))) valueLiteral_completes completable_value

theorem equalsValue_completes :
    Completes source (mark "=" ++ valueLiteral source) (.mark "=" ++ .value) :=
  .append (.token (.mark (by decide))) valueLiteral_completes completable_value

/-- A return type is chosen by its first token, and `void` is no type name. -/
theorem returnType_completes : Completes source returnType (.rule .returnType) := by
  refine .node (.byNext fun next => ?_)
  split
  · exact .left (.token (.kind (by decide : IsToken .voidKeyword "void")))
  · exact .right typeName_completes

/-- The head of a method is read twice, with a return type and without; both refusals are at a front of
it. -/
theorem methodHead_completes : Completes source methodHead methodHeadPhrase := by
  have name : Completes source (identifier ++ mark "(") (.ident ++ .mark "(") :=
    .thenToken (.token completable_ident) (.mark (by decide))
  rw [methodHead, Reader.append_assoc]
  refine .alike (Alike.expand _ _) (.orElse (.left ?_) (.right name))
  exact .append returnType_completes name (.append completable_ident (.mark (by decide)))

theorem completable_methodTail : Completable methodTailPhrase [] :=
  .append (.append .opt_nil (.mark (by decide))) (.left completable_body)

/-- Behind its opening parenthesis a method is committed, and can always be finished with a body. -/
theorem methodTail_completes : Completes source (methodTail source) methodTailPhrase := by
  refine .append (.thenToken (.byNext fun next => ?_) (.mark (by decide))) (.byNext fun next => ?_)
    (.left completable_body)
  · split
    · exact .nothing_opt
    · exact params_completes.optional
  · split
    · exact .right arrowValue_completes
    · exact .left (body_completes _)

/-- A method up to its parenthesis, and its committed rest. -/
theorem methodDecl_completes : Completes source (methodDecl source) (.rule .methodDecl) := by
  refine .node (.append (.append (.append optionalModifier_completes ?_ .opt_nil) methodHead_completes ?_)
    methodTail_completes.committed completable_methodTail)
  · exact .ifNext (.token (.kind (by decide : IsToken .overrideKeyword "override")))
  · exact .append .opt_nil (.append completable_ident (.mark (by decide)))

theorem completable_accessorName : Completable .accessorWord [] :=
  .token (by decide : IsToken .identifier "get") fun _ => rfl

theorem completable_accessor : Completable (.rule .accessor) [] :=
  .rule (.append (.append .opt_nil completable_accessorName) (.left (.left (.mark (by decide)))))

/-- An accessor is completed by its word, and by a semicolon where no body and no arrow comes. -/
theorem accessor_completes : Completes source (accessor source) (.rule .accessor) := by
  have modifier : Completable (.kind .visibility) [] :=
    .kind (by decide : IsToken .visibility "public")
  refine .node (.append (.thenToken (.ifNext (.token modifier)) completable_accessorName)
    (.byNext fun next => ?_) (.left (.left (.mark (by decide)))))
  split
  · exact .left (.right (body_completes none))
  · split
    · exact .right arrowValue_completes
    · exact .left (.left (.token (.mark (by decide))))

/-- A list of accessors asks for one of them at least, and for its closing brace. -/
theorem accessorList_completes : Completes source (accessorList source) (.rule .accessorList) := by
  refine .node (.thenToken (.append (.append ?_ accessor_completes completable_accessor)
    (.whileNext accessor_completes) .many_nil) (.mark (by decide)))
  exact .token (.mark (by decide))

theorem completable_attrTail : Completable attrTailPhrase [] := .left (.right (.mark (by decide)))

/-- What follows the name of an attribute is chosen by one token; anything else is refused as a missing
semicolon. -/
theorem attrTail_completes : Completes source (attrTail source) attrTailPhrase := by
  refine .byNext fun next => ?_
  split
  · exact .left (.left (.left equalsValue_completes))
  · split
    · exact .left (.left (.right arrowValue_completes))
    · split
      · exact .right (.append accessorList_completes (.ifNext equalsValue_completes) .opt_nil)
      · exact .left (.right (.token (.mark (by decide))))

/-- An attribute is committed from its start, but it takes no more than a front before it refuses. -/
theorem attrDecl_completes : Completes source (attrDecl source) (.rule .attrDecl) :=
  .node (.append (.thenToken (.append optionalModifier_completes typeName_completes
    completable_typeName) completable_ident) attrTail_completes completable_attrTail)

/-- A member that is no method is read as an attribute from the start again, and that refusal is the one
that counts. -/
theorem member_completes : Completes source (member source) .member :=
  .orElse methodDecl_completes.left attrDecl_completes.committed.right

/-! ## Enums -/

/-- An enum value is completed by its number behind an `=`. -/
theorem enumValue_completes : Completes source enumValue (.rule .enumValue) := by
  have number : Completable (.terminal isEnumNumber) [] :=
    .token (by decide : IsToken .integerLiteral "0") fun _ => rfl
  exact .node (.append (.token completable_ident)
    (.ifNext (.thenToken (.token (.mark (by decide))) number)) .opt_nil)

/-- A value that is optional is refused only behind its first token. -/
theorem optionalEnumValue_completes :
    Completes source optionalEnumValue (.opt (.rule .enumValue)) := by
  refine .byNext fun next => ?_
  split
  · exact .nothing_opt
  · exact enumValue_completes.optional

/-- Behind a value the list of values can be completed wherever it is refused. -/
theorem enumTail_viable (v : Derivation (.rule .enumValue)) {ts : List Token} {refusal : Refusal}
    (hread : (enumTail ts).refusal? = some refusal) :
    refusal.Viable (.production .enumBody) (v.yield ++ ts) := by
  have commas : Sound [] (mark ",") (.mark ",") := Sound.token
  have values : Sound [] enumValue (.rule .enumValue) := enumValue_sound
  have item : Completes [] (mark "," ++ optionalEnumValue) (.mark "," ++ .opt (.rule .enumValue)) :=
    .append (.token (.mark (by decide))) optionalEnumValue_completes .opt_nil
  -- A comma and what is optional behind it end a list of values.
  have hitem {ts : List Token} (v : Derivation (.rule .enumValue))
      (h : ((mark "," ++ optionalEnumValue) ts).refusal? = some refusal) :
      refusal.Viable (.production .enumBody) (v.yield ++ ts) := by
    refine (item.viable ts refusal h).behind fun front hfront => hfront.behind fun d => ?_
    obtain ⟨c, last, rfl⟩ := d.exists_seq
    exact ⟨.seq (.cons (.seq v c) .nil) last, by simp [Derivation.yield]⟩
  unfold enumTail at hread
  fun_induction Reader.whileNext (nextIsMark ",") (mark "," ++ optionalEnumValue) ts
    generalizing v with
  | case1 ts _ found after hfound _ ih =>
      rw [Outcome.refusal?_map] at hread
      obtain ⟨comma, behind, value, hcomma, hvalue, rfl⟩ := Reader.append_eq_ok hfound
      obtain ⟨c, rfl, rfl⟩ := commas ts comma behind hcomma
      rcases optionalEnumValue_ok hvalue with ⟨hend, rfl, rfl⟩ | hvalue
      · -- The comma was the last token of the enum, so nothing was refused.
        have hstops := enumTail_stops hend
        unfold enumTail at hstops
        rw [hstops] at hread
        cases hread
      · obtain ⟨w, rfl, rfl⟩ := values behind value after hvalue
        have hlater := ih w hread
        rw [← List.append_assoc]
        refine hlater.behind fun front hfront => hfront.behind fun d => ?_
        obtain ⟨items, last, rfl⟩ := d.exists_seq
        exact ⟨.seq (.cons (.seq v c) items) last, by simp [Derivation.yield]⟩
  | case2 => cases hread
  | case3 ts _ found hplain => exact hitem v (by rw [hplain]; exact hread)
  | case4 ts _ found hfinal => exact hitem v (by rw [hfinal]; exact hread)
  | case5 => cases hread

theorem completable_enumBody : Completable (.rule .enumBody) [] := .rule (.append .many_nil .opt_nil)

/-- A refused list of values was refused in its first value, or behind a value and then
`enumTail_viable` has it. -/
theorem enumBody_completes : Completes source enumBody (.rule .enumBody) := by
  refine ⟨enumBody_sound, fun ts refusal hread => ?_⟩
  change ((enumValues ts).map _).refusal? = _ at hread
  rw [Outcome.refusal?_map, enumValues, Reader.byNext] at hread
  refine Refusal.Viable.map ?_ fun _ hfront => hfront.rule
  split at hread
  · cases hread
  · change ((enumValue ts).andThen _).refusal? = _ at hread
    have values : Completes [] enumValue (.rule .enumValue) := enumValue_completes
    -- A single value is a list of values too.
    have hfirst (h : (enumValue ts).refusal? = some refusal) :
        refusal.Viable (.production .enumBody) ts :=
      (values.viable ts refusal h).map fun _ hfront =>
        hfront.map fun d => ⟨.seq .nil (.some d), rfl⟩
    cases hvalue : enumValue ts with
    | ok first behind =>
        rw [hvalue] at hread
        change ((enumTail behind).map _).refusal? = _ at hread
        rw [Outcome.refusal?_map] at hread
        obtain ⟨v, rfl, _⟩ := values.sound ts first behind hvalue
        exact enumTail_viable v hread
    | plain found => exact hfirst (by rw [hvalue] at hread ⊢; exact hread)
    | final found => exact hfirst (by rw [hvalue] at hread ⊢; exact hread)

theorem completable_enumRest : Completable enumRestPhrase [] :=
  .append (.append (.append (.append (.append completable_ident .opt_nil) (.mark (by decide)))
    completable_enumBody) (.mark (by decide))) .opt_nil

/-- An enum behind its keyword. -/
theorem enumRest_completes : Completes source enumRest enumRestPhrase := by
  refine .append (.thenToken (.append (.thenToken ?_ (.mark (by decide))) enumBody_completes
    completable_enumBody) (.mark (by decide))) (.ifNext (.token (.mark (by decide)))) .opt_nil
  exact .append (.token completable_ident)
    (.ifNext (.thenToken (.token (.mark (by decide))) completable_ident)) .opt_nil

theorem completable_enumKeyword : Completable (.kind .enumKeyword) [] :=
  .kind (by decide : IsToken .enumKeyword "enum")

/-- Modifiers without a keyword are those of an enum too, so `enum` completes them. -/
theorem enumDecl_completes : Completes source enumDecl (.rule .enumDecl) :=
  .node (.append (.thenToken optionalModifier_completes completable_enumKeyword)
    enumRest_completes.committed completable_enumRest)

/-! ## Classes, namespaces and units -/

/-- A base list is completed by the type that is due. -/
theorem baseList_completes : Completes source baseList (.rule .baseList) := by
  refine .node (.append (.append (.token (.mark (by decide))) typeName_completes completable_typeName)
    (.whileNext ?_) .many_nil)
  exact .append (.token (.mark (by decide))) typeName_completes completable_typeName

/-- A class behind its keyword. A base list that is refused is given up, which reads nothing. -/
theorem classRest_completes : Completes source (classRest source) classRestPhrase := by
  have bases : Completes source (attempt baseList) (.opt (.rule .baseList)) :=
    .orElse baseList_completes.optional .nothing_opt
  have head : Completes source (identifier ++ attempt baseList) (.ident ++ .opt (.rule .baseList)) :=
    .append (.token completable_ident) bases .opt_nil
  exact .append (.thenToken (.append (.thenToken head (.mark (by decide))) (.whileNext member_completes)
    .many_nil) (.mark (by decide))) (.ifNext (.token (.mark (by decide)))) .opt_nil

/-- A class up to its keyword, and its committed rest. -/
theorem classDecl_completes : Completes source (classDecl source) (.rule .classDecl) := by
  have keyword : Completable (.kind .classKeyword) [] :=
    .kind (by decide : IsToken .classKeyword "class")
  refine .node (.append (.thenToken (.append optionalModifier_completes ?_ .opt_nil) keyword)
    classRest_completes.committed ?_)
  · exact .ifNext (.token (.kind (by decide : IsToken .partialKeyword "partial")))
  · exact .append (.append (.append (.append (.append completable_ident .opt_nil) (.mark (by decide)))
      .many_nil) (.mark (by decide))) .opt_nil

theorem completable_typeDecl : Completable .typeDecl [] :=
  .right (.rule (.append (.append .opt_nil completable_enumKeyword) completable_enumRest))

/-- The keyword decides which declaration is read; without any, nothing was read. -/
theorem typeDecl_completes : Completes source (typeDecl source) .typeDecl := by
  refine ⟨typeDecl_sound, fun ts refusal hread => ?_⟩
  unfold typeDecl at hread
  split at hread
  · exact (classDecl_completes.viable ts refusal hread).map fun _ hfront => hfront.left
  · have enums : Completes source enumDecl (.rule .enumDecl) := enumDecl_completes
    exact (enums.viable ts refusal hread).map fun _ hfront => hfront.right
  · cases hread
    exact viable_start _ completable_typeDecl ts

theorem completable_namespaceKeyword : Completable (.kind .namespaceKeyword) [] :=
  .kind (by decide : IsToken .namespaceKeyword "namespace")

/-- The part of a namespace behind its keyword, at its shortest: a name and a semicolon. -/
theorem completable_namespaceRest : Completable (.ident ++
    (.mark "\x7b" ++ .many .typeDecl ++ .mark "\x7d" ||| .mark ";" ++ .many .typeDecl)) [] :=
  .append completable_ident (.right (.append (.mark (by decide)) .many_nil))

theorem completable_namespaceDecl : Completable (.rule .namespaceDecl) [] :=
  .rule (.append completable_namespaceKeyword completable_namespaceRest)

/-- A namespace is completed by a semicolon behind its name, or by the closing brace of its block. -/
theorem namespaceDecl_completes : Completes source (namespaceDecl source) (.rule .namespaceDecl) := by
  have types : Completes source (committed (typeDecl source)) .typeDecl := typeDecl_completes.committed
  refine .node (.append (.token completable_namespaceKeyword)
    (.committed (.append (.token completable_ident) (.byNext fun next => ?_) ?_)) completable_namespaceRest)
  · split
    · exact .right (.append (.token (.mark (by decide))) (.whileNext types) .many_nil)
    · exact .left (.thenToken (.append (.token (.mark (by decide))) (.whileNext types) .many_nil)
        (.mark (by decide)))
  · exact .right (.append (.mark (by decide)) .many_nil)

/-- An import is completed by its name and its semicolon. -/
theorem importDecl_completes : Completes source importDecl (.rule .importDecl) := by
  refine .node (.append (.token (.kind (by decide : IsToken .usingKeyword "using"))) (.committed
    (.thenToken (.thenToken ?_ completable_ident) (.mark (by decide))))
    (.append (.append .opt_nil completable_ident) (.mark (by decide))))
  exact .ifNext (.token (.kind (by decide : IsToken .staticKeyword "static")))

/-- A unit is completed by its first namespace, if it has none yet. -/
theorem unitParts_completes : Completes source (unitParts source) (.production .compilationUnit) :=
  .append (.append (.whileNext importDecl_completes) namespaceDecl_completes.committed
    completable_namespaceDecl) (.whileNext namespaceDecl_completes.committed) .many_nil

/-! ## What a report blames -/

/-- The report blames the token with the given number. It marks this token; or the number is that of all
tokens, and the report says that there are too few and marks the end of the last one. -/
inductive Blames (d : Diagnostic) (tokens : List Token) : Nat → Prop where
  | token {index : Nat} {t : Token} (code : d.code ≠ some .incompleteInput)
      (found : tokens[index]? = some t) (marks : d.primarySpan? = some t.span) : Blames d tokens index
  | ending {stop : Nat} (code : d.code = some .incompleteInput)
      (last : (tokens.getLast?.map (·.span.stop)).getD 0 = stop)
      (marks : d.primarySpan? = some ⟨stop, stop⟩) : Blames d tokens tokens.length

section Reports

variable {tokens front : List Token} {d : Diagnostic} {refusal : Refusal}

/-- Only a refusal behind the last token says that there are too few. -/
theorem rest_eq_nil (h : (refusal.diagnostic tokens).code = some .incompleteInput) :
    refusal.rest = [] := by
  unfold Refusal.diagnostic at h
  cases hrest : refusal.rest with
  | nil => rfl
  | cons found later =>
      rw [hrest] at h
      have hcode := Option.some.inj h
      split at hcode <;> cases hcode

/-- A refusal is reported where it happened. -/
theorem blames_of_refusal (htokens : tokens = front ++ refusal.rest) :
    Blames (refusal.diagnostic tokens) tokens front.length := by
  cases hrest : refusal.rest with
  | nil =>
      rw [hrest, List.append_nil] at htokens
      subst htokens
      unfold Refusal.diagnostic
      rw [hrest]
      refine .ending rfl ?_ rfl
      cases tokens.getLast? <;> rfl
  | cons found later =>
      have hcode : (refusal.diagnostic tokens).code ≠ some .incompleteInput := fun hcode =>
        List.cons_ne_nil found later (hrest.symm.trans (rest_eq_nil hcode))
      have hmarks : (refusal.diagnostic tokens).primarySpan? = some found.span := by
        rw [Refusal.diagnostic, hrest]
        rfl
      refine .token hcode ?_ hmarks
      rw [htokens, hrest, List.getElem?_append_right (Nat.le_refl _), Nat.sub_self]
      rfl

/-- A report is that of the refusal of a unit. -/
theorem buildTree_eq_error_iff {source : List Char} :
    buildTree source tokens = .error d ↔
      ∃ refusal, (unitParts source tokens).refusal? = some refusal ∧ refusal.diagnostic tokens = d := by
  unfold buildTree
  cases unitParts source tokens with
  | ok parts rest => simp [Outcome.refusal?]
  | plain refusal => simp [Outcome.refusal?]
  | final refusal => simp [Outcome.refusal?]

/-- Tokens of a source are told apart by their spans, so a report blames one of them only. -/
theorem blames_unique {source : String} (htokens : tokenize source = .ok tokens) {index other : Nat}
    (h : Blames d tokens index) (h' : Blames d tokens other) : other = index := by
  have hspans : (tokens.map (·.span)).Nodup := by
    refine List.pairwise_map.mpr ((run_of_tokenize htokens).pairwise.imp fun hbefore hspan => ?_)
    exact absurd (congrArg Span.start hspan) (Nat.ne_of_lt hbefore.1)
  cases h with
  | token code found marks =>
      cases h' with
      | token code' found' marks' =>
          rw [marks'] at marks
          have hother : (tokens.map (·.span))[other]? = (tokens.map (·.span))[index]? := by
            rw [List.getElem?_map, List.getElem?_map, found, found', Option.map_some, Option.map_some,
              Option.some.inj marks]
          have hbound : other < (tokens.map (·.span)).length := by
            rw [List.length_map]
            exact (List.getElem?_eq_some_iff.mp found').1
          exact (List.getElem?_inj hbound hspans).mp hother
      | ending code' _ _ => exact absurd code' code
  | ending code _ _ =>
      cases h' with
      | token code' _ _ => exact absurd code code'
      | ending _ _ _ => rfl

/-- Words that are read as tokens one by one are read so with a space behind each of them. -/
theorem exists_scan_words (words : List (TokenKind × String)) (hwords : ∀ w ∈ words, IsToken w.1 w.2)
    (base : Nat) :
    ∃ xs, scan base (chars (words.map (·.2))) = ⟨xs, []⟩ ∧ xs.map Token.word = words := by
  induction words generalizing base with
  | nil => exact ⟨[], by rw [List.map_nil, chars_nil, scan], rfl⟩
  | cons w words ih =>
      have hw : IsToken w.1 w.2 := hwords w List.mem_cons_self
      obtain ⟨xs, hscan, hxs⟩ := ih (fun w hmem => hwords w (List.mem_cons_of_mem _ hmem))
        (base + Text.byteLength (w.2.toList ++ [' ']))
      refine ⟨.placed base w.1 w.2.toList :: xs, ?_, ?_⟩
      · rw [List.map_cons, chars_cons, hw.scan_spaced, hscan]
        rfl
      · rw [List.map_cons, hxs, Token.word, Token.placed, String.ofList_toList]

/-- A text on a new line only adds its tokens. -/
theorem tokenize_newline {unit more : String} {xs : List Token} (h : tokenize unit = .ok tokens)
    (hmore : scan (Text.byteLength unit.toList + ('\n').utf8Size) more.toList = ⟨xs, []⟩) :
    tokenize (unit ++ "\n" ++ more) = .ok (tokens ++ xs) := by
  have htext : (unit ++ "\n" ++ more).toList = unit.toList ++ '\n' :: more.toList := by simp
  rw [tokenize_ok, htext, (run_of_tokenize h).scan_newline .nil, Nat.zero_add, scan_blank (by decide),
    hmore]
  simp [Scan.after]

end Reports

/-- A report never blames a token too late: what stands before the blamed token is the beginning of a
unit. It is completed by the tokens of a text. When a source is said to end too early, a text behind it
completes it. -/
theorem buildTree_blames_viable {source : List Char} {tokens : List Token} {d : Diagnostic}
    (h : buildTree source tokens = .error d) :
    ∃ index, Blames d tokens index ∧
      (∃ more x, tokenize more = .ok x ∧ (d.code = some .incompleteInput → x ≠ []) ∧
        ∀ text, ∃ tree, buildTree text (tokens.take index ++ x) = .ok tree) ∧
      ∀ unit, tokenize unit = .ok tokens →
        (∀ other, Blames d tokens other → other = index) ∧
        (d.code = some .incompleteInput → ∃ more tree, parseTree (unit ++ "\n" ++ more) = .ok tree) := by
  obtain ⟨refusal, hrefusal, rfl⟩ := buildTree_eq_error_iff.mp h
  obtain ⟨front, htokens, words, hwords, hderive⟩ :=
    (unitParts_completes.viable tokens refusal hrefusal).front
  have hblames := blames_of_refusal htokens
  have hfront : tokens.take front.length = front := by rw [htokens, List.take_left]
  -- Whatever spells the words behind the front is accepted.
  have haccepts (xs : List Token) (hxs : xs.map Token.word = words) (text : List Char) :
      ∃ tree, buildTree text (front ++ xs) = .ok tree := by
    obtain ⟨a, ha⟩ := hderive xs hxs
    rw [← ha]
    exact ⟨_, buildTree_complete a⟩
  have hwhole (hcode : (refusal.diagnostic tokens).code = some .incompleteInput) : front = tokens := by
    rw [htokens, rest_eq_nil hcode, List.append_nil]
  refine ⟨front.length, hblames, ?_, fun unit hunit => ⟨fun other => blames_unique hunit hblames, ?_⟩⟩
  · obtain ⟨x, hscan, hx⟩ := exists_scan_words words hwords 0
    refine ⟨spaced (words.map (·.2)), x, ?_, ?_, ?_⟩
    · rw [tokenize_ok, toList_spaced, hscan]
    · intro hcode hnil
      obtain ⟨tree, htree⟩ := haccepts x hx source
      rw [hnil, List.append_nil, hwhole hcode, h] at htree
      cases htree
    · intro text
      rw [hfront]
      exact haccepts x hx text
  · intro hcode
    obtain ⟨x, hscan, hx⟩ := exists_scan_words words hwords
      (Text.byteLength unit.toList + ('\n').utf8Size)
    rw [← toList_spaced] at hscan
    obtain ⟨tree, htree⟩ := haccepts x hx (unit ++ "\n" ++ spaced (words.map (·.2))).toList
    rw [hwhole hcode] at htree
    refine ⟨spaced (words.map (·.2)), tree, ?_⟩
    rw [parseTree, tokenize_newline hunit hscan]
    simp only [htree]

/-- A member without its semicolon. -/
def withoutSemicolon : String := "namespace N \x7b class A \x7b int[] x \x7d \x7d"

/-- A body that is never closed, with another brace and a parenthesis open in it. -/
def withoutEnd : String := "namespace N \x7b class A \x7b int F(int x) \x7b g(\x7b"

/-- A member without its semicolon and a class without its end: both sources go on to a unit. -/
theorem buildTree_blames_viable_members :
    (∃ tokens d index, tokenize withoutSemicolon = .ok tokens ∧
      buildTree withoutSemicolon.toList tokens = .error d ∧ d.primarySpan? = some ⟨32, 33⟩ ∧
      Blames d tokens index ∧
      ∃ more x, tokenize more = .ok x ∧
        ∃ tree, buildTree withoutSemicolon.toList (tokens.take index ++ x) = .ok tree) ∧
    ∃ more tree, parseTree (withoutEnd ++ "\n" ++ more) = .ok tree := by
  refine ⟨?_, ?_⟩
  · have htokens : tokenize withoutSemicolon = .ok (scan 0 withoutSemicolon.toList).tokens := by
      rw [tokenize_ok]
      decide +kernel
    have hrefused : (unitParts withoutSemicolon.toList (scan 0 withoutSemicolon.toList).tokens).refusal?.map
        (fun refusal => (refusal.diagnostic (scan 0 withoutSemicolon.toList).tokens).primarySpan?) =
          some (some ⟨32, 33⟩) := by
      decide +kernel
    obtain ⟨refusal, hrefusal, hspan⟩ := Option.map_eq_some_iff.mp hrefused
    have hbuild := buildTree_eq_error_iff.mpr ⟨refusal, hrefusal, rfl⟩
    obtain ⟨index, hblames, ⟨more, x, hmore, _, haccepts⟩, _⟩ := buildTree_blames_viable hbuild
    exact ⟨_, _, index, htokens, hbuild, hspan, hblames, more, x, hmore, haccepts _⟩
  · have htokens : tokenize withoutEnd = .ok (scan 0 withoutEnd.toList).tokens := by
      rw [tokenize_ok]
      decide +kernel
    have hrefused : (unitParts withoutEnd.toList (scan 0 withoutEnd.toList).tokens).refusal?.map
        (fun refusal => (refusal.diagnostic (scan 0 withoutEnd.toList).tokens).code) =
          some (some .incompleteInput) := by
      decide +kernel
    obtain ⟨refusal, hrefusal, hcode⟩ := Option.map_eq_some_iff.mp hrefused
    have hbuild := buildTree_eq_error_iff.mpr ⟨refusal, hrefusal, rfl⟩
    obtain ⟨_, _, _, hunit⟩ := buildTree_blames_viable hbuild
    exact (hunit withoutEnd htokens).2 hcode

end ClassChart.Grammar

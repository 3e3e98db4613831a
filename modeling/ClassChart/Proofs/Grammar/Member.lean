/-
# ClassChart.Proofs.Grammar.Member — types, parameters and members are read as the grammar has them

Rule by rule from types up to the members of classes: what a derivation can begin with, that the reader
accepts nothing else than the rule derives, and that it accepts all of it. Most rules are told apart by
one token. A member is not: a method and an attribute share everything up to the token behind the name,
so the reader of methods has to refuse every attribute, and has to do so before it commits itself.
-/
import ClassChart.Proofs.Grammar.Region

namespace ClassChart.Grammar

open Reader

attribute [grind =] Token.isMark Token.isKind isModifier isDefaultValue isAccessorName nextIsMark
  nextIsKind isNext notNext
attribute [grind] anything

variable {source : List Char} {n : Nat}

/-! ## Modifiers -/

/-- Modifiers begin with one of their words. -/
theorem modifier_starts : Starts (.rule .modifier) isModifier :=
  Leads.rule (Leads.append_left Leads.starts_terminal)

theorem optionalModifier_sound : Sound source optionalModifier (.opt (.rule .modifier)) :=
  Sound.ifNext (Sound.node (Sound.token.append (Sound.ifNext Sound.token)))

/-- Modifiers are read as far as their words go, so none may come next. -/
theorem optionalModifier_reads :
    Reads source n optionalModifier (.opt (.rule .modifier)) (notNext isModifier) := by
  have both : Reads source n (token isModifier none ++ ifNext isModifier (token isModifier none))
      (.production .modifier) (notNext isModifier) :=
    Reads.append_any Reads.token Reads.optToken
  exact (Reads.ifNext (Reads.node both) modifier_starts).mono fun _ hnext => ⟨hnext, hnext⟩

/-! ## Types -/

/-- No token comes next that would go on with a type. -/
def endsType (next : Option Token) : Prop :=
  notNext (fun t => t.isMark "<" || t.isMark "?" || t.isMark "[") next

/-- What may not come behind a type, one mark at a time. -/
theorem endsType_notNext {next : Option Token} (h : endsType next) :
    notNext (·.isMark "<") next ∧ notNext (·.isMark "?") next ∧ nextIsMark "[" next = false := by
  cases next with
  | none => exact ⟨rfl, rfl, rfl⟩
  | some t => grind [endsType]

theorem typeName_starts : Starts (.rule .typeName) (·.isKind .identifier) := by
  have ident : Starts .ident (·.isKind .identifier) := Leads.starts_terminal
  exact Leads.rule (Leads.append_left (Leads.append_left (Leads.alt ident (Leads.append_left ident))))

/-- The part of a type in angle brackets, when `inner` reads the types in it. -/
def typeArguments (inner : Reader) : Reader :=
  mark "<" ++ inner ++ whileNext (nextIsMark ",") (mark "," ++ inner)
    ++ expectMark ">" .typeArgumentsEnd

/-- The phrase for the part of a type in angle brackets. -/
def typeArgumentsPhrase : Phrase :=
  .mark "<" ++ (.many (.rule .typeName ++ .mark ",") ++ .rule .typeName) ++ .mark ">"

/-- If the reader of the arguments is sound, so is that of the list. -/
theorem typeArguments_sound {inner : Reader} (hinner : Sound source inner (.rule .typeName)) :
    Sound source (typeArguments inner) typeArgumentsPhrase := by
  rw [typeArguments, Reader.append_assoc (mark "<")]
  refine (Sound.token.append ((Alike.separated _ _).sound ?_)).append Sound.token
  exact hinner.append (Sound.whileNext (Sound.token.append hinner))

/-- The closing bracket ends every argument, so nothing is asked of what follows the list. -/
theorem typeArguments_reads {inner : Reader}
    (hinner : Reads source n inner (.rule .typeName) endsType) :
    Reads source n (typeArguments inner) typeArgumentsPhrase anything := by
  rw [typeArguments, Reader.append_assoc (mark "<")]
  have comma : Starts (.mark "," ++ .rule .typeName) (·.isMark ",") :=
    Leads.append_left Leads.starts_terminal
  have others : Reads source n (whileNext (nextIsMark ",") (mark "," ++ inner))
      (.many (.mark "," ++ .rule .typeName)) fun next => endsType next ∧ nextIsMark "," next = false :=
    Reads.whileNext (Reads.append_any (Reads.mark ",") hinner) comma (by grind [endsType])
  have list := (Alike.separated (.rule .typeName) (.mark ",")).reads
    (hinner.append others (Leads.many (comma.of_starts (by grind [endsType])) (by grind)))
  refine (Reads.append_any (Reads.mark "<") list).append (Reads.expectMark ">" _) ?_
  exact Leads.terminal (by grind [endsType])

/-- By induction on the depth to which arguments may be nested. -/
theorem typeNameWithin_sound (depth : Nat) :
    Sound source (typeNameWithin depth) (.rule .typeName) := by
  induction depth with
  | zero =>
      intro ts trees rest hread
      exact Outcome.noConfusion hread
  | succ depth ih =>
      refine Sound.node (Sound.append (Sound.append ((Alike.factor _ _).sound ?_) ?_) ?_)
      · exact Sound.token.append (Sound.ifNext (typeArguments_sound ih))
      · exact Sound.ifNext Sound.token
      · exact Sound.whileNext ((Sound.token.append (Sound.whileNext Sound.token)).append Sound.token)

/-- Each level of nesting takes a token, so the depth bounds the length of what is read. -/
theorem typeNameWithin_reads (depth : Nat) :
    Reads source depth (typeNameWithin depth) (.rule .typeName) endsType := by
  induction depth with
  | zero => exact ⟨fun _ _ hlen => absurd hlen (Nat.not_lt_zero _),
      fun _ _ _ hlen => absurd hlen (Nat.not_lt_zero _)⟩
  | succ depth ih =>
      -- Arguments stand behind an identifier, so a level less is enough for what they nest.
      have arguments : Reads source depth (ifNext (·.isMark "<") (typeArguments (typeNameWithin depth)))
          (.opt typeArgumentsPhrase) (notNext (·.isMark "<")) :=
        (Reads.ifNext (typeArguments_reads ih)
          (Leads.append_left (Leads.append_left Leads.starts_terminal))).mono (by grind)
      have name := (Alike.factor .ident typeArgumentsPhrase).reads
        (Reads.append_shorter Reads.identifier arguments Leads.starts_terminal fun _ _ _ => trivial)
      have rank : Reads source (depth + 1) (mark "[" ++ whileNext (nextIsMark ",") (mark ",")
          ++ expectMark "]" .rankEnd) (.mark "[" ++ .many (.mark ",") ++ .mark "]") anything := by
        have commas : Reads source (depth + 1) (whileNext (nextIsMark ",") (mark ","))
            (.many (.mark ",")) fun next => anything next ∧ nextIsMark "," next = false :=
          Reads.whileNext (Reads.mark ",") Leads.starts_terminal (by grind)
        exact (Reads.append_any (Reads.mark "[") commas).append (Reads.expectMark "]" _)
          (Leads.terminal (by grind))
      have opening : Starts (.mark "[" ++ .many (.mark ",") ++ .mark "]") (·.isMark "[") :=
        Leads.append_left (Leads.append_left Leads.starts_terminal)
      have ranks : Reads source (depth + 1) (whileNext (nextIsMark "[")
          (mark "[" ++ whileNext (nextIsMark ",") (mark ",") ++ expectMark "]" .rankEnd))
          (.many (.mark "[" ++ .many (.mark ",") ++ .mark "]")) endsType :=
        (Reads.whileNext rank opening (by grind)).mono fun next hnext =>
          ⟨trivial, (endsType_notNext hnext).2.2⟩
      have question : Reads source (depth + 1) (ifNext (·.isMark "?") (mark "?")) (.opt (.mark "?"))
          fun next => notNext (·.isMark "<") next ∧ notNext (·.isMark "?") next :=
        Reads.optToken.mono fun _ hnext => hnext.2
      refine Reads.node (Reads.append (Reads.append name question ?_) ranks ?_)
      · exact Leads.opt (Leads.terminal (by grind)) (by grind)
      · exact Leads.many (opening.of_starts (by grind)) fun next hnext =>
          ⟨(endsType_notNext hnext).1, (endsType_notNext hnext).2.1⟩

theorem typeName_sound : Sound source typeName (.rule .typeName) := by
  intro ts trees rest hread
  exact typeNameWithin_sound (ts.length + 1) ts trees rest hread

/-- A type is no deeper than it is long, so the depth the reader starts with is enough for it. -/
theorem typeName_reads : Reads source n typeName (.rule .typeName) endsType where
  complete d rest _ hnext := by
    have hlen : d.yield.length < (d.yield ++ rest).length + 1 := by
      rw [List.length_append]
      omega
    exact (typeNameWithin_reads _).complete d rest hlen hnext
  unique d d' rest _ hnext := by
    have within : Reads source (d.yield.length + 1) _ _ endsType := typeNameWithin_reads _
    exact within.unique d d' rest (Nat.lt_succ_self _) hnext

/-! ## Parameters -/

theorem defaultValue_sound : Sound source defaultValue (.rule .defaultValue) :=
  Sound.node Sound.token

theorem defaultValue_reads : Reads source n defaultValue (.rule .defaultValue) anything :=
  Reads.node Reads.token

/-- Whether a parameter may begin with the token. -/
def beginsParam (t : Token) : Bool := t.isKind .direction || t.isKind .identifier

/-- A parameter begins with a direction or with its type. -/
theorem param_starts : Starts (.rule .param) beginsParam := by
  refine Leads.rule (Leads.append_left (Leads.append_left (Leads.opt_append ?_ ?_)))
  · exact Leads.terminal (by grind [beginsParam])
  · exact typeName_starts.of_starts (by grind [beginsParam])

theorem param_sound : Sound source param (.rule .param) := by
  refine Sound.node (((Sound.append ?_ typeName_sound).append Sound.token).append ?_)
  · exact Sound.ifNext Sound.token
  · exact Sound.ifNext (Sound.token.append defaultValue_sound)

/-- A parameter without a default must not be followed by `=`. -/
theorem param_reads : Reads source n param (.rule .param) (notNext (·.isMark "=")) := by
  have value : Reads source n (ifNext (·.isMark "=") (mark "=" ++ defaultValue))
      (.opt (.mark "=" ++ .rule .defaultValue)) (notNext (·.isMark "=")) :=
    (Reads.ifNext (Reads.append_any (Reads.mark "=") defaultValue_reads)
      (Leads.append_left Leads.starts_terminal)).mono (by grind)
  refine Reads.node (Reads.append (Reads.append (Reads.append Reads.optToken typeName_reads ?_)
    Reads.identifier ?_) value fun _ _ _ => trivial)
  · exact typeName_starts.of_starts (by grind)
  · exact Leads.terminal (by grind [endsType])

theorem params_starts : Starts (.rule .params) beginsParam := by
  refine Leads.rule (Leads.append ?_ param_starts)
  exact Leads.many (Leads.append_left param_starts) fun _ hnext => hnext

theorem params_sound : Sound source params (.rule .params) := by
  refine Sound.node ((Alike.separated _ _).sound ?_)
  exact param_sound.append (Sound.whileNext (Sound.token.append param_sound))

/-- Behind parameters come neither a default nor another parameter. -/
def endsParams (next : Option Token) : Prop :=
  notNext (fun t => t.isMark "=" || t.isMark ",") next

/-- A list of parameters ends where neither a comma nor a default comes next. -/
theorem params_reads : Reads source n params (.rule .params) endsParams := by
  have comma : Starts (.mark "," ++ .rule .param) (·.isMark ",") :=
    Leads.append_left Leads.starts_terminal
  have others : Reads source n (whileNext (nextIsMark ",") (mark "," ++ param))
      (.many (.mark "," ++ .rule .param)) endsParams := by
    refine (Reads.whileNext (Reads.append_any (Reads.mark ",") param_reads) comma
      (by grind)).mono ?_
    intro next hnext
    cases next <;> grind [endsParams]
  refine Reads.node ((Alike.separated _ _).reads (param_reads.append others ?_))
  refine Leads.many (comma.of_starts (by grind)) ?_
  intro next hnext
  cases next <;> grind [endsParams]

/-! ## Methods -/

/-- Whichever return type the next token chooses, it is one of the two. -/
theorem returnType_sound : Sound source returnType (.rule .returnType) := by
  refine Sound.node (Sound.byNext fun next => ?_)
  split
  · exact Sound.left Sound.token
  · exact Sound.right typeName_sound

/-- A type does not begin with `void`, so the choice by the next token is the right one. -/
theorem returnType_reads : Reads source n returnType (.rule .returnType) endsType := by
  refine Reads.node (Reads.alt ?_ ?_ Leads.starts_terminal typeName_starts (by grind))
  · exact Reads.byNext ((Reads.keyword .voidKeyword).mono fun _ _ => trivial)
      (Leads.terminal fun t ht => if_pos ht)
  · exact Reads.byNext typeName_reads (typeName_starts.of_starts (by grind))

/-- The part of a method from its return type to the parenthesis. -/
def methodHead : Reader :=
  orElse (returnType ++ identifier ++ mark "(") (identifier ++ mark "(")

/-- The phrase for the part of a method from its return type to the parenthesis. -/
def methodHeadPhrase : Phrase := .opt (.rule .returnType) ++ (.ident ++ .mark "(")

/-- Both ways to read the head of a method give one. -/
theorem methodHead_sound : Sound source methodHead methodHeadPhrase := by
  rw [methodHead, Reader.append_assoc]
  refine (Alike.expand _ _).sound (Sound.orElse (Sound.left ?_) (Sound.right ?_))
  · exact returnType_sound.append (Sound.token.append Sound.token)
  · exact Sound.token.append Sound.token

/-- A type that is an identifier and nothing else. -/
def plainType (t : Token) (ht : t.isKind .identifier = true) : Derivation (.rule .typeName) :=
  .rule (.seq (.seq (.left (.token t ht)) .none) .nil)

/-- A name with a parenthesis behind it is no return type with a name behind it: one of the two ways to
read a head refuses, and the other one accepts. -/
theorem methodHead_reads : Reads source n methodHead methodHeadPhrase anything := by
  rw [methodHead, Reader.append_assoc]
  have name : Reads source n (identifier ++ mark "(") (.ident ++ .mark "(") anything :=
    Reads.append_any Reads.identifier (Reads.mark "(")
  have starts : Starts (.ident ++ .mark "(") (·.isKind .identifier) :=
    Leads.append_left Leads.starts_terminal
  refine (Alike.expand _ _).reads (Reads.orElse (returnType_reads.append name
    (starts.of_starts (by grind [endsType]))) name ?_)
  -- Without a return type the name is read as one, and the parenthesis is no name.
  intro d rest _ _
  obtain ⟨a, b, rfl⟩ := d.exists_seq
  obtain ⟨t, ht, rfl⟩ := a.exists_token
  obtain ⟨u, hu, rfl⟩ := b.exists_token
  have hnext : endsType (u :: rest).head? := by
    show endsType (some u)
    grind [endsType]
  have types : Reads source 2 returnType (.rule .returnType) endsType := returnType_reads
  have hread := types.complete (.rule (.right (plainType t ht))) (u :: rest) (Nat.lt_succ_self 1) hnext
  refine Refuses.append_second hread (Refuses.append_first (Refuses.token ?_))
  show notNext _ (some u)
  grind

/-- The part of a method behind the parenthesis. -/
def methodTail (source : List Char) : Reader :=
  byNext (fun next => if nextIsMark ")" next then nothing else params)
    ++ expectMark ")" .parametersEnd
    ++ byNext fun next =>
      if nextIsMark "=>" next then mark "=>" ++ valueLiteral source
      else body source (some .methodBody)

/-- The phrase for the part of a method behind the parenthesis. -/
def methodTailPhrase : Phrase :=
  .opt (.rule .params) ++ .mark ")" ++ (.body ||| .mark "=>" ++ .value)

theorem arrowValue_starts : Starts (.mark "=>" ++ .value) (·.isMark "=>") :=
  Leads.append_left Leads.starts_terminal

/-- The semicolon of a value ends what an arrow leads to. -/
theorem arrowValue_reads :
    Reads source n (mark "=>" ++ valueLiteral source) (.mark "=>" ++ .value) anything :=
  Reads.append_any (Reads.mark "=>") (valueLiteral_reads source n)

theorem methodTail_sound : Sound source (methodTail source) methodTailPhrase := by
  refine ((Sound.byNext fun next => ?_).append Sound.token).append (Sound.byNext fun next => ?_)
  · split
    · exact Sound.nothing_opt
    · exact params_sound.some
  · split
    · exact Sound.right (Sound.token.append (valueLiteral_sound source))
    · exact Sound.left (body_sound source _)

/-- A method ends with a body or a value, whatever comes next. -/
theorem methodTail_reads : Reads source n (methodTail source) methodTailPhrase anything := by
  have parameters : Reads source n
      (byNext fun next => if nextIsMark ")" next then nothing else params) (.opt (.rule .params))
      fun next => endsParams next ∧ nextIsMark ")" next = true :=
    Reads.unlessNext params_reads params_starts (by grind [beginsParam])
  refine (parameters.append (Reads.expectMark ")" _) (Leads.terminal (by grind [endsParams]))).append_any
    (Reads.alt ?_ ?_ body_starts arrowValue_starts (by grind))
  · exact Reads.byNext (body_reads source n (some .methodBody)) (body_starts.of_starts (by grind))
  · exact Reads.byNext arrowValue_reads (arrowValue_starts.of_starts (by grind))

/-- Whether a method may begin with the token. -/
def beginsMethod (t : Token) : Bool :=
  isModifier t || t.isKind .overrideKeyword || t.isKind .voidKeyword || t.isKind .identifier

/-- A head begins with `void`, a type or a name, and the last two are identifiers. -/
theorem methodHead_starts :
    Starts methodHeadPhrase fun t => t.isKind .voidKeyword || t.isKind .identifier := by
  refine Leads.opt_append (Leads.rule (Leads.alt ?_ ?_)) (Leads.append_left ?_)
  · exact Leads.terminal (by grind)
  · exact typeName_starts.of_starts (by grind)
  · exact Leads.terminal (by grind)

theorem methodDecl_starts : Starts (.rule .methodDecl) beginsMethod := by
  refine Leads.rule (Leads.append_left (Leads.append ?_
    (methodHead_starts.of_starts (by grind [beginsMethod] :
      ∀ t, _ → isNext beginsMethod (some t)))))
  refine Leads.opt_append (modifier_starts.of_starts (by grind [beginsMethod])) ?_
  exact Leads.opt (Leads.terminal (by grind [beginsMethod])) fun _ hnext => hnext

theorem methodDecl_sound : Sound source (methodDecl source) (.rule .methodDecl) := by
  refine Sound.node (((Sound.append optionalModifier_sound ?_).append methodHead_sound).append ?_)
  · exact Sound.ifNext Sound.token
  · exact methodTail_sound.committed

/-- Neither a modifier nor `override` comes next. -/
def endsPrelude (next : Option Token) : Prop :=
  notNext (fun t => isModifier t || t.isKind .overrideKeyword) next

/-- The part of a method before its return type. -/
def methodPrelude : Reader :=
  optionalModifier ++ ifNext (·.isKind .overrideKeyword) (keyword .overrideKeyword)

/-- What stands before the head of a method, if no more of it follows. -/
theorem methodPrelude_reads :
    Reads source n methodPrelude (.opt (.rule .modifier) ++ .opt (.kind .overrideKeyword))
      endsPrelude := by
  have override : Reads source n (ifNext (·.isKind .overrideKeyword) (keyword .overrideKeyword))
      (.opt (.kind .overrideKeyword)) endsPrelude := by
    refine Reads.optToken.mono ?_
    intro next hnext
    cases next <;> grind [endsPrelude]
  refine optionalModifier_reads.append override (Leads.opt (Leads.terminal (by grind)) ?_)
  intro next hnext
  cases next <;> grind [endsPrelude]

/-- A method is read to its end, whatever comes next. -/
theorem methodDecl_reads : Reads source n (methodDecl source) (.rule .methodDecl) anything := by
  refine Reads.node ((methodPrelude_reads.append methodHead_reads ?_).append_any
    methodTail_reads.committed)
  exact methodHead_starts.of_starts (by grind [endsPrelude])

/-! ## Attributes -/

theorem accessor_starts :
    Starts (.rule .accessor) fun t => t.isKind .visibility || t.isKind .identifier := by
  refine Leads.rule (Leads.append_left (Leads.opt_append ?_ ?_))
  · exact Leads.terminal (by grind)
  · exact Leads.terminal (by grind)

theorem accessor_sound : Sound source (accessor source) (.rule .accessor) := by
  refine Sound.node (((Sound.ifNext Sound.token).append Sound.token).append
    (Sound.byNext fun next => ?_))
  split
  · exact Sound.left (Sound.right (body_sound source none))
  · split
    · exact Sound.right (Sound.token.append (valueLiteral_sound source))
    · exact Sound.left (Sound.left Sound.token)

/-- An accessor ends with a semicolon, a body or a value. -/
theorem accessor_reads : Reads source n (accessor source) (.rule .accessor) anything := by
  have semicolonOrBody : Starts (.mark ";" ||| .body) fun t => t.isMark ";" || t.isMark "\x7b" :=
    Leads.alt (Leads.terminal (by grind)) (body_starts.of_starts (by grind))
  refine Reads.node (Reads.append_any (Reads.append Reads.optToken Reads.token
    (Leads.terminal (by grind))) ?_)
  refine Reads.alt (Reads.alt ?_ ?_ Leads.starts_terminal body_starts (by grind)) ?_
    semicolonOrBody arrowValue_starts (by grind)
  · exact Reads.byNext Reads.semicolon (Leads.terminal (by grind))
  · exact Reads.byNext (body_reads source n none) (body_starts.of_starts (by grind))
  · exact Reads.byNext arrowValue_reads (arrowValue_starts.of_starts (by grind))

theorem accessorList_starts : Starts (.rule .accessorList) (·.isMark "\x7b") :=
  Leads.rule (Leads.append_left (Leads.append_left (Leads.append_left Leads.starts_terminal)))

theorem accessorList_sound : Sound source (accessorList source) (.rule .accessorList) :=
  Sound.node (((Sound.token.append accessor_sound).append (Sound.whileNext accessor_sound)).append
    Sound.token)

/-- A list of accessors ends with its brace. -/
theorem accessorList_reads : Reads source n (accessorList source) (.rule .accessorList) anything := by
  have others : Reads source n (whileNext (fun next => !nextIsMark "\x7d" next) (accessor source))
      (.many (.rule .accessor)) fun next => anything next ∧ (!nextIsMark "\x7d" next) = false :=
    Reads.whileNext accessor_reads accessor_starts (by grind)
  refine Reads.node ((Reads.append_any (Reads.append_any (Reads.mark "\x7b") accessor_reads)
    others).append (Reads.mark "\x7d") ?_)
  exact Leads.terminal (by grind)

/-- The part of an attribute behind its name. -/
def attrTail (source : List Char) : Reader :=
  byNext fun next =>
    if nextIsMark "=" next then mark "=" ++ valueLiteral source
    else if nextIsMark "=>" next then mark "=>" ++ valueLiteral source
    else if nextIsMark "\x7b" next then
      accessorList source ++ ifNext (·.isMark "=") (mark "=" ++ valueLiteral source)
    else semicolon

/-- The phrase for the part of an attribute behind its name. -/
def attrTailPhrase : Phrase :=
  .mark "=" ++ .value ||| .mark "=>" ++ .value ||| .mark ";"
    ||| .rule .accessorList ++ .opt (.mark "=" ++ .value)

/-- Whether the token may stand behind the name of an attribute. -/
def followsAttrName (t : Token) : Bool :=
  t.isMark "=" || t.isMark "=>" || t.isMark ";" || t.isMark "\x7b"

theorem equalsValue_starts : Starts (.mark "=" ++ .value) (·.isMark "=") :=
  Leads.append_left Leads.starts_terminal

theorem equalsValue_reads :
    Reads source n (mark "=" ++ valueLiteral source) (.mark "=" ++ .value) anything :=
  Reads.append_any (Reads.mark "=") (valueLiteral_reads source n)

/-- What follows the name of an attribute begins with one of four marks. -/
theorem attrTail_starts : Starts attrTailPhrase followsAttrName := by
  refine Leads.alt (Leads.alt (Leads.alt ?_ ?_) ?_) (Leads.append_left ?_)
  · exact equalsValue_starts.of_starts (by grind [followsAttrName])
  · exact arrowValue_starts.of_starts (by grind [followsAttrName])
  · exact Leads.terminal (by grind [followsAttrName])
  · exact accessorList_starts.of_starts (by grind [followsAttrName])

theorem attrTail_sound : Sound source (attrTail source) attrTailPhrase := by
  have value := valueLiteral_sound source
  refine Sound.byNext fun next => ?_
  split
  · exact Sound.left (Sound.left (Sound.left (Sound.token.append value)))
  · split
    · exact Sound.left (Sound.left (Sound.right (Sound.token.append value)))
    · split
      · exact Sound.right (accessorList_sound.append (Sound.ifNext (Sound.token.append value)))
      · exact Sound.left (Sound.right Sound.token)

/-- Accessors may be followed by a value, so `=` must not come next. -/
theorem attrTail_reads :
    Reads source n (attrTail source) attrTailPhrase (notNext (·.isMark "=")) := by
  -- Each of the nested choices is told apart by the first tokens of what it has gathered so far.
  have values : Starts (.mark "=" ++ .value ||| .mark "=>" ++ .value)
      fun t => t.isMark "=" || t.isMark "=>" :=
    Leads.alt (equalsValue_starts.of_starts (by grind)) (arrowValue_starts.of_starts (by grind))
  have fields : Starts (.mark "=" ++ .value ||| .mark "=>" ++ .value ||| .mark ";")
      fun t => t.isMark "=" || t.isMark "=>" || t.isMark ";" :=
    Leads.alt (values.of_starts (by grind)) (Leads.terminal (by grind))
  have properties : Starts (.rule .accessorList ++ .opt (.mark "=" ++ .value)) (·.isMark "\x7b") :=
    Leads.append_left accessorList_starts
  have initial : Reads source n (ifNext (·.isMark "=") (mark "=" ++ valueLiteral source))
      (.opt (.mark "=" ++ .value)) (notNext (·.isMark "=")) :=
    (Reads.ifNext equalsValue_reads equalsValue_starts).mono (by grind)
  refine Reads.alt (Reads.alt (Reads.alt ?_ ?_ equalsValue_starts arrowValue_starts (by grind)) ?_
    values Leads.starts_terminal (by grind)) ?_ fields properties (by grind)
  · exact Reads.byNext (equalsValue_reads.mono fun _ _ => trivial)
      (equalsValue_starts.of_starts (by grind))
  · exact Reads.byNext (arrowValue_reads.mono fun _ _ => trivial)
      (arrowValue_starts.of_starts (by grind))
  · exact Reads.byNext (Reads.semicolon.mono fun _ _ => trivial) (Leads.terminal (by grind))
  · exact Reads.byNext (accessorList_reads.append_any initial) (properties.of_starts (by grind))

theorem attrDecl_starts :
    Starts (.rule .attrDecl) fun t => isModifier t || t.isKind .identifier := by
  refine Leads.rule (Leads.append_left (Leads.append_left (Leads.opt_append ?_ ?_)))
  · exact modifier_starts.of_starts (by grind)
  · exact typeName_starts.of_starts (by grind)

theorem attrDecl_sound : Sound source (attrDecl source) (.rule .attrDecl) :=
  Sound.node (((optionalModifier_sound.append typeName_sound).append Sound.token).append
    attrTail_sound)

/-- An attribute is read to its end, if no value follows it. -/
theorem attrDecl_reads :
    Reads source n (attrDecl source) (.rule .attrDecl) (notNext (·.isMark "=")) := by
  refine Reads.node (((optionalModifier_reads.append typeName_reads ?_).append Reads.identifier
    ?_).append_any attrTail_reads)
  · exact typeName_starts.of_starts (by grind)
  · exact Leads.terminal (by grind [endsType])

/-! ## Members -/

/-- A type begins with an identifier, and no parenthesis stands behind that identifier. -/
theorem typeName_second (ty : Derivation (.rule .typeName)) (rest : List Token)
    (hrest : notNext (·.isMark "(") rest.head?) :
    ∃ t more, ty.yield ++ rest = t :: more ∧ t.isKind .identifier = true ∧
      notNext (·.isMark "(") more.head? := by
  obtain ⟨a, rfl⟩ := ty.exists_rule
  obtain ⟨a, ranks, rfl⟩ := a.exists_seq
  obtain ⟨base, question, rfl⟩ := a.exists_seq
  have behindRanks : Leads (.many (.mark "[" ++ .many (.mark ",") ++ .mark "]"))
      (notNext (·.isMark "(")) (notNext (·.isMark "(")) :=
    Leads.many (Leads.append_left (Leads.append_left (Leads.terminal (by grind)))) fun _ h => h
  have behindQuestion : Leads (.opt (.mark "?")) (notNext (·.isMark "(")) (notNext (·.isMark "(")) :=
    Leads.opt (Leads.terminal (by grind)) fun _ h => h
  have hmore := behindQuestion question _ (behindRanks ranks rest hrest)
  -- Whatever goes on with a type begins with a mark of its own: an angle bracket, `?` or a bracket.
  rcases base.left_or_right with ⟨b, rfl⟩ | ⟨b, rfl⟩
  · obtain ⟨t, ht, rfl⟩ := b.exists_token
    refine ⟨t, question.yield ++ (ranks.yield ++ rest), ?_, ht, hmore⟩
    simp only [Derivation.yield, List.cons_append, List.nil_append, List.append_assoc]
  · obtain ⟨name, arguments, rfl⟩ := b.exists_seq
    obtain ⟨t, ht, rfl⟩ := name.exists_token
    have behindName : Leads typeArgumentsPhrase anything (notNext (·.isMark "(")) :=
      Leads.append_left (Leads.append_left (Leads.terminal (by grind)))
    refine ⟨t, arguments.yield ++ (question.yield ++ (ranks.yield ++ rest)), ?_, ht,
      behindName arguments _ trivial⟩
    simp only [Derivation.yield, List.cons_append, List.nil_append, List.append_assoc]

/-- A type with a name behind it is no head of a method, unless a parenthesis comes next. -/
theorem methodHead_refuses (ty : Derivation (.rule .typeName)) (name : Derivation .ident)
    (rest : List Token) (hrest : notNext (·.isMark "(") rest.head?) :
    Refuses methodHead (ty.yield ++ (name.yield ++ rest)) := by
  obtain ⟨t, ht, rfl⟩ := name.exists_token
  refine Refuses.orElse ?_ ?_
  · -- The type and the name are read as those of a method, and no parenthesis follows.
    have typed : Reads [] (ty.yield.length + 2) (returnType ++ identifier)
        (.rule .returnType ++ .ident) anything :=
      returnType_reads.append Reads.identifier (Leads.terminal (by grind [endsType]))
    have hread := typed.complete (.seq (.rule (.right ty)) (.token t ht)) rest
      (by simp [Derivation.yield]) trivial
    simp only [Derivation.yield, List.append_assoc] at hread
    exact Refuses.append_second hread (Refuses.token hrest)
  · -- Read without a return type, the identifier that begins the type is taken for the name.
    obtain ⟨u, more, hsplit, hu, hmore⟩ := typeName_second ty ([t] ++ rest) (by
      show notNext _ (some t)
      grind)
    show Refuses _ (ty.yield ++ ([t] ++ rest))
    rw [hsplit]
    have hread : identifier (u :: more) = .ok [.leaf u] more := if_pos hu
    exact Refuses.append_second hread (Refuses.token hmore)

/-- The reader of methods refuses every attribute before it commits itself. -/
theorem methodDecl_refuses_attrDecl (d : Derivation (.rule .attrDecl)) (rest : List Token) :
    Refuses (methodDecl source) (d.yield ++ rest) := by
  obtain ⟨a, rfl⟩ := d.exists_rule
  obtain ⟨a, tail, rfl⟩ := a.exists_seq
  obtain ⟨a, name, rfl⟩ := a.exists_seq
  obtain ⟨modifiers, ty, rfl⟩ := a.exists_seq
  have prelude : Reads source (modifiers.yield.length + 1) methodPrelude _ endsPrelude :=
    methodPrelude_reads
  have hnext : endsPrelude (ty.yield ++ (name.yield ++ (tail.yield ++ rest))).head? :=
    typeName_starts.of_starts (F := anything) (G := endsPrelude) (by grind [endsPrelude]) ty _ trivial
  -- The modifiers are read as those of a method without `override`.
  have hread := prelude.complete (.seq modifiers .none) _ (by simp [Derivation.yield]) hnext
  simp only [Derivation.yield, List.append_nil] at hread
  have htail : notNext (·.isMark "(") (tail.yield ++ rest).head? :=
    attrTail_starts.of_starts (F := anything) (G := notNext (·.isMark "("))
      (by grind [followsAttrName]) tail rest trivial
  simp only [Derivation.yield, List.append_assoc]
  exact Refuses.node (Refuses.append_first
    (Refuses.append_second hread (methodHead_refuses ty name _ htail)))

/-- A member begins with a token that a method may begin with. -/
theorem member_starts : Starts .member beginsMethod :=
  Leads.alt methodDecl_starts (attrDecl_starts.of_starts (by grind [beginsMethod]))

/-- A member is a method or an attribute, in the order they are tried. -/
theorem member_sound : Sound source (member source) .member :=
  Sound.orElse methodDecl_sound.left attrDecl_sound.committed.right

/-- An attribute is refused as a method before the reader is committed, so it is read as an attribute.
-/
theorem member_reads : Reads source n (member source) .member (notNext (·.isMark "=")) :=
  Reads.orElse (methodDecl_reads.mono fun _ _ => trivial) attrDecl_reads.committed
    fun d rest _ _ => methodDecl_refuses_attrDecl d rest

end ClassChart.Grammar

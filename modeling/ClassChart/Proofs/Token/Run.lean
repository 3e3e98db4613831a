/-
# ClassChart.Proofs.Token.Run — texts that are read whole

A `Run` over a text says how it is read, lexeme by lexeme, when a given text follows: each lexeme ends
where the next one begins, the last one where the text ends, and none is broken. `scan` gives the tokens
of a run, so a run can be taken apart at a token, moved to another offset, and joined to others. What
follows a run matters for its last lexeme at most; before a line break almost nothing does.
-/
import ClassChart.Proofs.Text.Bytes
import ClassChart.Proofs.Token.Extent
import ClassChart.Proofs.Token.Terminal

namespace ClassChart

open Text Lexeme

/-! ## Offsets -/

namespace Token

/-- The token moved along with a text, from one offset of the text to another. -/
def move (base base' : Nat) (t : Token) : Token := { t with span := t.span.move base base' }

@[simp] theorem move_kind (base base' : Nat) (t : Token) : (t.move base base').kind = t.kind := rfl

@[simp] theorem move_text (base base' : Nat) (t : Token) : (t.move base base').text = t.text := rfl

@[simp] theorem move_span (base base' : Nat) (t : Token) :
    (t.move base base').span = t.span.move base base' := rfl

/-- The token of the given kind that the text is, when the text begins at an offset. -/
def placed (base : Nat) (kind : TokenKind) (text : List Char) : Token :=
  ⟨kind, String.ofList text, ⟨base, base + byteLength text⟩⟩

@[simp] theorem placed_move (base base' : Nat) (kind : TokenKind) (text : List Char) :
    (Token.placed base kind text).move base base' = Token.placed base' kind text := by
  simp only [placed, move, Span.move, mk.injEq, Span.mk.injEq, true_and]
  omega

end Token

theorem eq_of_isMark {base : Nat} {kind : TokenKind} {x : List Char} {text : String}
    (h : (Token.placed base kind x).isMark text = true) : kind = .punctuation ∧ x = text.toList := by
  simp only [Token.isMark, Token.placed, Bool.and_eq_true, beq_iff_eq] at h
  refine ⟨h.1, ?_⟩
  rw [← h.2, String.toList_ofList]

/-! ## Runs -/

/-- How a text is read when `rest` follows it and it begins at an offset. -/
inductive Run (rest : List Char) : Nat → List Char → List Token → Prop where
  | done {base : Nat} : Run rest base [] []
  | trivia {base : Nat} {x text : List Char} {ts : List Token}
      (reads : ofText? (x ++ (text ++ rest)) = some (.trivia x.length))
      (more : Run rest (base + byteLength x) text ts) : Run rest base (x ++ text) ts
  | token {base : Nat} {kind : TokenKind} {x text : List Char} {ts : List Token}
      (reads : ofText? (x ++ (text ++ rest)) = some (.token kind x.length))
      (more : Run rest (base + byteLength x) text ts) :
      Run rest base (x ++ text) (.placed base kind x :: ts)

/-- Tokens put in front of what was read. -/
def Scan.after (ts : List Token) (s : Scan) : Scan := ⟨ts ++ s.tokens, s.problems⟩

namespace Scan

@[simp] theorem after_nil (s : Scan) : s.after [] = s := rfl

@[simp] theorem after_after (ts us : List Token) (s : Scan) :
    (s.after us).after ts = s.after (ts ++ us) := by
  simp [after]

@[simp] theorem after_problems (ts : List Token) (s : Scan) : (s.after ts).problems = s.problems := rfl

end Scan

section Steps

variable {base : Nat} {kind : TokenKind} {x y : List Char}

theorem drop_pred_of_append {c : Char} {rest : List Char} (htext : c :: rest = x ++ y) (hne : x ≠ []) :
    rest.drop (x.length - 1) = y := by
  cases x with
  | nil => exact absurd rfl hne
  | cons d x =>
      obtain ⟨rfl, rfl⟩ := List.cons.inj htext
      simp

/-- Trivia is passed over. -/
theorem scan_trivia (h : ofText? (x ++ y) = some (.trivia x.length)) :
    scan base (x ++ y) = scan (base + byteLength x) y := by
  have hne := (ofText?_eq_trivia_iff.mp h).ne_nil
  cases htext : x ++ y with
  | nil =>
      rw [htext] at h
      cases h
  | cons c rest =>
      rw [htext, ofText?, Option.some.injEq] at h
      rw [scan]
      simp only [h]
      rw [drop_pred_of_append htext.symm hne, offsetAfter, ← htext, List.take_left]

/-- A token is put in front of what is read behind it. -/
theorem scan_token (h : ofText? (x ++ y) = some (.token kind x.length)) :
    scan base (x ++ y) = (scan (base + byteLength x) y).after [.placed base kind x] := by
  have hne := List.length_pos_iff.mp (ofText?_token_endsWithin h).1
  have hterminal := terminal_token h
  cases htext : x ++ y with
  | nil =>
      rw [htext] at h
      cases h
  | cons c rest =>
      rw [htext, ofText?, Option.some.injEq] at h
      rw [htext] at hterminal
      rw [scan]
      simp only [h, hterminal]
      rw [drop_pred_of_append htext.symm hne, offsetAfter, ← htext, List.take_left]
      rfl

/-- A mark other than the equals sign is a token whatever follows it. -/
theorem scan_mark {c : Char} (hc : c ∈ marks) (hequals : c ≠ '=') (base : Nat) (rest : List Char) :
    scan base (c :: rest) =
      (scan (base + c.utf8Size) rest).after [.placed base .punctuation [c]] :=
  scan_token (x := [c]) (ofText?_mark hc hequals rest)

end Steps

namespace Run

variable {rest : List Char} {base base' : Nat} {text text' : List Char} {ts ts' : List Token}

/-- `scan` gives the tokens of a run. -/
theorem scan_eq (h : Run rest base text ts) :
    scan base (text ++ rest) = (scan (base + byteLength text) rest).after ts := by
  induction h with
  | done => simp
  | trivia reads _ ih =>
      rw [List.append_assoc, scan_trivia reads, ih, byteLength_append, Nat.add_assoc]
  | token reads _ ih =>
      rw [List.append_assoc, scan_token reads, ih, byteLength_append, Nat.add_assoc, Scan.after_after]
      rfl

/-- The tokens of a run lie within it, and each ends no sooner than it begins. -/
theorem within (h : Run rest base text ts) :
    ∀ t ∈ ts, base ≤ t.span.start ∧ t.span.start ≤ t.span.stop ∧
      t.span.stop ≤ base + byteLength text := by
  induction h with
  | done => exact fun t ht => absurd ht List.not_mem_nil
  | trivia _ _ ih =>
      intro t ht
      have hspan := ih t ht
      rw [byteLength_append]
      omega
  | token _ _ ih =>
      intro t ht
      rw [byteLength_append]
      rcases List.mem_cons.mp ht with rfl | ht
      · simp only [Token.placed]
        omega
      · have hspan := ih t ht
        omega

/-- No token of a run is a region. -/
theorem not_region (h : Run rest base text ts) :
    ∀ t ∈ ts, t.kind ≠ .body ∧ t.kind ≠ .valueLiteral := by
  induction h with
  | done => exact fun t ht => absurd ht List.not_mem_nil
  | trivia _ _ ih => exact ih
  | token reads _ ih =>
      intro t ht
      rcases List.mem_cons.mp ht with rfl | ht
      · exact ofText?_not_region reads
      · exact ih t ht

/-- A run may begin anywhere. -/
theorem move (h : Run rest base text ts) (base' : Nat) :
    Run rest base' text (ts.map (Token.move base base')) := by
  -- A token further on moves by the same distance.
  have hfurther {us : List Token} {base base' size : Nat} (hus : ∀ t ∈ us, base + size ≤ t.span.start)
      (hle : ∀ t ∈ us, t.span.start ≤ t.span.stop) :
      us.map (Token.move (base + size) (base' + size)) = us.map (Token.move base base') := by
    refine List.map_congr_left fun t ht => ?_
    have hstart := hus t ht
    have hstop := hle t ht
    simp only [Token.move, Span.move, Token.mk.injEq, Span.mk.injEq, true_and]
    omega
  induction h generalizing base' with
  | done => exact .done
  | @trivia base x text us reads more ih =>
      have hmore := ih (base' + byteLength x)
      rw [hfurther (fun t ht => (more.within t ht).1) fun t ht => (more.within t ht).2.1] at hmore
      exact .trivia reads hmore
  | @token base kind x text us reads more ih =>
      have hmore := ih (base' + byteLength x)
      rw [hfurther (fun t ht => (more.within t ht).1) fun t ht => (more.within t ht).2.1] at hmore
      rw [List.map_cons, Token.placed_move]
      exact .token reads hmore

/-- One run behind another. -/
theorem append (h : Run (text' ++ rest) base text ts) (h' : Run rest (base + byteLength text) text' ts') :
    Run rest base (text ++ text') (ts ++ ts') := by
  generalize hfollow : text' ++ rest = follow at h
  induction h with
  | done => simpa using h'
  | trivia reads _ ih =>
      subst hfollow
      rw [byteLength_append, ← Nat.add_assoc] at h'
      rw [List.append_assoc]
      refine .trivia ?_ (ih h')
      rwa [List.append_assoc]
  | token reads _ ih =>
      subst hfollow
      rw [byteLength_append, ← Nat.add_assoc] at h'
      rw [List.append_assoc, List.cons_append]
      refine .token ?_ (ih h')
      rwa [List.append_assoc]

/-- A run is taken apart at a token. -/
theorem split {t : Token} (h : Run rest base text (ts ++ t :: ts')) :
    ∃ kind before x behind, text = before ++ (x ++ behind) ∧
      t = .placed (base + byteLength before) kind x ∧
      Run (x ++ (behind ++ rest)) base before ts ∧
      ofText? (x ++ (behind ++ rest)) = some (.token kind x.length) ∧
      Run rest (base + byteLength before + byteLength x) behind ts' := by
  generalize hts : ts ++ t :: ts' = all at h
  induction h generalizing ts with
  | done => exact absurd hts (by simp)
  | @trivia base x text us reads more ih =>
      obtain ⟨kind, before, y, behind, rfl, rfl, hbefore, hread, hbehind⟩ := ih hts
      rw [Nat.add_assoc base, ← byteLength_append] at hbehind ⊢
      refine ⟨kind, x ++ before, y, behind, by simp, rfl, .trivia ?_ hbefore, hread, hbehind⟩
      simpa only [List.append_assoc] using reads
  | @token base kind x text us reads more ih =>
      cases ts with
      | nil =>
          obtain ⟨rfl, rfl⟩ := List.cons.inj hts
          exact ⟨kind, [], x, text, rfl, rfl, .done, reads, more⟩
      | cons u ts =>
          obtain ⟨rfl, hus⟩ := List.cons.inj hts
          obtain ⟨kind', before, y, behind, rfl, rfl, hbefore, hread, hbehind⟩ := ih hus
          rw [Nat.add_assoc base, ← byteLength_append] at hbehind ⊢
          refine ⟨kind', x ++ before, y, behind, by simp, rfl, .token ?_ hbefore, hread, hbehind⟩
          simpa only [List.append_assoc] using reads

end Run

/-- The head of a text is the lexeme that is taken from it, and what is left follows. -/
theorem take_append_drop_pred (c : Char) (rest : List Char) {count : Nat} (hpos : 0 < count) :
    (c :: rest).take count ++ rest.drop (count - 1) = c :: rest := by
  obtain ⟨count, rfl⟩ := Nat.exists_eq_succ_of_ne_zero (Nat.pos_iff_ne_zero.mp hpos)
  simp

/-- A text without problems is a run over all of it. -/
theorem run_of_scan {base : Nat} {text : List Char} (h : (scan base text).problems = []) :
    Run [] base text (scan base text).tokens := by
  fun_induction scan base text with
  | case1 => exact .done
  | case2 base c rest count hlexeme ih =>
      have hread : ofText? (c :: rest) = some (.trivia count) := by rw [ofText?, hlexeme]
      obtain ⟨hpos, hle⟩ := trivia?_count (trivia?_of_ofText? hread)
      have htext := take_append_drop_pred c rest hpos
      have hlen : ((c :: rest).take count).length = count := List.length_take_of_le hle
      have hrun : Run [] base ((c :: rest).take count ++ rest.drop (count - 1)) _ :=
        .trivia (by rw [List.append_nil, htext, hlen, hread]) (ih h)
      rwa [htext] at hrun
  | case3 base c rest kind count hlexeme stop lexeme ih =>
      have hread : ofText? (c :: rest) = some (.token kind count) := by rw [ofText?, hlexeme]
      have hends := ofText?_token_endsWithin hread
      have htext := take_append_drop_pred c rest hends.1
      have hlen : ((c :: rest).take count).length = count := List.length_take_of_le hends.le
      have hrun : Run [] base ((c :: rest).take count ++ rest.drop (count - 1)) _ :=
        .token (by rw [List.append_nil, htext, hlen, hread]) (ih h)
      rw [terminal_token hread]
      rwa [htext] at hrun
  | case4 base c rest fault hlexeme skipped ih => exact absurd h (List.cons_ne_nil _ _)

theorem tokenize_ok {source : String} {tokens : List Token} :
    tokenize source = .ok tokens ↔ scan 0 source.toList = ⟨tokens, []⟩ := by
  unfold tokenize Scan.result
  cases hscan : scan 0 source.toList with
  | mk found problems =>
      cases problems with
      | nil => simp
      | cons d problems => simp

theorem run_of_tokenize {source : String} {tokens : List Token} (h : tokenize source = .ok tokens) :
    Run [] 0 source.toList tokens := by
  have hscan := tokenize_ok.mp h
  have hrun : Run [] 0 source.toList (scan 0 source.toList).tokens := run_of_scan (by rw [hscan])
  rwa [hscan] at hrun

/-! ## What may follow -/

/-- Trivia depends on the first character behind it alone. -/
theorem isTrivia_congr {x y y' : List Char} (h : IsTrivia x y) (hhead : y'.head? = y.head?) :
    IsTrivia x y' := by
  cases h with
  | blank nonempty blank ends =>
      refine .blank nonempty blank ?_
      rwa [headIs, hhead]
  | line leads inLine ends => exact .line leads inLine (by rwa [hhead])
  | block closed => exact .block closed

theorem head?_append_congr {front rest rest' : List Char} (h : front ≠ [] ∨ rest'.head? = rest.head?) :
    (front ++ rest').head? = (front ++ rest).head? := by
  cases front with
  | nil => exact h.resolve_left (fun hne => hne rfl)
  | cons c front => rfl

/-- A token that is read before a text that stops it is read alike before another one. -/
theorem ofText?_token_stops {x text rest rest' : List Char} {kind : TokenKind}
    (h : ofText? (x ++ (text ++ rest)) = some (.token kind x.length)) (hrest : Stops rest)
    (hrest' : Stops rest') (harrow : rest'.head? ≠ some '>') :
    ofText? (x ++ (text ++ rest')) = some (.token kind x.length) := by
  have hne : x ++ text ≠ [] := by
    have hpos := (ofText?_token_endsWithin h).1
    exact List.append_ne_nil_of_left_ne_nil (List.length_pos_iff.mp hpos) text
  rw [← List.append_assoc] at h ⊢
  obtain ⟨kind', hread, hkind⟩ := ofText?_token_append h (by simp) hne hrest' fun _ => harrow
  rcases hkind with rfl | ⟨_, _, hends⟩
  · exact hread
  · rw [stops_endsInteger hrest] at hends
    exact Bool.noConfusion hends

namespace Run

variable {rest rest' : List Char} {base : Nat} {text : List Char} {ts : List Token}

/-- A run that a character stops is the same run before any text that begins with it. -/
theorem follow (h : Run rest base text ts) (hrest : Stops rest) (hhead : rest'.head? = rest.head?)
    (harrow : rest'.head? ≠ some '>') : Run rest' base text ts := by
  have hrest' : Stops rest' := by
    rw [Stops, hhead]
    exact hrest
  induction h with
  | done => exact .done
  | trivia reads _ ih =>
      refine .trivia (ofText?_eq_trivia_iff.mpr ?_) ih
      exact isTrivia_congr (ofText?_eq_trivia_iff.mp reads) (head?_append_congr (Or.inr hhead))
  | token reads _ ih => exact .token (ofText?_token_stops reads hrest hrest' harrow) ih

end Run

/-- The blanks at the head of a text are passed over in one go. -/
theorem scan_dropWhile (base : Nat) (text : List Char) :
    scan base text =
      scan (base + byteLength (text.takeWhile isBlank)) (text.dropWhile isBlank) := by
  have hsplit : text.takeWhile isBlank ++ text.dropWhile isBlank = text :=
    List.takeWhile_append_dropWhile
  have hblank : ∀ c ∈ text.takeWhile isBlank, isBlank c = true :=
    List.all_eq_true.mp List.all_takeWhile
  have hends : headIs isBlank (text.dropWhile isBlank) = false := by
    have hhead := List.head?_dropWhile_not isBlank text
    cases hdrop : text.dropWhile isBlank with
    | nil => rfl
    | cons c more =>
        rw [hdrop] at hhead
        simpa [headIs] using hhead
  by_cases hnil : text.takeWhile isBlank = []
  · rw [hnil, List.nil_append] at hsplit
    rw [hnil, hsplit]
    rfl
  · rw [← scan_trivia (ofText?_eq_trivia_iff.mpr (.blank hnil hblank hends)), hsplit]

/-- Blanks are passed over, also where what follows begins with more of them. -/
theorem scan_blanks {blanks : List Char} (hblanks : ∀ c ∈ blanks, isBlank c = true) (base : Nat)
    (rest : List Char) : scan base (blanks ++ rest) = scan (base + byteLength blanks) rest := by
  rw [scan_dropWhile base, scan_dropWhile (base + byteLength blanks),
    List.takeWhile_append_of_pos hblanks, List.dropWhile_append_of_pos hblanks, byteLength_append,
    Nat.add_assoc]

theorem scan_blank {c : Char} (hc : isBlank c = true) (base : Nat) (rest : List Char) :
    scan base (c :: rest) = scan (base + c.utf8Size) rest := by
  have hblanks : ∀ d ∈ [c], isBlank d = true := fun d hd => List.mem_singleton.mp hd ▸ hc
  exact scan_blanks hblanks base rest

namespace Run

variable {rest : List Char} {base : Nat} {text : List Char} {ts : List Token}

/-- A run that is stopped is read alike before a line break. -/
theorem scan_newline (h : Run rest base text ts) (hrest : Stops rest) (more : List Char) :
    scan base (text ++ '\n' :: more) = (scan (base + byteLength text) ('\n' :: more)).after ts := by
  have harrow : ('\n' :: more).head? ≠ some '>' := by simp
  induction h with
  | done => simp
  | @trivia base x text ts reads _ ih =>
      rw [byteLength_append, ← Nat.add_assoc, ← ih, List.append_assoc]
      have htrivia := ofText?_eq_trivia_iff.mp reads
      by_cases htext : text = []
      · -- Only blanks reach over the line break.
        subst htext
        cases htrivia with
        | blank _ blank _ => exact scan_blanks blank base _
        | line leads inLine _ =>
            refine scan_trivia (ofText?_eq_trivia_iff.mpr (.line leads inLine ?_))
            rintro c ⟨⟩
            rfl
        | block closed => exact scan_trivia (ofText?_eq_trivia_iff.mpr (.block closed))
      · exact scan_trivia (ofText?_eq_trivia_iff.mpr
          (isTrivia_congr htrivia (head?_append_congr (Or.inl htext))))
  | @token base kind x text ts reads _ ih =>
      have hread := ofText?_token_stops reads hrest (.cons (by decide) more) harrow
      rw [byteLength_append, ← Nat.add_assoc, List.append_assoc, scan_token hread, ih,
        Scan.after_after]
      rfl

theorem eq_nil (h : Run rest base [] ts) : ts = [] := by
  generalize htext : ([] : List Char) = text at h
  cases h with
  | done => rfl
  | trivia reads _ =>
      obtain ⟨rfl, -⟩ := List.append_eq_nil_iff.mp htext.symm
      exact absurd rfl (ofText?_eq_trivia_iff.mp reads).ne_nil
  | token reads _ =>
      obtain ⟨rfl, -⟩ := List.append_eq_nil_iff.mp htext.symm
      exact absurd (ofText?_token_endsWithin reads).1 (Nat.lt_irrefl 0)

end Run

/-! ## Blanks at the end -/

section Blanks

variable {x u text blanks : List Char}

theorem stops_blanks (hblanks : ∀ c ∈ blanks, isBlank c = true) {rest : List Char} (hrest : Stops rest) :
    Stops (blanks ++ rest) := by
  cases blanks with
  | nil => exact hrest
  | cons c blanks =>
      have hc : c ∈ blankChars := mem_blankChars (hblanks c List.mem_cons_self)
      exact .cons (List.mem_append_left _ hc) _

/-- What ends with no blank lies before the blanks at the end. -/
theorem exists_front (h : x ++ u = text ++ blanks) (hblanks : ∀ c ∈ blanks, isBlank c = true)
    {c : Char} (hlast : x.getLast? = some c) (hc : isBlank c = false) :
    ∃ more, text = x ++ more ∧ u = more ++ blanks := by
  rcases List.append_eq_append_iff.mp h with ⟨more, htext, hu⟩ | ⟨beyond, rfl, rfl⟩
  · exact ⟨more, htext, hu⟩
  · rcases List.eq_nil_or_concat beyond with rfl | ⟨front, d, rfl⟩
    · exact ⟨[], by simp, by simp⟩
    · have hd : isBlank d = true := hblanks d (by simp)
      rw [List.concat_eq_append, ← List.append_assoc, List.getLast?_concat] at hlast
      obtain rfl := Option.some.inj hlast
      rw [hc] at hd
      exact Bool.noConfusion hd

theorem mem_getLast?_of_append {more : List Char} {c : Char} (hc : c ∈ more.getLast?) (front : List Char) :
    c ∈ (front ++ more).getLast? := by
  rw [List.getLast?_append]
  rw [Option.mem_def] at hc ⊢
  rw [hc]
  rfl

/-- A comment is one without the blanks at its end, before a line break. -/
theorem isTrivia_trim {beyond rest : List Char} (h : IsTrivia (text ++ beyond) rest)
    (hblanks : ∀ c ∈ beyond, isBlank c = true) {c : Char} (hlast : text.getLast? = some c)
    (hc : isBlank c = false) (more : List Char) : IsTrivia text ('\n' :: more) := by
  have hmem : c ∈ text := List.mem_of_getLast? hlast
  generalize hx : text ++ beyond = x at h
  cases h with
  | blank _ blank _ =>
      subst hx
      rw [blank c (List.mem_append_left _ hmem)] at hc
      exact Bool.noConfusion hc
  | @line lead v _ leads inLine _ =>
      have hlead : ∀ d ∈ lead, isBlank d = false := by
        rcases leads with rfl | rfl <;> decide
      have hfront : ∃ w, text = lead ++ w ∧ v = w ++ beyond := by
        rcases List.append_eq_append_iff.mp hx with ⟨w, rfl, hover⟩ | ⟨w, htext, hv⟩
        · cases w with
          | nil => exact ⟨[], by simp, by simpa using hover.symm⟩
          | cons d w =>
              have hd : isBlank d = true := hblanks d (by simp [hover])
              rw [hlead d (by simp)] at hd
              exact Bool.noConfusion hd
        · exact ⟨w, htext, hv⟩
      obtain ⟨w, rfl, rfl⟩ := hfront
      refine .line leads (fun hline => inLine (List.mem_append_left _ hline)) ?_
      rintro d ⟨⟩
      rfl
  | @block v _ closed =>
      -- The last character closes the comment, and it is no blank.
      obtain ⟨_, hpos, d, hd, hblank⟩ := commentEnd?_endsWithin closed
      have hlastx : ('/' :: '*' :: v).getLast? = some d := by
        rw [← List.getLast?_eq_getElem?] at hd
        exact mem_getLast?_of_append hd ['/', '*']
      have hall : ('/' :: '*' :: v) ++ [] = text ++ beyond := by rw [List.append_nil, hx]
      obtain ⟨front, rfl, hnil⟩ := exists_front hall hblanks hlastx hblank
      obtain ⟨rfl, -⟩ := List.append_eq_nil_iff.mp hnil.symm
      rw [List.append_nil]
      exact .block closed

end Blanks

/-- A run that ends with blanks is the same run without them before a line break, though a comment on
its last line may have ended with some of them. -/
theorem Run.trim {rest all text blanks : List Char} {base : Nat} {ts : List Token}
    (h : Run rest base all ts) (hrest : Stops rest) (hall : all = text ++ blanks)
    (hblanks : ∀ c ∈ blanks, isBlank c = true) (hlast : ∀ c ∈ text.getLast?, isBlank c = false)
    (more : List Char) : Run ('\n' :: more) base text ts := by
  have harrow : ('\n' :: more).head? ≠ some '>' := by simp
  induction h generalizing text blanks with
  | done =>
      obtain ⟨rfl, -⟩ := List.append_eq_nil_iff.mp hall.symm
      exact .done
  | @trivia base x u ts reads _ ih =>
      have htrivia := ofText?_eq_trivia_iff.mp reads
      rcases List.append_eq_append_iff.mp hall with ⟨front, rfl, rfl⟩ | ⟨beyond, rfl, rfl⟩
      · have hmore := ih rfl hblanks fun d hd => hlast d (mem_getLast?_of_append hd x)
        refine .trivia (ofText?_eq_trivia_iff.mpr ?_) hmore
        by_cases hfront : front = []
        · subst hfront
          rw [List.append_nil] at hlast
          obtain ⟨c, hc⟩ := Option.isSome_iff_exists.mp (List.getLast?_isSome.mpr htrivia.ne_nil)
          rw [← List.append_nil x] at htrivia
          exact isTrivia_trim htrivia (by simp) hc (hlast c hc) more
        · rw [List.append_assoc] at htrivia
          exact isTrivia_congr htrivia (head?_append_congr (Or.inl hfront))
      · -- The trivia goes on over blanks that are taken away, and nothing is left behind it.
        have hrest : Run ('\n' :: more) (base + byteLength (text ++ beyond)) [] ts :=
          ih rfl (fun c hc => hblanks c (List.mem_append_right _ hc)) (by simp)
        obtain rfl := hrest.eq_nil
        cases hlastx : text.getLast? with
        | none =>
            rw [List.getLast?_eq_none_iff] at hlastx
            subst hlastx
            exact .done
        | some c =>
            have htrim := isTrivia_trim htrivia (fun d hd => hblanks d (List.mem_append_left _ hd))
              hlastx (hlast c hlastx) more
            rw [← List.append_nil text]
            exact .trivia (ofText?_eq_trivia_iff.mpr htrim) .done
  | @token base kind x u ts reads _ ih =>
      obtain ⟨hpos, c, hc, hblank⟩ := ofText?_token_endsWithin reads
      have hlastx : x.getLast? = some c := by
        rw [List.getElem?_append_left (by omega)] at hc
        rwa [List.getLast?_eq_getElem?]
      obtain ⟨front, rfl, rfl⟩ := exists_front hall hblanks hlastx hblank
      rw [List.append_assoc] at reads
      refine .token (ofText?_token_stops reads (stops_blanks hblanks hrest) (.cons (by decide) more) harrow)
        (ih rfl hblanks fun d hd => hlast d (mem_getLast?_of_append hd x))

end ClassChart

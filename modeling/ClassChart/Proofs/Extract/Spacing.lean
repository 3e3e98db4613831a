/-
# ClassChart.Proofs.Extract.Spacing — what stands between tokens does not matter

A source with other gaps between its tokens has the same tokens, and where it has a model, the same model
with the same warnings. The grammar looks at tokens alone, and so does extraction, but for the texts of
values, which are kept as they are written: a gap inside one of these belongs to the model, and must stay.
So the derivation of the source carries over chunk by chunk.
-/
import ClassChart.Proofs.Extract.Opaque
import ClassChart.Proofs.Token.Spacing

namespace ClassChart.Grammar

open ClassChart.Tree Text Piece

/-! ## Regions of the same tokens -/

/-- The token without its position. -/
def face (t : Token) : Token := { t with span := Span.empty }

section Faces

variable {run run' : List Token} {ps ps' : List Piece}

theorem face_same (t : Token) : (face t).kind = t.kind ∧ (face t).text = t.text := ⟨rfl, rfl⟩

theorem isBody_of_map (h : IsBody (run.map face)) : IsBody run where
  opens := by
    have hopens := h.opens
    simp only [List.head?_map, Option.any_map, isMark_map face_same] at hopens
    exact hopens
  balanced := (balanced_map face_same).mp h.balanced
  shortest := by
    intro shorter hpre hne hbal
    have hwhole := h.shortest (shorter.map face) (hpre.map face) (by simpa using hne)
      ((balanced_map face_same).mpr hbal)
    exact hpre.eq_of_length (by simpa using congrArg List.length hwhole)

theorem isValue_of_map (h : IsValue (run.map face)) : IsValue run where
  begins := by
    have hbegins := h.begins
    simp only [List.head?_map, Option.any_map, isMark_map face_same] at hbegins
    exact hbegins
  ends := by
    obtain ⟨front, last, hrun, hends⟩ := h.ends
    obtain ⟨front, more, rfl, rfl, hmore⟩ := List.map_eq_append_iff.mp hrun
    obtain ⟨last, rfl, rfl⟩ := List.map_eq_singleton_iff.mp hmore
    exact ⟨front, last, rfl, (endsValue_map face_same front last).mp hends⟩
  first := by
    intro front t hpre hends
    have hwhole := h.first (front.map face) (face t) (by simpa using hpre.map face)
      ((endsValue_map face_same front t).mpr hends)
    exact hpre.eq_of_length (by simpa using congrArg List.length hwhole)

theorem map_face_like (h : List.Forall₂ Token.Like run run') : run'.map face = run.map face := by
  induction h with
  | nil => rfl
  | cons ht _ ih => rw [List.map_cons, List.map_cons, face, face, ht.1, ht.2, ih]

theorem isBody_like (h : List.Forall₂ Token.Like run run') (hrun : IsBody run) : IsBody run' := by
  apply isBody_of_map
  rw [map_face_like h]
  exact isBody_map face_same hrun

theorem isValue_like (h : List.Forall₂ Token.Like run run') (hrun : IsValue run) : IsValue run' := by
  apply isValue_of_map
  rw [map_face_like h]
  exact isValue_map face_same hrun

theorem eq_of_same (hsame : List.Forall₂ SameToken ps ps') (hgaps : ps'.map gap = ps.map gap) :
    ps' = ps := by
  induction hsame with
  | nil => rfl
  | @cons p p' ps ps' hp _ ih =>
      obtain ⟨gap', kind', text'⟩ := p'
      obtain ⟨rfl, rfl⟩ := hp
      obtain ⟨rfl, hmore⟩ := List.cons.inj hgaps
      rw [ih hmore]

end Faces

/-! ## Leaves of pieces -/

section Leaves

variable {base : Nat} {p : Piece} {ps : List Piece} {kind : TokenKind}

theorem exists_getLast?_tokens (base : Nat) (p : Piece) (ps : List Piece) :
    ∃ last, (Piece.tokens base (p :: ps)).getLast? = some last ∧ base + byteLength p.gap ≤ last.span.start ∧
      last.span.stop = base + byteLength (written (p :: ps)) := by
  rcases List.eq_nil_or_concat ps with rfl | ⟨init, q, rfl⟩
  · refine ⟨.placed (base + byteLength p.gap) p.kind p.text, rfl, Nat.le_refl _, ?_⟩
    simp only [Token.placed, written_cons, written_nil, List.append_nil, byteLength_append]
    omega
  · have htokens : Piece.tokens base (p :: init ++ [q]) = Piece.tokens base (p :: init) ++
        [.placed (base + byteLength (written (p :: init)) + byteLength q.gap) q.kind q.text] :=
      tokens_append
    rw [List.concat_eq_append, ← List.cons_append, htokens, List.getLast?_concat]
    refine ⟨_, rfl, ?_, ?_⟩
    · simp only [Token.placed, written_cons, byteLength_append]
      omega
    · simp only [Token.placed, written_append, written_cons, written_nil, List.append_nil,
        byteLength_append]
      omega

/-- The leaf of a region is the text from its first token to its last. -/
theorem runLeaf_written (front back : List Char) (kind : TokenKind) (p : Piece) (ps : List Piece) :
    runLeaf (front ++ (written (p :: ps) ++ back)) kind (Piece.tokens (byteLength front) (p :: ps)) =
      [.leaf ⟨kind, String.ofList (p.text ++ written ps), ⟨byteLength front + byteLength p.gap,
        byteLength front + byteLength (written (p :: ps))⟩⟩] := by
  obtain ⟨last, hlast, hstart, hstop⟩ := exists_getLast?_tokens (byteLength front) p ps
  have hslice := Span.slice_between (front ++ p.gap) (p.text ++ written ps) back
  have hunion : (Token.placed (byteLength front + byteLength p.gap) p.kind p.text).span.union last.span =
      ⟨byteLength front + byteLength p.gap, byteLength front + byteLength (written (p :: ps))⟩ := by
    rw [byteLength_written_cons] at hstop ⊢
    simp only [Token.placed, Span.union, Span.mk.injEq]
    omega
  rw [runLeaf, hlast]
  simp only [Piece.tokens, List.head?_cons, regionLeaf, hunion]
  simp only [byteLength_append, List.append_assoc] at hslice
  rw [byteLength_written_cons, written_cons, Nat.add_assoc (byteLength p.gap), ← Nat.add_assoc]
  simp only [List.append_assoc, hslice]

end Leaves

/-! ## Chunks of the same tokens -/

section Chunks

variable {front front' back back' : List Char} {ps ps' : List Piece}

theorem bare_body (p : Piece) (ps : List Piece) (span : Span) (hp : p.text = ['\x7b']) :
    (Token.mk .body (String.ofList (p.text ++ written ps)) span).bare = ⟨.body, "", Span.empty⟩ := by
  have htext : String.ofList (p.text ++ written ps) ≠ "=" := by
    intro h
    have hlist := congrArg String.toList h
    rw [String.toList_ofList, hp] at hlist
    exact absurd (List.cons.inj hlist).1 (by decide)
  simp only [Token.bare, ne_eq, htext, not_false_eq_true, and_self, if_true]

/-- A chunk is like the one of the same tokens in another source, where a value has the same gaps. -/
theorem exists_alike_chunk {c : Chunk} (hc : c.IsRegion)
    (hrun : c.run = Piece.tokens (byteLength front) ps) (hsame : List.Forall₂ SameToken ps ps')
    (hvalue : ∀ run, c = .value run → ps'.tail = ps.tail) (front' back back' : List Char) :
    ∃ c', Chunk.Alike (front ++ (written ps ++ back)) (front' ++ (written ps' ++ back')) c c' ∧
      c'.run = Piece.tokens (byteLength front') ps' := by
  cases c with
  | token t =>
      cases hsame with
      | nil => cases hrun
      | @cons p p' ps ps' hp hsame =>
          obtain ⟨rfl, hnil⟩ := List.cons.inj hrun
          cases hsame with
          | nil =>
              exact ⟨.token (.placed _ p'.kind p'.text), .token hp.1 (congrArg String.ofList hp.2), rfl⟩
          | cons _ _ => cases hnil
  | body run =>
      rw [Chunk.run] at hrun
      subst hrun
      refine ⟨.body (Piece.tokens (byteLength front') ps'), .body (isBody_like (forall₂_tokens hsame _ _) hc) ?_, rfl⟩
      cases hsame with
      | nil => rfl
      | @cons p p' ps ps' hp hsame =>
          obtain ⟨-, htext⟩ := eq_of_isMark (hc.opens : (Token.placed _ p.kind p.text).isMark _ = true)
          rw [runLeaf_written, runLeaf_written]
          simp only [List.map_cons, List.map_nil, bare_leaf]
          rw [bare_body p ps _ htext, bare_body p' ps' _ (hp.2.trans htext)]
  | value run =>
      rw [Chunk.run] at hrun
      subst hrun
      refine ⟨.value (Piece.tokens (byteLength front') ps'), .value (isValue_like (forall₂_tokens hsame _ _) hc) ?_, rfl⟩
      have htail := hvalue _ rfl
      cases hsame with
      | nil => rfl
      | @cons p p' ps ps' hp hsame =>
          obtain rfl : ps' = ps := htail
          rw [runLeaf_written, runLeaf_written]
          simp only [List.map_cons, List.map_nil, bare_leaf, hp.2]
          rfl

/-- Gaps between the first token of a region and its last that stay as they are. -/
theorem tail_eq_of_kept {R : Span → List Char → Prop} {p p' : Piece} {source : List Char}
    (hsource : source = front ++ (written (p :: ps) ++ back))
    (hsame : List.Forall₂ SameToken ps ps') (hne : ∀ q ∈ p :: ps, q.text ≠ [])
    (hgaps : List.Forall₂ R (gapSpans (byteLength front) (p :: ps)) ((p' :: ps').map gap))
    (hkept : ∀ g fill, R g fill → byteLength front + byteLength p.gap < g.start →
      g.stop < byteLength front + byteLength (written (p :: ps)) → fill = g.slice source) :
    ps' = ps := by
  rw [List.forall_mem_cons] at hne
  have hpos := byteLength_pos hne.1
  cases hgaps with | cons _ hgaps =>
  refine eq_of_same hsame ?_
  have hslices := map_slice_gapSpans (front ++ (p.gap ++ p.text)) back ps
  simp only [byteLength_append, List.append_assoc, ← Nat.add_assoc] at hslices
  rw [written_cons, List.append_assoc, List.append_assoc] at hsource
  rw [← hslices, ← hsource, ← List.forall₂_eq_eq_eq, List.forall₂_map_right_iff]
  have hinner := (List.forall₂_and_left _ _).mpr ⟨within_of_mem_gapSpans hne.2, hgaps⟩
  refine (hinner.imp ?_).flip
  rintro g fill ⟨hwithin, hfill⟩
  rw [byteLength_written_cons] at hkept
  exact hkept g fill hfill (by omega) (by omega)

/-- Where values keep their gaps, the chunks of a source are like those of the same tokens in another. The
induction is on the chunks, with what stands before them growing. -/
theorem exists_alike_chunks {source source' : List Char} {R : Span → List Char → Prop} {cs : List Chunk}
    (hregions : ∀ c ∈ cs, c.IsRegion)
    (hkept : ∀ c ∈ cs, ∀ leaf ∈ leavesAll (c.trees source), leaf.kind = .valueLiteral →
      ∀ g fill, R g fill → leaf.span.start < g.start → g.stop < leaf.span.stop → fill = g.slice source)
    (hcs : cs.flatMap Chunk.run = Piece.tokens (byteLength front) ps)
    (hsource : source = front ++ (written ps ++ back))
    (hsource' : source' = front' ++ (written ps' ++ back'))
    (hsame : List.Forall₂ SameToken ps ps') (hne : ∀ p ∈ ps, p.text ≠ [])
    (hgaps : List.Forall₂ R (gapSpans (byteLength front) ps) (ps'.map gap)) :
    ∃ cs', List.Forall₂ (Chunk.Alike source source') cs cs' ∧
      cs'.flatMap Chunk.run = Piece.tokens (byteLength front') ps' := by
  induction cs generalizing front front' ps ps' with
  | nil =>
      cases hsame with
      | nil => exact ⟨[], .nil, rfl⟩
      | cons _ _ => cases hcs
  | cons c cs ih =>
      rw [List.forall_mem_cons] at hregions hkept
      rw [List.flatMap_cons] at hcs
      obtain ⟨qs, rs, rfl, hrun, hmore⟩ := Piece.exists_append hcs.symm
      obtain ⟨qs', rs', rfl, hqs, hrs⟩ := forall₂_append_left hsame
      obtain ⟨hgapsFront, hgapsBack⟩ := forall₂_gapSpans_append hqs hgaps
      simp only [written_append, List.append_assoc] at hsource hsource'
      have hvalue : ∀ run, c = .value run → qs'.tail = qs.tail := by
        rintro run rfl
        rw [Chunk.run] at hrun
        cases hqs with
        | nil => rfl
        | @cons q q' qs qs' hq hqs =>
            have hqne : ∀ r ∈ q :: qs, r.text ≠ [] := fun r hr => hne r (List.mem_append_left _ hr)
            have hleaves : leavesAll ((Chunk.value run).trees source) =
                [⟨.valueLiteral, String.ofList (q.text ++ written qs), ⟨byteLength front +
                  byteLength q.gap, byteLength front + byteLength (written (q :: qs))⟩⟩] := by
              rw [Chunk.trees, ← hrun, hsource, runLeaf_written]
              simp
            have hleaf := hkept.1 _ (hleaves ▸ List.mem_cons_self) rfl
            exact tail_eq_of_kept hsource hqs hqne hgapsFront hleaf
      obtain ⟨c', halike, hrun'⟩ := exists_alike_chunk hregions.1 hrun.symm hqs hvalue front'
        (written rs ++ back) (written rs' ++ back')
      have hcs' : cs.flatMap Chunk.run = Piece.tokens (byteLength (front ++ written qs)) rs := by
        rw [byteLength_append, hmore]
      have hmoved : source = (front ++ written qs) ++ (written rs ++ back) := by
        rw [hsource, List.append_assoc]
      have hmoved' : source' = (front' ++ written qs') ++ (written rs' ++ back') := by
        rw [hsource', List.append_assoc]
      rw [← byteLength_append] at hgapsBack
      obtain ⟨cs', halikes, hruns⟩ := ih hregions.2 hkept.2 hcs' hmoved hmoved' hrs
        (fun p hp => hne p (List.mem_append_right _ hp)) hgapsBack
      refine ⟨c' :: cs', .cons ?_ halikes, ?_⟩
      · rw [hsource, hsource']
        exact halike
      · rw [List.flatMap_cons, hrun', hruns, tokens_append, byteLength_append]

end Chunks

theorem mem_leavesAll_of_chunk {source : List Char} {e : Phrase} (d : Derivation e) {c : Chunk}
    (hc : c ∈ d.chunks) {leaf : Token} (hleaf : leaf ∈ leavesAll (c.trees source)) :
    leaf ∈ leavesAll (d.trees source) := by
  obtain ⟨before, behind, hchunks⟩ := List.append_of_mem hc
  rw [leavesAll_eq_chunks, hchunks, List.flatMap_append, List.flatMap_cons, leavesAll_append,
    leavesAll_append]
  exact List.mem_append_right _ (List.mem_append_left _ hleaf)

/-- A unit begins with an import or with a namespace. -/
theorem unit_starts : Starts (.production .compilationUnit)
    fun t => t.isKind .usingKeyword || t.isKind .namespaceKeyword := by
  refine Leads.append_left (Leads.append (Leads.many ?_ fun _ hnext => hnext) ?_)
  · exact importDecl_starts.of_starts fun t ht => by simp [isNext, ht]
  · exact namespaceDecl_starts.of_starts fun t ht => by simp [isNext, ht]

end ClassChart.Grammar

namespace ClassChart.Extract

open ClassChart.Tree ClassChart.Grammar Text Piece

/-! ## Sources with other gaps -/

/-- The gap lies inside the text of a value. -/
def InValue (tree : Tree) (g : Span) : Prop :=
  ∃ leaf ∈ tree.leaves, leaf.kind = .valueLiteral ∧ leaf.span.start < g.start ∧ g.stop < leaf.span.stop

section Sources

variable {source : String} {ts : List Token} {fills : List (List Char)}

/-- Other gaps do not bring a byte order mark to the front. -/
theorem head?_respaced {p p' : Piece} {rest rest' : List Char} (hp : SameToken p p')
    (hmark : (p.gap ++ (p.text ++ rest)).head? ≠ some '\uFEFF')
    (hfill : Refills (p.gap ++ (p.text ++ rest)) ⟨0, byteLength p.gap⟩ p'.gap)
    (htext : p.text ≠ [] ∧ p.text.head? ≠ some '\uFEFF') :
    (p'.gap ++ (p'.text ++ rest')).head? ≠ some '\uFEFF' := by
  obtain ⟨c, text, hc⟩ := List.exists_cons_of_ne_nil htext.1
  rw [hp.2]
  cases hgap : p'.gap with
  | nil =>
      rw [hc] at htext ⊢
      exact htext.2
  | cons d gap =>
      rw [hgap] at hfill
      rcases hfill with hkept | ⟨hblank, _⟩
      · have hslice := Span.slice_between [] p.gap (p.text ++ rest)
        simp only [List.nil_append, byteLength_nil, Nat.zero_add] at hslice
        rw [← hkept.trans hslice] at hmark
        exact hmark
      · rintro ⟨⟩
        exact absurd (hblank _ List.mem_cons_self) (by decide)

/-- The first token of a unit is no byte order mark. -/
theorem first_of_unit {ts : List Token} {text : List Char} (hrun : Run [] 0 text ts)
    (a : Derivation (.production .compilationUnit)) (hts : ts = a.yield) :
    ∃ t ∈ ts.head?, t.text.toList ≠ [] ∧ t.text.toList.head? ≠ some '\uFEFF' := by
  have hstarts := unit_starts a [] trivial
  rw [List.append_nil, ← hts] at hstarts
  obtain ⟨t, ht, hkind⟩ := (Option.any_eq_true _ _).mp hstarts
  refine ⟨t, ht, ?_⟩
  have hmem := List.mem_of_head? ht
  simp only [Token.isKind, Bool.or_eq_true, beq_iff_eq] at hkind
  rcases hkind with hkind | hkind
  · have hspelled : t.text ∈ ["using"] := hrun.spelled hmem (by rw [hkind]; rfl)
    rw [List.mem_singleton.mp hspelled]
    decide
  · have hspelled : t.text ∈ ["namespace"] := hrun.spelled hmem (by rw [hkind]; rfl)
    rw [List.mem_singleton.mp hspelled]
    decide

/-- A source with other gaps has the model of the source, where the gaps inside values are the same. -/
theorem parse_of_respacing {policy : DefaultPolicy} {result : Model × List Warning}
    {a : Derivation (.production .compilationUnit)}
    (hmark : source.toList.head? ≠ some '\uFEFF') (htokens : tokenize source = .ok a.yield)
    (hparse : parse policy source = .ok result)
    (hfills : List.Forall₂ (fun g fill => Refills source.toList g fill ∧
      (InValue (.node .compilationUnit (a.trees source.toList)) g → fill = g.slice source.toList))
      (gaps 0 (byteLength source.toList) a.yield) fills) :
    parse policy (String.ofList (respaced fills a.yield)) = .ok result := by
  obtain ⟨ps, ps', last, last', htext, hrespaced, hpieces, htokens', hsame, hne, hgaps⟩ :=
    exists_respacing (fun _ _ hfill => hfill.1) htokens hfills
  have hmark' : (String.ofList (respaced fills a.yield)).toList.head? ≠ some '\uFEFF' := by
    obtain ⟨t, ht, hfirst⟩ := first_of_unit (run_of_tokenize htokens) a rfl
    rw [String.toList_ofList, hrespaced]
    rw [hpieces] at ht
    rw [htext] at hmark hgaps
    cases hsame with
    | nil => cases ht
    | cons hp _ =>
        cases ht
        cases hgaps with | cons hfill _ =>
        simp only [Token.placed, String.toList_ofList] at hfirst
        simp only [written_cons, List.append_assoc, Nat.zero_add] at hmark hfill ⊢
        exact head?_respaced hp hmark hfill.1 hfirst
  have hchunks : a.chunks.flatMap Chunk.run = Piece.tokens (byteLength []) ps := by
    rw [← yield_eq_chunks, hpieces]
    rfl
  have hkept : ∀ c ∈ a.chunks, ∀ leaf ∈ leavesAll (c.trees source.toList), leaf.kind = .valueLiteral →
      ∀ g fill, (Refills source.toList g fill ∧
        (InValue (.node .compilationUnit (a.trees source.toList)) g → fill = g.slice source.toList)) →
        leaf.span.start < g.start → g.stop < leaf.span.stop → fill = g.slice source.toList := by
    intro c hc leaf hleaf hkind g fill hfill hstart hstop
    refine hfill.2 ⟨leaf, ?_, hkind, hstart, hstop⟩
    rw [leaves_node]
    exact mem_leavesAll_of_chunk a hc hleaf
  have hsource' : respaced fills a.yield = [] ++ (written ps' ++ last') := hrespaced
  obtain ⟨cs, halike, hruns⟩ :=
    exists_alike_chunks (chunk_isRegion a) hkept hchunks htext hsource' hsame hne hgaps
  rw [← stripMark_eq_self hmark] at htokens
  rw [← stripMark_eq_self hmark'] at htokens'
  refine parse_of_alike hparse htokens (htokens'.trans (congrArg Except.ok hruns.symm)) ?_
  rw [stripMark_eq_self hmark, stripMark_eq_self hmark', String.toList_ofList]
  exact halike

/-- Trivia does not matter. The gaps of a source may be replaced by blanks, with something between two
tokens where there was something before and only there: the source has the same tokens. Where it has a
model, and the gaps inside values are left as they are, it has the same model with the same warnings. -/
theorem parse_respaced (hmark : source.toList.head? ≠ some '\uFEFF') (htokens : tokenize source = .ok ts)
    (hfills : List.Forall₂ (Refills source.toList) (gaps 0 (byteLength source.toList) ts) fills) :
    (∃ ts', tokenize (String.ofList (respaced fills ts)) = .ok ts' ∧ List.Forall₂ Token.Like ts ts') ∧
    ∀ policy tree result, parseTree source = .ok tree → parse policy source = .ok result →
      (∀ g fill, (g, fill) ∈ (gaps 0 (byteLength source.toList) ts).zip fills → InValue tree g →
        fill = g.slice source.toList) →
      parse policy (String.ofList (respaced fills ts)) = .ok result := by
  constructor
  · obtain ⟨ps, ps', _, _, _, _, rfl, htokens', hsame, _, _⟩ :=
      exists_respacing (fun _ _ hfill => hfill) htokens hfills
    exact ⟨_, htokens', forall₂_tokens hsame 0 0⟩
  · intro policy tree result htree hparse hkept
    obtain ⟨a, hyield, rfl⟩ := parseTree_ok htree
    obtain rfl := Except.ok.inj (htokens.symm.trans hyield)
    refine parse_of_respacing hmark htokens hparse ?_
    rw [List.forall₂_iff_zip] at hfills ⊢
    exact ⟨hfills.1, fun hmem => ⟨hfills.2 hmem, hkept _ _ hmem⟩⟩

end Sources

/-- Comments before, between and behind the tokens, one of them inside a value. -/
def commentedUnit : String :=
  "/* a */namespace N // b\n\x7bclass A\x7bint x/* c */=1 /* d */+2;\x7d\x7d//e"

/-- Blanks for these comments, but for the one inside the value. -/
def commentFills : List (List Char) :=
  ["", "\t", "\n\u2003", "", " ", "", "", " ", "\n", "", " /* d */", "", "", "", "\n"].map String.toList

theorem parse_respaced_commented :
    ∃ ts, tokenize commentedUnit = .ok ts ∧
      List.Forall₂ (Refills commentedUnit.toList) (gaps 0 (byteLength commentedUnit.toList) ts)
        commentFills ∧
      String.ofList (respaced commentFills ts) =
        "namespace\tN\n\u2003\x7bclass A\x7bint x\n=1 /* d */+2;\x7d\x7d\n" ∧
      parse .drop (String.ofList (respaced commentFills ts)) = .ok
        ([⟨⟨"N", "A"⟩, .ofClass [⟨"x", "int", .isPrivate, some "1 /* d */+2"⟩] []⟩], []) := by
  have htokens : (tokenize commentedUnit).toOption = some (scan 0 commentedUnit.toList).tokens := by
    decide +kernel
  have hparse : (parse .drop commentedUnit).toOption =
      some ([⟨⟨"N", "A"⟩, .ofClass [⟨"x", "int", .isPrivate, some "1 /* d */+2"⟩] []⟩], []) := by
    decide +kernel
  have hfills : List.Forall₂ (Refills commentedUnit.toList)
      (gaps 0 (byteLength commentedUnit.toList) (scan 0 commentedUnit.toList).tokens) commentFills := by
    have hall : ∀ x ∈ (gaps 0 (byteLength commentedUnit.toList)
        (scan 0 commentedUnit.toList).tokens).zip commentFills,
        Refills commentedUnit.toList x.1 x.2 := by
      decide +kernel
    exact List.forall₂_iff_zip.mpr ⟨by decide +kernel, fun hmem => hall _ hmem⟩
  -- The only gap inside a value is the one that stays.
  have hvalues : (parseTree commentedUnit).toOption.map (fun tree =>
      ((gaps 0 (byteLength commentedUnit.toList) (scan 0 commentedUnit.toList).tokens).zip
        commentFills).all fun x => x.2 = x.1.slice commentedUnit.toList ∨
          ∀ leaf ∈ tree.leaves, leaf.kind = .valueLiteral → leaf.span.start < x.1.start →
            ¬ x.1.stop < leaf.span.stop) = some true := by
    decide +kernel
  obtain ⟨tree, htree, hall⟩ := Option.map_eq_some_iff.mp hvalues
  obtain ⟨_, hmodel⟩ := parse_respaced (by decide) (eq_ok_of_toOption htokens) hfills
  refine ⟨_, eq_ok_of_toOption htokens, hfills, by decide +kernel, ?_⟩
  refine hmodel .drop tree _ (eq_ok_of_toOption htree) (eq_ok_of_toOption hparse) ?_
  rintro g fill hmem ⟨leaf, hleaf, hkind, hstart, hstop⟩
  have hfill := of_decide_eq_true (List.all_eq_true.mp hall _ hmem)
  exact hfill.resolve_right fun hoff => hoff leaf hleaf hkind hstart hstop

end ClassChart.Extract

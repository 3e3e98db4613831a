/-
# ClassChart.Proofs.Grammar.Chunks — derivations over other tokens

Laid flat, a derivation is a list of chunks: the tokens outside regions, and the regions. The grammar
looks at nothing of a token but its kind and its text, and at nothing of a region but that it is one. So
each chunk may be exchanged for one like it, and the derivation carries over: the same choices, over the
new chunks. What the new derivation looks like as a tree differs in positions and bodies alone.
-/
import ClassChart.Proofs.Grammar.Region
import ClassChart.Proofs.Grammar.Shape
import ClassChart.Proofs.Token.Run
import ClassChart.Proofs.Tree.Bare
import Mathlib.Data.List.Forall2

namespace ClassChart.Grammar

open ClassChart.Tree

/-! ## Chunks -/

/-- A leaf of a derivation, with the tokens it stands for. -/
inductive Chunk where
  | token (t : Token)
  | body (run : List Token)
  | value (run : List Token)

namespace Chunk

/-- The tokens of a chunk. -/
def run : Chunk → List Token
  | token t => [t]
  | body run => run
  | value run => run

/-- The chunk as syntax trees. -/
def trees (source : List Char) : Chunk → List Tree
  | token t => [.leaf t]
  | body run => runLeaf source .body run
  | value run => runLeaf source .valueLiteral run

/-- The chunk with its tokens changed. -/
def map (f : Token → Token) : Chunk → Chunk
  | token t => token (f t)
  | body run => body (run.map f)
  | value run => value (run.map f)

/-- The chunk is the region that it is said to be. -/
def IsRegion : Chunk → Prop
  | token _ => True
  | body run => IsBody run
  | value run => IsValue run

/-- A chunk of one source is like one of another: a token of the same kind and text, or a region of the
same kind that looks alike when bare. -/
inductive Alike (source source' : List Char) : Chunk → Chunk → Prop where
  | token {t t' : Token} (kind_eq : t'.kind = t.kind) (text_eq : t'.text = t.text) :
      Alike source source' (token t) (token t')
  | body {run run' : List Token} (isBody : IsBody run')
      (bare_eq : (runLeaf source' .body run').map bare = (runLeaf source .body run).map bare) :
      Alike source source' (body run) (body run')
  | value {run run' : List Token} (isValue : IsValue run')
      (bare_eq : (runLeaf source' .valueLiteral run').map bare =
        (runLeaf source .valueLiteral run).map bare) :
      Alike source source' (value run) (value run')

end Chunk

/-- The chunks of a derivation in order. -/
def Derivation.chunks {e : Phrase} : Derivation e → List Chunk
  | token t _ => [.token t]
  | seq a b => a.chunks ++ b.chunks
  | left a => a.chunks
  | right b => b.chunks
  | none => []
  | some a => a.chunks
  | nil => []
  | cons a more => a.chunks ++ more.chunks
  | rule a => a.chunks
  | body run _ => [.body run]
  | value run _ => [.value run]

section Chunks

variable {source : List Char} {e : Phrase}

/-- The runs of the chunks, one behind the other, are what is derived. -/
theorem yield_eq_chunks (d : Derivation e) : d.yield = d.chunks.flatMap Chunk.run := by
  induction d with
  | token t _ => rfl
  | seq a b iha ihb => rw [Derivation.yield, iha, ihb, Derivation.chunks, List.flatMap_append]
  | left a ih => exact ih
  | right b ih => exact ih
  | none => rfl
  | some a ih => exact ih
  | nil => rfl
  | cons a more iha ihmore =>
      rw [Derivation.yield, iha, ihmore, Derivation.chunks, List.flatMap_append]
  | rule a ih => exact ih
  | body run _ => exact (List.append_nil run).symm
  | value run _ => exact (List.append_nil run).symm

/-- The leaves of the tree are those of the chunks. -/
theorem leavesAll_eq_chunks (d : Derivation e) :
    leavesAll (d.trees source) = leavesAll (d.chunks.flatMap (Chunk.trees source)) := by
  induction d with
  | token t _ => rfl
  | seq a b iha ihb =>
      rw [Derivation.trees, Derivation.chunks, List.flatMap_append, leavesAll_append,
        leavesAll_append, iha, ihb]
  | left a ih => exact ih
  | right b ih => exact ih
  | none => rfl
  | some a ih => exact ih
  | nil => rfl
  | cons a more iha ihmore =>
      rw [Derivation.trees, Derivation.chunks, List.flatMap_append, leavesAll_append,
        leavesAll_append, iha, ihmore]
  | rule a ih =>
      rw [Derivation.trees, leavesAll_cons, leaves_node, leavesAll_nil, List.append_nil]
      exact ih
  | body run _ => rw [Derivation.chunks, List.flatMap_singleton]; rfl
  | value run _ => rw [Derivation.chunks, List.flatMap_singleton]; rfl

/-- A leaf of a derivation is one of the leaves of a chunk. -/
theorem exists_chunk (d : Derivation e) {u : Token} (hu : u ∈ leavesAll (d.trees source)) :
    ∃ before c behind, d.chunks = before ++ c :: behind ∧ u ∈ leavesAll (c.trees source) := by
  have hmem {cs : List Chunk} (hu : u ∈ leavesAll (cs.flatMap (Chunk.trees source))) :
      ∃ c ∈ cs, u ∈ leavesAll (c.trees source) := by
    induction cs with
    | nil => exact absurd hu List.not_mem_nil
    | cons c cs ih =>
        rw [List.flatMap_cons, leavesAll_append] at hu
        rcases List.mem_append.mp hu with hu | hu
        · exact ⟨c, List.mem_cons_self, hu⟩
        · obtain ⟨c', hc', hu⟩ := ih hu
          exact ⟨c', List.mem_cons_of_mem c hc', hu⟩
  rw [leavesAll_eq_chunks] at hu
  obtain ⟨c, hc, hu⟩ := hmem hu
  obtain ⟨before, behind, hchunks⟩ := List.append_of_mem hc
  exact ⟨before, c, behind, hchunks, hu⟩

/-- Each chunk of a derivation is a single token or a region of the grammar. -/
theorem chunk_isRegion (d : Derivation e) : ∀ c ∈ d.chunks, c.IsRegion := by
  induction d with
  | token t _ => simp [Derivation.chunks, Chunk.IsRegion]
  | seq a b iha ihb =>
      intro c hc
      rcases List.mem_append.mp hc with hc | hc
      · exact iha c hc
      · exact ihb c hc
  | left a ih => exact ih
  | right b ih => exact ih
  | none => exact fun c hc => absurd hc List.not_mem_nil
  | some a ih => exact ih
  | nil => exact fun c hc => absurd hc List.not_mem_nil
  | cons a more iha ihmore =>
      intro c hc
      rcases List.mem_append.mp hc with hc | hc
      · exact iha c hc
      · exact ihmore c hc
  | rule a ih => exact ih
  | body run hrun =>
      intro c hc
      rw [List.mem_singleton.mp hc]
      exact hrun
  | value run hrun =>
      intro c hc
      rw [List.mem_singleton.mp hc]
      exact hrun

end Chunks

/-! ## What the grammar looks at -/

/-- The phrase itself tells tokens apart by kind and text alone. -/
def Phrase.Textual : Phrase → Prop
  | terminal admits => ∀ t t', t'.kind = t.kind → t'.text = t.text → admits t = true → admits t' = true
  | seq e f => e.Textual ∧ f.Textual
  | alt e f => e.Textual ∧ f.Textual
  | opt e => e.Textual
  | many e => e.Textual
  | rule _ => True
  | body => True
  | value => True

namespace Phrase

variable {e f : Phrase}

@[simp] theorem textual_terminal {admits : Token → Bool} :
    (terminal admits).Textual ↔
      ∀ t t', t'.kind = t.kind → t'.text = t.text → admits t = true → admits t' = true := Iff.rfl

@[simp] theorem textual_kind (k : TokenKind) : (kind k).Textual := by
  intro t t' hkind _ ht
  simpa only [Token.isKind, hkind] using ht

@[simp] theorem textual_ident : ident.Textual := textual_kind .identifier

@[simp] theorem textual_mark (text : String) : (mark text).Textual := by
  intro t t' hkind htext ht
  simpa only [Token.isMark, hkind, htext] using ht

@[simp] theorem textual_append : (e ++ f).Textual ↔ e.Textual ∧ f.Textual := Iff.rfl

@[simp] theorem textual_or : (e ||| f).Textual ↔ e.Textual ∧ f.Textual := Iff.rfl

@[simp] theorem textual_opt : (opt e).Textual ↔ e.Textual := Iff.rfl

@[simp] theorem textual_many : (many e).Textual ↔ e.Textual := Iff.rfl

@[simp] theorem textual_rule (r : Rule) : (rule r).Textual := trivial

@[simp] theorem textual_body : body.Textual := trivial

@[simp] theorem textual_value : value.Textual := trivial

end Phrase

/-- The grammar looks at kinds and texts of tokens only, never at where they stand. -/
theorem production_textual (r : Rule) : (Phrase.production r).Textual := by
  cases r <;>
    simp only [Phrase.production, Phrase.typeDecl, Phrase.member, Phrase.textual_append,
      Phrase.textual_or, Phrase.textual_opt, Phrase.textual_many, Phrase.textual_rule,
      Phrase.textual_kind, Phrase.textual_ident, Phrase.textual_mark, Phrase.textual_body,
      Phrase.textual_value, Phrase.textual_terminal, Phrase.modifierWord, Phrase.accessorWord,
      Phrase.defaultWord, Token.isKind, and_self, true_and, and_true] <;>
    grind

/-- Lists that correspond are cut where one of them is. -/
theorem forall₂_append_left {α β : Type} {R : α → β → Prop} {xs xs' : List α} {ys : List β}
    (h : List.Forall₂ R (xs ++ xs') ys) :
    ∃ zs zs', ys = zs ++ zs' ∧ List.Forall₂ R xs zs ∧ List.Forall₂ R xs' zs' := by
  induction xs generalizing ys with
  | nil => exact ⟨[], ys, rfl, .nil, h⟩
  | cons x xs ih =>
      cases h with | cons hx h =>
      obtain ⟨zs, zs', rfl, hzs, hzs'⟩ := ih h
      exact ⟨_ :: zs, zs', rfl, .cons hx hzs, hzs'⟩

/-- A derivation carries over to chunks like its own. -/
theorem exists_alike {source source' : List Char} {e : Phrase} (he : e.Textual) (d : Derivation e)
    {cs : List Chunk} (hcs : List.Forall₂ (Chunk.Alike source source') d.chunks cs) :
    ∃ d' : Derivation e, d'.chunks = cs ∧
      (d'.trees source').map bare = (d.trees source).map bare := by
  induction d generalizing cs with
  | token t ht =>
      cases hcs with | cons hc hnil =>
      cases hnil
      cases hc with
      | @token _ t' kind_eq text_eq =>
          refine ⟨.token t' (he t t' kind_eq text_eq ht), rfl, ?_⟩
          simp only [Derivation.trees, List.map_cons, List.map_nil, bare_leaf]
          rw [Token.bare_congr kind_eq text_eq]
  | seq a b iha ihb =>
      obtain ⟨cs, cs', rfl, hcs, hcs'⟩ := forall₂_append_left hcs
      obtain ⟨a', hchunks, hbare⟩ := iha he.1 hcs
      obtain ⟨b', hchunks', hbare'⟩ := ihb he.2 hcs'
      refine ⟨.seq a' b', by rw [Derivation.chunks, hchunks, hchunks'], ?_⟩
      simp only [Derivation.trees, List.map_append, hbare, hbare']
  | left a ih =>
      obtain ⟨a', hchunks, hbare⟩ := ih he.1 hcs
      exact ⟨.left a', hchunks, hbare⟩
  | right b ih =>
      obtain ⟨b', hchunks, hbare⟩ := ih he.2 hcs
      exact ⟨.right b', hchunks, hbare⟩
  | none =>
      cases hcs
      exact ⟨.none, rfl, rfl⟩
  | some a ih =>
      obtain ⟨a', hchunks, hbare⟩ := ih he hcs
      exact ⟨.some a', hchunks, hbare⟩
  | nil =>
      cases hcs
      exact ⟨.nil, rfl, rfl⟩
  | cons a more iha ihmore =>
      obtain ⟨cs, cs', rfl, hcs, hcs'⟩ := forall₂_append_left hcs
      obtain ⟨a', hchunks, hbare⟩ := iha he hcs
      obtain ⟨more', hchunks', hbare'⟩ := ihmore he hcs'
      refine ⟨.cons a' more', by rw [Derivation.chunks, hchunks, hchunks'], ?_⟩
      simp only [Derivation.trees, List.map_append, hbare, hbare']
  | @rule r a ih =>
      obtain ⟨a', hchunks, hbare⟩ := ih (production_textual r) hcs
      refine ⟨.rule a', hchunks, ?_⟩
      simp only [Derivation.trees, List.map_cons, List.map_nil, bare_node, hbare]
  | body run hrun =>
      cases hcs with | cons hc hnil =>
      cases hnil
      cases hc with
      | @body _ run' isBody bare_eq => exact ⟨.body run' isBody, rfl, bare_eq⟩
  | value run hrun =>
      cases hcs with | cons hc hnil =>
      cases hnil
      cases hc with
      | @value _ run' isValue bare_eq => exact ⟨.value run' isValue, rfl, bare_eq⟩

/-! ## Moved chunks -/

section Moving

variable {f : Token → Token} {run : List Token}

theorem isMark_map (hf : ∀ t, (f t).kind = t.kind ∧ (f t).text = t.text) (t : Token) (text : String) :
    (f t).isMark text = t.isMark text := by
  rw [Token.isMark, Token.isMark, (hf t).1, (hf t).2]

/-- What begins the image of a run is the image of what begins the run. -/
theorem exists_prefix_map {shorter : List Token} (h : shorter <+: run.map f) :
    ∃ front, front <+: run ∧ shorter = front.map f := by
  refine ⟨run.take shorter.length, List.take_prefix _ _, ?_⟩
  rw [List.map_take]
  exact List.prefix_iff_eq_take.mp h

theorem balanced_map (hf : ∀ t, (f t).kind = t.kind ∧ (f t).text = t.text) :
    Balanced (run.map f) ↔ Balanced run := by
  have hmark (text : String) : (Token.isMark text ∘ f) = Token.isMark text :=
    funext fun t => isMark_map hf t text
  rw [Balanced, Balanced, List.countP_map, List.countP_map, hmark, hmark]

/-- A body stays one if its tokens keep their kinds and texts. -/
theorem isBody_map (hf : ∀ t, (f t).kind = t.kind ∧ (f t).text = t.text) (h : IsBody run) :
    IsBody (run.map f) where
  opens := by
    simp only [List.head?_map, Option.any_map, isMark_map hf]
    exact h.opens
  balanced := (balanced_map hf).mpr h.balanced
  shortest := by
    intro shorter hpre hne hbal
    obtain ⟨front, hfront, rfl⟩ := exists_prefix_map hpre
    rw [h.shortest front hfront (by simpa using hne) ((balanced_map hf).mp hbal)]

theorem endsValue_map (hf : ∀ t, (f t).kind = t.kind ∧ (f t).text = t.text) (front : List Token)
    (t : Token) : EndsValue (front.map f) (f t) ↔ EndsValue front t := by
  have hcount (depth : Nat) (t : Token) : countBracket depth (f t) = countBracket depth t := by
    simp only [countBracket, isMark_map hf]
  rw [EndsValue, EndsValue, isMark_map hf, bracketDepth, bracketDepth, List.foldl_map]
  simp only [hcount]

/-- So does a value. -/
theorem isValue_map (hf : ∀ t, (f t).kind = t.kind ∧ (f t).text = t.text) (h : IsValue run) :
    IsValue (run.map f) where
  begins := by
    simp only [List.head?_map, Option.any_map, isMark_map hf]
    exact h.begins
  ends := by
    obtain ⟨front, last, hrun, hends⟩ := h.ends
    refine ⟨front.map f, f last, by simp [hrun], (endsValue_map hf front last).mpr hends⟩
  first := by
    intro front t hpre hends
    obtain ⟨before, hbefore, heq⟩ := exists_prefix_map hpre
    obtain ⟨front, more, rfl, rfl, hmore⟩ := List.map_eq_append_iff.mp heq.symm
    obtain ⟨u, hu, rfl⟩ := List.map_eq_singleton_iff.mp hmore
    subst hu
    rw [← h.first front u hbefore ((endsValue_map hf front u).mp hends)]
    simp

variable {kind : TokenKind} {front front' back back' : List Char}

theorem mem_of_head?_getLast? {first last : Token} (hfirst : run.head? = some first)
    (hlast : run.getLast? = some last) : first ∈ run ∧ last ∈ run :=
  ⟨List.mem_of_head? hfirst, List.mem_of_getLast? hlast⟩

/-- The leaf of a run within a front does not depend on what follows the front. -/
theorem runLeaf_front (hrun : ∀ t ∈ run, t.span.start ≤ t.span.stop ∧
      t.span.stop ≤ Text.byteLength front) (back : List Char) :
    runLeaf (front ++ back) kind run = runLeaf front kind run := by
  unfold runLeaf
  split
  · rename_i first last hfirst hlast
    obtain ⟨hmem, hmem'⟩ := mem_of_head?_getLast? hfirst hlast
    have hspan := hrun first hmem
    have hspan' := hrun last hmem'
    have hslice : (first.span.union last.span).slice (front ++ back) =
        (first.span.union last.span).slice front := by
      apply Span.slice_front
      · simp only [Span.union]
        omega
      · simp only [Span.union]
        omega
    rw [regionLeaf, regionLeaf, hslice]
  · rfl

/-- The leaf of a run that is moved along with the text looks the same when bare. -/
theorem bare_runLeaf_move (hrun : ∀ t ∈ run, Text.byteLength front ≤ t.span.start)
    (front' back : List Char) :
    (runLeaf (front' ++ back) kind
      (run.map (Token.move (Text.byteLength front) (Text.byteLength front')))).map bare =
      (runLeaf (front ++ back) kind run).map bare := by
  unfold runLeaf
  rw [List.head?_map, List.getLast?_map]
  cases hfirst : run.head? with
  | none => rfl
  | some first =>
      cases hlast : run.getLast? with
      | none => rfl
      | some last =>
          obtain ⟨hmem, hmem'⟩ := mem_of_head?_getLast? hfirst hlast
          have hstart := hrun first hmem
          have hstart' := hrun last hmem'
          have hunion : Text.byteLength front ≤ (first.span.union last.span).start := by
            simp only [Span.union]
            omega
          simp only [Option.map_some, regionLeaf, Token.move_span, List.map_cons, List.map_nil,
            bare_leaf]
          rw [← Span.move_union, Span.slice_move hunion]
          congr 2

namespace Chunk

/-- Moving the tokens of a chunk moves its run. -/
theorem run_map (f : Token → Token) (c : Chunk) : (c.map f).run = c.run.map f := by
  cases c with
  | token t => rfl
  | body run => rfl
  | value run => rfl

theorem flatMap_run_map (f : Token → Token) (cs : List Chunk) :
    (cs.map (Chunk.map f)).flatMap Chunk.run = (cs.flatMap Chunk.run).map f := by
  rw [List.flatMap_map, List.map_flatMap]
  congr 1
  funext c
  exact run_map f c

/-- A chunk within a front is like itself, whatever follows the front. -/
theorem alike_front {c : Chunk} (hc : c.IsRegion)
    (hrun : ∀ t ∈ c.run, t.span.start ≤ t.span.stop ∧ t.span.stop ≤ Text.byteLength front) :
    Alike (front ++ back) (front ++ back') c c := by
  cases c with
  | token t => exact .token rfl rfl
  | body run =>
      refine .body hc ?_
      rw [Chunk.run] at hrun
      rw [runLeaf_front hrun, runLeaf_front hrun]
  | value run =>
      refine .value hc ?_
      rw [Chunk.run] at hrun
      rw [runLeaf_front hrun, runLeaf_front hrun]

/-- A chunk behind a front is like itself when it is moved along with the text. -/
theorem alike_move {c : Chunk} (hc : c.IsRegion)
    (hrun : ∀ t ∈ c.run, Text.byteLength front ≤ t.span.start) :
    Alike (front ++ back) (front' ++ back) c
      (c.map (Token.move (Text.byteLength front) (Text.byteLength front'))) := by
  cases c with
  | token t => exact .token rfl rfl
  | body run => exact .body (isBody_map (fun t => ⟨rfl, rfl⟩) hc) (bare_runLeaf_move hrun front' back)
  | value run =>
      exact .value (isValue_map (fun t => ⟨rfl, rfl⟩) hc) (bare_runLeaf_move hrun front' back)

end Chunk

end Moving

/-! ## Bodies in braces -/

section Braces

open Text

/-- Tokens in which braces balance, each closed no sooner than it was opened, fill a body. -/
theorem isBody_of_balanced {opening closing : Token} {inner : List Token}
    (hopen : opening.isMark "\x7b" = true) (hclose : closing.isMark "\x7d" = true)
    (hinside : StaysInside 0 inner) (hbalanced : Balanced inner) :
    IsBody (opening :: (inner ++ [closing])) := by
  refine isBody_iff.mpr ⟨opening, inner, closing, rfl, hopen, hclose, hinside, ?_⟩
  rw [Nat.zero_add]
  exact hbalanced

/-- The span from one brace to the other. -/
theorem union_braces (base size : Nat) :
    (Token.placed base .punctuation ['\x7b']).span.union
      (Token.placed (base + 1 + size) .punctuation ['\x7d']).span = ⟨base, base + 1 + size + 1⟩ := by
  have hopen : byteLength ['\x7b'] = 1 := rfl
  have hclose : byteLength ['\x7d'] = 1 := rfl
  simp only [Token.placed, Span.union, hopen, hclose, Span.mk.injEq]
  omega

/-- A leaf for a text in braces looks like any other when bare. -/
theorem bare_runLeaf_body (front middle back : List Char) (inner : List Token) :
    (runLeaf (front ++ '\x7b' :: (middle ++ '\x7d' :: back)) .body
      (.placed (byteLength front) .punctuation ['\x7b'] :: (inner ++
        [.placed (byteLength front + 1 + byteLength middle) .punctuation ['\x7d']]))).map bare =
      [.leaf ⟨.body, "", Span.empty⟩] := by
  have hslice : (⟨byteLength front, byteLength front + 1 + byteLength middle + 1⟩ : Span).slice
      (front ++ '\x7b' :: (middle ++ '\x7d' :: back)) = '\x7b' :: (middle ++ ['\x7d']) := by
    have hbetween := Span.slice_between front ('\x7b' :: (middle ++ ['\x7d'])) back
    have hlength : byteLength ('\x7b' :: (middle ++ ['\x7d'])) = 1 + byteLength middle + 1 := by
      simp only [byteLength_cons, byteLength_append, byteLength_nil]
      rfl
    simpa [hlength, Nat.add_assoc] using hbetween
  have htext : String.ofList ('\x7b' :: (middle ++ ['\x7d'])) ≠ "=" := by
    intro h
    have hlist := congrArg String.toList h
    rw [String.toList_ofList] at hlist
    exact absurd (List.cons.inj hlist).1 (by decide)
  rw [runLeaf_cons_concat, regionLeaf]
  simp only [union_braces, hslice, List.map_cons, List.map_nil, bare_leaf, Token.bare, htext, ne_eq,
    not_false_eq_true, and_self, if_true]

end Braces

end ClassChart.Grammar

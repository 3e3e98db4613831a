/-
# ClassChart.Proofs.Grammar.Tight — types need no blanks

The tokens of a type are names and marks, and between two names there is always a mark. So the text of a
type, which is that of its tokens with nothing between them, falls apart into the same tokens again.
-/
import ClassChart.Proofs.Grammar.Derivation
import ClassChart.Proofs.Token.Word

namespace ClassChart.Grammar

/-! ## Marks -/

/-- All tokens of the phrase are firm marks. -/
def Phrase.Firm (e : Phrase) : Prop := ∀ (d : Derivation e), ∀ t ∈ d.yield, IsFirm t

namespace Phrase.Firm

variable {e f : Phrase}

theorem mark {c : Char} {text : String} (htext : text.toList = [c]) (hc : c ∈ Lexeme.marks)
    (hequals : c ≠ '=') : (Phrase.mark text).Firm := by
  intro d t ht
  obtain ⟨u, hu, rfl⟩ := d.exists_token
  obtain rfl := List.mem_singleton.mp ht
  simp only [Token.isMark, Bool.and_eq_true, beq_iff_eq] at hu
  exact ⟨hu.1, c, hc, hequals, by rw [hu.2, htext]⟩

theorem append (he : e.Firm) (hf : f.Firm) : (e ++ f).Firm := by
  intro d t ht
  obtain ⟨a, b, rfl⟩ := d.exists_seq
  exact (List.mem_append.mp ht).elim (he a t) (hf b t)

theorem opt (he : e.Firm) : (Phrase.opt e).Firm := by
  intro d t ht
  rcases d.none_or_some with rfl | ⟨a, rfl⟩
  · exact absurd ht List.not_mem_nil
  · exact he a t ht

theorem many (he : e.Firm) : (Phrase.many e).Firm := by
  intro d t ht
  induction d using Derivation.many_induction with
  | nil => exact absurd ht List.not_mem_nil
  | cons a more ih => exact (List.mem_append.mp ht).elim (he a t) ih

end Phrase.Firm

/-- The tokens begin with a firm mark, if there are any. -/
def FirmHead (ts : List Token) : Prop := ∀ t ∈ ts.head?, IsFirm t

/-- The names among the tokens are names when they stand alone. -/
def Named (ts : List Token) : Prop := ∀ t ∈ ts, t.kind = .identifier → IsToken .identifier t.text

/-! ## Types -/

section Types

variable {ts rest : List Token}

theorem tight_append (hts : ∀ t ∈ ts, IsFirm t) (hrest : Tight rest) : Tight (ts ++ rest) := by
  induction ts with
  | nil => exact hrest
  | cons t ts ih =>
      exact .mark (hts t List.mem_cons_self) (ih fun u hu => hts u (List.mem_cons_of_mem t hu))

theorem firmHead_append (hts : ∀ t ∈ ts, IsFirm t) (hrest : FirmHead rest) : FirmHead (ts ++ rest) := by
  cases ts with
  | nil => exact hrest
  | cons t ts =>
      rintro u ⟨⟩
      exact hts t List.mem_cons_self

theorem Named.append (h : Named (ts ++ rest)) : Named ts ∧ Named rest :=
  ⟨fun t ht => h t (List.mem_append_left _ ht), fun t ht => h t (List.mem_append_right _ ht)⟩

theorem firm_comma : (Phrase.mark ",").Firm := .mark rfl (by decide) (by decide)

/-- What goes on with a type behind its name and arguments. -/
theorem firm_ranks : (Phrase.opt (.mark "?") ++ .many (.mark "[" ++ .many (.mark ",") ++ .mark "]")).Firm :=
  have question : (Phrase.mark "?").Firm := .mark rfl (by decide) (by decide)
  have opening : (Phrase.mark "[").Firm := .mark rfl (by decide) (by decide)
  have closing : (Phrase.mark "]").Firm := .mark rfl (by decide) (by decide)
  question.opt.append ((opening.append firm_comma.many).append closing).many

/-- Types are tight before a firm mark, as far as their tokens number less than a bound. -/
def TightBelow (size : Nat) : Prop :=
  ∀ (d : Derivation (.rule .typeName)) (rest : List Token), d.yield.length < size → Named d.yield →
    Tight rest → FirmHead rest → Tight (d.yield ++ rest)

/-- Types with a comma behind each are tight before anything that is. -/
theorem TightBelow.many {size : Nat} (h : TightBelow size)
    (d : Derivation (.many (.rule .typeName ++ .mark ","))) (hsize : d.yield.length < size)
    (hnamed : Named d.yield) (hrest : Tight rest) : Tight (d.yield ++ rest) := by
  induction d using Derivation.many_induction with
  | nil => exact hrest
  | cons a more ih =>
      obtain ⟨ty, comma, rfl⟩ := a.exists_seq
      have hcomma := firm_comma comma
      obtain ⟨t, ht, rfl⟩ := comma.exists_token
      simp only [Derivation.yield, List.append_assoc, List.length_append, List.cons_append,
        List.nil_append] at hsize hnamed hcomma ⊢
      obtain ⟨htype, hmore⟩ := hnamed.append
      have hfirm : IsFirm t := hcomma t List.mem_cons_self
      refine h ty _ (by omega) htype (.mark hfirm (ih ?_ ?_)) ?_
      · simp only [List.length_cons] at hsize
        omega
      · exact fun u hu => hmore u (List.mem_cons_of_mem t hu)
      · rintro u ⟨⟩
        exact hfirm

/-- In a type no name stands behind another. -/
theorem tightBelow (size : Nat) : TightBelow size := by
  induction size with
  | zero => exact fun d rest hsize => absurd hsize (Nat.not_lt_zero _)
  | succ size ih =>
      intro d rest hsize hnamed hrest hhead
      obtain ⟨a, rfl⟩ := d.exists_rule
      obtain ⟨a, ranks, rfl⟩ := a.exists_seq
      obtain ⟨base, question, rfl⟩ := a.exists_seq
      have hranks := firm_ranks (.seq question ranks)
      have hmore := tight_append hranks hrest
      have hnext := firmHead_append hranks hhead
      simp only [Derivation.yield, List.append_assoc] at hsize hnamed hmore hnext ⊢
      rcases base.left_or_right with ⟨b, rfl⟩ | ⟨b, rfl⟩
      · obtain ⟨t, ht, rfl⟩ := b.exists_token
        have hkind : t.kind = .identifier := eq_of_beq ht
        exact .name hkind (hnamed t List.mem_cons_self hkind) hnext hmore
      · -- Each type among the arguments is followed by a mark, and so is the name before them.
        obtain ⟨name, arguments, rfl⟩ := b.exists_seq
        obtain ⟨t, ht, rfl⟩ := name.exists_token
        obtain ⟨arguments, closing, rfl⟩ := arguments.exists_seq
        obtain ⟨opening, arguments, rfl⟩ := arguments.exists_seq
        obtain ⟨others, last, rfl⟩ := arguments.exists_seq
        have hopening := Phrase.Firm.mark (c := '<') rfl (by decide) (by decide) opening
        have hclosing := Phrase.Firm.mark (c := '>') rfl (by decide) (by decide) closing
        obtain ⟨u, hu, rfl⟩ := opening.exists_token
        obtain ⟨v, hv, rfl⟩ := closing.exists_token
        simp only [Derivation.yield, List.append_assoc, List.cons_append, List.nil_append,
          List.length_cons, List.length_append] at hsize hnamed hopening hclosing ⊢
        have hkind : t.kind = .identifier := eq_of_beq ht
        have hname := hnamed t List.mem_cons_self hkind
        have hfirm : IsFirm u := hopening u List.mem_cons_self
        have hfirm' : IsFirm v := hclosing v List.mem_cons_self
        have hinner : Named (others.yield ++ (last.yield ++ _)) := fun x hx =>
          hnamed x (List.mem_cons_of_mem t (List.mem_cons_of_mem u hx))
        have hlast : Tight (last.yield ++ v :: (question.yield ++ (ranks.yield ++ rest))) := by
          refine ih last _ (by omega) hinner.append.2.append.1 (.mark hfirm' hmore) ?_
          rintro x ⟨⟩
          exact hfirm'
        refine .name hkind hname ?_ (.mark hfirm (ih.many others (by omega) hinner.append.1 hlast))
        rintro x ⟨⟩
        exact hfirm

/-- The tokens of a type are tight, if its names are names when they stand alone. -/
theorem tight_type (a : Derivation (.production .typeName)) (h : Named a.yield) : Tight a.yield := by
  have htight := tightBelow (a.yield.length + 1) (.rule a) [] (Nat.lt_succ_self _) h .nil nofun
  rwa [List.append_nil] at htight

end Types

end ClassChart.Grammar

/-
# ClassChart.Proofs.Grammar.Plain — phrases without regions

Most rules derive no body and no value, neither themselves nor through rules inside them. The leaves of
such a derivation are exactly the tokens that are derived.
-/
import ClassChart.Proofs.Grammar.Shape

namespace ClassChart.Grammar

open ClassChart.Tree

/-- Whether no region stands anywhere inside the rule. -/
def isPlainRule : Rule → Bool
  | .importDecl | .enumBody | .enumValue | .baseList | .modifier | .returnType | .params | .param
  | .defaultValue | .typeName => true
  | _ => false

/-- Whether no region stands anywhere inside the phrase. -/
def Phrase.isPlain : Phrase → Bool
  | terminal _ => true
  | seq e f => e.isPlain && f.isPlain
  | alt e f => e.isPlain && f.isPlain
  | opt e => e.isPlain
  | many e => e.isPlain
  | rule r => isPlainRule r
  | body => false
  | value => false

theorem production_isPlain {r : Rule} (hr : isPlainRule r = true) :
    (Phrase.production r).isPlain = true := by
  cases r <;> first | rfl | cases hr

section Plain

variable {source : List Char} {e : Phrase}

/-- A derivation without regions has the tokens that are derived as its leaves. -/
theorem leavesAll_plain (he : e.isPlain = true) (d : Derivation e) :
    leavesAll (d.trees source) = d.yield := by
  induction d with
  | token t _ => rfl
  | seq a b iha ihb =>
      obtain ⟨hleft, hright⟩ := Bool.and_eq_true_iff.mp he
      rw [Derivation.trees, leavesAll_append, iha hleft, ihb hright, Derivation.yield]
  | left a ih => exact ih (Bool.and_eq_true_iff.mp he).1
  | right b ih => exact ih (Bool.and_eq_true_iff.mp he).2
  | none => rfl
  | some a ih => exact ih he
  | nil => rfl
  | cons a more iha ihmore =>
      rw [Derivation.trees, leavesAll_append, iha he, ihmore he, Derivation.yield]
  | rule a ih =>
      rw [Derivation.trees, leavesAll_cons, leaves_node, leavesAll_nil, List.append_nil,
        ih (production_isPlain he), Derivation.yield]
  | body run _ => cases he
  | value run _ => cases he

/-- What holds of every token that plain rules admit holds of every token they derive. -/
theorem mem_yield_plain {P : Token → Prop}
    (hplain : ∀ r, isPlainRule r = true → (Phrase.production r).Admits P) (he : e.isPlain = true)
    (hadmits : e.Admits P) (d : Derivation e) {t : Token} (ht : t ∈ d.yield) : P t := by
  induction d with
  | token u hu =>
      obtain rfl := List.mem_singleton.mp ht
      exact hadmits t hu
  | seq a b iha ihb =>
      obtain ⟨hleft, hright⟩ := Bool.and_eq_true_iff.mp he
      rcases List.mem_append.mp ht with ht | ht
      · exact iha hleft hadmits.1 ht
      · exact ihb hright hadmits.2 ht
  | left a ih => exact ih (Bool.and_eq_true_iff.mp he).1 hadmits.1 ht
  | right b ih => exact ih (Bool.and_eq_true_iff.mp he).2 hadmits.2 ht
  | none => exact absurd ht List.not_mem_nil
  | some a ih => exact ih he hadmits ht
  | nil => exact absurd ht List.not_mem_nil
  | cons a more iha ihmore =>
      rcases List.mem_append.mp ht with ht | ht
      · exact iha he hadmits ht
      · exact ihmore he hadmits ht
  | @rule r a ih => exact ih (production_isPlain he) (hplain r he) ht
  | body run _ => cases he
  | value run _ => cases he

end Plain

end ClassChart.Grammar

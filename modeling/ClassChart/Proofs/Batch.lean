/-
# ClassChart.Proofs.Batch — what a batch gives, unit by unit

A batch keeps its units apart. The units whose text has a model and those whose text has none are two
parts of the input, each in input order: the first part alone decides the model, the second alone the
failures. So a unit that fails cannot disturb another one, and no failure is ever one that a batch must not
pass over. Nothing is known of the workers that parse the units but that their pool can be made and that
they hand in their results in order; then it does not matter how many they are.

A single text and a batch of that text alone agree, as long as no mark stands behind the first one: the
text of a unit has lost its mark before it is parsed, and parsing takes away a mark as well.
-/
import ClassChart.Batch
import ClassChart.Proofs.Extract.Total

namespace ClassChart

/-! ## Lists of results -/

section Results

variable {ε α β : Type} (f : α → Except ε β)

theorem successes_append (results others : List (Except ε β)) :
    successes (results ++ others) = successes results ++ successes others :=
  List.filterMap_append

theorem errors_append (results others : List (Except ε β)) :
    errors (results ++ others) = errors results ++ errors others :=
  List.filterMap_append

/-- The successes are, in order, the results of the inputs that succeed. -/
theorem forall₂_successes (xs : List α) :
    List.Forall₂ (fun x y => f x = .ok y) (xs.filter fun x => (f x).isOk) (successes (xs.map f)) := by
  induction xs with
  | nil => exact .nil
  | cons x xs ih =>
      rw [List.filter_cons, List.map_cons]
      cases hx : f x with
      | ok y => exact .cons hx ih
      | error e => exact ih

/-- The errors are, in order, the results of the other inputs. -/
theorem forall₂_errors (xs : List α) :
    List.Forall₂ (fun x e => f x = .error e) (xs.filter fun x => !(f x).isOk) (errors (xs.map f)) := by
  induction xs with
  | nil => exact .nil
  | cons x xs ih =>
      rw [List.filter_cons, List.map_cons]
      cases hx : f x with
      | ok y => exact ih
      | error e => exact .cons hx ih

/-- Inputs that fail may be left out: the successes stay, and no errors are left. -/
theorem successes_filter (xs : List α) :
    successes ((xs.filter fun x => (f x).isOk).map f) = successes (xs.map f) ∧
      errors ((xs.filter fun x => (f x).isOk).map f) = [] := by
  induction xs with
  | nil => exact ⟨rfl, rfl⟩
  | cons x xs ih =>
      rw [List.filter_cons, List.map_cons]
      cases hx : f x with
      | ok y =>
          refine ⟨?_, ?_⟩
          · show successes (f x :: _) = y :: successes (xs.map f)
            rw [hx, ← ih.1]
            rfl
          · show errors (f x :: _) = []
            rw [hx, ← ih.2]
            rfl
      | error e => exact ih

end Results

/-! ## Units -/

section Units

variable {settings : Settings} {unit : SourceUnit}

/-- Whether the text of the unit has a model under the settings. -/
def SourceUnit.isAccepted (settings : Settings) (unit : SourceUnit) : Bool :=
  (parse settings.defaultValues unit.text).isOk

/-- The failure is that of the unit: its name, its text, and what the text is answered with. -/
structure UnitFailure.IsOf (settings : Settings) (unit : SourceUnit) (failure : UnitFailure) : Prop where
  name_eq : failure.name = unit.name
  source_eq : failure.source = unit.text
  error_eq : parse settings.defaultValues unit.text = .error failure.error

theorem isOk_extract : (unit.extract settings).isOk = unit.isAccepted settings := by
  unfold SourceUnit.extract SourceUnit.isAccepted
  cases parse settings.defaultValues unit.text with
  | ok result => rfl
  | error error => rfl

theorem parse_of_extract {result : Model × List Warning} (h : unit.extract settings = .ok result) :
    parse settings.defaultValues unit.text = .ok result := by
  unfold SourceUnit.extract at h
  split at h
  · rename_i found hparse
    cases h
    exact hparse
  · cases h

theorem isOf_of_extract {failure : UnitFailure} (h : unit.extract settings = .error failure) :
    failure.IsOf settings unit := by
  unfold SourceUnit.extract at h
  split at h
  · cases h
  · rename_i error hparse
    cases h
    exact ⟨rfl, rfl, hparse⟩

/-- A unit fails on its text and on nothing else. -/
theorem UnitFailure.IsOf.not_internal {failure : UnitFailure} (h : failure.IsOf settings unit) :
    failure.isInternal = false := by
  unfold UnitFailure.isInternal
  rw [List.any_eq_false]
  intro d hd hmissing
  exact Extract.parse_error_code h.error_eq hd (eq_of_beq hmissing)

end Units

/-! ## Batches -/

section Batches

variable (settings : Settings) (units : List SourceUnit)

theorem filter_isOk_extract :
    (units.filter fun unit => (unit.extract settings).isOk) =
      units.filter (SourceUnit.isAccepted settings) :=
  List.filter_congr fun _ _ => isOk_extract

theorem forall₂_failures :
    List.Forall₂ (UnitFailure.IsOf settings) (units.filter fun unit => !unit.isAccepted settings)
      (extractUnits settings units).failures := by
  have hfailures := forall₂_errors (SourceUnit.extract settings) units
  simp only [isOk_extract] at hfailures
  exact hfailures.imp fun unit failure => isOf_of_extract

/-- The model of a batch is put together from the models of the accepted units. -/
theorem exists_models :
    ∃ models : List Model,
      List.Forall₂ (fun unit model => ∃ warnings,
          parse settings.defaultValues unit.text = .ok (model, warnings))
        (units.filter (SourceUnit.isAccepted settings)) models ∧
      (extractUnits settings units).model =
        if settings.merge then (Model.merge models.flatten).1 else models.flatten := by
  have hparsed := forall₂_successes (SourceUnit.extract settings) units
  rw [filter_isOk_extract] at hparsed
  refine ⟨(successes (units.map (·.extract settings))).map (·.1), ?_, ?_⟩
  · refine List.forall₂_map_right_iff.mpr (hparsed.imp ?_)
    intro unit result hresult
    exact ⟨result.2, parse_of_extract hresult⟩
  · show (settings.mergeIfEnabled _).1 = _
    rw [← List.flatMap_def, Settings.mergeIfEnabled]
    split <;> rfl

/-- Without its failed units a batch gives the same model and the same warnings. -/
theorem extractUnits_filter :
    extractUnits settings (units.filter (SourceUnit.isAccepted settings)) =
      { extractUnits settings units with
        failures := []
        total := (units.filter (SourceUnit.isAccepted settings)).length } := by
  obtain ⟨hsuccesses, herrors⟩ := successes_filter (SourceUnit.extract settings) units
  rw [filter_isOk_extract] at hsuccesses herrors
  unfold extractUnits BatchOutput.ofResults
  simp only [hsuccesses, herrors]

/-- The units of a batch may be shared out in any way that keeps their order, each share extracted on its
own and without merging, and what the shares give joined and merged once. -/
theorem extractUnits_flatten (shares : List (List SourceUnit)) :
    (extractUnits settings shares.flatten).failures =
        shares.flatMap (fun share => (extractUnits settings share).failures) ∧
      (extractUnits settings shares.flatten).model = (settings.mergeIfEnabled
        (shares.flatMap fun share => (extractUnits (settings.withMerge false) share).model)).1 := by
  have hshares : (successes (shares.flatten.map (·.extract settings))).flatMap (·.1) =
        shares.flatMap (fun share => (extractUnits (settings.withMerge false) share).model) ∧
      errors (shares.flatten.map (·.extract settings)) =
        shares.flatMap (fun share => (extractUnits settings share).failures) := by
    induction shares with
    | nil => exact ⟨rfl, rfl⟩
    | cons share shares ih =>
        rw [List.flatten_cons, List.map_append, successes_append, errors_append, List.flatMap_append,
          ih.1, ih.2]
        exact ⟨rfl, rfl⟩
  refine ⟨hshares.2, ?_⟩
  show (settings.mergeIfEnabled _).1 = _
  rw [hshares.1]

/-! ## Workers -/

variable {pool : WorkerPool}

/-- The one worker that is always there needs no pool, and keeps the order. -/
theorem sequential_creates_keepsOrder :
    WorkerPool.sequential.Creates ∧ WorkerPool.sequential.KeepsOrder :=
  ⟨fun _ => rfl, fun _ _ _ => rfl⟩

/-- Workers that keep the order give what one of them gives alone, once their pool can be made. -/
theorem extractUnitsOn_eq (h : pool.KeepsOrder) :
    extractUnitsOn pool settings units = match settings.workerCount? with
      | some count => (pool.create count).map fun _ => extractUnits settings units
      | none => .ok (extractUnits settings units) := by
  unfold extractUnitsOn extractUnits
  cases settings.workerCount? with
  | none =>
      rw [h]
      rfl
  | some count =>
      have hcollect := h (some count) (SourceUnit.extract settings) units
      simp only [hcollect]
      cases pool.create count <;> rfl

/-- If every pool can be made, such workers always give something. -/
theorem extractUnitsOn_of_creates (hcreates : pool.Creates) (h : pool.KeepsOrder) :
    extractUnitsOn pool settings units = .ok (extractUnits settings units) := by
  rw [extractUnitsOn_eq settings units h]
  cases settings.workerCount? with
  | none => rfl
  | some count =>
      simp only [hcreates count]
      rfl

/-- What they give, if anything, does not depend on how many they are. -/
theorem eq_extractUnits_of_ok {settings : Settings} {units : List SourceUnit} (h : pool.KeepsOrder)
    {output : BatchOutput} (houtput : extractUnitsOn pool settings units = .ok output) :
    output = extractUnits settings units := by
  rw [extractUnitsOn_eq settings units h] at houtput
  split at houtput
  · rename_i count _
    cases hcreate : pool.create count with
    | ok made =>
        rw [hcreate] at houtput
        exact (Except.ok.inj houtput).symm
    | error reason =>
        rw [hcreate] at houtput
        cases houtput
  · exact (Except.ok.inj houtput).symm

/-- A batch fails as a whole only for want of a pool. -/
theorem extractUnitsOn_eq_error_iff {reason : String} :
    extractUnitsOn pool settings units = .error reason ↔
      ∃ count, settings.workerCount? = some count ∧ pool.create count = .error reason := by
  unfold extractUnitsOn
  cases settings.workerCount? with
  | none => exact ⟨nofun, nofun⟩
  | some count =>
      cases hcreate : pool.create count with
      | ok made => simp [hcreate, bind, Except.bind, pure, Except.pure]
      | error found => simp [hcreate, bind, Except.bind]

end Batches

/-- A batch partitions its units, and bad units cannot disturb it. Its failures are those of the units
whose text is rejected, in input order; its model is that of the others, joined in input order and merged
once if merging is on. Leaving out the rejected units leaves the model alone, and neither the number of
workers nor the way units are shared out among them shows: workers whose pool can be made and who keep the
order give the same, and they fail to give anything only for want of a pool. No failure is internal, so the
lenient exit always gives the model and the failures, and the strict one gives the model exactly when there
is no failure, else all failures and the number of units. -/
theorem extractUnits_partition (settings : Settings) (units : List SourceUnit) :
    let output := extractUnits settings units
    let accepted := units.filter (SourceUnit.isAccepted settings)
    let rejected := units.filter fun unit => !unit.isAccepted settings
    output.total = units.length ∧
    List.Forall₂ (UnitFailure.IsOf settings) rejected output.failures ∧
    (∃ models : List Model,
      List.Forall₂ (fun unit model => ∃ warnings,
        parse settings.defaultValues unit.text = .ok (model, warnings)) accepted models ∧
      output.model = if settings.merge then (Model.merge models.flatten).1 else models.flatten) ∧
    (extractUnits settings accepted).model = output.model ∧
    (∀ workers?, extractUnits { settings with workers? := workers? } units = output) ∧
    (∀ pool : WorkerPool, pool.Creates → pool.KeepsOrder →
      ∀ workers?, extractUnitsOn pool { settings with workers? := workers? } units = .ok output) ∧
    (∀ (pool : WorkerPool) reason, extractUnitsOn pool settings units = .error reason ↔
      ∃ count, settings.workerCount? = some count ∧ pool.create count = .error reason) ∧
    (∀ shares : List (List SourceUnit), shares.flatten = units →
      output.failures = shares.flatMap (fun share => (extractUnits settings share).failures) ∧
      output.model = (settings.mergeIfEnabled
        (shares.flatMap fun share => (extractUnits (settings.withMerge false) share).model)).1) ∧
    (∀ failure ∈ output.failures, failure.isInternal = false) ∧
    output.lenient = .ok (output.model, output.failures) ∧
    output.strict =
      if output.failures = [] then .ok output.model else .error ⟨output.failures, units.length⟩ := by
  intro output accepted rejected
  have hfailures : List.Forall₂ (UnitFailure.IsOf settings) rejected output.failures :=
    forall₂_failures settings units
  have hinternal : ∀ failure ∈ output.failures, failure.isInternal = false := by
    intro failure hfailure
    obtain ⟨unit, _, hof⟩ := Extract.exists_of_forall₂ hfailures hfailure
    exact hof.not_internal
  refine ⟨rfl, hfailures, exists_models settings units, ?_, fun _ => rfl, ?_,
    fun _ _ => extractUnitsOn_eq_error_iff settings units, ?_, hinternal, ?_, ?_⟩
  · show (extractUnits settings (units.filter _)).model = _
    rw [extractUnits_filter]
  · intro pool hcreates horder workers?
    exact extractUnitsOn_of_creates { settings with workers? := workers? } units hcreates horder
  · rintro shares rfl
    exact extractUnits_flatten settings shares
  · have hnone : output.failures.filter (·.isInternal) = [] := by
      refine List.filter_eq_nil_iff.mpr fun failure hfailure => ?_
      rw [hinternal failure hfailure]
      exact Bool.false_ne_true
    unfold BatchOutput.lenient
    simp only [hnone, List.isEmpty_nil, if_true]
  · unfold BatchOutput.strict BatchOutput.isComplete
    simp only [List.isEmpty_iff]
    rfl

/-! ## Single units -/

section Single

variable {settings : Settings} {text : String}

/-- A mark that is gone already makes no difference. -/
theorem parse_stripMark (policy : DefaultPolicy) (hgone : stripMark (stripMark text) = stripMark text) :
    parse policy (stripMark text) = parse policy text := by
  unfold parse
  rw [hgone]

theorem extractUnits_singleton_ok {unit : SourceUnit} {m : Model} {warnings : List Warning}
    (h : parse settings.defaultValues unit.text = .ok (m, warnings)) :
    extractUnits settings [unit] =
      ⟨(settings.mergeIfEnabled m).1, [], 1, warnings ++ (settings.mergeIfEnabled m).2⟩ := by
  have hunit : unit.extract settings = .ok (m, warnings) := by
    unfold SourceUnit.extract
    rw [h]
  unfold extractUnits BatchOutput.ofResults
  simp [hunit, successes, errors]

theorem failures_singleton_error {unit : SourceUnit} {error : ParseError}
    (h : parse settings.defaultValues unit.text = .error error) :
    (extractUnits settings [unit]).failures = [⟨unit.name, unit.text, error⟩] := by
  have hunit : unit.extract settings = .error ⟨unit.name, unit.text, error⟩ := by
    unfold SourceUnit.extract
    rw [h]
  unfold extractUnits BatchOutput.ofResults
  simp [hunit, errors]

end Single

/-- A single text and a batch of that text alone agree, if the text has one mark at its start at most. The
text has a model exactly when the batch has no failure, and then the two models are the same; it fails
exactly when the unit fails, with the same diagnostics and with the same text beside them. That text is the
text of the unit, from which parsing takes nothing away, so the diagnostics point into it directly. -/
theorem extractText_agrees (settings : Settings) (name text : String)
    (honce : (stripMark text).toList.head? ≠ some '\uFEFF') :
    let unit := SourceUnit.ofText name text
    let output := extractUnits settings [unit]
    (∀ m warnings, extractText settings text = .ok (m, warnings) ↔
      output.failures = [] ∧ output.model = m ∧ output.warnings = warnings) ∧
    (∀ failure, extractText settings text = .error failure ↔
      output.failures = [⟨name, failure.source, failure.error⟩]) ∧
    (∀ failure, extractText settings text = .error failure →
      failure.source = unit.text ∧ stripMark unit.text = unit.text ∧
      parse settings.defaultValues unit.text = .error failure.error) := by
  intro unit output
  have hgone : stripMark unit.text = unit.text := Extract.stripMark_eq_self honce
  have hparse : parse settings.defaultValues unit.text = parse settings.defaultValues text :=
    parse_stripMark settings.defaultValues hgone
  cases hread : parse settings.defaultValues text with
  | ok result =>
      obtain ⟨m, warnings⟩ := result
      have hunit : output = _ := extractUnits_singleton_ok (hparse.trans hread)
      have htext : extractText settings text =
          .ok ((settings.mergeIfEnabled m).1, warnings ++ (settings.mergeIfEnabled m).2) := by
        unfold extractText
        rw [hread]
      rw [htext, hunit]
      simp
  | error error =>
      have hunit : output.failures = _ := failures_singleton_error (hparse.trans hread)
      have htext : extractText settings text = .error ⟨error, stripMark text⟩ := by
        unfold extractText
        rw [hread]
      rw [htext, hunit]
      refine ⟨by simp, ?_, ?_⟩
      · intro failure
        constructor
        · rintro ⟨⟩
          rfl
        · intro hsame
          obtain ⟨-, hsource, herror⟩ := UnitFailure.mk.inj (List.singleton_inj.mp hsame)
          exact congrArg Except.error (congrArg₂ TextFailure.mk herror hsource)
      · rintro failure hfailure
        cases hfailure
        exact ⟨rfl, hgone, hparse.trans hread⟩

/-- A text with one mark: the failure is the same alone and in a batch, and points at the `int`. -/
theorem extractText_agrees_marked :
    (stripMark "\uFEFFnamespace N \x7b int x; \x7d").toList.head? ≠ some '\uFEFF' ∧
    ∃ failure, extractText .standard "\uFEFFnamespace N \x7b int x; \x7d" = .error failure ∧
      (extractUnits .standard [.ofText "a" "\uFEFFnamespace N \x7b int x; \x7d"]).failures =
        [⟨"a", failure.source, failure.error⟩] ∧
      failure.source = "namespace N \x7b int x; \x7d" ∧
      failure.error.diagnostics.map (·.primarySpan?) = [some ⟨14, 17⟩] ∧
      (⟨14, 17⟩ : Span).slice failure.source.toList = "int".toList := by
  have honce : (stripMark "\uFEFFnamespace N \x7b int x; \x7d").toList.head? ≠ some '\uFEFF' := by decide
  obtain ⟨-, hfails, -⟩ := extractText_agrees .standard "a" _ honce
  have hfailure : extractText .standard "\uFEFFnamespace N \x7b int x; \x7d" = .error
      ⟨.single ⟨"unexpected token: expected class or enum declaration", some .expectedTypeDeclaration,
        [⟨⟨14, 17⟩, "unexpected `int`", true⟩],
        some "only classes and enums may appear inside a namespace"⟩,
      "namespace N \x7b int x; \x7d"⟩ := by
    decide +kernel
  exact ⟨honce, _, hfailure, (hfails _).mp hfailure, rfl, by decide, by decide⟩

/-- Behind a second mark the two part ways: a unit loses both marks where a single text loses one. So a
text that fails alone gives a model in a batch; and where both fail, they fail with different diagnostics
beside the same text, and those of the unit miss the token they mean by the length of a mark. -/
theorem extractText_disagrees :
    (extractText .standard "\uFEFF\uFEFFnamespace N \x7b class A \x7b \x7d \x7d").isOk = false ∧
    (extractUnits .standard
      [.ofText "a" "\uFEFF\uFEFFnamespace N \x7b class A \x7b \x7d \x7d"]).failures = [] ∧
    extractText .standard "\uFEFF\uFEFFnamespace N \x7b int x; \x7d" = .error
      ⟨.single ⟨"unexpected token: expected namespace declaration", some .unexpectedToken,
        [⟨⟨0, 3⟩, "unexpected `\uFEFF`", true⟩], none⟩,
      "\uFEFFnamespace N \x7b int x; \x7d"⟩ ∧
    (extractUnits .standard [.ofText "a" "\uFEFF\uFEFFnamespace N \x7b int x; \x7d"]).failures =
      [⟨"a", "\uFEFFnamespace N \x7b int x; \x7d",
        .single ⟨"unexpected token: expected class or enum declaration", some .expectedTypeDeclaration,
          [⟨⟨14, 17⟩, "unexpected `int`", true⟩],
          some "only classes and enums may appear inside a namespace"⟩⟩] ∧
    (⟨14, 17⟩ : Span).slice "\uFEFFnamespace N \x7b int x; \x7d".toList = " \x7b ".toList := by
  refine ⟨?_, ?_, ?_, ?_, ?_⟩ <;> decide +kernel

end ClassChart

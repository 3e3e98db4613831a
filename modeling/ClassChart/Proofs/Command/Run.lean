/-
# ClassChart.Proofs.Command.Run — a run is all or nothing

A run either fails and has written nothing, or it succeeds and has written one text: that of the model,
to the file that was named or to standard output. Only a write that is refused may leave something behind,
and then it is the last thing that the run did. Whether a batch may be incomplete is asked for by
`--strict`, and that is all it changes: a strict run that succeeds is the lenient one, and a strict run
fails over its units exactly where the lenient one leaves some of them out.

Nothing is assumed of the file system but that a write changes its own place only: its files and the
matches of its patterns may all be unreadable, for any reason. The workers are assumed to keep the order
of the units, and where a run has to succeed, to have a pool; the writers may refuse any model.
-/
import ClassChart.Command.Run
import ClassChart.Proofs.Batch
import ClassChart.Proofs.Command.FileSystem
import ClassChart.Proofs.Extract.Policies
import ClassChart.Proofs.Model.Merge

namespace ClassChart

variable {σ : Type} [FileSystem σ]

/-! ## What is read -/

namespace Args

variable {args : Args} {s : σ} {userSettings? : Option String} {settings : Settings}
  {units : List SourceUnit}

/-- The settings and the units of a run: the settings were found, the inputs stand for files, and all of
these can be read. -/
def Prepares (args : Args) (s : σ) (userSettings? : Option String) (settings : Settings)
    (units : List SourceUnit) : Prop :=
  ∃ own paths, loadSettings s userSettings? args.config = .ok own ∧
    (Inputs.resolve s args.inputs args.exclude).1 = .ok paths ∧ readUnits s paths = .ok units ∧
    settings = args.override own

/-- A run that prepares its units goes on with them, whatever it remarked on. -/
theorem prepares_iff : args.Prepares s userSettings? settings units ↔
    ∃ warnings, prepare s userSettings? args = (.ok (settings, units), warnings) := by
  unfold Prepares prepare
  cases loadSettings s userSettings? args.config with
  | error trouble => simp
  | ok own =>
      rcases Inputs.resolve s args.inputs args.exclude with ⟨_ | paths, warnings⟩
      · simp
      · cases hread : readUnits s paths with
        | error trouble => simp [hread, Except.map]
        | ok found => simp [hread, Except.map, eq_comm, and_comm]

end Args

/-! ## What is written -/

/-- The text was written where it should be, and nothing else was. -/
def RunResult.Delivers [LawfulFileSystem σ] (result : RunResult σ) (s : σ) (text : String) :
    Option String → Prop
  | none => result.stdout = text ∧ result.files = s
  | some path => result.stdout = "" ∧ Gains s result.files path text

/-- The run asked for its file to be written and was refused: the files are what the request left, and its
error is that of the run. -/
def RunResult.IsRefused (result : RunResult σ) (s : σ) (output : Option String) : Prop :=
  ∃ path text error, output = some path ∧ FileSystem.write s path text = (.error error, result.files) ∧
    result.outcome = .error (.io (.system error))

/-- Nothing was written: standard output is empty and every file is as it was. Only a request to write that
was refused may have left something. -/
def RunResult.WritesNothing (result : RunResult σ) (s : σ) (output : Option String) : Prop :=
  result.stdout = "" ∧ (result.files = s ∨ result.IsRefused s output)

namespace Args

variable {args : Args} {s : σ} {text : String} {warnings : List Warning}

/-- A text is delivered, or the file system refuses to take it. -/
theorem deliver_cases (args : Args) (s : σ) (text : String) (warnings : List Warning) :
    ((args.deliver s text warnings).outcome = .ok () ∧
      ∀ [LawfulFileSystem σ], (args.deliver s text warnings).Delivers s text args.output) ∨
    ∃ path error, args.output = some path ∧
      FileSystem.write s path text = (.error error, (args.deliver s text warnings).files) ∧
      (args.deliver s text warnings).outcome = .error (.io (.system error)) ∧
      (args.deliver s text warnings).stdout = "" := by
  unfold deliver
  cases args.output with
  | none =>
      refine .inl ⟨rfl, ?_⟩
      intro _
      exact ⟨rfl, rfl⟩
  | some path =>
      rcases hwrite : FileSystem.write s path text with ⟨error | _, files⟩
      · exact .inr ⟨path, error, rfl, by simp only [hwrite], by simp only [hwrite], by simp only [hwrite]⟩
      · simp only [hwrite]
        refine .inl ⟨trivial, ?_⟩
        intro _
        exact ⟨rfl, gains_of_write hwrite⟩

theorem deliver_error {error : RunError} (h : (args.deliver s text warnings).outcome = .error error) :
    (args.deliver s text warnings).WritesNothing s args.output := by
  rcases args.deliver_cases s text warnings with ⟨hok, _⟩ | ⟨path, error, houtput, hwrite, herror, hstdout⟩
  · rw [hok] at h
    cases h
  · exact ⟨hstdout, .inr ⟨path, text, error, houtput, hwrite, herror⟩⟩

theorem delivers_of_outcome [LawfulFileSystem σ] (h : (args.deliver s text warnings).outcome = .ok ()) :
    (args.deliver s text warnings).Delivers s text args.output := by
  rcases args.deliver_cases s text warnings with ⟨_, hdelivers⟩ | ⟨_, _, _, _, herror, _⟩
  · exact hdelivers
  · rw [herror] at h
    cases h

theorem deliver_outcome (h : ∀ path, args.output = some path → (FileSystem.write s path text).1 = .ok ()) :
    (args.deliver s text warnings).outcome = .ok () := by
  rcases args.deliver_cases s text warnings with ⟨hok, _⟩ | ⟨path, error, houtput, hwrite, _, _⟩
  · exact hok
  · have hfails := h path houtput
    rw [hwrite] at hfails
    cases hfails

/-- Writing fails over the file system only. -/
theorem deliver_not_batch (failure : BatchFailure) :
    (args.deliver s text warnings).outcome ≠ .error (.batch failure) := by
  rcases args.deliver_cases s text warnings with ⟨hok, _⟩ | ⟨_, _, _, _, herror, _⟩
  · rw [hok]
    nofun
  · rw [herror]
    nofun

theorem deliver_warnings : (args.deliver s text warnings).warnings = warnings := by
  unfold deliver
  split
  · rfl
  · split <;> rfl

end Args

/-! ## What is selected -/

section Select

variable (args : Args) (settings : Settings) (units : List SourceUnit)

/-- A batch is complete if no unit is rejected. -/
theorem failures_eq_nil_iff :
    (extractUnits settings units).failures = [] ↔ ∀ unit ∈ units, unit.isAccepted settings = true := by
  rw [← List.length_eq_zero_iff, ← (forall₂_failures settings units).length_eq, List.length_eq_zero_iff,
    List.filter_eq_nil_iff]
  simp

/-- Either way the model is that of the batch. -/
theorem select_model {args : Args} {output : BatchOutput} {model : Model} {skipped : List Warning}
    (h : args.select output = .ok (model, skipped)) : model = output.model := by
  unfold Args.select BatchOutput.strict BatchOutput.lenient at h
  split at h
  · split at h <;> cases h
    rfl
  · dsimp only at h
    split at h <;> cases h
    rfl

/-- With `--strict` there is a model only if no unit failed. -/
theorem select_strict (output : BatchOutput) :
    { args with strict := true }.select output =
      if output.failures = [] then .ok (output.model, []) else .error ⟨output.failures, output.total⟩ := by
  show (output.strict).map (·, []) = _
  unfold BatchOutput.strict BatchOutput.isComplete
  cases output.failures with
  | nil => rfl
  | cons failure failures => rfl

/-- If none did, it makes no difference. -/
theorem select_complete {output : BatchOutput} (h : output.failures = []) :
    { args with strict := true }.select output = .ok (output.model, []) ∧
      { args with strict := false }.select output = .ok (output.model, []) := by
  refine ⟨by rw [select_strict, if_pos h], ?_⟩
  show output.lenient.map _ = _
  unfold BatchOutput.lenient
  simp [h, Except.map]

/-- Without it there is always one, since no unit fails through no fault of its text. -/
theorem select_lenient :
    { args with strict := false }.select (extractUnits settings units) =
      .ok ((extractUnits settings units).model,
        (extractUnits settings units).failures.map UnitFailure.skipped) := by
  have hinternal : (extractUnits settings units).failures.filter (·.isInternal) = [] := by
    refine List.filter_eq_nil_iff.mpr fun failure hfailure => ?_
    obtain ⟨unit, _, hof⟩ := Extract.exists_of_forall₂ (forall₂_failures settings units) hfailure
    rw [hof.not_internal]
    exact Bool.false_ne_true
  show ((extractUnits settings units).lenient).map _ = _
  unfold BatchOutput.lenient
  rw [hinternal]
  rfl

end Select

/-! ## What is remarked on -/

/-- Whether the warning says that a unit was left out. -/
def Warning.isSkipped : Warning → Bool
  | skippedUnit _ _ _ _ => true
  | _ => false

/-- No unit is said to be left out. -/
def Quiet (warnings : List Warning) : Prop := ∀ w ∈ warnings, w.isSkipped = false

section Quiet

theorem Quiet.append {warnings more : List Warning} (h : Quiet warnings) (h' : Quiet more) :
    Quiet (warnings ++ more) := by
  intro w hw
  rcases List.mem_append.mp hw with hw | hw
  · exact h w hw
  · exact h' w hw

theorem Quiet.filter {warnings : List Warning} (h : Quiet warnings) :
    warnings.filter Warning.isSkipped = [] := by
  refine List.filter_eq_nil_iff.mpr fun w hw => ?_
  rw [h w hw]
  exact Bool.false_ne_true

theorem quiet_nil : Quiet [] := nofun

/-- A text is remarked on for its defaults only. -/
theorem quiet_parse {policy : DefaultPolicy} {source : String} {m : Model} {warnings : List Warning}
    (h : parse policy source = .ok (m, warnings)) : Quiet warnings := by
  cases htree : Grammar.parseTree (stripMark source) with
  | error error =>
      rw [Extract.parse_of_error htree] at h
      cases h
  | ok tree =>
      obtain ⟨dropped, kept, htreated⟩ := Extract.exists_treated htree
      cases policy with
      | drop =>
          cases htreated.drop_eq.symm.trans h
          intro w hw
          obtain ⟨s, _, hs⟩ := List.mem_filterMap.mp hw
          obtain ⟨t, _, rfl⟩ := Option.map_eq_some_iff.mp hs
          rfl
      | keep =>
          cases htreated.keep_eq.symm.trans h
          exact quiet_nil
      | reject =>
          cases (htreated.same (htreated.reject_iff.mp ⟨_, h⟩)).2.symm.trans h
          exact quiet_nil

theorem quiet_candidates {s : σ} {input : String} {files : List String} {warnings : List Warning}
    (h : Inputs.candidates s input = .ok (files, warnings)) : Quiet warnings := by
  unfold Inputs.candidates at h
  split at h
  · cases h
    exact quiet_nil
  · split at h
    · cases h
    · cases h
      split
      · exact List.forall_mem_singleton.mpr rfl
      · exact quiet_nil

theorem quiet_gather (s : σ) (inputs : List String) : Quiet (Inputs.gather s inputs).2 := by
  induction inputs with
  | nil => exact quiet_nil
  | cons input rest ih =>
      unfold Inputs.gather
      split
      · exact quiet_nil
      · rename_i files warnings hfiles
        exact (quiet_candidates hfiles).append ih

/-- Finding the inputs remarks on patterns that match nothing. -/
theorem quiet_resolve (s : σ) (inputs exclude : List String) :
    Quiet (Inputs.resolve s inputs exclude).2 := by
  unfold Inputs.resolve
  split
  · exact quiet_nil
  · exact quiet_gather s inputs

theorem quiet_of_prepare {s : σ} {userSettings? : Option String} {args : Args}
    {read : Except Trouble (Settings × List SourceUnit)} {warnings : List Warning}
    (h : prepare s userSettings? args = (read, warnings)) : Quiet warnings := by
  have hquiet := quiet_resolve s args.inputs args.exclude
  unfold prepare at h
  split at h
  · cases h
    exact quiet_nil
  · split at h
    · rename_i hresolve
      cases h
      rwa [hresolve] at hquiet
    · rename_i hresolve
      cases h
      rwa [hresolve] at hquiet

/-- Merging remarks on conflicts of kind only. -/
theorem quiet_merge (settings : Settings) (m : Model) : Quiet (settings.mergeIfEnabled m).2 := by
  unfold Settings.mergeIfEnabled
  split
  · rw [merge_warnings]
    intro w hw
    obtain ⟨e, _, rfl⟩ := List.mem_map.mp hw
    rfl
  · exact quiet_nil

/-- A batch says nothing of its failures; the run does, when it passes over them. -/
theorem quiet_extractUnits (settings : Settings) (units : List SourceUnit) :
    Quiet (extractUnits settings units).warnings := by
  refine Quiet.append ?_ ?_
  · intro w hw
    obtain ⟨result, hresult, hw⟩ := List.mem_flatMap.mp hw
    obtain ⟨unit, _, hunit⟩ :=
      Extract.exists_of_forall₂ (forall₂_successes (SourceUnit.extract settings) units) hresult
    exact quiet_parse (parse_of_extract hunit) w hw
  · exact quiet_merge settings _

/-- The warnings of a run that left units out: one for each, and they alone say so. -/
theorem filter_isSkipped {warnings : List Warning} (h : Quiet warnings) (failures : List UnitFailure) :
    (warnings ++ failures.map UnitFailure.skipped).filter Warning.isSkipped =
      failures.map UnitFailure.skipped := by
  rw [List.filter_append, h.filter, List.nil_append, List.filter_eq_self]
  intro w hw
  obtain ⟨failure, _, rfl⟩ := List.mem_map.mp hw
  rfl

end Quiet

/-! ## Whole runs -/

namespace Args

section Finish

variable {args : Args} {writers : Writers} {s : σ} {padding : Nat} {output : BatchOutput}
  {warnings : List Warning}

/-- A run that fails behind its extraction has written nothing. -/
theorem finish_error {error : RunError}
    (h : (args.finish writers s padding output warnings).outcome = .error error) :
    (args.finish writers s padding output warnings).WritesNothing s args.output := by
  unfold finish at h ⊢
  split
  · exact ⟨rfl, .inl rfl⟩
  · rename_i model skipped hselect
    simp only [hselect] at h
    split
    · exact ⟨rfl, .inl rfl⟩
    · rename_i text hrender
      simp only [hrender] at h
      exact deliver_error h

/-- What selects a model that can be drawn goes on to write it. -/
theorem finish_of_select {model : Model} {skipped : List Warning} {text : String}
    (hselect : args.select output = .ok (model, skipped))
    (hrender : args.format.render writers padding model = .ok text) :
    args.finish writers s padding output warnings = args.deliver s text (warnings ++ skipped) := by
  simp only [finish, hselect, hrender]

/-- A run that succeeds has drawn the model of its batch. -/
theorem finish_ok (h : (args.finish writers s padding output warnings).outcome = .ok ()) :
    ∃ skipped text, args.select output = .ok (output.model, skipped) ∧
      args.format.render writers padding output.model = .ok text ∧
      args.finish writers s padding output warnings = args.deliver s text (warnings ++ skipped) := by
  cases hselect : args.select output with
  | error failure =>
      simp only [finish, hselect] at h
      cases h
  | ok selected =>
      obtain ⟨model, skipped⟩ := selected
      obtain rfl := select_model hselect
      cases hrender : args.format.render writers padding output.model with
      | error reason =>
          simp only [finish, hselect, hrender] at h
          cases h
      | ok text => exact ⟨skipped, text, rfl, rfl, finish_of_select hselect hrender⟩

/-- With a complete batch a strict run is the lenient one. -/
theorem finish_complete (h : output.failures = []) :
    { args with strict := false }.finish writers s padding output warnings =
      { args with strict := true }.finish writers s padding output warnings := by
  obtain ⟨hstrict, hlenient⟩ := select_complete args h
  unfold finish
  rw [hstrict, hlenient]
  rfl

/-- A strict run fails over its batch exactly if the batch is not complete. -/
theorem finish_strict_batch_iff :
    (∃ failure, ({ args with strict := true }.finish writers s padding output warnings).outcome =
      .error (.batch failure)) ↔ output.failures ≠ [] := by
  unfold finish
  rw [select_strict]
  by_cases hcomplete : output.failures = []
  · rw [if_pos hcomplete]
    refine ⟨?_, fun h => absurd hcomplete h⟩
    rintro ⟨failure, hfailure⟩
    dsimp only at hfailure
    split at hfailure
    · cases hfailure
    · exact absurd hfailure (deliver_not_batch failure)
  · rw [if_neg hcomplete]
    exact ⟨fun _ => hcomplete, fun _ => ⟨_, rfl⟩⟩

end Finish

section Run

variable {args : Args} {services : Services} {s : σ} {userSettings? : Option String}
  {settings : Settings} {units : List SourceUnit} {warnings : List Warning}

/-- What a run reads does not depend on how it takes failures. -/
theorem run_of_prepare (h : prepare s userSettings? args = (.ok (settings, units), warnings))
    (strict : Bool) :
    { args with strict := strict }.run services s userSettings? =
      { args with strict := strict }.extract services s settings units warnings := by
  have hsame : prepare s userSettings? { args with strict := strict } =
      (.ok (settings, units), warnings) := h
  rw [run, hsame]

/-- A run that fails has written nothing. -/
theorem run_error {error : RunError} (h : (args.run services s userSettings?).outcome = .error error) :
    (args.run services s userSettings?).WritesNothing s args.output := by
  unfold run at h ⊢
  split
  · exact ⟨rfl, .inl rfl⟩
  · rename_i settings units warnings hprepare
    simp only [hprepare, extract] at h ⊢
    split
    · exact ⟨rfl, .inl rfl⟩
    · rename_i output houtput
      simp only [houtput] at h
      exact finish_error h

/-- A run that succeeds was prepared, has extracted its units, and finished. -/
theorem run_ok_cases (horder : services.pool.KeepsOrder)
    (h : (args.run services s userSettings?).outcome = .ok ()) :
    ∃ settings units warnings, prepare s userSettings? args = (.ok (settings, units), warnings) ∧
      extractUnitsOn services.pool settings units = .ok (extractUnits settings units) ∧
      args.run services s userSettings? = args.finish services.writers s settings.padding
        (extractUnits settings units) (warnings ++ (extractUnits settings units).warnings) := by
  rcases hprepare : prepare s userSettings? args with ⟨trouble | ⟨settings, units⟩, warnings⟩
  · simp only [run, hprepare] at h
    cases h
  · cases hextract : extractUnitsOn services.pool settings units with
    | error reason =>
        simp only [run, hprepare, extract, hextract] at h
        cases h
    | ok output =>
        obtain rfl := eq_extractUnits_of_ok horder hextract
        exact ⟨settings, units, warnings, rfl, hextract, by simp only [run, hprepare, extract, hextract]⟩

/-- A run that succeeds has written what its writer made of the model of its units. -/
theorem run_ok [LawfulFileSystem σ] (horder : services.pool.KeepsOrder)
    (h : (args.run services s userSettings?).outcome = .ok ()) :
    ∃ settings units text, args.Prepares s userSettings? settings units ∧
      args.format.render services.writers settings.padding (extractUnits settings units).model = .ok text ∧
      (args.run services s userSettings?).Delivers s text args.output := by
  obtain ⟨settings, units, warnings, hprepare, _, hrun⟩ := run_ok_cases horder h
  rw [hrun] at h ⊢
  obtain ⟨skipped, text, _, hrender, hdeliver⟩ := finish_ok h
  rw [hdeliver] at h ⊢
  exact ⟨settings, units, text, prepares_iff.mpr ⟨warnings, hprepare⟩, hrender, delivers_of_outcome h⟩

/-- A strict run that succeeds is the lenient one, and leaves no unit out. -/
theorem run_strict_ok (horder : services.pool.KeepsOrder)
    (h : ({ args with strict := true }.run services s userSettings?).outcome = .ok ()) :
    { args with strict := false }.run services s userSettings? =
        { args with strict := true }.run services s userSettings? ∧
      ({ args with strict := false }.run services s userSettings?).warnings.filter Warning.isSkipped =
        [] := by
  obtain ⟨settings, units, warnings, hsame, hextract, hstrict⟩ := run_ok_cases horder h
  -- What is read does not depend on how failures are taken.
  have hprepare : prepare s userSettings? args = (.ok (settings, units), warnings) := hsame
  rw [hstrict] at h
  -- An incomplete batch would have ended the run.
  have hcomplete : (extractUnits settings units).failures = [] := by
    by_contra hincomplete
    obtain ⟨failure, hfailure⟩ := (finish_strict_batch_iff (s := s)).mpr hincomplete
    rw [hfailure] at h
    cases h
  have hlenient : { args with strict := false }.run services s userSettings? =
      { args with strict := true }.run services s userSettings? := by
    rw [hstrict, run_of_prepare hprepare]
    simp only [extract, hextract]
    exact finish_complete hcomplete
  refine ⟨hlenient, ?_⟩
  obtain ⟨skipped, text, hselect, _, hdeliver⟩ := finish_ok h
  obtain rfl : skipped = [] := by
    rw [(select_complete args hcomplete).1] at hselect
    cases hselect
    rfl
  rw [hlenient, hstrict, hdeliver, deliver_warnings, List.append_nil]
  exact ((quiet_of_prepare hprepare).append (quiet_extractUnits settings units)).filter

/-- A prepared run finishes, if its workers have their pool. -/
theorem run_of_prepares (hcreates : services.pool.Creates) (horder : services.pool.KeepsOrder)
    (h : args.Prepares s userSettings? settings units) (strict : Bool) :
    ∃ warnings, Quiet warnings ∧ { args with strict := strict }.run services s userSettings? =
      { args with strict := strict }.finish services.writers s settings.padding
        (extractUnits settings units) (warnings ++ (extractUnits settings units).warnings) := by
  obtain ⟨warnings, hprepare⟩ := prepares_iff.mp h
  refine ⟨warnings, quiet_of_prepare hprepare, ?_⟩
  rw [run_of_prepare hprepare]
  simp only [extract, extractUnitsOn_of_creates settings units hcreates horder]

/-- A strict run fails over its units exactly if one of them does. -/
theorem run_strict_batch_iff (hcreates : services.pool.Creates) (horder : services.pool.KeepsOrder)
    (h : args.Prepares s userSettings? settings units) :
    (∃ failure, ({ args with strict := true }.run services s userSettings?).outcome =
      .error (.batch failure)) ↔ ∃ unit ∈ units, unit.isAccepted settings = false := by
  obtain ⟨warnings, _, hrun⟩ := run_of_prepares hcreates horder h true
  rw [hrun, finish_strict_batch_iff, ne_eq, failures_eq_nil_iff]
  simp

/-- A lenient run writes the model of the units that have one, and says of each other that it is left
out. -/
theorem run_lenient [LawfulFileSystem σ] {text : String} (hcreates : services.pool.Creates)
    (horder : services.pool.KeepsOrder) (h : args.Prepares s userSettings? settings units)
    (hrender : args.format.render services.writers settings.padding
      (extractUnits settings (units.filter (SourceUnit.isAccepted settings))).model = .ok text)
    (hwrite : ∀ path, args.output = some path → (FileSystem.write s path text).1 = .ok ()) :
    let lenient := { args with strict := false }.run services s userSettings?
    lenient.outcome = .ok () ∧ lenient.Delivers s text args.output ∧
    ∃ failures, List.Forall₂ (UnitFailure.IsOf settings)
        (units.filter fun unit => !unit.isAccepted settings) failures ∧
      lenient.warnings.filter Warning.isSkipped = failures.map UnitFailure.skipped := by
  intro lenient
  obtain ⟨warnings, hquiet, hrun⟩ := run_of_prepares hcreates horder h false
  rw [extractUnits_filter] at hrender
  have hdeliver : lenient = { args with strict := false }.deliver s text (warnings ++
      (extractUnits settings units).warnings ++
        (extractUnits settings units).failures.map UnitFailure.skipped) :=
    hrun.trans (finish_of_select (select_lenient args settings units) hrender)
  have hok : lenient.outcome = .ok () := by
    rw [hdeliver]
    exact deliver_outcome hwrite
  refine ⟨hok, ?_, (extractUnits settings units).failures, forall₂_failures settings units, ?_⟩
  · rw [hdeliver] at hok ⊢
    exact delivers_of_outcome hok
  · rw [hdeliver, deliver_warnings]
    exact filter_isSkipped (hquiet.append (quiet_extractUnits settings units)) _

/-- A lenient run whose model cannot be drawn fails with the reason of the writer. -/
theorem run_lenient_render {reason : String} (hcreates : services.pool.Creates)
    (horder : services.pool.KeepsOrder) (h : args.Prepares s userSettings? settings units)
    (hrender : args.format.render services.writers settings.padding
      (extractUnits settings (units.filter (SourceUnit.isAccepted settings))).model = .error reason) :
    ({ args with strict := false }.run services s userSettings?).outcome = .error (.render reason) := by
  obtain ⟨warnings, _, hrun⟩ := run_of_prepares hcreates horder h false
  rw [extractUnits_filter] at hrender
  rw [hrun]
  simp only [finish, select_lenient args settings units, hrender]

end Run

/-- The writers of the library can draw every model. -/
theorem exists_render_standard (format : OutputFormat) (padding : Nat) (m : Model) :
    ∃ text, format.render .standard padding m = .ok text := by
  cases format with
  | json => exact ⟨m.toJson.render ++ "\n", rfl⟩
  | text => exact ⟨m.renderText padding, rfl⟩

/-- A run is all or nothing, and `--strict` only restricts. A run that fails has written nothing to standard
output and left every file alone, if it was not the writing itself that was refused; one that succeeds has
written the text of the model of its units, to the file that was named or to standard output, and nothing
else. A strict run that succeeds is the lenient one, which then leaves no unit out. Where settings, inputs and
units can be read, a strict run fails over them exactly if one of them has no model; and the lenient run
succeeds all the same if the model of the others can be drawn and its file can be written: it writes that
model, and says once of each unit without one that it is left out. -/
theorem run_allOrNothing [LawfulFileSystem σ] (args : Args) (services : Services) (s : σ)
    (userSettings? : Option String) (horder : services.pool.KeepsOrder) :
    let result := args.run services s userSettings?
    let strict := { args with strict := true }.run services s userSettings?
    let lenient := { args with strict := false }.run services s userSettings?
    (∀ error, result.outcome = .error error → result.WritesNothing s args.output) ∧
    (result.outcome = .ok () → ∃ settings units text, args.Prepares s userSettings? settings units ∧
      args.format.render services.writers settings.padding (extractUnits settings units).model = .ok text ∧
      result.Delivers s text args.output) ∧
    (strict.outcome = .ok () → lenient = strict ∧ lenient.warnings.filter Warning.isSkipped = []) ∧
    ∀ settings units, args.Prepares s userSettings? settings units → services.pool.Creates →
      let accepted := units.filter (SourceUnit.isAccepted settings)
      let rejected := units.filter fun unit => !unit.isAccepted settings
      let drawn := args.format.render services.writers settings.padding (extractUnits settings accepted).model
      ((∃ failure, strict.outcome = .error (.batch failure)) ↔
        ∃ unit ∈ units, unit.isAccepted settings = false) ∧
      (services.writers = .standard → ∃ text, drawn = .ok text) ∧
      (∀ reason, drawn = .error reason → lenient.outcome = .error (.render reason)) ∧
      ∀ text, drawn = .ok text →
        (∀ path, args.output = some path → (FileSystem.write s path text).1 = .ok ()) →
        lenient.outcome = .ok () ∧ lenient.Delivers s text args.output ∧
        ∃ failures, List.Forall₂ (UnitFailure.IsOf settings) rejected failures ∧
          lenient.warnings.filter Warning.isSkipped = failures.map UnitFailure.skipped := by
  intro result strict lenient
  refine ⟨fun _ => run_error, run_ok horder, run_strict_ok horder, ?_⟩
  intro settings units hprepares hcreates accepted rejected drawn
  refine ⟨run_strict_batch_iff hcreates horder hprepares, ?_, ?_, ?_⟩
  · intro hwriters
    rw [show drawn = args.format.render .standard settings.padding (extractUnits settings accepted).model
      from hwriters ▸ rfl]
    exact exists_render_standard _ _ _
  · intro reason hreason
    exact run_lenient_render hcreates horder hprepares hreason
  · intro text htext hwrite
    exact run_lenient hcreates horder hprepares htext hwrite

/-- A source with a model. -/
def soundUnit : SourceUnit := ⟨"sound.cs", "namespace N; class A \x7b \x7d"⟩

/-- A source that ends too early. -/
def brokenUnit : SourceUnit := ⟨"broken.cs", "namespace N; class"⟩

/-- A disk with both sources in its working directory. -/
def mixedDisk : Disk :=
  .ofWorking ["work"] [("sound.cs", .file soundUnit.text.toUTF8), ("broken.cs", .file brokenUnit.text.toUTF8)]

/-- Both sources, into a file. -/
def mixedArgs : Args :=
  ⟨["sound.cs", "broken.cs"], [], some "model.json", .json, false, false, none, none, "info"⟩

/-- The model of the sound source, drawn. -/
def mixedText : String :=
  "[\n  \x7b\n    \"kind\": \"class\",\n    \"namespace\": \"N\",\n    \"name\": \"A\",\n" ++
    "    \"attributes\": [],\n    \"methods\": []\n  \x7d\n]\n"

/-- The strict run fails and leaves the disk alone; the lenient one writes the model of the sound source
and says that the other one is left out. -/
theorem run_allOrNothing_mixed :
    let strict := { mixedArgs with strict := true }.run .standard mixedDisk (some "user.toml")
    let lenient := mixedArgs.run .standard mixedDisk (some "user.toml")
    Services.standard.pool.KeepsOrder ∧ Services.standard.pool.Creates ∧
    mixedArgs.Prepares mixedDisk (some "user.toml") .standard [soundUnit, brokenUnit] ∧
    (∃ failure, strict.outcome = .error (.batch failure)) ∧ strict.stdout = "" ∧ strict.files = mixedDisk ∧
    lenient.outcome = .ok () ∧ lenient.Delivers mixedDisk mixedText (some "model.json") ∧
    ∃ failure, UnitFailure.IsOf .standard brokenUnit failure ∧
      lenient.warnings.filter Warning.isSkipped = [failure.skipped] := by
  intro strict lenient
  obtain ⟨hcreates, horder⟩ : Services.standard.pool.Creates ∧ Services.standard.pool.KeepsOrder :=
    sequential_creates_keepsOrder
  have hprepares : mixedArgs.Prepares mixedDisk (some "user.toml") .standard [soundUnit, brokenUnit] := by
    have hread : (prepare mixedDisk (some "user.toml") mixedArgs).1.toOption =
        some (.standard, [soundUnit, brokenUnit]) := by
      decide +kernel
    exact prepares_iff.mpr ⟨_, Prod.ext (Extract.eq_ok_of_toOption hread) rfl⟩
  have hwrite : ∀ path, mixedArgs.output = some path →
      (FileSystem.write mixedDisk path mixedText).1 = .ok () := by
    rintro path ⟨⟩
    decide +kernel
  have hrejected : [soundUnit, brokenUnit].filter (fun unit => !unit.isAccepted .standard) = [brokenUnit] := by
    decide +kernel
  have htext : OutputFormat.json.render Writers.standard Settings.standard.padding (extractUnits .standard
      ([soundUnit, brokenUnit].filter (SourceUnit.isAccepted .standard))).model = .ok mixedText := by
    refine Extract.eq_ok_of_toOption ?_
    decide +kernel
  obtain ⟨hstrict, _, _, hlenient⟩ := (run_allOrNothing mixedArgs .standard mixedDisk (some "user.toml")
    horder).2.2.2 _ _ hprepares hcreates
  obtain ⟨failure, hfailure⟩ := hstrict.mpr ⟨brokenUnit, by simp, by decide +kernel⟩
  obtain ⟨hstdout, hfiles⟩ := (run_allOrNothing { mixedArgs with strict := true } .standard mixedDisk
    (some "user.toml") horder).1 _ hfailure
  have hsame : strict.files = mixedDisk := by
    rcases hfiles with hsame | ⟨path, text, error, _, hrefused, _⟩
    · exact hsame
    · exact Disk.eq_of_write_error hrefused
  obtain ⟨houtcome, hdelivers, failures, hfailures, hskipped⟩ := hlenient mixedText htext hwrite
  rw [hrejected] at hfailures
  cases hfailures with | @cons _ skipped _ _ hof hnone =>
  cases hnone
  exact ⟨horder, hcreates, hprepares, ⟨failure, hfailure⟩, hstdout, hsame, houtcome, hdelivers, skipped, hof,
    hskipped⟩

end Args

end ClassChart

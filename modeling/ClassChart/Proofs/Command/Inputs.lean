/-
# ClassChart.Proofs.Command.Inputs — which files the inputs stand for

The inputs are resolved in one pass that tests, warns and fails on the way. Here is what the pass comes to,
seen from its end: the exclusions are read before anything is looked for, the first bad input ends it, and
if there is none the files of all inputs are laid end to end, the excluded ones are left out and every path
is kept where it occurs first. Nothing is assumed of the file system: which paths are files, what a pattern
matches and which test it is for paths are whatever it answers.

Since the files of an input do not depend on the other inputs, and first occurrences at the front of a list
do not depend on what follows, further inputs only add files at the end.
-/
import ClassChart.Command.Inputs
import ClassChart.Proofs.Extract.Bare
import ClassChart.Proofs.Model.Laws

namespace ClassChart

namespace Inputs

open Extract

/-! ## What the inputs stand for -/

section Meaning

variable {σ : Type} [FileSource σ]

/-- The files that an input stands for: itself if it names one, else the files among the matches of the
pattern that it is. -/
inductive StandsFor (s : σ) (input : String) : List String → Prop where
  | file (isFile : FileSource.isFile s input = true) : StandsFor s input [input]
  | pattern {paths : List String} (noFile : FileSource.isFile s input = false)
      (found : FileSource.search s input = .ok (paths.map .ok)) :
      StandsFor s input (paths.filter (FileSource.isFile s))

/-- Why an input stands for nothing: it names no file, and as a pattern it is malformed or has a match
that cannot be read. The first such match is the one reported. -/
inductive Refuses (s : σ) (input : String) : InputError → Prop where
  | malformed {error : PatternError} (noFile : FileSource.isFile s input = false)
      (found : FileSource.search s input = .error error) : Refuses s input (.badPattern input error)
  | unreadable {before : List String} {after : List (Except MatchError String)} {error : MatchError}
      (noFile : FileSource.isFile s input = false)
      (found : FileSource.search s input = .ok (before.map .ok ++ .error error :: after)) :
      Refuses s input (.unreadable error)

/-- The text is that of a pattern, which is the test. -/
def Reads (s : σ) (text : String) (test : String → Bool) : Prop := FileSource.test s text = .ok test

/-- The warnings about the inputs that stand for no files, given what each stands for. An input that names
a file is never among them. -/
def unmatched (inputs : List String) (files : List (List String)) : List Warning :=
  ((inputs.zip files).filter (·.2.isEmpty)).map fun pair => .noMatch pair.1

/-- What is left of paths: each where it occurs first, unless an exclusion matches it. -/
def kept (exclusions : List (String → Bool)) (paths : List String) : List String :=
  firstsBy Path.spelling (paths.filter fun path => !exclusions.any (· path))

/-- What inputs and exclusions come to. -/
inductive Resolves (s : σ) (inputs exclude : List String) :
    Except InputError (List String) × List Warning → Prop where
  | badExclusion {before after : List String} {text : String} {tests : List (String → Bool)}
      {error : PatternError} (exclude_eq : exclude = before ++ text :: after)
      (sound : List.Forall₂ (Reads s) before tests) (malformed : FileSource.test s text = .error error) :
      Resolves s inputs exclude (.error (.badPattern text error), [])
  | badInput {tests : List (String → Bool)} {before after : List String} {input : String}
      {files : List (List String)} {error : InputError} (sound : List.Forall₂ (Reads s) exclude tests)
      (inputs_eq : inputs = before ++ input :: after) (stand : List.Forall₂ (StandsFor s) before files)
      (refused : Refuses s input error) : Resolves s inputs exclude (.error error, unmatched before files)
  | noFiles {tests : List (String → Bool)} {files : List (List String)}
      (sound : List.Forall₂ (Reads s) exclude tests) (stand : List.Forall₂ (StandsFor s) inputs files)
      (none : kept tests files.flatten = []) :
      Resolves s inputs exclude (.error .noFiles, unmatched inputs files)
  | files {tests : List (String → Bool)} {files : List (List String)}
      (sound : List.Forall₂ (Reads s) exclude tests) (stand : List.Forall₂ (StandsFor s) inputs files)
      (some : kept tests files.flatten ≠ []) :
      Resolves s inputs exclude (.ok (kept tests files.flatten), unmatched inputs files)

end Meaning

/-! ## First failures -/

/-- A list whose elements are good or bad is good throughout, or it has a first bad element. -/
theorem forall₂_or_first {α β ε : Type} {Good : α → β → Prop} {Bad : α → ε → Prop}
    (total : ∀ x, (∃ y, Good x y) ∨ ∃ e, Bad x e) (xs : List α) :
    (∃ ys, List.Forall₂ Good xs ys) ∨
      ∃ before x after ys e, xs = before ++ x :: after ∧ List.Forall₂ Good before ys ∧ Bad x e := by
  induction xs with
  | nil => exact .inl ⟨[], .nil⟩
  | cons x xs ih =>
      rcases total x with ⟨y, hy⟩ | ⟨e, he⟩
      · rcases ih with ⟨ys, hys⟩ | ⟨before, z, after, ys, e, rfl, hys, he⟩
        · exact .inl ⟨y :: ys, .cons hy hys⟩
        · exact .inr ⟨x :: before, z, after, y :: ys, e, rfl, .cons hy hys, he⟩
      · exact .inr ⟨[], x, xs, [], e, rfl, .nil, he⟩

/-- The results of a search are all readable, or there is a first one that is not. -/
theorem readable_or_first (entries : List (Except MatchError String)) :
    (∃ paths : List String, entries = paths.map .ok) ∨
      ∃ (before : List String) (error : MatchError) (after : List (Except MatchError String)),
        entries = before.map .ok ++ .error error :: after := by
  have htotal (entry : Except MatchError String) :
      (∃ path, entry = .ok path) ∨ ∃ error, entry = .error error := by
    cases entry with
    | ok path => exact .inl ⟨path, rfl⟩
    | error error => exact .inr ⟨error, rfl⟩
  have hpaths {front : List (Except MatchError String)} {paths : List String}
      (h : List.Forall₂ (fun entry path => entry = .ok path) front paths) : front = paths.map .ok :=
    List.forall₂_eq_eq_eq ▸ List.forall₂_map_right_iff.mpr h
  rcases forall₂_or_first htotal entries with ⟨paths, h⟩ | ⟨front, _, after, paths, error, rfl, h, rfl⟩
  · exact .inl ⟨paths, hpaths h⟩
  · exact .inr ⟨paths, error, after, by rw [hpaths h]⟩

section Steps

variable {σ : Type} [FileSource σ] {s : σ} {input : String} {error : InputError}

/-- Every input stands for files or is refused. -/
theorem standsFor_or_refuses (s : σ) (input : String) :
    (∃ files, StandsFor s input files) ∨ ∃ error, Refuses s input error := by
  cases hfile : FileSource.isFile s input with
  | true => exact .inl ⟨_, .file hfile⟩
  | false =>
      cases hfound : FileSource.search s input with
      | error error => exact .inr ⟨_, .malformed hfile hfound⟩
      | ok entries =>
          rcases readable_or_first entries with ⟨paths, rfl⟩ | ⟨before, error, after, rfl⟩
          · exact .inl ⟨_, .pattern hfile hfound⟩
          · exact .inr ⟨_, .unreadable hfile hfound⟩

/-! ## The pass -/

theorem candidates_of_standsFor {files : List String} (h : StandsFor s input files) :
    candidates s input = .ok (files, if files.isEmpty then [.noMatch input] else []) := by
  unfold candidates
  cases h with
  | file isFile =>
      rw [if_pos isFile]
      rfl
  | @pattern paths noFile found =>
      have hread : readMatches s input = .ok paths := by
        rw [readMatches, found]
        refine mapM_eq_of_forall₂ (List.forall₂_map_left_iff.mpr (List.forall₂_same.mpr fun path _ => ?_))
        rfl
      rw [if_neg (Bool.eq_false_iff.mp noFile), hread]

theorem candidates_of_refuses (h : Refuses s input error) : candidates s input = .error error := by
  unfold candidates
  cases h with
  | malformed noFile found => rw [if_neg (Bool.eq_false_iff.mp noFile), readMatches, found]
  | @unreadable before after error noFile found =>
      have hread : readMatches s input = .error (.unreadable error) := by
        rw [readMatches, found]
        have hfront : List.Forall₂
            (fun (entry : Except MatchError String) path => entry.mapError InputError.unreadable = .ok path)
            (before.map .ok) before :=
          List.forall₂_map_left_iff.mpr (List.forall₂_same.mpr fun path _ => rfl)
        exact mapM_eq_error hfront rfl
      rw [if_neg (Bool.eq_false_iff.mp noFile), hread]

theorem unmatched_cons (input : String) (inputs : List String) (files : List String)
    (more : List (List String)) :
    unmatched (input :: inputs) (files :: more) =
      (if files.isEmpty then [.noMatch input] else []) ++ unmatched inputs more := by
  unfold unmatched
  rw [List.zip_cons_cons, List.filter_cons]
  cases files with
  | nil => rfl
  | cons path files => rfl

/-- The pass over good inputs, and on over the rest. -/
theorem gather_append {before : List String} {files : List (List String)}
    (h : List.Forall₂ (StandsFor s) before files) (rest : List String) :
    gather s (before ++ rest) =
      ((gather s rest).1.map (files.flatten ++ ·), unmatched before files ++ (gather s rest).2) := by
  induction h with
  | nil =>
      rw [List.nil_append]
      rcases gather s rest with ⟨found | found, warnings⟩ <;> rfl
  | @cons input files before more hfiles _ ih =>
      rw [List.cons_append, gather, candidates_of_standsFor hfiles, ih, unmatched_cons]
      rcases gather s rest with ⟨found | found, warnings⟩
      · simp [Except.map]
      · simp [Except.map]

theorem gather_of_standsFor {inputs : List String} {files : List (List String)}
    (h : List.Forall₂ (StandsFor s) inputs files) :
    gather s inputs = (.ok files.flatten, unmatched inputs files) := by
  have hpass := gather_append h []
  rw [List.append_nil] at hpass
  rw [hpass]
  simp [gather, Except.map]

theorem gather_of_refuses {before after : List String} {files : List (List String)}
    (h : List.Forall₂ (StandsFor s) before files) (hinput : Refuses s input error) :
    gather s (before ++ input :: after) = (.error error, unmatched before files) := by
  rw [gather_append h, gather, candidates_of_refuses hinput]
  simp [Except.map]

end Steps

/-! ## Paths that are kept -/

/-- The pass that remembers what it has seen keeps first occurrences. -/
theorem distinct_eq (seen : List Path.Spelling) (paths : List String) :
    distinct seen paths =
      (firstsBy Path.spelling paths).filter fun path => decide (Path.spelling path ∉ seen) := by
  induction paths generalizing seen with
  | nil => rfl
  | cons path paths ih =>
      rw [distinct, firstsBy]
      by_cases hseen : Path.spelling path ∈ seen
      · rw [if_pos (List.contains_iff_mem.mpr hseen), ih, List.filter_cons_of_neg (by simp [hseen]),
          List.filter_filter]
        refine List.filter_congr fun other _ => ?_
        by_cases hsame : Path.spelling other = Path.spelling path
        · simp [hsame, hseen]
        · simp [hsame]
      · rw [if_neg (mt List.contains_iff_mem.mp hseen), ih, List.filter_cons_of_pos (by simp [hseen]),
          List.filter_filter]
        congr 1
        refine List.filter_congr fun other _ => ?_
        simp [Bool.and_comm]

theorem distinct_nil (paths : List String) : distinct [] paths = firstsBy Path.spelling paths := by
  rw [distinct_eq, List.filter_eq_self]
  exact fun path _ => decide_eq_true List.not_mem_nil

/-- What is kept of the front of a list is kept at the front. -/
theorem kept_prefix (exclusions : List (String → Bool)) (paths more : List String) :
    kept exclusions paths <+: kept exclusions (paths ++ more) := by
  unfold kept
  rw [List.filter_append, firstsBy_append]
  exact List.prefix_append _ _

/-! ## The whole -/

section Resolving

variable {σ : Type} [FileSource σ] {s : σ} {inputs exclude : List String} {tests : List (String → Bool)}

theorem compile_of_reads {texts : List String} (h : List.Forall₂ (Reads s) texts tests) :
    List.Forall₂ (fun text test => compile s text = .ok test) texts tests :=
  h.imp fun text test hreads => by
    unfold Reads at hreads
    rw [compile, hreads]
    rfl

/-- With good exclusions, the pass over the inputs decides. -/
theorem resolve_of_reads (h : List.Forall₂ (Reads s) exclude tests) (inputs : List String) :
    resolve s inputs exclude =
      ((gather s inputs).1.bind fun paths =>
        if kept tests paths = [] then .error .noFiles else .ok (kept tests paths),
        (gather s inputs).2) := by
  rw [resolve, mapM_eq_of_forall₂ (compile_of_reads h)]
  simp only [distinct_nil, List.isEmpty_iff]
  rfl

/-- Inputs and exclusions are resolved to what they come to. -/
theorem resolve_of_resolves {outcome : Except InputError (List String) × List Warning}
    (h : Resolves s inputs exclude outcome) : resolve s inputs exclude = outcome := by
  cases h with
  | @badExclusion before after text tests error exclude_eq sound malformed =>
      have hcompile : compile s text = .error (.badPattern text error) := by
        rw [compile, malformed]
        rfl
      rw [resolve, exclude_eq, mapM_eq_error (compile_of_reads sound) hcompile]
  | badInput sound inputs_eq stand refused =>
      rw [resolve_of_reads sound, inputs_eq, gather_of_refuses stand refused]
      rfl
  | noFiles sound stand none =>
      rw [resolve_of_reads sound, gather_of_standsFor stand]
      exact Prod.ext (if_pos none) rfl
  | files sound stand some =>
      rw [resolve_of_reads sound, gather_of_standsFor stand]
      exact Prod.ext (if_neg some) rfl

/-- They always come to something. -/
theorem exists_resolves (s : σ) (inputs exclude : List String) :
    ∃ outcome, Resolves s inputs exclude outcome := by
  have hpattern (text : String) :
      (∃ test, Reads s text test) ∨ ∃ error, FileSource.test s text = .error error := by
    unfold Reads
    cases FileSource.test s text with
    | ok test => exact .inl ⟨test, rfl⟩
    | error error => exact .inr ⟨error, rfl⟩
  rcases forall₂_or_first hpattern exclude with
    ⟨tests, hsound⟩ | ⟨before, text, after, tests, error, hexclude, hsound, herror⟩
  · rcases forall₂_or_first (standsFor_or_refuses s) inputs with
      ⟨files, hstand⟩ | ⟨before, input, after, files, error, hinputs, hstand, hrefused⟩
    · by_cases hkept : kept tests files.flatten = []
      · exact ⟨_, .noFiles hsound hstand hkept⟩
      · exact ⟨_, .files hsound hstand hkept⟩
    · exact ⟨_, .badInput hsound hinputs hstand hrefused⟩
  · exact ⟨_, .badExclusion hexclude hsound herror⟩

theorem resolve_eq_iff {outcome : Except InputError (List String) × List Warning} :
    resolve s inputs exclude = outcome ↔ Resolves s inputs exclude outcome := by
  refine ⟨fun h => ?_, resolve_of_resolves⟩
  obtain ⟨other, hother⟩ := exists_resolves s inputs exclude
  rwa [← h, resolve_of_resolves hother]

/-- What the inputs of a successful resolution stand for. -/
theorem exists_of_resolve_ok {files : List String} (h : (resolve s inputs exclude).1 = .ok files) :
    ∃ tests lists, List.Forall₂ (Reads s) exclude tests ∧ List.Forall₂ (StandsFor s) inputs lists ∧
      files = kept tests lists.flatten := by
  have hresolves := resolve_eq_iff.mp (rfl : resolve s inputs exclude = _)
  generalize resolve s inputs exclude = outcome at h hresolves
  cases hresolves with
  | badExclusion => cases h
  | badInput => cases h
  | noFiles => cases h
  | files sound stand _ =>
      cases h
      exact ⟨_, _, sound, stand, rfl⟩

/-- Further inputs add files at the end. -/
theorem resolve_prefix {more files files' : List String} (h : (resolve s inputs exclude).1 = .ok files)
    (h' : (resolve s (inputs ++ more) exclude).1 = .ok files') : files <+: files' := by
  obtain ⟨tests, lists, hsound, hstand, rfl⟩ := exists_of_resolve_ok h
  obtain ⟨tests', lists', hsound', hstand', rfl⟩ := exists_of_resolve_ok h'
  -- Both resolutions read the same exclusions and find the same files behind the first inputs.
  obtain rfl : tests = tests' := by
    have hsame := mapM_eq_of_forall₂ (compile_of_reads hsound)
    rw [mapM_eq_of_forall₂ (compile_of_reads hsound')] at hsame
    exact (Except.ok.inj hsame).symm
  have hpass := gather_append hstand more
  rw [gather_of_standsFor hstand', Prod.mk.injEq] at hpass
  obtain ⟨later, _, hfiles⟩ := map_eq_ok hpass.1.symm
  rw [hfiles]
  exact kept_prefix tests lists.flatten later

/-- The inputs of a command are a listing without repetitions, in order. Exclusions are read before any input
is looked at, and the first malformed one fails the whole; else the first input does that names no file
and is malformed as a pattern or has a match that cannot be read. If none does, the result is the files of
all inputs laid end to end, an input that names a file standing for itself and a pattern for the files
among its matches, less those that an exclusion matches, each path where it occurs first; or the error that
there are none. A warning is given for exactly the patterns that match no file at all. So further inputs,
if the whole still succeeds, only add files at the end. -/
theorem resolve_lists (s : σ) (inputs exclude : List String) :
    (∀ outcome, resolve s inputs exclude = outcome ↔ Resolves s inputs exclude outcome) ∧
    ∀ more files files', (resolve s inputs exclude).1 = .ok files →
      (resolve s (inputs ++ more) exclude).1 = .ok files' → files <+: files' :=
  ⟨fun _ => resolve_eq_iff, fun _ _ _ => resolve_prefix⟩

end Resolving

/-- A disk with one file, two directories down. -/
def nestedDisk : Disk :=
  .ofWorking ["work"] [("src", .directory [("gen", .directory [("d.cs", .file ByteArray.empty)])])]

/-- The file by its name, the same one by a pattern, a pattern without matches, and the file under a spelling
that is excluded; behind them it comes under one that is not. -/
theorem resolve_lists_nested :
    let inputs := ["src/gen/d.cs", "src/**/*.cs", "*.md", "./src/gen/d.cs"]
    Resolves nestedDisk inputs ["./*"] (.ok ["src/gen/d.cs"], [.noMatch "*.md"]) ∧
    (resolve nestedDisk (inputs ++ ["src/../src/gen/d.cs"]) ["./*"]).1 =
      .ok ["src/gen/d.cs", "src/../src/gen/d.cs"] ∧
    ["src/gen/d.cs"] <+: ["src/gen/d.cs", "src/../src/gen/d.cs"] := by
  intro inputs
  have hfiles : (resolve nestedDisk inputs ["./*"]).1.toOption = some ["src/gen/d.cs"] := by
    decide +kernel
  have hwarnings : (resolve nestedDisk inputs ["./*"]).2 = [.noMatch "*.md"] := by decide +kernel
  have hmore : (resolve nestedDisk (inputs ++ ["src/../src/gen/d.cs"]) ["./*"]).1.toOption =
      some ["src/gen/d.cs", "src/../src/gen/d.cs"] := by
    decide +kernel
  obtain ⟨hresolves, hprefix⟩ := resolve_lists nestedDisk inputs ["./*"]
  have hfiles := eq_ok_of_toOption hfiles
  have hmore := eq_ok_of_toOption hmore
  exact ⟨(hresolves _).mp (Prod.ext hfiles hwarnings), hmore, hprefix _ _ _ hfiles hmore⟩

end Inputs

end ClassChart

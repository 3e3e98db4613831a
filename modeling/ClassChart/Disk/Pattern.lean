/-
# ClassChart.Disk.Pattern — wildcard patterns

A pattern is a text with `?` for any character, `*` for any run, `[…]` and `[!…]` for a character in or
out of a set, and `**` for any number of whole directories. `**` must be a component of its own. The
other wildcards do not stop at a slash; whoever wants that matches one component at a time.
-/
namespace ClassChart

/-! ## Pieces -/

/-- One character of a set, or a range with both ends. -/
inductive CharSpec where
  | single (c : Char)
  | range (low high : Char)
deriving DecidableEq, Repr

/-- Whether the character is meant. -/
def CharSpec.holds (c : Char) : CharSpec → Bool
  | single c' => c == c'
  | range low high => low ≤ c && c ≤ high

/-- A piece of a pattern. -/
inductive Glob where
  | char (c : Char)
  | anyChar
  | within (specs : List CharSpec)
  | except (specs : List CharSpec)
  | anyRun
  | anyDirectories
deriving DecidableEq, Repr

/-- A pattern is a sequence of pieces. -/
abbrev Pattern := List Glob

/-! ## Errors -/

/-- What is wrong with a pattern. -/
inductive PatternFault where
  | tooManyStars
  | mixedComponent
  | badSet
deriving DecidableEq, Repr

/-- A fault, with the number of characters before it. -/
structure PatternError where
  position : Nat
  fault : PatternFault
deriving DecidableEq, Repr

/-- The fault in words. -/
def PatternFault.message : PatternFault → String
  | tooManyStars => "wildcards are either regular `*` or recursive `**`"
  | mixedComponent => "recursive wildcards must form a single path component"
  | badSet => "invalid range pattern"

/-- The error in words. -/
def PatternError.message (e : PatternError) : String :=
  "Pattern syntax error near position " ++ toString e.position ++ ": " ++ e.fault.message

namespace Pattern

/-! ## Reading -/

/-- The characters and ranges of a set. -/
def specs : List Char → List CharSpec
  | low :: '-' :: high :: rest => .range low high :: specs rest
  | c :: rest => .single c :: specs rest
  | [] => []

/-- The set behind an opening bracket, and the number of characters up to and including the closing
one. The first character of a set may be a bracket, so the closing one is sought behind it. -/
def set? (rest : List Char) : Option (Glob × Nat) :=
  let closing (skipped : Nat) : Option Nat := (rest.drop skipped).findIdx? (· = ']')
  if rest.head? = some '!' then
    if 3 ≤ rest.length then
      (closing 2).map fun j => (.except (specs ((rest.drop 1).take (j + 1))), j + 3)
    else none
  else if 2 ≤ rest.length then
    (closing 1).map fun j => (.within (specs (rest.take (j + 1))), j + 2)
  else none

/-- Reads a pattern from position `here` on, behind the character `before`. -/
def read (here : Nat) (before : Option Char) (text : List Char) : Except PatternError Pattern :=
  match text with
  | [] => .ok []
  | '?' :: rest => (read (here + 1) (some '?') rest).map (.anyChar :: ·)
  | '[' :: rest =>
    match set? rest with
    | none => .error ⟨here, .badSet⟩
    | some (piece, count) =>
      (read (here + 1 + count) (some ']') (rest.drop count)).map (piece :: ·)
  | '*' :: '*' :: '*' :: _ => .error ⟨here + 2, .tooManyStars⟩
  | '*' :: '*' :: rest =>
    if before.any (· ≠ '/') then .error ⟨here - 1, .mixedComponent⟩
    else match rest with
      | [] => .ok [.anyDirectories]
      | '/' :: later => (read (here + 3) (some '/') later).map (.anyDirectories :: ·)
      | _ => .error ⟨here + 2, .mixedComponent⟩
  | '*' :: rest => (read (here + 1) (some '*') rest).map (.anyRun :: ·)
  | c :: rest => (read (here + 1) (some c) rest).map (.char c :: ·)
termination_by text.length

/-- Reads a pattern. -/
def ofText (text : String) : Except PatternError Pattern := read 0 none text.toList

/-! ## Matching -/

/-- Whether the test holds of the text or of what is left of it after some characters. -/
def onSomeTail (test : List Char → Bool) : List Char → Bool
  | [] => test []
  | c :: rest => test (c :: rest) || onSomeTail test rest

/-- Whether the test holds of what follows some slash of the text, or of nothing at all. -/
def behindSomeSlash (test : List Char → Bool) : List Char → Bool
  | [] => test []
  | c :: rest => (c == '/' && test rest) || behindSomeSlash test rest

/-- Whether the text begins with a character that passes, and the test holds of what follows. -/
def onNext (passes : Char → Bool) (test : List Char → Bool) : List Char → Bool
  | [] => false
  | c :: rest => passes c && test rest

/-- Whether a pattern matches a whole text. -/
def matchesAll : Pattern → List Char → Bool
  | [] => List.isEmpty
  | .char c :: rest => onNext (· == c) (matchesAll rest)
  | .anyChar :: rest => onNext (fun _ => true) (matchesAll rest)
  | .within specs :: rest => onNext (fun c => specs.any (·.holds c)) (matchesAll rest)
  | .except specs :: rest => onNext (fun c => !specs.any (·.holds c)) (matchesAll rest)
  | .anyRun :: rest => onSomeTail (matchesAll rest)
  | .anyDirectories :: rest => fun text =>
    matchesAll rest text || behindSomeSlash (matchesAll rest) text

/-- Whether a pattern matches a text. -/
def isMatch (p : Pattern) (text : String) : Bool := matchesAll p text.toList

/-- The characters that a pattern without wildcards stands for. -/
def characters? : Pattern → Option (List Char)
  | [] => some []
  | .char c :: rest => (characters? rest).map (c :: ·)
  | _ => none

/-- The text that a pattern without wildcards stands for. -/
def literal? (p : Pattern) : Option String := p.characters?.map String.ofList

/-- Whether the pattern is the component `**`. -/
def isRecursive (p : Pattern) : Bool := p == [.anyDirectories]

end Pattern

end ClassChart

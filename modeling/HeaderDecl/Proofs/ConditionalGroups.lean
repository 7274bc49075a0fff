import HeaderDecl.Directive.Line
import Mathlib.Tactic.SplitIfs

/-!
The conditional groups of a file: the lines of a file whose conditionals nest, as a tree. The lines
of a file come from one tree at most, and `Parts.ofLines` finds it.
-/

namespace HeaderDecl

def Line.conditionalWords : List String := ["if", "ifdef", "ifndef", "elif", "else", "endif"]

/-- Whether a line is a directive of conditionals. -/
def Line.isConditional : Line → Bool
  | .directive _ (name :: _) => conditionalWords.contains name.text
  | _ => false

namespace Preprocess

/-- A directive of a given name. -/
structure Marker (word : String) where
  hash : Token
  name : Token
  rest : List Token
  spelled : name.text = word

def Marker.line {word : String} (d : Marker word) : Line := .directive d.hash (d.name :: d.rest)

inductive Opening where
  | ifTrue (d : Marker "if")
  | ifdef (d : Marker "ifdef")
  | ifndef (d : Marker "ifndef")

def Opening.line : Opening → Line
  | .ifTrue d => d.line
  | .ifdef d => d.line
  | .ifndef d => d.line

mutual

/-- Lines whose conditionals nest: plain lines, and groups with their branches. -/
inductive Parts where
  | nil
  | plain (line : Line) (free : line.isConditional = false) (rest : Parts)
  | group (opening : Opening) (body : Parts) (later : Branches) (rest : Parts)

/-- What follows the first branch of a group, up to its end. -/
inductive Branches where
  | elseIf (d : Marker "elif") (body : Parts) (later : Branches)
  | otherwise (d : Marker "else") (body : Parts) (close : Marker "endif")
  | close (d : Marker "endif")

end

mutual

def Parts.lines : Parts → List Line
  | .nil => []
  | .plain l _ rest => l :: rest.lines
  | .group opening body later rest => opening.line :: (body.lines ++ (later.lines ++ rest.lines))

def Branches.lines : Branches → List Line
  | .elseIf d body later => d.line :: (body.lines ++ later.lines)
  | .otherwise d body close => d.line :: (body.lines ++ [close.line])
  | .close d => [d.line]

end

/-! ### Lines by what they do to groups -/

inductive Mark where
  | plain (l : Line) (free : l.isConditional = false)
  | opens (opening : Opening)
  | elseIf (d : Marker "elif")
  | otherwise (d : Marker "else")
  | close (d : Marker "endif")

def Mark.line : Mark → Line
  | .plain l _ => l
  | .opens opening => opening.line
  | .elseIf d => d.line
  | .otherwise d => d.line
  | .close d => d.line

def Mark.ofLine : Line → Mark
  | .directive hash (name :: rest) =>
    if h : name.text = "if" then .opens (.ifTrue ⟨hash, name, rest, h⟩)
    else if h : name.text = "ifdef" then .opens (.ifdef ⟨hash, name, rest, h⟩)
    else if h : name.text = "ifndef" then .opens (.ifndef ⟨hash, name, rest, h⟩)
    else if h : name.text = "elif" then .elseIf ⟨hash, name, rest, h⟩
    else if h : name.text = "else" then .otherwise ⟨hash, name, rest, h⟩
    else if h : name.text = "endif" then .close ⟨hash, name, rest, h⟩
    else .plain (.directive hash (name :: rest))
      (by simp [Line.isConditional, Line.conditionalWords, *])
  | .directive hash [] => .plain (.directive hash []) rfl
  | .text tokens => .plain (.text tokens) rfl

theorem Mark.line_ofLine (l : Line) : (Mark.ofLine l).line = l := by
  unfold Mark.ofLine
  split
  · split_ifs <;> rfl
  · rfl
  · rfl

theorem Mark.ofLine_line (m : Mark) : Mark.ofLine m.line = m := by
  cases m with
  | plain l free =>
    cases l with
    | text tokens => rfl
    | directive hash line =>
      cases line with
      | nil => rfl
      | cons name rest =>
        -- Its name is none of the words that `Mark.ofLine` asks for.
        have other := free
        simp [Line.isConditional, Line.conditionalWords] at other
        simp [Mark.line, Mark.ofLine, other]
  | opens opening =>
    cases opening with
    | ifTrue d => simp [Mark.line, Opening.line, Marker.line, Mark.ofLine, d.spelled]
    | ifdef d => simp [Mark.line, Opening.line, Marker.line, Mark.ofLine, d.spelled]
    | ifndef d => simp [Mark.line, Opening.line, Marker.line, Mark.ofLine, d.spelled]
  | elseIf d => simp [Mark.line, Marker.line, Mark.ofLine, d.spelled]
  | otherwise d => simp [Mark.line, Marker.line, Mark.ofLine, d.spelled]
  | close d => simp [Mark.line, Marker.line, Mark.ofLine, d.spelled]

/-! ### From lines to groups -/

/-- What the end of a file comes to: parts, and behind them the groups that begin further up, each
with the branches read so far and what follows it. -/
structure Ending where
  parts : Parts
  groups : List (Branches × Parts)

def Ending.lines (s : Ending) : List Line :=
  s.parts.lines ++ s.groups.flatMap fun (later, rest) => later.lines ++ rest.lines

/-- Puts a line in front. -/
def Ending.cons : Mark → Ending → Option Ending
  | .plain l free, ⟨p, groups⟩ => some ⟨.plain l free p, groups⟩
  | .opens opening, ⟨p, (later, rest) :: groups⟩ => some ⟨.group opening p later rest, groups⟩
  | .elseIf d, ⟨p, (later, rest) :: groups⟩ => some ⟨.nil, (.elseIf d p later, rest) :: groups⟩
  | .otherwise d, ⟨p, (.close e, rest) :: groups⟩ =>
    some ⟨.nil, (.otherwise d p e, rest) :: groups⟩
  | .close d, ⟨p, groups⟩ => some ⟨.nil, (.close d, p) :: groups⟩
  | _, _ => none

/-- Reads lines from the last one to the first. -/
def Ending.ofLines : List Line → Option Ending
  | [] => some ⟨.nil, []⟩
  | l :: ls => (Ending.ofLines ls).bind (Ending.cons (Mark.ofLine l))

/-- The groups of a file, if its conditionals nest. -/
def Parts.ofLines (ls : List Line) : Option Parts :=
  match Ending.ofLines ls with
  | some ⟨p, []⟩ => some p
  | _ => none

theorem Ending.lines_cons {m : Mark} {s t : Ending} (h : Ending.cons m s = some t) :
    t.lines = m.line :: s.lines := by
  unfold Ending.cons at h
  split at h
  all_goals cases h
  all_goals simp [Ending.lines, Parts.lines, Branches.lines, Mark.line]

theorem Ending.lines_ofLines {ls : List Line} {s : Ending} (h : Ending.ofLines ls = some s) :
    s.lines = ls := by
  induction ls generalizing s with
  | nil =>
    cases h
    rfl
  | cons l ls ih =>
    obtain ⟨t, ht, hs⟩ := Option.bind_eq_some_iff.mp h
    rw [Ending.lines_cons hs, ih ht, Mark.line_ofLine]

def Parts.append : Parts → Parts → Parts
  | .nil, q => q
  | .plain l free rest, q => .plain l free (rest.append q)
  | .group opening body later rest, q => .group opening body later (rest.append q)

theorem Parts.append_nil : (p : Parts) → p.append .nil = p
  | .nil => rfl
  | .plain l free rest => by rw [Parts.append, Parts.append_nil rest]
  | .group opening body later rest => by rw [Parts.append, Parts.append_nil rest]

theorem Ending.ofLines_cons {ls : List Line} {s : Ending} (h : Ending.ofLines ls = some s)
    (m : Mark) : Ending.ofLines (m.line :: ls) = Ending.cons m s := by
  rw [Ending.ofLines, h, Mark.ofLine_line]
  rfl

-- The lines behind are read first, so what they come to is given, and the parts go in front of it.

mutual

theorem Ending.ofLines_parts : (p : Parts) → ∀ {ls : List Line} {s : Ending},
    Ending.ofLines ls = some s →
      Ending.ofLines (p.lines ++ ls) = some ⟨p.append s.parts, s.groups⟩
  | .nil, _, _, h => h
  | .plain l free rest, ls, s, h =>
    Ending.ofLines_cons (Ending.ofLines_parts rest h) (.plain l free)
  | .group opening body later rest, ls, s, h => by
    have behind := Ending.ofLines_branches later (Ending.ofLines_parts rest h)
    have inside := Ending.ofLines_parts body behind
    rw [Parts.append_nil] at inside
    rw [Parts.lines, List.cons_append, List.append_assoc, List.append_assoc]
    exact Ending.ofLines_cons inside (.opens opening)

theorem Ending.ofLines_branches : (b : Branches) → ∀ {ls : List Line} {s : Ending},
    Ending.ofLines ls = some s →
      Ending.ofLines (b.lines ++ ls) = some ⟨.nil, (b, s.parts) :: s.groups⟩
  | .elseIf d body later, ls, s, h => by
    have inside := Ending.ofLines_parts body (Ending.ofLines_branches later h)
    rw [Parts.append_nil] at inside
    rw [Branches.lines, List.cons_append, List.append_assoc]
    exact Ending.ofLines_cons inside (.elseIf d)
  | .otherwise d body close, ls, s, h => by
    have inside := Ending.ofLines_parts body (Ending.ofLines_cons h (.close close))
    rw [Parts.append_nil] at inside
    rw [Branches.lines, List.cons_append, List.append_assoc]
    exact Ending.ofLines_cons inside (.otherwise d)
  | .close d, ls, s, h => Ending.ofLines_cons h (.close d)

end

/-- The lines of a file come from one tree at most, which is found. -/
theorem Parts.ofLines_eq_some {ls : List Line} {p : Parts} :
    Parts.ofLines ls = some p ↔ p.lines = ls := by
  constructor
  · intro h
    unfold Parts.ofLines at h
    split at h
    · cases h
      rename_i h
      have lines := Ending.lines_ofLines h
      simpa [Ending.lines] using lines
    · cases h
  · rintro rfl
    have start : Ending.ofLines [] = some ⟨.nil, []⟩ := rfl
    have read := Ending.ofLines_parts p start
    rw [List.append_nil, Parts.append_nil] at read
    rw [Parts.ofLines, read]

end Preprocess

end HeaderDecl

import HeaderDecl.Grammar.Skip

/-!
A place among the tokens that are read. Every step goes on by dropping tokens from the front.
-/

namespace HeaderDecl.Grammar

/-- The tokens ahead, up to the end token. Their number is kept, so that a step which reads nothing is
found out at once. -/
structure Cursor where
  ahead : List Token
  left : Nat
  left_eq : left = ahead.length

namespace Cursor

def ofTokens (ts : List Token) : Cursor := ⟨ts, ts.length, rfl⟩

/-- Places with the same tokens ahead are the same. -/
@[ext]
theorem ext {s s' : Cursor} (h : s.ahead = s'.ahead) : s = s' := by
  obtain ⟨ts, n, hn⟩ := s
  obtain ⟨ts', n', hn'⟩ := s'
  subst h hn hn'
  rfl

/-- The place some tokens further on, or the end. -/
def drop (s : Cursor) (n : Nat) : Cursor := ⟨s.ahead.drop n, s.left - n, by simp [s.left_eq]⟩

@[simp]
theorem left_drop (s : Cursor) (n : Nat) : (s.drop n).left = s.left - n := rfl

@[simp]
theorem ahead_drop (s : Cursor) (n : Nat) : (s.drop n).ahead = s.ahead.drop n := rfl

/-- The tokens from here up to a later place. -/
def upTo (s s' : Cursor) : List Token := s.ahead.take (s.left - s'.left)

/-- The place behind all attributes that begin here. -/
def afterAttributes (s : Cursor) : Cursor :=
  match h : attributeTokens s.ahead with
  | [] => s
  | _ :: ts => (s.drop (ts.length + 1)).afterAttributes
termination_by s.left
decreasing_by
  have : s.ahead ≠ [] := by
    intro hs
    simp [hs, attributeTokens] at h
  have := List.length_pos_iff.2 this
  simp only [left_drop, s.left_eq]
  omega

end Cursor

end HeaderDecl.Grammar

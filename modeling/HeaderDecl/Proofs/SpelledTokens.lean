import HeaderDecl.Proofs.PlainNames
import HeaderDecl.Proofs.TokenTiling

/-!
Tokens with texts that tokens of their kind are lexed with. All tokens that are lexed from a file are
such. One that is pasted need not be: behind its kind, that of its first token, a comment may stand in
its text.
-/

namespace HeaderDecl

/-- Whether a name or a punctuator may be spelled by a text. -/
def TokenKind.Spells : TokenKind → String → Prop
  | .identifier, text => Name.Plain text
  | .punct p, text => (text.toList, p) ∈ Punct.spellings
  | _, _ => True

instance : (kind : TokenKind) → (text : String) → Decidable (kind.Spells text)
  | .identifier, text => inferInstanceAs (Decidable (Name.Plain text))
  | .punct p, text => inferInstanceAs (Decidable ((text.toList, p) ∈ Punct.spellings))
  | .kw _, _ | .number, _ | .string, _ | .charLiteral, _ | .unknown, _ | .eof, _ | .error _, _ =>
    .isTrue trivial

namespace Token

/-- Whether a name or a punctuator is spelled like one. -/
def Spelled (t : Token) : Prop := t.kind.Spells t.text

instance (t : Token) : Decidable t.Spelled := inferInstanceAs (Decidable (t.kind.Spells t.text))

variable {t : Token}

theorem Spelled.plain (h : t.Spelled) (kind : t.kind = .identifier) : Name.Plain t.text := by
  rwa [Spelled, kind] at h

theorem Spelled.spelling (h : t.Spelled) {p : Punct} (kind : t.kind = .punct p) :
    (t.text.toList, p) ∈ Punct.spellings := by
  rwa [Spelled, kind] at h

theorem spelled_of_isEof (h : t.isEof = true) : t.Spelled := by
  have kind : t.kind = .eof := eq_of_beq h
  rw [Spelled, kind]
  trivial

end Token

/-! ### Lexing -/

theorem spells_literalKind (quote : Char) (closed : Bool) (text : String) :
    (literalKind quote closed).Spells text := by
  unfold literalKind
  split <;> split <;> trivial

/-- A word is a keyword, or a name of all its characters. -/
theorem spells_wordKind {c : Char} (cs : List Char) (begins : isIdentifierStart c = true) :
    (wordKind ((c :: cs).takeWhile isIdentifierContinue)).Spells
      (String.ofList ((c :: cs).takeWhile isIdentifierContinue)) := by
  unfold wordKind
  split
  · trivial
  · refine ⟨?_, fun d hd => ?_⟩
    · rw [List.takeWhile_cons_of_pos (isIdentifierContinue_of_start begins)]
      simp [← String.toList_inj]
    · rw [String.toList_ofList] at hd
      exact List.mem_takeWhile_imp hd

theorem spells_scanWord {c : Char} (cs : List Char) (begins : isIdentifierStart c = true) :
    (scanWord (c :: cs)).1.Spells (String.ofList ((c :: cs).take (scanWord (c :: cs)).2)) := by
  have word : (c :: cs).take ((c :: cs).takeWhile isIdentifierContinue).length =
      (c :: cs).takeWhile isIdentifierContinue :=
    List.prefix_iff_eq_take.mp (List.takeWhile_prefix _) |>.symm
  unfold scanWord
  dsimp only
  split
  · split
    · exact spells_literalKind _ _ _
    · dsimp only
      rw [word]
      exact spells_wordKind cs begins
  · dsimp only
    rw [word]
    exact spells_wordKind cs begins

theorem TokenKind.spells_scan (cs : List Char) :
    (TokenKind.scan cs).1.Spells (String.ofList (cs.take (TokenKind.scan cs).2)) := by
  cases cs with
  | nil => trivial
  | cons c cs =>
    rw [TokenKind.scan]
    split
    · trivial
    split
    · trivial
    split
    · trivial
    split
    · exact spells_literalKind _ _ _
    split
    · exact spells_scanWord cs ‹_›
    split
    · rename_i spelling p found
      have taken := (Punct.take_of_scan found).1
      rw [taken, TokenKind.Spells, String.toList_ofList]
      exact List.mem_of_find?_eq_some found
    · trivial

theorem Lexer.spelled_of_next {s t : Lexer} {token : Token} (h : s.next = some (token, t)) :
    token.Spelled := by
  unfold Lexer.next at h
  split at h
  · cases h
  · cases h
    exact TokenKind.spells_scan _

theorem Lexer.spelled_of_mem_toList {s : Lexer} : ∀ t ∈ s.toList, t.Spelled := by
  -- Each token leaves less of the text.
  induction size : s.remaining using Nat.strongRecOn generalizing s with
  | ind size ih =>
  subst size
  cases next : s.next with
  | none => simp [Lexer.toList_of_finished (Lexer.next_eq_none.1 next)]
  | some pair =>
    obtain ⟨token, later⟩ := pair
    rw [Lexer.toList_of_next next]
    intro t ht
    rcases List.mem_cons.mp ht with rfl | ht
    · exact Lexer.spelled_of_next next
    · exact ih later.remaining (Lexer.remaining_lt_of_next next) rfl t ht

/-- The tokens of a file are spelled as their kinds are. -/
theorem spelled_of_mem_lex {file source : String} : ∀ t ∈ lex file source, t.Spelled :=
  Lexer.spelled_of_mem_toList

end HeaderDecl

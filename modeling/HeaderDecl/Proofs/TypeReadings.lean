import HeaderDecl.Decl.TypeRef
import HeaderDecl.Proofs.BracketedText

/-!
What the text of a type tells. A qualifier stands first in it wherever it applies, and a word tells no
more than its spelling. Apart from that a text tells all of the type, as long as its words are no text
of other types themselves.
-/

namespace HeaderDecl

open Text

inductive Qualifier where
  | const | volatile
deriving DecidableEq

def Qualifier.text : Qualifier → List Char
  | const => ['c', 'o', 'n', 's', 't', ' ']
  | volatile => ['v', 'o', 'l', 'a', 't', 'i', 'l', 'e', ' ']

/-- The first letters tell which qualifier it is. -/
theorem Qualifier.eq_of_append {q q' : Qualifier} {l l' : List Char}
    (h : q.text ++ l = q'.text ++ l') : q = q' := by
  cases q <;> cases q' <;> simp [Qualifier.text] at h ⊢

def Qualifiers.front (q : Qualifiers) : List Qualifier :=
  (if q.isConst then [.const] else []) ++ (if q.isVolatile then [.volatile] else [])

/-- A sign behind a type. -/
inductive Sign where
  | pointer | reference | rvalueReference
deriving DecidableEq

def Sign.text : Sign → List Char
  | pointer => [' ', '*']
  | reference => [' ', '&']
  | rvalueReference => [' ', '&', '&']

/-- What a text tells of a type. The qualifiers stand before the word that the text begins with; a
literal argument is a word. -/
inductive Reading where
  | word (front : List Qualifier) (spelling : String)
  | instantiation (front : List Qualifier) (template : String) (args : List Reading)
  | signed (r : Reading) (sign : Sign)
  | array (r : Reading) (size : String)
  | function (pointed : Bool) (result : Reading) (params : List Reading) (variadic : Bool)

def frontText (front : List Qualifier) : List Char := front.flatMap Qualifier.text

def ellipsis : List Char := ['.', '.', '.']

namespace Reading

mutual

def text : Reading → List Char
  | .word front spelling => frontText front ++ spelling.toList
  | .instantiation front template args =>
    frontText front ++ template.toList ++ Bracket.angle.enclose (listed (texts args))
  | .signed r sign => r.text ++ sign.text
  | .array r size => r.text ++ Bracket.square.enclose size.toList
  | .function pointed result params variadic =>
    result.text ++ (if pointed then ' ' :: Bracket.round.enclose ['*'] else []) ++
      Bracket.round.enclose (listed (texts params ++ if variadic then [ellipsis] else []))

def texts : List Reading → List (List Char)
  | [] => []
  | r :: rs => r.text :: texts rs

end

/-- What a word of a type may be: it neither ends like a longer type nor begins with a qualifier, and
has commas in brackets only. -/
structure IsWord (l : List Char) : Prop where
  item : IsItem l
  last : ∀ c ∈ l.getLast?, c ∉ ['*', '&', ']', ')', '>']
  unqualified : ∀ q : Qualifier, ¬ q.text <+: l
  notEllipsis : l ≠ ellipsis

theorem isWord_of_chars {l : List Char} (nonempty : l ≠ [])
    (chars : ∀ c ∈ l, c.isAlphanum ∨ c ∈ ['_', ':', ' '])
    (unqualified : ∀ q : Qualifier, ¬ q.text <+: l) : IsWord l := by
  have absent (c : Char) (other : ¬ (c.isAlphanum ∨ c ∈ ['_', ':', ' '])) : c ∉ l :=
    fun there => other (chars c there)
  refine ⟨⟨nonempty, balanced_of_plain fun k => ?_, sealed_of_notMem (absent ',' (by decide))⟩, ?_,
    unqualified, ?_⟩
  · constructor <;> apply absent <;> cases k <;> decide
  · intro c last marked
    have there := List.mem_of_getLast? last
    simp only [List.mem_cons, List.not_mem_nil, or_false] at marked
    rcases marked with rfl | rfl | rfl | rfl | rfl <;> exact absent _ (by decide) there
  · rintro rfl
    exact absent '.' (by decide) (by decide)

theorem isWord_primitive (p : Primitive) : IsWord p.render.toList := by
  have letters : p.render.toList.all (fun c => c.isAlphanum || c == ' ') = true := by
    cases p <;> decide
  apply isWord_of_chars
  · cases p <;> decide
  · intro c there
    have other := List.all_eq_true.mp letters c there
    rw [Bool.or_eq_true, beq_iff_eq] at other
    rcases other with letter | rfl
    · exact .inl letter
    · exact .inr (by decide)
  · intro q
    cases p <;> cases q <;> decide

mutual

/-- Whether all words of a reading are words. -/
def Legible : Reading → Prop
  | .word _ spelling => IsWord spelling.toList
  | .instantiation _ template args => IsWord template.toList ∧ LegibleAll args
  | .signed r _ => r.Legible
  | .array r size => r.Legible ∧ Balanced size.toList
  | .function _ result params _ => result.Legible ∧ LegibleAll params

def LegibleAll : List Reading → Prop
  | [] => True
  | r :: rs => r.Legible ∧ LegibleAll rs

end

/-! ### Texts are items of lists -/

theorem isItem_ellipsis : IsItem ellipsis :=
  ⟨by decide, balanced_of_plain fun k => by cases k <;> decide, sealed_of_notMem (by decide)⟩

theorem balanced_frontText (front : List Qualifier) : Balanced (frontText front) := by
  induction front with
  | nil => exact balanced_of_plain fun k => by simp [frontText]
  | cons q front ih =>
    have first : Balanced q.text := by
      apply balanced_of_plain
      intro k
      cases q <;> cases k <;> decide
    exact first.append ih

theorem sealed_frontText (front : List Qualifier) : Sealed (frontText front) := by
  apply sealed_of_notMem
  intro comma
  obtain ⟨q, -, inside⟩ := List.mem_flatMap.mp comma
  cases q <;> revert inside <;> decide

theorem isItem_front {a : List Char} (ha : IsItem a) (front : List Qualifier) :
    IsItem (frontText front ++ a) :=
  ha.before (balanced_frontText front) (sealed_frontText front)

/-- A mark behind a type, without brackets and commas. -/
theorem isItem_marked {a b : List Char} (ha : IsItem a)
    (plain : ∀ k : Bracket, k.opening ∉ b ∧ k.closing ∉ b) (comma : ',' ∉ b) : IsItem (a ++ b) :=
  ha.behind (balanced_of_plain plain) (sealed_of_notMem comma)

theorem isItem_pointed {a : List Char} (ha : IsItem a) (pointed : Bool) :
    IsItem (a ++ if pointed then ' ' :: Bracket.round.enclose ['*'] else []) := by
  cases pointed with
  | false => exact isItem_marked ha (fun k => by simp) (by simp)
  | true =>
    have spaced : IsItem (a ++ [' ']) := isItem_marked ha (fun k => by cases k <;> decide) (by decide)
    have star : Balanced ['*'] := balanced_of_plain fun k => by cases k <;> decide
    have whole := spaced.enclose star .round
    rw [List.append_assoc] at whole
    exact whole

/-- The items between the parentheses of a function. -/
def paramTexts (params : List Reading) (variadic : Bool) : List (List Char) :=
  texts params ++ if variadic then [ellipsis] else []

theorem isItem_paramTexts {params : List Reading} (h : ∀ a ∈ texts params, IsItem a) (variadic : Bool) :
    ∀ a ∈ paramTexts params variadic, IsItem a := by
  intro a ha
  rcases List.mem_append.mp ha with ha | ha
  · exact h a ha
  · cases variadic with
    | false => cases ha
    | true =>
      rw [List.mem_singleton.mp ha]
      exact isItem_ellipsis

mutual

theorem isItem_text : ∀ r : Reading, r.Legible → IsItem r.text
  | .word front spelling, h => by
    unfold Legible at h
    unfold text
    exact isItem_front h.item front
  | .instantiation front template args, h => by
    unfold Legible at h
    unfold text
    have items := isItem_texts args h.2
    exact (isItem_front h.1.item front).enclose (balanced_listed fun a ha => (items a ha).balanced) _
  | .signed r sign, h => by
    unfold Legible at h
    unfold text
    exact isItem_marked (isItem_text r h) (fun k => by cases sign <;> cases k <;> decide)
      (by cases sign <;> decide)
  | .array r size, h => by
    unfold Legible at h
    unfold text
    exact (isItem_text r h.1).enclose h.2 _
  | .function pointed result params variadic, h => by
    unfold Legible at h
    unfold text
    have items := isItem_paramTexts (isItem_texts params h.2) variadic
    exact (isItem_pointed (isItem_text result h.1) pointed).enclose
      (balanced_listed fun a ha => (items a ha).balanced) _

theorem isItem_texts : ∀ rs : List Reading, LegibleAll rs → ∀ a ∈ texts rs, IsItem a
  | [], _ => by simp [texts]
  | r :: rs, h => by
    unfold LegibleAll at h
    unfold texts
    intro a ha
    rcases List.mem_cons.mp ha with rfl | ha
    · exact isItem_text r h.1
    · exact isItem_texts rs h.2 a ha

end

/-! ### Marks -/

/-- What a type is at its outside. -/
inductive Mark where
  | word | instantiation | array | function
  | sign (sign : Sign)

def mark : Reading → Mark
  | .word _ _ => .word
  | .instantiation _ _ _ => .instantiation
  | .signed _ sign => .sign sign
  | .array _ _ => .array
  | .function _ _ _ _ => .function

/-- What a text says of the outside of its type, at its end. -/
def markAt : List Char → Mark
  | '*' :: _ => .sign .pointer
  | '&' :: '&' :: _ => .sign .rvalueReference
  | '&' :: _ => .sign .reference
  | ']' :: _ => .array
  | ')' :: _ => .function
  | '>' :: _ => .instantiation
  | _ => .word

theorem markAt_word {l rest : List Char} (h : IsWord l) : markAt (l.reverse ++ rest) = .word := by
  cases behind : l.reverse with
  | nil => exact False.elim (h.item.nonempty (List.reverse_eq_nil_iff.mp behind))
  | cons c cs =>
    have last : l.getLast? = some c := by
      rw [← List.head?_reverse, behind, List.head?_cons]
    have other := h.last c last
    simp only [List.mem_cons, List.not_mem_nil, or_false, not_or] at other
    obtain ⟨star, amp, square, round, angle⟩ := other
    unfold markAt
    split <;> simp_all

/-- The end of a text tells what the type is at its outside. -/
theorem markAt_reverse_text (r : Reading) (h : r.Legible) : markAt r.text.reverse = r.mark := by
  cases r with
  | word front spelling =>
    unfold Legible at h
    rw [text, List.reverse_append]
    exact markAt_word h
  | instantiation front template args => simp [text, mark, markAt, Bracket.enclose, Bracket.closing]
  | signed r sign => cases sign <;> simp [text, Sign.text, mark, markAt]
  | array r size => simp [text, mark, markAt, Bracket.enclose, Bracket.closing]
  | function pointed result params variadic =>
    simp [text, mark, markAt, Bracket.enclose, Bracket.closing]

theorem mark_eq {r r' : Reading} (h : r.Legible) (h' : r'.Legible) (same : r.text = r'.text) :
    r.mark = r'.mark := by
  rw [← markAt_reverse_text r h, ← markAt_reverse_text r' h', same]

/-! ### The text determines the reading -/

theorem frontText_injective {front front' : List Qualifier} {l l' : List Char}
    (h : ∀ q : Qualifier, ¬ q.text <+: l) (h' : ∀ q : Qualifier, ¬ q.text <+: l')
    (same : frontText front ++ l = frontText front' ++ l') : front = front' ∧ l = l' := by
  induction front generalizing front' with
  | nil =>
    cases front' with
    | nil => exact ⟨rfl, same⟩
    | cons q front' =>
      refine False.elim (h q ⟨frontText front' ++ l', ?_⟩)
      rw [← List.append_assoc]
      exact same.symm
  | cons q front ih =>
    cases front' with
    | nil =>
      refine False.elim (h' q ⟨frontText front ++ l, ?_⟩)
      rw [← List.append_assoc]
      exact same
    | cons q' front' =>
      have whole : q.text ++ (frontText front ++ l) = q'.text ++ (frontText front' ++ l') := by
        rw [← List.append_assoc, ← List.append_assoc]
        exact same
      obtain rfl := Qualifier.eq_of_append whole
      obtain ⟨fronts, rest⟩ := ih (List.append_cancel_left whole)
      exact ⟨by rw [fronts], rest⟩

theorem text_ne_star {r : Reading} (h : r.Legible) : r.text ≠ ['*'] := by
  intro star
  have outside := markAt_reverse_text r h
  rw [star] at outside
  cases r with
  | signed r sign =>
    have length := congrArg List.length star
    cases sign <;> simp [text, Sign.text] at length
  | _ => cases outside

theorem text_ne_ellipsis {r : Reading} (h : r.Legible) : r.text ≠ ellipsis := by
  intro dots
  have outside := markAt_reverse_text r h
  rw [dots] at outside
  cases r with
  | word front spelling =>
    unfold Legible at h
    have whole : frontText front ++ spelling.toList = frontText [] ++ ellipsis := by
      rw [text] at dots
      exact dots
    have plain (q : Qualifier) : ¬ q.text <+: ellipsis := by cases q <;> decide
    exact h.notEllipsis (frontText_injective h.unqualified plain whole).2
  | _ => cases outside

theorem exists_of_mem_texts {rs : List Reading} (h : LegibleAll rs) {a : List Char}
    (ha : a ∈ texts rs) : ∃ r : Reading, r.Legible ∧ r.text = a := by
  induction rs with
  | nil => cases ha
  | cons r rs ih =>
    unfold LegibleAll at h
    unfold texts at ha
    rcases List.mem_cons.mp ha with rfl | ha
    · exact ⟨r, h.1, rfl⟩
    · exact ih h.2 ha

theorem paramTexts_injective {params params' : List Reading} (h : LegibleAll params)
    (h' : LegibleAll params') {variadic variadic' : Bool}
    (same : paramTexts params variadic = paramTexts params' variadic') :
    texts params = texts params' ∧ variadic = variadic' := by
  -- No parameter is written like the ellipsis.
  have apart {ps ps' : List Reading} (legible : LegibleAll ps) :
      texts ps ≠ texts ps' ++ [ellipsis] := by
    intro whole
    obtain ⟨r, hr, dots⟩ := exists_of_mem_texts legible (a := ellipsis) (by rw [whole]; simp)
    exact text_ne_ellipsis hr dots
  unfold paramTexts at same
  cases variadic <;> cases variadic' <;> simp only [if_true, Bool.false_eq_true, if_false,
    List.append_nil] at same
  · exact ⟨same, rfl⟩
  · exact False.elim (apart h same)
  · exact False.elim (apart h' same.symm)
  · exact ⟨List.append_cancel_right same, rfl⟩

theorem listed_paramTexts_ne_star {params : List Reading} (h : LegibleAll params) (variadic : Bool) :
    listed (paramTexts params variadic) ≠ ['*'] := by
  intro star
  have items := isItem_paramTexts (isItem_texts params h) variadic
  have itself : IsItem ['*'] :=
    ⟨by decide, balanced_of_plain fun k => by cases k <;> decide, sealed_of_notMem (by decide)⟩
  have one : paramTexts params variadic = [['*']] :=
    listed_injective items (by simpa using itself) star
  have there : ['*'] ∈ paramTexts params variadic := by
    rw [one]
    exact List.mem_singleton.mpr rfl
  rcases List.mem_append.mp there with there | there
  · obtain ⟨r, hr, text⟩ := exists_of_mem_texts h there
    exact text_ne_star hr text
  · cases variadic with
    | false => cases there
    | true => cases List.mem_singleton.mp there

/-- What is pointed to a function is told by what stands before the parentheses. -/
theorem pointed_injective {r r' : Reading} (h : r.Legible) (h' : r'.Legible) {pointed pointed' : Bool}
    (same : r.text ++ (if pointed then ' ' :: Bracket.round.enclose ['*'] else []) =
      r'.text ++ if pointed' then ' ' :: Bracket.round.enclose ['*'] else []) :
    r.text = r'.text ∧ pointed = pointed' := by
  -- A function does not end like a pointer to a function does.
  have apart {r r' : Reading} (legible : r'.Legible) :
      r.text ++ ' ' :: Bracket.round.enclose ['*'] ≠ r'.text := by
    intro whole
    have outside := markAt_reverse_text r' legible
    rw [← whole] at outside
    cases r' with
    | function pointed result params variadic =>
      unfold Legible at legible
      rw [text, ← List.singleton_append, ← List.append_assoc] at whole
      have items := isItem_paramTexts (isItem_texts params legible.2) variadic
      have star := (Bracket.round.enclose_injective
        (balanced_of_plain fun k => by cases k <;> decide)
        (balanced_listed fun a ha => (items a ha).balanced) whole).2
      exact listed_paramTexts_ne_star legible.2 variadic star.symm
    | _ => simp [markAt, mark, Bracket.enclose, Bracket.closing] at outside
  cases pointed <;> cases pointed' <;> simp only [if_true, Bool.false_eq_true, if_false,
    List.append_nil] at same
  · exact ⟨same, rfl⟩
  · exact False.elim (apart h same.symm)
  · exact False.elim (apart h' same)
  · exact ⟨List.append_cancel_right same, rfl⟩

mutual

/-- Legible readings with one text are the same. -/
theorem text_injective : ∀ r r' : Reading, r.Legible → r'.Legible → r.text = r'.text → r = r'
  | .word front spelling, r', h, h', same => by
    have outside := mark_eq h h' same
    cases r' with
    | word front' spelling' =>
      unfold Legible at h h'
      rw [text, text] at same
      obtain ⟨rfl, spelled⟩ := frontText_injective h.unqualified h'.unqualified same
      rw [String.toList_inj.mp spelled]
    | _ => cases outside
  | .signed r sign, r', h, h', same => by
    have outside := mark_eq h h' same
    cases r' with
    | signed r' sign' =>
      obtain rfl : sign = sign' := Mark.sign.inj outside
      unfold Legible at h h'
      rw [text, text] at same
      rw [text_injective r r' h h' (List.append_cancel_right same)]
    | _ => cases outside
  | .array r size, r', h, h', same => by
    have outside := mark_eq h h' same
    cases r' with
    | array r' size' =>
      unfold Legible at h h'
      rw [text, text] at same
      obtain ⟨inner, sizes⟩ := Bracket.square.enclose_injective h.2 h'.2 same
      rw [text_injective r r' h.1 h'.1 inner, String.toList_inj.mp sizes]
    | _ => cases outside
  | .instantiation front template args, r', h, h', same => by
    have outside := mark_eq h h' same
    cases r' with
    | instantiation front' template' args' =>
      unfold Legible at h h'
      rw [text, text] at same
      -- The last group in brackets is the list of arguments, and what is before it the template.
      have items := isItem_texts args h.2
      have items' := isItem_texts args' h'.2
      obtain ⟨before, list⟩ := Bracket.angle.enclose_injective
        (balanced_listed fun a ha => (items a ha).balanced)
        (balanced_listed fun a ha => (items' a ha).balanced) same
      obtain ⟨rfl, templates⟩ := frontText_injective h.1.unqualified h'.1.unqualified before
      have arguments := texts_injective args args' h.2 h'.2 (listed_injective items items' list)
      rw [String.toList_inj.mp templates, arguments]
    | _ => cases outside
  | .function pointed result params variadic, r', h, h', same => by
    have outside := mark_eq h h' same
    cases r' with
    | function pointed' result' params' variadic' =>
      unfold Legible at h h'
      rw [text, text] at same
      have items := isItem_paramTexts (isItem_texts params h.2) variadic
      have items' := isItem_paramTexts (isItem_texts params' h'.2) variadic'
      obtain ⟨before, list⟩ := Bracket.round.enclose_injective
        (balanced_listed fun a ha => (items a ha).balanced)
        (balanced_listed fun a ha => (items' a ha).balanced) same
      -- What is before the parameters may end in a group of its own, the star of a pointer.
      obtain ⟨results, rfl⟩ := pointed_injective h.1 h'.1 before
      obtain ⟨types, rfl⟩ := paramTexts_injective h.2 h'.2 (listed_injective items items' list)
      rw [text_injective result result' h.1 h'.1 results,
        texts_injective params params' h.2 h'.2 types]
    | _ => cases outside

theorem texts_injective : ∀ rs rs' : List Reading, LegibleAll rs → LegibleAll rs' →
    texts rs = texts rs' → rs = rs'
  | [], [], _, _, _ => rfl
  | [], _ :: _, _, _, same => by simp [texts] at same
  | _ :: _, [], _, _, same => by simp [texts] at same
  | r :: rs, r' :: rs', h, h', same => by
    unfold LegibleAll at h h'
    rw [texts, texts] at same
    obtain ⟨first, rest⟩ := List.cons.inj same
    rw [text_injective r r' h.1 h'.1 first, texts_injective rs rs' h.2 h'.2 rest]

end

end Reading

end HeaderDecl

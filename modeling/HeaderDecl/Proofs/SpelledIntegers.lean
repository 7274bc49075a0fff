import HeaderDecl.Token.Literal
import HeaderDecl.Proofs.WordLexing
import Mathlib.Data.Nat.Digits.Lemmas
import Mathlib.Tactic.Ring

/-!
The ways to spell an integer, in four radices, with letters of either case, separators between the digits
and a suffix. Each spelling is read as the integer that it spells, as far as 64 bits go.
-/

namespace HeaderDecl.Literal

/-! ### Spellings -/

/-- The radices of integer literals. -/
inductive Radix where
  | binary
  | octal
  | decimal
  | hexadecimal
deriving DecidableEq

def Radix.base : Radix → Nat
  | binary => 2
  | octal => 8
  | decimal => 10
  | hexadecimal => 16

/-- A letter, as a capital if it is to be one. -/
def inCase (capital : Bool) (c : Char) : Char :=
  if capital then c.toUpper else c

/-- What is written before the digits of a number. The zero that tells an octal number is a digit. -/
def Radix.mark (capital : Bool) : Radix → List Char
  | binary => ['0', inCase capital 'b']
  | hexadecimal => ['0', inCase capital 'x']
  | octal | decimal => []

/-- Whether the first digit tells this radix: more digits follow a zero in octal, and only there if there
is no mark. -/
def Radix.Opens (first : Nat) (more : Bool) : Radix → Prop
  | binary | hexadecimal => True
  | octal => first = 0 ∧ more = true
  | decimal => first = 0 → more = false

/-- A digit of some radix, with the case of its letter. -/
structure Digit (r : Radix) where
  value : Fin r.base
  capital : Bool

def Digit.char {r : Radix} (d : Digit r) : Char := inCase d.capital (Nat.digitChar d.value)

inductive SuffixLetter where
  | u
  | l
  | z

def SuffixLetter.char (capital : Bool) : SuffixLetter → Char
  | u => inCase capital 'u'
  | l => inCase capital 'l'
  | z => inCase capital 'z'

/-- A spelling of an integer. Each digit after the first has a number of separators before it. -/
structure Spelling where
  radix : Radix
  /-- The case of the letter in the mark. -/
  capital : Bool
  first : Digit radix
  rest : List (Nat × Digit radix)
  suffix : List (SuffixLetter × Bool)
  opens : radix.Opens first.value !rest.isEmpty

namespace Spelling

def digits (s : Spelling) : List (Digit s.radix) := s.first :: s.rest.map (·.2)

/-- The number that is spelled. -/
def value (s : Spelling) : Nat := Nat.ofDigits s.radix.base (s.digits.map (·.value.val)).reverse

/-- The digits after the first, with their separators. -/
def separated {r : Radix} (rest : List (Nat × Digit r)) : List Char :=
  rest.flatMap fun d => List.replicate d.1 '\'' ++ [d.2.char]

/-- A spelling without its suffix. -/
def number (s : Spelling) : List Char :=
  s.radix.mark s.capital ++ s.first.char :: separated s.rest

def text (s : Spelling) : String :=
  String.ofList (s.number ++ s.suffix.map fun x => x.1.char x.2)

end Spelling

/-! ### The characters of a spelling -/

theorem Radix.base_le (r : Radix) : r.base ≤ 16 := by
  cases r <;> decide

/-- What holds of the sixteen digits in either case holds of the digits of every radix. -/
theorem Digit.forall_char {p : Nat → Char → Prop} {r : Radix}
    (all : ∀ (v : Fin 16) (capital : Bool), p v (inCase capital (Nat.digitChar v))) (d : Digit r) :
    p d.value d.char :=
  all ⟨d.value, Nat.lt_of_lt_of_le d.value.isLt r.base_le⟩ d.capital

section Digits

variable {r : Radix} (d : Digit r)

theorem letterValue_char : letterValue d.char = some d.value.val :=
  d.forall_char (p := fun v c => letterValue c = some v) (by decide)

theorem digitValue_char : digitValue r.base d.char = some d.value.val := by
  rw [digitValue, letterValue_char]
  simp [Option.filter, d.value.isLt]

theorem char_ne_separator : d.char ≠ '\'' :=
  d.forall_char (p := fun _ c => c ≠ '\'') (by decide)

theorem isIntSuffix_char : isIntSuffix d.char = false :=
  d.forall_char (p := fun _ c => isIntSuffix c = false) (by decide)

theorem char_ne_plus : d.char ≠ '+' :=
  d.forall_char (p := fun _ c => c ≠ '+') (by decide)

theorem char_ne_zero (positive : d.value.val ≠ 0) : d.char ≠ '0' :=
  d.forall_char (p := fun v c => v ≠ 0 → c ≠ '0') (by decide) positive

theorem char_zero (zero : d.value.val = 0) : d.char = '0' :=
  d.forall_char (p := fun v c => v = 0 → c = '0') (by decide) zero

/-- No digit of a small radix is the letter of a mark. -/
theorem char_ne_mark (small : r.base ≤ 10) :
    d.char ≠ 'x' ∧ d.char ≠ 'X' ∧ d.char ≠ 'b' ∧ d.char ≠ 'B' :=
  d.forall_char (p := fun v c => v < 10 → c ≠ 'x' ∧ c ≠ 'X' ∧ c ≠ 'b' ∧ c ≠ 'B') (by decide)
    (Nat.lt_of_lt_of_le d.value.isLt small)

end Digits

theorem isIntSuffix_suffixLetter (x : SuffixLetter) (capital : Bool) :
    isIntSuffix (x.char capital) = true := by
  cases x <;> cases capital <;> decide

/-! ### Every number has a spelling -/

/-- The digits of a number, the first one first. -/
def digitsOf (r : Radix) (n : Nat) : List (Digit r) :=
  (Nat.digits r.base n).reverse.pmap (fun v small => ⟨⟨v, small⟩, false⟩) fun _ mem =>
    Nat.digits_lt_base (by cases r <;> decide) (List.mem_reverse.mp mem)

theorem values_digitsOf (r : Radix) (n : Nat) :
    ((digitsOf r n).map (·.value.val)).reverse = Nat.digits r.base n := by
  rw [digitsOf, List.map_pmap, List.pmap_eq_map, List.map_id', List.reverse_reverse]

theorem ofDigits_digitsOf (r : Radix) (n : Nat) :
    Nat.ofDigits r.base ((digitsOf r n).map (·.value.val)).reverse = n := by
  rw [values_digitsOf, Nat.ofDigits_digits]

/-- In each radix there is a spelling of every number. -/
theorem exists_spelling (r : Radix) (n : Nat) : ∃ s : Spelling, s.radix = r ∧ s.value = n := by
  have pos : 0 < r.base := by cases r <;> decide
  let zero : Digit r := ⟨⟨0, pos⟩, false⟩
  by_cases decimal : r = .decimal
  · subst decimal
    cases digits : digitsOf .decimal n with
    | nil =>
      have value := ofDigits_digitsOf .decimal n
      rw [digits] at value
      exact ⟨⟨.decimal, false, zero, [], [], fun _ => rfl⟩, rfl, value⟩
    | cons first rest =>
      -- The first digit of a number is not zero.
      have positive : first.value.val ≠ 0 := by
        have values := values_digitsOf .decimal n
        rw [digits, List.map_cons, List.reverse_cons] at values
        have some_ : Nat.digits Radix.decimal.base n ≠ [] := by
          rw [← values]
          simp
        have last := Nat.getLast_digit_ne_zero Radix.decimal.base (Nat.digits_ne_nil_iff_ne_zero.mp some_)
        simpa only [← values, List.getLast_append_singleton] using last
      refine ⟨⟨.decimal, false, first, rest.map (0, ·), [], fun none => absurd none positive⟩, rfl, ?_⟩
      have value := ofDigits_digitsOf .decimal n
      rw [digits] at value
      simpa [Spelling.value, Spelling.digits] using value
  · -- Two zeros before the digits are allowed wherever the radix is told by a mark or by a zero.
    have opens : r.Opens 0 true := by
      cases r with
      | octal => exact ⟨rfl, rfl⟩
      | decimal => exact absurd rfl decimal
      | binary | hexadecimal => trivial
    refine ⟨⟨r, false, zero, (0, zero) :: (digitsOf r n).map (0, ·), [], opens⟩, rfl, ?_⟩
    have value : Nat.ofDigits r.base ((zero :: zero :: digitsOf r n).map (·.value.val)).reverse = n := by
      rw [List.map_cons, List.map_cons, Nat.ofDigits_reverse_zero_cons, Nat.ofDigits_reverse_zero_cons,
        ofDigits_digitsOf]
    simpa [Spelling.value, Spelling.digits] using value

/-! ### One stage of the reading after another -/

/-- The characters at the end are dropped up to the last one that stays. -/
theorem trimEnd_append {p : Char → Bool} {c : Char} (cs : List Char) {dropped : List Char}
    (stays : p c = false) (all : ∀ c ∈ dropped, p c = true) :
    trimEnd p (cs ++ [c] ++ dropped) = cs ++ [c] := by
  have behind : ∀ d ∈ dropped.reverse, p d = true := fun d h => all d (List.mem_reverse.mp h)
  have stops : ∀ d ∈ (c :: cs.reverse).head?, p d = false := by
    intro d first
    rw [← Option.some.inj first]
    exact stays
  rw [trimEnd, List.reverse_append, List.reverse_append, List.reverse_singleton, List.singleton_append,
    (takeWhile_append_of_stops behind stops).2, List.reverse_cons, List.reverse_reverse]

namespace Spelling

/-- A number ends with a digit. -/
theorem exists_last (s : Spelling) : ∃ cs, ∃ d : Digit s.radix, s.number = cs ++ [d.char] := by
  rcases List.eq_nil_or_concat s.rest with none | ⟨rest, ⟨n, d⟩, more⟩
  · refine ⟨s.radix.mark s.capital, s.first, ?_⟩
    rw [number, none]
    rfl
  · refine ⟨s.radix.mark s.capital ++ s.first.char :: (separated rest ++ List.replicate n '\''), d, ?_⟩
    simp [number, more, separated]

/-- The suffix is dropped, and nothing of the number. -/
theorem trimEnd_text (s : Spelling) : trimEnd isIntSuffix s.text.toList = s.number := by
  obtain ⟨cs, d, ends⟩ := s.exists_last
  have letters : ∀ c ∈ s.suffix.map (fun x => x.1.char x.2), isIntSuffix c = true := by
    intro c mem
    obtain ⟨x, -, rfl⟩ := List.mem_map.mp mem
    exact isIntSuffix_suffixLetter x.1 x.2
  rw [text, String.toList_ofList, ends, trimEnd_append cs (isIntSuffix_char d) letters]

/-- Without the separators there are only digits left behind the first. -/
theorem filter_separated {r : Radix} (rest : List (Nat × Digit r)) :
    (separated rest).filter (· ≠ '\'') = rest.map (·.2.char) := by
  induction rest with
  | nil => rfl
  | cons d rest ih =>
    have digit : [d.2.char].filter (· ≠ '\'') = [d.2.char] :=
      List.filter_cons_of_pos (decide_eq_true (char_ne_separator d.2))
    have gone : (List.replicate d.1 '\'').filter (· ≠ '\'') = [] :=
      List.filter_eq_nil_iff.mpr fun c mem => by simp [List.eq_of_mem_replicate mem]
    rw [separated, List.flatMap_cons, List.filter_append, List.filter_append, gone, digit,
      List.map_cons, ← ih]
    rfl

/-- Nothing but the separators is taken out of a number. -/
theorem filter_number (s : Spelling) :
    s.number.filter (· ≠ '\'') = s.radix.mark s.capital ++ s.digits.map Digit.char := by
  have mark : (s.radix.mark s.capital).filter (· ≠ '\'') = s.radix.mark s.capital := by
    cases s.radix <;> cases s.capital <;> decide
  have first : (s.first.char :: separated s.rest).filter (· ≠ '\'') =
      s.first.char :: (separated s.rest).filter (· ≠ '\'') :=
    List.filter_cons_of_pos (decide_eq_true (char_ne_separator s.first))
  rw [number, List.filter_append, mark, first, filter_separated, digits, List.map_cons, List.map_map]
  rfl

theorem radixOf_zero {c : Char} (unmarked : c ≠ 'x' ∧ c ≠ 'X' ∧ c ≠ 'b' ∧ c ≠ 'B') (cs : List Char) :
    radixOf ('0' :: c :: cs) = (8, c :: cs) := by
  unfold radixOf
  split <;> simp_all

theorem radixOf_positive {c : Char} (positive : c ≠ '0') (cs : List Char) :
    radixOf (c :: cs) = (10, c :: cs) := by
  unfold radixOf
  split <;> simp_all

/-- The mark, or the zero of an octal number, tells the radix. The digits that are left have the value of
the whole. -/
theorem radixOf_digits (s : Spelling) :
    ∃ ds : List (Digit s.radix), ds ≠ [] ∧
      Nat.ofDigits s.radix.base (ds.map (·.value.val)).reverse = s.value ∧
      radixOf (s.radix.mark s.capital ++ s.digits.map Digit.char) = (s.radix.base, ds.map Digit.char) := by
  obtain ⟨radix, capital, first, rest, suffix, opens⟩ := s
  cases radix with
  | binary => exact ⟨_, List.cons_ne_nil first _, rfl, by cases capital <;> rfl⟩
  | hexadecimal => exact ⟨_, List.cons_ne_nil first _, rfl, by cases capital <;> rfl⟩
  | octal =>
    obtain ⟨zero, more⟩ := opens
    cases rest with
    | nil => exact absurd more (by decide)
    | cons d rest =>
      -- A leading zero adds nothing to the value.
      have leading (ds : List (Digit .octal)) : Nat.ofDigits 8 (ds.map (·.value.val)).reverse =
          Nat.ofDigits 8 ((first :: ds).map (·.value.val)).reverse := by
        rw [List.map_cons, zero, Nat.ofDigits_reverse_zero_cons]
      have read := radixOf_zero (char_ne_mark d.2 (by decide)) ((rest.map (·.2)).map Digit.char)
      rw [← char_zero first zero] at read
      let later : List (Digit .octal) := d.2 :: rest.map fun d => d.2
      exact ⟨later, List.cons_ne_nil _ _, leading later, read⟩
  | decimal =>
    refine ⟨first :: rest.map (·.2), List.cons_ne_nil _ _, rfl, ?_⟩
    by_cases zero : first.value.val = 0
    · have alone : rest = [] := by simpa using opens zero
      subst alone
      rw [digits, List.map_cons, char_zero first zero]
      rfl
    · exact radixOf_positive (char_ne_zero first zero) ((rest.map (·.2)).map Digit.char)

end Spelling

/-- Digits are read one after another onto what has been read before them. -/
theorem readDigits_char {r : Radix} (ds : List (Digit r)) (n : Nat) :
    readDigits r.base n (ds.map Digit.char) =
      some (Nat.ofDigits r.base (ds.map (·.value.val)).reverse + r.base ^ ds.length * n) := by
  induction ds generalizing n with
  | nil => simp [readDigits]
  | cons d ds ih =>
    have step : readDigits r.base n (d.char :: ds.map Digit.char) =
        readDigits r.base (r.base * n + d.value.val) (ds.map Digit.char) := by
      rw [readDigits, digitValue_char, Option.bind_some]
    rw [List.map_cons, step, ih, List.map_cons, Nat.ofDigits_reverse_cons, List.length_map,
      List.length_cons]
    congr 1
    ring

/-- A number that 64 bits hold is read, and no other. -/
theorem readNat_char {r : Radix} {ds : List (Digit r)} (some_ : ds ≠ []) :
    readNat r.base (ds.map Digit.char) =
      (some (Nat.ofDigits r.base (ds.map (·.value.val)).reverse)).filter (· < UInt64.size) := by
  cases ds with
  | nil => exact absurd rfl some_
  | cons d ds =>
    have read := readDigits_char (d :: ds) 0
    rw [Nat.mul_zero, Nat.add_zero] at read
    have unsigned : ∀ cs, (d :: ds).map Digit.char ≠ '+' :: cs := fun cs eq =>
      char_ne_plus d (List.cons.inj eq).1
    rw [← read, readNat]
    · rfl
    · exact unsigned

/-- A number of 64 bits is taken as a signed one: from the half on, by less `2 ^ 64`. -/
theorem toInt_ofNat {n : Nat} (small : n < 2 ^ 64) :
    (Int64.ofNat n).toInt = if n < 2 ^ 63 then (n : Int) else n - 2 ^ 64 := by
  rw [Int64.toInt_ofNat', Int.bmod_def, Int64.size]
  have rest : (n : Int) % (2 ^ 64 : Nat) = n := by omega
  split <;> split <;> omega

/-- Every spelling of a number of 64 bits is read as that number, taken as a signed one. A spelling of a
greater number is not read. -/
theorem int?_spelling (s : Spelling) :
    (int? s.text).map Int64.toInt =
      if s.value < 2 ^ 64 then some (if s.value < 2 ^ 63 then (s.value : Int) else s.value - 2 ^ 64)
      else none := by
  obtain ⟨ds, some_, value, radix⟩ := s.radixOf_digits
  have number : int? s.text = (readNat s.radix.base (ds.map Digit.char)).map Int64.ofNat := by
    rw [int?, s.trimEnd_text, s.filter_number, radix]
  rw [number, readNat_char some_, value]
  by_cases small : s.value < 2 ^ 64
  · have fits : (some s.value).filter (· < UInt64.size) = some s.value := by
      simpa [Option.filter] using small
    rw [fits, Option.map_some, Option.map_some, toInt_ofNat small, if_pos small]
  · have tooGreat : (some s.value).filter (· < UInt64.size) = none := by
      simpa [Option.filter] using small
    rw [tooGreat, if_neg small]
    rfl

end HeaderDecl.Literal

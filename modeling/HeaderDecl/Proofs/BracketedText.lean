import Mathlib.Data.List.Basic

/-!
Text with brackets. Where brackets match, the last group and the text before it are determined by the
whole, and so are the items of a list that has commas between them.
-/

namespace HeaderDecl.Text

variable {o c : Char} {l a b p p' : List Char}

/-! ### One kind of brackets -/

/-- Every closing bracket has its opening one before it, and every opening one its closing one behind
it. -/
structure Matched (o c : Char) (l : List Char) : Prop where
  whole : l.count o = l.count c
  behind : ∀ u v, l = u ++ v → v.count o ≤ v.count c

theorem Matched.of_notMem (ho : o ∉ l) (hc : c ∉ l) : Matched o c l := by
  refine ⟨by rw [List.count_eq_zero_of_not_mem ho, List.count_eq_zero_of_not_mem hc], ?_⟩
  rintro u v rfl
  rw [List.count_eq_zero_of_not_mem fun h => ho (List.mem_append_right u h)]
  exact Nat.zero_le _

theorem Matched.append (ha : Matched o c a) (hb : Matched o c b) : Matched o c (a ++ b) := by
  refine ⟨by rw [List.count_append, List.count_append, ha.whole, hb.whole], ?_⟩
  intro u v h
  rcases List.append_eq_append_iff.mp h with ⟨w, -, hw⟩ | ⟨w, hw, rfl⟩
  · exact hb.behind w v hw
  · have rest := ha.behind u w hw
    rw [List.count_append, List.count_append, hb.whole]
    omega

/-- No closing bracket stands before its opening one. -/
theorem Matched.before (h : Matched o c l) {u v : List Char} (hl : l = u ++ v) :
    u.count c ≤ u.count o := by
  have whole := h.whole
  have rest := h.behind u v hl
  rw [hl, List.count_append, List.count_append] at whole
  omega

theorem Matched.enclose (h : Matched o c l) (apart : o ≠ c) : Matched o c (o :: l ++ [c]) := by
  have whole := h.whole
  refine ⟨by simp [apart, apart.symm, whole], ?_⟩
  intro u v hl
  cases u with
  | nil =>
    rw [List.nil_append] at hl
    rw [← hl]
    simp [apart, apart.symm, whole]
  | cons d u =>
    obtain ⟨-, hl⟩ := List.cons.inj hl
    -- What is behind is a part of the group with its closing bracket, or nothing.
    rcases List.append_eq_append_iff.mp hl with ⟨w, -, hw⟩ | ⟨w, hw, rfl⟩
    · have none : o ∉ [c] := by simpa using apart
      have last := List.count_eq_zero_of_not_mem none
      rw [hw, List.count_append] at last
      omega
    · have rest := h.behind u w hw
      simp [apart.symm]
      omega

/-- The last group of matching brackets is determined by the whole text. -/
theorem last_group (apart : o ≠ c) (hp : Matched o c p) (hp' : Matched o c p')
    (h : a ++ o :: p = b ++ o :: p') : a = b ∧ p = p' := by
  -- A group that began further to the left would have an opening bracket too many.
  have inside {w q q' : List Char} (hq : Matched o c q) (hq' : Matched o c q')
      (hw : o :: q = w ++ o :: q') : w = [] := by
    cases w with
    | nil => rfl
    | cons d w =>
      obtain ⟨-, hw⟩ := List.cons.inj hw
      have rest := hq.behind w (o :: q') hw
      have whole := hq'.whole
      simp [apart] at rest
      omega
  rcases List.append_eq_append_iff.mp h with ⟨w, rfl, hw⟩ | ⟨w, rfl, hw⟩
  · obtain rfl := inside hp hp' hw
    exact ⟨(List.append_nil _).symm, (List.cons.inj hw).2⟩
  · obtain rfl := inside hp' hp hw
    exact ⟨List.append_nil _, (List.cons.inj hw).2.symm⟩

/-! ### All kinds of brackets -/

inductive Bracket where
  | round | square | angle
deriving DecidableEq

def Bracket.opening : Bracket → Char
  | round => '('
  | square => '['
  | angle => '<'

def Bracket.closing : Bracket → Char
  | round => ')'
  | square => ']'
  | angle => '>'

theorem Bracket.apart (k : Bracket) : k.opening ≠ k.closing := by
  cases k <;> decide

/-- Text in brackets. -/
def Bracket.enclose (k : Bracket) (l : List Char) : List Char := k.opening :: l ++ [k.closing]

/-- Brackets of each kind match. -/
def Balanced (l : List Char) : Prop := ∀ k : Bracket, Matched k.opening k.closing l

/-- Every comma stands in brackets. -/
def Sealed (l : List Char) : Prop :=
  ∀ u v, l = u ++ ',' :: v → ∃ k : Bracket, u.count k.closing < u.count k.opening

theorem balanced_of_plain (plain : ∀ k : Bracket, k.opening ∉ l ∧ k.closing ∉ l) : Balanced l :=
  fun k => .of_notMem (plain k).1 (plain k).2

theorem Balanced.append (ha : Balanced a) (hb : Balanced b) : Balanced (a ++ b) :=
  fun k => (ha k).append (hb k)

theorem Balanced.enclose (h : Balanced l) (k : Bracket) : Balanced (k.enclose l) := by
  intro k'
  by_cases same : k' = k
  · rw [same]
    exact (h k).enclose k.apart
  · -- Brackets of another kind do not count.
    have first : Matched k'.opening k'.closing [k.opening] := by
      apply Matched.of_notMem <;> cases k <;> cases k' <;> first | exact absurd rfl same | decide
    have last : Matched k'.opening k'.closing [k.closing] := by
      apply Matched.of_notMem <;> cases k <;> cases k' <;> first | exact absurd rfl same | decide
    exact (first.append (h k')).append last

theorem sealed_of_notMem (h : ',' ∉ l) : Sealed l := by
  rintro u v rfl
  exact False.elim (h (by simp))

theorem Sealed.append (ha : Sealed a) (hb : Sealed b) (balanced : Balanced a) : Sealed (a ++ b) := by
  intro u v h
  rcases List.append_eq_append_iff.mp h with ⟨w, rfl, hw⟩ | ⟨w, hw, hv⟩
  · obtain ⟨k, inside⟩ := hb w v hw
    refine ⟨k, ?_⟩
    rw [List.count_append, List.count_append, (balanced k).whole]
    omega
  · cases w with
    | nil =>
      obtain ⟨k, inside⟩ := hb [] v hv.symm
      simp at inside
    | cons d w =>
      obtain ⟨rfl, -⟩ := List.cons.inj hv
      exact ha u w hw

/-- The last group in brackets is determined by the text that it ends. -/
theorem Bracket.enclose_injective (k : Bracket) (hp : Balanced p) (hp' : Balanced p')
    (h : a ++ k.enclose p = b ++ k.enclose p') : a = b ∧ p = p' := by
  have ends {x q : List Char} : x ++ k.enclose q = (x ++ k.opening :: q) ++ [k.closing] := by
    simp [Bracket.enclose]
  rw [ends, ends] at h
  exact last_group k.apart (hp k) (hp' k) (List.append_cancel_right h)

/-- Brackets seal what they enclose. -/
theorem Balanced.sealed_enclose (h : Balanced l) (k : Bracket) : Sealed (k.enclose l) := by
  intro u v hl
  cases u with
  | nil =>
    have first := (List.cons.inj hl).1
    cases k <;> cases first
  | cons d u =>
    obtain rfl : k.opening = d := (List.cons.inj hl).1
    have hl : l ++ [k.closing] = u ++ ',' :: v := (List.cons.inj hl).2
    refine ⟨k, ?_⟩
    rcases List.append_eq_append_iff.mp hl with ⟨w, -, hw⟩ | ⟨w, hw, -⟩
    · -- The comma is not the closing bracket.
      have comma : ',' ∈ [k.closing] := by
        rw [hw]
        simp
      cases k <;> simp [Bracket.closing] at comma
    · have before := (h k).before hw
      simp [k.apart]
      omega

/-! ### Lists with commas -/

/-- Items with commas between them. -/
def listed : List (List Char) → List Char
  | [] => []
  | [a] => a
  | a :: b :: rest => a ++ ',' :: ' ' :: listed (b :: rest)

/-- What can be told from the items beside it. -/
structure IsItem (l : List Char) : Prop where
  nonempty : l ≠ []
  balanced : Balanced l
  sealed : Sealed l

theorem IsItem.behind (ha : IsItem a) (balanced : Balanced b) (closed : Sealed b) : IsItem (a ++ b) :=
  ⟨fun h => ha.nonempty (List.append_eq_nil_iff.mp h).1, ha.balanced.append balanced,
    ha.sealed.append closed ha.balanced⟩

theorem IsItem.before (ha : IsItem a) (balanced : Balanced b) (closed : Sealed b) : IsItem (b ++ a) :=
  ⟨fun h => ha.nonempty (List.append_eq_nil_iff.mp h).2, balanced.append ha.balanced,
    closed.append ha.sealed balanced⟩

theorem IsItem.enclose (ha : IsItem a) (hb : Balanced b) (k : Bracket) : IsItem (a ++ k.enclose b) :=
  ha.behind (hb.enclose k) (hb.sealed_enclose k)

theorem balanced_listed {items : List (List Char)} (h : ∀ a ∈ items, Balanced a) :
    Balanced (listed items) := by
  have comma : Balanced [',', ' '] := balanced_of_plain fun k => by cases k <;> decide
  induction items with
  | nil => exact balanced_of_plain fun k => by simp [listed]
  | cons a items ih =>
    have rest := ih fun b hb => h b (List.mem_cons_of_mem _ hb)
    have here := h a List.mem_cons_self
    cases items with
    | nil => exact here
    | cons b items => exact here.append (comma.append rest)

/-- An item ends at the first comma that stands in no brackets. -/
theorem IsItem.not_longer (ha : IsItem a) (hb : IsItem b) {rest : List Char} :
    b ≠ a ++ ',' :: rest := by
  intro h
  obtain ⟨k, inside⟩ := hb.sealed a rest h
  rw [(ha.balanced k).whole] at inside
  exact Nat.lt_irrefl _ inside

theorem IsItem.first_eq (ha : IsItem a) (hb : IsItem b) {rest rest' : List Char}
    (h : a ++ ',' :: rest = b ++ ',' :: rest') : a = b ∧ rest = rest' := by
  rcases List.append_eq_append_iff.mp h with ⟨w, hw, hr⟩ | ⟨w, hw, hr⟩
  · cases w with
    | nil => exact ⟨by simpa using hw.symm, (List.cons.inj hr).2⟩
    | cons d w =>
      obtain ⟨rfl, -⟩ := List.cons.inj hr
      exact False.elim (ha.not_longer hb hw)
  · cases w with
    | nil => exact ⟨by simpa using hw, (List.cons.inj hr).2.symm⟩
    | cons d w =>
      obtain ⟨rfl, -⟩ := List.cons.inj hr
      exact False.elim (hb.not_longer ha hw)

theorem listed_injective {items items' : List (List Char)} (h : ∀ a ∈ items, IsItem a)
    (h' : ∀ a ∈ items', IsItem a) (same : listed items = listed items') : items = items' := by
  induction items generalizing items' with
  | nil =>
    match items' with
    | [] => rfl
    | [b] => exact absurd same.symm (h' b List.mem_cons_self).nonempty
    | b :: b' :: rest' => simp [listed] at same
  | cons a items ih =>
    have ha := h a List.mem_cons_self
    have hitems := fun b hb => h b (List.mem_cons_of_mem a hb)
    match items, items' with
    | [], [] => exact absurd same ha.nonempty
    | _ :: _, [] => simp [listed] at same
    | [], [b] => rw [show a = b from same]
    | [], b :: b' :: rest' =>
      exact False.elim ((h' b List.mem_cons_self).not_longer ha same)
    | a' :: rest, [b] =>
      exact False.elim (ha.not_longer (h' b List.mem_cons_self) same.symm)
    | a' :: rest, b :: b' :: rest' =>
      obtain ⟨rfl, others⟩ := ha.first_eq (h' b List.mem_cons_self) same
      have tails := ih hitems (fun b hb => h' b (List.mem_cons_of_mem _ hb)) (List.cons.inj others).2
      rw [tails]

end HeaderDecl.Text

import Mathlib.Data.List.Induction
import HeaderDecl.Decl.TypeExpr
import HeaderDecl.Proofs.BracketedText
import HeaderDecl.Proofs.DeclaredNames
import HeaderDecl.Token.Scan

/-!
When a qualified name tells the scope that it stands in. Names of identifier characters are told apart
from the path in front of them, as long as no bracket is open there.
-/

namespace HeaderDecl.Name

/-- A name that is spelled like an identifier. -/
def Plain (name : String) : Prop := name ≠ "" ∧ ∀ c ∈ name.toList, isIdentifierContinue c = true

instance (name : String) : Decidable (Plain name) :=
  decidable_of_iff (name ≠ "" ∧ name.toList.all isIdentifierContinue = true)
    (and_congr_right' List.all_eq_true)

/-- A path of namespaces. Only the template arguments of a specialization bring blanks and brackets. -/
def Bare (path : String) : Prop := ∀ c ∈ path.toList, c ≠ ' ' ∧ c ≠ '<' ∧ c ≠ '>'

/-- The part of a name in front of its first blank. -/
def word (name : List Char) : List Char := name.takeWhile (· ≠ ' ')

namespace Plain

variable {name : String}

theorem special (h : Plain name) {c : Char} (hc : isIdentifierContinue c = false) :
    c ∉ name.toList := by
  intro mem
  rw [h.2 c mem] at hc
  cases hc

theorem colon (h : Plain name) : ':' ∉ name.toList := h.special (by decide)

theorem bare (h : Plain name) : Bare name := by
  intro c hc
  refine ⟨?_, ?_, ?_⟩
  · rintro rfl
    exact h.special (by decide) hc
  · rintro rfl
    exact h.special (by decide) hc
  · rintro rfl
    exact h.special (by decide) hc

end Plain

theorem bare_empty : Bare "" := fun c hc => by simp at hc

theorem Bare.qualify {scope name : String} (hs : Bare scope) (hn : Bare name) :
    Bare (qualify scope name) := by
  intro c hc
  rw [toList_qualify] at hc
  split at hc
  · exact hn c hc
  · rcases List.mem_append.mp hc with hc | hc
    · exact hs c hc
    · rcases List.mem_cons.mp hc with rfl | hc
      · decide
      · rcases List.mem_cons.mp hc with rfl | hc
        · decide
        · exact hn c hc

/-! ### Functions -/

theorem word_append {path name : List Char} (h : ∀ c ∈ path, c ≠ ' ') :
    word (path ++ name) = path ++ word name :=
  List.takeWhile_append_of_pos (by simpa using h)

theorem word_qualify {scope name : String} (hs : Bare scope) :
    word (qualify scope name).toList = (qualify scope (String.ofList (word name.toList))).toList := by
  rw [toList_qualify, toList_qualify]
  split
  · rw [String.toList_ofList]
  · have blankless : ∀ c ∈ scope.toList ++ [':', ':'], c ≠ ' ' := by
      intro c hc
      rcases List.mem_append.mp hc with hc | hc
      · exact (hs c hc).1
      · rw [show c = ':' by simpa using hc]
        decide
    rw [String.toList_ofList]
    have whole : word ((scope.toList ++ [':', ':']) ++ name.toList) =
        (scope.toList ++ [':', ':']) ++ word name.toList := word_append blankless
    simpa using whole

theorem qualify_right_injective {scope name name' : String}
    (h : qualify scope name = qualify scope name') : name = name' := by
  have lists := congrArg String.toList h
  rw [toList_qualify, toList_qualify] at lists
  split at lists
  · exact String.toList_inj.mp lists
  · have rest := List.append_cancel_left lists
    exact String.toList_inj.mp (List.cons.inj (List.cons.inj rest).2).2

/-- In a namespace a name with colons behind its first blank, like that of a conversion function, is
told from the path too. -/
theorem qualify_injective_of_bare {scope scope' name name' : String} (hs : Bare scope)
    (hs' : Bare scope') (hn : ':' ∉ word name.toList) (hn' : ':' ∉ word name'.toList)
    (h : qualify scope name = qualify scope' name') : scope = scope' ∧ name = name' := by
  -- Neither path has a blank, so that the words of both sides are equal too, and those have no colons.
  have words : qualify scope (String.ofList (word name.toList)) =
      qualify scope' (String.ofList (word name'.toList)) := by
    rw [← String.toList_inj, ← word_qualify hs, ← word_qualify hs', h]
  obtain ⟨rfl, -⟩ := qualify_injective (by simpa using hn) (by simpa using hn') words
  exact ⟨rfl, qualify_right_injective h⟩

/-! ### Splitting -/

/-- A path behind which no bracket is open. -/
def Settled (path : String) : Prop := path.toList.foldl nesting 0 = 0

/-- As long as nothing is closed before it is opened, the nesting counts the brackets. -/
theorem nesting_add_count {depth : Nat} {cs : List Char}
    (h : ∀ u v, cs = u ++ v → u.count '>' ≤ u.count '<') :
    cs.foldl nesting depth + cs.count '>' = depth + cs.count '<' := by
  induction cs using List.reverseRecOn with
  | nil => rfl
  | append_singleton cs c ih =>
    have before := ih fun u v split => h u (v ++ [c]) (by rw [split, List.append_assoc])
    have whole := h (cs ++ [c]) [] (List.append_nil _).symm
    rw [List.count_append, List.count_append] at whole ⊢
    rw [List.foldl_append, List.foldl_cons, List.foldl_nil]
    by_cases opening : c = '<'
    · subst opening
      have counts : ['<'].count '>' = 0 ∧ ['<'].count '<' = 1 := by decide
      rw [nesting, if_pos rfl]
      omega
    · by_cases closing : c = '>'
      · subst closing
        have counts : ['>'].count '>' = 1 ∧ ['>'].count '<' = 0 := by decide
        -- What it closes has been opened, so that the nesting in front of it is not zero.
        rw [nesting, if_neg opening, if_pos rfl]
        omega
      · have opens : [c].count '<' = 0 := by simp [opening]
        have closes : [c].count '>' = 0 := by simp [closing]
        rw [nesting, if_neg opening, if_neg closing]
        omega

theorem nesting_of_matched {depth : Nat} {cs : List Char} (h : Text.Matched '<' '>' cs) :
    cs.foldl nesting depth = depth := by
  have counts : cs.foldl nesting depth + cs.count '>' = depth + cs.count '<' :=
    nesting_add_count fun _ _ split => h.before split
  have whole := h.whole
  omega

theorem Bare.matched {path : String} (h : Bare path) : Text.Matched '<' '>' path.toList :=
  .of_notMem (fun opening => (h _ opening).2.1 rfl) fun closing => (h _ closing).2.2 rfl

theorem Bare.settled {path : String} (h : Bare path) : Settled path := nesting_of_matched h.matched

theorem Settled.qualify {scope name : String} (hs : Settled scope) (hn : Settled name) :
    Settled (qualify scope name) := by
  unfold Settled
  rw [toList_qualify]
  split
  · exact hn
  · -- The separator opens no bracket.
    rw [List.foldl_append, show scope.toList.foldl nesting 0 = 0 from hs]
    exact hn

/-- A name is split where no bracket is open. -/
theorem nesting_of_splitLast {depth : Nat} {cs scope last : List Char}
    (h : splitLast depth cs = some (scope, last)) : scope.foldl nesting depth = 0 := by
  induction cs generalizing depth scope with
  | nil => cases h
  | cons c cs ih =>
    unfold splitLast at h
    split at h
    · rename_i later
      cases h
      rw [List.foldl_cons]
      exact ih later
    · split at h
      · rename_i here
        cases h
        simp only [Bool.and_eq_true, decide_eq_true_eq] at here
        exact here.1.1
      · cases h

/-- Of the scopes around a scope, only that scope itself may have a bracket open. -/
theorem settled_of_mem_enclosing {scope w : String} (h : w ∈ enclosing scope) :
    w = scope ∨ Settled w := by
  have outer (cs : List Char) : ∀ ds ∈ enclosingChars cs,
      ds = cs ∨ ds.foldl nesting 0 = 0 := by
    induction cs using enclosingChars.induct with
    | case1 =>
      intro ds hds
      rw [enclosingChars, dif_pos rfl] at hds
      exact .inl (List.mem_singleton.mp hds)
    | case2 cs some_ shorter ih =>
      intro ds hds
      rw [enclosingChars, dif_neg some_] at hds
      rcases List.mem_cons.mp hds with rfl | hds
      · exact .inl rfl
      · rcases ih ds hds with rfl | settled
        · right
          unfold splitChars
          cases hs : splitLast 0 cs with
          | none => rfl
          | some parts => exact nesting_of_splitLast hs
        · exact .inr settled
  obtain ⟨ds, hds, rfl⟩ := List.mem_map.mp h
  rcases outer _ ds hds with rfl | settled
  · exact .inl String.ofList_toList
  · right
    rwa [Settled, String.toList_ofList]

/-- With so many brackets open in front of a text, each of its colons stands in brackets. -/
def Sealed (depth : Nat) (cs : List Char) : Prop :=
  ∀ u v, cs = u ++ ':' :: v → 0 < u.foldl nesting depth

theorem sealed_of_notMem {depth : Nat} {cs : List Char} (h : ':' ∉ cs) : Sealed depth cs := by
  rintro u v rfl
  exact False.elim (h (by simp))

theorem splitLast_of_sealed {depth : Nat} {cs : List Char} (h : Sealed depth cs) :
    splitLast depth cs = none := by
  induction cs generalizing depth with
  | nil => rfl
  | cons c cs ih =>
    have later : Sealed (nesting depth c) cs := fun u v split => h (c :: u) v (by rw [split]; rfl)
    have here : ¬(depth = 0 ∧ c = ':') := by
      rintro ⟨rfl, rfl⟩
      exact Nat.lt_irrefl 0 (h [] cs rfl)
    unfold splitLast
    rw [ih later]
    refine if_neg ?_
    simp only [Bool.and_eq_true, decide_eq_true_eq]
    exact fun separator => here separator.1

theorem splitLast_separator {depth : Nat} {scope last : List Char}
    (settled : scope.foldl nesting depth = 0) (h : Sealed 0 last) :
    splitLast depth (scope ++ ':' :: ':' :: last) = some (scope, last) := by
  -- The separator behind the scope is the last one, so that no step of the way splits earlier.
  induction scope generalizing depth with
  | nil =>
    obtain rfl : depth = 0 := settled
    have rest : splitLast 0 (':' :: last) = none := by
      have single : last.head? ≠ some ':' := fun first =>
        Nat.lt_irrefl 0 (h [] last.tail (List.eq_cons_of_mem_head? first))
      unfold splitLast
      rw [show nesting 0 ':' = 0 from rfl, splitLast_of_sealed h]
      simp [single]
    rw [List.nil_append]
    unfold splitLast
    rw [show nesting 0 ':' = 0 from rfl, rest]
    simp
  | cons c scope ih =>
    rw [List.cons_append, splitLast, ih settled]

/-- A name in a settled scope is split from it. -/
theorem splitScope_qualify {scope name : String} (settled : Settled scope)
    (h : Sealed 0 name.toList) : splitScope (qualify scope name) = (scope, name) := by
  have split : splitChars (qualify scope name).toList = (scope.toList, name.toList) := by
    unfold splitChars
    rw [toList_qualify]
    by_cases global : scope = ""
    · rw [if_pos global, splitLast_of_sealed h, global]
      rfl
    · rw [if_neg global, splitLast_separator settled h]
      rfl
  simp [splitScope, split]

/-! ### Names as written -/

theorem qualify_ne_empty {scope name : String} (h : name ≠ "") : qualify scope name ≠ "" := by
  rw [Ne, ← String.toList_inj, toList_qualify]
  split
  · simpa using h
  · simp

/-- Segments are entered one by one. -/
theorem qualify_intercalate {scope : String} {names : List String} {last : String}
    (h : ∀ n ∈ names, n ≠ "") :
    qualify scope ("::".intercalate (names ++ [last])) = qualify (names.foldl qualify scope) last := by
  induction names generalizing scope with
  | nil => rw [List.nil_append, String.intercalate_singleton, List.foldl_nil]
  | cons n names ih =>
    have inner : qualify scope n ≠ "" := qualify_ne_empty (h n List.mem_cons_self)
    rw [List.foldl_cons, ← ih fun m hm => h m (List.mem_cons_of_mem n hm), List.cons_append,
      String.intercalate_cons_of_ne_nil (by simp), ← String.toList_inj, toList_qualify,
      toList_qualify (qualify scope n), if_neg inner, toList_qualify]
    split <;> simp

theorem settled_foldl {scope : String} {names : List String} (settled : Settled scope)
    (h : ∀ n ∈ names, Settled n) : Settled (names.foldl qualify scope) := by
  induction names generalizing scope with
  | nil => exact settled
  | cons n names ih =>
    exact ih (settled.qualify (h n List.mem_cons_self)) fun m hm => h m (List.mem_cons_of_mem n hm)

/-- What is left of a name as written once its scope is split off is its last segment. -/
theorem splitScope_qualify_plainName {α : Type} {scope : String} {p : NamePath α}
    (settled : Settled scope) (h : ∀ s ∈ p.segments, Plain s.name) :
    (splitScope (qualify scope p.plainName)).2 = p.last.name := by
  have outer (n : String) (hn : n ∈ p.scope.map (·.name)) : Plain n := by
    obtain ⟨s, hs, rfl⟩ := List.mem_map.mp hn
    exact h s (List.mem_append_left _ hs)
  have last : Plain p.last.name := h p.last (by simp [NamePath.segments])
  rw [NamePath.plainName, NamePath.segments, List.map_append, List.map_singleton,
    qualify_intercalate fun n hn => (outer n hn).1,
    splitScope_qualify (settled_foldl settled fun n hn => (outer n hn).bare.settled)
      (sealed_of_notMem last.colon)]

end HeaderDecl.Name

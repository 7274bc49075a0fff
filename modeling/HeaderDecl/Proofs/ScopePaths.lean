import Mathlib.Data.List.Infix
import HeaderDecl.Proofs.PlainNames

/-!
Paths of scopes. Names are entered one after another, and the path is taken apart into just these, also
where their template arguments hold paths of their own. The scopes around a path are the paths on the
way to it.
-/

namespace HeaderDecl.Name

variable {depth : Nat} {cs ds : List Char} {name args scope : String} {segments : List String}

/-! ### Angle brackets -/

/-- Within brackets that are open, matching ones never close the last of them. -/
theorem sealed_of_matched (h : Text.Matched '<' '>' cs) : Sealed (depth + 1) cs := by
  rintro u v rfl
  have before := h.before rfl
  have counts : u.foldl nesting (depth + 1) + u.count '>' = depth + 1 + u.count '<' := by
    refine nesting_add_count ?_
    rintro u' v' rfl
    exact h.before (List.append_assoc u' v' _)
  omega

theorem Sealed.append (hc : Sealed depth cs) (hd : Sealed (cs.foldl nesting depth) ds) :
    Sealed depth (cs ++ ds) := by
  intro u v split
  rcases List.append_eq_append_iff.mp split with ⟨w, rfl, hw⟩ | ⟨w, rfl, hw⟩
  · rw [List.foldl_append]
    exact hd w v hw
  · cases w with
    | nil =>
      rw [List.append_nil] at hd
      exact hd [] v hw.symm
    | cons c w =>
      obtain ⟨rfl, -⟩ := List.cons.inj hw
      exact hc u w rfl

/-! ### Segments -/

/-- What is entered on the way to a scope: an identifier, or one with template arguments, in which the
angle brackets match. -/
inductive Segment : String → Prop
  | identifier {name : String} (plain : Plain name) : Segment name
  | templateId {name args : String} (plain : Plain name)
      (matched : Text.Matched '<' '>' args.toList) : Segment (name ++ "<" ++ args ++ ">")

namespace Segment

theorem toList_templateId :
    (name ++ "<" ++ args ++ ">").toList = name.toList ++ '<' :: (args.toList ++ ['>']) := by
  simp

theorem ne_empty (h : Segment name) : name ≠ "" := by
  cases h with
  | identifier plain => exact plain.1
  | templateId plain matched =>
    rw [Ne, ← String.toList_inj, toList_templateId]
    simp

theorem matched (h : Segment name) : Text.Matched '<' '>' name.toList := by
  cases h with
  | identifier plain => exact plain.bare.matched
  | templateId plain matched =>
    rw [toList_templateId]
    exact plain.bare.matched.append (matched.enclose (by decide))

theorem settled (h : Segment name) : Settled name := nesting_of_matched h.matched

theorem sealed (h : Segment name) : Sealed 0 name.toList := by
  cases h with
  | identifier plain => exact sealed_of_notMem plain.colon
  | @templateId name args plain matched =>
    -- One bracket is open in front of the arguments, and nothing but the last character closes it.
    have closing : Sealed 1 ['>'] := sealed_of_notMem (by decide)
    have inside : Sealed 1 (args.toList ++ ['>']) := by
      refine (sealed_of_matched matched).append ?_
      rwa [nesting_of_matched matched]
    have front : (name.toList ++ ['<']).foldl nesting 0 = 1 := by
      rw [List.foldl_append, nesting_of_matched plain.bare.matched]
      rfl
    have opening : Sealed 0 (name.toList ++ ['<']) :=
      sealed_of_notMem (by simpa using plain.colon)
    rw [toList_templateId, List.append_cons]
    exact opening.append (by rwa [front])

end Segment

/-! ### Paths -/

/-- The path of the scope that is reached when names are entered one after another. -/
def path (segments : List String) : String := segments.foldl qualify ""

theorem path_concat (segments : List String) (name : String) :
    path (segments ++ [name]) = qualify (path segments) name := by
  rw [path, List.foldl_append, List.foldl_cons, List.foldl_nil, path]

theorem settled_path (h : ∀ s ∈ segments, Segment s) : Settled (path segments) :=
  settled_foldl rfl fun s hs => (h s hs).settled

theorem splitScope_path_concat (h : ∀ s ∈ segments ++ [name], Segment s) :
    splitScope (path (segments ++ [name])) = (path segments, name) := by
  have last : Segment name := h name (by simp)
  rw [path_concat]
  exact splitScope_qualify (settled_path fun s hs => h s (by simp [hs])) last.sealed

theorem enclosing_empty : enclosing "" = [""] := by
  simp [enclosing, enclosingChars]

theorem enclosing_of_ne_empty (h : scope ≠ "") :
    enclosing scope = scope :: enclosing (splitScope scope).1 := by
  have some_ : scope.toList ≠ [] := by simpa using h
  rw [enclosing, enclosingChars, dif_neg some_, List.map_cons, String.ofList_toList]
  simp [enclosing, splitScope]

theorem enclosing_path (h : ∀ s ∈ segments, Segment s) :
    enclosing (path segments) = segments.inits.reverse.map path := by
  induction segments using List.reverseRecOn with
  | nil => exact enclosing_empty
  | append_singleton segments name ih =>
    have last : Segment name := h name (by simp)
    have some_ : path (segments ++ [name]) ≠ "" := by
      rw [path_concat]
      exact qualify_ne_empty last.ne_empty
    have longest : (segments ++ [name]).inits = segments.inits ++ [segments ++ [name]] := by
      rw [List.inits_append]
      rfl
    rw [enclosing_of_ne_empty some_, splitScope_path_concat h, ih fun s hs => h s (by simp [hs]),
      longest, List.reverse_concat, List.map_cons]

theorem exists_enclosingChars (scope : List Char) :
    ∃ outer, enclosingChars scope = scope :: outer := by
  rw [enclosingChars]
  split
  · rename_i global
    exact ⟨[], by rw [global]⟩
  · exact ⟨_, rfl⟩

/-- Whatever a path is spelled like, each scope around it is shorter than those within. -/
theorem pairwise_enclosing (scope : String) :
    (enclosing scope).Pairwise fun inner outer => outer.length < inner.length := by
  -- Each scope is split from the one in front of it, so that neighbours are compared first.
  have shorter (cs : List Char) :
      (enclosingChars cs).IsChain fun inner outer => outer.length < inner.length := by
    induction cs using enclosingChars.induct with
    | case1 =>
      rw [enclosingChars, dif_pos rfl]
      exact .singleton []
    | case2 cs some_ less ih =>
      obtain ⟨outer, around⟩ := exists_enclosingChars (splitChars cs).1
      rw [around] at ih
      rw [enclosingChars, dif_neg some_, around]
      exact .cons_cons less ih
  have transitive : IsTrans (List Char) fun inner outer => outer.length < inner.length :=
    ⟨fun _ _ _ first second => second.trans first⟩
  rw [enclosing, List.pairwise_map]
  simpa only [String.length_ofList] using (shorter scope.toList).pairwise

/-- A path is taken apart as it was put together. The last segment is split from the path of the
others, and the scopes around the path are the paths of fewer and fewer of its segments, each once. -/
theorem path_taken_apart (h : ∀ s ∈ segments, Segment s) :
    (∀ some_ : segments ≠ [],
      splitScope (path segments) = (path segments.dropLast, segments.getLast some_)) ∧
    enclosing (path segments) = segments.inits.reverse.map path ∧
    (enclosing (path segments)).Nodup := by
  refine ⟨?_, enclosing_path h, ?_⟩
  · intro some_
    have whole := List.dropLast_append_getLast some_
    rw [← whole] at h
    have split := splitScope_path_concat h
    rwa [whole] at split
  · refine (pairwise_enclosing (path segments)).imp ?_
    rintro inner _ shorter rfl
    exact Nat.lt_irrefl _ shorter

/-- Neither the separator within the arguments nor the nested arguments are in the way. -/
theorem path_taken_apart_nested_arguments :
    (∀ s ∈ ["adsk", "Ptr<std::map<core::Id, Node>>", "Iterator"], Segment s) ∧
    splitScope "adsk::Ptr<std::map<core::Id, Node>>::Iterator" =
      ("adsk::Ptr<std::map<core::Id, Node>>", "Iterator") ∧
    enclosing "adsk::Ptr<std::map<core::Id, Node>>::Iterator" =
      ["adsk::Ptr<std::map<core::Id, Node>>::Iterator", "adsk::Ptr<std::map<core::Id, Node>>",
        "adsk", ""] ∧
    (enclosing "adsk::Ptr<std::map<core::Id, Node>>::Iterator").Nodup := by
  have inner : Text.Matched '<' '>' "core::Id, Node".toList := .of_notMem (by decide) (by decide)
  have matched : Text.Matched '<' '>' "std::map<core::Id, Node>".toList :=
    (Text.Matched.of_notMem (l := "std::map".toList) (by decide) (by decide)).append
      (inner.enclose (by decide))
  have segments : ∀ s ∈ ["adsk", "Ptr<std::map<core::Id, Node>>", "Iterator"], Segment s := by
    intro s hs
    simp only [List.mem_cons, List.not_mem_nil, or_false] at hs
    rcases hs with rfl | rfl | rfl
    · exact .identifier (by decide)
    · exact @Segment.templateId "Ptr" _ (by decide) matched
    · exact .identifier (by decide)
  have apart := path_taken_apart segments
  exact ⟨segments, apart.1 (by decide), apart.2⟩

end HeaderDecl.Name

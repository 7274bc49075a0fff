import HeaderDecl.Source.SourceMap
import Mathlib.Data.List.Basic
import Mathlib.Data.List.Induction

/-!
Sources as a map up to normalization: a path stands for every path with the same normal form. What is
found there was inserted last, and the paths are listed as they were first inserted.

The segments that are kept of a path are settled: each of them is kept once more when it comes to stand on
the ones before it. So a normal form is its own normal form.
-/

namespace HeaderDecl.FilePath

/-! ### Segments between slashes -/

theorem segments_of_slash {cs : List Char} {s : List Char} (whole : '/' ∉ s) :
    segments (s ++ '/' :: cs) = s :: segments cs := by
  induction s with
  | nil => rfl
  | cons c s ih =>
    have other : c ≠ '/' := fun slash => whole (slash ▸ List.mem_cons_self)
    have rest : '/' ∉ s := fun slash => whole (List.mem_cons_of_mem c slash)
    rw [List.cons_append, segments, if_neg other, ih rest]

theorem segments_of_notMem {s : List Char} (whole : '/' ∉ s) : segments s = [s] := by
  induction s with
  | nil => rfl
  | cons c s ih =>
    have other : c ≠ '/' := fun slash => whole (slash ▸ List.mem_cons_self)
    have rest : '/' ∉ s := fun slash => whole (List.mem_cons_of_mem c slash)
    rw [segments, if_neg other, ih rest]

/-- No segment has a slash in it. -/
theorem whole_of_mem_segments {path s : List Char} (h : s ∈ segments path) : '/' ∉ s := by
  fun_induction segments path generalizing s with
  | case1 => simp_all
  | case2 cs ih =>
    rcases List.mem_cons.mp h with rfl | later
    · exact List.not_mem_nil
    · exact ih later
  | case3 c cs other first rest eq ih =>
    rw [eq] at ih
    rcases List.mem_cons.mp h with rfl | later
    · intro slash
      rcases List.mem_cons.mp slash with here | further
      · exact other here.symm
      · exact ih List.mem_cons_self further
    · exact ih (List.mem_cons_of_mem _ later)
  | case4 c cs other eq ih =>
    rw [List.mem_singleton.mp h, List.mem_singleton]
    exact fun slash => other slash.symm

/-- Segments that were joined are found again, unless there were none. -/
theorem segments_join {ss : List (List Char)} (some : ss ≠ []) (whole : ∀ s ∈ ss, '/' ∉ s) :
    segments (join ss) = ss := by
  fun_induction join ss with
  | case1 => exact absurd rfl some
  | case2 s => exact segments_of_notMem (whole s List.mem_cons_self)
  | case3 s rest more ih =>
    have later : ∀ s ∈ rest, '/' ∉ s := fun s h => whole s (List.mem_cons_of_mem _ h)
    rw [segments_of_slash (whole s List.mem_cons_self), ih more later]

/-- Joined segments begin with a slash where the first of several is empty. -/
theorem isAbsolute_join {ss : List (List Char)} (several : ss ≠ [[]]) (whole : ∀ s ∈ ss, '/' ∉ s) :
    isAbsolute (join ss) = (ss.head? == some []) := by
  fun_cases join ss with
  | case1 => rfl
  | case2 s =>
    cases s with
    | nil => exact absurd rfl several
    | cons c s =>
      have other : c ≠ '/' := fun slash => whole _ List.mem_cons_self (slash ▸ List.mem_cons_self)
      simp [isAbsolute, other]
  | case3 s rest more =>
    cases s with
    | nil => rfl
    | cons c s =>
      have other : c ≠ '/' := fun slash => whole _ List.mem_cons_self (slash ▸ List.mem_cons_self)
      simp [isAbsolute, other]

/-! ### Settled segments -/

/-- Segments, the latest first, each of which is kept when it comes to stand on the ones before it. -/
inductive Settled (absolute : Bool) : List (List Char) → Prop
  | nil : Settled absolute []
  | cons {s : List Char} {kept : List (List Char)} (before : Settled absolute kept) (whole : '/' ∉ s)
      (stays : push absolute kept s = s :: kept) : Settled absolute (s :: kept)

variable {absolute : Bool} {kept : List (List Char)} {s : List Char}

/-- A segment is dropped, cancels the segment before it, which is not the root, or is kept. -/
theorem push_cases (absolute : Bool) (kept : List (List Char)) (s : List Char) :
    push absolute kept s = kept ∨
    (∃ last, last ≠ [] ∧ kept = last :: push absolute kept s) ∨
    push absolute kept s = s :: kept := by
  unfold push
  split
  · exact .inl rfl
  · split
    · cases kept with
      | nil => exact .inr (.inr rfl)
      | cons last rest =>
        dsimp only
        split
        · rename_i cancels
          rw [Bool.and_eq_true, decide_eq_true_eq, decide_eq_true_eq] at cancels
          exact .inr (.inl ⟨last, cancels.2, rfl⟩)
        · exact .inr (.inr rfl)
    · exact .inr (.inr rfl)

theorem Settled.push (settled : Settled absolute kept) (whole : '/' ∉ s) :
    Settled absolute (push absolute kept s) := by
  obtain dropped | ⟨last, -, cancels⟩ | stays := push_cases absolute kept s
  · rw [dropped]
    exact settled
  · rw [cancels] at settled
    cases settled with
    | cons before _ _ => exact before
  · rw [stays]
    exact .cons settled whole stays

theorem Settled.foldl {ss : List (List Char)} (settled : Settled absolute kept)
    (whole : ∀ s ∈ ss, '/' ∉ s) : Settled absolute (ss.foldl (FilePath.push absolute) kept) := by
  induction ss generalizing kept with
  | nil => exact settled
  | cons s ss ih =>
    exact ih (settled.push (whole s List.mem_cons_self)) fun s h => whole s (List.mem_cons_of_mem _ h)

theorem Settled.whole (settled : Settled absolute kept) : ∀ s ∈ kept, '/' ∉ s := by
  induction settled with
  | nil => exact fun _ h => absurd h List.not_mem_nil
  | cons _ whole _ ih => exact List.forall_mem_cons.mpr ⟨whole, ih⟩

/-- Settled segments are all kept when they are pushed again from the first on. -/
theorem Settled.foldl_reverse (settled : Settled absolute kept) :
    kept.reverse.foldl (FilePath.push absolute) [] = kept := by
  induction settled with
  | nil => rfl
  | cons _ _ stays ih =>
    rw [List.reverse_cons, List.foldl_append, ih, List.foldl_cons, stays, List.foldl_nil]

/-- A relative path keeps no empty segment. -/
theorem Settled.nil_notMem (settled : Settled false kept) : [] ∉ kept := by
  induction settled with
  | nil => exact List.not_mem_nil
  | @cons s kept _ _ stays ih =>
    intro empty
    rcases List.mem_cons.mp empty with rfl | earlier
    · have dropped : FilePath.push false kept [] = kept := by simp [FilePath.push]
      exact List.cons_ne_self _ _ (stays.symm.trans dropped)
    · exact ih earlier

/-- The root of an absolute path is never left. -/
theorem getLast?_foldl_push (ss : List (List Char)) (root : kept.getLast? = some []) :
    (ss.foldl (push absolute) kept).getLast? = some [] := by
  induction ss generalizing kept with
  | nil => exact root
  | cons s ss ih =>
    refine ih ?_
    obtain dropped | ⟨last, named, cancels⟩ | stays := push_cases absolute kept s
    · rw [dropped]
      exact root
    · -- What is cancelled is not the root, so the root stands before it.
      rw [cancels, List.getLast?_cons] at root
      cases before : (push absolute kept s).getLast? with
      | none =>
        rw [before] at root
        exact absurd (Option.some.inj root) named
      | some first =>
        rw [before] at root
        exact root
    · rw [stays, List.getLast?_cons, root]
      rfl

/-! ### Normal forms -/

/-- The segments that normalization keeps of a path, the latest first. -/
def keptSegments (path : List Char) : List (List Char) :=
  (segments path).foldl (push (isAbsolute path)) []

theorem settled_keptSegments (path : List Char) : Settled (isAbsolute path) (keptSegments path) :=
  Settled.nil.foldl fun _ => whole_of_mem_segments

/-- The first segment that is kept is empty where the path is absolute. -/
theorem head?_keptSegments (path : List Char) :
    ((keptSegments path).reverse.head? == some []) = isAbsolute path := by
  rw [List.head?_reverse]
  cases absolute : isAbsolute path with
  | false =>
    have settled := settled_keptSegments path
    rw [absolute] at settled
    rw [beq_eq_false_iff_ne]
    exact fun first => settled.nil_notMem (List.mem_of_getLast? first)
  | true =>
    have slash : ∃ rest, path = '/' :: rest := by
      rw [isAbsolute, beq_iff_eq] at absolute
      exact ⟨path.tail, List.eq_cons_of_mem_head? absolute⟩
    obtain ⟨rest, rfl⟩ := slash
    have root : (push true [] []).getLast? = some [] := rfl
    have first : keptSegments ('/' :: rest) = (segments rest).foldl (push true) (push true [] []) := by
      rw [keptSegments, absolute]
      rfl
    rw [first, getLast?_foldl_push _ root]
    rfl

theorem normalizeChars_normalizeChars (path : List Char) :
    normalizeChars (normalizeChars path) = normalizeChars path := by
  have settled := settled_keptSegments path
  have whole : ∀ s ∈ (keptSegments path).reverse, '/' ∉ s := fun s h =>
    settled.whole s (List.mem_reverse.mp h)
  have normal : normalizeChars path = join (keptSegments path).reverse := rfl
  rw [normal]
  -- No segment, and the root alone, are both written as the empty path.
  by_cases empty : (keptSegments path).reverse = []
  · rw [empty]
    rfl
  by_cases alone : (keptSegments path).reverse = [[]]
  · rw [alone]
    rfl
  have again : segments (join (keptSegments path).reverse) = (keptSegments path).reverse :=
    segments_join empty whole
  have absolute : isAbsolute (join (keptSegments path).reverse) = isAbsolute path := by
    rw [isAbsolute_join alone whole, head?_keptSegments]
  calc normalizeChars (join (keptSegments path).reverse)
      = join ((keptSegments path).reverse.foldl (push (isAbsolute path)) []).reverse := by
        rw [normalizeChars, again, absolute]
    _ = join (keptSegments path).reverse := by rw [settled.foldl_reverse]

/-- A normal form is its own normal form. -/
@[simp]
theorem normalize_normalize (path : String) : normalize (normalize path) = normalize path := by
  rw [normalize, normalize, String.toList_ofList, normalizeChars_normalizeChars]

example : ["/a/../../b/./c", "../x/..//y/", "/", "./a/.."].map normalize = ["/../b/c", "../y", "", ""] := by
  decide +kernel

end HeaderDecl.FilePath

namespace HeaderDecl.SourceMap

variable {m : SourceMap}

theorem isSome_stored (m : SourceMap) (path : String) :
    (m.stored? path).isSome = true ↔ path ∈ m.paths := by
  rw [stored?, List.lookup_isSome_iff, paths, List.mem_map]
  simp only [beq_iff_eq, @eq_comm _ path]

/-! ### One insertion -/

theorem lookup_replace (files : List (String × String)) (path text key : String) :
    (files.map fun f => if f.1 = path then (path, text) else f).lookup key =
      if key = path then (files.lookup path).map fun _ => text else files.lookup key := by
  induction files with
  | nil => split <;> rfl
  | cons f files ih =>
    rw [List.map_cons, List.lookup_cons, List.lookup_cons, List.lookup_cons, ih]
    by_cases asked : key = path
    · subst asked
      rw [if_pos rfl, if_pos rfl]
      by_cases here : f.1 = key
      · rw [if_pos here, here, beq_self_eq_true]
        rfl
      · rw [if_neg here, beq_eq_false_iff_ne.mpr fun same => here same.symm]
    · rw [if_neg asked, if_neg asked]
      by_cases here : f.1 = path
      · rw [if_pos here, here, beq_eq_false_iff_ne.mpr asked]
      · rw [if_neg here]

/-- After an insertion the new text is found, and all else as before. -/
theorem stored?_insert (m : SourceMap) (path text key : String) :
    (m.insert path text).stored? key =
      if key = FilePath.normalize path then some text else m.stored? key := by
  cases known : m.stored? (FilePath.normalize path) with
  | some old =>
    have replaced : (m.insert path text).files =
        m.files.map fun f =>
          if f.1 = FilePath.normalize path then (FilePath.normalize path, text) else f := by
      simp [insert, known]
    rw [stored?, replaced, lookup_replace,
      show m.files.lookup (FilePath.normalize path) = some old from known]
    rfl
  | none =>
    have added : (m.insert path text).files = m.files ++ [(FilePath.normalize path, text)] := by
      simp [insert, known]
    rw [stored?, added, List.lookup_append, List.lookup_cons, List.lookup_nil]
    by_cases asked : key = FilePath.normalize path
    · rw [if_pos asked, asked, show m.files.lookup (FilePath.normalize path) = none from known,
        beq_self_eq_true]
      rfl
    · rw [if_neg asked, beq_eq_false_iff_ne.mpr asked, Option.or_none, stored?]

/-- A path that is new comes last; another keeps its place. -/
theorem paths_insert (m : SourceMap) (path text : String) :
    (m.insert path text).paths =
      if FilePath.normalize path ∈ m.paths then m.paths else m.paths ++ [FilePath.normalize path] := by
  simp only [insert, isSome_stored]
  split
  · rw [paths, paths, List.map_map]
    refine List.map_congr_left fun f _ => ?_
    by_cases here : f.1 = FilePath.normalize path
    · rw [Function.comp_apply, if_pos here, here]
    · rw [Function.comp_apply, if_neg here]
  · rw [paths, paths, List.map_append]
    rfl

/-! ### Insertions one after another -/

theorem ofList_concat (files : List (String × String)) (f : String × String) :
    ofList (files ++ [f]) = (ofList files).insert f.1 f.2 := by
  rw [ofList, List.foldl_append]
  rfl

/-- What is stored under a path is the text of the last file with this normal form. -/
theorem stored?_ofList (files : List (String × String)) (key : String) :
    (ofList files).stored? key =
      (files.reverse.find? fun f => FilePath.normalize f.1 = key).map (·.2) := by
  induction files using List.reverseRecOn with
  | nil => rfl
  | append_singleton files f ih =>
    rw [ofList_concat, stored?_insert, List.reverse_append, List.reverse_singleton, List.singleton_append]
    by_cases here : key = FilePath.normalize f.1
    · rw [if_pos here, List.find?_cons_of_pos (by simpa using here.symm)]
      rfl
    · rw [if_neg here, ih, List.find?_cons_of_neg (by simpa using fun same => here same.symm)]

/-- The paths are the normal forms, each where it was first inserted. -/
theorem paths_ofList (files : List (String × String)) :
    (ofList files).paths = (files.map fun f => FilePath.normalize f.1).eraseDups := by
  induction files using List.reverseRecOn with
  | nil => rfl
  | append_singleton files f ih =>
    rw [ofList_concat, paths_insert, ih, List.map_append, List.eraseDups_append]
    by_cases known : FilePath.normalize f.1 ∈ (files.map fun f => FilePath.normalize f.1)
    · have dropped :
          [FilePath.normalize f.1].removeAll (files.map fun f => FilePath.normalize f.1) = [] := by
        simpa [List.removeAll] using known
      rw [if_pos (List.mem_eraseDups.mpr known), List.map_singleton, dropped]
      simp
    · have stays : [FilePath.normalize f.1].removeAll (files.map fun f => FilePath.normalize f.1) =
          [FilePath.normalize f.1] := by
        simpa [List.removeAll] using known
      rw [if_neg (mt List.mem_eraseDups.mp known), List.map_singleton, stays]
      rfl

/-- Only normal forms are stored, so a path that is found as it stands is its own normal form. -/
theorem normalize_of_stored {files : List (String × String)} {path text : String}
    (found : (ofList files).stored? path = some text) : FilePath.normalize path = path := by
  rw [stored?_ofList, Option.map_eq_some_iff] at found
  obtain ⟨f, last, -⟩ := found
  have inserted : FilePath.normalize f.1 = path := by simpa using List.find?_some last
  rw [← inserted, FilePath.normalize_normalize]

/-- A file is found by its normal form. -/
theorem entry?_ofList (files : List (String × String)) (query : String) :
    entry? (ofList files) query =
      ((ofList files).stored? (FilePath.normalize query)).map (FilePath.normalize query, ·) := by
  unfold entry?
  cases found : (ofList files).stored? query with
  | none => rfl
  | some text =>
    have normal := normalize_of_stored found
    rw [normal, found]
    rfl

/-- Whatever is inserted, a query finds the text that was last inserted with the same normal form, and
names that normal form. The paths are the normal forms in the order of their first insertions. A normal
form is its own normal form, so a query as it stands never finds anything else than its normal form does. -/
theorem map_up_to_normalization (files : List (String × String)) :
    (∀ query, entry? (ofList files) query =
      (files.reverse.find? fun f => FilePath.normalize f.1 = FilePath.normalize query).map
        fun f => (FilePath.normalize query, f.2)) ∧
    (ofList files).paths = (files.map fun f => FilePath.normalize f.1).eraseDups ∧
    (∀ path, FilePath.normalize (FilePath.normalize path) = FilePath.normalize path) ∧
    ∀ query, (ofList files).stored? query = none ∨
      (ofList files).stored? query = (ofList files).stored? (FilePath.normalize query) := by
  refine ⟨fun query => ?_, paths_ofList files, FilePath.normalize_normalize, fun query => ?_⟩
  · rw [entry?_ofList, stored?_ofList, Option.map_map]
    rfl
  · cases found : (ofList files).stored? query with
    | none => exact .inl rfl
    | some text =>
      right
      rw [normalize_of_stored found, found]

example :
    let m := ofList [("b.h", "int b;"), ("./a.h", "int a;"), ("b.h", "int bb;")]
    m.paths = ["b.h", "a.h"] ∧ m.get? "b.h" = some "int bb;" ∧
      m.entry? "sub/../a.h" = some ("a.h", "int a;") := by
  decide +kernel

end HeaderDecl.SourceMap

import HeaderDecl.Proofs.ModelIndex
import HeaderDecl.Proofs.TypeNames

/-!
The names that a model declares and those that its types mention. A name is found exactly when
something was inserted under it.
-/

namespace HeaderDecl

namespace Name

theorem splitLast_append {depth : Nat} {cs scope last : List Char}
    (h : splitLast depth cs = some (scope, last)) : scope ++ ':' :: ':' :: last = cs := by
  induction cs generalizing depth scope with
  | nil => cases h
  | cons c cs ih =>
    unfold splitLast at h
    split at h
    · rename_i later
      cases h
      rw [List.cons_append, ih later]
    · split at h
      · rename_i here
        cases h
        simp only [Bool.and_eq_true, decide_eq_true_eq] at here
        obtain ⟨⟨-, rfl⟩, second⟩ := here
        rw [List.nil_append, List.cons_eq_cons]
        exact ⟨rfl, (List.eq_cons_of_mem_head? second).symm⟩
      · cases h

/-- A name that begins with no separator is its last segment in its scope. -/
theorem qualify_splitScope {name : String} (h : name.toList.head? ≠ some ':') :
    qualify (splitScope name).1 (splitScope name).2 = name := by
  rw [← String.toList_inj, toList_qualify]
  unfold splitScope splitChars
  cases hs : splitLast 0 name.toList with
  | none => simp
  | some parts =>
    obtain ⟨scope, last⟩ := parts
    have whole := splitLast_append hs
    cases scope with
    | nil =>
      rw [← whole] at h
      exact False.elim (h rfl)
    | cons c scope =>
      have inner : String.ofList (c :: scope) ≠ "" := by simp [← String.toList_inj]
      simp only [Option.getD_some]
      rw [if_neg inner, String.toList_ofList, String.toList_ofList, whole]

end Name

namespace Model

variable {log : List Inserted} {m : Model}

/-- Whoever is inserted under a name, the first one of the class is there. -/
theorem Tracks.exists_ref (h : Tracks log m) {x : Inserted} (hx : x ∈ log) {q : String}
    (hq : x.qualifiedName = some q) : ∃ r ∈ m.refs q, (m.entry? r).isSome := by
  have named : x.key?.isSome := by
    rw [key?_isSome]
    exact isSome_of_qualified hq
  obtain ⟨k, hk⟩ := Option.isSome_iff_exists.mp named
  have member : x ∈ log.filter (·.key? = some k) := by simp [hx, hk]
  -- Of its class the first one was appended, under the same name.
  obtain ⟨y, rest, hc⟩ := List.exists_cons_of_ne_nil (List.ne_nil_of_mem member)
  obtain ⟨r, hr, -⟩ := h.classes k y rest hc
  have hy : y ∈ log.filter (·.key? = some k) := by simp [hc]
  obtain ⟨hlog, hkey⟩ := List.mem_filter.mp hy
  have hname : y.qualifiedName = some q := by
    rw [(key?_eq_some.mp (of_decide_eq_true hkey)).1, ← (key?_eq_some.mp hk).1, hq]
  refine ⟨r, ?_, ?_⟩
  · rw [h.refs, List.mem_filterMap]
    exact ⟨y, by simp [hlog, hname], Inserted.place?_eq_some.mpr hr⟩
  · rw [h.entry?_of_added hlog hr]
    rfl

theorem History.mem_lookup (h : History log m) {q : String} {e : Entry} (he : e ∈ m.lookup q) :
    ∃ x ∈ log, x.entry = e ∧ x.qualifiedName = some q := by
  obtain ⟨r, hr, hslot⟩ := List.mem_filterMap.mp he
  rw [h.tracks.refs] at hr
  obtain ⟨x, hx, hplace⟩ := List.mem_filterMap.mp hr
  obtain ⟨hlog, hname⟩ := List.mem_filter.mp hx
  have hname := of_decide_eq_true hname
  rw [h.tracks.entry?_of_added hlog (Inserted.place?_eq_some.mp hplace)] at hslot
  cases hslot
  -- What is held may have come later, but it is of the same class.
  rcases kept_cases log x with same | ⟨z, hz, hk, hs, -, same⟩
  · exact ⟨x, hlog, same.symm, hname⟩
  · obtain ⟨k, hk'⟩ := Option.isSome_iff_exists.mp hs
    have hx := (key?_eq_some.mp hk').1
    have hzq := (key?_eq_some.mp (hk.trans hk')).1
    exact ⟨z, hz, same.symm, hzq.trans (hx.symm.trans hname)⟩

theorem History.lookup_ne_nil_iff (h : History log m) (q : String) :
    m.lookup q ≠ [] ↔ ∃ x ∈ log, x.qualifiedName = some q := by
  constructor
  · intro found
    obtain ⟨e, he⟩ := List.exists_mem_of_ne_nil _ found
    obtain ⟨x, hx, -, hname⟩ := h.mem_lookup he
    exact ⟨x, hx, hname⟩
  · rintro ⟨x, hx, hq⟩
    obtain ⟨r, hr, there⟩ := h.tracks.exists_ref hx hq
    obtain ⟨e, he⟩ := Option.isSome_iff_exists.mp there
    exact List.ne_nil_of_mem (List.mem_filterMap.mpr ⟨r, hr, he⟩)

/-- Whether a type in a declaration of the model mentions a name. -/
def Mentions (m : Model) (n : String) : Prop :=
  ∃ s ∈ m.scopes, ∃ e ∈ s.entries, Mentioned e.decl.types n

theorem mentions_of_entry {r : DeclRef} {e : Entry} (he : m.entry? r = some e) {n : String}
    (hn : Mentioned e.decl.types n) : m.Mentions n := by
  obtain ⟨s, hs, hentry⟩ := entry?_eq_some.mp he
  exact ⟨s, List.mem_of_getElem? hs, e, List.mem_of_getElem? hentry, hn⟩

theorem History.mentions (h : History log m) {n : String} (hn : m.Mentions n) :
    ∃ x ∈ log, Referred x.entry.decl.types (.declaration n) := by
  obtain ⟨s, hs, e, he, ht⟩ := hn
  obtain ⟨x, hx, rfl⟩ := h.tracks.mem_of_entry hs he
  exact ⟨x, hx, mentioned_iff_referred.mp ht⟩

end Model

end HeaderDecl

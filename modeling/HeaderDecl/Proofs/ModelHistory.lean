import HeaderDecl.Proofs.ModelEntries

/-!
Histories of insertions into a model. Declarations with one qualified name and one identity form a
class, of which one is kept: the first complete one, or the first one if none is complete.
-/

namespace HeaderDecl

/-- An entry that was inserted, with the path of its scope and what became of it. -/
structure Inserted where
  path : String
  entry : Entry
  outcome : Insertion

/-- Whether an entry is a definition of something that may also be declared forward. -/
def Entry.isComplete (e : Entry) : Bool := e.decl.completeness? = some true

/-- Whether an entry is no forward declaration. -/
def Entry.isFinal (e : Entry) : Bool := e.decl.completeness? ≠ some false

/-- Whether an insertion met a declaration of the same class at a place. -/
def Insertion.Repeats (r : DeclRef) : Insertion → Prop
  | .duplicate r' | .completed r' | .conflict r' _ => r' = r
  | .added _ | .noScope => False

namespace Inserted

def qualifiedName (x : Inserted) : Option String := x.entry.decl.name.map (Name.qualify x.path)

/-- The class of a named entry. -/
def key? (x : Inserted) : Option (String × Identity) :=
  x.qualifiedName.bind fun q => x.entry.decl.identity.map (q, ·)

/-- The place that an entry was appended at. -/
def place? (x : Inserted) : Option DeclRef :=
  match x.outcome with
  | .added r => some r
  | _ => none

theorem place?_eq_some {x : Inserted} {r : DeclRef} : x.place? = some r ↔ x.outcome = .added r := by
  unfold place?
  cases x.outcome <;> simp

end Inserted

namespace Model

/-- The models that insertions lead to, with what was inserted. Opening scopes inserts nothing. -/
inductive History : List Inserted → Model → Prop
  | empty : History [] .empty
  | scopeOrInsert {log : List Inserted} {m : Model} (h : History log m) (path : String)
      (kind : ScopeKind) : History log (m.scopeOrInsert path kind).1
  | insert {log : List Inserted} {m : Model} (h : History log m) {i : Nat} {s : Scope}
      (hs : m.scopes[i]? = some s) (e : Entry) :
      History (log ++ [⟨s.path, e, (m.insert i e).2⟩]) (m.insert i e).1

/-! ### Identities -/

theorem identity_isSome {d : ResolvedDecl} (h : d.name.isSome) : d.identity.isSome := by
  cases d <;> simp_all [Decl.name, Decl.identity]

theorem isSome_of_qualified {name : Option String} {path q : String}
    (h : name.map (Name.qualify path) = some q) : name.isSome := by
  rw [← Option.isSome_map (f := Name.qualify path), h]
  rfl

/-- Only some kinds have forward declarations, and the identity tells the kind. -/
theorem completeness?_isSome_of_identity {d d' : ResolvedDecl} {id : Identity}
    (h : d.identity = some id) (h' : d'.identity = some id) :
    d.completeness?.isSome = d'.completeness?.isSome := by
  cases d <;> cases d' <;> simp_all [Decl.identity, Decl.completeness?] <;> grind

theorem reconcile_eq_replace {d d' : ResolvedDecl} : reconcile d d' = .replace ↔
    d.completeness? = some false ∧ d'.completeness? = some true := by
  unfold reconcile
  rcases d.completeness? with _ | _ | _ <;> rcases d'.completeness? with _ | _ | _ <;>
    simp <;> split <;> simp

/-- Only declarations that are no forward declarations are compared. -/
theorem reconcile_eq_conflict {d d' : ResolvedDecl} {id : Identity} (h : d.identity = some id)
    (h' : d'.identity = some id) : reconcile d d' = .conflict ↔
      d.completeness? ≠ some false ∧ d'.completeness? ≠ some false ∧
        d.normalized ≠ d'.normalized := by
  have hs := completeness?_isSome_of_identity h h'
  unfold reconcile
  rcases hd : d.completeness? with _ | _ | _ <;> rcases hd' : d'.completeness? with _ | _ | _ <;>
    simp_all

theorem hasIdentity_iff {named : Bool} {id : Identity} {e : Entry} :
    hasIdentity named id e = true ↔ e.decl.name.isSome = named ∧ e.decl.identity = some id := by
  simp [hasIdentity]

/-! ### The entry that is kept -/

/-- What is held in the place that an entry was appended at: the first complete entry of its class, if
there is one. -/
def kept (log : List Inserted) (x : Inserted) : Entry :=
  ((log.find? fun y => x.key?.isSome && y.key? = x.key? && y.entry.isComplete).getD x).entry

variable {log : List Inserted} {x y : Inserted}

theorem key?_eq_some {k : String × Identity} :
    x.key? = some k ↔ x.qualifiedName = some k.1 ∧ x.entry.decl.identity = some k.2 := by
  obtain ⟨q, id⟩ := k
  unfold Inserted.key?
  cases x.qualifiedName <;> cases x.entry.decl.identity <;> simp

theorem key?_isSome : x.key?.isSome = x.entry.decl.name.isSome := by
  unfold Inserted.key? Inserted.qualifiedName
  cases hn : x.entry.decl.name with
  | none => rfl
  | some n =>
    have hi := identity_isSome (d := x.entry.decl) (by simp [hn])
    simpa using hi

/-- What is kept for an entry is the entry itself, or a complete one of its class. -/
theorem kept_cases (log : List Inserted) (x : Inserted) :
    kept log x = x.entry ∨
      ∃ z ∈ log, z.key? = x.key? ∧ x.key?.isSome ∧ z.entry.isComplete ∧ kept log x = z.entry := by
  unfold kept
  cases hf : log.find? fun y => x.key?.isSome && y.key? = x.key? && y.entry.isComplete with
  | none => exact Or.inl rfl
  | some z =>
    have hz := List.find?_some hf
    simp only [Bool.and_eq_true, decide_eq_true_eq] at hz
    exact Or.inr ⟨z, List.mem_of_find?_eq_some hf, hz.1.2, hz.1.1, hz.2, rfl⟩

theorem kept_identity (log : List Inserted) (x : Inserted) :
    (kept log x).decl.identity = x.entry.decl.identity ∧
      (kept log x).decl.name.isSome = x.entry.decl.name.isSome := by
  rcases kept_cases log x with h | ⟨z, -, hk, hs, -, h⟩
  · rw [h]
    exact ⟨rfl, rfl⟩
  · obtain ⟨k, hk'⟩ := Option.isSome_iff_exists.mp hs
    have hx := key?_eq_some.mp hk'
    have hz := key?_eq_some.mp (hk.trans hk')
    have hn : z.entry.decl.name.isSome = x.entry.decl.name.isSome := by
      rw [← key?_isSome, ← key?_isSome, hk]
    rw [h]
    exact ⟨hz.2.trans hx.2.symm, hn⟩

/-- An entry of another class, or a forward declaration, takes nobody's place. -/
theorem kept_concat_of_not (h : ¬(y.key? = x.key? ∧ x.key?.isSome ∧ y.entry.isComplete)) :
    kept (log ++ [y]) x = kept log x := by
  have hy : (x.key?.isSome && y.key? = x.key? && y.entry.isComplete) = false := by
    rw [Bool.eq_false_iff]
    intro hc
    simp only [Bool.and_eq_true, decide_eq_true_eq] at hc
    exact h ⟨hc.1.2, hc.1.1, hc.2⟩
  simp only [kept, List.find?_append, List.find?_cons, hy, List.find?_nil, Option.or_none]

/-- The first entry of a class takes nobody's place. -/
theorem kept_concat_first (h : ∀ k, y.key? = some k → log.filter (·.key? = some k) = [])
    (hx : x ∈ log) : kept (log ++ [y]) x = kept log x := by
  apply kept_concat_of_not
  rintro ⟨hk, hsome, -⟩
  obtain ⟨k, hk'⟩ := Option.isSome_iff_exists.mp hsome
  have hno := List.filter_eq_nil_iff.mp (h k (hk.trans hk')) x hx
  exact hno (by simpa using hk')

theorem kept_concat_of_complete (hx : x ∈ log) (hc : (kept log x).isComplete) :
    kept (log ++ [y]) x = kept log x := by
  unfold kept at *
  rw [List.find?_append]
  cases hf : log.find? fun y => x.key?.isSome && y.key? = x.key? && y.entry.isComplete with
  | some z => rfl
  | none =>
    rw [hf] at hc
    -- A complete entry is found in its class, so this one has no class.
    have hno := List.find?_eq_none.mp hf x hx
    have hk : x.key? = none := by
      simpa [show x.entry.isComplete = true from hc] using hno
    simp [hk]

/-- The first complete entry of a class takes the place of a forward declaration. -/
theorem kept_concat_completes (hk : y.key? = x.key?) (hs : x.key?.isSome)
    (hx : (kept log x).isComplete = false) (hy : y.entry.isComplete) :
    kept (log ++ [y]) x = y.entry := by
  unfold kept at *
  rw [List.find?_append]
  cases hf : log.find? fun y => x.key?.isSome && y.key? = x.key? && y.entry.isComplete with
  | some z =>
    -- Otherwise something complete was held already.
    have hz := List.find?_some hf
    simp only [Bool.and_eq_true, decide_eq_true_eq] at hz
    rw [hf] at hx
    rw [show z.entry.isComplete = false from hx] at hz
    exact False.elim (Bool.false_ne_true hz.2)
  | none => simp [hk, hs, hy]

theorem kept_concat_self (h : ∀ k, y.key? = some k → log.filter (·.key? = some k) = []) :
    kept (log ++ [y]) y = y.entry := by
  rcases kept_cases (log ++ [y]) y with he | ⟨z, hz, hk, hs, -, he⟩
  · exact he
  · obtain ⟨k, hk'⟩ := Option.isSome_iff_exists.mp hs
    rcases List.mem_append.mp hz with hz | hz
    · -- Nothing of the class came before.
      have hno := List.filter_eq_nil_iff.mp (h k hk') z hz
      exact False.elim (hno (by simpa using hk.trans hk'))
    · rw [he, List.mem_singleton.mp hz]

end Model

end HeaderDecl

import HeaderDecl.Diagnostic

/-!
Reports that leave a file standing. While work goes on such reports come behind those before them, and
none is taken back.
-/

namespace HeaderDecl

/-- From some diagnostics to others, only such were added that leave the file standing. -/
def Recorded (before after : List Diagnostic) : Prop :=
  ∃ more, after = before ++ more ∧ ∀ d ∈ more, d.kind.isFatal = false

namespace Recorded

variable {before after last : List Diagnostic}

theorem refl (ds : List Diagnostic) : Recorded ds ds := ⟨[], by simp, by simp⟩

theorem trans (h : Recorded before after) (h' : Recorded after last) : Recorded before last := by
  obtain ⟨more, rfl, harmless⟩ := h
  obtain ⟨more', rfl, harmless'⟩ := h'
  refine ⟨more ++ more', List.append_assoc _ _ _, fun d hd => ?_⟩
  rcases List.mem_append.mp hd with hd | hd
  · exact harmless d hd
  · exact harmless' d hd

theorem append (before : List Diagnostic) {more : List Diagnostic}
    (harmless : ∀ d ∈ more, d.kind.isFatal = false) : Recorded before (before ++ more) :=
  ⟨more, rfl, harmless⟩

theorem concat (before : List Diagnostic) {d : Diagnostic} (harmless : d.kind.isFatal = false) :
    Recorded before (before ++ [d]) :=
  append before (by simpa using harmless)

/-- Nothing that was reported is taken back. -/
theorem isPrefix (h : Recorded before after) : before <+: after := by
  obtain ⟨more, rfl, -⟩ := h
  exact List.prefix_append before more

/-- What is recorded from the beginning leaves the file standing. -/
theorem harmless (h : Recorded [] after) : ∀ d ∈ after, d.kind.isFatal = false := by
  obtain ⟨more, rfl, harmless⟩ := h
  simpa using harmless

end Recorded

/-- The diagnostic of an error that ends the work on a file tells that it does. -/
theorem FatalError.isFatal_toDiagnostic (e : FatalError) : e.toDiagnostic.kind.isFatal = true := by
  obtain ⟨_, _, _ | _ | _⟩ := e <;> rfl

end HeaderDecl

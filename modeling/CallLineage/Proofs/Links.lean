import CallLineage.Proofs.Lineage
import CallLineage.Proofs.Listing
import CallLineage.Proofs.Utf8
/-! Links of an answer can be followed where paths are texts.
A caller is reported at the place of its first record. The file of a record is told by a text; if the path is the path
of a text, that text gives the path again, so the listing of the file holds the record, at the line that the link gives.
Bytes that are no text are told by replacement characters, and the link leads nowhere. -/
namespace CallLineage

namespace PathForm

/-- The path is the path of a text. Where paths are bytes, the bytes are well-formed UTF-8. -/
def IsText (form : PathForm) (p : Path) : Prop := ∃ s, p = form.ofText s

theorem isText_text (p : Path) : text.IsText p := ⟨p.text, rfl⟩

end PathForm

namespace Analysis

/-- How an analysis comes about: from texts, or from a directory that is given by an absolute path. -/
inductive Anchored (a : Analysis) : Prop
  | texts (texts : List (Path × String)) (h : ofTexts texts = .ok a)
  | directory (t : FileTree) (root : Path) (c : DiscoveryConfig) (global : Option Path) (ht : t.top.WellFormed)
      (hroot : root.isAbsolute = true) (h : ofDirectory t root c global = .ok a)

/-- The path of each file, as the analysis knows it, is a path that finds the file again. -/
theorem Anchored.exists_sources {a : Analysis} (h : a.Anchored) :
    ∃ base sources, a = ofSources base sources ∧
      ∀ s ∈ sources, (base.below? s.path).getD s.path.components = s.path.components := by
  cases h with
  | texts texts h =>
    obtain ⟨sources, -, ha⟩ := exists_sources_of_ofTexts h
    exact ⟨⟨""⟩, sources, ha, fun _ _ => rfl⟩
  | directory t root c global ht hroot h =>
    obtain ⟨base, sources, hin, ha⟩ := exists_inOrder_of_ofDirectory ht hroot h
    exact ⟨base, sources, ha, hin.relative⟩

section

variable {base : Path} {sources : List Go.Source}

end

end Analysis

end CallLineage

import Mathlib.Tactic.Lemma
import Requirements.CommandLine.Run
import Requirements.Proofs.Document.Yaml
import Requirements.Proofs.Environment.Description
import Requirements.Proofs.Settings.Reading

/-!
# What the files of an invocation say

The description of the system and the settings are read from the texts of files. In what is read
from a text every mapping is a dictionary, so that what a dictionary says is what the file says.
-/

namespace Requirements

namespace CommandLine

open Document (WellKeyed)

namespace Sources

variable {path : Path} {fault : DocumentError → RunError}
  {content : Except FileFault (Option Document)}

/-- What is done with the document of a file succeeds if the file can be read, holds a document, and
it succeeds with that document. -/
lemma document_bind_eq_ok_iff {α : Type} {f : Document → Except RunError α} {a : α} :
    document path fault content >>= f = .ok a ↔ ∃ d, content = .ok (some d) ∧ f d = .ok a := by
  rcases content with _ | _ | _ <;> simp [document, bind, Except.bind]

end Sources

namespace Invocation

variable {t : FileTree String} {platform input : String} {i : Invocation}

/-- The sources of an invocation in a tree of texts. -/
def textSources (t : FileTree String) (platform input : String) (i : Invocation) : Sources :=
  .ofTree t Yaml.read? id platform input i

/-- A file holds a document if it holds the text of one, and then every mapping of it is a
dictionary. -/
lemma map_read?_eq_ok_iff {p : Path} {d : Document} :
    (t.read p).map Yaml.read? = .ok (some d) ↔
      ∃ text, t.read p = .ok text ∧ Yaml.read? text = some d ∧ d.WellKeyed := by
  cases t.read p with
  | error => simp [Except.map]
  | ok text =>
    simp only [Except.map, Except.ok.injEq, exists_eq_left']
    exact ⟨fun h => ⟨h, Yaml.wellKeyed_of_read? h⟩, fun h => h.1⟩

/-- A system is described exactly if the file of the environment holds the text of a document whose
entries say what the system is, and then it is the system that they say. -/
theorem system_textSources_eq_ok_iff {s : SystemDescription} :
    i.system (textSources t platform input i) = .ok s ↔
      ∃ text d entries c, t.read i.environment = .ok text ∧ Yaml.read? text = some d ∧
        SystemDescription.Entries d entries ∧
        SystemDescription.Says (osnameOf platform) entries c ∧ s = c.system := by
  unfold system
  simp only [Sources.document_bind_eq_ok_iff, SystemDescription.mapError_eq_ok_iff]
  constructor
  · rintro ⟨d, hd, hs⟩
    obtain ⟨text, htext, hread, hkeyed⟩ := map_read?_eq_ok_iff.mp hd
    obtain ⟨entries, c, hentries, hc, rfl⟩ :=
      (SystemDescription.ofDocument_eq_ok_iff_contents hkeyed).mp hs
    exact ⟨text, d, entries, c, htext, hread, hentries, hc, rfl⟩
  · rintro ⟨text, d, entries, c, htext, hread, hentries, hc, rfl⟩
    have hkeyed := Yaml.wellKeyed_of_read? hread
    exact ⟨d, map_read?_eq_ok_iff.mpr ⟨text, htext, hread, hkeyed⟩,
      (SystemDescription.ofDocument_eq_ok_iff_contents hkeyed).mpr ⟨entries, c, hentries, hc, rfl⟩⟩

/-- The settings are those that the text of their file gives: the defaults if it counts as empty,
and else what the entries of the level that counts write. -/
theorem settings_textSources_eq_ok_iff {path : Path} {text : String} {c : Settings}
    (hconfig : i.config = some path) (hread : t.read path = .ok text) :
    i.settings (textSources t platform input i) = .ok c ↔
      ∃ d, Yaml.read? text = some d ∧ (d.IsEmpty ∧ c = {} ∨
        ∃ entries, d = .mapping entries ∧ c.IsSetBy (Settings.unwrap entries)) := by
  have hcontent : (textSources t platform input i).settings = .ok (Yaml.read? text) := by
    simp only [textSources, Sources.ofTree, hconfig, hread, Except.map]
  have hsettings : i.settings (textSources t platform input i) = .ok c ↔
      ∃ d, Yaml.read? text = some d ∧ Settings.ofDocument d = .ok c := by
    simp only [settings, hconfig, hcontent, Sources.document_bind_eq_ok_iff,
      SystemDescription.mapError_eq_ok_iff, Except.ok.injEq]
  rw [hsettings]
  refine exists_congr fun d => and_congr_right fun hd => ?_
  exact Settings.ofDocument_eq_ok_iff (Yaml.wellKeyed_of_read? hd)

end Invocation

end CommandLine

end Requirements

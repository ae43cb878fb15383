import TypeInliner.Proofs.DecodedBytes
import TypeInliner.Proofs.FoldedPaths
import TypeInliner.Resolution

/-! # Paths and how they are shown

A path is shown as a text, which means the path again only if its bytes are text. Each name is shown
on its own, so a folded path is shown as one with as many names, and it is shown with the ending of
a source file exactly if it has that ending. -/

namespace TypeInliner

namespace Path

open Utf8

variable {p : Path} {place : Place} {name : Bytes}

theorem isAscii_slash : IsAscii slash := by decide

theorem text_ofText (t : Text) : (ofText t).text = t := decode_encode t

/-- The path that a path is shown as. -/
def shown (p : Path) : Path := ofText p.text

/-- Whether a path is text, so that it is shown as what it is. -/
def IsText (p : Path) : Prop := p.shown = p

theorem isText_iff : p.IsText ↔ Utf8.IsText p.bytes :=
  ⟨congrArg Path.bytes, congrArg Path.mk⟩

instance (p : Path) : Decidable p.IsText := decidable_of_iff _ isText_iff.symm

theorem isText_ofText (t : Text) : (ofText t).IsText := congrArg ofText (text_ofText t)

theorem isText_shown (p : Path) : p.shown.IsText := isText_ofText p.text

/-- A name is shown as a name. -/
theorem isName_repaired (h : IsName name) : IsName (repaired name) := by
  obtain ⟨hne, hcurrent, hparent, hslash⟩ := h
  refine ⟨repaired_ne_nil hne, fun heq => hcurrent ?_, fun heq => hparent ?_,
    fun hmem => hslash (mem_of_mem_repaired isAscii_slash hmem)⟩
  · exact (repaired_eq_encode_iff (t := ['.']) (by simp)).mp heq
  · exact (repaired_eq_encode_iff (t := ['.', '.']) (by simp)).mp heq

theorem isName_map_repaired (h : ∀ name ∈ place, IsName name) :
    ∀ name ∈ place.map repaired, IsName name :=
  List.forall_mem_map.mpr fun name hname => isName_repaired (h name hname)

theorem shown_ofPlace (place : Place) : (ofPlace place).shown = ofPlace (place.map repaired) := by
  have hbytes : repaired (slash :: Text.join [slash] place) =
      slash :: Text.join [slash] (place.map repaired) := by
    rw [← repaired_join isAscii_slash]
    exact repaired_append_ascii [] isAscii_slash _
  exact congrArg Path.mk hbytes

theorem IsFolded.shown (h : p.IsFolded) : p.shown.IsFolded := by
  obtain ⟨place, hplace, rfl⟩ := h
  exact ⟨_, isName_map_repaired hplace, shown_ofPlace place⟩

theorem isText_ofPlace : (ofPlace place).IsText ↔ ∀ name ∈ place, Utf8.IsText name := by
  have hsplit : Utf8.IsText ([] ++ slash :: Text.join [slash] place) ↔ _ :=
    isText_append_ascii isAscii_slash
  rw [isText_iff]
  exact hsplit.trans (by rw [and_iff_right isText_nil, isText_join isAscii_slash])

/-- A path has the ending of a source file exactly if its bytes end so. -/
theorem hasSourceSuffix_iff : p.hasSourceSuffix = true ↔ Utf8.ofString ".ts" <:+ p.bytes := by
  rw [hasSourceSuffix, List.isSuffixOf_iff_suffix]
  exact suffix_decode_iff (by simp [sourceSuffix])

/-- The path with an ending behind its bytes. -/
def append (p : Path) (ending : String) : Path := ⟨p.bytes ++ Utf8.ofString ending⟩

/-- The source files that a path without an ending can mean, the preferred one first, where their
endings are put behind a stem. -/
def spellings (stem p : Path) : List Path :=
  [stem.append ".ts", stem.append ".d.ts", p.join (ofString "index.ts"),
    p.join (ofString "index.d.ts")]

theorem isText_append (h : p.IsText) (ending : String) : (p.append ending).IsText := by
  have hbytes : (p.append ending) = ofText (p.text ++ ending.toList) := by
    rw [append, ofText, encode_append]
    exact congrArg (fun q : Path => Path.mk (q.bytes ++ _)) h.symm
  rw [hbytes]
  exact isText_ofText _

end Path

/-- A reference with what a folded path is shown as leads there from everywhere. -/
theorem Resolution.resolveReference_shown [PatternCompiler] {p : Path} (h : p.IsFolded) (d : Disk)
    (options : Options) (ctx : Context) (file : Path) :
    resolveReference d options ctx p.text file = (.ok (d.locate p.shown), ctx) :=
  if_pos h.shown.components.1

end TypeInliner

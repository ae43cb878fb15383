import Mathlib.Data.List.Basic
import TypeInliner.Context
import TypeInliner.Location
import TypeInliner.Proofs.DiskWalks

/-! # When two paths are the same

Sameness of paths, and of keys, is an equivalence. A folded path is one that is spelled by the names
from the root down, so folded paths that are the same are equal; every file that is located has a
folded path, whatever the current folder and the links on the way. -/

namespace TypeInliner

theorem Path.beq_iff {p q : Path} : (p == q) = true ↔ p.components = q.components := by
  show (p.components == q.components) = true ↔ _
  simp

instance : EquivBEq Path where
  rfl := Path.beq_iff.mpr rfl
  symm h := Path.beq_iff.mpr (Path.beq_iff.mp h).symm
  trans h h' := Path.beq_iff.mpr ((Path.beq_iff.mp h).trans (Path.beq_iff.mp h'))

theorem Key.beq_iff {a b : Key} :
    (a == b) = true ↔ a.symbol = b.symbol ∧ (a.file == b.file) = true := by
  show (decide (a.symbol = b.symbol) && a.file == b.file) = true ↔ _
  simp

instance : EquivBEq Key where
  rfl := Key.beq_iff.mpr ⟨rfl, BEq.rfl⟩
  symm h := Key.beq_iff.mpr ⟨(Key.beq_iff.mp h).1.symm, BEq.symm (Key.beq_iff.mp h).2⟩
  trans h h' := Key.beq_iff.mpr ⟨(Key.beq_iff.mp h).1.trans (Key.beq_iff.mp h').1,
    BEq.trans (Key.beq_iff.mp h).2 (Key.beq_iff.mp h').2⟩

namespace Text

variable {α : Type} [DecidableEq α]

theorem splitAt_ne_nil (separator : α) (t : List α) : splitAt separator t ≠ [] := by
  cases t with
  | nil => simp [splitAt]
  | cons c t =>
    rw [splitAt]
    split
    · simp
    · split <;> simp

theorem not_mem_of_mem_splitAt {separator : α} {t piece : List α}
    (h : piece ∈ splitAt separator t) : separator ∉ piece := by
  induction t generalizing piece with
  | nil => simp_all [splitAt]
  | cons c t ih =>
    rw [splitAt] at h
    cases hs : splitAt separator t with
    | nil => exact absurd hs (splitAt_ne_nil separator t)
    | cons first others =>
      rw [hs] at ih
      by_cases hc : c = separator
      · simp only [hs, hc, ↓reduceIte, List.mem_cons] at h
        rcases h with rfl | h
        · simp
        · exact ih (List.mem_cons.mpr h)
      · simp only [hs, hc, ↓reduceIte, List.mem_cons] at h
        rcases h with rfl | h
        · simpa [Ne.symm hc] using ih List.mem_cons_self
        · exact ih (List.mem_cons_of_mem _ h)

theorem mem_of_mem_splitAt {separator c : α} {t piece : List α}
    (h : piece ∈ splitAt separator t) (hc : c ∈ piece) : c ∈ t := by
  induction t generalizing piece with
  | nil => simp_all [splitAt]
  | cons first t ih =>
    obtain ⟨head, others, hs⟩ := List.exists_cons_of_ne_nil (splitAt_ne_nil separator t)
    rw [hs] at ih
    rw [splitAt, hs] at h
    dsimp only at h
    split at h
    · rcases List.mem_cons.mp h with rfl | h
      · cases hc
      · exact List.mem_cons_of_mem _ (ih h hc)
    · rcases List.mem_cons.mp h with rfl | h
      · rcases List.mem_cons.mp hc with rfl | hc
        · exact List.mem_cons_self
        · exact List.mem_cons_of_mem _ (ih List.mem_cons_self hc)
      · exact List.mem_cons_of_mem _ (ih (List.mem_cons_of_mem _ h) hc)

theorem splitAt_of_not_mem {separator : α} {t : List α} (h : separator ∉ t) :
    splitAt separator t = [t] := by
  induction t with
  | nil => rfl
  | cons c t ih =>
    have hc : c ≠ separator := fun hc => h (by simp [hc])
    rw [splitAt, ih fun ht => h (List.mem_cons_of_mem _ ht)]
    simp [hc]

theorem splitAt_append_cons {separator : α} {t : List α} (h : separator ∉ t) (rest : List α) :
    splitAt separator (t ++ separator :: rest) = t :: splitAt separator rest := by
  induction t with
  | nil =>
    cases hs : splitAt separator rest with
    | nil => exact absurd hs (splitAt_ne_nil separator rest)
    | cons first others => simp [splitAt, hs]
  | cons c t ih =>
    have hc : c ≠ separator := fun hc => h (by simp [hc])
    rw [List.cons_append, splitAt, ih fun ht => h (List.mem_cons_of_mem _ ht)]
    simp [hc]

theorem splitAt_join {separator : α} {pieces : List (List α)} (hne : pieces ≠ [])
    (h : ∀ piece ∈ pieces, separator ∉ piece) :
    splitAt separator (join [separator] pieces) = pieces := by
  induction pieces with
  | nil => exact absurd rfl hne
  | cons t pieces ih =>
    cases pieces with
    | nil => exact splitAt_of_not_mem (h t List.mem_cons_self)
    | cons u rest =>
      have ht := ih (by simp) fun piece hp => h piece (List.mem_cons_of_mem _ hp)
      rw [join, List.append_assoc, List.singleton_append,
        splitAt_append_cons (h t List.mem_cons_self), ht]

end Text

namespace Path

/-- Bytes that can name a file or folder. -/
def IsName (t : Bytes) : Prop := t ≠ [] ∧ t ≠ [dot] ∧ t ≠ [dot, dot] ∧ slash ∉ t

instance (t : Bytes) : Decidable (IsName t) := inferInstanceAs (Decidable (_ ∧ _ ∧ _ ∧ _))

/-- A path that is spelled by the names from the root down. -/
def IsFolded (p : Path) : Prop := ∃ place : Place, (∀ name ∈ place, IsName name) ∧ p = ofPlace place

theorem isName_of_isVoid_eq_false {t : Bytes} (hvoid : isVoid t = false) (hparent : t ≠ [dot, dot])
    (hslash : slash ∉ t) : IsName t := by
  refine ⟨?_, ?_, hparent, hslash⟩ <;>
    · rintro rfl
      exact absurd hvoid (by decide)

theorem isAbsolute_of_isName {name : Bytes} (h : IsName name) : isAbsolute ⟨name⟩ = false :=
  decide_eq_false fun hhead => h.2.2.2 (List.mem_of_head? hhead)

theorem isVoid_of_isName {name : Bytes} (h : IsName name) : isVoid name = false := by
  simp [isVoid, h.1, h.2.1]

theorem Component.ofSegment?_of_isVoid {segment : Bytes} (h : isVoid segment = true) :
    ofSegment? segment = none := if_pos h

theorem Component.ofSegment?_of_isVoid_eq_false {t : Bytes} (hvoid : isVoid t = false)
    (hparent : t ≠ [dot, dot]) : ofSegment? t = some (name t) := by
  rw [ofSegment?, hvoid, if_neg Bool.false_ne_true, if_neg hparent]

theorem Component.ofSegment?_of_isName {t : Bytes} (h : IsName t) : ofSegment? t = some (name t) :=
  ofSegment?_of_isVoid_eq_false (isVoid_of_isName h) h.2.2.1

theorem eq_of_ofSegment? {t u : Bytes} (h : Component.ofSegment? t = some (.name u)) :
    t = u ∧ isVoid t = false ∧ t ≠ [dot, dot] := by
  unfold Component.ofSegment? at h
  split at h
  · cases h
  · next hvoid =>
    split at h
    · simp at h
    · next hparent => exact ⟨by simpa using h, by simpa using hvoid, hparent⟩

theorem isName_of_ofSegment? {t u : Bytes} (ht : slash ∉ t)
    (h : Component.ofSegment? t = some (.name u)) : IsName u := by
  obtain ⟨rfl, hvoid, hparent⟩ := eq_of_ofSegment? h
  exact isName_of_isVoid_eq_false hvoid hparent ht

theorem segments_ofPlace {place : Place} (h : ∀ name ∈ place, IsName name) (hne : place ≠ []) :
    (ofPlace place).segments = [] :: place := by
  have hsplit : (ofPlace place).segments = [] :: Text.splitAt slash (Text.join [slash] place) :=
    Text.splitAt_append_cons List.not_mem_nil _
  rw [hsplit, Text.splitAt_join hne fun name hname => (h name hname).2.2.2]

theorem components_ofPlace {place : Place} (h : ∀ name ∈ place, IsName name) :
    (ofPlace place).components = .root :: place.map .name := by
  by_cases hne : place = []
  · subst hne
    rfl
  · have hnames : place.filterMap Component.ofSegment? = place.map .name := by
      rw [← List.filterMap_eq_map]
      exact List.filterMap_congr fun name hname => Component.ofSegment?_of_isName (h name hname)
    rw [components, segments_ofPlace h hne]
    simp [hnames, isAbsolute, ofPlace]

/-- Folded paths have one spelling. -/
theorem IsFolded.eq_of_beq {p q : Path} (hp : IsFolded p) (hq : IsFolded q)
    (h : (p == q) = true) : p = q := by
  obtain ⟨place, hplace, rfl⟩ := hp
  obtain ⟨other, hother, rfl⟩ := hq
  have hc : (ofPlace place).components = (ofPlace other).components := beq_iff_eq.mp h
  rw [components_ofPlace hplace, components_ofPlace hother, List.cons.injEq] at hc
  have : place = other := List.map_injective_iff.mpr (fun a b h => by injection h) hc.2
  rw [this]

/-- A name in a path is a segment of it. -/
theorem exists_segment_of_mem_components {p : Path} {t : Bytes}
    (h : Component.name t ∈ p.components) :
    ∃ s ∈ p.segments, Component.ofSegment? s = some (.name t) := by
  unfold components at h
  split at h
  · simp at h
  · next first rest hs =>
    rw [hs]
    rcases List.mem_append.mp h with h | h
    · split at h
      · simp at h
      · split at h
        · simp at h
        · exact ⟨first, List.mem_cons_self, by simpa using h⟩
    · obtain ⟨s, hs, hname⟩ := List.mem_filterMap.mp h
      exact ⟨s, List.mem_cons_of_mem _ hs, hname⟩

theorem isName_of_mem_components {p : Path} {t : Bytes} (h : Component.name t ∈ p.components) :
    IsName t := by
  obtain ⟨s, hs, hname⟩ := exists_segment_of_mem_components h
  exact isName_of_ofSegment? (Text.not_mem_of_mem_splitAt hs) hname

/-- The names of a place to which steps lead are those of its start and of the steps. -/
theorem forall_mem_foldl_foldStep {P : Bytes → Prop} {components : List Component} {start : Place}
    (hs : ∀ name ∈ start, P name) (hc : ∀ t, Component.name t ∈ components → P t) :
    ∀ name ∈ components.foldl foldStep start, P name := by
  induction components generalizing start with
  | nil => exact hs
  | cons c components ih =>
    refine ih ?_ fun t ht => hc t (List.mem_cons_of_mem _ ht)
    intro name hname
    cases c with
    | root => simp [foldStep] at hname
    | current => exact hs name hname
    | parent => exact hs name (List.dropLast_subset _ hname)
    | name t =>
      rcases List.mem_append.mp hname with hname | hname
      · exact hs name hname
      · rw [List.mem_singleton.mp hname]
        exact hc t List.mem_cons_self

theorem normalize_isFolded (home : Place) (p : Path) : IsFolded (normalize home p) :=
  ⟨place home p, forall_mem_foldl_foldStep (by simp) fun _ ht => isName_of_mem_components ht, rfl⟩

end Path

namespace Disk

open TypeInliner.Path

variable {d : Disk} {follow : Bool}

theorem IsPlain.isName {segment : Bytes} (h : IsPlain segment) (hslash : slash ∉ segment) :
    IsName segment :=
  isName_of_isVoid_eq_false h.notVoid h.notParent hslash

/-- A walk leads to a place that is spelled by names. -/
theorem Walks.isName {links : Nat} {place found : Place} {segments : List Bytes}
    (h : Walks d follow links place segments (.found found))
    (hplace : ∀ name ∈ place, IsName name) (hsegments : ∀ s ∈ segments, slash ∉ s) :
    ∀ name ∈ found, IsName name := by
  generalize ha : Arrival.found found = a at h
  have hlonger {place : Place} {segment : Bytes} (hplace : ∀ name ∈ place, IsName name)
      (plain : IsPlain segment) (hslash : slash ∉ segment) :
      ∀ name ∈ place ++ [segment], IsName name :=
    List.forall_mem_append.mpr ⟨hplace, List.forall_mem_singleton.mpr (plain.isName hslash)⟩
  induction h with
  | done => cases ha; exact hplace
  | vacant => cases ha
  | atLink _ plain =>
    cases ha
    exact hlonger hplace plain (hsegments _ List.mem_cons_self)
  | void _ _ _ ih => exact ih hplace (List.forall_mem_cons.mp hsegments).2 ha
  | up _ _ ih =>
    exact ih (fun name hname => hplace name (List.dropLast_subset _ hname))
      (List.forall_mem_cons.mp hsegments).2 ha
  | through _ _ _ _ _ ih =>
    refine ih ?_ ?_ ha
    · split
      · simp
      · exact hplace
    · exact List.forall_mem_append.mpr
        ⟨fun s hs => Text.not_mem_of_mem_splitAt hs, (List.forall_mem_cons.mp hsegments).2⟩
  | down _ plain _ _ _ ih =>
    exact ih (hlonger hplace plain (hsegments _ List.mem_cons_self))
      (List.forall_mem_cons.mp hsegments).2 ha

private theorem find_isName {p : Path} {found : Place} (hp : p.isAbsolute = true)
    (h : d.find p = .ok found) : ∀ name ∈ found, IsName name := by
  have hwalks := (arrive_eq_ok_iff.mp (find_eq_ok_iff.mp h)).2
  refine hwalks.isName ?_ fun s hs => Text.not_mem_of_mem_splitAt hs
  rw [startOf, if_pos hp]
  simp

theorem canonicalize_isFolded (d : Disk) (p : Path) : IsFolded (d.canonicalize p) := by
  have hn := normalize_isFolded d.home p
  have habsolute : (Path.normalize d.home p).isAbsolute = true := rfl
  simp only [canonicalize, realPath]
  cases hf : d.find (Path.normalize d.home p) with
  | error fault => exact hn
  | ok found => exact ⟨found, find_isName habsolute hf, rfl⟩

/-- Every file that is located has a folded path. -/
theorem locate_isFolded (d : Disk) (p : Path) : IsFolded (d.locate p) := by
  simp only [locate]
  split
  · exact canonicalize_isFolded d _
  · split
    · exact canonicalize_isFolded d _
    · exact normalize_isFolded d.home p

end Disk

end TypeInliner

import Mathlib.Data.List.DropRight
import TypeInliner.Proofs.PathIdentity

/-! # Following paths

A path leads from a folder to a place, name by name and without a look at any file. To follow a
joined path is to follow its parts one after another, so paths may be folded before they are joined
or afterwards, and as often as one likes. -/

namespace TypeInliner

theorem Text.splitAt_append {α : Type} [DecidableEq α] (separator : α) (s t : List α) :
    splitAt separator (s ++ separator :: t) = splitAt separator s ++ splitAt separator t := by
  induction s with
  | nil => exact splitAt_append_cons List.not_mem_nil t
  | cons c s ih =>
    obtain ⟨piece, pieces, hpieces⟩ := List.exists_cons_of_ne_nil (splitAt_ne_nil separator s)
    rw [List.cons_append, splitAt, ih, splitAt, hpieces]
    simp only [List.cons_append]
    split <;> rfl

theorem Text.join_concat {α : Type} (separator : List α) {front : List (List α)}
    (hfront : front ≠ []) (t : List α) :
    join separator (front ++ [t]) = join separator front ++ separator ++ t := by
  induction front with
  | nil => exact absurd rfl hfront
  | cons first others ih =>
    cases others with
    | nil => simp [join]
    | cons second others =>
      have := ih (by simp)
      simp only [List.cons_append, join] at this ⊢
      simp only [this, List.append_assoc]

namespace Path

/-- The place to which a path leads from a folder. -/
def follow (folder : Place) (p : Path) : Place := p.components.foldl foldStep folder

theorem segments_of_isAbsolute {p : Path} (h : p.isAbsolute = true) :
    ∃ rest, p.segments = [] :: rest := by
  obtain ⟨bytes⟩ := p
  cases bytes with
  | nil => simp [isAbsolute] at h
  | cons c bytes =>
    obtain rfl : c = slash := by simpa [isAbsolute] using h
    exact ⟨_, Text.splitAt_append slash [] bytes⟩

/-- The steps of a path, without those that lead nowhere. -/
def steps (p : Path) : List Component := p.segments.filterMap Component.ofSegment?

/-- Only the steps of a path matter to where it leads, and whether it starts at the root. -/
theorem follow_eq_foldl (folder : Place) (p : Path) :
    p.follow folder = p.steps.foldl foldStep (if p.isAbsolute then [] else folder) := by
  unfold follow components steps
  cases h : p.isAbsolute with
  | true =>
    obtain ⟨rest, hrest⟩ := segments_of_isAbsolute h
    rw [hrest]
    rfl
  | false =>
    obtain ⟨first, rest, hrest⟩ := List.exists_cons_of_ne_nil (Text.splitAt_ne_nil slash p.bytes)
    rw [segments, hrest]
    by_cases hfirst : first = [dot]
    · subst hfirst
      rfl
    · simp only [Bool.false_eq_true, if_false, hfirst, List.filterMap_cons]
      cases Component.ofSegment? first <;> rfl

theorem isAbsolute_join {base p : Path} (h : p.isAbsolute = false) :
    (base.join p).isAbsolute = base.isAbsolute := by
  obtain ⟨text⟩ := base
  rw [join, if_neg (by simp [h])]
  cases text with
  | nil =>
    rw [if_pos (Or.inl rfl)]
    exact h
  | cons c text => split <;> rfl

/-- The steps of a joined path are those of its parts. -/
theorem steps_join {base p : Path} (h : p.isAbsolute = false) :
    (base.join p).steps = base.steps ++ p.steps := by
  obtain ⟨text⟩ := base
  have hslash (front : Bytes) :
      steps ⟨front ++ slash :: p.bytes⟩ = steps ⟨front⟩ ++ p.steps := by
    rw [steps, segments, Text.splitAt_append, List.filterMap_append]
    rfl
  rw [join, if_neg (by simp [h])]
  split
  · next hend =>
    rcases hend with rfl | hlast
    · rfl
    · obtain ⟨front, rfl⟩ := List.getLast?_eq_some_iff.mp hlast
      have hfront : steps ⟨front ++ [slash]⟩ = steps ⟨front⟩ := by
        rw [steps, segments, Text.splitAt_append, List.filterMap_append]
        exact List.append_nil _
      rw [hfront, List.append_assoc]
      exact hslash front
  · exact hslash text

/-- A joined path is followed part by part. -/
theorem follow_join (folder : Place) (base p : Path) :
    (base.join p).follow folder = p.follow (base.follow folder) := by
  cases h : p.isAbsolute with
  | true =>
    rw [join, if_pos h, follow_eq_foldl, follow_eq_foldl _ p, if_pos h, if_pos h]
  | false =>
    rw [follow_eq_foldl, isAbsolute_join h, steps_join h, List.foldl_append,
      ← follow_eq_foldl folder base, follow_eq_foldl _ p, h, if_neg Bool.false_ne_true]

theorem follow_ofPlace {place : Place} (h : ∀ name ∈ place, IsName name) (folder : Place) :
    (ofPlace place).follow folder = place := by
  have hnames (start names : Place) :
      (names.map Component.name).foldl foldStep start = start ++ names := by
    induction names generalizing start with
    | nil => exact (List.append_nil start).symm
    | cons name names ih =>
      rw [List.map_cons, List.foldl_cons, ih, foldStep, List.append_assoc]
      rfl
  rw [follow, components_ofPlace h, List.foldl_cons, foldStep, hnames, List.nil_append]

theorem follow_isName {folder : Place} (h : ∀ n ∈ folder, IsName n) (p : Path) :
    ∀ n ∈ p.follow folder, IsName n :=
  forall_mem_foldl_foldStep h fun _ ht => isName_of_mem_components ht

/-- To fold a path is to follow it from where the current folder leads. -/
theorem normalize_eq (home : Place) (p : Path) :
    normalize home p = ofPlace (p.follow ((ofPlace home).follow [])) := by
  rw [normalize, place, ← follow, follow_join]

theorem IsFolded.normalize_eq {home : Place} {p : Path} (h : p.IsFolded) :
    normalize home p = p := by
  obtain ⟨place, hplace, rfl⟩ := h
  rw [Path.normalize_eq, follow_ofPlace hplace]

/-- Folded paths are absolute and have neither `.` nor `..`. -/
theorem IsFolded.components {p : Path} (h : p.IsFolded) :
    p.isAbsolute = true ∧ ∀ c ∈ p.components, c ≠ .current ∧ c ≠ .parent := by
  obtain ⟨place, hplace, rfl⟩ := h
  refine ⟨rfl, ?_⟩
  rw [components_ofPlace hplace]
  simp +contextual [eq_comm]

theorem dropVoidEnd_eq_self {names : List Bytes} (h : ∀ name ∈ names, IsName name) :
    dropVoidEnd names = names := by
  unfold dropVoidEnd
  cases hreverse : names.reverse with
  | nil => rw [List.dropWhile_nil, ← hreverse, List.reverse_reverse]
  | cons last before =>
    have hlast : last ∈ names := List.mem_reverse.mp (hreverse ▸ List.mem_cons_self)
    rw [List.dropWhile_cons_of_neg (by simp [isVoid_of_isName (h last hlast)]), ← hreverse,
      List.reverse_reverse]

/-- The parent of a path that is spelled by the names from the root down. -/
theorem parent?_ofPlace {folder : Place} {name : Bytes}
    (h : ∀ n ∈ folder ++ [name], IsName n) :
    (ofPlace (folder ++ [name])).parent? = some (ofPlace folder) := by
  have hfolder : ∀ n ∈ folder, IsName n := fun n hn => h n (List.mem_append_left _ hn)
  have hparent : parentSegments? (folder ++ [name]) = some folder := by
    rw [parentSegments?, dropVoidEnd_eq_self h, List.reverse_append, List.reverse_singleton,
      List.singleton_append]
    simp only [List.reverse_reverse, dropVoidEnd_eq_self hfolder]
  rw [parent?, segments_ofPlace h (by simp)]
  exact congrArg (Option.map _) hparent

/-- A joined path means the place to which its second part leads from that of the first. -/
theorem place_join (home : Place) (base p : Path) :
    place home (base.join p) = p.follow (place home base) := by
  rw [place, place, ← follow, ← follow, follow_join, follow_join, follow_join]

theorem place_ofPlace {place : Place} (h : ∀ name ∈ place, IsName name) (home : Place) :
    Path.place home (ofPlace place) = place := by
  rw [Path.place, ← follow, follow_join, follow_ofPlace h]

/-- A path means one place before it is folded and afterwards. -/
theorem place_normalize (home : Place) (p : Path) :
    place home (normalize home p) = place home p :=
  place_ofPlace (follow_isName (List.forall_mem_nil IsName) ((ofPlace home).join p)) home

/-- A path may be folded before another one is joined to it. -/
theorem normalize_join (home : Place) (base p : Path) :
    normalize home (base.join p) = normalize home ((normalize home base).join p) := by
  rw [normalize, normalize, place_join, place_join, place_normalize]

/-- Of paths that are joined one after another, each may be folded in between. -/
theorem normalize_foldl_join (home : Place) (base : Path) (parts : List Path) :
    normalize home (parts.foldl join base) =
      parts.foldl (fun folded p => normalize home (folded.join p)) (normalize home base) := by
  induction parts generalizing base with
  | nil => rfl
  | cons p parts ih => rw [List.foldl_cons, List.foldl_cons, ih, normalize_join]

/-- The path that leads up a number of times. -/
def climb : Nat → Path
  | 0 => ⟨[]⟩
  | n + 1 => (climb n).join ⟨[dot, dot]⟩

/-- Each step up takes one name away, as long as there are any. -/
theorem follow_climb (folder : Place) (n : Nat) : (climb n).follow folder = folder.rdrop n := by
  induction n with
  | zero => exact (List.rdrop_zero folder).symm
  | succ n ih =>
    have hup (place : Place) : follow place ⟨[dot, dot]⟩ = place.dropLast := rfl
    rw [climb, follow_join, ih, hup, List.dropLast_eq_take, List.rdrop, List.rdrop, List.take_take,
      List.length_take]
    congr 1
    omega

/-- A folded path is absolute and has neither `.` nor `..`, and to fold it again changes nothing.
Paths may be folded before or after they are joined: the place that is meant is where the second one
leads from the place of the first. Each step up takes one name away, and none leads out of the root.
Of a row of paths, each may be folded in between. -/
theorem folding_respects_joining (home : Place) (a b : Path) :
    ((normalize home a).isAbsolute = true ∧
        ∀ c ∈ (normalize home a).components, c ≠ .current ∧ c ≠ .parent) ∧
      normalize home (normalize home a) = normalize home a ∧
      normalize home (a.join b) = normalize home ((normalize home a).join b) ∧
      normalize home (a.join b) = ofPlace (b.follow (place home a)) ∧
      (∀ n, normalize home (a.join (climb n)) = ofPlace ((place home a).rdrop n)) ∧
      ∀ parts : List Path, normalize home (parts.foldl join a) =
        parts.foldl (fun folded p => normalize home (folded.join p)) (normalize home a) := by
  have hfolded : (normalize home a).IsFolded := normalize_isFolded home a
  have hfollow (p : Path) : normalize home (a.join p) = ofPlace (p.follow (place home a)) := by
    rw [normalize, place_join]
  refine ⟨hfolded.components, hfolded.normalize_eq, normalize_join home a b, hfollow b,
    fun n => ?_, normalize_foldl_join home a⟩
  rw [hfollow, follow_climb]

example :
    (normalize (.ofNames ["w"]) ((ofString "src/./a").join (ofString "../../../../etc"))).text =
      "/etc".toList := by
  decide

end Path

end TypeInliner

import TypeInliner.Proofs.DeclarationEnds
import TypeInliner.Proofs.MemberPositions

/-! # What the description of a declaration shows

The description is made of the types of the members of objects and of base types. Every identifier
of the parts of a declaration stands in one of these types, unless it stands in front of the colon
of a member, or in a line that is taken for another member. -/

namespace TypeInliner

namespace SourceFile

open Occurrence

/-! ## Splitting -/

/-- Parts of some occurrences in their order: the first one is where they begin. -/
def CutsFrom (os : List Occurrence) (parts : List (List Occurrence)) : Prop :=
  ∃ first others, parts = first :: others ∧ first <+: os ∧ ∀ part ∈ others, part <:+: os

theorem CutsFrom.nil : CutsFrom [] [[]] := ⟨[], [], rfl, List.prefix_rfl, by simp⟩

theorem CutsFrom.isInfix {os : List Occurrence} {parts : List (List Occurrence)}
    (h : CutsFrom os parts) : ∀ part ∈ parts, part <:+: os := by
  obtain ⟨first, others, rfl, hfirst, hothers⟩ := h
  intro part hpart
  rcases List.mem_cons.mp hpart with rfl | hpart
  · exact hfirst.isInfix
  · exact hothers part hpart

/-- A new part begins behind an occurrence. -/
theorem CutsFrom.skip {os : List Occurrence} {parts : List (List Occurrence)} (o : Occurrence)
    (h : CutsFrom os parts) : CutsFrom (o :: os) ([] :: parts) :=
  ⟨[], parts, rfl, List.nil_prefix,
    fun part hpart => (h.isInfix part hpart).trans (List.suffix_cons o os).isInfix⟩

/-- An occurrence joins the first part. -/
theorem CutsFrom.join {os : List Occurrence} {parts : List (List Occurrence)} (o : Occurrence)
    (h : CutsFrom os parts) : CutsFrom (o :: os) (consFirst o parts) := by
  obtain ⟨first, others, rfl, hfirst, hothers⟩ := h
  exact ⟨o :: first, others, rfl, List.cons_prefix_cons.mpr ⟨rfl, hfirst⟩,
    fun part hpart => (hothers part hpart).trans (List.suffix_cons o os).isInfix⟩

/-- An occurrence opens a part of its own. -/
theorem CutsFrom.begin {os : List Occurrence} {parts : List (List Occurrence)} (o : Occurrence)
    (h : CutsFrom os parts) : CutsFrom (o :: os) ([] :: consFirst o parts) :=
  ⟨[], _, rfl, List.nil_prefix, (h.join o).isInfix⟩

theorem mem_flatten_consFirst {o u : Occurrence} {parts : List (List Occurrence)} :
    u ∈ (consFirst o parts).flatten ↔ u = o ∨ u ∈ parts.flatten := by
  cases parts <;> simp [consFirst]

theorem splitTop_cutsFrom (isSeparator : Kind → Bool) (depth : Nat) (os : List Occurrence) :
    CutsFrom os (splitTop isSeparator depth os) := by
  induction os generalizing depth with
  | nil => exact .nil
  | cons o os ih =>
    rw [splitTop]
    split
    · exact (ih 0).skip o
    · exact (ih _).join o

/-- Everything but separators stands in a part. -/
theorem mem_splitTop (isSeparator : Kind → Bool) (depth : Nat) {os : List Occurrence}
    {o : Occurrence} (ho : o ∈ os) (hkind : isSeparator o.kind = false) :
    ∃ part ∈ splitTop isSeparator depth os, o ∈ part := by
  rw [← List.mem_flatten]
  induction os generalizing depth with
  | nil => simp at ho
  | cons u os ih =>
    rw [splitTop]
    split
    · next hseparates =>
      rcases List.mem_cons.mp ho with rfl | ho
      · simp [hkind] at hseparates
      · simpa using ih _ ho
    · rw [mem_flatten_consFirst]
      exact (List.mem_cons.mp ho).imp_right (ih _)

theorem memberGroups_cutsFrom (before : Option Kind) (seenColon : Bool) (depth : Nat)
    (os : List Occurrence) : CutsFrom os (memberGroups before seenColon depth os) := by
  induction os generalizing before seenColon depth with
  | nil => exact .nil
  | cons o os ih =>
    rw [memberGroups]
    split
    · exact (ih none false 0).skip o
    split
    · exact (ih _ _ _).begin o
    · exact (ih _ _ _).join o

theorem splitColon?_split {depth : Nat} {os name type : List Occurrence}
    (h : splitColon? depth os = some (name, type)) :
    ∃ colon, os = name ++ colon :: type ∧ colon.kind = .colon := by
  induction os generalizing depth name with
  | nil => simp [splitColon?] at h
  | cons o os ih =>
    rw [splitColon?] at h
    split at h
    · next hcolon =>
      simp only [Option.some.injEq, Prod.mk.injEq] at h
      obtain ⟨rfl, rfl⟩ := h
      exact ⟨o, rfl, hcolon.2⟩
    · simp only [Option.map_eq_some_iff, Prod.mk.injEq, Prod.exists] at h
      obtain ⟨name', type', hinner, rfl, rfl⟩ := h
      obtain ⟨colon, rfl, hcolon⟩ := ih hinner
      exact ⟨colon, rfl, hcolon⟩

/-! ## Objects of an alias -/

variable {front : List Occurrence} {o : Occurrence}

/-- The members of a union or intersection. -/
def constituents (type : List Occurrence) : List (List Occurrence) :=
  splitTop (fun kind => kind = .bar || kind = .ampersand) 0 type

/-- What stands behind an opening bracket is closed by a bracket, and not before. -/
def IsClosedBy (inside : List Occurrence) (closing : Occurrence) : Prop :=
  (∀ front, front <+: inside → Site.openBehind 1 front ≠ 0) ∧
    Site.openBehind 1 (inside ++ [closing]) = 0

/-- What a union or intersection is made of stands between bars and ampersands. -/
def Separates (o : Occurrence) : Prop := o.kind = .bar ∨ o.kind = .ampersand

theorem depthBehind_of_separates (hdepth : depthBehind front = 0) (h : Separates o) :
    depthBehind (front ++ [o]) = 0 := by
  rw [depthBehind_concat, hdepth]
  rcases h with hkind | hkind <;> rw [hkind] <;> rfl

/-- A part of some occurrences that is separated from the rest outside of brackets. -/
def IsConstituent (type part : List Occurrence) : Prop :=
  ∃ before after, type = before ++ part ++ after ∧ depthBehind before = 0 ∧
    (∀ o ∈ before.getLast?, Separates o) ∧ ∀ o ∈ after.head?, Separates o

/-- The first part of what remains, and the parts behind it. -/
theorem exists_splitTop (front rest : List Occurrence) : ∃ first others,
    splitTop (fun kind => kind = .bar || kind = .ampersand) (depthBehind front) rest =
        first :: others ∧
      (∃ after, rest = first ++ after ∧ ∀ o ∈ after.head?, Separates o) ∧
      ∀ part ∈ others, ∃ before after, rest = before ++ part ++ after ∧
        depthBehind (front ++ before) = 0 ∧ (∃ o, before.getLast? = some o ∧ Separates o) ∧
          ∀ o ∈ after.head?, Separates o := by
  induction rest generalizing front with
  | nil => exact ⟨[], [], rfl, ⟨[], rfl, by simp⟩, by simp⟩
  | cons o rest ih =>
    obtain ⟨first, others, hparts, ⟨after, hrest, hafter⟩, hothers⟩ := ih (front ++ [o])
    rw [depthBehind_concat] at hparts
    have hlater : ∀ part ∈ others, ∃ before after, o :: rest = before ++ part ++ after ∧
        depthBehind (front ++ before) = 0 ∧ (∃ o, before.getLast? = some o ∧ Separates o) ∧
          ∀ o ∈ after.head?, Separates o := by
      intro part hpart
      obtain ⟨before, after, rfl, hdepth, ⟨last, hlast, hseparates⟩, hhead⟩ := hothers part hpart
      refine ⟨o :: before, after, by simp, by simpa using hdepth, ⟨last, ?_, hseparates⟩, hhead⟩
      rw [List.getLast?_cons, hlast]
      rfl
    rw [splitTop]
    by_cases hseparates : depthBehind front = 0 ∧ Separates o
    · have hnext := depthBehind_of_separates hseparates.1 hseparates.2
      rw [depthBehind_concat] at hnext
      rw [hnext] at hparts
      rw [if_pos (by simpa [Separates] using hseparates), hparts]
      refine ⟨[], first :: others, rfl, ⟨o :: rest, rfl, by simpa using hseparates.2⟩, ?_⟩
      refine List.forall_mem_cons.mpr ⟨⟨[o], after, by simp [hrest], ?_, ⟨o, rfl, hseparates.2⟩,
        hafter⟩, hlater⟩
      rw [depthBehind_concat, hnext]
    · rw [if_neg (by simpa [Separates] using hseparates), hparts]
      exact ⟨o :: first, others, rfl, ⟨after, by simp [hrest], hafter⟩, hlater⟩

theorem isConstituent_of_mem {type part : List Occurrence} (h : part ∈ constituents type) :
    IsConstituent type part := by
  obtain ⟨first, others, hparts, ⟨after, hfirst, hafter⟩, hothers⟩ := exists_splitTop [] type
  have hmem : part ∈ first :: others := hparts ▸ h
  rcases List.mem_cons.mp hmem with rfl | hmem
  · exact ⟨[], after, by simpa using hfirst, rfl, by simp, hafter⟩
  · obtain ⟨before, after, htype, hdepth, ⟨last, hlast, hseparates⟩, hhead⟩ := hothers part hmem
    exact ⟨before, after, htype, by simpa using hdepth, by simpa [hlast] using hseparates, hhead⟩

theorem isClosing_of_nesting {depth : Nat} {kind : Kind} (hdepth : depth ≠ 0)
    (h : nesting false depth kind = 0) : Site.isClosing kind = true := by
  cases kind <;> simp [nesting] at h <;> first | rfl | omega

theorem IsClosedBy.isClosing {inside : List Occurrence} {closing : Occurrence}
    (h : IsClosedBy inside closing) : Site.isClosing closing.kind = true := by
  refine isClosing_of_nesting (h.1 inside List.prefix_rfl) ?_
  rw [← h.2]
  simp [Site.openBehind]

theorem closesAtEnd_closed {depth : Nat} {os : List Occurrence} (hdepth : depth ≠ 0)
    (h : closesAtEnd depth os = true) : ∃ inside closing, os = inside ++ [closing] ∧
      (∀ front, front <+: inside → Site.openBehind depth front ≠ 0) ∧
        Site.openBehind depth (inside ++ [closing]) = 0 := by
  induction os generalizing depth with
  | nil => simp [closesAtEnd] at h
  | cons o os ih =>
    rw [closesAtEnd] at h
    split at h
    · next hclosed =>
      obtain rfl := List.isEmpty_iff.mp h
      refine ⟨[], o, rfl, fun front hfront => ?_, hclosed⟩
      rw [List.prefix_nil.mp hfront]
      exact hdepth
    · next hopen =>
      obtain ⟨inside, closing, rfl, hinside, hclosed⟩ := ih hopen h
      refine ⟨o :: inside, closing, rfl, fun front hfront => ?_, hclosed⟩
      cases front with
      | nil => exact hdepth
      | cons u front =>
        obtain ⟨rfl, hinner⟩ := List.cons_prefix_cons.mp hfront
        exact hinside front hinner

/-- An object stands between a brace and what closes it. -/
theorem objectMembers?_closed {os members : List Occurrence}
    (h : objectMembers? os = some members) : ∃ opening closing,
      os = opening :: (members ++ [closing]) ∧ opening.kind = .leftBrace ∧
        IsClosedBy members closing := by
  cases os with
  | nil => simp [objectMembers?] at h
  | cons o rest =>
    rw [objectMembers?] at h
    split at h
    · next hbraces =>
      simp only [Bool.and_eq_true, decide_eq_true_eq] at hbraces
      obtain rfl := Option.some.inj h
      obtain ⟨inside, closing, rfl, hclosed⟩ := closesAtEnd_closed Nat.one_ne_zero hbraces.2
      rw [List.dropLast_concat]
      exact ⟨o, closing, rfl, hbraces.1, hclosed⟩
    · simp at h

/-! ## Described types -/

/-- The types that the description of a declaration shows. -/
def describedTypes : SiteBody → List (List Occurrence)
  | .alias type => (constituents type).flatMap fun constituent =>
      ((objectMembers? constituent).map memberTypes).getD [constituent]
  | .interface bases members => memberTypes members ++ splitTop (· = .comma) 0 bases

theorem infix_memberType? {group type : List Occurrence} (h : memberType? group = some type) :
    type <:+: group := by
  unfold memberType? at h
  split at h
  · next o name type' hsplit =>
    obtain rfl := Option.some.inj h
    obtain ⟨colon, rfl, _⟩ := splitColon?_split hsplit
    exact ⟨o :: name ++ [colon], [], by simp⟩
  · simp at h

theorem infix_memberTypes {members type : List Occurrence} (h : type ∈ memberTypes members) :
    type <:+: members := by
  obtain ⟨group, hgroup, htype⟩ := List.mem_filterMap.mp h
  exact (infix_memberType? htype).trans
    ((memberGroups_cutsFrom none false 0 members).isInfix group hgroup)

/-- Described types are cut out of the parts of a declaration. -/
theorem infix_describedTypes {body : SiteBody} {type : List Occurrence}
    (h : type ∈ describedTypes body) : ∃ part ∈ body.parts, type <:+: part := by
  match body, h with
  | .alias whole, h =>
    refine ⟨whole, List.mem_singleton.mpr rfl, ?_⟩
    obtain ⟨constituent, hconstituent, hmem⟩ := List.mem_flatMap.mp h
    refine List.IsInfix.trans ?_ ((splitTop_cutsFrom _ 0 whole).isInfix constituent hconstituent)
    cases hobject : objectMembers? constituent with
    | none =>
      rw [hobject] at hmem
      rw [List.mem_singleton.mp hmem]
    | some members =>
      rw [hobject] at hmem
      obtain ⟨opening, closing, rfl, _⟩ := objectMembers?_closed hobject
      exact (infix_memberTypes hmem).trans ⟨[opening], [closing], by simp⟩
  | .interface bases members, h =>
    rcases List.mem_append.mp h with hmem | hmem
    · exact ⟨members, by simp [SiteBody.parts], infix_memberTypes hmem⟩
    · exact ⟨bases, by simp [SiteBody.parts], (splitTop_cutsFrom _ 0 bases).isInfix type hmem⟩

/-- The identifiers of an object type stand between its braces. -/
theorem mem_objectMembers {constituent members : List Occurrence}
    (h : objectMembers? constituent = some members) (ho : o ∈ constituent)
    (hkind : o.kind = .identifier) : o ∈ members := by
  obtain ⟨opening, closing, rfl, hopening, hcloses⟩ := objectMembers?_closed h
  rcases List.mem_cons.mp ho with rfl | ho
  · simp [hkind] at hopening
  rcases List.mem_append.mp ho with ho | ho
  · exact ho
  · have hclosing := hcloses.isClosing
    rw [← List.mem_singleton.mp ho, hkind] at hclosing
    exact absurd hclosing (by decide)

/-- Members stand between the braces of an interface, or of an object that a union or intersection
is made of. -/
inductive Encloses : SiteBody → List Occurrence → Prop
  | interface (bases members : List Occurrence) : Encloses (.interface bases members) members
  | object {type members : List Occurrence} {opening closing : Occurrence}
      (constituent : IsConstituent type (opening :: (members ++ [closing])))
      (opens : opening.kind = .leftBrace) (closes : IsClosedBy members closing) :
      Encloses (.alias type) members

/-- An occurrence stands in a member, but not in its type: in what is in front of the first colon,
or in a member without a colon behind a name. -/
def IsInHead (body : SiteBody) (o : Occurrence) : Prop :=
  ∃ members i, Encloses body members ∧ members[i]? = some o ∧ ¬ InMemberType members i

/-- An occurrence stands in the type of a member, in a line that is taken for another member. -/
def IsInBrokenType (body : SiteBody) (o : Occurrence) : Prop :=
  ∃ members i, Encloses body members ∧ members[i]? = some o ∧ IsCutOff members i

theorem encloses_of_mem {type constituent members : List Occurrence}
    (h : constituent ∈ constituents type) (hobject : objectMembers? constituent = some members) :
    Encloses (.alias type) members := by
  obtain ⟨opening, closing, rfl, hopening, hcloses⟩ := objectMembers?_closed hobject
  exact .object (isConstituent_of_mem h) hopening hcloses

theorem mem_members {body : SiteBody} {members : List Occurrence} (h : Encloses body members)
    (ho : o ∈ members) (hkind : o.kind = .identifier) :
    IsInHead body o ∨ IsInBrokenType body o ∨ ∃ type ∈ memberTypes members, o ∈ type := by
  obtain ⟨i, hi⟩ := List.mem_iff_getElem?.mp ho
  by_cases hbroken : IsCutOff members i
  · exact Or.inr (Or.inl ⟨members, i, h, hi, hbroken⟩)
  by_cases htype : InMemberType members i
  · exact Or.inr (Or.inr (exists_memberType htype hbroken hi hkind))
  · exact Or.inl ⟨members, i, h, hi, htype⟩

/-- An identifier in a part of a declaration stands in the head of a member or in a broken type, or
else it stands in a described type. -/
theorem mem_part {body : SiteBody} {part : List Occurrence} (hpart : part ∈ body.parts)
    (ho : o ∈ part) (hkind : o.kind = .identifier) :
    IsInHead body o ∨ IsInBrokenType body o ∨ ∃ type ∈ describedTypes body, o ∈ type := by
  match body, hpart with
  | .alias whole, hpart =>
    obtain rfl := List.mem_singleton.mp hpart
    obtain ⟨constituent, hconstituent, hmem⟩ := mem_splitTop
      (fun kind => kind = .bar || kind = .ampersand) 0 ho (by simp [hkind])
    cases hobject : objectMembers? constituent with
    | none =>
      refine Or.inr (Or.inr ⟨constituent, List.mem_flatMap.mpr ⟨constituent, hconstituent, ?_⟩,
        hmem⟩)
      simp [hobject]
    | some members =>
      have henclosed := encloses_of_mem hconstituent hobject
      refine (mem_members henclosed (mem_objectMembers hobject hmem hkind) hkind).imp_right
        (Or.imp_right ?_)
      rintro ⟨type, htype, hmem⟩
      refine ⟨type, List.mem_flatMap.mpr ⟨constituent, hconstituent, ?_⟩, hmem⟩
      simpa [hobject] using htype
  | .interface bases members, hpart =>
    simp only [SiteBody.parts, List.mem_cons, List.not_mem_nil, or_false] at hpart
    rcases hpart with rfl | rfl
    · obtain ⟨type, htype, hmem⟩ := mem_splitTop (· = .comma) 0 ho (by simp [hkind])
      exact Or.inr (Or.inr ⟨type, List.mem_append_right _ htype, hmem⟩)
    · refine (mem_members (.interface bases part) ho hkind).imp_right (Or.imp_right ?_)
      rintro ⟨type, htype, hmem⟩
      exact ⟨type, List.mem_append_left _ htype, hmem⟩

theorem exists_property {f : SourceFile} {members type : List Occurrence}
    (h : type ∈ memberTypes members) :
    f.marked type ∈ (f.properties members).map Property.type := by
  obtain ⟨group, hgroup, htype⟩ := List.mem_filterMap.mp h
  unfold memberType? at htype
  split at htype
  · next o name type' hsplit =>
    obtain rfl := Option.some.inj htype
    have hproperty : f.property? group = some
        ⟨propertyName (Token.joined ((o :: name).map Occurrence.token)), f.marked type'⟩ := by
      rw [property?, hsplit]
    exact List.mem_map.mpr ⟨_, List.mem_filterMap.mpr ⟨group, hgroup, hproperty⟩, rfl⟩
  · simp at htype

/-- The description of a declaration shows the text of every described type, unless it is empty. -/
theorem marked_mem_shape {f : SourceFile} {body : SiteBody} {type : List Occurrence}
    (h : type ∈ describedTypes body) (hne : f.marked type ≠ []) :
    f.marked type ∈ (f.shape body).1.map Property.type ++ (f.shape body).2 := by
  match body, h with
  | .alias whole, h =>
    obtain ⟨constituent, hconstituent, hmem⟩ := List.mem_flatMap.mp h
    cases hobject : objectMembers? constituent with
    | none =>
      rw [hobject] at hmem
      obtain rfl := List.mem_singleton.mp hmem
      refine List.mem_append_right _ (List.mem_filterMap.mpr ⟨type, hconstituent, ?_⟩)
      simp only [hobject]
    | some members =>
      rw [hobject] at hmem
      refine List.mem_append_left _ ?_
      obtain ⟨property, hproperty, htype⟩ := List.mem_map.mp (exists_property (f := f) hmem)
      refine List.mem_map.mpr ⟨property, ?_, htype⟩
      refine List.mem_flatMap.mpr ⟨constituent, hconstituent, ?_⟩
      simpa [hobject] using hproperty
  | .interface bases members, h =>
    rcases List.mem_append.mp h with hmem | hmem
    · exact List.mem_append_left _ (exists_property hmem)
    · refine List.mem_append_right _ (List.mem_filter.mpr ⟨List.mem_map_of_mem hmem, ?_⟩)
      simpa using hne

end SourceFile

end TypeInliner

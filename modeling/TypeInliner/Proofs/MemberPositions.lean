import Mathlib.Data.List.Infix
import TypeInliner.SourceFile

/-! # Where the types of members stand

A position among the members of an object is outside of brackets or not, and with the token that
stands there this says where members begin and which colon is the one behind the name of a member.
What stands behind such a colon is found in the type of a property. The exception is a line that
begins behind a word like `keyof`: the type of the member goes on there, but the line is taken for
another member. -/

namespace TypeInliner

namespace Kind

/-- The kinds behind which the type of a member goes on in the next line. -/
def goesOn (kind : Kind) : Bool :=
  kind = .bar || kind = .ampersand || kind = .colon || kind = .arrow || kind = .question ||
    kind = .equals || kind = .less || kind = .dot

/-- The kinds of the tokens that the name of a member can begin with. -/
def beginsMember (kind : Kind) : Bool :=
  kind.isName || kind = .string || kind = .number || kind = .leftBracket

end Kind

namespace Occurrence

/-- The words, and the sign, behind which a type has to follow. -/
def typeOperators : List Text :=
  ["keyof".toList, "typeof".toList, "unique".toList, "readonly".toList, "infer".toList,
    "extends".toList, "is".toList, "abstract".toList, "new".toList, "-".toList]

def takesType (o : Occurrence) : Bool := typeOperators.contains o.token.text

/-- The number of brackets that are open behind occurrences, angle brackets counted. -/
def depthBehind (os : List Occurrence) : Nat := (os.map kind).foldl (nesting true) 0

/-- Whether a position is outside of brackets and what stands there has a property. -/
def outsideAt (os : List Occurrence) (i : Nat) (p : Occurrence → Bool) : Bool :=
  depthBehind (os.take i) = 0 && (os[i]?).any p

def isColonAt (os : List Occurrence) (i : Nat) : Bool := outsideAt os i (·.kind = .colon)

def isSeparatorAt (os : List Occurrence) (i : Nat) : Bool :=
  outsideAt os i fun o => o.kind = .semicolon || o.kind = .comma

/-- Whether a line begins at a position, with what the name of a member can begin with. -/
def beginsLineAt (os : List Occurrence) (i : Nat) : Bool :=
  outsideAt os i fun o => o.token.newline && o.kind.beginsMember

/-- Whether a member begins at a position: at the first one, behind a separator, or on a new line if
no type goes on there. -/
def beginsMemberAt (os : List Occurrence) : Nat → Bool
  | 0 => true
  | i + 1 => isSeparatorAt os i ||
      beginsLineAt os (i + 1) && (os[i]?).any fun o => !(o.kind.goesOn || o.takesType)

/-- Whether a line begins at a position within a type, behind a word that takes a type. -/
def breaksTypeAt (os : List Occurrence) : Nat → Bool
  | 0 => false
  | i + 1 => beginsLineAt os (i + 1) && (os[i]?).any takesType

/-- A position is in the type of a member: it stands behind the first colon of the member that
begins last in front of it, and this colon stands behind a name. -/
def InMemberType (os : List Occurrence) (i : Nat) : Prop :=
  ∃ first < i, beginsMemberAt os first = true ∧ isColonAt os first = false ∧
    (∃ colon < i, first < colon ∧ isColonAt os colon = true) ∧
    ∀ j ≤ i, first < j → beginsMemberAt os j = false

instance (os : List Occurrence) (i : Nat) : Decidable (InMemberType os i) :=
  inferInstanceAs (Decidable (∃ first < i, _))

/-- A position stands behind a line break within a type that follows a word that takes a type, and
no colon stands in between. -/
def IsCutOff (os : List Occurrence) (i : Nat) : Prop :=
  ∃ j ≤ i, breaksTypeAt os j = true ∧ ∀ colon < i, j ≤ colon → isColonAt os colon = false

instance (os : List Occurrence) (i : Nat) : Decidable (IsCutOff os i) :=
  inferInstanceAs (Decidable (∃ j ≤ i, _))

/-! ## Positions in parts of a list -/

variable {front rest : List Occurrence} {p : Occurrence → Bool} {i k : Nat}

theorem depthBehind_concat (front : List Occurrence) (o : Occurrence) :
    depthBehind (front ++ [o]) = nesting true (depthBehind front) o.kind := by
  simp [depthBehind]

theorem depthBehind_append (h : depthBehind front = 0) (rest : List Occurrence) :
    depthBehind (front ++ rest) = depthBehind rest := by
  rw [depthBehind, List.map_append, List.foldl_append]
  exact congrArg (fun depth => (rest.map kind).foldl (nesting true) depth) h

theorem outsideAt_append_left (h : i < front.length) :
    outsideAt (front ++ rest) i p = outsideAt front i p := by
  rw [outsideAt, List.take_append_of_le_length h.le, List.getElem?_append_left h, outsideAt]

theorem outsideAt_append_right (h : depthBehind front = 0) :
    outsideAt (front ++ rest) (front.length + k) p = outsideAt rest k p := by
  rw [outsideAt, List.take_length_add_append, depthBehind_append h,
    List.getElem?_append_right (Nat.le_add_right _ _), Nat.add_sub_cancel_left, outsideAt]

theorem outsideAt_length {o : Occurrence} :
    outsideAt (front ++ o :: rest) front.length p = (depthBehind front = 0 && p o) := by
  simp [outsideAt]

theorem getElem?_append_length (front rest : List Occurrence) (k : Nat) :
    (front ++ rest)[front.length + k]? = rest[k]? := by
  rw [List.getElem?_append_right (Nat.le_add_right _ _), Nat.add_sub_cancel_left]

theorem beginsMemberAt_append (h : depthBehind front = 0) (k : Nat) :
    beginsMemberAt (front ++ rest) (front.length + (k + 1)) = beginsMemberAt rest (k + 1) := by
  rw [← Nat.add_assoc, beginsMemberAt, beginsMemberAt, Nat.add_assoc]
  simp only [isSeparatorAt, beginsLineAt, outsideAt_append_right h, getElem?_append_length]

theorem breaksTypeAt_append (h : depthBehind front = 0) (k : Nat) :
    breaksTypeAt (front ++ rest) (front.length + (k + 1)) = breaksTypeAt rest (k + 1) := by
  rw [← Nat.add_assoc, breaksTypeAt, breaksTypeAt, Nat.add_assoc]
  simp only [beginsLineAt, outsideAt_append_right h, getElem?_append_length]

/-- A position in the type of a member stays one when what is in front is left out, up to where a
member begins, or up to any place from where a colon stands in front of the position. -/
theorem InMemberType.of_append (h : InMemberType (front ++ rest) (front.length + k))
    (hdepth : depthBehind front = 0)
    (hfront : beginsMemberAt (front ++ rest) front.length = true ∨
      isColonAt rest 0 = false ∧ ∃ colon < k, isColonAt rest colon = true) :
    InMemberType rest k := by
  obtain ⟨first, hfirst, hbegins, hnamed, ⟨colon, hcolon, hbehind, hat⟩, hlast⟩ := h
  have hnone : ∀ j ≤ k, 0 < j → first < front.length + j → beginsMemberAt rest j = false := by
    intro j hj hpos hlater
    obtain ⟨j, rfl⟩ := Nat.exists_eq_succ_of_ne_zero hpos.ne'
    rw [← beginsMemberAt_append hdepth]
    exact hlast _ (by omega) hlater
  by_cases hwithin : front.length ≤ first
  · obtain ⟨own, rfl⟩ := Nat.exists_eq_add_of_le hwithin
    obtain ⟨mark, rfl⟩ := Nat.exists_eq_add_of_le (hwithin.trans hbehind.le)
    simp only [isColonAt, outsideAt_append_right hdepth] at hnamed hat
    refine ⟨own, by omega, ?_, hnamed, ⟨mark, by omega, by omega, hat⟩, fun j hj hlater => ?_⟩
    · cases own with
      | zero => rfl
      | succ own => rw [← hbegins, beginsMemberAt_append hdepth]
    · exact hnone j hj (by omega) (by omega)
  · -- The member began in front, so it goes on here.
    have hstart : beginsMemberAt (front ++ rest) front.length = false :=
      hlast _ (by omega) (by omega)
    obtain ⟨hzero, mark, hmark, hcolon⟩ := hfront.resolve_left (by simp [hstart])
    have hpos : 0 < mark := by
      refine Nat.pos_of_ne_zero ?_
      rintro rfl
      simp [hzero] at hcolon
    refine ⟨0, by omega, rfl, hzero, ⟨mark, hmark, hpos, hcolon⟩, fun j hj hpos => ?_⟩
    exact hnone j hj hpos (by omega)

theorem IsCutOff.append (h : IsCutOff rest k) (hdepth : depthBehind front = 0) :
    IsCutOff (front ++ rest) (front.length + k) := by
  obtain ⟨j, hj, hbreaks, hnone⟩ := h
  refine ⟨front.length + j, by omega, ?_, fun colon hcolon hbehind => ?_⟩
  · cases j with
    | zero => simp [breaksTypeAt] at hbreaks
    | succ j => rw [breaksTypeAt_append hdepth, hbreaks]
  · obtain ⟨mark, rfl⟩ := Nat.exists_eq_add_of_le ((Nat.le_add_right _ j).trans hbehind)
    rw [isColonAt, outsideAt_append_right hdepth]
    exact hnone mark (by omega) (by omega)

end Occurrence

namespace SourceFile

open Occurrence

/-! ## Groups of members -/

variable {front rest group : List Occurrence} {o : Occurrence}

/-- Whether a colon stands outside of brackets. -/
def hasColon (os : List Occurrence) : Bool := (List.range os.length).any (isColonAt os)

theorem hasColon_iff : hasColon front = true ↔ ∃ i < front.length, isColonAt front i = true := by
  simp [hasColon]

theorem hasColon_concat (front : List Occurrence) (o : Occurrence) :
    hasColon (front ++ [o]) = (hasColon front || (depthBehind front = 0 && o.kind = .colon)) := by
  have hlast : isColonAt (front ++ [o]) front.length =
      (depthBehind front = 0 && o.kind = .colon) := outsideAt_length
  rw [← hlast, Bool.eq_iff_iff, Bool.or_eq_true, hasColon_iff, hasColon_iff]
  constructor
  · rintro ⟨i, hi, hcolon⟩
    rw [List.length_append, List.length_singleton] at hi
    rcases Nat.lt_succ_iff_lt_or_eq.mp hi with hi | rfl
    · exact Or.inl ⟨i, hi, (outsideAt_append_left hi).symm.trans hcolon⟩
    · exact Or.inr hcolon
  · rintro (⟨i, hi, hcolon⟩ | hcolon)
    · exact ⟨i, by simp; omega, (outsideAt_append_left hi).trans hcolon⟩
    · exact ⟨_, by simp, hcolon⟩

/-- Whether the group that has been read so far ends in front of a separator. -/
def endsBefore (front : List Occurrence) (o : Occurrence) : Bool :=
  depthBehind front = 0 ∧ (o.kind = .semicolon ∨ o.kind = .comma)

/-- Whether the group that has been read so far ends in front of a new line. -/
def breaksBefore (front : List Occurrence) (o : Occurrence) : Bool :=
  depthBehind front = 0 ∧ o.token.newline ∧ hasColon front ∧
    (front.getLast?.map kind).any (startsMember · o.kind)

/-- The groups of what remains behind the beginning of a group. -/
def groupsBehind (front rest : List Occurrence) : List (List Occurrence) :=
  memberGroups (front.getLast?.map kind) (hasColon front) (depthBehind front) rest

theorem startsMember_eq (before kind : Kind) :
    startsMember before kind = (!before.goesOn && kind.beginsMember) := rfl

theorem breaksBefore_iff : breaksBefore front o = true ↔ depthBehind front = 0 ∧
    o.token.newline = true ∧ o.kind.beginsMember = true ∧ hasColon front = true ∧
      ∃ last ∈ front.getLast?, last.kind.goesOn = false := by
  cases hlast : front.getLast? with
  | none => simp [breaksBefore, hlast]
  | some last =>
    simp only [breaksBefore, hlast, Option.map_some, Option.any_some, startsMember_eq,
      decide_eq_true_eq, Bool.and_eq_true, Bool.not_eq_true', Option.mem_def, Option.some.injEq,
      exists_eq_left']
    tauto

theorem groupsBehind_cons (front rest : List Occurrence) (o : Occurrence) :
    groupsBehind front (o :: rest) =
      if endsBefore front o then [] :: groupsBehind [] rest
      else if breaksBefore front o then [] :: groupsBehind [] (o :: rest)
      else consFirst o (groupsBehind (front ++ [o]) rest) := by
  have hnext : groupsBehind (front ++ [o]) rest = memberGroups (some o.kind)
      (hasColon front || (depthBehind front = 0 && o.kind = .colon))
      (nesting true (depthBehind front) o.kind) rest := by
    rw [groupsBehind, List.getLast?_concat, hasColon_concat, depthBehind_concat, Option.map_some]
  rw [hnext, groupsBehind, memberGroups]
  simp only [endsBefore, breaksBefore, decide_eq_true_eq]
  split
  · rfl
  split
  · next hends hbreaks =>
    -- A new group that begins with this occurrence takes it without a look at what is in front.
    have hbegins := (breaksBefore_iff.mp (decide_eq_true hbreaks)).2.2.1
    have hcolon : o.kind ≠ .colon := by
      rintro hkind
      simp [hkind, Kind.beginsMember, Kind.isName, Kind.isKeyword] at hbegins
    have hseparator : ¬ (o.kind = .semicolon ∨ o.kind = .comma) := fun h => hends ⟨hbreaks.1, h⟩
    have hanew : groupsBehind [] (o :: rest) =
        consFirst o (memberGroups (some o.kind) false (nesting true 0 o.kind) rest) := by
      simp [groupsBehind, memberGroups, depthBehind, hasColon, hseparator, hcolon]
    rw [hanew, hbreaks.1]
  · rfl

/-- The first group, and what stands behind it. -/
theorem exists_first_group (front rest : List Occurrence) :
    ∃ group others tail, groupsBehind front rest = group :: others ∧ rest = group ++ tail ∧
      (∀ before o after, group = before ++ o :: after →
        endsBefore (front ++ before) o = false ∧ breaksBefore (front ++ before) o = false) ∧
      (tail = [] ∨ ∃ o more, tail = o :: more ∧
        (endsBefore (front ++ group) o = true ∧ others = groupsBehind [] more ∨
          breaksBefore (front ++ group) o = true ∧ others = groupsBehind [] tail)) := by
  induction rest generalizing front with
  | nil => exact ⟨[], [], [], rfl, rfl, by simp, Or.inl rfl⟩
  | cons o rest ih =>
    rw [groupsBehind_cons]
    by_cases hends : endsBefore front o = true
    · rw [if_pos hends]
      refine ⟨[], _, o :: rest, rfl, rfl, by simp, Or.inr ⟨o, rest, rfl, Or.inl ⟨?_, rfl⟩⟩⟩
      rwa [List.append_nil]
    rw [if_neg hends]
    by_cases hbreaks : breaksBefore front o = true
    · rw [if_pos hbreaks]
      refine ⟨[], _, o :: rest, rfl, rfl, by simp, Or.inr ⟨o, rest, rfl, Or.inr ⟨?_, rfl⟩⟩⟩
      rwa [List.append_nil]
    rw [if_neg hbreaks]
    obtain ⟨group, others, tail, hgroups, rfl, hinside, htail⟩ := ih (front ++ [o])
    rw [hgroups]
    refine ⟨o :: group, others, tail, rfl, rfl, fun before u after hsplit => ?_, ?_⟩
    · cases before with
      | nil =>
        obtain ⟨rfl, -⟩ := List.cons.inj hsplit
        rw [List.append_nil]
        exact ⟨by simpa using hends, by simpa using hbreaks⟩
      | cons v before =>
        obtain ⟨rfl, hinner⟩ := List.cons.inj hsplit
        simpa using hinside before u after hinner
    · simpa using htail

/-- The first colon of a group that has one outside of brackets. -/
theorem exists_splitColon? (front : List Occurrence) {i : Nat}
    (h : isColonAt (front ++ rest) (front.length + i) = true) :
    ∃ name colon type, splitColon? (depthBehind front) rest = some (name, type) ∧
      rest = name ++ colon :: type ∧ name.length ≤ i ∧
        isColonAt (front ++ rest) (front.length + name.length) = true := by
  induction rest generalizing front i with
  | nil => simp [isColonAt, outsideAt] at h
  | cons o rest ih =>
    rw [splitColon?]
    by_cases hcolon : depthBehind front = 0 ∧ o.kind = .colon
    · rw [if_pos hcolon]
      refine ⟨[], o, rest, rfl, rfl, Nat.zero_le i, ?_⟩
      simp [isColonAt, outsideAt, hcolon]
    · rw [if_neg hcolon]
      cases i with
      | zero =>
        have hat : isColonAt (front ++ o :: rest) front.length = true := h
        rw [isColonAt, outsideAt_length] at hat
        exact absurd (by simpa using hat) hcolon
      | succ i =>
        have hnext : isColonAt ((front ++ [o]) ++ rest) ((front ++ [o]).length + i) = true := by
          rw [← h]
          congr 1
          · simp
          · simp; omega
        obtain ⟨name, colon, type, hsplit, rfl, hle, hat⟩ := ih (front ++ [o]) hnext
        rw [depthBehind_concat] at hsplit
        refine ⟨o :: name, colon, type, by rw [hsplit]; rfl, rfl, Nat.succ_le_succ hle, ?_⟩
        rw [← hat]
        congr 1
        · simp
        · simp; omega

/-! ## Types of members -/

/-- The type of a member that has a name and a colon. -/
def memberType? (group : List Occurrence) : Option (List Occurrence) :=
  match splitColon? 0 group with
  | some (_ :: _, type) => some type
  | _ => none

/-- The types of the members between two braces. -/
def memberTypes (members : List Occurrence) : List (List Occurrence) :=
  (memberGroups none false 0 members).filterMap memberType?

theorem isColonAt_zero_of_beginsMember (h : o.kind.beginsMember = true) :
    isColonAt (o :: rest) 0 = false := by
  have hcolon : o.kind ≠ .colon := by
    intro hkind
    simp [hkind, Kind.beginsMember, Kind.isName, Kind.isKeyword] at h
  simp [isColonAt, outsideAt, hcolon]

theorem exists_split_of_lt {os : List Occurrence} {n : Nat} (h : n < os.length) :
    ∃ before o after, os = before ++ o :: after ∧ before.length = n :=
  ⟨os.take n, os[n], os.drop (n + 1), by simp, by simp; omega⟩

theorem isSeparatorAt_length (before after : List Occurrence) (o : Occurrence) :
    isSeparatorAt (before ++ o :: after) before.length = endsBefore before o := by
  rw [isSeparatorAt, outsideAt_length, Bool.eq_iff_iff]
  simp [endsBefore]

theorem beginsLineAt_length (before after : List Occurrence) (o : Occurrence) :
    beginsLineAt (before ++ o :: after) before.length =
      (depthBehind before = 0 && (o.token.newline && o.kind.beginsMember)) := outsideAt_length

/-- Behind a separator a member begins. -/
theorem beginsMemberAt_of_endsBefore {before : List Occurrence} {p : Occurrence}
    (h : endsBefore before p = true) (behind : List Occurrence) :
    beginsMemberAt ((before ++ [p]) ++ behind) (before ++ [p]).length = true := by
  rw [List.length_append, List.length_singleton, beginsMemberAt, List.append_assoc,
    List.singleton_append, isSeparatorAt_length, h, Bool.true_or]

/-- A member begins behind the first place if what is in front ends in a separator, or if a line
begins that does not continue a type. -/
theorem beginsMemberAt_length (before after : List Occurrence) (p o : Occurrence) :
    beginsMemberAt ((before ++ [p]) ++ o :: after) (before ++ [p]).length =
      (endsBefore before p || depthBehind (before ++ [p]) = 0 &&
        (o.token.newline && o.kind.beginsMember) && !(p.kind.goesOn || p.takesType)) := by
  have hline := beginsLineAt_length (before ++ [p]) after o
  have hp : ((before ++ [p]) ++ o :: after)[before.length]? = some p := by simp
  rw [List.length_append, List.length_singleton] at hline ⊢
  rw [beginsMemberAt, hline, hp, List.append_assoc, List.singleton_append, isSeparatorAt_length,
    Option.any_some]

/-- A line that is taken for a new member breaks a type if it stands behind a word that takes one,
and else begins a member. -/
theorem beginsMemberAt_or_breaksTypeAt {front after : List Occurrence}
    (h : breaksBefore front o = true) :
    beginsMemberAt (front ++ o :: after) front.length = true ∨
      breaksTypeAt (front ++ o :: after) front.length = true := by
  obtain ⟨hdepth, hnewline, hbegins, -, last, hlast, hgoes⟩ := breaksBefore_iff.mp h
  obtain ⟨before, rfl⟩ := List.getLast?_eq_some_iff.mp hlast
  cases htakes : last.takesType with
  | false =>
    left
    rw [beginsMemberAt_length, hdepth, hnewline, hbegins, hgoes, htakes]
    simp
  | true =>
    right
    have hline := beginsLineAt_length (before ++ [last]) after o
    have hp : ((before ++ [last]) ++ o :: after)[before.length]? = some last := by simp
    rw [List.length_append, List.length_singleton] at hline ⊢
    rw [breaksTypeAt, hline, hp, hdepth, hnewline, hbegins, Option.any_some, htakes]
    rfl

/-- Where a member begins behind a colon, the group of the colon ends. -/
theorem ends_of_beginsMemberAt {before after : List Occurrence} {p o : Occurrence}
    (h : beginsMemberAt ((before ++ [p]) ++ o :: after) (before ++ [p]).length = true)
    (hcolon : hasColon (before ++ [p]) = true) :
    endsBefore before p = true ∨ breaksBefore (before ++ [p]) o = true := by
  rw [beginsMemberAt_length, Bool.or_eq_true] at h
  refine h.imp_right fun hbreaks => ?_
  simp only [Bool.and_eq_true, decide_eq_true_eq, Bool.not_eq_true', Bool.or_eq_false_iff]
    at hbreaks
  obtain ⟨⟨hdepth, hnewline, hbegins⟩, hgoes, -⟩ := hbreaks
  exact breaksBefore_iff.mpr ⟨hdepth, hnewline, hbegins, hcolon, p, by simp, hgoes⟩

/-- In the first group, the types of members stand in the type of the group. -/
theorem memberType?_of_inMemberType {group tail : List Occurrence} {i : Nat}
    (hinside : ∀ before o after, group = before ++ o :: after →
      endsBefore before o = false ∧ breaksBefore before o = false)
    (h : InMemberType (group ++ tail) i) (hi : group[i]? = some o) :
    ∃ type, memberType? group = some type ∧ o ∈ type := by
  obtain ⟨first, hfirst, hbegins, hnamed, ⟨colon, hcolon, hbehind, hat⟩, -⟩ := h
  obtain ⟨hlength, -⟩ := List.getElem?_eq_some_iff.mp hi
  rw [isColonAt, outsideAt_append_left (hcolon.trans hlength)] at hat
  obtain ⟨name, mark, type, hsplit, hgroup, hle, hmark⟩ :=
    @exists_splitColon? group [] colon (by simpa [isColonAt] using hat)
  simp only [List.nil_append, List.length_nil, Nat.zero_add] at hmark
  have hname : name ≠ [] := by
    rintro rfl
    cases first with
    | zero =>
      rw [isColonAt, outsideAt_append_left (by omega)] at hnamed
      exact absurd (hnamed.symm.trans hmark) (by simp)
    | succ first =>
      obtain ⟨front, u, after, hfront, hlast⟩ := exists_split_of_lt (hfirst.trans hlength)
      obtain ⟨before, p, rfl⟩ := (List.eq_nil_or_concat front).resolve_left (by
        rintro rfl
        simp at hlast)
      rw [List.concat_eq_append] at hfront hlast
      have hcolon : hasColon (before ++ [p]) = true := by
        refine hasColon_iff.mpr ⟨0, by simp, ?_⟩
        rw [← hmark, hfront]
        exact (outsideAt_append_left (by simp)).symm
      rw [hfront, List.append_assoc, ← hlast] at hbegins
      rcases ends_of_beginsMemberAt hbegins hcolon with hends | hbreaks
      · rw [(hinside before p (u :: after) (by rw [hfront]; simp)).1] at hends
        cases hends
      · rw [(hinside _ u after hfront).2] at hbreaks
        cases hbreaks
  obtain ⟨n, name, rfl⟩ := List.exists_cons_of_ne_nil hname
  refine ⟨type, ?_, ?_⟩
  · have hsame : splitColon? 0 group = some (n :: name, type) := hsplit
    rw [memberType?, hsame]
  · obtain ⟨j, rfl⟩ := Nat.exists_eq_add_of_lt (hle.trans_lt hcolon)
    rw [hgroup, Nat.add_assoc, getElem?_append_length, List.getElem?_cons_succ] at hi
    exact List.mem_of_getElem? hi

theorem depthBehind_of_endsBefore (h : endsBefore front o = true) :
    depthBehind (front ++ [o]) = 0 := by
  obtain ⟨hdepth, hseparates⟩ := of_decide_eq_true h
  rw [depthBehind_concat, hdepth]
  rcases hseparates with hkind | hkind <;> rw [hkind] <;> rfl

/-- Where a group ends in front of a line, a position behind is in the type of a member of what
begins there, unless it is cut off. -/
theorem inMemberType_of_breaksBefore {k : Nat} (hbreaks : breaksBefore front o = true)
    (h : InMemberType (front ++ o :: rest) (front.length + k))
    (hcut : ¬ IsCutOff (front ++ o :: rest) (front.length + k)) : InMemberType (o :: rest) k := by
  obtain ⟨hdepth, -, hbegins, -⟩ := breaksBefore_iff.mp hbreaks
  refine h.of_append hdepth ((beginsMemberAt_or_breaksTypeAt hbreaks).imp_right fun htakes =>
    ⟨isColonAt_zero_of_beginsMember hbegins, ?_⟩)
  -- The type is broken here, but then a colon stands in front of the position.
  by_contra hnone
  refine hcut ⟨front.length, Nat.le_add_right _ k, htakes, fun colon hcolon hbehind => ?_⟩
  obtain ⟨mark, rfl⟩ := Nat.exists_eq_add_of_le hbehind
  rw [isColonAt, outsideAt_append_right hdepth, ← Bool.not_eq_true]
  exact fun hat => hnone ⟨mark, by omega, hat⟩

/-- What stands in the type of a member is found in the type of a property, unless it is cut off. -/
theorem exists_memberType {members : List Occurrence} {i : Nat} (h : InMemberType members i)
    (hcut : ¬ IsCutOff members i) (hi : members[i]? = some o) (hkind : o.kind = .identifier) :
    ∃ type ∈ memberTypes members, o ∈ type := by
  induction hn : members.length using Nat.strong_induction_on generalizing members i with
  | _ n ih =>
  obtain ⟨group, others, tail, hgroups, rfl, hinside, htail⟩ := exists_first_group [] members
  simp only [List.nil_append] at hinside htail
  have htypes : memberTypes (group ++ tail) = (group :: others).filterMap memberType? :=
    congrArg (List.filterMap memberType?) hgroups
  have hlater {os : List Occurrence} (hos : others = groupsBehind [] os)
      (hfound : ∃ type ∈ memberTypes os, o ∈ type) :
      ∃ type ∈ memberTypes (group ++ tail), o ∈ type := by
    obtain ⟨type, htype, ho⟩ := hfound
    obtain ⟨later, hlater, htype⟩ := List.mem_filterMap.mp htype
    have hmem : later ∈ group :: others := hos ▸ List.mem_cons_of_mem _ hlater
    exact ⟨type, htypes ▸ List.mem_filterMap.mpr ⟨later, hmem, htype⟩, ho⟩
  by_cases hwithin : i < group.length
  · rw [List.getElem?_append_left hwithin] at hi
    obtain ⟨type, htype, ho⟩ := memberType?_of_inMemberType hinside h hi
    exact ⟨type, htypes ▸ List.mem_filterMap.mpr ⟨group, List.mem_cons_self, htype⟩, ho⟩
  obtain ⟨k, rfl⟩ := Nat.exists_eq_add_of_le (Nat.le_of_not_lt hwithin)
  rw [getElem?_append_length] at hi
  obtain rfl | ⟨u, more, rfl, ⟨hends, hothers⟩ | ⟨hbreaks, hothers⟩⟩ := htail
  · simp at hi
  · cases k with
    | zero =>
      obtain rfl : u = o := by simpa using hi
      simp [endsBefore, hkind] at hends
    | succ k =>
      have hdepth := depthBehind_of_endsBefore hends
      have hsplit : group ++ u :: more = (group ++ [u]) ++ more := by simp
      have hindex : group.length + (k + 1) = (group ++ [u]).length + k := by simp; omega
      rw [hsplit, hindex] at h hcut
      have hnext := h.of_append hdepth (Or.inl (beginsMemberAt_of_endsBefore hends more))
      refine hlater hothers
        (ih more.length ?_ hnext (fun hmore => hcut (hmore.append hdepth)) hi rfl)
      rw [← hn, List.length_append, List.length_cons]
      omega
  · have hnext := inMemberType_of_breaksBefore hbreaks h hcut
    obtain ⟨hdepth, -, -, -, last, hlast, -⟩ := breaksBefore_iff.mp hbreaks
    have hpos : 0 < group.length := List.length_pos_of_mem (List.mem_of_getLast? hlast)
    refine hlater hothers
      (ih (u :: more).length ?_ hnext (fun hmore => hcut (hmore.append hdepth)) hi rfl)
    rw [← hn, List.length_append]
    omega

end SourceFile

end TypeInliner

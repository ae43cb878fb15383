import TypeInliner.Proofs.WrittenMembers

/-! # Written declarations

An interface is written with the types that it extends and with members between braces, an alias
with the constituents of a union or intersection, each of them a type or an object with members.
What stands between separators is plain: no separator stands outside of its brackets. So the parts
that are found are those that were written, and the properties and base types are theirs. -/

namespace TypeInliner

open Occurrence

/-! ## Written declarations -/

/-- A part of a union or intersection. -/
inductive Constituent
  | object (opening : Occurrence) (members : List Member) (closing : Occurrence)
  | type (os : List Occurrence)

namespace Constituent

def occurrences : Constituent → List Occurrence
  | object opening members closing => opening :: (Member.row members ++ [closing])
  | type os => os

def members : Constituent → List Member
  | object _ members _ => members
  | type _ => []

def base? : Constituent → Option (List Occurrence)
  | object _ _ _ => none
  | type os => some os

/-- An object stands between braces, a type is plain and is no group of braces. -/
def IsWritten : Constituent → Prop
  | object opening members closing =>
    opening.kind = .leftBrace ∧ closing.kind = .rightBrace ∧ Member.AreWritten members
  | type os => os ≠ [] ∧ isNested inPlain [] os = true ∧ isGroup .leftBrace os = false

instance : (c : Constituent) → Decidable c.IsWritten
  | object _ _ _ => inferInstanceAs (Decidable (_ ∧ _ ∧ _))
  | type _ => inferInstanceAs (Decidable (_ ∧ _ ∧ _))

end Constituent

/-- Parts behind a first one, each with the token in front of it. -/
def behindFirst (parts : List (Occurrence × List Occurrence)) : List Occurrence :=
  (parts.map fun part => part.1 :: part.2).flatten

theorem behindFirst_cons (part : Occurrence × List Occurrence)
    (parts : List (Occurrence × List Occurrence)) :
    behindFirst (part :: parts) = part.1 :: (part.2 ++ behindFirst parts) := rfl

/-- How a declaration begins. -/
structure Heading where
  exporting : Option Occurrence
  declaring : Option Occurrence
  keyword : Occurrence
  name : Occurrence
  parameters : List Occurrence

namespace Heading

def modifiers (h : Heading) : List Occurrence := h.exporting.toList ++ h.declaring.toList

def occurrences (h : Heading) : List Occurrence :=
  h.modifiers ++ h.keyword :: h.name :: h.parameters

/-- The modifiers of a heading are `export` and `declare`. Behind these stand the keyword of the
declaration, its name, and in angle brackets its type parameters if it has any. -/
structure IsWritten (h : Heading) (word : Keyword) : Prop where
  exporting : ∀ o ∈ h.exporting, o.kind = .keyword .exportWord
  declaring : ∀ o ∈ h.declaring, o.kind = .keyword .declareWord
  keyword : h.keyword.kind = .keyword word
  name : h.name.kind.isName = true
  parameters : h.parameters = [] ∨ isGroup .less h.parameters = true

instance (h : Heading) (word : Keyword) : Decidable (h.IsWritten word) :=
  decidable_of_iff (_ ∧ _ ∧ _ ∧ _ ∧ _)
    ⟨fun ⟨exporting, declaring, keyword, name, parameters⟩ =>
      ⟨exporting, declaring, keyword, name, parameters⟩,
      fun h => ⟨h.exporting, h.declaring, h.keyword, h.name, h.parameters⟩⟩

end Heading

/-- A declaration as it is written. An alias has an equals sign, an operator in front of its first
constituent if it is written there, the further constituents with the operators in front of them,
and a semicolon. An interface has the types that it extends, the first one with `extends` and the
others with a comma in front of them, and members between braces. -/
inductive DeclarationForm
  | typeAlias (heading : Heading) (sign : Occurrence) (operator : Option Occurrence)
      (first : Constituent) (others : List (Occurrence × Constituent)) (semicolon : Occurrence)
  | interface (heading : Heading) (bases : List (Occurrence × List Occurrence))
      (opening : Occurrence) (members : List Member) (closing : Occurrence)

namespace DeclarationForm

def heading : DeclarationForm → Heading
  | .typeAlias heading _ _ _ _ _ => heading
  | .interface heading _ _ _ _ => heading

/-- The name that is declared. -/
def name (d : DeclarationForm) : Text := d.heading.name.token.value

/-- The type of an alias. -/
def aliasType (operator : Option Occurrence) (first : Constituent)
    (others : List (Occurrence × Constituent)) : List Occurrence :=
  operator.toList ++
    (first.occurrences ++ behindFirst (others.map fun other => (other.1, other.2.occurrences)))

/-- What stands behind the heading. -/
def content : DeclarationForm → List Occurrence
  | .typeAlias _ sign operator first others semicolon =>
    sign :: (aliasType operator first others ++ [semicolon])
  | .interface _ bases opening members closing =>
    behindFirst bases ++ opening :: (Member.row members ++ [closing])

def occurrences (d : DeclarationForm) : List Occurrence := d.heading.occurrences ++ d.content

def constituents (first : Constituent) (others : List (Occurrence × Constituent)) :
    List Constituent :=
  first :: others.map Prod.snd

def members : DeclarationForm → List Member
  | .typeAlias _ _ _ first others _ => (constituents first others).flatMap Constituent.members
  | .interface _ _ _ members _ => members

def bases : DeclarationForm → List (List Occurrence)
  | .typeAlias _ _ _ first others _ => (constituents first others).filterMap Constituent.base?
  | .interface _ bases _ _ _ => bases.map Prod.snd

/-- An operator between constituents. -/
def isOperator (kind : Kind) : Bool := kind = .bar || kind = .ampersand

/-- What an interface extends is plain and has no brace outside of brackets. -/
def inBase (o : Occurrence) : Bool := o.inPlain && o.kind ≠ .leftBrace

/-- The tokens of a declaration stand where they belong and its parts are well-formed. -/
inductive IsWritten : DeclarationForm → Prop
  | ofAlias {heading : Heading} {sign semicolon : Occurrence} {operator : Option Occurrence}
      {first : Constituent} {others : List (Occurrence × Constituent)}
      (begins : heading.IsWritten .typeWord) (equals : sign.kind = .equals)
      (leads : ∀ o ∈ operator, isOperator o.kind = true) (written : first.IsWritten)
      (further : ∀ other ∈ others, isOperator other.1.kind = true ∧ other.2.IsWritten)
      (ends : semicolon.kind = .semicolon) :
      IsWritten (.typeAlias heading sign operator first others semicolon)
  | ofInterface {heading : Heading} {bases : List (Occurrence × List Occurrence)}
      {opening closing : Occurrence} {members : List Member}
      (begins : heading.IsWritten .interfaceWord)
      (extending : ∀ o ∈ (bases.map Prod.fst).head?, o.kind = .keyword .extendsWord)
      (commas : ∀ o ∈ (bases.map Prod.fst).tail, o.kind = .comma)
      (plain : ∀ base ∈ bases, base.2 ≠ [] ∧ isNested inBase [] base.2 = true)
      (opens : opening.kind = .leftBrace) (closes : closing.kind = .rightBrace)
      (written : Member.AreWritten members) :
      IsWritten (.interface heading bases opening members closing)

instance : (d : DeclarationForm) → Decidable d.IsWritten
  | .typeAlias _ _ _ _ _ _ => decidable_of_iff (_ ∧ _ ∧ _ ∧ _ ∧ _ ∧ _)
    ⟨fun ⟨begins, equals, leads, written, further, ends⟩ =>
      .ofAlias begins equals leads written further ends,
      fun
      | .ofAlias begins equals leads written further ends =>
        ⟨begins, equals, leads, written, further, ends⟩⟩
  | .interface _ _ _ _ _ => decidable_of_iff (_ ∧ _ ∧ _ ∧ _ ∧ _ ∧ _ ∧ _)
    ⟨fun ⟨begins, extending, commas, plain, opens, closes, written⟩ =>
      .ofInterface begins extending commas plain opens closes written,
      fun
      | .ofInterface begins extending commas plain opens closes written =>
        ⟨begins, extending, commas, plain, opens, closes, written⟩⟩

/-- Whether the end of a declaration can be found without counting angle brackets. -/
def HoldsTogether : DeclarationForm → Prop
  | .typeAlias _ _ operator first others _ =>
    Site.holdsTogether true 0 (aliasType operator first others) = true
  | .interface _ _ _ _ _ => True

instance : (d : DeclarationForm) → Decidable d.HoldsTogether
  | .typeAlias _ _ _ _ _ _ => inferInstanceAs (Decidable (_ = true))
  | .interface _ _ _ _ _ => inferInstanceAs (Decidable True)

/-- What describes the type of a declaration. -/
def body : DeclarationForm → SiteBody
  | .typeAlias _ _ operator first others _ => .alias (aliasType operator first others)
  | .interface _ bases _ members _ =>
    .interface (Site.afterExtends 0 (behindFirst bases)) (Member.row members)

/-- The site of a declaration. -/
def site (d : DeclarationForm) : Site := ⟨d.name, d.occurrences, d.body⟩

end DeclarationForm

/-! ## Brackets of a declaration -/

/-- Nested parts with further tokens in front of them are nested. -/
theorem isNested_behindFirst {outside : Occurrence → Bool}
    {parts : List (Occurrence × List Occurrence)}
    (h : ∀ part ∈ parts, (part.1.kind.isBracket = false ∧ outside part.1 = true) ∧
      isNested outside [] part.2 = true) : isNested outside [] (behindFirst parts) = true := by
  induction parts with
  | nil => rfl
  | cons part parts ih =>
    obtain ⟨⟨hkind, hpart⟩, hnested⟩ := h part List.mem_cons_self
    rw [behindFirst_cons, isNested_single hkind hpart, isNested_append hnested fun _ ho => ho]
    exact ih fun part hpart => h part (List.mem_cons_of_mem _ hpart)

theorem DeclarationForm.isBracket_of_isOperator {kind : Kind} (h : isOperator kind = true) :
    kind.isBracket = false := by
  rcases (by simpa [isOperator] using h : kind = .bar ∨ kind = .ampersand) with rfl | rfl <;> rfl

theorem DeclarationForm.isWritten_of_mem {first : Constituent}
    {others : List (Occurrence × Constituent)} (hfirst : first.IsWritten)
    (hothers : ∀ other ∈ others, isOperator other.1.kind = true ∧ other.2.IsWritten) :
    ∀ c ∈ constituents first others, c.IsWritten := by
  intro c hc
  rcases List.mem_cons.mp hc with rfl | hc
  · exact hfirst
  · obtain ⟨other, hother, rfl⟩ := List.mem_map.mp hc
    exact (hothers other hother).2

namespace Constituent

/-- No operator stands outside of the brackets of a constituent. -/
theorem IsWritten.isNested {c : Constituent} (h : c.IsWritten) :
    isNested (fun o => !DeclarationForm.isOperator o.kind) [] c.occurrences = true := by
  cases c with
  | object opening members closing =>
    obtain ⟨hopening, hclosing, hmembers⟩ := h
    have hpair : opening.kind.closing? = some closing.kind := by
      rw [hopening, hclosing]
      rfl
    have hbrace : (!DeclarationForm.isOperator opening.kind) = true := by
      rw [hopening]
      rfl
    rw [occurrences, isNested_group hpair hmembers.isNested_row hbrace]
    rfl
  | type os =>
    refine isNested_mono h.2.1 fun o ho => ?_
    simp only [inPlain, Bool.and_eq_true, decide_eq_true_eq] at ho
    simp [DeclarationForm.isOperator, ho]

theorem objectMembers?_occurrences {c : Constituent} (h : c.IsWritten) :
    SourceFile.objectMembers? c.occurrences = match c with
      | object _ members _ => some (Member.row members)
      | type _ => none := by
  cases c with
  | object opening members closing =>
    exact SourceFile.objectMembers?_group h.1 h.2.1 h.2.2.isNested_row
  | type os => exact SourceFile.objectMembers?_eq_none h.2.1 h.2.2

end Constituent

namespace SourceFile

/-! ## Parts between separators -/

/-- Parts with separators between them are taken apart. -/
theorem splitTop_parts {isSeparator : Kind → Bool} {outside : Occurrence → Bool}
    (hinside : ∀ o, outside o = true → isSeparator o.kind = false) {first : List Occurrence}
    (hfirst : isNested outside [] first = true) {parts : List (Occurrence × List Occurrence)}
    (hparts : ∀ part ∈ parts, isSeparator part.1.kind = true ∧ isNested outside [] part.2 = true) :
    splitTop isSeparator 0 (first ++ behindFirst parts) = first :: parts.map Prod.snd := by
  induction parts generalizing first with
  | nil =>
    rw [splitTop_passes (passes_outside hfirst hinside)]
    exact (joinFront_first first [] []).trans (by rw [List.append_nil]; rfl)
  | cons part parts ih =>
    obtain ⟨hseparator, hpart⟩ := hparts part List.mem_cons_self
    have hrest := ih hpart fun part hpart => hparts part (List.mem_cons_of_mem _ hpart)
    rw [splitTop_passes (passes_outside hfirst hinside), behindFirst_cons, splitTop,
      if_pos ⟨rfl, hseparator⟩, hrest, joinFront_first, List.append_nil, List.map_cons]

/-- The constituents of an alias are taken apart. -/
theorem splitTop_constituents {operator : Option Occurrence} {first : Constituent}
    {others : List (Occurrence × Constituent)}
    (hoperator : ∀ o ∈ operator, DeclarationForm.isOperator o.kind = true)
    (hfirst : first.IsWritten)
    (hothers : ∀ other ∈ others, DeclarationForm.isOperator other.1.kind = true ∧
      other.2.IsWritten) :
    ∃ empty, (empty = [] ∨ empty = [[]]) ∧
      splitTop DeclarationForm.isOperator 0 (DeclarationForm.aliasType operator first others) =
        empty ++ (DeclarationForm.constituents first others).map Constituent.occurrences := by
  have hparts : splitTop DeclarationForm.isOperator 0 (first.occurrences ++
      behindFirst (others.map fun other => (other.1, other.2.occurrences))) =
        (DeclarationForm.constituents first others).map Constituent.occurrences := by
    rw [splitTop_parts (fun o ho => by simpa using ho) hfirst.isNested]
    · simp [DeclarationForm.constituents]
    · intro part hpart
      obtain ⟨other, hother, rfl⟩ := List.mem_map.mp hpart
      exact ⟨(hothers other hother).1, (hothers other hother).2.isNested⟩
  cases operator with
  | none => exact ⟨[], Or.inl rfl, hparts⟩
  | some o =>
    -- The part in front of the first operator is empty.
    refine ⟨[[]], Or.inr rfl, ?_⟩
    rw [DeclarationForm.aliasType, Option.toList_some, List.singleton_append, splitTop,
      if_pos ⟨rfl, hoperator o rfl⟩, hparts]
    rfl

/-! ## What is described -/

variable {f : SourceFile} {source : Text}

theorem IsOf.text_ne_nil (hf : f.IsOf source) {o : Occurrence} (ho : o ∈ f.occurrences)
    (hending : o.kind ≠ .ending) : o.token.text ≠ [] := by
  obtain ⟨hnil, _⟩ | ⟨_, _, _, hreads, _⟩ := hf.exists_reading ho
  · exact absurd hnil hending
  · obtain ⟨_, _, htext, _⟩ := hreads.reading
    simp [htext]

/-- The text of a part of a source is not empty. -/
theorem IsOf.marked_ne_nil (hf : f.IsOf source) {os : List Occurrence}
    (hpart : os <:+: f.occurrences) (hne : os ≠ []) (hending : ∀ o ∈ os, o.kind ≠ .ending) :
    f.marked os ≠ [] := by
  obtain ⟨before, others, hsplit⟩ := hpart
  obtain ⟨o, os, rfl⟩ := List.exists_cons_of_ne_nil hne
  replace hsplit : f.occurrences = before ++ o :: (os ++ others) := by simpa using hsplit.symm
  have ho : o ∈ f.occurrences := by
    rw [hsplit]
    simp
  have htext := hf.text_ne_nil ho (hending o List.mem_cons_self)
  have hshown : f.shown o ≠ [] := by
    cases href : f.reference? o with
    | none => rwa [shown, href]
    | some r =>
      rw [shown, href]
      exact r.marker_ne_nil
  obtain ⟨c, t, hfirst⟩ := List.exists_cons_of_ne_nil hshown
  have hc := (hf.shown_not_isBlank ho).2 c (by rw [hfirst]; rfl)
  have htrim : Text.trimEnd Text.isBlank ([] ++ [c] ++ (t ++ f.shownBehind os)) =
      [] ++ [c] ++ Text.trimEnd Text.isBlank (t ++ f.shownBehind os) :=
    TypeReference.trimEnd_append hc _
  rw [(hf.trimBlanks_eq hsplit).1, hfirst]
  exact fun hnil => List.cons_ne_nil c _ (htrim.symm.trans hnil)

/-- The base type that a part of a union or intersection adds. -/
def baseText? (f : SourceFile) (part : List Occurrence) : Option Text :=
  if (objectMembers? part).isSome || (f.marked part).isEmpty then none else some (f.marked part)

/-- Each part of a union or intersection adds properties or a base type. -/
theorem aliasShape_parts (f : SourceFile) (type : List Occurrence) :
    f.aliasShape type =
      ((splitTop DeclarationForm.isOperator 0 type).flatMap fun part =>
          ((objectMembers? part).map f.properties).getD [],
        (splitTop DeclarationForm.isOperator 0 type).filterMap f.baseText?) := by
  refine Prod.ext rfl (List.filterMap_congr fun part _ => ?_)
  rw [baseText?]
  cases objectMembers? part <;> cases f.marked part <;> rfl

/-- The shape of a written alias. -/
theorem IsOf.aliasShape_eq (hf : f.IsOf source) {operator : Option Occurrence}
    {first : Constituent} {others : List (Occurrence × Constituent)}
    (hoperator : ∀ o ∈ operator, DeclarationForm.isOperator o.kind = true)
    (hfirst : first.IsWritten)
    (hothers : ∀ other ∈ others, DeclarationForm.isOperator other.1.kind = true ∧
      other.2.IsWritten)
    (hproperties : ∀ c ∈ DeclarationForm.constituents first others, ∀ m ∈ c.members,
      m.name ∈ f.occurrences)
    (hbases : ∀ c ∈ DeclarationForm.constituents first others, ∀ base ∈ c.base?,
      f.marked base ≠ []) :
    f.aliasShape (DeclarationForm.aliasType operator first others) =
      (((DeclarationForm.constituents first others).flatMap Constituent.members).map
          fun m => ⟨m.label, f.marked m.type⟩,
        ((DeclarationForm.constituents first others).filterMap Constituent.base?).map
          f.marked) := by
  obtain ⟨empty, hempty, hsplit⟩ := splitTop_constituents hoperator hfirst hothers
  have hwritten := DeclarationForm.isWritten_of_mem hfirst hothers
  generalize DeclarationForm.constituents first others = cs at hsplit hproperties hbases hwritten
  have hproperty : ∀ c ∈ cs, ((objectMembers? c.occurrences).map f.properties).getD [] =
      c.members.map fun m => ⟨m.label, f.marked m.type⟩ := by
    intro c hc
    rw [Constituent.objectMembers?_occurrences (hwritten c hc)]
    cases c with
    | object opening members closing =>
      exact hf.properties_row (hwritten _ hc).2.2 (hproperties _ hc)
    | type os => rfl
  have hbase : ∀ c ∈ cs, f.baseText? c.occurrences = c.base?.map f.marked := by
    intro c hc
    rw [baseText?, Constituent.objectMembers?_occurrences (hwritten c hc)]
    cases c with
    | object opening members closing => rfl
    | type os => simp [Constituent.occurrences, Constituent.base?, hbases _ hc os rfl]
  rw [aliasShape_parts, hsplit, List.flatMap_append, List.filterMap_append, List.flatMap_map,
    List.filterMap_map, List.map_flatMap, List.map_filterMap, List.flatMap_congr hproperty,
    Prod.mk.injEq]
  refine ⟨?_, ?_⟩
  · rcases hempty with rfl | rfl <;> rfl
  · rcases hempty with rfl | rfl <;> exact List.filterMap_congr hbase

/-- What a written interface extends. -/
theorem extended_eq {f : SourceFile} {bases : List (Occurrence × List Occurrence)}
    (hextends : ∀ o ∈ (bases.map Prod.fst).head?, o.kind = .keyword .extendsWord)
    (hcommas : ∀ o ∈ (bases.map Prod.fst).tail, o.kind = .comma)
    (hplain : ∀ base ∈ bases, isNested DeclarationForm.inBase [] base.2 = true)
    (hmarked : ∀ base ∈ bases, f.marked base.2 ≠ []) :
    f.extended (Site.afterExtends 0 (behindFirst bases)) = (bases.map Prod.snd).map f.marked := by
  cases bases with
  | nil => rfl
  | cons base bases =>
    have hfirst := hextends base.1 rfl
    have hinside : ∀ o, DeclarationForm.inBase o = true → decide (o.kind = .comma) = false := by
      intro o ho
      simp only [DeclarationForm.inBase, inPlain, inMember, Bool.and_eq_true,
        decide_eq_true_eq] at ho
      simp [ho]
    have hparts : splitTop (· = .comma) 0 (base.2 ++ behindFirst bases) =
        base.2 :: bases.map Prod.snd := by
      refine splitTop_parts hinside (hplain base List.mem_cons_self) fun part hpart => ⟨?_, ?_⟩
      · have hcomma : part.1.kind = .comma := hcommas part.1 (List.mem_map_of_mem hpart)
        simp [hcomma]
      · exact hplain part (List.mem_cons_of_mem _ hpart)
    rw [behindFirst_cons, Site.afterExtends, if_pos ⟨rfl, hfirst⟩, extended, hparts]
    refine List.filter_eq_self.mpr fun t ht => ?_
    obtain ⟨os, hos, rfl⟩ := List.mem_map.mp ht
    rw [← List.map_cons] at hos
    obtain ⟨part, hpart, rfl⟩ := List.mem_map.mp hos
    simpa using hmarked part hpart

end SourceFile

namespace DeclarationForm

/-! ## Parts of a declaration -/

theorem infix_behindFirst {parts : List (Occurrence × List Occurrence)}
    {part : Occurrence × List Occurrence} (h : part ∈ parts) : part.2 <:+: behindFirst parts :=
  (List.suffix_cons part.1 part.2).isInfix.trans
    (List.infix_of_mem_flatten (List.mem_map_of_mem (f := fun part => part.1 :: part.2) h))

theorem infix_aliasType (operator : Option Occurrence) {first : Constituent}
    {others : List (Occurrence × Constituent)} {c : Constituent}
    (hc : c ∈ constituents first others) : c.occurrences <:+: aliasType operator first others := by
  rcases List.mem_cons.mp hc with rfl | hc
  · exact ⟨operator.toList, _, by rw [aliasType, List.append_assoc]⟩
  · obtain ⟨other, hother, rfl⟩ := List.mem_map.mp hc
    have hpart := infix_behindFirst
      (List.mem_map_of_mem (f := fun other => (other.1, other.2.occurrences)) hother)
    exact hpart.trans ((List.suffix_append _ _).trans (List.suffix_append _ _)).isInfix

theorem name_mem_row {ms : List Member} {m : Member} (h : m ∈ ms) : m.name ∈ Member.row ms := by
  refine List.mem_flatten.mpr ⟨m.occurrences, List.mem_map_of_mem h, ?_⟩
  simp [Member.occurrences, Member.own, Member.head]

/-- The base types of a declaration stand in it. -/
theorem infix_bases (d : DeclarationForm) : ∀ base ∈ d.bases, base <:+: d.content := by
  intro base hbase
  cases d with
  | typeAlias heading sign operator first others semicolon =>
    obtain ⟨c, hc, hbase⟩ := List.mem_filterMap.mp hbase
    cases c with
    | object => simp [Constituent.base?] at hbase
    | type os =>
      obtain rfl := Option.some.inj hbase
      exact (infix_aliasType operator hc).trans ⟨[sign], [semicolon], by simp [content]⟩
  | interface heading bases opening members closing =>
    obtain ⟨part, hpart, rfl⟩ := List.mem_map.mp hbase
    exact (infix_behindFirst hpart).trans ⟨[], _, rfl⟩

/-- The names of the members of a declaration stand in it. -/
theorem name_mem_content (d : DeclarationForm) : ∀ m ∈ d.members, m.name ∈ d.content := by
  intro m hm
  cases d with
  | typeAlias heading sign operator first others semicolon =>
    obtain ⟨c, hc, hm⟩ := List.mem_flatMap.mp hm
    cases c with
    | object opening members closing =>
      have hrow : m.name ∈ Member.row members := name_mem_row hm
      have hname : m.name ∈ (Constituent.object opening members closing).occurrences := by
        simp [Constituent.occurrences, hrow]
      have htype := (infix_aliasType operator hc).subset hname
      simp [content, htype]
    | type => simp [Constituent.members] at hm
  | interface heading bases opening members closing =>
    have hrow : m.name ∈ Member.row members := name_mem_row hm
    simp [content, hrow]

theorem IsWritten.shape_eq {f : SourceFile} {source : Text} (hf : f.IsOf source)
    {d : DeclarationForm} (h : d.IsWritten) (hinside : d.occurrences <:+: f.occurrences)
    (hending : ∀ o ∈ d.occurrences, o.kind ≠ .ending) :
    f.shape d.body =
      (d.members.map fun m => ⟨m.label, f.marked m.type⟩, d.bases.map f.marked) := by
  have hcontent : d.content <:+: f.occurrences := (List.suffix_append _ _).isInfix.trans hinside
  have hname (m : Member) (hm : m ∈ d.members) : m.name ∈ f.occurrences :=
    hcontent.subset (name_mem_content d m hm)
  have hmarked (base : List Occurrence) (hbase : base ∈ d.bases) (hne : base ≠ []) :
      f.marked base ≠ [] := by
    have hpart := infix_bases d base hbase
    refine hf.marked_ne_nil (hpart.trans hcontent) hne fun o ho => ?_
    exact hending o (List.mem_append_right _ (hpart.subset ho))
  cases h with
  | @ofAlias heading sign semicolon operator first others _ _ leads written further _ =>
    refine hf.aliasShape_eq leads written further (fun c hc m hm => ?_) fun c hc base hbase => ?_
    · exact hname m (List.mem_flatMap.mpr ⟨c, hc, hm⟩)
    · refine hmarked base (List.mem_filterMap.mpr ⟨c, hc, hbase⟩) ?_
      have hwritten := isWritten_of_mem written further c hc
      cases c with
      | object => simp [Constituent.base?] at hbase
      | type os =>
        obtain rfl := Option.some.inj hbase
        exact hwritten.1
  | @ofInterface heading bases opening closing members _ extending commas plain _ _ written =>
    have hproperties := hf.properties_row written hname
    have hbases := SourceFile.extended_eq extending commas (fun base hbase => (plain base hbase).2)
      fun base hbase => hmarked base.2 (List.mem_map_of_mem hbase) (plain base hbase).1
    exact Prod.ext hproperties hbases

end DeclarationForm

end TypeInliner

import Mathlib.Data.List.Infix
import TypeInliner.SourceFile

/-! # The parts of a declaration

The description of a declaration is made of its parts: of the type of an alias, or of the base types
of an interface and what stands between its braces. Behind the declared name every identifier stands
in one of the parts, or else in the heading in front of them. -/

namespace TypeInliner

/-- The parts of a declaration that its description is made of. -/
def SiteBody.parts : SiteBody → List (List Occurrence)
  | .alias type => [type]
  | .interface bases members => [bases, members]

/-- The kinds of tokens in front of which the heading of a declaration ends. -/
def SiteBody.begins : SiteBody → Kind → Bool
  | .alias _, kind => kind = .equals
  | .interface _ _, kind => kind = .keyword .extendsWord || kind = .leftBrace

/-- The word that a declaration begins with behind its modifiers. -/
def SiteBody.keyword : SiteBody → Keyword
  | .alias _ => .typeWord
  | .interface _ _ => .interfaceWord

namespace Site

/-- What stands behind the name of a declaration. -/
def behindName (site : Site) : List Occurrence :=
  site.occurrences.drop (modifierCount site.occurrences + 2)

/-- What stands in front of the first token of certain kinds outside of brackets, angle brackets
counted. -/
def headUntil (stops : Kind → Bool) : Nat → List Occurrence → List Occurrence
  | _, [] => []
  | depth, o :: rest =>
    if depth = 0 ∧ stops o.kind then []
    else o :: headUntil stops (nesting true depth o.kind) rest

/-- What stands between the name of a declaration and its type: the type parameters in front of the
equals sign of an alias, or in front of `extends` or the opening brace of an interface. -/
def heading (site : Site) : List Occurrence :=
  headUntil site.body.begins 0 site.behindName

end Site

/-! ## Taking a declaration apart -/

namespace Site

open Occurrence

/-- The kinds of the first two tokens say how many modifiers there are. -/
theorem modifierCount_congr {os us : List Occurrence}
    (h : (os.take 2).map kind = (us.take 2).map kind) : modifierCount os = modifierCount us := by
  cases os with
  | nil =>
    cases us with
    | nil => rfl
    | cons u us => simp at h
  | cons o os =>
    cases us with
    | nil => simp at h
    | cons u us =>
      obtain ⟨hfirst, hrest⟩ := List.cons.inj h
      have hkind : headKind os = headKind us := by
        cases os <;> cases us <;> simp_all [headKind]
      simp only [modifierCount, hkind, hfirst]

/-- What stands in brackets belongs to the heading, unless the brackets stay open. -/
theorem headUntil_nested (stops : Kind → Bool) {depth : Nat} (hdepth : 0 < depth)
    (os : List Occurrence) :
    headKind (os.drop (nestedSize depth os)) = .ending ∨ ∀ behind,
      headUntil stops depth (os.take (nestedSize depth os) ++ behind) =
        os.take (nestedSize depth os) ++ headUntil stops 0 behind := by
  induction os generalizing depth with
  | nil => exact Or.inl rfl
  | cons o rest ih =>
    have hopen : ¬ (depth = 0 ∧ stops o.kind = true) := by omega
    rw [nestedSize]
    split
    · next hending => exact Or.inl hending
    split
    · next hclosed =>
      right
      intro behind
      simp [headUntil, hopen, hclosed]
    · next hnested =>
      rw [Nat.add_comm, List.drop_succ_cons, List.take_succ_cons]
      rcases ih (Nat.pos_of_ne_zero hnested) with hending | hinside
      · exact Or.inl hending
      · right
        intro behind
        rw [List.cons_append, headUntil, if_neg hopen, hinside, List.cons_append]

/-- Type parameters belong to the heading. -/
theorem headUntil_parameters {stops : Kind → Bool} (hless : stops .less = false)
    (os : List Occurrence) :
    headKind (os.drop (parametersSize os)) = .ending ∨ ∀ behind,
      headUntil stops 0 (os.take (parametersSize os) ++ behind) =
        os.take (parametersSize os) ++ headUntil stops 0 behind := by
  unfold parametersSize
  split
  · next hhead =>
    cases os with
    | nil => simp [headKind] at hhead
    | cons o rest =>
      replace hhead : o.kind = .less := hhead
      have hsize : nestedSize 0 (o :: rest) = nestedSize 1 rest + 1 := by
        simp [nestedSize, hhead, nesting, Nat.add_comm]
      rw [hsize, List.drop_succ_cons, List.take_succ_cons]
      rcases headUntil_nested stops Nat.one_pos rest with hending | hinside
      · exact Or.inl hending
      · right
        intro behind
        rw [List.cons_append, headUntil, if_neg (by simp [hhead, hless]), hhead]
        exact congrArg (o :: ·) (hinside behind)
  · exact Or.inr fun behind => rfl

theorem aliasType_prefix (first : Bool) (depth : Nat) (os : List Occurrence) :
    aliasType first depth os <+: os := by
  induction os generalizing first depth with
  | nil => exact List.nil_prefix
  | cons o rest ih =>
    rw [aliasType]
    split
    · exact List.nil_prefix
    split
    · exact ⟨rest, rfl⟩
    split
    · exact List.nil_prefix
    split
    · exact List.nil_prefix
    · exact List.cons_prefix_cons.mpr ⟨rfl, ih _ _⟩

theorem dropSemicolon_prefix (os : List Occurrence) : dropSemicolon os <+: os := by
  unfold dropSemicolon
  split
  · split
    · exact List.dropLast_prefix os
    · exact List.prefix_rfl
  · exact List.prefix_rfl

theorem mem_dropSemicolon {os : List Occurrence} {o : Occurrence} (ho : o ∈ os)
    (hkind : o.kind ≠ .semicolon) : o ∈ dropSemicolon os := by
  unfold dropSemicolon
  split
  · next last hlast =>
    split
    · next hsemicolon =>
      obtain ⟨front, rfl⟩ := List.getLast?_eq_some_iff.mp hlast
      rw [List.dropLast_concat]
      rcases List.mem_append.mp ho with hfront | hmem
      · exact hfront
      · rw [List.mem_singleton.mp hmem] at hkind
        exact absurd hsemicolon hkind
    · exact ho
  · exact ho

theorem interfaceHead?_split {depth : Nat} {os head rest : List Occurrence}
    (h : interfaceHead? depth os = some (head, rest)) :
    ∃ opening, os = head ++ opening :: rest ∧ opening.kind = .leftBrace := by
  induction os generalizing depth head with
  | nil => simp [interfaceHead?] at h
  | cons o os ih =>
    rw [interfaceHead?] at h
    split at h
    · simp at h
    split at h
    · next hbrace =>
      simp only [Option.some.injEq, Prod.mk.injEq] at h
      obtain ⟨rfl, rfl⟩ := h
      exact ⟨o, rfl, hbrace.2⟩
    · simp only [Option.map_eq_some_iff, Prod.mk.injEq, Prod.exists] at h
      obtain ⟨head', rest', hinner, rfl, rfl⟩ := h
      obtain ⟨opening, rfl, hopening⟩ := ih hinner
      exact ⟨opening, rfl, hopening⟩

theorem afterExtends_suffix (depth : Nat) (os : List Occurrence) :
    afterExtends depth os <:+ os := by
  induction os generalizing depth with
  | nil => exact List.nil_suffix
  | cons o os ih =>
    rw [afterExtends]
    split
    · exact List.suffix_cons o os
    · exact (ih _).trans (List.suffix_cons o os)

/-- The head of an interface is its heading, and behind `extends` its base types. -/
theorem mem_interfaceHead {depth : Nat} {os head rest : List Occurrence}
    (h : interfaceHead? depth os = some (head, rest)) (behind : List Occurrence) (body : SiteBody)
    (hbody : ∃ bases members, body = .interface bases members) :
    ∀ o ∈ head, o ∈ headUntil body.begins depth (head ++ behind) ∨
      o.kind = .keyword .extendsWord ∨ o ∈ afterExtends depth head := by
  obtain ⟨bases, members, rfl⟩ := hbody
  induction os generalizing depth head with
  | nil => simp [interfaceHead?] at h
  | cons u os ih =>
    rw [interfaceHead?] at h
    split at h
    · simp at h
    split at h
    · simp only [Option.some.injEq, Prod.mk.injEq] at h
      simp [← h.1]
    next hbrace =>
    simp only [Option.map_eq_some_iff, Prod.mk.injEq, Prod.exists] at h
    obtain ⟨head', rest', hinner, rfl, rfl⟩ := h
    intro o ho
    rw [afterExtends, List.cons_append, headUntil]
    by_cases hextends : depth = 0 ∧ u.kind = .keyword .extendsWord
    · rw [if_pos hextends]
      rcases List.mem_cons.mp ho with rfl | ho
      · exact Or.inr (Or.inl hextends.2)
      · exact Or.inr (Or.inr ho)
    · have hgoes : ¬ (depth = 0 ∧ SiteBody.begins (.interface bases members) u.kind = true) := by
        simp only [SiteBody.begins, Bool.or_eq_true, decide_eq_true_eq]
        rintro ⟨hdepth, hkind | hkind⟩
        · exact hextends ⟨hdepth, hkind⟩
        · exact hbrace ⟨hdepth, hkind⟩
      rw [if_neg hextends, if_neg hgoes]
      rcases List.mem_cons.mp ho with rfl | ho
      · exact Or.inl List.mem_cons_self
      · exact (ih hinner o ho).imp_left (List.mem_cons_of_mem u)

theorem block?_split {depth : Nat} {os members : List Occurrence}
    (h : block? depth os = some members) :
    ∃ closing behind, os = members ++ closing :: behind ∧ closing.kind = .rightBrace := by
  induction os generalizing depth members with
  | nil => simp [block?] at h
  | cons o os ih =>
    rw [block?] at h
    split at h
    · simp at h
    split at h
    · next hbrace =>
      obtain rfl := Option.some.inj h
      exact ⟨o, os, rfl, hbrace.2⟩
    · dsimp only at h
      simp only [Option.map_eq_some_iff] at h
      obtain ⟨inner, hinner, rfl⟩ := h
      obtain ⟨closing, behind, rfl, hclosing⟩ := ih hinner
      exact ⟨closing, behind, rfl, hclosing⟩

/-- Which tokens behind the name of a declaration are its own, and what is made of them. -/
inductive Layout (rest : List Occurrence) (size : Nat) : SiteBody → Prop
  | ofAlias {sign : Occurrence} {behind : List Occurrence}
      (split : rest.drop (parametersSize rest) = sign :: behind) (equals : sign.kind = .equals)
      (takes : size = parametersSize rest + 1 + (aliasType true 0 behind).length) :
      Layout rest size (.alias (dropSemicolon (aliasType true 0 behind)))
  | ofInterface {head behind members : List Occurrence}
      (opens : interfaceHead? 0 (rest.drop (parametersSize rest)) = some (head, behind))
      (closes : block? 0 behind = some members)
      (takes : size = parametersSize rest + head.length + 1 + members.length + 1) :
      Layout rest size (.interface (afterExtends 0 head) members)

/-- What a declaration is made of: its modifiers, its keyword, its name, and the tokens behind the
name that are its own. -/
structure MadeOf (site : Site) (os modifiers : List Occurrence) (keyword name : Occurrence)
    (rest : List Occurrence) (size : Nat) : Prop where
  split : os = modifiers ++ keyword :: name :: rest
  length : modifierCount os = modifiers.length
  declares : keyword.kind = .keyword site.body.keyword
  names : name.kind.isName = true ∧ site.name = name.token.value
  layout : Layout rest size site.body
  takes : site.occurrences = modifiers ++ keyword :: name :: rest.take size

theorem take_modifiers (modifiers rest : List Occurrence) (keyword name : Occurrence) (size : Nat) :
    (modifiers ++ keyword :: name :: rest).take (modifiers.length + 2 + size) =
      modifiers ++ keyword :: name :: rest.take size := by
  rw [Nat.add_assoc, List.take_length_add_append, Nat.add_comm 2, List.take_succ_cons,
    List.take_succ_cons]

theorem madeOf_of_ofFront? {os : List Occurrence} {site : Site} (h : ofFront? os = some site) :
    ∃ modifiers keyword name rest size, MadeOf site os modifiers keyword name rest size := by
  unfold ofFront? at h
  split at h
  · next keyword name rest hdrop =>
    have hsplit := List.take_append_drop (modifierCount os) os
    rw [hdrop] at hsplit
    have hlength : modifierCount os = (os.take (modifierCount os)).length := by
      have := congrArg List.length hdrop
      simp only [List.length_drop, List.length_cons] at this
      rw [List.length_take]
      omega
    have htake := take_modifiers (os.take (modifierCount os)) rest keyword name
    rw [hsplit, ← hlength] at htake
    dsimp only at h
    split at h
    · simp at h
    next hname =>
    split at h
    · next hkeyword =>
      split at h
      · next sign behind hsign =>
        split at h
        · next hequals =>
          obtain rfl := Option.some.inj h
          exact ⟨_, keyword, name, rest, _, hsplit.symm, hlength, hkeyword,
            ⟨by simpa using hname, rfl⟩, .ofAlias hsign hequals rfl,
            by simp only [← htake, Nat.add_assoc]⟩
        · simp at h
      · simp at h
    split at h
    · next hkeyword =>
      simp only [Option.bind_eq_bind, Option.bind_eq_some_iff, Option.pure_def,
        Option.some.injEq, Prod.exists] at h
      obtain ⟨head, behind, hhead, members, hmembers, rfl⟩ := h
      exact ⟨_, keyword, name, rest, _, hsplit.symm, hlength, hkeyword,
        ⟨by simpa using hname, rfl⟩, .ofInterface hhead hmembers rfl,
        by simp only [← htake, Nat.add_assoc]⟩
    · simp at h
  · simp at h

theorem headKind_ne_ending_of_head {depth : Nat} {os : List Occurrence}
    {head : List Occurrence × List Occurrence} (h : interfaceHead? depth os = some head) :
    headKind os ≠ .ending := by
  cases os with
  | nil => simp [interfaceHead?] at h
  | cons o os =>
    intro hending
    replace hending : o.kind = .ending := hending
    simp [interfaceHead?, hending] at h

/-- What a declaration takes behind its name. -/
theorem MadeOf.behindName_eq {site : Site} {os modifiers rest : List Occurrence}
    {keyword name : Occurrence} {size : Nat}
    (h : site.MadeOf os modifiers keyword name rest size) : site.behindName = rest.take size := by
  have hcount : modifierCount site.occurrences = modifiers.length := by
    rw [← h.length]
    apply modifierCount_congr
    rw [h.takes, ← take_modifiers, ← h.split, List.take_take]
    congr 2
    omega
  rw [behindName, hcount, h.takes, ← List.drop_drop, List.drop_left]
  rfl

theorem take_alias {rest behind : List Occurrence} {sign : Occurrence}
    (hsign : rest.drop (parametersSize rest) = sign :: behind) :
    rest.take (parametersSize rest + 1 + (aliasType true 0 behind).length) =
      rest.take (parametersSize rest) ++ sign :: aliasType true 0 behind := by
  have htype := aliasType_prefix true 0 behind
  rw [Nat.add_assoc, List.take_add, hsign, Nat.add_comm 1, List.take_succ_cons,
    ← List.prefix_iff_eq_take.mp htype]

theorem take_interface {rest head behind members : List Occurrence}
    (hhead : interfaceHead? 0 (rest.drop (parametersSize rest)) = some (head, behind))
    (hmembers : block? 0 behind = some members) : ∃ opening closing,
      opening.kind = .leftBrace ∧ closing.kind = .rightBrace ∧
        rest.take (parametersSize rest + head.length + 1 + members.length + 1) =
          rest.take (parametersSize rest) ++ (head ++ opening :: (members ++ [closing])) := by
  obtain ⟨opening, hopen, hopening⟩ := interfaceHead?_split hhead
  obtain ⟨closing, more, rfl, hclosing⟩ := block?_split hmembers
  refine ⟨opening, closing, hopening, hclosing, ?_⟩
  have hsplit : head ++ opening :: (members ++ closing :: more) =
      (head ++ opening :: (members ++ [closing])) ++ more := by simp
  have hlength : parametersSize rest + head.length + 1 + members.length + 1 =
      parametersSize rest + (head ++ opening :: (members ++ [closing])).length := by
    simp only [List.length_append, List.length_cons, List.length_nil]
    omega
  rw [hlength, List.take_add, hopen, hsplit, List.take_left]

/-- Behind the name of a declaration stand its heading and the parts that describe its type. -/
structure IsAccountedFor (site : Site) : Prop where
  parts : ∀ part ∈ site.body.parts, part <:+: site.behindName
  placed : ∀ o ∈ site.behindName, o.kind = .identifier →
    o ∈ site.heading ∨ ∃ part ∈ site.body.parts, o ∈ part

theorem isAccountedFor_alias {params type : List Occurrence} {site : Site} {sign : Occurrence}
    (hname : site.behindName = params ++ sign :: type) (hsign : sign.kind = .equals)
    (hparams : ∀ behind, headUntil site.body.begins 0 (params ++ behind) =
      params ++ headUntil site.body.begins 0 behind)
    (hbody : site.body = .alias (dropSemicolon type)) : site.IsAccountedFor where
  parts := by
    rw [hbody]
    intro part hpart
    obtain rfl := List.mem_singleton.mp hpart
    obtain ⟨behind, hbehind⟩ := dropSemicolon_prefix type
    refine ⟨params ++ [sign], behind, ?_⟩
    rw [hname, List.append_assoc, hbehind, List.append_assoc]
    rfl
  placed := by
    intro o ho hkind
    rw [heading, hname, hparams, hbody]
    rw [hname] at ho
    rcases List.mem_append.mp ho with hmem | hmem
    · exact Or.inl (List.mem_append_left _ hmem)
    rcases List.mem_cons.mp hmem with rfl | hmem
    · rw [hkind] at hsign
      simp at hsign
    · exact Or.inr ⟨_, List.mem_cons_self, mem_dropSemicolon hmem (by simp [hkind])⟩

theorem isAccountedFor_interface {params os head rest members : List Occurrence} {site : Site}
    {opening closing : Occurrence}
    (hname : site.behindName = params ++ (head ++ opening :: (members ++ [closing])))
    (hhead : interfaceHead? 0 os = some (head, rest))
    (hopening : opening.kind = .leftBrace) (hclosing : closing.kind = .rightBrace)
    (hparams : ∀ behind, headUntil site.body.begins 0 (params ++ behind) =
      params ++ headUntil site.body.begins 0 behind)
    (hbody : site.body = .interface (afterExtends 0 head) members) : site.IsAccountedFor where
  parts := by
    rw [hbody]
    intro part hpart
    simp only [SiteBody.parts, List.mem_cons, List.not_mem_nil, or_false] at hpart
    rcases hpart with rfl | rfl
    · obtain ⟨front, hfront⟩ := afterExtends_suffix 0 head
      refine ⟨params ++ front, opening :: (members ++ [closing]), ?_⟩
      rw [hname, List.append_assoc, List.append_assoc, ← List.append_assoc front, hfront]
    · exact ⟨params ++ head ++ [opening], [closing], by rw [hname]; simp⟩
  placed := by
    intro o ho hkind
    have hparts : site.body.parts = [afterExtends 0 head, members] := by rw [hbody]; rfl
    rw [heading, hname, hparams, hparts]
    rw [hname] at ho
    rcases List.mem_append.mp ho with hmem | hmem
    · exact Or.inl (List.mem_append_left _ hmem)
    rcases List.mem_append.mp hmem with hmem | hmem
    · rcases mem_interfaceHead hhead (opening :: (members ++ [closing])) site.body ⟨_, _, hbody⟩ o
        hmem with hheading | hextends | hbases
      · exact Or.inl (List.mem_append_right _ hheading)
      · rw [hkind] at hextends
        simp at hextends
      · exact Or.inr ⟨_, List.mem_cons_self, hbases⟩
    rcases List.mem_cons.mp hmem with rfl | hmem
    · rw [hkind] at hopening
      simp at hopening
    rcases List.mem_append.mp hmem with hmem | hmem
    · exact Or.inr ⟨members, by simp, hmem⟩
    · rw [List.mem_singleton.mp hmem, hclosing] at hkind
      simp at hkind

/-- Every declaration that is found takes the tokens from its first modifier on and accounts for the
identifiers behind its name. -/
theorem ofFront?_accounts {os : List Occurrence} {site : Site} (h : ofFront? os = some site) :
    site.occurrences <+: os ∧ site.IsAccountedFor := by
  obtain ⟨modifiers, keyword, name, rest, size, hmade⟩ := madeOf_of_ofFront? h
  constructor
  · rw [hmade.takes, hmade.split]
    simpa using List.take_prefix size rest
  have hname := hmade.behindName_eq
  have hlayout := hmade.layout
  have hless : site.body.begins .less = false := by cases site.body <;> rfl
  have hparams := headUntil_parameters hless rest
  generalize hbody : site.body = body at hlayout
  cases hlayout with
  | ofAlias hsign hequals hsize =>
    rw [hsize, take_alias hsign] at hname
    refine isAccountedFor_alias hname hequals (hparams.resolve_left ?_) hbody
    rw [hsign]
    change Occurrence.kind _ ≠ .ending
    simp [hequals]
  | ofInterface hhead hmembers hsize =>
    obtain ⟨opening, closing, hopening, hclosing, htake⟩ := take_interface hhead hmembers
    rw [hsize, htake] at hname
    exact isAccountedFor_interface hname hhead hopening hclosing
      (hparams.resolve_left (headKind_ne_ending_of_head hhead)) hbody

/-- The declarations of a source are found where its tokens go on. -/
theorem exists_suffix_of_mem_collect {before : Option Kind} {depth : Nat} {os : List Occurrence}
    {site : Site} (h : site ∈ collect before depth os) :
    ∃ rest, rest <:+ os ∧ ofFront? rest = some site := by
  fun_induction collect before depth os with
  | case1 => simp at h
  | case2 before depth o rest found site' hfound ih =>
    rcases List.mem_cons.mp h with rfl | hmem
    · refine ⟨o :: rest, List.suffix_rfl, ?_⟩
      simp only [found] at hfound
      split at hfound
      · exact hfound
      · simp at hfound
    · obtain ⟨others, hsuffix, hfront⟩ := ih hmem
      exact ⟨others, hsuffix.trans ((List.drop_suffix _ _).trans (List.suffix_cons o rest)), hfront⟩
  | case3 before depth o rest found hfound ih =>
    obtain ⟨others, hsuffix, hfront⟩ := ih h
    exact ⟨others, hsuffix.trans (List.suffix_cons o rest), hfront⟩

end Site

end TypeInliner

import Mathlib.Data.List.Basic
import TypeInliner.Proofs.DeclarationParts

/-! # Where a declaration ends

A declaration is found by the kinds of its tokens and the line breaks inside its type, so tokens of
the same kinds and line breaks are a declaration again. What stands behind them matters only to an
alias without a semicolon: its type goes on until a statement begins on a new line. -/

namespace TypeInliner

namespace Occurrence

/-- What the readers of declarations see of an occurrence. -/
def seen (o : Occurrence) : Kind × Text × Bool := (o.kind, o.token.value, o.token.newline)

/-- Occurrences that the readers of declarations see in the same way. -/
def Matches (us os : List Occurrence) : Prop := us.map seen = os.map seen

namespace Matches

variable {us os : List Occurrence}

theorem nil (h : Matches us []) : us = [] := List.map_eq_nil_iff.mp h

theorem cons {o : Occurrence} (h : Matches us (o :: os)) :
    ∃ u rest, us = u :: rest ∧ u.seen = o.seen ∧ Matches rest os :=
  List.map_eq_cons_iff.mp h

theorem append {front : List Occurrence} (h : Matches us (front ++ os)) :
    ∃ first rest, us = first ++ rest ∧ Matches first front ∧ Matches rest os := by
  rw [Matches, List.map_append] at h
  exact List.map_eq_append_iff.mp h

theorem map_kind (h : Matches us os) : us.map kind = os.map kind := by
  simpa [Function.comp_def, seen] using congrArg (List.map Prod.fst) h

end Matches

theorem kind_of_seen {u o : Occurrence} (h : u.seen = o.seen) : u.kind = o.kind :=
  congrArg Prod.fst h

theorem newline_of_seen {u o : Occurrence} (h : u.seen = o.seen) :
    u.token.newline = o.token.newline :=
  congrArg (fun seen => seen.2.2) h

theorem value_of_seen {u o : Occurrence} (h : u.seen = o.seen) : u.token.value = o.token.value :=
  congrArg (fun seen => seen.2.1) h

/-- What comes first is the same where what stands in front is the same. -/
theorem Matches.headKind_append {us os behind after : List Occurrence} (h : Matches us os)
    (hbehind : os ≠ [] ∨ headKind behind = headKind after) :
    headKind (us ++ behind) = headKind (os ++ after) := by
  cases os with
  | nil =>
    obtain rfl := h.nil
    exact hbehind.resolve_left (by simp)
  | cons o os =>
    obtain ⟨u, us, rfl, hu, _⟩ := h.cons
    exact kind_of_seen hu

end Occurrence

namespace Site

open Occurrence

/-! ## Headings and blocks -/

/-- Brackets that are closed end at the same place whatever stands behind them. -/
theorem nestedSize_again {depth : Nat} {os us : List Occurrence}
    (hclosed : headKind (os.drop (nestedSize depth os)) ≠ .ending)
    (h : Matches us (os.take (nestedSize depth os))) (behind : List Occurrence) :
    nestedSize depth (us ++ behind) = us.length := by
  induction os generalizing depth us with
  | nil => exact absurd rfl hclosed
  | cons o rest ih =>
    rw [nestedSize] at hclosed h
    split at hclosed
    · next hending => exact absurd hending hclosed
    next hending =>
    rw [if_neg hending] at h
    split at hclosed
    · next hlast =>
      rw [if_pos hlast] at h
      obtain ⟨u, us, rfl, hu, hus⟩ := h.cons
      obtain rfl := hus.nil
      rw [List.cons_append, nestedSize, kind_of_seen hu, if_neg hending, if_pos hlast]
      rfl
    · next hinside =>
      rw [if_neg hinside, Nat.add_comm, List.take_succ_cons] at h
      rw [Nat.add_comm, List.drop_succ_cons] at hclosed
      obtain ⟨u, us, rfl, hu, hus⟩ := h.cons
      rw [List.cons_append, nestedSize, kind_of_seen hu, if_neg hending, if_neg hinside,
        ih hclosed hus, List.length_cons, Nat.add_comm]

theorem parametersSize_again {os us behind : List Occurrence}
    (hclosed : headKind (os.drop (parametersSize os)) ≠ .ending)
    (h : Matches us (os.take (parametersSize os)))
    (hbehind : headKind behind = headKind (os.drop (parametersSize os))) :
    parametersSize (us ++ behind) = us.length := by
  unfold parametersSize at hclosed h hbehind ⊢
  split at hclosed
  · next hless =>
    rw [if_pos hless] at h
    have hhead : headKind (us ++ behind) = .less := by
      cases os with
      | nil => simp [headKind] at hless
      | cons o rest =>
        replace hless : o.kind = .less := hless
        rw [nestedSize, if_neg (by simp [hless]), if_neg (by simp [hless, nesting]), Nat.add_comm,
          List.take_succ_cons] at h
        obtain ⟨u, us, rfl, hu, _⟩ := h.cons
        exact (kind_of_seen hu).trans hless
    rw [if_pos hhead]
    exact nestedSize_again hclosed h behind
  · next hless =>
    rw [if_neg hless] at h hbehind
    obtain rfl := h.nil
    rw [List.nil_append, hbehind]
    exact if_neg hless

theorem interfaceHead?_again {depth : Nat} {os head rest us : List Occurrence}
    {opening : Occurrence} (h : interfaceHead? depth os = some (head, rest))
    (hlike : Matches us head) (hopening : opening.kind = .leftBrace) (behind : List Occurrence) :
    interfaceHead? depth (us ++ opening :: behind) = some (us, behind) := by
  induction os generalizing depth head us with
  | nil => simp [interfaceHead?] at h
  | cons o os ih =>
    rw [interfaceHead?] at h
    split at h
    · simp at h
    next hending =>
    split at h
    · next hbrace =>
      simp only [Option.some.injEq, Prod.mk.injEq] at h
      obtain ⟨rfl, rfl⟩ := h
      obtain rfl := hlike.nil
      rw [List.nil_append, interfaceHead?, if_neg (by simp [hopening]), if_pos ⟨hbrace.1, hopening⟩]
    · next hbrace =>
      simp only [Option.map_eq_some_iff, Prod.mk.injEq, Prod.exists] at h
      obtain ⟨head', rest', hinner, rfl, rfl⟩ := h
      obtain ⟨u, us, rfl, hu, hus⟩ := hlike.cons
      rw [List.cons_append, interfaceHead?, kind_of_seen hu, if_neg hending, if_neg hbrace,
        ih hinner hus]
      rfl

theorem block?_again {depth : Nat} {os members us : List Occurrence} {closing : Occurrence}
    (h : block? depth os = some members) (hlike : Matches us members)
    (hclosing : closing.kind = .rightBrace) (behind : List Occurrence) :
    block? depth (us ++ closing :: behind) = some us := by
  induction os generalizing depth members us with
  | nil => simp [block?] at h
  | cons o os ih =>
    rw [block?] at h
    split at h
    · simp at h
    next hending =>
    split at h
    · next hbrace =>
      obtain rfl := Option.some.inj h
      obtain rfl := hlike.nil
      rw [List.nil_append, block?, if_neg (by simp [hclosing]), if_pos ⟨hbrace.1, hclosing⟩]
    · next hbrace =>
      dsimp only at h
      simp only [Option.map_eq_some_iff] at h
      obtain ⟨inner, hinner, rfl⟩ := h
      obtain ⟨u, us, rfl, hu, hus⟩ := hlike.cons
      rw [List.cons_append, block?, kind_of_seen hu, if_neg hending, if_neg hbrace]
      dsimp only
      rw [ih hinner hus]
      rfl

/-! ## The type of an alias -/

/-- Words that begin a statement only in front of a name. -/
def needsName (kind : Kind) : Bool :=
  kind = .keyword .typeWord || kind = .keyword .interfaceWord ||
    kind = .keyword .namespaceWord || kind = .keyword .abstractWord

/-- What ends the type of an alias outside of brackets: the ending, or a statement that begins on a
new line. -/
def Stops : List Occurrence → Prop
  | [] => True
  | o :: rest => o.kind = .ending ∨ o.token.newline = true ∧ opensStatement o rest = true

/-- Whether a statement begins depends on the first kind, and for some words on the second. -/
theorem opensStatement_congr {u o : Occurrence} {us os : List Occurrence} (h : u.kind = o.kind)
    (hnext : needsName o.kind = false ∨ headKind us = headKind os) :
    opensStatement u us = opensStatement o os := by
  unfold opensStatement
  rw [h]
  rcases hnext with hword | hnext
  · split <;> first | rfl | (next hkind => simp [hkind, needsName] at hword)
  · rw [hnext]

theorem aliasType_of_stops {os : List Occurrence} (h : Stops os) : aliasType false 0 os = [] := by
  cases os with
  | nil => rfl
  | cons o rest =>
    rw [aliasType]
    split
    · rfl
    next hending =>
    obtain ⟨hline, hopens⟩ := h.resolve_left hending
    have hsemicolon : o.kind ≠ .semicolon := by
      intro hkind
      simp [opensStatement, hkind] at hopens
    rw [if_neg (by simp [hsemicolon])]
    split
    · rfl
    · rw [if_pos ⟨rfl, by decide, hline, hopens⟩]

/-- A token that belongs to the type of an alias without ending it. -/
structure GoesOn (first : Bool) (depth : Nat) (o : Occurrence) (rest : List Occurrence) : Prop where
  ending : o.kind ≠ .ending
  semicolon : ¬ (depth = 0 ∧ o.kind = .semicolon)
  closing : ¬ (depth = 0 ∧ isClosing o.kind = true)
  statement : ¬ (depth = 0 ∧ ¬ first = true ∧ o.token.newline = true ∧
    opensStatement o rest = true)

theorem GoesOn.aliasType_eq {first : Bool} {depth : Nat} {o : Occurrence} {rest : List Occurrence}
    (h : GoesOn first depth o rest) : aliasType first depth (o :: rest) =
      o :: aliasType false (nesting false depth o.kind) rest := by
  rw [aliasType, if_neg h.ending, if_neg h.semicolon, if_neg h.closing, if_neg h.statement]

theorem aliasType_cases (first : Bool) (depth : Nat) (o : Occurrence) (rest : List Occurrence) :
    aliasType first depth (o :: rest) = [] ∨
      (depth = 0 ∧ o.kind = .semicolon) ∧ aliasType first depth (o :: rest) = [o] ∨
      GoesOn first depth o rest := by
  rw [aliasType]
  split
  · exact Or.inl rfl
  next hending =>
  split
  · next hsemicolon => exact Or.inr (Or.inl ⟨hsemicolon, rfl⟩)
  next hsemicolon =>
  split
  · exact Or.inl rfl
  next hclosing =>
  split
  · exact Or.inl rfl
  · next hstatement => exact Or.inr (Or.inr ⟨hending, hsemicolon, hclosing, hstatement⟩)

/-- The number of brackets that are open behind occurrences. -/
def openBehind (depth : Nat) (os : List Occurrence) : Nat :=
  (os.map kind).foldl (nesting false) depth

theorem GoesOn.congr {first : Bool} {depth : Nat} {u o : Occurrence} {us os : List Occurrence}
    (h : GoesOn first depth o os) (hu : u.seen = o.seen)
    (hstatement : opensStatement u us = opensStatement o os) : GoesOn first depth u us where
  ending := by rw [kind_of_seen hu]; exact h.ending
  semicolon := by rw [kind_of_seen hu]; exact h.semicolon
  closing := by rw [kind_of_seen hu]; exact h.closing
  statement := by rw [newline_of_seen hu, hstatement]; exact h.statement

/-- Where no more of a type follows, none is found in front of what ends it. -/
theorem aliasType_again_nil {first : Bool} {depth : Nat} {os us behind : List Occurrence}
    (hnil : aliasType first depth os = []) (hlike : Matches us (aliasType first depth os))
    (hwritten : first = true → aliasType first depth os ≠ [])
    (hclosed : openBehind depth (aliasType first depth os) = 0) (hstops : Stops behind) :
    aliasType first depth (us ++ behind) = us := by
  rw [hnil] at hlike hclosed
  obtain rfl := hlike.nil
  obtain rfl : depth = 0 := hclosed
  obtain rfl : first = false := by simpa using fun hfirst => hwritten hfirst hnil
  exact aliasType_of_stops hstops

/-- A type is found again in front of what ends it, if its brackets are closed and its last word
makes no statement of what stands behind it. -/
theorem aliasType_again {first : Bool} {depth : Nat} {os us behind : List Occurrence}
    (hlike : Matches us (aliasType first depth os))
    (hwritten : first = true → aliasType first depth os ≠ [])
    (hclosed : openBehind depth (aliasType first depth os) = 0)
    (hlast : ∀ o ∈ (aliasType first depth os).getLast?, needsName o.kind = false)
    (hstops : Stops behind) : aliasType first depth (us ++ behind) = us := by
  -- Only the end of the type comes to see what stands behind: there the brackets are closed, and
  -- the last word is the only one whose next token is a new one.
  induction os generalizing first depth us with
  | nil => exact aliasType_again_nil rfl hlike hwritten hclosed hstops
  | cons o rest ih =>
    rcases aliasType_cases first depth o rest with hnil | ⟨hsemicolon, hsingle⟩ | hgoes
    · exact aliasType_again_nil hnil hlike hwritten hclosed hstops
    · rw [hsingle] at hlike
      obtain ⟨u, us, rfl, hu, hus⟩ := hlike.cons
      obtain rfl := hus.nil
      rw [List.cons_append, aliasType, kind_of_seen hu, if_neg (by simp [hsemicolon.2]),
        if_pos hsemicolon]
    · rw [hgoes.aliasType_eq] at hlike hclosed hlast
      obtain ⟨u, us, rfl, hu, hus⟩ := hlike.cons
      have hkind := kind_of_seen hu
      have hstatement : opensStatement u (us ++ behind) = opensStatement o rest := by
        refine opensStatement_congr hkind ?_
        by_cases hnil : aliasType false (nesting false depth o.kind) rest = []
        · rw [hnil] at hlast
          exact Or.inl (hlast o rfl)
        · obtain ⟨more, hmore⟩ := aliasType_prefix false (nesting false depth o.kind) rest
          rw [hus.headKind_append (Or.inl hnil), hmore]
          exact Or.inr rfl
      rw [List.cons_append, (hgoes.congr hu hstatement).aliasType_eq, hkind]
      exact congrArg (u :: ·) (ih hus (by simp) hclosed fun last hmem =>
        hlast last (List.mem_getLast?_cons hmem))

/-! ## Declarations -/

section MadeOf

variable {site : Site} {os modifiers rest : List Occurrence} {keyword name : Occurrence}
  {size : Nat}

theorem MadeOf.ofFront?_eq (h : site.MadeOf os modifiers keyword name rest size) :
    ofFront? os = some site := by
  obtain ⟨hsplit, hlength, hkeyword, ⟨hname, hvalue⟩, hlayout, htakes⟩ := h
  have hdrop : os.drop (modifierCount os) = keyword :: name :: rest := by
    rw [hlength, hsplit, List.drop_left]
  have htake := take_modifiers modifiers rest keyword name size
  rw [← hsplit, ← hlength, ← htakes] at htake
  obtain ⟨value, occurrences, body⟩ := site
  subst htake hvalue
  unfold ofFront?
  simp only [hdrop, hname, not_true_eq_false, if_false]
  cases hlayout with
  | ofAlias hsign hequals hsize =>
    replace hkeyword : keyword.kind = .keyword .typeWord := hkeyword
    rw [if_pos hkeyword]
    simp only [hsign, hequals, if_true, hsize, Nat.add_assoc]
  | ofInterface hhead hmembers hsize =>
    replace hkeyword : keyword.kind = .keyword .interfaceWord := hkeyword
    rw [if_neg (by simp [hkeyword]), if_pos hkeyword, hhead]
    simp only [Option.bind_eq_bind, Option.bind_some, hmembers, hsize, Nat.add_assoc,
      Option.pure_def]

/-- At the beginning of a declaration a statement begins. -/
theorem MadeOf.opensStatement_eq (h : site.MadeOf os modifiers keyword name rest size) :
    ∃ o behind, os = o :: behind ∧ opensStatement o behind = true := by
  have hsplit := h.split
  cases modifiers with
  | nil =>
    refine ⟨keyword, name :: rest, hsplit, ?_⟩
    have hname : (headKind (name :: rest)).isName = true := h.names.1
    unfold opensStatement
    rw [h.declares]
    cases site.body <;> exact hname
  | cons o modifiers =>
    refine ⟨o, _, hsplit, ?_⟩
    have hlength := h.length
    rw [hsplit, List.cons_append, modifierCount, List.length_cons] at hlength
    unfold opensStatement
    split at hlength
    · next hexport => rw [hexport]
    split at hlength
    · next hdeclare => rw [hdeclare]
    · omega

/-- Occurrences like those of a declaration, but for the line break in front of the first one. -/
structure Resembles (us : List Occurrence) (site : Site) : Prop where
  kinds : us.map kind = site.occurrences.map kind
  tail : Matches us.tail site.occurrences.tail

theorem Resembles.split {us : List Occurrence} (h : Resembles us site)
    (hmade : site.MadeOf os modifiers keyword name rest size) :
    ∃ modifiers' keyword' name' own, us = modifiers' ++ keyword' :: name' :: own ∧
      modifiers'.map kind = modifiers.map kind ∧ keyword'.kind = keyword.kind ∧
      name'.seen = name.seen ∧ Matches own (rest.take size) := by
  obtain ⟨hkinds, htail⟩ := h
  rw [hmade.takes] at hkinds htail
  rw [List.map_append] at hkinds
  obtain ⟨modifiers', own, rfl, hmodifiers, hown⟩ := List.map_eq_append_iff.mp hkinds
  obtain ⟨keyword', own, rfl, hkeyword, _⟩ := List.map_eq_cons_iff.mp hown
  have hlength : modifiers'.length = modifiers.length := by
    simpa using congrArg List.length hmodifiers
  have hdrop (front behind : List Occurrence) (o : Occurrence) :
      (front ++ o :: behind).tail.drop front.length = behind := by
    rw [List.drop_tail, List.append_cons]
    exact List.drop_left' (by simp)
  have hbehind : Matches own (name :: rest.take size) := by
    have hdropped := congrArg (List.drop modifiers.length) htail
    rw [← List.map_drop, ← List.map_drop, hdrop, ← hlength, hdrop] at hdropped
    exact hdropped
  obtain ⟨name', own, rfl, hname, hrest⟩ := hbehind.cons
  exact ⟨modifiers', keyword', name', own, rfl, hmodifiers, hkeyword, hname, hrest⟩

end MadeOf

theorem openBehind_dropSemicolon (depth : Nat) (type : List Occurrence) :
    openBehind depth (dropSemicolon type) = openBehind depth type := by
  unfold dropSemicolon
  split
  · next last hlast =>
    split
    · next hsemicolon =>
      obtain ⟨front, rfl⟩ := List.getLast?_eq_some_iff.mp hlast
      rw [List.dropLast_concat, openBehind, openBehind, List.map_append, List.foldl_append]
      simp [hsemicolon, nesting]
    · rfl
  · rfl

/-- A declaration whose last token is of some kind ends by itself: the type of an alias is written
out or followed by a semicolon, all its brackets are closed, and its last word makes no statement of
a name behind it. -/
def EndsWith (last : Kind) : SiteBody → Prop
  | .alias type => (type ≠ [] ∨ last = .semicolon) ∧ openBehind 0 type = 0 ∧ needsName last = false
  | .interface _ _ => True

instance (last : Kind) (body : SiteBody) : Decidable (EndsWith last body) :=
  match body with
  | .alias _ => inferInstanceAs (Decidable (_ ∧ _))
  | .interface _ _ => .isTrue trivial

theorem EndsWith.of_type {type front : List Occurrence} {sign : Occurrence}
    (hequals : sign.kind = .equals)
    (h : ∀ o ∈ (front ++ sign :: type).getLast?, EndsWith o.kind (.alias (dropSemicolon type))) :
    type ≠ [] ∧ openBehind 0 type = 0 ∧ ∀ o ∈ type.getLast?, needsName o.kind = false := by
  rcases List.eq_nil_or_concat' type with rfl | ⟨type, last, rfl⟩
  · obtain ⟨hwritten | hsemicolon, _⟩ := h sign List.getLast?_concat
    · exact absurd rfl hwritten
    · simp [hequals] at hsemicolon
  · obtain ⟨_, hclosed, hname⟩ := h last (List.mem_getLast?_append_of_mem_getLast?
      (List.mem_getLast?_cons List.getLast?_concat))
    rw [openBehind_dropSemicolon] at hclosed
    refine ⟨by simp, hclosed, fun o ho => ?_⟩
    rw [List.getLast?_concat] at ho
    rwa [← Option.some.inj ho]

section Again

variable {rest us behind : List Occurrence}

theorem layout_alias {type after : List Occurrence} {size : Nat} {sign : Occurrence}
    (hsign : rest.drop (parametersSize rest) = sign :: after) (hequals : sign.kind = .equals)
    (htype : aliasType true 0 after = type) (hsize : size = parametersSize rest + 1 + type.length) :
    Layout rest size (.alias (dropSemicolon type)) := by
  subst htype
  exact .ofAlias hsign hequals hsize

theorem alias_again {after : List Occurrence} {sign : Occurrence}
    (hsign : rest.drop (parametersSize rest) = sign :: after) (hequals : sign.kind = .equals)
    (hends : ∀ o ∈ (rest.take (parametersSize rest) ++ sign :: aliasType true 0 after).getLast?,
      EndsWith o.kind (.alias (dropSemicolon (aliasType true 0 after))))
    (hlike : Matches us (rest.take (parametersSize rest) ++ sign :: aliasType true 0 after))
    (hstops : Stops behind) : ∃ type, Layout (us ++ behind) us.length (.alias type) := by
  obtain ⟨params, own, rfl, hparams, hown⟩ := hlike.append
  obtain ⟨sign', type, rfl, hsign', htype⟩ := hown.cons
  obtain ⟨hwritten, hclosed, hlast⟩ := EndsWith.of_type hequals hends
  have hkind : sign'.kind = .equals := (kind_of_seen hsign').trans hequals
  have hagain := aliasType_again htype (fun _ => hwritten) hclosed hlast hstops
  have hsize : parametersSize (params ++ (sign' :: (type ++ behind))) = params.length := by
    refine parametersSize_again ?_ hparams ?_ <;> rw [hsign]
    · change sign.kind ≠ .ending
      simp [hequals]
    · exact kind_of_seen hsign'
  refine ⟨dropSemicolon type, ?_⟩
  rw [List.append_assoc, List.cons_append]
  refine layout_alias ?_ hkind hagain ?_
  · rw [hsize, List.drop_left]
  · rw [hsize, List.length_append, List.length_cons]
    omega

theorem interface_again {head after members : List Occurrence}
    (hhead : interfaceHead? 0 (rest.drop (parametersSize rest)) = some (head, after))
    (hmembers : block? 0 after = some members) {opening closing : Occurrence}
    (hopening : opening.kind = .leftBrace) (hclosing : closing.kind = .rightBrace)
    (hlike : Matches us
      (rest.take (parametersSize rest) ++ (head ++ opening :: (members ++ [closing])))) :
    ∃ bases members, Layout (us ++ behind) us.length (.interface bases members) := by
  obtain ⟨params, own, rfl, hparams, hown⟩ := hlike.append
  obtain ⟨head', own, rfl, hhead', hown⟩ := hown.append
  obtain ⟨opening', own, rfl, hopening', hown⟩ := hown.cons
  obtain ⟨members', own, rfl, hmembers', hown⟩ := hown.append
  obtain ⟨closing', own, rfl, hclosing', hown⟩ := hown.cons
  obtain rfl := hown.nil
  have hopen : opening'.kind = .leftBrace := (kind_of_seen hopening').trans hopening
  have hclose : closing'.kind = .rightBrace := (kind_of_seen hclosing').trans hclosing
  have hagain := interfaceHead?_again hhead hhead' hopen (members' ++ closing' :: behind)
  have hblock := block?_again hmembers hmembers' hclose behind
  have hsize : parametersSize (params ++ (head' ++ opening' :: (members' ++ closing' :: behind))) =
      params.length := by
    refine parametersSize_again (headKind_ne_ending_of_head hhead) hparams ?_
    obtain ⟨opening, hsplit, hkind⟩ := interfaceHead?_split hhead
    rw [hsplit]
    exact hhead'.headKind_append (Or.inr (hopen.trans hkind.symm))
  refine ⟨afterExtends 0 head', members', ?_⟩
  have hassoc : params ++ (head' ++ opening' :: (members' ++ [closing'])) ++ behind =
      params ++ (head' ++ opening' :: (members' ++ closing' :: behind)) := by simp
  rw [hassoc]
  refine .ofInterface ?_ hblock ?_
  · rw [hsize, List.drop_left, hagain]
  · simp only [hsize, List.length_append, List.length_cons, List.length_nil]
    omega

end Again

/-- The tokens that a declaration takes behind its name are taken again in front of what ends the
type of an alias. -/
theorem Layout.again {rest us behind : List Occurrence} {size : Nat} {body : SiteBody}
    (h : Layout rest size body) (hends : ∀ o ∈ (rest.take size).getLast?, EndsWith o.kind body)
    (hlike : Matches us (rest.take size)) (hstops : Stops behind) :
    ∃ body', Layout (us ++ behind) us.length body' ∧ body'.keyword = body.keyword := by
  cases h with
  | ofAlias hsign hequals hsize =>
    rw [hsize, take_alias hsign] at hlike hends
    obtain ⟨type, hlayout⟩ := alias_again hsign hequals hends hlike hstops
    exact ⟨_, hlayout, rfl⟩
  | ofInterface hhead hmembers hsize =>
    obtain ⟨opening, closing, hopening, hclosing, htake⟩ := take_interface hhead hmembers
    rw [hsize, htake] at hlike
    obtain ⟨bases, members, hlayout⟩ := interface_again hhead hmembers hopening hclosing hlike
    exact ⟨_, hlayout, rfl⟩

theorem aliasType_ne_ending (first : Bool) (depth : Nat) (os : List Occurrence) :
    ∀ o ∈ aliasType first depth os, o.kind ≠ .ending := by
  induction os generalizing first depth with
  | nil => simp [aliasType]
  | cons o rest ih =>
    rcases aliasType_cases first depth o rest with hnil | ⟨hsemicolon, hsingle⟩ | hgoes
    · simp [hnil]
    · simp [hsingle, hsemicolon.2]
    · rw [hgoes.aliasType_eq]
      exact List.forall_mem_cons.mpr ⟨hgoes.ending, ih _ _⟩

/-- The last token of a declaration is not the ending of the source. -/
theorem last_ne_ending {os : List Occurrence} {site : Site} (h : ofFront? os = some site) :
    ∀ o ∈ site.occurrences.getLast?, o.kind ≠ .ending := by
  obtain ⟨modifiers, keyword, name, rest, size, hmade⟩ := madeOf_of_ofFront? h
  have hlayout := hmade.layout
  -- What stands last in a part that ends the declaration stands last in the declaration.
  have hend (front : List Occurrence) (part : List Occurrence) (hne : part ≠ [])
      (htake : rest.take size = front ++ part) :
      site.occurrences.getLast? = part.getLast? := by
    have hsplit : site.occurrences = modifiers ++ keyword :: name :: front ++ part := by
      rw [hmade.takes, htake]
      simp
    rw [hsplit, List.getLast?_append_of_ne_nil _ hne]
  generalize site.body = body at hlayout
  intro o ho
  cases hlayout with
  | @ofAlias sign behind hsign hequals hsize =>
    have hkinds : ∀ o ∈ sign :: aliasType true 0 behind, o.kind ≠ .ending :=
      List.forall_mem_cons.mpr ⟨by simp [hequals], aliasType_ne_ending true 0 behind⟩
    rw [hend _ _ (by simp) (hsize ▸ take_alias hsign)] at ho
    exact hkinds o (List.mem_of_getLast? ho)
  | ofInterface hhead hmembers hsize =>
    obtain ⟨opening, closing, _, hclosing, htake⟩ := take_interface hhead hmembers
    rw [hend _ _ (by simp) (hsize ▸ htake)] at ho
    obtain rfl := Option.mem_unique ho (List.mem_getLast?_append_of_mem_getLast?
      (List.mem_getLast?_cons List.getLast?_concat))
    simp [hclosing]

/-- The modifiers in front of a keyword and a name are counted by their kinds. -/
theorem modifierCount_front {modifiers modifiers' rest rest' : List Occurrence}
    {keyword keyword' name name' : Occurrence}
    (hmodifiers : modifiers'.map kind = modifiers.map kind)
    (hkeyword : keyword'.kind = keyword.kind) (hname : name'.kind = name.kind) :
    modifierCount (modifiers' ++ keyword' :: name' :: rest') =
      modifierCount (modifiers ++ keyword :: name :: rest) := by
  have hfront (front more : List Kind) (first second : Kind) :
      (front ++ first :: second :: more).take 2 = (front ++ [first, second]).take 2 := by
    have hsplit : front ++ first :: second :: more = front ++ [first, second] ++ more := by simp
    rw [hsplit]
    exact List.take_append_of_le_length (by simp)
  apply modifierCount_congr
  simp only [List.map_take, List.map_append, List.map_cons, hfront, hmodifiers, hkeyword, hname]

/-- What resembles a declaration that ends by itself is a declaration of the same name in front of
whatever ends the type of an alias. -/
theorem ofFront?_again {os us behind : List Occurrence} {site : Site} (h : ofFront? os = some site)
    (hends : ∀ o ∈ site.occurrences.getLast?, EndsWith o.kind site.body)
    (hlike : Resembles us site) (hstops : Stops behind) :
    ∃ again, ofFront? (us ++ behind) = some again ∧ again.name = site.name ∧
      again.occurrences = us := by
  obtain ⟨modifiers, keyword, name, rest, size, hmade⟩ := madeOf_of_ofFront? h
  obtain ⟨modifiers', keyword', name', own, rfl, hmodifiers, hkeyword, hname, hrest⟩ :=
    hlike.split hmade
  have hlast : ∀ o ∈ (rest.take size).getLast?, EndsWith o.kind site.body := by
    intro o ho
    apply hends
    rw [hmade.takes]
    apply List.mem_getLast?_append_of_mem_getLast?
    exact List.mem_getLast?_cons (List.mem_getLast?_cons ho)
  obtain ⟨body, hlayout, hbody⟩ := hmade.layout.again hlast hrest hstops
  let again : Site := ⟨name'.token.value, modifiers' ++ keyword' :: name' :: own, body⟩
  have hagain : again.MadeOf (modifiers' ++ keyword' :: name' :: (own ++ behind)) modifiers'
      keyword' name' (own ++ behind) own.length :=
    { split := rfl
      length := by
        rw [modifierCount_front hmodifiers hkeyword (kind_of_seen hname), ← hmade.split,
          hmade.length]
        simpa using (congrArg List.length hmodifiers).symm
      declares := by rw [hkeyword, hmade.declares, hbody]
      names := ⟨by rw [kind_of_seen hname]; exact hmade.names.1, rfl⟩
      layout := hlayout
      takes := by rw [List.take_left] }
  rw [List.append_assoc]
  exact ⟨again, hagain.ofFront?_eq, (value_of_seen hname).trans hmade.names.2.symm, rfl⟩

end Site

end TypeInliner

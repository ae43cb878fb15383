import TypeInliner.Proofs.SourceTiling
import TypeInliner.Proofs.StatementText

/-! # The grammar of import statements

Derivations say which tokens write which import statement, without any looking ahead: `type`, `as`
and `from` are tokens like all other names there, and a side condition stands only where two
derivations would meet. The reader accepts exactly the texts whose tokens have a derivation, and
what it reads is what they derive. -/

namespace TypeInliner

namespace ImportSpec

/-! ## Derivations -/

/-- Exported names are written as names or as strings. -/
def IsExportedName (t : Token) : Prop := t.kind = .string ∨ t.kind.isName = true

/-- Tokens of one item, in a clause that is itself marked as a type import or not. An item that
begins with `type as` and a further name imports `type` under that name, unless it is `as`: behind
`type as as` the name `as` is given a new name. -/
inductive WritesItem (clauseType : Bool) : List Token → NamedImport → Prop
  | name {n : Token} (exported : IsExportedName n) :
      WritesItem clauseType [n] ⟨clauseType, none, n.value⟩
  | modified {m n : Token} (modifier : m.kind = .keyword .typeWord) (exported : IsExportedName n) :
      WritesItem clauseType [m, n] ⟨true, none, n.value⟩
  | renamed {n a w : Token} (exported : IsExportedName n) (as : a.kind = .keyword .asWord)
      (isName : w.kind.isName = true)
      (unmodified : n.kind = .keyword .typeWord → w.kind ≠ .keyword .asWord) :
      WritesItem clauseType [n, a, w] ⟨clauseType, some w.value, n.value⟩
  | modifiedRenamed {m n a w : Token} (modifier : m.kind = .keyword .typeWord)
      (exported : IsExportedName n) (as : a.kind = .keyword .asWord)
      (isName : w.kind.isName = true) :
      WritesItem clauseType [m, n, a, w] ⟨true, some w.value, n.value⟩

/-- Tokens between the braces of a clause. -/
inductive WritesItems (clauseType : Bool) : List Token → List NamedImport → Prop
  | last {us : List Token} {i : NamedImport} (item : WritesItem clauseType us i) :
      WritesItems clauseType us [i]
  | trailing {us : List Token} {i : NamedImport} {comma : Token}
      (item : WritesItem clauseType us i) (separator : comma.kind = .comma) :
      WritesItems clauseType (us ++ [comma]) [i]
  | more {us vs : List Token} {i : NamedImport} {others : List NamedImport} {comma : Token}
      (item : WritesItem clauseType us i) (separator : comma.kind = .comma)
      (behind : WritesItems clauseType vs others) :
      WritesItems clauseType (us ++ comma :: vs) (i :: others)

/-- Tokens of the module specifier. -/
inductive WritesSource : List Token → Text → Prop
  | mk {f s : Token} (from' : f.kind = .keyword .fromWord) (specifier : s.kind = .string) :
      WritesSource [f, s] s.value

/-- Tokens of the bindings of a statement, with the module specifier. -/
inductive WritesBindings (clauseType : Bool) : List Token → ImportSpec → Prop
  | default {w : Token} {us : List Token} {source : Text} (isName : w.kind.isName = true)
      (from' : WritesSource us source) :
      WritesBindings clauseType (w :: us) (.default w.value source)
  | whole {star a w : Token} {us : List Token} {source : Text} (all : star.kind = .star)
      (as : a.kind = .keyword .asWord) (isName : w.kind.isName = true)
      (from' : WritesSource us source) :
      WritesBindings clauseType (star :: a :: w :: us) (.whole w.value source)
  | named {opening closing : Token} {us vs : List Token} {items : List NamedImport} {source : Text}
      (opens : opening.kind = .leftBrace) (clause : WritesItems clauseType us items)
      (closes : closing.kind = .rightBrace) (from' : WritesSource vs source) :
      WritesBindings clauseType (opening :: (us ++ closing :: vs)) (.named items source)

/-- Tokens of a statement up to its module specifier. In front of `from` the word `type` is the
default binding. -/
inductive WritesStatement : List Token → ImportSpec → Prop
  | plain {keyword : Token} {us : List Token} {spec : ImportSpec}
      (begins : keyword.kind = .keyword .importWord) (bindings : WritesBindings false us spec) :
      WritesStatement (keyword :: us) spec
  | typed {keyword m : Token} {us : List Token} {spec : ImportSpec}
      (begins : keyword.kind = .keyword .importWord) (modifier : m.kind = .keyword .typeWord)
      (bindings : WritesBindings true us spec) (others : headKind? us ≠ some (.keyword .fromWord)) :
      WritesStatement (keyword :: m :: us) spec

/-- Tokens that hold one statement and nothing else: a semicolon may follow it, and the end does. -/
inductive Writes : List Token → ImportSpec → Prop
  | mk {us terminator : List Token} {ending : Token} {spec : ImportSpec}
      (statement : WritesStatement us spec)
      (terminated : terminator = [] ∨ ∃ t, terminator = [t] ∧ t.kind = .semicolon)
      (ends : ending.kind = .ending) : Writes (us ++ terminator ++ [ending]) spec

/-! ## Items -/

theorem WritesItem.exists_first {clauseType : Bool} {us : List Token} {i : NamedImport}
    (h : WritesItem clauseType us i) : ∃ t others, us = t :: others ∧ IsExportedName t := by
  cases h with
  | name exported => exact ⟨_, _, rfl, exported⟩
  | modified modifier => exact ⟨_, _, rfl, Or.inr (by rw [modifier]; rfl)⟩
  | renamed exported => exact ⟨_, _, rfl, exported⟩
  | modifiedRenamed modifier => exact ⟨_, _, rfl, Or.inr (by rw [modifier]; rfl)⟩

theorem typeModifier_of_modifies {m : Token} {tokens : List Token}
    (hm : m.kind = .keyword .typeWord) (h : modifies tokens = true) :
    typeModifier (m :: tokens) = (true, tokens) := by
  rw [typeModifier, if_pos ⟨hm, h⟩]

theorem typeModifier_of_not {t : Token} {tokens : List Token}
    (h : t.kind = .keyword .typeWord → modifies tokens = false) :
    typeModifier (t :: tokens) = (false, t :: tokens) := by
  rw [typeModifier, if_neg]
  rintro ⟨ht, hmodifies⟩
  rw [h ht] at hmodifies
  simp at hmodifies

/-- Where the word `type` does not modify a name, it is the name itself. -/
theorem modifies_as {a w : Token} (tokens : List Token) (ha : a.kind = .keyword .asWord)
    (hw : w.kind.isName = true) :
    modifies (a :: w :: tokens) = decide (w.kind = .keyword .asWord) := by
  simp [modifies, ha, hw]

theorem item_writes {clauseType : Bool} {tokens rest : List Token} {i : NamedImport}
    (h : item clauseType tokens = .ok (i, rest)) :
    ∃ used, tokens = used ++ rest ∧ WritesItem clauseType used i := by
  rw [item_eq] at h
  obtain ⟨⟨names, after⟩, hnames, hi⟩ := map_ok.mp h
  obtain ⟨rfl, rfl⟩ := Prod.mk.inj hi
  obtain ⟨n, hn, hbehind⟩ := renamedItem_ok.mp hnames
  cases tokens with
  | nil => simp [typeModifier] at hbehind
  | cons m tokens =>
    by_cases hmodifier : m.kind = .keyword .typeWord ∧ modifies tokens = true
    · rw [typeModifier_of_modifies hmodifier.1 hmodifier.2] at hbehind ⊢
      rw [Bool.or_true]
      rcases hbehind with ⟨rfl, _, rfl⟩ | ⟨a, w, rfl, ha, hw, rfl⟩
      · exact ⟨[m, n], rfl, .modified hmodifier.1 hn⟩
      · exact ⟨[m, n, a, w], rfl, .modifiedRenamed hmodifier.1 hn ha hw⟩
    · rw [typeModifier, if_neg hmodifier] at hbehind ⊢
      rw [Bool.or_false]
      rcases hbehind with ⟨hsplit, _, rfl⟩ | ⟨a, w, hsplit, ha, hw, rfl⟩
      · obtain ⟨rfl, rfl⟩ := List.cons.inj hsplit
        exact ⟨[m], rfl, .name hn⟩
      · obtain ⟨rfl, rfl⟩ := List.cons.inj hsplit
        refine ⟨[m, a, w], rfl, .renamed hn ha hw fun htype has => hmodifier ⟨htype, ?_⟩⟩
        rw [modifies_as _ ha hw]
        exact decide_eq_true has

/-- Behind an item stands a comma or the closing brace of the clause. -/
def Delimits (tokens : List Token) : Prop :=
  headKind? tokens = some .comma ∨ headKind? tokens = some .rightBrace

theorem Delimits.exists_first {tokens : List Token} (h : Delimits tokens) :
    ∃ t rest, tokens = t :: rest ∧ (t.kind = .comma ∨ t.kind = .rightBrace) := by
  cases tokens with
  | nil => simp [Delimits, headKind?] at h
  | cons t rest => exact ⟨t, rest, rfl, by simpa [Delimits, headKind?] using h⟩

theorem Delimits.headKind_ne_as {tokens : List Token} (h : Delimits tokens) :
    headKind? tokens ≠ some (.keyword .asWord) := by
  rcases h with h | h <;> simp [h]

theorem modifies_delimited {tokens : List Token} (h : Delimits tokens) :
    modifies tokens = false := by
  obtain ⟨t, rest, rfl, ht | ht⟩ := h.exists_first <;>
    simp [modifies, ht, Kind.isName, Kind.isKeyword]

/-- The word `type` modifies the exported name behind it, whether another name is given to this or
not, except where the other name is given to `type` itself. -/
theorem modifies_name {n : Token} {tokens : List Token} (hn : IsExportedName n)
    (h : n.kind = .keyword .asWord → Delimits tokens ∨
      headKind? tokens = some (.keyword .asWord)) : modifies (n :: tokens) = true := by
  simp only [modifies]
  by_cases has : n.kind = .keyword .asWord
  · rw [if_pos has]
    rcases h has with hbehind | hbehind
    · obtain ⟨t, rest, rfl, ht | ht⟩ := hbehind.exists_first <;>
        simp [ht, Kind.isName, Kind.isKeyword]
    · cases tokens with
      | nil => rfl
      | cons t rest =>
        have ht : t.kind = .keyword .asWord := by simpa [headKind?] using hbehind
        simp [ht]
  · rw [if_neg has]
    rcases hn with hn | hn <;> simp [hn]

theorem WritesItem.item_eq_ok {clauseType : Bool} {used rest : List Token} {i : NamedImport}
    (h : WritesItem clauseType used i) (hrest : Delimits rest) :
    item clauseType (used ++ rest) = .ok (i, rest) := by
  rw [item_eq]
  cases h with
  | @name n hn =>
    have hmodifier : typeModifier ([n] ++ rest) = (false, n :: rest) :=
      typeModifier_of_not fun _ => modifies_delimited hrest
    rw [hmodifier, Bool.or_false]
    exact map_ok.mpr ⟨_, renamedItem_ok.mpr ⟨n, hn, Or.inl ⟨rfl, hrest.headKind_ne_as, rfl⟩⟩, rfl⟩
  | @modified m n hm hn =>
    have hmodifier : typeModifier ([m, n] ++ rest) = (true, n :: rest) :=
      typeModifier_of_modifies hm (modifies_name hn fun _ => Or.inl hrest)
    rw [hmodifier, Bool.or_true]
    exact map_ok.mpr ⟨_, renamedItem_ok.mpr ⟨n, hn, Or.inl ⟨rfl, hrest.headKind_ne_as, rfl⟩⟩, rfl⟩
  | @renamed n a w hn ha hw hunmodified =>
    have hmodifier : typeModifier ([n, a, w] ++ rest) = (false, n :: a :: w :: rest) := by
      refine typeModifier_of_not fun htype => ?_
      have hother := hunmodified htype
      change modifies (a :: w :: rest) = false
      rw [modifies_as _ ha hw]
      exact decide_eq_false hother
    rw [hmodifier, Bool.or_false]
    exact map_ok.mpr ⟨_, renamedItem_ok.mpr ⟨n, hn, Or.inr ⟨a, w, rfl, ha, hw, rfl⟩⟩, rfl⟩
  | @modifiedRenamed m n a w hm hn ha hw =>
    have hmodifier : typeModifier ([m, n, a, w] ++ rest) = (true, n :: a :: w :: rest) :=
      typeModifier_of_modifies hm (modifies_name hn fun _ => Or.inr (congrArg some ha))
    rw [hmodifier, Bool.or_true]
    exact map_ok.mpr ⟨_, renamedItem_ok.mpr ⟨n, hn, Or.inr ⟨a, w, rfl, ha, hw, rfl⟩⟩, rfl⟩

/-! ## Clauses -/

theorem clauseItems_closed {clauseType : Bool} {closing : Token} {rest : List Token}
    (h : closing.kind = .rightBrace) :
    clauseItems clauseType (closing :: rest) = .ok ([], closing :: rest) := by
  rw [clauseItems, if_pos]
  exact Or.inl h

theorem clauseItems_writes {clauseType : Bool} {tokens rest : List Token}
    {items : List NamedImport} (h : clauseItems clauseType tokens = .ok (items, rest)) :
    items = [] ∧ tokens = rest ∨
      ∃ used, tokens = used ++ rest ∧ WritesItems clauseType used items := by
  induction hn : tokens.length using Nat.strongRecOn generalizing tokens items with
  | ind n ih =>
    by_cases hend : (current tokens).kind = .rightBrace ∨ (current tokens).kind = .ending
    · rw [clauseItems, if_pos hend] at h
      obtain ⟨rfl, rfl⟩ := Prod.mk.inj (Except.ok.inj h)
      exact Or.inl ⟨rfl, rfl⟩
    cases hitem : item clauseType tokens with
    | error e =>
      rw [clauseItems, if_neg hend] at h
      split at h <;> simp_all
    | ok result =>
      obtain ⟨first, after⟩ := result
      obtain ⟨used, hsplit, hwrites⟩ := item_writes hitem
      have hlength := item_length hitem
      rw [clauseItems_eq hend hitem] at h
      refine Or.inr ?_
      rcases itemsFrom_cases h with ⟨_, rfl, rfl⟩ | ⟨t, more, others, rfl, ht, hothers, rfl⟩
      · exact ⟨used, hsplit, .last hwrites⟩
      · rw [List.length_cons] at hlength
        rcases ih more.length (by omega) hothers rfl with ⟨rfl, rfl⟩ | ⟨behind, rfl, hbehind⟩
        · exact ⟨used ++ [t], by rw [hsplit, List.append_assoc]; rfl, .trailing hwrites ht⟩
        · exact ⟨used ++ t :: behind, by rw [hsplit, List.append_assoc]; rfl,
            .more hwrites ht hbehind⟩

theorem WritesItem.clauseItems_eq_from {clauseType : Bool} {used rest : List Token}
    {i : NamedImport} (h : WritesItem clauseType used i) (hrest : Delimits rest) :
    clauseItems clauseType (used ++ rest) = itemsFrom clauseType i rest := by
  refine clauseItems_eq ?_ (h.item_eq_ok hrest)
  obtain ⟨t, others, rfl, ht | ht⟩ := h.exists_first
  · simp [current, ht]
  · rintro (hkind | hkind)
    all_goals
      change t.kind = _ at hkind
      simp [hkind, Kind.isName, Kind.isKeyword] at ht

theorem WritesItems.clauseItems_eq_ok {clauseType : Bool} {used : List Token}
    {items : List NamedImport} (h : WritesItems clauseType used items) {closing : Token}
    (hclosing : closing.kind = .rightBrace) (rest : List Token) :
    clauseItems clauseType (used ++ closing :: rest) = .ok (items, closing :: rest) := by
  have hkind : headKind? (closing :: rest) = some .rightBrace := congrArg some hclosing
  have hclosed : clauseItems clauseType (closing :: rest) = .ok ([], closing :: rest) :=
    clauseItems_closed hclosing
  induction h with
  | last hitem =>
    rw [hitem.clauseItems_eq_from (Or.inr hkind), itemsFrom_last (Or.inr hkind)]
  | @trailing us i comma hitem hcomma =>
    have hdelimits : Delimits (comma :: closing :: rest) := Or.inl (congrArg some hcomma)
    rw [List.append_assoc, List.singleton_append, hitem.clauseItems_eq_from hdelimits,
      itemsFrom_comma hcomma hclosed]
  | @more us vs i others comma hitem hcomma _ ih =>
    have hdelimits : Delimits (comma :: (vs ++ closing :: rest)) := Or.inl (congrArg some hcomma)
    rw [List.append_assoc, List.cons_append, hitem.clauseItems_eq_from hdelimits,
      itemsFrom_comma hcomma ih]

theorem WritesItems.ne_nil {clauseType : Bool} {used : List Token} {items : List NamedImport}
    (h : WritesItems clauseType used items) : items ≠ [] := by
  cases h <;> simp

/-- Between its braces a clause holds at least one item, and the items that its tokens write. -/
theorem namedClause_ok {clauseType : Bool} {tokens rest : List Token} {items : List NamedImport} :
    namedClause clauseType tokens = .ok (items, rest) ↔ ∃ opening used closing,
      tokens = opening :: (used ++ closing :: rest) ∧ opening.kind = .leftBrace ∧
        WritesItems clauseType used items ∧ closing.kind = .rightBrace := by
  change (expect .leftBrace tokens >>= fun result => clauseBehind clauseType result.1 result.2) =
    .ok (items, rest) ↔ _
  constructor
  · intro h
    obtain ⟨⟨opening, middle⟩, hopening, hbehind⟩ := bind_ok.mp h
    obtain ⟨rfl, hopens⟩ := expect_ok.mp hopening
    obtain ⟨closing, hitems, hcloses, hne⟩ := clauseBehind_ok.mp hbehind
    rcases clauseItems_writes hitems with ⟨rfl, _⟩ | ⟨used, rfl, hwrites⟩
    · exact absurd rfl hne
    · exact ⟨opening, used, closing, rfl, hopens, hwrites, hcloses⟩
  · rintro ⟨opening, used, closing, rfl, hopens, hwrites, hcloses⟩
    refine bind_ok.mpr ⟨_, expect_ok.mpr ⟨rfl, hopens⟩, clauseBehind_ok.mpr ⟨closing, ?_⟩⟩
    exact ⟨hwrites.clauseItems_eq_ok hcloses rest, hcloses, hwrites.ne_nil⟩

/-! ## Bindings -/

theorem Kind.eq_of_isName {kind : Kind} (h : kind.isName = true) :
    kind = .identifier ∨ ∃ word, kind = .keyword word := by
  cases kind <;> simp_all [Kind.isName, Kind.isKeyword]

theorem fromClause_writes {tokens rest : List Token} {source : Text} :
    fromClause tokens = .ok (source, rest) ↔
      ∃ used, tokens = used ++ rest ∧ WritesSource used source := by
  rw [fromClause_ok]
  constructor
  · rintro ⟨f, s, rfl, hf, hs, rfl⟩
    exact ⟨[f, s], rfl, ⟨hf, hs⟩⟩
  · rintro ⟨used, rfl, hf, hs⟩
    exact ⟨_, _, rfl, hf, hs, rfl⟩

theorem completed_ok {make : Text → ImportSpec} {tokens rest : List Token} {spec : ImportSpec} :
    completed make tokens = .ok (spec, rest) ↔
      ∃ used source, tokens = used ++ rest ∧ WritesSource used source ∧ spec = make source := by
  constructor
  · intro h
    obtain ⟨⟨source, after⟩, hfrom, hresult⟩ := bind_ok.mp h
    obtain ⟨rfl, rfl⟩ := Prod.mk.inj (Except.ok.inj hresult)
    obtain ⟨used, rfl, hsource⟩ := fromClause_writes.mp hfrom
    exact ⟨used, source, rfl, hsource, rfl⟩
  · rintro ⟨used, source, rfl, hsource, rfl⟩
    exact bind_ok.mpr ⟨_, fromClause_writes.mpr ⟨used, rfl, hsource⟩, rfl⟩

theorem bindings_writes {keyword : Span} {clauseType : Bool} {tokens rest : List Token}
    {spec : ImportSpec} (h : bindings keyword clauseType tokens = .ok (spec, rest)) :
    ∃ used, tokens = used ++ rest ∧ WritesBindings clauseType used spec := by
  rw [bindings_eq] at h
  split at h
  · simp at h
  · obtain ⟨⟨star, _⟩, hstar, hbehind⟩ := bind_ok.mp h
    obtain ⟨rfl, hall⟩ := expect_ok.mp hstar
    obtain ⟨⟨a, _⟩, ha, hname⟩ := bind_ok.mp hbehind
    obtain ⟨rfl, has⟩ := expect_ok.mp ha
    obtain ⟨⟨name, _⟩, hw, hfrom⟩ := bind_ok.mp hname
    obtain ⟨w, rfl, hisName, rfl⟩ := bindingName_ok.mp hw
    obtain ⟨used, source, rfl, hsource, rfl⟩ := completed_ok.mp hfrom
    exact ⟨star :: a :: w :: used, rfl, .whole hall has hisName hsource⟩
  · obtain ⟨⟨items, _⟩, hitems, hfrom⟩ := bind_ok.mp h
    obtain ⟨opening, inner, closing, rfl, hopens, hwrites, hcloses⟩ := namedClause_ok.mp hitems
    obtain ⟨used, source, rfl, hsource, rfl⟩ := completed_ok.mp hfrom
    exact ⟨opening :: (inner ++ closing :: used), by simp, .named hopens hwrites hcloses hsource⟩
  · split at h
    · obtain ⟨name, source, middle, hname, hfrom, rfl⟩ := defaultBinding_ok.mp h
      obtain ⟨w, rfl, hw, rfl⟩ := bindingName_ok.mp hname
      obtain ⟨used, rfl, hsource⟩ := fromClause_writes.mp hfrom
      exact ⟨w :: used, rfl, .default hw hsource⟩
    · simp at h

theorem WritesBindings.bindings_eq_ok {clauseType : Bool} {used : List Token} {spec : ImportSpec}
    (h : WritesBindings clauseType used spec) (keyword : Span) (rest : List Token) :
    bindings keyword clauseType (used ++ rest) = .ok (spec, rest) := by
  rw [bindings_eq]
  cases h with
  | @default w us source hw hsource =>
    have hread : defaultBinding keyword (w :: us ++ rest) = .ok (.default w.value source, rest) :=
      defaultBinding_ok.mpr ⟨w.value, source, us ++ rest, bindingName_ok.mpr ⟨w, rfl, hw, rfl⟩,
        fromClause_writes.mpr ⟨us, rfl, hsource⟩, rfl⟩
    have hkind : (current (w :: us ++ rest)).kind = w.kind := rfl
    rw [hkind]
    rcases Kind.eq_of_isName hw with hw' | ⟨word, hw'⟩ <;> rw [hw'] <;> exact hread
  | @whole star a w us source hall has hw hsource =>
    have hkind : (current (star :: a :: w :: us ++ rest)).kind = .star := hall
    rw [hkind]
    refine bind_ok.mpr ⟨_, expect_ok.mpr ⟨rfl, hall⟩, ?_⟩
    refine bind_ok.mpr ⟨_, expect_ok.mpr ⟨rfl, has⟩, ?_⟩
    refine bind_ok.mpr ⟨_, bindingName_ok.mpr ⟨w, rfl, hw, rfl⟩, ?_⟩
    exact completed_ok.mpr ⟨us, source, rfl, hsource, rfl⟩
  | @named opening closing us vs items source hopens hitems hcloses hsource =>
    have hkind : (current (opening :: (us ++ closing :: vs) ++ rest)).kind = .leftBrace := hopens
    rw [hkind]
    have hclause : namedClause clauseType (opening :: (us ++ closing :: vs) ++ rest) =
        .ok (items, vs ++ rest) :=
      namedClause_ok.mpr ⟨opening, us, closing, by simp, hopens, hitems, hcloses⟩
    exact bind_ok.mpr ⟨_, hclause, completed_ok.mpr ⟨vs, source, rfl, hsource, rfl⟩⟩

/-! ## Statements -/

theorem WritesBindings.exists_first {clauseType : Bool} {used : List Token} {spec : ImportSpec}
    (h : WritesBindings clauseType used spec) : ∃ t others, used = t :: others ∧
      t.kind ≠ .comma ∧ (t.kind = .keyword .typeWord →
        headKind? others = some (.keyword .fromWord)) := by
  cases h with
  | @default w us source hw hsource =>
    obtain ⟨hfrom, _⟩ := hsource
    refine ⟨w, _, rfl, ?_, fun _ => congrArg some hfrom⟩
    intro hcomma
    simp [hcomma, Kind.isName, Kind.isKeyword] at hw
  | whole hall => exact ⟨_, _, rfl, by simp [hall], by simp [hall]⟩
  | named hopens => exact ⟨_, _, rfl, by simp [hopens], by simp [hopens]⟩

/-- Bindings do not begin with a `type` that is taken for a modifier. -/
theorem WritesBindings.clauseModifier_plain {clauseType : Bool} {us : List Token}
    {spec : ImportSpec} (h : WritesBindings clauseType us spec) (rest : List Token) :
    clauseModifier (us ++ rest) = (false, us ++ rest) := by
  obtain ⟨t, others, rfl, _, hfrom⟩ := h.exists_first
  rw [List.cons_append, clauseModifier, if_neg]
  rintro ⟨htype, hnot⟩
  refine hnot (Or.inl ?_)
  have hnext := hfrom htype
  cases others with
  | nil => simp [headKind?] at hnext
  | cons u others => exact Option.some.inj hnext

/-- A `type` in front of bindings is a modifier, unless `from` stands behind it. -/
theorem WritesBindings.clauseModifier_typed {clauseType : Bool} {m : Token} {us : List Token}
    {spec : ImportSpec} (h : WritesBindings clauseType us spec)
    (hm : m.kind = .keyword .typeWord) (hfrom : headKind? us ≠ some (.keyword .fromWord))
    (rest : List Token) : clauseModifier (m :: (us ++ rest)) = (true, us ++ rest) := by
  obtain ⟨t, others, rfl, hcomma, _⟩ := h.exists_first
  rw [clauseModifier, if_pos]
  refine ⟨hm, ?_⟩
  rintro (hnext | hnext)
  · exact hfrom (congrArg some hnext)
  · exact hcomma hnext

theorem WritesBindings.unterminated_eq_ok {clauseType : Bool} {keyword : Token}
    {tokens us rest : List Token} {spec : ImportSpec} (h : WritesBindings clauseType us spec)
    (hbegins : keyword.kind = .keyword .importWord)
    (hmodifier : clauseModifier tokens = (clauseType, us ++ rest)) :
    unterminated (keyword :: tokens) = .ok (spec, rest) := by
  refine bind_ok.mpr ⟨_, expect_ok.mpr ⟨rfl, hbegins⟩, ?_⟩
  change bindings keyword.span (clauseModifier tokens).1 (clauseModifier tokens).2 = _
  rw [hmodifier]
  exact h.bindings_eq_ok keyword.span rest

/-- A statement is read up to its module specifier, whatever follows, exactly if the tokens that
are read derive what is read. -/
theorem unterminated_ok {tokens rest : List Token} {spec : ImportSpec} :
    unterminated tokens = .ok (spec, rest) ↔
      ∃ used, tokens = used ++ rest ∧ WritesStatement used spec := by
  constructor
  · intro h
    obtain ⟨⟨keyword, middle⟩, hkeyword, hbindings⟩ := bind_ok.mp h
    obtain ⟨rfl, hbegins⟩ := expect_ok.mp hkeyword
    dsimp only at hbindings
    rcases clauseModifier_cases middle with hplain | ⟨m, us, rfl, hm, hothers, htyped⟩
    · rw [hplain] at hbindings
      obtain ⟨used, rfl, hwrites⟩ := bindings_writes hbindings
      exact ⟨keyword :: used, rfl, .plain hbegins hwrites⟩
    · rw [htyped] at hbindings
      obtain ⟨used, rfl, hwrites⟩ := bindings_writes hbindings
      refine ⟨keyword :: m :: used, rfl, .typed hbegins hm hwrites ?_⟩
      obtain ⟨t, others, rfl, _⟩ := hwrites.exists_first
      exact hothers
  · rintro ⟨used, rfl, hwrites⟩
    cases hwrites with
    | plain hbegins hbindings =>
      exact hbindings.unterminated_eq_ok hbegins (hbindings.clauseModifier_plain rest)
    | typed hbegins hm hbindings hothers =>
      exact hbindings.unterminated_eq_ok hbegins (hbindings.clauseModifier_typed hm hothers rest)

theorem Writes.unterminated_eq {tokens : List Token} {spec : ImportSpec}
    (h : Writes tokens spec) : ∃ rest, unterminated tokens = .ok (spec, rest) ∧
      (current (dropSemicolon rest)).kind = .ending := by
  obtain ⟨hwrites, hterminator, hend⟩ := h
  refine ⟨_ ++ [_], unterminated_ok.mpr ⟨_, List.append_assoc .., hwrites⟩, ?_⟩
  rcases hterminator with rfl | ⟨t, rfl, ht⟩
  · simp [dropSemicolon, current, hend]
  · simp [dropSemicolon, current, ht, hend]

/-- Tokens write one statement at most. -/
theorem Writes.unique {tokens : List Token} {spec spec' : ImportSpec} (h : Writes tokens spec)
    (h' : Writes tokens spec') : spec = spec' := by
  obtain ⟨_, hread, _⟩ := h.unterminated_eq
  obtain ⟨_, hread', _⟩ := h'.unterminated_eq
  rw [hread] at hread'
  exact (Prod.mk.inj (Except.ok.inj hread')).1

theorem WritesStatement.isPlain {us : List Token} {spec : ImportSpec}
    (h : WritesStatement us spec) : ∀ t ∈ us, IsPlain t.kind := by
  obtain ⟨first, others, htakes⟩ :=
    unterminated_takes (unterminated_ok.mpr ⟨us, (List.append_nil us).symm, h⟩)
  have hsplit := htakes.split
  rw [List.append_nil] at hsplit
  rw [hsplit]
  exact htakes.plain

/-- Where nothing but a semicolon stands between a statement and the ending of a text, the tokens
of the text write the statement. -/
theorem writes_of_unterminated {text : Text} {rest : List Token} {spec : ImportSpec}
    (hread : unterminated (Token.ofText text) = .ok (spec, rest))
    (hend : (current (dropSemicolon rest)).kind = .ending) : Writes (Token.ofText text) spec := by
  obtain ⟨used, hsplit, hwrites⟩ := unterminated_ok.mp hread
  obtain ⟨terminator, hrest, hterminator⟩ := ImportStatement.exists_terminator rest
  obtain ⟨others, last, htext, hlast, _, hothers⟩ := Token.exists_ending text
  rw [hrest, ← List.append_assoc] at hsplit
  cases hbehind : dropSemicolon rest with
  | nil =>
    -- Neither the statement nor the semicolon is the ending.
    rw [hbehind, List.append_nil] at hsplit
    have hmem : last ∈ used ++ terminator := by
      rw [← hsplit, htext]
      simp
    rcases List.mem_append.mp hmem with hused | hsemicolon
    · exact absurd hlast (hwrites.isPlain last hused).1
    · rcases hterminator with rfl | ⟨t, rfl, ht⟩
      · simp at hsemicolon
      · rw [List.mem_singleton.mp hsemicolon, ht] at hlast
        simp at hlast
  | cons t more =>
    rw [hbehind] at hsplit hend
    have hmore : more = [] := by
      rcases List.eq_nil_or_concat more with hnil | ⟨inner, final, rfl⟩
      · exact hnil
      · have hboth := htext.symm.trans hsplit
        rw [List.concat_eq_append, ← List.cons_append, ← List.append_assoc] at hboth
        have hmem : t ∈ others := by
          rw [(List.append_inj' hboth rfl).1]
          simp
        exact absurd hend (hothers t hmem)
    rw [hsplit, hmore]
    exact .mk hwrites hterminator hend

/-- Exactly the texts whose tokens are well-formed and write a statement are read, and as the
statement that their tokens write, which is the only one. -/
theorem ofText_ok_iff_writes (text : Text) :
    (∀ spec, ofText text = .ok spec ↔ (∀ t ∈ Token.ofText text, t.kind ≠ .malformed) ∧
      Writes (Token.ofText text) spec) ∧
    ∀ spec spec', Writes (Token.ofText text) spec → Writes (Token.ofText text) spec' →
      spec = spec' := by
  refine ⟨fun spec => ?_, fun spec spec' => Writes.unique⟩
  rw [ofText, ImportStatement.ofTokens_ok]
  refine and_congr_right fun _ => ⟨?_, Writes.unterminated_eq⟩
  rintro ⟨rest, hread, hend⟩
  exact writes_of_unterminated hread hend

end ImportSpec

end TypeInliner

import Mathlib.Data.List.Basic
import TypeInliner.Import.Statement

/-! # Reading a statement depends on its tokens alone

A statement that can be read is read in the same way wherever its tokens stand: what follows them
makes no difference, and neither do their places and the gaps in front of them. -/

namespace TypeInliner

/-- What the reader of a statement sees of a token. -/
def Token.seen (t : Token) : Kind × Text := (t.kind, t.value)

/-- Tokens that the reader of a statement cannot tell apart. -/
def Alike (us vs : List Token) : Prop := us.map Token.seen = vs.map Token.seen

namespace Alike

theorem symm {us vs : List Token} (h : Alike us vs) : Alike vs us := Eq.symm h

theorem nil {us : List Token} (h : Alike us []) : us = [] := List.map_eq_nil_iff.mp h

theorem exists_kind {us vs : List Token} {u : Token} (h : Alike us vs) (hu : u ∈ us) :
    ∃ v ∈ vs, u.kind = v.kind := by
  have hseen : u.seen ∈ vs.map Token.seen := h ▸ List.mem_map_of_mem hu
  obtain ⟨v, hv, heq⟩ := List.mem_map.mp hseen
  exact ⟨v, hv, congrArg Prod.fst heq.symm⟩

theorem cons {us vs : List Token} {v : Token} (h : Alike us (v :: vs)) :
    ∃ u us', us = u :: us' ∧ u.kind = v.kind ∧ u.value = v.value ∧ Alike us' vs := by
  obtain ⟨u, us', rfl, hseen, hrest⟩ := List.map_eq_cons_iff.mp h
  exact ⟨u, us', rfl, congrArg Prod.fst hseen, congrArg Prod.snd hseen, hrest⟩

theorem append {us vs ws : List Token} (h : Alike us (vs ++ ws)) :
    ∃ us₁ us₂, us = us₁ ++ us₂ ∧ Alike us₁ vs ∧ Alike us₂ ws := by
  unfold Alike at h
  rw [List.map_append] at h
  obtain ⟨us₁, us₂, rfl, h₁, h₂⟩ := List.map_eq_append_iff.mp h
  exact ⟨us₁, us₂, rfl, h₁, h₂⟩

end Alike

namespace ImportSpec

/-- Kind of the token that follows, if there is one. -/
def headKind? (tokens : List Token) : Option Kind := tokens.head?.map Token.kind

/-- Kinds of tokens that stand for something written in the source. -/
def IsPlain (kind : Kind) : Prop := kind ≠ .ending ∧ kind ≠ .malformed

/-- A reader takes some tokens, and takes all that look like them as long as what follows begins
with the same kind. -/
structure Takes {α : Type} (reader : Reader α) (tokens used rest : List Token) (a : α) : Prop where
  split : tokens = used ++ rest
  plain : ∀ t ∈ used, IsPlain t.kind
  again {like behind : List Token} : Alike like used → headKind? behind = headKind? rest →
    reader (like ++ behind) = .ok (a, behind)

/-- The same, whatever follows. -/
structure TakesAlone {α : Type} (reader : Reader α) (tokens used rest : List Token) (a : α) :
    Prop where
  split : tokens = used ++ rest
  plain : ∀ t ∈ used, IsPlain t.kind
  again {like behind : List Token} : Alike like used → reader (like ++ behind) = .ok (a, behind)

instance (kind : Kind) : Decidable (IsPlain kind) := inferInstanceAs (Decidable (_ ∧ _))

theorem IsPlain.of_eq {kind other : Kind} (h : kind = other) (hplain : IsPlain other) :
    IsPlain kind := h ▸ hplain

theorem IsPlain.of_isName {kind : Kind} (h : kind.isName = true) : IsPlain kind := by
  constructor <;> rintro rfl <;> simp [Kind.isName, Kind.isKeyword] at h

/-! ## What each reader accepts -/

theorem bind_ok {ε α β : Type} {m : Except ε α} {next : α → Except ε β} {b : β} :
    m >>= next = .ok b ↔ ∃ a, m = .ok a ∧ next a = .ok b := by
  cases m with
  | error e =>
    constructor
    · intro h
      simp [bind, Except.bind] at h
    · rintro ⟨a, h, _⟩
      simp at h
  | ok a =>
    constructor
    · exact fun h => ⟨a, rfl, h⟩
    · rintro ⟨a', h, hb⟩
      obtain rfl := Except.ok.inj h
      exact hb

theorem expect_ok {kind : Kind} {tokens rest : List Token} {t : Token} :
    expect kind tokens = .ok (t, rest) ↔ tokens = t :: rest ∧ t.kind = kind := by
  cases tokens with
  | nil => simp [expect]
  | cons u tokens =>
    rw [expect]
    split
    · next hu =>
      simp only [Except.ok.injEq, Prod.mk.injEq, List.cons.injEq]
      constructor
      · rintro ⟨rfl, rfl⟩
        exact ⟨⟨rfl, rfl⟩, hu⟩
      · rintro ⟨⟨rfl, rfl⟩, _⟩
        exact ⟨rfl, rfl⟩
    · next hu =>
      constructor
      · intro h
        simp at h
      · rintro ⟨h, ht⟩
        obtain ⟨rfl, rfl⟩ := List.cons.inj h
        exact absurd ht hu

theorem bindingName_ok {tokens rest : List Token} {name : Text} :
    bindingName tokens = .ok (name, rest) ↔
      ∃ t, tokens = t :: rest ∧ t.kind.isName = true ∧ t.value = name := by
  cases tokens with
  | nil => simp [bindingName]
  | cons u tokens =>
    rw [bindingName]
    split
    · next hu =>
      simp only [Except.ok.injEq, Prod.mk.injEq, List.cons.injEq]
      constructor
      · rintro ⟨rfl, rfl⟩
        exact ⟨u, ⟨rfl, rfl⟩, hu, rfl⟩
      · rintro ⟨t, ⟨rfl, rfl⟩, _, rfl⟩
        exact ⟨rfl, rfl⟩
    · next hu =>
      constructor
      · intro h
        simp at h
      · rintro ⟨t, h, ht, _⟩
        obtain ⟨rfl, rfl⟩ := List.cons.inj h
        exact absurd ht hu

theorem exportedName_ok {tokens rest : List Token} {name : Text} :
    exportedName tokens = .ok (name, rest) ↔ ∃ t, tokens = t :: rest ∧
      (t.kind = .string ∨ t.kind.isName = true) ∧ t.value = name := by
  cases tokens with
  | nil => simp [exportedName, bindingName]
  | cons u tokens =>
    rw [exportedName]
    split
    · next hu =>
      simp only [Except.ok.injEq, Prod.mk.injEq, List.cons.injEq]
      constructor
      · rintro ⟨rfl, rfl⟩
        exact ⟨u, ⟨rfl, rfl⟩, Or.inl hu, rfl⟩
      · rintro ⟨t, ⟨rfl, rfl⟩, _, rfl⟩
        exact ⟨rfl, rfl⟩
    · next hu =>
      rw [bindingName_ok]
      constructor
      · rintro ⟨t, h, ht, hv⟩
        exact ⟨t, h, Or.inr ht, hv⟩
      · rintro ⟨t, h, ht, hv⟩
        refine ⟨t, h, ht.resolve_left ?_, hv⟩
        obtain ⟨rfl, rfl⟩ := List.cons.inj h
        exact hu

theorem newName_ok {tokens rest : List Token} {name : Option Text} :
    newName tokens = .ok (name, rest) ↔
      (name = none ∧ tokens = rest ∧ headKind? rest ≠ some (.keyword .asWord)) ∨
        ∃ t u, tokens = t :: u :: rest ∧ t.kind = .keyword .asWord ∧ u.kind.isName = true ∧
          name = some u.value := by
  cases tokens with
  | nil =>
    simp only [newName, Except.ok.injEq, Prod.mk.injEq]
    constructor
    · rintro ⟨rfl, rfl⟩
      exact Or.inl ⟨rfl, rfl, by simp [headKind?]⟩
    · rintro (⟨rfl, rfl, _⟩ | ⟨t, u, h, _⟩)
      · exact ⟨rfl, rfl⟩
      · simp at h
  | cons v tokens =>
    rw [newName]
    split
    · next hv =>
      cases hb : bindingName tokens with
      | error e =>
        constructor
        · intro h
          simp [Except.map] at h
        · rintro (⟨_, rfl, hne⟩ | ⟨t, u, h, _, hu, _⟩)
          · simp [headKind?, hv] at hne
          · obtain ⟨rfl, rfl⟩ := List.cons.inj h
            rw [bindingName_ok.mpr ⟨u, rfl, hu, rfl⟩] at hb
            simp at hb
      | ok result =>
        obtain ⟨value, after⟩ := result
        obtain ⟨u, rfl, hu, rfl⟩ := bindingName_ok.mp hb
        simp only [Except.map, Except.ok.injEq, Prod.mk.injEq]
        constructor
        · rintro ⟨rfl, rfl⟩
          exact Or.inr ⟨v, u, rfl, hv, hu, rfl⟩
        · rintro (⟨_, rfl, hne⟩ | ⟨t, w, h, _, _, rfl⟩)
          · simp [headKind?, hv] at hne
          · simp only [List.cons.injEq] at h
            obtain ⟨rfl, rfl, rfl⟩ := h
            exact ⟨rfl, rfl⟩
    · next hv =>
      simp only [Except.ok.injEq, Prod.mk.injEq]
      constructor
      · rintro ⟨rfl, rfl⟩
        exact Or.inl ⟨rfl, rfl, by simpa [headKind?] using hv⟩
      · rintro (⟨rfl, rfl, _⟩ | ⟨t, u, h, ht, _, _⟩)
        · exact ⟨rfl, rfl⟩
        · obtain ⟨rfl, _⟩ := List.cons.inj h
          exact absurd ht hv

theorem fromClause_ok {tokens rest : List Token} {specifier : Text} :
    fromClause tokens = .ok (specifier, rest) ↔ ∃ t u, tokens = t :: u :: rest ∧
      t.kind = .keyword .fromWord ∧ u.kind = .string ∧ u.value = specifier := by
  unfold fromClause
  constructor
  · intro h
    obtain ⟨⟨t, _⟩, ht, hbehind⟩ := bind_ok.mp h
    obtain ⟨rfl, hfrom⟩ := expect_ok.mp ht
    obtain ⟨⟨u, _⟩, hu, hresult⟩ := bind_ok.mp hbehind
    obtain ⟨rfl, hstring⟩ := expect_ok.mp hu
    obtain ⟨rfl, rfl⟩ := Prod.mk.inj (Except.ok.inj hresult)
    exact ⟨t, u, rfl, hfrom, hstring, rfl⟩
  · rintro ⟨t, u, rfl, hfrom, hstring, rfl⟩
    refine bind_ok.mpr ⟨_, expect_ok.mpr ⟨rfl, hfrom⟩, ?_⟩
    exact bind_ok.mpr ⟨_, expect_ok.mpr ⟨rfl, hstring⟩, rfl⟩

theorem fromClause_takes {tokens rest : List Token} {specifier : Text}
    (h : fromClause tokens = .ok (specifier, rest)) :
    ∃ t u, TakesAlone fromClause tokens [t, u] rest specifier := by
  obtain ⟨t, u, rfl, hfrom, hstring, rfl⟩ := fromClause_ok.mp h
  have hplain : IsPlain t.kind ∧ IsPlain u.kind :=
    ⟨.of_eq hfrom (by decide), .of_eq hstring (by decide)⟩
  refine ⟨t, u, rfl, by simpa using hplain, ?_⟩
  intro like behind halike
  obtain ⟨t', like, rfl, ht, _, halike⟩ := halike.cons
  obtain ⟨u', like, rfl, hu, hvalue, halike⟩ := halike.cons
  rw [halike.nil]
  exact fromClause_ok.mpr ⟨t', u', rfl, ht.trans hfrom, hu.trans hstring, hvalue⟩

/-! ## Items -/

/-- Whether `type` modifies the next name depends on the kinds of the next two tokens. -/
theorem modifies_congr {us vs : List Token} (h : headKind? us = headKind? vs)
    (htail : headKind? vs = some (.keyword .asWord) → headKind? us.tail = headKind? vs.tail) :
    modifies us = modifies vs := by
  cases us with
  | nil =>
    cases vs with
    | nil => rfl
    | cons v vs => simp [headKind?] at h
  | cons u us =>
    cases vs with
    | nil => simp [headKind?] at h
    | cons v vs =>
      have hkind : u.kind = v.kind := by simpa [headKind?] using h
      simp only [modifies, hkind]
      by_cases has : v.kind = .keyword .asWord
      · have hrest := htail (by simp [headKind?, has])
        rw [if_pos has, if_pos has]
        simp only [List.tail_cons] at hrest
        cases us with
        | nil =>
          cases vs with
          | nil => rfl
          | cons w vs => simp [headKind?] at hrest
        | cons u' us =>
          cases vs with
          | nil => simp [headKind?] at hrest
          | cons w vs =>
            have hsecond : u'.kind = w.kind := by simpa [headKind?] using hrest
            simp only [hsecond]
      · rw [if_neg has, if_neg has]

/-- The name of an item with its new name, behind the modifier. -/
def renamedItem : Reader (Text × Option Text) := fun tokens => do
  let (content, tokens) ← exportedName tokens
  let (rename, tokens) ← newName tokens
  return ((content, rename), tokens)

theorem item_eq (clauseType : Bool) (tokens : List Token) : item clauseType tokens =
    (renamedItem (typeModifier tokens).2).map fun (names, rest) =>
      (⟨clauseType || (typeModifier tokens).1, names.2, names.1⟩, rest) := by
  simp only [item, renamedItem, bind, Except.bind, pure, Except.pure]
  cases exportedName (typeModifier tokens).2 with
  | error e => rfl
  | ok first =>
    dsimp only
    cases newName first.2 <;> rfl

/-- A name is taken alone, or with the new name behind it. -/
theorem renamedItem_ok {tokens rest : List Token} {names : Text × Option Text} :
    renamedItem tokens = .ok (names, rest) ↔
      ∃ t, (t.kind = .string ∨ t.kind.isName = true) ∧
        ((tokens = t :: rest ∧ headKind? rest ≠ some (.keyword .asWord) ∧
            names = (t.value, none)) ∨
          ∃ u v, tokens = t :: u :: v :: rest ∧ u.kind = .keyword .asWord ∧
            v.kind.isName = true ∧ names = (t.value, some v.value)) := by
  unfold renamedItem
  constructor
  · intro h
    obtain ⟨⟨content, after⟩, hname, hbehind⟩ := bind_ok.mp h
    obtain ⟨t, rfl, ht, rfl⟩ := exportedName_ok.mp hname
    obtain ⟨⟨rename, after⟩, hrename, hresult⟩ := bind_ok.mp hbehind
    obtain ⟨rfl, rfl⟩ := Prod.mk.inj (Except.ok.inj hresult)
    rcases newName_ok.mp hrename with ⟨rfl, rfl, hne⟩ | ⟨u, v, rfl, hu, hv, rfl⟩
    · exact ⟨t, ht, Or.inl ⟨rfl, hne, rfl⟩⟩
    · exact ⟨t, ht, Or.inr ⟨u, v, rfl, hu, hv, rfl⟩⟩
  · rintro ⟨t, ht, ⟨rfl, hne, rfl⟩ | ⟨u, v, rfl, hu, hv, rfl⟩⟩
    · refine bind_ok.mpr ⟨_, exportedName_ok.mpr ⟨t, rfl, ht, rfl⟩, ?_⟩
      exact bind_ok.mpr ⟨_, newName_ok.mpr (Or.inl ⟨rfl, rfl, hne⟩), rfl⟩
    · refine bind_ok.mpr ⟨_, exportedName_ok.mpr ⟨t, rfl, ht, rfl⟩, ?_⟩
      exact bind_ok.mpr ⟨_, newName_ok.mpr (Or.inr ⟨u, v, rfl, hu, hv, rfl⟩), rfl⟩

/-- Where two texts of tokens begin alike and go on with the same kind, their second kinds agree. -/
theorem headKind?_append {us vs bs cs : List Token} (h : Alike us vs)
    (hbehind : headKind? bs = headKind? cs) : headKind? (us ++ bs) = headKind? (vs ++ cs) := by
  cases vs with
  | nil =>
    rw [h.nil]
    exact hbehind
  | cons v vs =>
    obtain ⟨u, us, rfl, hkind, _⟩ := h.cons
    simp [headKind?, hkind]

/-- A renamed item takes at least one token, and looks no further than at the next one. -/
theorem renamedItem_takes {tokens rest : List Token} {names : Text × Option Text}
    (h : renamedItem tokens = .ok (names, rest)) :
    ∃ t used, Takes renamedItem tokens (t :: used) rest names ∧
      (used = [] ∧ headKind? rest ≠ some (.keyword .asWord) ∨ 2 ≤ used.length) := by
  obtain ⟨t, ht, hcases⟩ := renamedItem_ok.mp h
  have hplain : IsPlain t.kind := by
    rcases ht with ht | ht
    · exact .of_eq ht (by decide)
    · exact .of_isName ht
  rcases hcases with ⟨rfl, hne, rfl⟩ | ⟨u, v, rfl, hu, hv, rfl⟩
  · refine ⟨t, [], ⟨rfl, by simpa using hplain, ?_⟩, Or.inl ⟨rfl, hne⟩⟩
    intro like behind halike hbehind
    obtain ⟨t', like, rfl, hkind, hvalue, halike⟩ := halike.cons
    rw [halike.nil]
    refine renamedItem_ok.mpr ⟨t', by rw [hkind]; exact ht, Or.inl ⟨rfl, ?_, by rw [hvalue]⟩⟩
    rw [hbehind]
    exact hne
  · have hothers : IsPlain u.kind ∧ IsPlain v.kind := ⟨.of_eq hu (by decide), .of_isName hv⟩
    refine ⟨t, [u, v], ⟨rfl, by simpa using ⟨hplain, hothers⟩, ?_⟩, Or.inr (by simp)⟩
    intro like behind halike _
    obtain ⟨t', like, rfl, hkind, hvalue, halike⟩ := halike.cons
    obtain ⟨u', like, rfl, huKind, _, halike⟩ := halike.cons
    obtain ⟨v', like, rfl, hvKind, hvValue, halike⟩ := halike.cons
    rw [halike.nil]
    refine renamedItem_ok.mpr ⟨t', by rw [hkind]; exact ht, Or.inr ⟨u', v', rfl, ?_, ?_, ?_⟩⟩
    · rw [huKind, hu]
    · rw [hvKind, hv]
    · rw [hvalue, hvValue]

theorem map_ok {ε α β : Type} {m : Except ε α} {f : α → β} {b : β} :
    m.map f = .ok b ↔ ∃ a, m = .ok a ∧ f a = b := by
  cases m <;> simp [Except.map]

/-- An item whose name is modified by `type` is read as such again. -/
private theorem item_takes_modified {clauseType : Bool} {t u : Token}
    {tokens used rest : List Token} {names : Text × Option Text}
    (hmodifier : t.kind = .keyword .typeWord ∧ modifies tokens = true)
    (htakes : Takes renamedItem tokens (u :: used) rest names) :
    Takes (item clauseType) (t :: tokens) (t :: u :: used) rest
      ⟨clauseType || true, names.2, names.1⟩ where
  split := congrArg (t :: ·) htakes.split
  plain := List.forall_mem_cons.mpr ⟨.of_eq hmodifier.1 (by decide), htakes.plain⟩
  again := by
    intro like behind halike hbehind
    obtain ⟨t', like, rfl, hkind, _, halike⟩ := halike.cons
    have hsame : modifies (like ++ behind) = true := by
      rw [← hmodifier.2, htakes.split]
      refine modifies_congr (headKind?_append halike hbehind) fun _ => ?_
      obtain ⟨u', like, rfl, _, _, htail⟩ := halike.cons
      exact headKind?_append htail hbehind
    have hagain : typeModifier (t' :: like ++ behind) = (true, like ++ behind) := by
      rw [List.cons_append, typeModifier, if_pos ⟨hkind.trans hmodifier.1, hsame⟩]
    rw [item_eq, hagain]
    dsimp only
    rw [htakes.again halike hbehind]
    rfl

/-- An item whose name is not modified is read as such again. -/
private theorem item_takes_unmodified {clauseType : Bool} {t : Token}
    {tokens used rest : List Token} {names : Text × Option Text}
    (hmodifier : ¬(t.kind = .keyword .typeWord ∧ modifies tokens = true))
    (htakes : Takes renamedItem (t :: tokens) (t :: used) rest names)
    (hshape : used = [] ∧ headKind? rest ≠ some (.keyword .asWord) ∨ 2 ≤ used.length) :
    Takes (item clauseType) (t :: tokens) (t :: used) rest
      ⟨clauseType || false, names.2, names.1⟩ where
  split := htakes.split
  plain := htakes.plain
  again := by
    intro like behind halike hbehind
    have hread := htakes.again halike hbehind
    have htokens : tokens = used ++ rest := (List.cons.inj htakes.split).2
    obtain ⟨t', like, rfl, hkind, _, halike⟩ := halike.cons
    have hsame : modifies (like ++ behind) = modifies tokens := by
      rw [htokens]
      refine modifies_congr (headKind?_append halike hbehind) fun has => ?_
      match used, hshape, halike, has with
      | [], hshape, _, has =>
        rcases hshape with ⟨_, hne⟩ | hlength
        · exact absurd has hne
        · simp at hlength
      | [_], hshape, _, _ => simp at hshape
      | a :: b :: used, _, halike, _ =>
        obtain ⟨a', like, rfl, _, _, halike⟩ := halike.cons
        exact headKind?_append halike hbehind
    have hagain : typeModifier (t' :: like ++ behind) = (false, t' :: like ++ behind) := by
      rw [List.cons_append, typeModifier, if_neg]
      rw [hkind, hsame]
      exact hmodifier
    rw [item_eq, hagain]
    dsimp only
    rw [hread]
    rfl

/-- An item takes at least one token, and looks no further than at the next one. -/
theorem item_takes {clauseType : Bool} {tokens rest : List Token} {i : NamedImport}
    (h : item clauseType tokens = .ok (i, rest)) :
    ∃ t used, Takes (item clauseType) tokens (t :: used) rest i := by
  rw [item_eq] at h
  obtain ⟨⟨names, after⟩, hnames, hi⟩ := map_ok.mp h
  obtain ⟨rfl, rfl⟩ := Prod.mk.inj hi
  obtain ⟨u, used, htakes, hshape⟩ := renamedItem_takes hnames
  cases tokens with
  | nil =>
    have hsplit := htakes.split
    simp [typeModifier] at hsplit
  | cons t tokens =>
    by_cases hmodifier : t.kind = .keyword .typeWord ∧ modifies tokens = true
    · have htype : typeModifier (t :: tokens) = (true, tokens) := by
        rw [typeModifier, if_pos hmodifier]
      rw [htype] at htakes ⊢
      exact ⟨t, u :: used, item_takes_modified hmodifier htakes⟩
    · have htype : typeModifier (t :: tokens) = (false, t :: tokens) := by
        rw [typeModifier, if_neg hmodifier]
      rw [htype] at htakes ⊢
      obtain ⟨rfl, _⟩ := List.cons.inj htakes.split
      exact ⟨t, used, item_takes_unmodified hmodifier htakes hshape⟩

/-! ## Clauses -/

theorem current_kind (tokens : List Token) :
    (current tokens).kind = (headKind? tokens).getD .ending := by
  cases tokens <;> rfl

theorem current_kind_congr {us vs : List Token} (h : headKind? us = headKind? vs) :
    (current us).kind = (current vs).kind := by
  rw [current_kind, current_kind, h]

/-- The items of a clause from the first one on, given what follows it. -/
def itemsFrom (clauseType : Bool) (first : NamedImport) :
    List Token → Except ParseError (List NamedImport × List Token)
  | [] => .ok ([first], [])
  | t :: rest =>
    if t.kind = .rightBrace then .ok ([first], t :: rest)
    else if t.kind = .comma then
      (clauseItems clauseType rest).map fun (others, rest) => (first :: others, rest)
    else .error (errorAt (t :: rest) (.expectedKind .comma (.ofToken t)))

theorem clauseItems_eq {clauseType : Bool} {tokens after : List Token} {first : NamedImport}
    (hend : ¬((current tokens).kind = .rightBrace ∨ (current tokens).kind = .ending))
    (hitem : item clauseType tokens = .ok (first, after)) :
    clauseItems clauseType tokens = itemsFrom clauseType first after := by
  rw [clauseItems, if_neg hend]
  split
  · next e he => simp [hitem] at he
  · next he =>
    rw [hitem] at he
    obtain ⟨rfl, rfl⟩ := Prod.mk.inj (Except.ok.inj he)
    rfl
  · next t rest he =>
    rw [hitem] at he
    obtain ⟨rfl, rfl⟩ := Prod.mk.inj (Except.ok.inj he)
    rw [itemsFrom]
    split
    · rfl
    split
    · cases clauseItems clauseType rest <;> rfl
    · rfl

/-- Behind an item nothing follows, or the closing brace of the clause. -/
def EndsItems (tokens : List Token) : Prop :=
  headKind? tokens = none ∨ headKind? tokens = some .rightBrace

theorem itemsFrom_last {clauseType : Bool} {first : NamedImport} {after : List Token}
    (h : EndsItems after) : itemsFrom clauseType first after = .ok ([first], after) := by
  cases after with
  | nil => rfl
  | cons t after =>
    have ht : t.kind = .rightBrace := by simpa [EndsItems, headKind?] using h
    rw [itemsFrom, if_pos ht]

theorem itemsFrom_comma {clauseType : Bool} {first : NamedImport} {t : Token}
    {after rest : List Token} {others : List NamedImport} (ht : t.kind = .comma)
    (h : clauseItems clauseType after = .ok (others, rest)) :
    itemsFrom clauseType first (t :: after) = .ok (first :: others, rest) := by
  have hbrace : t.kind ≠ .rightBrace := by simp [ht]
  rw [itemsFrom, if_neg hbrace, if_pos ht, h]
  rfl

theorem itemsFrom_cases {clauseType : Bool} {first : NamedImport}
    {after rest : List Token} {items : List NamedImport}
    (h : itemsFrom clauseType first after = .ok (items, rest)) :
    (EndsItems after ∧ items = [first] ∧ rest = after) ∨ ∃ t more others, after = t :: more ∧
      t.kind = .comma ∧ clauseItems clauseType more = .ok (others, rest) ∧
        items = first :: others := by
  cases after with
  | nil =>
    obtain ⟨rfl, rfl⟩ := Prod.mk.inj (Except.ok.inj h)
    exact Or.inl ⟨Or.inl rfl, rfl, rfl⟩
  | cons t more =>
    rw [itemsFrom] at h
    split at h
    · next hbrace =>
      obtain ⟨rfl, rfl⟩ := Prod.mk.inj (Except.ok.inj h)
      exact Or.inl ⟨Or.inr (congrArg some hbrace), rfl, rfl⟩
    split at h
    · next hcomma =>
      obtain ⟨⟨others, behind⟩, hothers, hresult⟩ := map_ok.mp h
      obtain ⟨rfl, rfl⟩ := Prod.mk.inj hresult
      exact Or.inr ⟨t, more, others, rfl, hcomma, hothers, rfl⟩
    · simp at h

/-- Whatever looks like the first item of a clause is read as this item, and the clause goes on
behind it. -/
private theorem clauseItems_first {clauseType : Bool} {tokens after : List Token}
    {first : NamedImport}
    (hend : ¬((current tokens).kind = .rightBrace ∨ (current tokens).kind = .ending))
    (hitem : item clauseType tokens = .ok (first, after)) :
    ∃ used, tokens = used ++ after ∧ (∀ t ∈ used, IsPlain t.kind) ∧
      ∀ {like behind : List Token}, Alike like used → headKind? behind = headKind? after →
        clauseItems clauseType (like ++ behind) = itemsFrom clauseType first behind := by
  obtain ⟨u, used, htakes⟩ := item_takes hitem
  refine ⟨u :: used, htakes.split, htakes.plain, ?_⟩
  intro like behind halike hbehind
  refine clauseItems_eq ?_ (htakes.again halike hbehind)
  obtain ⟨u', like, rfl, hkind, _⟩ := halike.cons
  rw [htakes.split] at hend
  change ¬(u'.kind = .rightBrace ∨ u'.kind = .ending)
  rw [hkind]
  exact hend

/-- The items of a clause are taken up to the token behind them. -/
theorem clauseItems_takes {clauseType : Bool} {tokens rest : List Token}
    {items : List NamedImport} (h : clauseItems clauseType tokens = .ok (items, rest)) :
    ∃ used, Takes (clauseItems clauseType) tokens used rest items := by
  induction hn : tokens.length using Nat.strongRecOn generalizing tokens items with
  | ind n ih =>
    by_cases hend : (current tokens).kind = .rightBrace ∨ (current tokens).kind = .ending
    · rw [clauseItems, if_pos hend] at h
      obtain ⟨rfl, rfl⟩ := Prod.mk.inj (Except.ok.inj h)
      refine ⟨[], rfl, by simp, ?_⟩
      intro like behind halike hbehind
      rw [halike.nil, List.nil_append, clauseItems, if_pos]
      rw [current_kind_congr hbehind]
      exact hend
    cases hitem : item clauseType tokens with
    | error e =>
      rw [clauseItems, if_neg hend] at h
      split at h <;> simp_all
    | ok result =>
      obtain ⟨first, after⟩ := result
      obtain ⟨used, hsplit, hplain, hagain⟩ := clauseItems_first hend hitem
      rw [clauseItems_eq hend hitem] at h
      rcases itemsFrom_cases h with ⟨hlast, rfl, rfl⟩ | ⟨t, more, others, rfl, ht, hothers, rfl⟩
      · refine ⟨used, hsplit, hplain, ?_⟩
        intro like behind halike hbehind
        have hends : EndsItems behind := by
          unfold EndsItems
          rw [hbehind]
          exact hlast
        rw [hagain halike hbehind, itemsFrom_last hends]
      · have hlength := item_length hitem
        simp only [List.length_cons] at hlength
        obtain ⟨further, hfurther⟩ := ih more.length (by omega) hothers rfl
        refine ⟨used ++ t :: further, ?_, ?_, ?_⟩
        · rw [hsplit, hfurther.split]
          simp
        · have hrest : ∀ v ∈ t :: further, IsPlain v.kind :=
            List.forall_mem_cons.mpr ⟨.of_eq ht (by decide), hfurther.plain⟩
          exact List.forall_mem_append.mpr ⟨hplain, hrest⟩
        · intro like behind halike hbehind
          obtain ⟨like₁, like₂, rfl, hfirst, hrest⟩ := halike.append
          obtain ⟨t', like₂, rfl, hkind, _, hrest⟩ := hrest.cons
          have hcomma : headKind? (t' :: (like₂ ++ behind)) = headKind? (t :: more) :=
            congrArg some hkind
          rw [List.append_assoc, List.cons_append, hagain hfirst hcomma,
            itemsFrom_comma (hkind.trans ht) (hfurther.again hrest hbehind)]

/-! ## Statements -/

/-- One reader behind another. -/
theorem TakesAlone.bind {α β : Type} {first : Reader α} {tokens used middle used' rest : List Token}
    {a : α} {b : β} (h : TakesAlone first tokens used middle a) (next : α → Reader β)
    (h' : TakesAlone (next a) middle used' rest b) :
    TakesAlone (fun tokens => first tokens >>= fun result => next result.1 result.2) tokens
      (used ++ used') rest b where
  split := by rw [h.split, h'.split, List.append_assoc]
  plain := List.forall_mem_append.mpr ⟨h.plain, h'.plain⟩
  again := by
    intro like behind halike
    obtain ⟨like₁, like₂, rfl, h₁, h₂⟩ := halike.append
    rw [List.append_assoc]
    exact bind_ok.mpr ⟨_, h.again h₁, h'.again h₂⟩

/-- A reader behind a token of a given kind that it may name in its errors. -/
theorem TakesAlone.behind {β : Type} {kind : Kind} {next : Token → Reader β}
    {tokens middle used rest : List Token} {t : Token} {b : β} (hplain : IsPlain kind)
    (h : expect kind tokens = .ok (t, middle)) (h' : ∀ t, TakesAlone (next t) middle used rest b) :
    TakesAlone (fun tokens => expect kind tokens >>= fun result => next result.1 result.2) tokens
      (t :: used) rest b := by
  obtain ⟨rfl, hkind⟩ := expect_ok.mp h
  refine ⟨?_, ?_, ?_⟩
  · rw [(h' t).split, List.cons_append]
  · exact List.forall_mem_cons.mpr ⟨.of_eq hkind hplain, (h' t).plain⟩
  · intro like behind halike
    obtain ⟨t', like, rfl, hsame, _, halike⟩ := halike.cons
    refine bind_ok.mpr ⟨(t', like ++ behind), expect_ok.mpr ⟨rfl, hsame.trans hkind⟩, ?_⟩
    exact (h' t').again halike

/-- Reads the module specifier that completes a statement. -/
def completed (spec : Text → ImportSpec) : Reader ImportSpec := fun tokens =>
  fromClause tokens >>= fun source => .ok (spec source.1, source.2)

private theorem completed_takes {make : Text → ImportSpec} {tokens rest : List Token}
    {spec : ImportSpec} (h : completed make tokens = .ok (spec, rest)) :
    ∃ t u, TakesAlone (completed make) tokens [t, u] rest spec := by
  obtain ⟨⟨specifier, after⟩, hfrom, hresult⟩ := bind_ok.mp h
  obtain ⟨rfl, rfl⟩ := Prod.mk.inj (Except.ok.inj hresult)
  obtain ⟨t, u, htakes⟩ := fromClause_takes hfrom
  refine ⟨t, u, htakes.split, htakes.plain, fun halike => ?_⟩
  exact bind_ok.mpr ⟨_, htakes.again halike, rfl⟩

theorem bindingName_takes {tokens rest : List Token} {name : Text}
    (h : bindingName tokens = .ok (name, rest)) :
    ∃ t, TakesAlone bindingName tokens [t] rest name := by
  obtain ⟨t, rfl, ht, rfl⟩ := bindingName_ok.mp h
  refine ⟨t, rfl, by simpa using IsPlain.of_isName ht, ?_⟩
  intro like behind halike
  obtain ⟨t', like, rfl, hkind, hvalue, halike⟩ := halike.cons
  rw [halike.nil]
  exact bindingName_ok.mpr ⟨t', rfl, by rw [hkind]; exact ht, hvalue⟩

/-- Reads a clause of named items behind its opening brace, with the closing brace. -/
def clauseBehind (clauseType : Bool) (opening : Token) : Reader (List NamedImport) :=
  fun tokens => do
    let (items, tokens) ← clauseItems clauseType tokens
    let (closing, tokens) ← expect .rightBrace tokens
    if items.isEmpty then throw ⟨.emptyClause, opening.span.merge closing.span⟩
    return (items, tokens)

theorem clauseBehind_ok {clauseType : Bool} {opening : Token} {tokens rest : List Token}
    {items : List NamedImport} : clauseBehind clauseType opening tokens = .ok (items, rest) ↔
      ∃ closing, clauseItems clauseType tokens = .ok (items, closing :: rest) ∧
        closing.kind = .rightBrace ∧ items ≠ [] := by
  unfold clauseBehind
  constructor
  · intro h
    obtain ⟨⟨found, behind⟩, hfound, hclosing⟩ := bind_ok.mp h
    obtain ⟨⟨closing, after⟩, hclose, hresult⟩ := bind_ok.mp hclosing
    obtain ⟨rfl, hkind⟩ := expect_ok.mp hclose
    cases found with
    | nil => simp [throw, throwThe, MonadExceptOf.throw, bind, Except.bind] at hresult
    | cons first others =>
      obtain ⟨rfl, rfl⟩ := Prod.mk.inj (Except.ok.inj hresult)
      exact ⟨closing, hfound, hkind, by simp⟩
  · rintro ⟨closing, hfound, hkind, hne⟩
    refine bind_ok.mpr ⟨_, hfound, bind_ok.mpr ⟨_, expect_ok.mpr ⟨rfl, hkind⟩, ?_⟩⟩
    cases items with
    | nil => exact absurd rfl hne
    | cons first others => rfl

/-- A clause ends at its closing brace. -/
theorem namedClause_takes {clauseType : Bool} {tokens behind : List Token}
    {items : List NamedImport} (h : namedClause clauseType tokens = .ok (items, behind)) :
    ∃ used, TakesAlone (namedClause clauseType) tokens used behind items ∧ 2 ≤ used.length := by
  have hclause : namedClause clauseType = fun tokens =>
      expect .leftBrace tokens >>= fun result => clauseBehind clauseType result.1 result.2 := rfl
  rw [hclause] at h ⊢
  obtain ⟨⟨opening, middle⟩, hopening, hitems⟩ := bind_ok.mp h
  obtain ⟨closing, hfound, hkind, hne⟩ := clauseBehind_ok.mp hitems
  obtain ⟨used, htakes⟩ := clauseItems_takes hfound
  refine ⟨opening :: (used ++ [closing]), .behind (by decide) hopening fun t => ?_, by simp⟩
  refine ⟨?_, ?_, ?_⟩
  · exact htakes.split.trans (by simp)
  · have hlast : ∀ u ∈ [closing], IsPlain u.kind := by
      simpa using IsPlain.of_eq hkind (by decide)
    exact List.forall_mem_append.mpr ⟨htakes.plain, hlast⟩
  · intro like rest halike
    obtain ⟨like₁, like₂, rfl, hinner, hlast⟩ := halike.append
    obtain ⟨closing', like₂, rfl, hsame, _, hnil⟩ := hlast.cons
    rw [hnil.nil, List.append_assoc]
    have hread := htakes.again hinner
      (show headKind? ([closing'] ++ rest) = headKind? (closing :: behind) by
        simp [headKind?, hsame])
    exact clauseBehind_ok.mpr ⟨closing', hread, hsame.trans hkind, hne⟩

/-- Reads the name of a default binding and the module specifier. -/
def defaultBinding (keyword : Span) : Reader ImportSpec := fun tokens => do
  let (name, tokens) ← bindingName tokens
  if (current tokens).kind = .comma then
    throw ⟨.mixedBindings, keyword.merge (current tokens).span⟩
  let (source, tokens) ← fromClause tokens
  return (.default name source, tokens)

theorem defaultBinding_ok {keyword : Span} {tokens rest : List Token} {spec : ImportSpec} :
    defaultBinding keyword tokens = .ok (spec, rest) ↔ ∃ name specifier middle,
      bindingName tokens = .ok (name, middle) ∧ fromClause middle = .ok (specifier, rest) ∧
        spec = .default name specifier := by
  unfold defaultBinding
  constructor
  · intro h
    obtain ⟨⟨name, middle⟩, hname, hbehind⟩ := bind_ok.mp h
    dsimp only at hbehind
    split at hbehind
    · simp [throw, throwThe, MonadExceptOf.throw, bind, Except.bind] at hbehind
    obtain ⟨⟨specifier, after⟩, hfrom, hresult⟩ := bind_ok.mp hbehind
    obtain ⟨rfl, rfl⟩ := Prod.mk.inj (Except.ok.inj hresult)
    exact ⟨name, specifier, middle, hname, hfrom, rfl⟩
  · rintro ⟨name, specifier, middle, hname, hfrom, rfl⟩
    refine bind_ok.mpr ⟨_, hname, ?_⟩
    have hcomma : (current middle).kind ≠ .comma := by
      obtain ⟨t, u, rfl, ht, _⟩ := fromClause_ok.mp hfrom
      change t.kind ≠ .comma
      rw [ht]
      simp
    dsimp only
    rw [if_neg hcomma]
    exact bind_ok.mpr ⟨_, hfrom, rfl⟩

/-- Reads the bindings of a statement, given the kind of their first token. -/
theorem bindings_eq {keyword : Span} {clauseType : Bool} {tokens : List Token} :
    bindings keyword clauseType tokens =
      match (current tokens).kind with
      | .string => .error ⟨.noBindings, keyword.merge (current tokens).span⟩
      | .star => expect .star tokens >>= fun result =>
          expect (.keyword .asWord) result.2 >>= fun result =>
            bindingName result.2 >>= fun name =>
              completed (.whole name.1) name.2
      | .leftBrace => namedClause clauseType tokens >>= fun items =>
          completed (.named items.1) items.2
      | kind =>
        if kind.isName then defaultBinding keyword tokens
        else .error (errorAt tokens (.expectedBindings (current tokens).value)) := by
  unfold bindings
  dsimp only
  cases hkind : (current tokens).kind with
  | star =>
    cases tokens with
    | nil => simp [current, Token.nowhere] at hkind
    | cons t tokens =>
      replace hkind : t.kind = .star := hkind
      simp [expect, hkind, bind, Except.bind]
      rfl
  | _ => rfl

/-- A reader that does what another one does wherever the first token is of the same kind. -/
theorem TakesAlone.congr {α : Type} {reader other : Reader α} {tokens used rest : List Token}
    {a : α} (h : TakesAlone other tokens used rest a) (hne : used ≠ [])
    (same : ∀ like, (current like).kind = (current tokens).kind → reader like = other like) :
    TakesAlone reader tokens used rest a where
  split := h.split
  plain := h.plain
  again := by
    intro like behind halike
    rw [same, h.again halike]
    obtain ⟨u, used, rfl⟩ := List.exists_cons_of_ne_nil hne
    obtain ⟨u', like, rfl, hkind, _⟩ := halike.cons
    rw [h.split]
    exact hkind

private theorem defaultBinding_takes {keyword : Span} {tokens rest : List Token}
    {spec : ImportSpec} (h : defaultBinding keyword tokens = .ok (spec, rest)) :
    ∃ used, 2 ≤ used.length ∧
      ∀ keyword, TakesAlone (defaultBinding keyword) tokens used rest spec := by
  obtain ⟨name, specifier, middle, hname, hfrom, rfl⟩ := defaultBinding_ok.mp h
  obtain ⟨t, hnameTakes⟩ := bindingName_takes hname
  obtain ⟨u, v, hfromTakes⟩ := fromClause_takes hfrom
  have hboth := hnameTakes.bind (fun _ => fromClause) hfromTakes
  refine ⟨[t] ++ [u, v], by simp, fun keyword => ⟨hboth.split, hboth.plain, ?_⟩⟩
  intro like behind halike
  obtain ⟨like₁, like₂, rfl, h₁, h₂⟩ := halike.append
  rw [List.append_assoc]
  exact defaultBinding_ok.mpr
    ⟨name, specifier, like₂ ++ behind, hnameTakes.again h₁, hfromTakes.again h₂, rfl⟩

/-- What is read of the bindings of a statement ends at the module specifier. -/
theorem bindings_takes {keyword : Span} {clauseType : Bool} {tokens rest : List Token}
    {spec : ImportSpec} (h : bindings keyword clauseType tokens = .ok (spec, rest)) :
    ∃ used, 2 ≤ used.length ∧
      ∀ keyword, TakesAlone (bindings keyword clauseType) tokens used rest spec := by
  rw [bindings_eq] at h
  split at h
  · simp at h
  · next hstar =>
    obtain ⟨⟨t, _⟩, ht, h⟩ := bind_ok.mp h
    obtain ⟨⟨u, _⟩, hu, h⟩ := bind_ok.mp h
    obtain ⟨⟨name, _⟩, hname, h⟩ := bind_ok.mp h
    obtain ⟨v, hnameTakes⟩ := bindingName_takes hname
    obtain ⟨w, x, hfromTakes⟩ := completed_takes h
    have hnames := hnameTakes.bind (fun name => completed (.whole name)) hfromTakes
    have hbehind := TakesAlone.behind (by decide) hu fun _ => hnames
    have hall := TakesAlone.behind (by decide) ht fun _ => hbehind
    refine ⟨_, ?_, fun keyword => hall.congr (by simp) fun like hlike => ?_⟩
    · simp
    · rw [bindings_eq, hlike, hstar]
  · next hbrace =>
    obtain ⟨⟨items, _⟩, hitems, h⟩ := bind_ok.mp h
    obtain ⟨used, hitemsTakes, _⟩ := namedClause_takes hitems
    obtain ⟨w, x, hfromTakes⟩ := completed_takes h
    have hall := hitemsTakes.bind (fun items => completed (.named items)) hfromTakes
    refine ⟨_, ?_, fun keyword => hall.congr (by simp) fun like hlike => ?_⟩
    · simp
    · rw [bindings_eq, hlike, hbrace]
  · next kind hstring hstar hbrace =>
    split at h
    · next hname =>
      obtain ⟨used, hlength, htakes⟩ := defaultBinding_takes h
      refine ⟨used, hlength, fun keyword => (htakes keyword).congr ?_ fun like hlike => ?_⟩
      · rintro rfl
        simp at hlength
      · rw [bindings_eq, hlike]
        split
        all_goals simp_all
    · simp at h

private theorem headKind_append {like used : List Token} (h : Alike like used)
    (hne : used ≠ []) (behind rest : List Token) :
    Token.headKind (like ++ behind) = Token.headKind (used ++ rest) := by
  obtain ⟨u, used, rfl⟩ := List.exists_cons_of_ne_nil hne
  obtain ⟨u', like, rfl, hkind, _⟩ := h.cons
  exact hkind

/-- Whether `type` belongs to a clause depends on the kinds of the two tokens behind `import`. -/
theorem clauseModifier_append {like used : List Token} (h : Alike like used)
    (hlength : 2 ≤ used.length) (behind rest : List Token) : clauseModifier (like ++ behind) =
      ((clauseModifier (used ++ rest)).1,
        if (clauseModifier (used ++ rest)).1 then like.drop 1 ++ behind else like ++ behind) := by
  obtain ⟨u, used, rfl⟩ := List.exists_cons_of_length_pos (by omega : 0 < used.length)
  obtain ⟨u', like, rfl, hkind, _, htail⟩ := h.cons
  have hne : used ≠ [] := by
    rintro rfl
    simp at hlength
  simp only [List.cons_append, clauseModifier, hkind, headKind_append htail hne behind rest]
  split <;> simp

/-- The word `type` behind `import` belongs to the clause unless it is the default binding. -/
theorem clauseModifier_cases (tokens : List Token) :
    clauseModifier tokens = (false, tokens) ∨ ∃ t rest, tokens = t :: rest ∧
      t.kind = .keyword .typeWord ∧ headKind? rest ≠ some (.keyword .fromWord) ∧
        clauseModifier tokens = (true, rest) := by
  cases tokens with
  | nil => exact Or.inl rfl
  | cons t rest =>
    rw [clauseModifier]
    split
    · next htype =>
      refine Or.inr ⟨t, rest, rfl, htype.1, fun hfrom => htype.2 (Or.inl ?_), rfl⟩
      cases rest with
      | nil => simp [headKind?] at hfrom
      | cons u rest => exact Option.some.inj hfrom
    · exact Or.inl rfl

/-- Reads the bindings of a statement behind `import`, with the keyword `type` in front of them. -/
private def modifiedBindings (keyword : Token) : Reader ImportSpec := fun tokens =>
  bindings keyword.span (clauseModifier tokens).1 (clauseModifier tokens).2

private theorem modifiedBindings_takes {keyword : Token} {tokens rest : List Token}
    {spec : ImportSpec} (h : modifiedBindings keyword tokens = .ok (spec, rest)) :
    ∃ used, ∀ keyword, TakesAlone (modifiedBindings keyword) tokens used rest spec := by
  obtain ⟨used, hlength, htakes⟩ := bindings_takes h
  have hsplit := (htakes keyword.span).split
  have hplain := (htakes keyword.span).plain
  rcases clauseModifier_cases tokens with hmodifier | ⟨t, others, rfl, htype, _, hmodifier⟩
  · rw [hmodifier] at hsplit htakes
    refine ⟨used, fun keyword => ⟨hsplit, hplain, fun {like behind} halike => ?_⟩⟩
    dsimp only at hsplit
    rw [modifiedBindings, clauseModifier_append halike hlength behind rest, ← hsplit, hmodifier]
    exact (htakes keyword.span).again halike
  · rw [hmodifier] at hsplit htakes
    refine ⟨t :: used, fun keyword => ⟨congrArg (t :: ·) hsplit, ?_, ?_⟩⟩
    · exact List.forall_mem_cons.mpr ⟨.of_eq htype (by decide), hplain⟩
    · intro like behind halike
      dsimp only at hsplit
      have hlonger : 2 ≤ (t :: used).length := by
        rw [List.length_cons]
        omega
      rw [modifiedBindings, clauseModifier_append halike hlonger behind rest, List.cons_append,
        ← hsplit, hmodifier]
      obtain ⟨t', like, rfl, _, _, halike⟩ := halike.cons
      exact (htakes keyword.span).again halike

/-- What is read of a statement does not depend on what follows it. -/
theorem unterminated_takes {tokens rest : List Token} {spec : ImportSpec}
    (h : unterminated tokens = .ok (spec, rest)) :
    ∃ first others, TakesAlone unterminated tokens (first :: others) rest spec := by
  obtain ⟨⟨keyword, middle⟩, hkeyword, hbindings⟩ := bind_ok.mp h
  obtain ⟨used, htakes⟩ := modifiedBindings_takes hbindings
  exact ⟨keyword, used, .behind (by decide) hkeyword htakes⟩

end ImportSpec

end TypeInliner

import TypeInliner.Proofs.DeclarationEnds

/-! # Scanning over closed brackets

The readers of declarations go through the tokens with a depth: the number of open brackets of the
kinds that they count. Where the brackets of some tokens are closed in the order in which they were
opened, each of the readers passes over the tokens and is as deep behind them as in front of them,
whichever brackets it counts. What can stop a reader stands outside of the brackets. -/

namespace TypeInliner

namespace Kind

/-- The bracket that closes a bracket of a kind. -/
def closing? : Kind → Option Kind
  | .leftParen => some .rightParen
  | .leftBracket => some .rightBracket
  | .leftBrace => some .rightBrace
  | .less => some .greater
  | _ => none

/-- Whether a kind closes brackets, angle brackets included. -/
def closes (kind : Kind) : Bool :=
  kind = .rightParen || kind = .rightBracket || kind = .rightBrace || kind = .greater

/-- Whether a kind is one of the brackets. -/
def isBracket (kind : Kind) : Bool := kind.closing?.isSome || kind.closes

theorem closes_of_closing? {kind closing : Kind} (h : kind.closing? = some closing) :
    (closing.closing? = none ∧ closing.closes = true) ∧ kind.closes = false := by
  unfold closing? at h
  split at h <;> cases h <;> decide

end Kind

namespace Occurrence

/-- Whether occurrences close the brackets that are pending, innermost first, and all brackets that
they open themselves, each with the bracket that belongs to it. Those that stand outside of all
brackets have a property. -/
def isNested (outside : Occurrence → Bool) : List Kind → List Occurrence → Bool
  | pending, [] => pending.isEmpty
  | pending, o :: rest =>
    (!pending.isEmpty || outside o) &&
      match o.kind.closing? with
      | some closing => isNested outside (closing :: pending) rest
      | none =>
        if o.kind.closes then pending.head? = some o.kind && isNested outside pending.tail rest
        else isNested outside pending rest

/-- Every occurrence may stand outside of brackets. -/
def anywhere (_ : Occurrence) : Bool := true

/-- Whether occurrences are a bracket of a kind, nested occurrences and the bracket that closes the
first one. -/
def isGroup (opens : Kind) : List Occurrence → Bool
  | [] => false
  | o :: rest =>
    o.kind = opens && opens.closing? = rest.getLast?.map kind && isNested anywhere [] rest.dropLast

variable {outside : Occurrence → Bool} {pending : List Kind} {os us : List Occurrence}

theorem isGroup_iff {opens closes : Kind} (hpair : opens.closing? = some closes) :
    isGroup opens os = true ↔ ∃ opening inside closing, os = opening :: (inside ++ [closing]) ∧
      opening.kind = opens ∧ closing.kind = closes ∧ isNested anywhere [] inside = true := by
  cases os with
  | nil => simp [isGroup]
  | cons o rest =>
    simp only [isGroup, hpair, Bool.and_eq_true, decide_eq_true_eq, List.cons.injEq]
    constructor
    · rintro ⟨⟨hopening, hlast⟩, hinside⟩
      obtain ⟨closing, hclosing, rfl⟩ := Option.map_eq_some_iff.mp hlast.symm
      have hsplit := List.dropLast_append_getLast? closing hclosing
      exact ⟨o, rest.dropLast, closing, ⟨rfl, hsplit.symm⟩, hopening, rfl, hinside⟩
    · rintro ⟨opening, inside, closing, ⟨rfl, rfl⟩, hopening, rfl, hinside⟩
      simp [hopening, hinside]

/-- What the first of some nested occurrences does to the brackets that are pending. -/
theorem isNested_cons {o : Occurrence} (h : isNested outside pending (o :: os) = true) :
    (pending = [] → outside o = true) ∧
      ((∃ closing, o.kind.closing? = some closing ∧
          isNested outside (closing :: pending) os = true) ∨
        (o.kind.closing? = none ∧ o.kind.closes = true ∧
          ∃ rest, pending = o.kind :: rest ∧ isNested outside rest os = true) ∨
        (o.kind.closing? = none ∧ o.kind.closes = false ∧
          isNested outside pending os = true)) := by
  rw [isNested, Bool.and_eq_true] at h
  obtain ⟨hoken, hrest⟩ := h
  refine ⟨fun hnil => by simpa [hnil] using hoken, ?_⟩
  split at hrest
  · next closing hclosing => exact Or.inl ⟨closing, hclosing, hrest⟩
  next hclosing =>
  split at hrest
  · next hcloses =>
    simp only [Bool.and_eq_true, decide_eq_true_eq] at hrest
    obtain ⟨hhead, hrest⟩ := hrest
    obtain ⟨rest, rfl⟩ := List.head?_eq_some_iff.mp hhead
    exact Or.inr (Or.inl ⟨hclosing, hcloses, rest, rfl, hrest⟩)
  · next hcloses => exact Or.inr (Or.inr ⟨hclosing, by simpa using hcloses, hrest⟩)

/-- Nested occurrences close what they have to, and what is pending besides is left for what stands
behind them. -/
theorem isNested_behind {outside' : Occurrence → Bool} {more : List Kind}
    (h : isNested outside pending os = true)
    (hmore : more = [] → ∀ o, outside o = true → outside' o = true) (us : List Occurrence) :
    isNested outside' (pending ++ more) (os ++ us) = isNested outside' more us := by
  induction os generalizing pending with
  | nil =>
    obtain rfl := List.isEmpty_iff.mp h
    rfl
  | cons o os ih =>
    obtain ⟨hoken, hcases⟩ := isNested_cons h
    -- What is opened here is pending in front of `more`, which no occurrence of `os` reaches.
    have hstands : (!(pending ++ more).isEmpty || outside' o) = true := by
      by_cases hnil : pending = [] ∧ more = []
      · simp [hmore hnil.2 o (hoken hnil.1)]
      · simp [List.append_eq_nil_iff, hnil]
    rw [List.cons_append, isNested, hstands, Bool.true_and]
    rcases hcases with ⟨closing, hclosing, hrest⟩ | ⟨hclosing, hcloses, rest, rfl, hrest⟩ |
      ⟨hclosing, hcloses, hrest⟩
    · simpa [hclosing] using ih hrest
    · simpa [hclosing, hcloses] using ih hrest
    · simpa [hclosing, hcloses] using ih hrest

theorem isNested_append {outside' : Occurrence → Bool} (h : isNested outside [] os = true)
    (himp : ∀ o, outside o = true → outside' o = true) (us : List Occurrence) :
    isNested outside' [] (os ++ us) = isNested outside' [] us :=
  isNested_behind h (fun _ => himp) us

theorem isNested_mono {outside' : Occurrence → Bool} (h : isNested outside [] os = true)
    (himp : ∀ o, outside o = true → outside' o = true) : isNested outside' [] os = true := by
  rw [← List.append_nil os, isNested_append h himp]
  rfl

/-- A bracket, nested occurrences and the bracket that closes the first one are nested. -/
theorem isNested_group {outside' : Occurrence → Bool} {o closing : Occurrence}
    (hpair : o.kind.closing? = some closing.kind) (hinside : isNested outside [] os = true)
    (ho : outside' o = true) (us : List Occurrence) :
    isNested outside' [] (o :: (os ++ closing :: us)) = isNested outside' [] us := by
  obtain ⟨⟨hclosing, hcloses⟩, _⟩ := Kind.closes_of_closing? hpair
  have hbehind : isNested outside' ([] ++ [closing.kind]) (os ++ closing :: us) =
      isNested outside' [closing.kind] (closing :: us) :=
    isNested_behind hinside (by simp) (closing :: us)
  rw [List.nil_append] at hbehind
  simp [isNested, hpair, ho, hbehind, hclosing, hcloses]

theorem isNested_single {o : Occurrence} (hkind : o.kind.isBracket = false)
    (ho : outside o = true) (us : List Occurrence) :
    isNested outside [] (o :: us) = isNested outside [] us := by
  simp only [Kind.isBracket, Bool.or_eq_false_iff, Option.isSome_eq_false_iff,
    Option.isNone_iff_eq_none] at hkind
  simp [isNested, ho, hkind]

/-! ## Depths -/

/-- The depth behind a token, for a reader that counts the brackets closed by certain kinds. -/
def counting (counts : Kind → Bool) (depth : Nat) (kind : Kind) : Nat :=
  match kind.closing? with
  | some closing => if counts closing then depth + 1 else depth
  | none => if kind.closes && counts kind then depth - 1 else depth

theorem nesting_true_eq : nesting true = counting fun _ => true := by
  funext depth kind
  cases kind <;> rfl

theorem nesting_false_eq : nesting false = counting (· ≠ .greater) := by
  funext depth kind
  cases kind <;> rfl

section

variable (counts : Kind → Bool) (depth : Nat) {kind : Kind}

theorem counting_opens {closing : Kind} (h : kind.closing? = some closing) :
    counting counts (pending.countP counts + depth) kind =
      (closing :: pending).countP counts + depth := by
  rw [counting, h, List.countP_cons]
  dsimp only
  split <;> omega

theorem counting_closes (h : kind.closing? = none) (hcloses : kind.closes = true) :
    counting counts ((kind :: pending).countP counts + depth) kind =
      pending.countP counts + depth := by
  rw [counting, h, List.countP_cons]
  by_cases hcounts : counts kind = true <;> simp [hcloses, hcounts]

theorem counting_other (h : kind.closing? = none) (hcloses : kind.closes = false) :
    counting counts depth kind = depth := by
  rw [counting, h]
  simp [hcloses]

end

/-- A reader goes from one depth to another, and what it meets outside of the brackets that it
counts is of a certain form. -/
inductive Passes (step : Nat → Kind → Nat) (meets : Occurrence → Prop) :
    Nat → List Occurrence → Nat → Prop
  | nil {depth : Nat} : Passes step meets depth [] depth
  | cons {depth last : Nat} {o : Occurrence} {os : List Occurrence} (met : depth = 0 → meets o)
      (rest : Passes step meets (step depth o.kind) os last) :
      Passes step meets depth (o :: os) last

/-- A reader that meets nothing outside of brackets begins inside of them if it ends there. -/
theorem Passes.ne_zero {step : Nat → Kind → Nat} {depth last : Nat}
    (h : Passes step (fun _ => False) depth os last) (hlast : last ≠ 0) : depth ≠ 0 := by
  cases h with
  | nil => exact hlast
  | cons met => exact fun hzero => met hzero

/-- Behind nested occurrences a reader is as deep as it was in front of them, whichever brackets it
counts. Outside of these it meets no closing one, and outside of all what may stand there. -/
theorem passes_of_isNested {counts : Kind → Bool} {meets : Occurrence → Prop} {depth : Nat}
    (hmeets : ∀ pending o, (pending = [] → outside o = true) → pending.countP counts = 0 →
      ¬ (o.kind.closes = true ∧ counts o.kind = true) → depth = 0 → meets o)
    (h : isNested outside pending os = true) :
    Passes (counting counts) meets (pending.countP counts + depth) os depth := by
  induction os generalizing pending with
  | nil =>
    obtain rfl := List.isEmpty_iff.mp h
    rw [List.countP_nil, Nat.zero_add]
    exact .nil
  | cons o os ih =>
    -- The depth is the number of pending brackets that the reader counts, on top of `depth`.
    obtain ⟨hoken, hcases⟩ := isNested_cons h
    have hmet (hcloses : pending.countP counts = 0 →
        ¬ (o.kind.closes = true ∧ counts o.kind = true)) :
        pending.countP counts + depth = 0 → meets o := fun hzero =>
      hmeets pending o hoken (by omega) (hcloses (by omega)) (by omega)
    rcases hcases with ⟨closing, hclosing, hrest⟩ | ⟨hclosing, hcloses, rest, rfl, hrest⟩ |
      ⟨hclosing, hcloses, hrest⟩
    · have hopens := (Kind.closes_of_closing? hclosing).2
      refine .cons (hmet fun _ => by simp [hopens]) ?_
      rw [counting_opens counts depth hclosing]
      exact ih hrest
    · refine .cons (hmet fun hzero => ?_) ?_
      · rw [List.countP_cons] at hzero
        rintro ⟨_, hcounts⟩
        simp [hcounts] at hzero
      · rw [counting_closes counts depth hclosing hcloses]
        exact ih hrest
    · refine .cons (hmet fun _ => by simp [hcloses]) ?_
      rw [counting_other counts _ hclosing hcloses]
      exact ih hrest

/-- A reader that counts all brackets meets what may stand outside of them. -/
theorem passes_outside {meets : Occurrence → Prop} (h : isNested outside [] os = true)
    (hmeets : ∀ o, outside o = true → meets o) : Passes (nesting true) meets 0 os 0 := by
  rw [nesting_true_eq]
  have hpasses : Passes (counting fun _ => true) meets (0 + 0) os 0 := by
    refine passes_of_isNested (fun pending o hoken hzero _ _ => hmeets o (hoken ?_)) h
    exact List.length_eq_zero_iff.mp (by simpa using hzero)
  exact hpasses

/-- Inside a bracket that it counts, a reader meets nothing. -/
theorem passes_inside (counts : Kind → Bool) (h : isNested outside [] os = true) :
    Passes (counting counts) (fun _ => False) 1 os 1 := by
  have hpasses : Passes (counting counts) (fun _ => False) (0 + 1) os 1 :=
    passes_of_isNested (fun _ _ _ _ _ hone => absurd hone Nat.one_ne_zero) h
  exact hpasses

/-- A reader meets no bracket that closes one of those it counts. -/
theorem passes_closing (counts : Kind → Bool) (h : isNested outside [] os = true) :
    Passes (counting counts) (fun o => ¬ (o.kind.closes = true ∧ counts o.kind = true)) 0 os 0 := by
  have hpasses : Passes (counting counts)
      (fun o => ¬ (o.kind.closes = true ∧ counts o.kind = true)) (0 + 0) os 0 :=
    passes_of_isNested (fun _ _ _ _ hcloses _ => hcloses) h
  exact hpasses

end Occurrence

namespace Site

open Occurrence

variable {os : List Occurrence} {depth last : Nat}

/-! ## Readers of heads and blocks -/

/-- Inside brackets all occurrences are taken. -/
theorem nestedSize_passes (h : Passes (nesting true) (fun _ => False) depth os last)
    (hlast : last ≠ 0) (hending : ∀ o ∈ os, o.kind ≠ .ending) (rest : List Occurrence) :
    nestedSize depth (os ++ rest) = os.length + nestedSize last rest := by
  induction h with
  | nil => simp
  | @cons depth last o os met hrest ih =>
    have hopen := hrest.ne_zero hlast
    rw [List.cons_append, nestedSize, if_neg (hending o List.mem_cons_self), if_neg hopen,
      ih hlast fun u hu => hending u (List.mem_cons_of_mem o hu), List.length_cons]
    omega

theorem interfaceHead?_passes {opening : Occurrence}
    (h : Passes (nesting true) (fun o => o.kind ≠ .leftBrace) depth os 0)
    (hending : ∀ o ∈ os, o.kind ≠ .ending) (hopening : opening.kind = .leftBrace)
    (rest : List Occurrence) :
    interfaceHead? depth (os ++ opening :: rest) = some (os, rest) := by
  generalize hlast : 0 = last at h
  induction h with
  | nil =>
    subst hlast
    rw [List.nil_append, interfaceHead?, if_neg (by simp [hopening]), if_pos ⟨rfl, hopening⟩]
  | @cons depth last o os met hrest ih =>
    have hbrace : ¬ (depth = 0 ∧ o.kind = .leftBrace) := by
      rintro ⟨hzero, hkind⟩
      exact met hzero hkind
    rw [List.cons_append, interfaceHead?, if_neg (hending o List.mem_cons_self), if_neg hbrace,
      ih (fun u hu => hending u (List.mem_cons_of_mem o hu)) hlast]
    rfl

/-- The depth of blocks counts only braces. -/
theorem braces_eq (depth : Nat) (kind : Kind) :
    (if kind = .leftBrace then depth + 1 else if kind = .rightBrace then depth - 1 else depth) =
      counting (· = .rightBrace) depth kind := by
  cases kind <;> rfl

theorem block?_passes {closing : Occurrence}
    (h : Passes (counting (· = .rightBrace))
      (fun o => ¬ (o.kind.closes = true ∧ decide (o.kind = .rightBrace) = true)) depth os 0)
    (hending : ∀ o ∈ os, o.kind ≠ .ending) (hclosing : closing.kind = .rightBrace)
    (rest : List Occurrence) : block? depth (os ++ closing :: rest) = some os := by
  generalize hlast : 0 = last at h
  induction h with
  | nil =>
    subst hlast
    rw [List.nil_append, block?, if_neg (by simp [hclosing]), if_pos ⟨rfl, hclosing⟩]
  | @cons depth last o os met hrest ih =>
    have hbrace : ¬ (depth = 0 ∧ o.kind = .rightBrace) := by
      rintro ⟨hzero, hkind⟩
      exact met hzero (by simp [hkind, Kind.closes])
    rw [List.cons_append, block?, if_neg (hending o List.mem_cons_self), if_neg hbrace]
    simp only [braces_eq]
    rw [ih (fun u hu => hending u (List.mem_cons_of_mem o hu)) hlast]
    rfl

/-! ## The type of an alias -/

/-- Whether a type holds together although angle brackets are not counted: outside of the other
brackets stand no semicolon and, but for the first token, no line break in front of a statement. -/
def holdsTogether : Bool → Nat → List Occurrence → Bool
  | _, _, [] => true
  | first, depth, o :: rest =>
    !(depth = 0 && (o.kind = .semicolon || !first && o.token.newline && opensStatement o rest)) &&
      holdsTogether false (nesting false depth o.kind) rest

/-- Of what stands behind a word only matters whether it begins with a name. -/
theorem opensStatement_isName {us rest : List Occurrence} (o : Occurrence)
    (h : (headKind us).isName = (headKind rest).isName) :
    opensStatement o us = opensStatement o rest := by
  unfold opensStatement
  rw [h]

theorem isClosing_eq (kind : Kind) :
    isClosing kind = (kind.closes && decide (kind ≠ .greater)) := by
  cases kind <;> rfl

variable {semicolon : Occurrence}

/-- A semicolon is no name. -/
theorem opensStatement_semicolon (hsemicolon : semicolon.kind = .semicolon) (o : Occurrence)
    (os rest : List Occurrence) :
    opensStatement o (os ++ semicolon :: rest) = opensStatement o os := by
  refine opensStatement_isName o ?_
  cases os with
  | nil =>
    have hkind : headKind (semicolon :: rest) = .semicolon := hsemicolon
    rw [List.nil_append, hkind]
    rfl
  | cons u os => rfl

/-- A type that holds together ends with the semicolon behind it. -/
theorem aliasType_passes (h : Passes (nesting false)
      (fun o => ¬ (o.kind.closes = true ∧ decide (o.kind ≠ .greater) = true)) depth os 0)
    {first : Bool} (hholds : holdsTogether first depth os = true)
    (hending : ∀ o ∈ os, o.kind ≠ .ending) (hsemicolon : semicolon.kind = .semicolon)
    (rest : List Occurrence) :
    aliasType first depth (os ++ semicolon :: rest) = os ++ [semicolon] := by
  generalize hlast : 0 = last at h
  induction h generalizing first with
  | nil =>
    subst hlast
    rw [List.nil_append, aliasType, if_neg (by simp [hsemicolon]), if_pos ⟨rfl, hsemicolon⟩]
    rfl
  | @cons depth last o os met hrest ih =>
    rw [holdsTogether, Bool.and_eq_true] at hholds
    obtain ⟨hhere, hholds⟩ := hholds
    have hgoes : GoesOn first depth o (os ++ semicolon :: rest) := by
      refine ⟨hending o List.mem_cons_self, ?_, ?_, ?_⟩
      · rintro ⟨rfl, hkind⟩
        simp [hkind] at hhere
      · rintro ⟨hzero, hcloses⟩
        rw [isClosing_eq, Bool.and_eq_true] at hcloses
        exact met hzero hcloses
      · rintro ⟨rfl, hfirst, hline, hopens⟩
        rw [opensStatement_semicolon hsemicolon] at hopens
        simp [hfirst, hline, hopens] at hhere
    rw [List.cons_append, hgoes.aliasType_eq,
      ih hholds (fun u hu => hending u (List.mem_cons_of_mem o hu)) hlast]
    rfl

/-- A type that does not hold together ends before the semicolon behind it. -/
theorem aliasType_cut {first : Bool} (hcut : holdsTogether first depth os = false)
    (hsemicolon : semicolon.kind = .semicolon) (rest : List Occurrence) :
    (aliasType first depth (os ++ semicolon :: rest)).length ≤ os.length := by
  induction os generalizing first depth with
  | nil => simp [holdsTogether] at hcut
  | cons o os ih =>
    rw [List.cons_append]
    rcases aliasType_cases first depth o (os ++ semicolon :: rest) with hnil | ⟨_, hsingle⟩ | hgoes
    · simp [hnil]
    · simp [hsingle]
    · have hhere : (!(depth = 0 && (o.kind = .semicolon ||
          !first && o.token.newline && opensStatement o os))) = true := by
        rw [Bool.not_eq_true', ← Bool.not_eq_true]
        intro hends
        simp only [Bool.and_eq_true, Bool.or_eq_true, decide_eq_true_eq, Bool.not_eq_true'] at hends
        obtain ⟨hzero, hkind | ⟨⟨hfirst, hline⟩, hopens⟩⟩ := hends
        · exact hgoes.semicolon ⟨hzero, hkind⟩
        · exact hgoes.statement ⟨hzero, by simp [hfirst], hline,
            (opensStatement_semicolon hsemicolon o os rest).trans hopens⟩
      rw [holdsTogether, hhere, Bool.true_and] at hcut
      rw [hgoes.aliasType_eq, List.length_cons, List.length_cons]
      exact Nat.succ_le_succ (ih hcut)

end Site

namespace SourceFile

open Occurrence

variable {os : List Occurrence} {depth last : Nat}

/-! ## Splitters -/

/-- Parts with occurrences in front of the first one. -/
def joinFront (os : List Occurrence) (parts : List (List Occurrence)) : List (List Occurrence) :=
  os.foldr consFirst parts

theorem joinFront_cons (o : Occurrence) (os : List Occurrence)
    (parts : List (List Occurrence)) :
    joinFront (o :: os) parts = consFirst o (joinFront os parts) := rfl

theorem joinFront_append (os us : List Occurrence) (parts : List (List Occurrence)) :
    joinFront (os ++ us) parts = joinFront os (joinFront us parts) :=
  List.foldr_append

theorem joinFront_first (os first : List Occurrence) (parts : List (List Occurrence)) :
    joinFront os (first :: parts) = (os ++ first) :: parts := by
  induction os with
  | nil => rfl
  | cons o os ih => rw [joinFront_cons, ih, consFirst, List.cons_append]

theorem splitTop_passes {isSeparator : Kind → Bool}
    (h : Passes (nesting true) (fun o => isSeparator o.kind = false) depth os last)
    (rest : List Occurrence) :
    splitTop isSeparator depth (os ++ rest) = joinFront os (splitTop isSeparator last rest) := by
  induction h with
  | nil => rfl
  | @cons depth last o os met hrest ih =>
    have hjoins : ¬ (depth = 0 ∧ isSeparator o.kind = true) := by
      rintro ⟨hzero, hseparates⟩
      simp [met hzero] at hseparates
    rw [List.cons_append, splitTop, if_neg hjoins, ih, joinFront_cons]

/-- Inside braces, brackets are open up to the end of what is nested. -/
theorem closesAtEnd_passes (h : Passes (nesting false) (fun _ => False) depth os last)
    (hlast : last ≠ 0) (rest : List Occurrence) :
    closesAtEnd depth (os ++ rest) = closesAtEnd last rest := by
  induction h with
  | nil => rfl
  | @cons depth last o os met hrest ih =>
    have hopen := hrest.ne_zero hlast
    rw [List.cons_append, closesAtEnd, if_neg hopen, ih hlast]

/-- Nested occurrences between two braces are the members of an object. -/
theorem objectMembers?_group {outside : Occurrence → Bool} {opening closing : Occurrence}
    (hopening : opening.kind = .leftBrace) (hclosing : closing.kind = .rightBrace)
    (h : isNested outside [] os = true) :
    objectMembers? (opening :: (os ++ [closing])) = some os := by
  have hpasses := passes_inside (· ≠ .greater) h
  rw [← nesting_false_eq] at hpasses
  have hcloses : closesAtEnd 1 (os ++ [closing]) = true := by
    rw [closesAtEnd_passes hpasses Nat.one_ne_zero, closesAtEnd, hclosing]
    rfl
  simp [objectMembers?, hopening, hcloses]

/-- The brace that is closed at the end is closed by a brace. -/
theorem exists_inside {outside : Occurrence → Bool} {pending : List Kind}
    (h : isNested outside (pending ++ [.rightBrace]) os = true)
    (hcloses : closesAtEnd (pending.countP (· ≠ .greater) + 1) os = true) :
    ∃ inside closing, os = inside ++ [closing] ∧ closing.kind = .rightBrace ∧
      isNested anywhere pending inside = true := by
  induction os generalizing pending with
  | nil => simp [closesAtEnd] at hcloses
  | cons o os ih =>
    obtain ⟨_, ⟨closing, hclosing, hrest⟩ | ⟨hclosing, hclosed, rest, hpending, hrest⟩ |
      ⟨hclosing, hclosed, hrest⟩⟩ := isNested_cons h
    · rw [closesAtEnd, nesting_false_eq, counting_opens _ 1 hclosing,
        if_neg (Nat.succ_ne_zero _)] at hcloses
      obtain ⟨inside, last, rfl, hlast, hinside⟩ := ih hrest hcloses
      refine ⟨o :: inside, last, rfl, hlast, ?_⟩
      simp [isNested, anywhere, hclosing, hinside]
    · cases pending with
      | nil =>
        obtain ⟨hkind, rfl⟩ := List.cons.inj hpending
        have hlast : nesting false 1 o.kind = 0 := by
          rw [← hkind]
          rfl
        replace hcloses : closesAtEnd 1 (o :: os) = true := hcloses
        rw [closesAtEnd, if_pos hlast] at hcloses
        obtain rfl := List.isEmpty_iff.mp hcloses
        exact ⟨[], o, rfl, hkind.symm, rfl⟩
      | cons kind pending =>
        obtain ⟨rfl, rfl⟩ := List.cons.inj hpending
        rw [closesAtEnd, nesting_false_eq, counting_closes _ 1 hclosing hclosed,
          if_neg (Nat.succ_ne_zero _)] at hcloses
        obtain ⟨inside, last, rfl, hlast, hinside⟩ := ih hrest hcloses
        refine ⟨o :: inside, last, rfl, hlast, ?_⟩
        simp [isNested, anywhere, hclosing, hclosed, hinside]
    · rw [closesAtEnd, nesting_false_eq, counting_other _ _ hclosing hclosed,
        if_neg (Nat.succ_ne_zero _)] at hcloses
      obtain ⟨inside, last, rfl, hlast, hinside⟩ := ih hrest hcloses
      refine ⟨o :: inside, last, rfl, hlast, ?_⟩
      simp [isNested, anywhere, hclosing, hclosed, hinside]

/-- Of nested occurrences only a group of braces has the members of an object. -/
theorem objectMembers?_eq_none {outside : Occurrence → Bool} (h : isNested outside [] os = true)
    (hgroup : isGroup .leftBrace os = false) : objectMembers? os = none := by
  cases os with
  | nil => rfl
  | cons o rest =>
    rw [objectMembers?]
    split
    · next hbraces =>
      simp only [Bool.and_eq_true, decide_eq_true_eq] at hbraces
      obtain ⟨hopening, hcloses⟩ := hbraces
      obtain ⟨_, ⟨closing, hclosing, hrest⟩ | ⟨hclosing, _⟩ | ⟨hclosing, _⟩⟩ := isNested_cons h
      · rw [hopening] at hclosing
        obtain rfl := Option.some.inj hclosing
        have hgroup' : ∃ inside closing, rest = inside ++ [closing] ∧
            closing.kind = .rightBrace ∧ isNested anywhere [] inside = true :=
          exists_inside hrest hcloses
        obtain ⟨inside, closing, rfl, hlast, hinside⟩ := hgroup'
        have hbraces : isGroup .leftBrace (o :: (inside ++ [closing])) = true :=
          (isGroup_iff rfl).mpr ⟨o, inside, closing, rfl, hopening, hlast, hinside⟩
        simp [hbraces] at hgroup
      all_goals simp [hopening, Kind.closing?] at hclosing
    · rfl

end SourceFile

end TypeInliner

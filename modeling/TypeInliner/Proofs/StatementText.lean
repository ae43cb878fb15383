import TypeInliner.DeclarationSite
import TypeInliner.Proofs.StatementLocality
import TypeInliner.Proofs.TokenCuts

/-! # The text of a statement reads as the statement

The import statements of a source are found among its tokens, with what was read of each of them.
The text of a statement alone is read in the same way, although its tokens are found anew and
nothing follows them. -/

namespace TypeInliner

/-- Whether a statement that cannot be read goes on with a token of this kind on a new line. -/
def Kind.continuesLine : Kind → Bool
  | .keyword word => word = .fromWord
  | .string => true
  | .leftParen | .leftBracket | .leftBrace | .rightParen | .rightBracket | .rightBrace => true
  | _ => false

namespace ImportStatement

/-- A statement that is found at a place of some tokens, with others in front of it and behind. -/
inductive StandsIn (s : ImportStatement) (tokens : List Token) : Prop
  | mk (before rest : List Token) (split : tokens = before ++ s.first :: rest)
      (keyword : s.first.kind = .keyword .importWord)
      (others : s.others = rest.take (extent s.first rest).1)
      (outcome : s.outcome = (extent s.first rest).2)

theorem StandsIn.behind {s : ImportStatement} {tokens : List Token} (front : List Token)
    (h : s.StandsIn tokens) : s.StandsIn (front ++ tokens) := by
  obtain ⟨before, rest, rfl, hkeyword, hothers, houtcome⟩ := h
  exact ⟨front ++ before, rest, by rw [List.append_assoc], hkeyword, hothers, houtcome⟩

theorem standsIn_of_mem_piecesAfter {before : Option Kind} {tokens : List Token}
    {s : ImportStatement} (h : Piece.statement s ∈ piecesAfter before tokens) :
    s.StandsIn tokens := by
  induction hn : tokens.length using Nat.strongRecOn generalizing before tokens with
  | ind n ih =>
    cases tokens with
    | nil => simp [piecesAfter] at h
    | cons t rest =>
      rw [List.length_cons] at hn
      rw [piecesAfter] at h
      split at h
      · next hstarts =>
        dsimp only at h
        rcases List.mem_cons.mp h with hs | hs
        · obtain rfl := Piece.statement.inj hs
          have hkeyword : t.kind = .keyword .importWord := by
            simp only [starts, Bool.and_eq_true, decide_eq_true_eq] at hstarts
            exact hstarts.1.1.1
          exact ⟨[], rest, rfl, hkeyword, rfl, rfl⟩
        · have hlength : (rest.drop (extent t rest).1).length < n := by
            rw [List.length_drop]
            omega
          have hrest := (ih _ hlength hs rfl).behind (t :: rest.take (extent t rest).1)
          rwa [List.cons_append, List.take_append_drop] at hrest
      · rcases List.mem_cons.mp h with hs | hs
        · simp at hs
        · exact (ih rest.length (by omega) hs rfl).behind [t]

/-- Every import statement of a source stands among its tokens. -/
theorem standsIn_of_mem {source : Text} {s : ImportStatement} (h : s ∈ ofText source) :
    s.StandsIn (Token.ofText source) := by
  obtain ⟨piece, hpiece, hs⟩ := List.mem_filterMap.mp h
  cases piece with
  | other t => simp [Piece.statement?] at hs
  | statement s' =>
    obtain rfl := Option.some.inj hs
    exact standsIn_of_mem_piecesAfter hpiece

/-! ## A statement does not reach the end -/

/-- What each token does to the size of a statement that cannot be read. -/
theorem unreadSize_cons (depth : Nat) (t : Token) (rest : List Token) :
    unreadSize depth (t :: rest) =
      if t.kind = .ending then 0
      else if depth = 0 ∧ t.kind = .semicolon then 1
      else if depth = 0 ∧ t.kind = .string then
        if Token.headKind rest = .semicolon then 2 else 1
      else if depth = 0 ∧ t.newline = true ∧ t.kind.continuesLine = false then 0
      else 1 + unreadSize (nesting false depth t.kind) rest := by
  rw [unreadSize]
  by_cases hdepth : depth = 0
  · cases t.kind <;> simp [hdepth, Kind.continuesLine, nesting]
  · cases t.kind <;> simp [hdepth, nesting]

/-- A statement that cannot be read stops in front of the ending. -/
theorem take_unreadSize_ne_ending (depth : Nat) (rest : List Token) :
    ∀ t ∈ rest.take (unreadSize depth rest), t.kind ≠ .ending := by
  induction rest generalizing depth with
  | nil => simp
  | cons u rest ih =>
    rw [unreadSize_cons]
    split_ifs with hending _ _ hsemicolon
    · simp
    · simpa using hending
    · cases rest with
      | nil => simpa using hending
      | cons v rest =>
        have hv : v.kind = .semicolon := hsemicolon
        simp [hending, hv]
    · simpa using hending
    · simp
    · rw [Nat.add_comm, List.take_succ_cons]
      exact List.forall_mem_cons.mpr ⟨hending, ih _⟩

/-- At most a semicolon is dropped. -/
theorem exists_terminator (tokens : List Token) : ∃ terminator,
    tokens = terminator ++ ImportSpec.dropSemicolon tokens ∧
      (terminator = [] ∨ ∃ t, terminator = [t] ∧ t.kind = .semicolon) := by
  cases tokens with
  | nil => exact ⟨[], rfl, Or.inl rfl⟩
  | cons t rest =>
    by_cases ht : t.kind = .semicolon
    · exact ⟨[t], by rw [ImportSpec.dropSemicolon, if_pos ht]; rfl, Or.inr ⟨t, rfl, ht⟩⟩
    · exact ⟨[], by rw [ImportSpec.dropSemicolon, if_neg ht]; rfl, Or.inl rfl⟩

/-- A statement that can be read: its tokens up to the module specifier are read whatever follows
them, and at most a semicolon follows them. -/
structure ReadAs (tokens : List Token) (spec : ImportSpec) (core terminator : List Token) :
    Prop where
  split : tokens = core ++ terminator
  plain : ∀ t ∈ tokens, ImportSpec.IsPlain t.kind
  terminator : terminator = [] ∨ ∃ t, terminator = [t] ∧ t.kind = .semicolon
  again {like behind : List Token} : Alike like core →
    ImportSpec.unterminated (like ++ behind) = .ok (spec, behind)

theorem readAs_of_extent {first : Token} {rest : List Token} {spec : ImportSpec}
    (h : (extent first rest).2 = .ok spec) :
    ∃ core terminator, ReadAs (first :: rest.take (extent first rest).1) spec core terminator := by
  cases hread : ImportSpec.unterminated (first :: rest) with
  | error e => simp [extent, ImportSpec.statement, hread, Except.map] at h
  | ok result =>
    obtain ⟨spec', after⟩ := result
    have hextent : extent first rest =
        (rest.length - (ImportSpec.dropSemicolon after).length, .ok spec') := by
      simp [extent, ImportSpec.statement, hread, Except.map]
    rw [hextent] at h ⊢
    obtain rfl := Except.ok.inj h
    obtain ⟨t, used, htakes⟩ := ImportSpec.unterminated_takes hread
    obtain ⟨rfl, hrest⟩ := List.cons.inj htakes.split
    obtain ⟨terminator, hafter, hterminator⟩ := exists_terminator after
    replace hrest : rest = (used ++ terminator) ++ ImportSpec.dropSemicolon after := by
      rw [List.append_assoc, ← hafter]
      exact hrest
    have htake : rest.take (rest.length - (ImportSpec.dropSemicolon after).length) =
        used ++ terminator := by
      conv_lhs => rw [hrest]
      rw [List.length_append, Nat.add_sub_cancel, List.take_left]
    rw [htake]
    have hplain : ∀ t ∈ terminator, ImportSpec.IsPlain t.kind := by
      rcases hterminator with rfl | ⟨u, rfl, hu⟩
      · simp
      · simpa using ImportSpec.IsPlain.of_eq hu (by decide)
    exact ⟨first :: used, terminator, rfl, List.forall_mem_append.mpr ⟨htakes.plain, hplain⟩,
      hterminator, htakes.again⟩

/-- No token of a statement is an ending. -/
theorem StandsIn.kind_ne_ending {s : ImportStatement} {source : List Token}
    (h : s.StandsIn source) : ∀ t ∈ s.tokens, t.kind ≠ .ending := by
  obtain ⟨before, rest, hsplit, hkeyword, hothers, _⟩ := h
  intro t ht
  rw [tokens, hothers] at ht
  cases hstatement : ImportSpec.statement (s.first :: rest) with
  | ok result =>
    obtain ⟨core, terminator, hreads⟩ := readAs_of_extent
      (show (extent s.first rest).2 = .ok result.1 by simp [extent, hstatement])
    exact (hreads.plain t ht).1
  | error e =>
    have hsize : (extent s.first rest).1 = unreadSize 0 rest := by simp [extent, hstatement]
    rcases List.mem_cons.mp ht with rfl | ht
    · simp [hkeyword]
    · rw [hsize] at ht
      exact take_unreadSize_ne_ending 0 rest t ht

/-! ## Reading the text -/

/-- The text of a statement has tokens like those of the statement, and an ending. -/
theorem StandsIn.ofText_text {s : ImportStatement} {source : Text}
    (h : s.StandsIn (Token.ofText source)) : ∃ like last, Token.ofText s.text = like ++ [last] ∧
      Alike like s.tokens ∧ last.kind = .ending := by
  have hkind := h.kind_ne_ending
  obtain ⟨before, rest, hsplit, _, hothers, _⟩ := h
  have hplace : Token.ofText source = before ++
      (s.first :: s.others ++ rest.drop (extent s.first rest).1) := by
    rw [hsplit, hothers, List.cons_append, List.take_append_drop]
  obtain ⟨first, others, last, hread, hfirst, hothers⟩ := Token.ofTextAt_joined hplace hkind 0
  refine ⟨first :: others, Token.endingAt last [], hread, ?_, rfl⟩
  have hfront := congrArg Token.seen hfirst
  have hbehind := congrArg (List.map Token.seen) hothers
  simp only [List.map_map] at hbehind
  exact congrArg₂ List.cons hfront hbehind

theorem ofTokens_ok {tokens : List Token} {spec : ImportSpec} :
    ImportSpec.ofTokens tokens = .ok spec ↔ (∀ t ∈ tokens, t.kind ≠ .malformed) ∧
      ∃ rest, ImportSpec.unterminated tokens = .ok (spec, rest) ∧
        (ImportSpec.current (ImportSpec.dropSemicolon rest)).kind = .ending := by
  unfold ImportSpec.ofTokens
  cases hbad : tokens.find? (·.kind = .malformed) with
  | some bad =>
    have hkind := List.find?_some hbad
    simp only [decide_eq_true_eq] at hkind
    simp only [throw, throwThe, MonadExceptOf.throw]
    constructor
    · intro h
      simp at h
    · exact fun h => absurd hkind (h.1 bad (List.mem_of_find?_eq_some hbad))
  | none =>
    have hplain : ∀ t ∈ tokens, t.kind ≠ .malformed := by simpa using hbad
    cases hread : ImportSpec.unterminated tokens with
    | error e => simp [ImportSpec.statement, hread, Except.map, bind, Except.bind]
    | ok result =>
      obtain ⟨read, rest⟩ := result
      simp only [ImportSpec.statement, hread, Except.map, bind, Except.bind, pure, Except.pure]
      split
      · next hending =>
        constructor
        · intro h
          obtain rfl := Except.ok.inj h
          exact ⟨hplain, rest, rfl, hending⟩
        · rintro ⟨_, rest', hrest, _⟩
          obtain ⟨rfl, _⟩ := Prod.mk.inj (Except.ok.inj hrest)
          rfl
      · next hending => simp [hending, throw, throwThe, MonadExceptOf.throw]

/-- What is read of some tokens in front of an ending is read wherever their like stand. -/
theorem unterminated_of_alike {like tokens behind : List Token} {last : Token} {spec : ImportSpec}
    (halike : Alike like tokens) (hlast : last.kind = .ending)
    (h : ImportSpec.unterminated (like ++ [last]) = .ok (spec, behind)) (others : List Token) :
    ∃ rest, ImportSpec.unterminated (tokens ++ others) = .ok (spec, rest) := by
  obtain ⟨t, used, htakes⟩ := ImportSpec.unterminated_takes h
  -- The ending is not among the tokens that are read.
  have hlike : ∃ extra, like = t :: used ++ extra := by
    rcases List.append_eq_append_iff.mp htakes.split with ⟨more, hused, hmore⟩ | ⟨extra, hextra, _⟩
    · cases more with
      | nil => exact ⟨[], by rw [hused, List.append_nil, List.append_nil]⟩
      | cons u more =>
        obtain ⟨rfl, _⟩ := List.cons.inj hmore
        have hmem : last ∈ t :: used := by
          rw [hused]
          simp
        exact absurd hlast (htakes.plain last hmem).1
    · exact ⟨extra, hextra⟩
  obtain ⟨extra, rfl⟩ := hlike
  obtain ⟨us, vs, rfl, hus, _⟩ := halike.symm.append
  rw [List.append_assoc]
  exact ⟨_, htakes.again hus⟩

/-- The text of a statement reads as the statement, and it reads as nothing where the statement
cannot be read. -/
theorem ofText_text_eq_ok {s : ImportStatement} {source : Text} (h : s ∈ ofText source)
    (spec : ImportSpec) : ImportSpec.ofText s.text = .ok spec ↔ s.outcome = .ok spec := by
  have hstands := standsIn_of_mem h
  obtain ⟨like, last, hlike, halike, hlast⟩ := hstands.ofText_text
  obtain ⟨before, rest, hsplit, _, hothers, houtcome⟩ := hstands
  rw [ImportSpec.ofText, hlike, ofTokens_ok, houtcome]
  constructor
  · rintro ⟨_, behind, hread, _⟩
    obtain ⟨after, hagain⟩ := unterminated_of_alike halike hlast hread
      (rest.drop (extent s.first rest).1)
    rw [tokens, hothers, List.cons_append, List.take_append_drop] at hagain
    simp [extent, ImportSpec.statement, hagain, Except.map]
  · intro hspec
    obtain ⟨core, terminator, hreads⟩ := readAs_of_extent hspec
    rw [← hothers] at hreads
    replace halike : Alike like (core ++ terminator) := by
      rw [← hreads.split]
      exact halike
    refine ⟨?_, ?_⟩
    · intro t ht
      rcases List.mem_append.mp ht with ht | ht
      · obtain ⟨u, hu, hkind⟩ := halike.exists_kind ht
        rw [← hreads.split] at hu
        rw [hkind]
        exact (hreads.plain u hu).2
      · simp [List.mem_singleton.mp ht, hlast]
    · obtain ⟨like₁, like₂, rfl, hcore, hterminator⟩ := halike.append
      refine ⟨like₂ ++ [last], ?_, ?_⟩
      · rw [List.append_assoc]
        exact hreads.again hcore
      rcases hreads.terminator with rfl | ⟨u, rfl, hu⟩
      · rw [hterminator.nil]
        simp [ImportSpec.dropSemicolon, ImportSpec.current, hlast]
      · obtain ⟨u', like₂, rfl, hkind, _, hnil⟩ := hterminator.cons
        rw [hnil.nil]
        simp [ImportSpec.dropSemicolon, ImportSpec.current, hkind, hu, hlast]

end ImportStatement

end TypeInliner

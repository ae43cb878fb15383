import TypeInliner.Proofs.SourceTiling

/-! # Pieces of a source are read alike

What a source has from the beginning of one token to the end of another has, read alone, the tokens
that the source has there. Neither what stands in front of the piece nor what stands behind it makes
a difference, even if its last token is a literal that is not closed. -/

namespace TypeInliner.Token

/-- A token stands for the same as another one, which stands a distance further back. -/
structure IsMoved (distance : Nat) (read t : Token) : Prop where
  kind : read.kind = t.kind
  value : read.value = t.value
  text : read.text = t.text
  start : read.span.start + distance = t.span.start
  stop : read.span.stop + distance = t.span.stop

theorem isMoved_moved (distance : Nat) (t : Token) : IsMoved distance t (t.moved distance) where
  kind := rfl
  value := rfl
  text := rfl
  start := rfl
  stop := Nat.add_right_comm _ _ _

/-- To read a token without its gap is to read the same token. -/
theorem IsMoved.of_withoutGap {distance : Nat} {read t : Token}
    (h : IsMoved distance read t.withoutGap) : IsMoved distance read t :=
  ⟨h.kind, h.value, h.text, h.start, h.stop⟩

/-- Tokens in a row that are not the last ones of a source have no ending among them. -/
theorem ne_ending_of_behind {source : Text} {before own behind : List Token}
    (h : ofText source = before ++ (own ++ behind)) (hbehind : behind ≠ []) :
    ∀ t ∈ own, t.kind ≠ .ending := by
  obtain ⟨others, last, hsource, _, _, hothers⟩ := exists_ending source
  obtain ⟨front, final, rfl⟩ := (List.eq_nil_or_concat' behind).resolve_left hbehind
  rw [h, ← List.append_assoc, ← List.append_assoc] at hsource
  obtain ⟨rfl, _⟩ := List.append_inj' hsource rfl
  intro t ht
  exact hothers t (by simp [ht])

/-- A piece of a source between two of its tokens is read as these tokens and what stands between
them, moved to the front. Only the first one loses what stands in front of it. -/
theorem ofText_slice {source : Text} {before others behind : List Token} {first : Token}
    (h : ofText source = before ++ (first :: others ++ behind)) (hbehind : behind ≠ []) :
    let part := (Span.mk first.start (endOf (before ++ first :: others))).slice source
    ∃ tok rest, ofText part = tok :: rest ++ [endingAt (Text.bytes part) []] ∧
      tok.moved first.start = first.withoutGap ∧ rest.map (moved first.start) = others := by
  intro part
  have hpart : part = joined (first :: others) := slice_joined h
  have hread := ofText_joined h (ne_ending_of_behind h hbehind)
  rw [← hpart] at hread
  obtain ⟨read, ending, hsplit, hfront, hlast⟩ := List.map_eq_append_iff.mp hread
  obtain ⟨tok, rest, rfl, htok, hrest⟩ := List.map_eq_cons_iff.mp hfront
  obtain ⟨last, nothing, rfl, hending, hnil⟩ := List.map_eq_cons_iff.mp hlast
  obtain rfl := List.map_eq_nil_iff.mp hnil
  obtain ⟨hplace, hstart⟩ := eq_endingAt_of_moved hending
  have hsize : last.start = Text.bytes part := by
    rw [Nat.add_comm] at hstart
    exact Nat.add_left_cancel hstart
  refine ⟨tok, rest, ?_, htok, hrest⟩
  rw [hsplit, hplace, hsize]

/-- Tokens in a row, by their positions. -/
theorem exists_split {source : Text} {i j : Nat} (hij : i ≤ j)
    (hj : j + 1 < (ofText source).length) : ∃ before first others behind,
      ofText source = before ++ (first :: others ++ behind) ∧ behind ≠ [] ∧
        i = before.length ∧ j = before.length + others.length := by
  refine ⟨(ofText source).take i, (ofText source)[i], ((ofText source).drop (i + 1)).take (j - i),
    (ofText source).drop (j + 1), ?_, ?_, ?_, ?_⟩
  · have hbehind : (ofText source).drop (j + 1) = ((ofText source).drop (i + 1)).drop (j - i) := by
      rw [List.drop_drop]
      congr 1
      omega
    rw [hbehind, List.cons_append, List.take_append_drop, ← List.drop_eq_getElem_cons,
      List.take_append_drop]
  · exact fun hnil => absurd (List.drop_eq_nil_iff.mp hnil) (by omega)
  · rw [List.length_take]
    omega
  · rw [List.length_take, List.length_take, List.length_drop]
    omega

/-- The piece of a source from the beginning of one token to the end of another that is not its
ending has exactly the tokens that the source has there, moved to the front, and then an ending.
Only behind the first token is it certain that line breaks are seen as they are in the source. -/
theorem slices_read_alike (source : Text) {i j : Nat} (hij : i ≤ j)
    (hj : j + 1 < (ofText source).length) :
    let part := (Span.mk (ofText source)[i].span.start (ofText source)[j].span.stop).slice source
    (ofText part).length = j - i + 2 ∧
      (∀ n ≤ j - i, ∃ t read, (ofText source)[i + n]? = some t ∧ (ofText part)[n]? = some read ∧
        IsMoved (ofText source)[i].span.start read t ∧ (0 < n → read.newline = t.newline)) ∧
      (ofText part)[j - i + 1]? = some (endingAt (Text.bytes part) []) := by
  obtain ⟨before, first, others, behind, hsplit, hbehind, rfl, rfl⟩ := exists_split hij hj
  have hget (n : Nat) (hn : n ≤ others.length) :
      (ofText source)[before.length + n]? = (first :: others)[n]? := by
    rw [hsplit, List.getElem?_append_right (Nat.le_add_right _ _), Nat.add_sub_cancel_left,
      List.getElem?_append_left (by rw [List.length_cons]; omega)]
  have hfirst : (ofText source)[before.length] = first := by
    have := hget 0 (Nat.zero_le _)
    rw [Nat.add_zero, List.getElem?_eq_getElem (by omega), List.getElem?_cons_zero] at this
    exact Option.some.inj this
  have hlast : endOf (before ++ first :: others) =
      (ofText source)[before.length + others.length].span.stop := by
    have : (before ++ first :: others).getLast? =
        some (ofText source)[before.length + others.length] := by
      rw [← List.getElem?_eq_getElem, hget _ (Nat.le_refl _), List.getLast?_append_of_ne_nil _
        (List.cons_ne_nil _ _), List.getLast?_eq_getElem?, List.length_cons, Nat.add_sub_cancel]
    rw [endOf, this]
    rfl
  obtain ⟨tok, rest, hread, htok, hrest⟩ := ofText_slice hsplit hbehind
  rw [hlast, ← hfirst] at hread
  intro part
  change ofText part = tok :: rest ++ [endingAt (Text.bytes part) []] at hread
  have hlength : rest.length = others.length := by rw [← hrest, List.length_map]
  rw [Nat.add_sub_cancel_left, hread]
  refine ⟨by simp [hlength], fun n hn => ?_, ?_⟩
  · rw [hget n hn, hfirst]
    cases n with
    | zero =>
      refine ⟨first, tok, rfl, rfl, ?_, fun h => absurd h (Nat.lt_irrefl 0)⟩
      have hmoved := isMoved_moved first.start tok
      rw [htok] at hmoved
      exact hmoved.of_withoutGap
    | succ n =>
      have hn : n < rest.length := by omega
      refine ⟨rest[n].moved first.start, rest[n], ?_, ?_, isMoved_moved _ _, fun _ => rfl⟩
      · rw [List.getElem?_cons_succ, ← hrest, List.getElem?_map, List.getElem?_eq_getElem hn,
          Option.map_some]
      · rw [List.cons_append, List.getElem?_cons_succ, List.getElem?_append_left hn,
          List.getElem?_eq_getElem hn]
  · rw [List.cons_append, List.getElem?_cons_succ, ← hlength, List.getElem?_concat_length]

/-- A number with a sign behind a comment, and a string that is not closed. -/
def looseSource : Text := "a/*b*/1e+5 + c\n'd".toList

theorem looseSource_reads_alike : ∃ hlength : 4 + 1 < (ofText looseSource).length,
    let part := (Span.mk (ofText looseSource)[1].span.start
      (ofText looseSource)[4].span.stop).slice looseSource
    part = "1e+5 + c\n'd".toList ∧ (ofText part).length = 5 ∧
      (ofText part)[3]?.map (fun t => (t.kind, t.newline)) = some (.malformed, true) ∧
      ∃ t read, (ofText looseSource)[1 + 3]? = some t ∧ (ofText part)[3]? = some read ∧
        IsMoved 6 read t ∧ read.newline = t.newline := by
  have hlength : 4 + 1 < (ofText looseSource).length := by decide +kernel
  have hstart : (ofText looseSource)[1].span.start = 6 := by decide +kernel +revert
  refine ⟨hlength, by decide +kernel +revert, ?_, by decide +kernel +revert, ?_⟩
  · exact (slices_read_alike looseSource (by decide : 1 ≤ 4) hlength).1
  · obtain ⟨t, read, ht, hread, hmoved, hnewline⟩ :=
      (slices_read_alike looseSource (by decide : 1 ≤ 4) hlength).2.1 3 (by decide)
    exact ⟨t, read, ht, hread, hstart ▸ hmoved, hnewline (by decide)⟩

end TypeInliner.Token

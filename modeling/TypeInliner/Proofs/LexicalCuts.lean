import Mathlib.Data.List.Basic
import TypeInliner.Token.Lexer

/-! # Reading a text that is cut short or goes on in another way

Blanks, comments and tokens are read from the front, as far as they go. A text that is cut behind
what has been read is read in the same way up to the cut, and it goes on being read in this way if a
separator stands behind the cut. -/

namespace TypeInliner.Token

/-! ## Blanks and comments -/

theorem gapSize_line (t : Text) : gapSize ('/' :: '/' :: t) = 2 + lineCommentSize t := by
  rw [gapSize]

theorem gapSize_block (t : Text) : gapSize ('/' :: '*' :: t) =
    match blockCommentSize? t with
    | some n => 2 + n
    | none => 0 :=
  gapSize.eq_def _

theorem gapSize_plain {c : Char} {t : Text}
    (h : c = '/' → t.head? ≠ some '/' ∧ t.head? ≠ some '*') :
    gapSize (c :: t) = if Text.isBlank c then 1 + gapSize t else 0 := by
  rw [gapSize.eq_4]
  · rintro u hc rfl
    exact (h hc).1 rfl
  · rintro u hc rfl
    exact (h hc).2 rfl

theorem lineCommentSize_cons (c : Char) (t : Text) :
    lineCommentSize (c :: t) = if c = '\n' then 1 + gapSize t else 1 + lineCommentSize t := by
  split
  · next h => rw [h, lineCommentSize]
  · next h => rw [lineCommentSize]; exact h

theorem blockCommentSize?_close (t : Text) :
    blockCommentSize? ('*' :: '/' :: t) = some (2 + gapSize t) := by
  rw [blockCommentSize?]

theorem blockCommentSize?_plain {c : Char} {t : Text} (h : c = '*' → t.head? ≠ some '/') :
    blockCommentSize? (c :: t) = (blockCommentSize? t).map (1 + ·) := by
  rw [blockCommentSize?.eq_3]
  rintro u hc rfl
  exact h hc rfl

private theorem blockCommentSize?_append_isSome {s : Text} (b : Text)
    (h : (blockCommentSize? s).isSome = true) : (blockCommentSize? (s ++ b)).isSome = true := by
  induction s with
  | nil => simp [blockCommentSize?] at h
  | cons c s ih =>
    cases s with
    | nil => simp [blockCommentSize?] at h
    | cons d s =>
      by_cases hclose : c = '*' ∧ d = '/'
      · obtain ⟨rfl, rfl⟩ := hclose
        rw [List.cons_append, List.cons_append, blockCommentSize?_close]
        rfl
      · have hplain : ∀ t : Text, c = '*' → (d :: t).head? ≠ some '/' := by
          intro t hc hd
          exact hclose ⟨hc, Option.some.inj hd⟩
        rw [blockCommentSize?_plain (hplain s), Option.isSome_map] at h
        rw [List.cons_append, List.cons_append, blockCommentSize?_plain (hplain (s ++ b)),
          Option.isSome_map]
        exact ih h

private theorem two_le_blockCommentSize {s : Text} {n : Nat} (h : blockCommentSize? s = some n) :
    2 ≤ n := by
  induction s generalizing n with
  | nil => simp [blockCommentSize?] at h
  | cons c s ih =>
    by_cases hclose : c = '*' ∧ s.head? = some '/'
    · obtain ⟨rfl, hs⟩ := hclose
      obtain ⟨t, rfl⟩ := List.head?_eq_some_iff.mp hs
      rw [blockCommentSize?_close, Option.some.injEq] at h
      omega
    · rw [blockCommentSize?_plain fun hc hs => hclose ⟨hc, hs⟩] at h
      obtain ⟨m, hm, rfl⟩ := Option.map_eq_some_iff.mp h
      have := ih hm
      omega

/-- The three readers of blanks and comments, on a text that goes on with `b`. -/
private structure CutsAlike (s b : Text) : Prop where
  gap : gapSize (s ++ b) ≤ s.length → gapSize s = gapSize (s ++ b)
  line : lineCommentSize (s ++ b) ≤ s.length → lineCommentSize s = lineCommentSize (s ++ b)
  block {n : Nat} : blockCommentSize? (s ++ b) = some n → n ≤ s.length →
    blockCommentSize? s = some n

private theorem CutsAlike.nil (b : Text) : CutsAlike [] b where
  gap h := by simpa [gapSize, eq_comm] using h
  line h := by simpa [lineCommentSize, eq_comm] using h
  block h hle := by
    have := two_le_blockCommentSize h
    simp only [List.length_nil] at hle
    omega

private theorem CutsAlike.singleton (c : Char) (b : Text) : CutsAlike [c] b where
  gap h := by
    have hone : gapSize [c] = if Text.isBlank c then 1 else 0 := by
      rw [gapSize_plain (by simp)]
      simp [gapSize]
    rw [hone]
    simp only [List.singleton_append, List.length_singleton] at h ⊢
    by_cases hslash : c = '/'
    · subst hslash
      have hblank : Text.isBlank '/' = false := by decide
      rw [hblank]
      by_cases hline : b.head? = some '/'
      · obtain ⟨t, rfl⟩ := List.head?_eq_some_iff.mp hline
        rw [gapSize_line] at h
        omega
      by_cases hblock : b.head? = some '*'
      · obtain ⟨t, rfl⟩ := List.head?_eq_some_iff.mp hblock
        rw [gapSize_block] at h ⊢
        cases hn : blockCommentSize? t with
        | some n =>
          rw [hn] at h
          change 2 + n ≤ 1 at h
          omega
        | none => rfl
      · rw [gapSize_plain fun _ => ⟨hline, hblock⟩, hblank]
        rfl
    · rw [gapSize_plain fun hc => absurd hc hslash] at h ⊢
      split at h
      · next hblank =>
        rw [if_pos hblank, if_pos hblank]
        omega
      · next hblank => rw [if_neg hblank, if_neg hblank]
  line h := by
    simp only [List.singleton_append, List.length_singleton, lineCommentSize_cons] at h ⊢
    split at h
    · next hc => rw [if_pos hc, if_pos hc]; simp only [gapSize]; omega
    · next hc => rw [if_neg hc, if_neg hc]; simp only [lineCommentSize]; omega
  block h hle := by
    have := two_le_blockCommentSize h
    simp only [List.length_singleton] at hle
    omega

section

variable {c d : Char} {s b : Text} (hs : CutsAlike s b) (hds : CutsAlike (d :: s) b)

include hs

private theorem CutsAlike.gap_block
    (h : gapSize ('/' :: '*' :: (s ++ b)) ≤ s.length + 2) :
    gapSize ('/' :: '*' :: s) = gapSize ('/' :: '*' :: (s ++ b)) := by
  rw [gapSize_block] at h ⊢
  rw [gapSize_block]
  cases hfull : blockCommentSize? (s ++ b) with
  | some n =>
    rw [hfull] at h
    change 2 + n ≤ s.length + 2 at h
    rw [hs.block hfull (by omega)]
  | none =>
    cases hcut : blockCommentSize? s with
    | none => rfl
    | some n =>
      have := blockCommentSize?_append_isSome b (by rw [hcut]; rfl)
      simp [hfull] at this

include hds

private theorem CutsAlike.gap_cons (h : gapSize (c :: d :: (s ++ b)) ≤ s.length + 2) :
    gapSize (c :: d :: s) = gapSize (c :: d :: (s ++ b)) := by
  by_cases hline : c = '/' ∧ d = '/'
  · obtain ⟨rfl, rfl⟩ := hline
    rw [gapSize_line] at h ⊢
    rw [gapSize_line, hs.line (by omega)]
  by_cases hblock : c = '/' ∧ d = '*'
  · obtain ⟨rfl, rfl⟩ := hblock
    exact hs.gap_block h
  have hplain : ∀ t : Text, c = '/' → (d :: t).head? ≠ some '/' ∧ (d :: t).head? ≠ some '*' := by
    intro t hc
    simp only [List.head?_cons, ne_eq, Option.some.injEq]
    exact ⟨fun hd => hline ⟨hc, hd⟩, fun hd => hblock ⟨hc, hd⟩⟩
  have hgap : gapSize (d :: (s ++ b)) ≤ s.length + 1 →
      gapSize (d :: s) = gapSize (d :: (s ++ b)) := hds.gap
  rw [gapSize_plain (hplain (s ++ b))] at h ⊢
  rw [gapSize_plain (hplain s)]
  split at h
  · next hblank => rw [if_pos hblank, if_pos hblank, hgap (by omega)]
  · next hblank => rw [if_neg hblank, if_neg hblank]

omit hs in
private theorem CutsAlike.line_cons (h : lineCommentSize (c :: d :: (s ++ b)) ≤ s.length + 2) :
    lineCommentSize (c :: d :: s) = lineCommentSize (c :: d :: (s ++ b)) := by
  have hgap : gapSize (d :: (s ++ b)) ≤ s.length + 1 →
      gapSize (d :: s) = gapSize (d :: (s ++ b)) := hds.gap
  have hrest : lineCommentSize (d :: (s ++ b)) ≤ s.length + 1 →
      lineCommentSize (d :: s) = lineCommentSize (d :: (s ++ b)) := hds.line
  simp only [lineCommentSize_cons c] at h ⊢
  split at h
  · next hc => rw [if_pos hc, if_pos hc, hgap (by omega)]
  · next hc => rw [if_neg hc, if_neg hc, hrest (by omega)]

private theorem CutsAlike.block_cons {n : Nat} (h : blockCommentSize? (c :: d :: (s ++ b)) = some n)
    (hle : n ≤ s.length + 2) : blockCommentSize? (c :: d :: s) = some n := by
  by_cases hclose : c = '*' ∧ d = '/'
  · obtain ⟨rfl, rfl⟩ := hclose
    rw [blockCommentSize?_close, Option.some.injEq] at h
    rw [blockCommentSize?_close, hs.gap (by omega), h]
  have hplain : ∀ t : Text, c = '*' → (d :: t).head? ≠ some '/' := by
    intro t hc hd
    exact hclose ⟨hc, Option.some.inj hd⟩
  rw [blockCommentSize?_plain (hplain (s ++ b))] at h
  rw [blockCommentSize?_plain (hplain s)]
  obtain ⟨m, hm, rfl⟩ := Option.map_eq_some_iff.mp h
  rw [hds.block hm (by simp only [List.length_cons]; omega)]
  rfl

end

/-- What ends in front of a cut does not depend on what was behind it. -/
private theorem cutsAlike (s b : Text) : CutsAlike s b := by
  induction hn : s.length using Nat.strongRecOn generalizing s with
  | ind n ih =>
    match s, hn with
    | [], _ => exact .nil b
    | [c], _ => exact .singleton c b
    | c :: d :: s, hn =>
      simp only [List.length_cons] at hn
      have hs : CutsAlike s b := ih s.length (by omega) s rfl
      have hds : CutsAlike (d :: s) b := ih (s.length + 1) (by omega) (d :: s) rfl
      exact ⟨hs.gap_cons hds, hds.line_cons, hs.block_cons hds⟩

/-- Blanks and comments that end in front of a cut are the same behind it. -/
theorem gapSize_append {s b : Text} (h : gapSize (s ++ b) ≤ s.length) :
    gapSize s = gapSize (s ++ b) := (cutsAlike s b).gap h

/-- What follows the three readers of blanks and comments begins with no gap. -/
private structure EndsGap (t : Text) : Prop where
  gap : gapSize (t.drop (gapSize t)) = 0
  line : gapSize (t.drop (lineCommentSize t)) = 0
  block {n : Nat} : blockCommentSize? t = some n → gapSize (t.drop n) = 0

private theorem EndsGap.gap_cons {c : Char} {t : Text} (ht : EndsGap t) (hu : EndsGap (t.drop 1)) :
    gapSize ((c :: t).drop (gapSize (c :: t))) = 0 := by
  by_cases hslash : c = '/' ∧ (t.head? = some '/' ∨ t.head? = some '*')
  · obtain ⟨rfl, hline | hblock⟩ := hslash
    · obtain ⟨u, rfl⟩ := List.head?_eq_some_iff.mp hline
      rw [gapSize_line, Nat.add_comm]
      exact hu.line
    · obtain ⟨u, rfl⟩ := List.head?_eq_some_iff.mp hblock
      have hsize := gapSize_block u
      cases hn : blockCommentSize? u with
      | some n =>
        rw [hn] at hsize
        change gapSize ('/' :: '*' :: u) = 2 + n at hsize
        rw [hsize, Nat.add_comm]
        exact hu.block hn
      | none =>
        rw [hn] at hsize
        change gapSize ('/' :: '*' :: u) = 0 at hsize
        rw [hsize]
        exact hsize
  · have hplain := gapSize_plain fun hc => not_or.mp fun h => hslash ⟨hc, h⟩
    by_cases hblank : Text.isBlank c = true
    · rw [if_pos hblank] at hplain
      rw [hplain, Nat.add_comm]
      exact ht.gap
    · rw [if_neg hblank] at hplain
      rw [hplain]
      exact hplain

private theorem endsGap (t : Text) : EndsGap t := by
  induction hn : t.length using Nat.strongRecOn generalizing t with
  | ind n ih =>
    cases t with
    | nil => exact ⟨by simp [gapSize], by simp [gapSize], by simp [blockCommentSize?]⟩
    | cons c t =>
      simp only [List.length_cons] at hn
      have ht : EndsGap t := ih t.length (by omega) t rfl
      have hu : EndsGap (t.drop 1) :=
        ih (t.drop 1).length (by rw [List.length_drop]; omega) _ rfl
      refine ⟨ht.gap_cons hu, ?_, ?_⟩
      · rw [lineCommentSize_cons]
        split
        · rw [Nat.add_comm]
          exact ht.gap
        · rw [Nat.add_comm]
          exact ht.line
      · intro k hk
        by_cases hclose : c = '*' ∧ t.head? = some '/'
        · obtain ⟨rfl, hs⟩ := hclose
          obtain ⟨u, rfl⟩ := List.head?_eq_some_iff.mp hs
          rw [blockCommentSize?_close, Option.some.injEq] at hk
          rw [← hk, Nat.add_comm]
          exact hu.gap
        · rw [blockCommentSize?_plain fun hc hs => hclose ⟨hc, hs⟩] at hk
          obtain ⟨m, hm, rfl⟩ := Option.map_eq_some_iff.mp hk
          rw [Nat.add_comm]
          exact ht.block hm

/-- Behind the blanks and comments in front of a token there are no more of them. -/
theorem gapSize_drop (t : Text) : gapSize (t.drop (gapSize t)) = 0 := (endsGap t).gap

theorem gapSize_of_blank {c : Char} {t : Text} (h : Text.isBlank c = true) :
    gapSize (c :: t) = 1 + gapSize t := by
  rw [gapSize_plain, if_pos h]
  rintro rfl
  exact absurd h (by decide)

/-! ## Literals and runs of characters -/

/-- Number of characters of a literal behind its opening mark. -/
def LiteralBody.size : LiteralBody → Nat
  | closed n _ => n
  | unclosed n => n

@[simp] theorem LiteralBody.size_grow (n : Nat) (value : Text) (body : LiteralBody) :
    (body.grow n value).size = n + body.size := by
  cases body <;> rfl

def LiteralBody.isClosed : LiteralBody → Bool
  | closed .. => true
  | unclosed .. => false

@[simp] theorem LiteralBody.isClosed_grow (n : Nat) (value : Text) (body : LiteralBody) :
    (body.grow n value).isClosed = body.isClosed := by
  cases body <;> rfl

/-- A literal that reaches a place unfinished is still unfinished if what stands behind that place
is replaced by a text that begins in the same way, or by nothing. -/
def LiteralBody.Admits (body : LiteralBody) (s b b' : Text) : Prop :=
  body.isClosed = false → body.size = s.length → ∀ d ∈ b'.head?, b.head? = some d

theorem LiteralBody.Admits.of_grow {body : LiteralBody} {value s b b' : Text} (front : Text)
    (h : (body.grow front.length value).Admits (front ++ s) b b') : body.Admits s b b' := by
  intro hopen hsize
  refine h (by simpa using hopen) ?_
  rw [size_grow, List.length_append, hsize]

/-- Nothing can replace the end of a text behind an unfinished literal. -/
theorem LiteralBody.Admits.eq_nil {body : LiteralBody} {s b' : Text} (h : body.Admits s [] b')
    (hopen : body.isClosed = false) (hsize : body.size = s.length) : b' = [] := by
  cases b' with
  | nil => rfl
  | cons d b' => exact absurd (h hopen hsize d rfl) (by simp)

theorem stringBody_plain {quote c : Char} {t : Text} (h : c ≠ '\\') : stringBody quote (c :: t) =
    if c = quote then .closed 1 []
    else if c = '\n' then .unclosed 0
    else (stringBody quote t).grow 1 [c] := by
  rw [stringBody.eq_4]
  · exact fun hc _ => h hc
  · exact fun _ _ hc _ => h hc

private theorem ne_of_no_escape {c : Char} {t : Text} (hlast : c = '\\' → t = [] → False)
    (hpair : ∀ d u, c = '\\' → t = d :: u → False) : c ≠ '\\' := by
  intro hc
  cases t with
  | nil => exact hlast hc rfl
  | cons d u => exact hpair d u hc rfl

/-- A string of no characters is unfinished: the text ends there, or the line does. -/
private theorem stringBody_size_zero {quote : Char} {b : Text}
    (h : (stringBody quote b).size ≤ 0) : stringBody quote b = .unclosed 0 ∧
      (b = [] ∨ ∀ b' : Text, b'.head? = b.head? → stringBody quote b' = .unclosed 0) := by
  cases b with
  | nil => exact ⟨rfl, Or.inl rfl⟩
  | cons c b =>
    by_cases hc : c = '\\'
    · subst hc
      cases b with
      | nil => simp [stringBody, LiteralBody.size] at h
      | cons d b =>
        rw [stringBody, LiteralBody.size_grow] at h
        omega
    · rw [stringBody_plain hc] at h ⊢
      split at h
      · simp [LiteralBody.size] at h
      next hquote =>
      split at h
      · next hline =>
        rw [if_neg hquote, if_pos hline]
        refine ⟨rfl, Or.inr fun b' hb' => ?_⟩
        obtain ⟨u, rfl⟩ := List.head?_eq_some_iff.mp hb'
        rw [stringBody_plain hc, if_neg hquote, if_pos hline]
      · rw [LiteralBody.size_grow] at h
        omega

theorem stringBody_exchange {quote : Char} {s b b' : Text}
    (h : (stringBody quote (s ++ b)).size ≤ s.length)
    (hb : (stringBody quote (s ++ b)).Admits s b b') :
    stringBody quote (s ++ b') = stringBody quote (s ++ b) := by
  fun_induction stringBody quote s with
  | case1 =>
    rw [List.nil_append] at h hb ⊢
    obtain ⟨hbody, hcases⟩ := stringBody_size_zero h
    rw [hbody] at hb
    rw [List.nil_append]
    rcases hcases with rfl | hsame
    · rw [hb.eq_nil rfl rfl]
    cases b' with
    | nil => exact hbody.symm
    | cons d b' => rw [hbody, hsame (d :: b') (hb rfl rfl d rfl).symm]
  | case2 =>
    cases b with
    | nil => rw [hb.eq_nil rfl rfl]
    | cons c b =>
      rw [List.cons_append, List.nil_append, stringBody, LiteralBody.size_grow] at h
      simp only [List.length_singleton] at h
      omega
  | case3 c t ih =>
    simp only [List.cons_append, stringBody, LiteralBody.size_grow, List.length_cons] at h hb ⊢
    rw [ih (by omega) (.of_grow ['\\', c] hb)]
  | case4 t hlast hpair =>
    have hc := ne_of_no_escape hlast hpair
    rw [List.cons_append, List.cons_append, stringBody_plain hc, stringBody_plain hc, if_pos rfl,
      if_pos rfl]
  | case5 t hlast hpair hquote =>
    have hc := ne_of_no_escape hlast hpair
    rw [List.cons_append, List.cons_append, stringBody_plain hc, stringBody_plain hc,
      if_neg hquote, if_neg hquote, if_pos rfl, if_pos rfl]
  | case6 c t hlast hpair hquote hline ih =>
    have hc := ne_of_no_escape hlast hpair
    rw [List.cons_append, stringBody_plain hc, if_neg hquote, if_neg hline] at h hb ⊢
    rw [List.cons_append, stringBody_plain hc, if_neg hquote, if_neg hline]
    simp only [LiteralBody.size_grow, List.length_cons] at h
    rw [ih (by omega) (.of_grow [c] hb)]

theorem templateBody_plain {depth : Nat} {c : Char} {t : Text} (hc : c ≠ '\\')
    (hopen : c = '$' → t.head? ≠ some '\x7b') : templateBody depth (c :: t) =
    if c = '\x60' ∧ depth = 0 then .closed 1 []
    else (templateBody (if c = '\x7d' then depth - 1 else depth) t).grow 1 [c] := by
  rw [templateBody.eq_5]
  · exact fun h _ => hc h
  · exact fun _ _ h _ => hc h
  · rintro u h rfl
    exact hopen h rfl

private theorem templateBody_size_pos (depth : Nat) (c : Char) (t : Text) :
    1 ≤ (templateBody depth (c :: t)).size := by
  by_cases hc : c = '\\'
  · subst hc
    cases t with
    | nil => simp [templateBody, LiteralBody.size]
    | cons d t =>
      rw [templateBody, LiteralBody.size_grow]
      omega
  by_cases hopen : c = '$' ∧ t.head? = some '\x7b'
  · obtain ⟨rfl, hhead⟩ := hopen
    obtain ⟨u, rfl⟩ := List.head?_eq_some_iff.mp hhead
    rw [templateBody, LiteralBody.size_grow]
    omega
  · rw [templateBody_plain hc fun hd hhead => hopen ⟨hd, hhead⟩]
    split
    · simp [LiteralBody.size]
    · rw [LiteralBody.size_grow]
      omega

/-- A template that ends where a text begins ends there because there is no more text. -/
private theorem templateBody_size_zero {depth : Nat} {b : Text}
    (h : (templateBody depth b).size ≤ 0) : b = [] := by
  cases b with
  | nil => rfl
  | cons c b =>
    have := templateBody_size_pos depth c b
    omega

theorem templateBody_exchange {depth : Nat} {s b b' : Text}
    (h : (templateBody depth (s ++ b)).size ≤ s.length)
    (hb : (templateBody depth (s ++ b)).Admits s b b') :
    templateBody depth (s ++ b') = templateBody depth (s ++ b) := by
  fun_induction templateBody depth s with
  | case1 depth =>
    obtain rfl := templateBody_size_zero h
    rw [hb.eq_nil rfl rfl]
  | case2 depth =>
    cases b with
    | nil => rw [hb.eq_nil rfl rfl]
    | cons c b =>
      rw [List.cons_append, List.nil_append, templateBody, LiteralBody.size_grow] at h
      simp only [List.length_singleton] at h
      omega
  | case3 depth c t ih =>
    simp only [List.cons_append, templateBody, LiteralBody.size_grow, List.length_cons] at h hb ⊢
    rw [ih (by omega) (.of_grow ['\\', c] hb)]
  | case4 depth t ih =>
    simp only [List.cons_append, templateBody, LiteralBody.size_grow, List.length_cons] at h hb ⊢
    rw [ih (by omega) (.of_grow ['$', '\x7b'] hb)]
  | case5 depth c t hlast hpair hopen hclose =>
    have hplain := ne_of_no_escape hlast hpair
    have hdollar : ∀ u : Text, c = '$' → u.head? ≠ some '\x7b' := by
      rw [hclose.1]
      exact fun u hd => absurd hd (by decide)
    rw [List.cons_append, List.cons_append, templateBody_plain hplain (hdollar _),
      templateBody_plain hplain (hdollar _), if_pos hclose, if_pos hclose]
  | case6 depth c t hlast hpair hopen hclose ih =>
    have hplain := ne_of_no_escape hlast hpair
    -- A dollar sign at the end of the first part is followed by nothing, before and after.
    by_cases hcut : c = '$' ∧ t = []
    · obtain ⟨rfl, rfl⟩ := hcut
      by_cases hbrace : b.head? = some '\x7b'
      · obtain ⟨u, rfl⟩ := List.head?_eq_some_iff.mp hbrace
        rw [List.cons_append, List.nil_append, templateBody, LiteralBody.size_grow] at h
        simp only [List.length_singleton] at h
        omega
      rw [List.cons_append, List.nil_append, templateBody_plain hplain fun _ => hbrace,
        if_neg hclose, LiteralBody.size_grow, List.length_singleton] at h
      obtain rfl := templateBody_size_zero (Nat.le_of_add_le_add_left h)
      rw [hb.eq_nil rfl rfl]
    · have hdollar : ∀ u : Text, c = '$' → (t ++ u).head? ≠ some '\x7b' := by
        rintro u rfl hhead
        cases t with
        | nil => exact hcut ⟨rfl, rfl⟩
        | cons d t => exact hopen t rfl (by simpa using hhead)
      rw [List.cons_append, templateBody_plain hplain (hdollar b), if_neg hclose] at h hb
      rw [List.cons_append, List.cons_append, templateBody_plain hplain (hdollar b),
        templateBody_plain hplain (hdollar b'), if_neg hclose, if_neg hclose]
      simp only [LiteralBody.size_grow, List.length_cons] at h
      rw [ih (by omega) (.of_grow [c] hb)]

/-- Characters that continue no token but a literal or a comment. -/
def separates (c : Char) : Bool :=
  !continuesName c && !continuesOperator c && c ≠ '.' && c ≠ '>'

theorem separates_iff {c : Char} : separates c = true ↔ continuesName c = false ∧
    continuesOperator c = false ∧ c ≠ '.' ∧ c ≠ '>' := by
  simp [separates, and_assoc]

/-- Whether a character continues a number, given whether a digit follows it. -/
def continuesNumber (hexadecimal : Bool) (before c : Char) (digitNext : Bool) : Bool :=
  Text.isAsciiLetter c || Text.isAsciiDigit c || c = '_' ||
    ((c = '+' || c = '-') && (before = 'e' || before = 'E') && !hexadecimal) ||
    (c = '.' && digitNext)

theorem continuesNumber_of_separates {c : Char} (h : separates c = true) (hexadecimal : Bool)
    (before : Char) (digitNext : Bool) :
    continuesNumber hexadecimal before c digitNext = false := by
  obtain ⟨hname, hoperator, hdot, _⟩ := separates_iff.mp h
  simp only [continuesName, Text.isLetterOrNumeral, Text.isLetter, Text.isDigit,
    Bool.or_eq_false_iff, decide_eq_false_iff_not] at hname
  simp only [continuesOperator, Bool.or_eq_false_iff, decide_eq_false_iff_not] at hoperator
  simp [continuesNumber, hname, hoperator, hdot]

theorem startsWithDigit_of_separates {b : Text} (h : ∀ d ∈ b.head?, separates d = true) :
    startsWithDigit b = false := by
  cases b with
  | nil => rfl
  | cons d b =>
    have hd := continuesNumber_of_separates (h d rfl) false d false
    simp only [continuesNumber, Bool.or_eq_false_iff] at hd
    exact hd.1.1.1.2

theorem numberSize_cons (hexadecimal : Bool) (before c : Char) (t : Text) :
    numberSize hexadecimal before (c :: t) =
      if continuesNumber hexadecimal before c (startsWithDigit t) then
        1 + numberSize hexadecimal c t
      else 0 := by
  rw [numberSize]
  rfl

/-- A digit continues every number. -/
theorem numberSize_pos {t : Text} (h : startsWithDigit t = true) (hexadecimal : Bool)
    (before : Char) : 1 ≤ numberSize hexadecimal before t := by
  cases t with
  | nil => simp [startsWithDigit] at h
  | cons d t =>
    have hd : Text.isAsciiDigit d = true := h
    rw [numberSize_cons, if_pos (by simp [continuesNumber, hd])]
    omega

section Exchange

/-! Where a token ends in `s` or behind its last character, what stands behind `s` can be replaced
by a text that begins with a separator, or by nothing. -/

variable {s b b' : Text} (hb : ∀ d ∈ b'.head?, separates d = true)

include hb

theorem numberSize_exchange {hexadecimal : Bool} {before : Char}
    (h : numberSize hexadecimal before (s ++ b) ≤ s.length) :
    numberSize hexadecimal before (s ++ b') = numberSize hexadecimal before (s ++ b) := by
  induction s generalizing before with
  | nil =>
    rw [List.nil_append, List.length_nil, Nat.le_zero] at h
    rw [List.nil_append, List.nil_append, h]
    cases b' with
    | nil => rfl
    | cons d b' => rw [numberSize_cons, continuesNumber_of_separates (hb d rfl)]; rfl
  | cons c s ih =>
    rw [List.cons_append, numberSize_cons] at h ⊢
    rw [List.cons_append, numberSize_cons]
    simp only [List.length_cons] at h
    -- Only at the border can a dot lose the digit behind it, and then it was not counted.
    have hcut : continuesNumber hexadecimal before c (startsWithDigit (s ++ b')) =
        continuesNumber hexadecimal before c (startsWithDigit (s ++ b)) := by
      cases s with
      | cons d s => rfl
      | nil =>
        rw [List.nil_append, List.nil_append, startsWithDigit_of_separates hb]
        cases hdigit : startsWithDigit b with
        | false => rfl
        | true =>
          have hpos := numberSize_pos hdigit hexadecimal c
          cases hcounted : continuesNumber hexadecimal before c true with
          | true =>
            rw [List.nil_append, hdigit, hcounted, if_pos rfl] at h
            simp only [List.length_nil] at h
            omega
          | false =>
            simp only [continuesNumber, Bool.or_eq_false_iff] at hcounted
            simp [continuesNumber, hcounted]
    rw [hcut]
    split at h
    · next hcounted =>
      rw [if_pos hcounted, if_pos hcounted, ih (by omega)]
    · next hcounted => rw [if_neg hcounted, if_neg hcounted]

theorem takeWhile_exchange {q : Char → Bool} (hq : ∀ d, separates d = true → q d = false)
    (h : ((s ++ b).takeWhile q).length ≤ s.length) :
    (s ++ b').takeWhile q = (s ++ b).takeWhile q := by
  induction s with
  | nil =>
    simp only [List.nil_append, List.length_nil, Nat.le_zero, List.length_eq_zero_iff] at h
    rw [List.nil_append, List.nil_append, h]
    cases b' with
    | nil => rfl
    | cons d b' => rw [List.takeWhile_cons, hq d (hb d rfl)]; rfl
  | cons c s ih =>
    rw [List.cons_append, List.takeWhile_cons] at h ⊢
    rw [List.cons_append, List.takeWhile_cons]
    split at h
    · next hc =>
      rw [if_pos hc, if_pos hc, ih (by simpa using h)]
    · next hc => rw [if_neg hc, if_neg hc]

end Exchange

/-! ## Tokens -/

@[simp] theorem Reading.more_plain (kind : Kind) (more : Nat) :
    (Reading.plain kind more).more = more := rfl

@[simp] theorem Reading.more_literal (kind : Kind) (message : Text) (body : LiteralBody) :
    (Reading.literal kind message body).more = body.size := by
  cases body <;> rfl

section Exchange

variable {s b b' : Text}

/-- If a reading ends in front of a border, what stands behind the border may be replaced without a
change of the reading; where the reading is malformed and ends at the border, only by a text that
begins in the same way. -/
private def Exchanges (s b b' : Text) (read : Text → Reading) : Prop :=
  ((read (s ++ b)).kind = .malformed → (read (s ++ b)).more = s.length →
      ∀ d ∈ b'.head?, b.head? = some d) →
    (read (s ++ b)).more ≤ s.length → read (s ++ b') = read (s ++ b)

private theorem Exchanges.of_any {read : Text → Reading}
    (h : (read (s ++ b)).more ≤ s.length → read (s ++ b') = read (s ++ b)) :
    Exchanges s b b' read := fun _ => h

/-- Two ways of reading, one of which is chosen by what the text begins with. -/
private theorem Exchanges.cond {p : Text → Bool} {first other : Text → Reading}
    (hp : (p (s ++ b) = true → (first (s ++ b)).more ≤ s.length) → p (s ++ b') = p (s ++ b))
    (hfirst : p (s ++ b) = true → Exchanges s b b' first)
    (hother : p (s ++ b) = false → Exchanges s b b' other) :
    Exchanges s b b' fun t => if p t then first t else other t := by
  intro hmalformed h
  dsimp only at hmalformed h ⊢
  have hsame := hp fun hpositive => by rwa [if_pos hpositive] at h
  cases hchosen : p (s ++ b) with
  | true =>
    rw [hchosen] at hsame
    rw [if_pos hchosen] at hmalformed h
    rw [if_pos hsame, if_pos rfl]
    exact hfirst hchosen hmalformed h
  | false =>
    rw [hchosen] at hsame
    rw [hchosen, if_neg Bool.false_ne_true] at hmalformed h
    rw [hsame, if_neg Bool.false_ne_true, if_neg Bool.false_ne_true]
    exact hother hchosen hmalformed h

/-- Two ways of reading, one of which is chosen whatever the text is. -/
private theorem Exchanges.ite {p : Prop} [Decidable p] {first other : Text → Reading}
    (hfirst : p → Exchanges s b b' first) (hother : ¬p → Exchanges s b b' other) :
    Exchanges s b b' fun t => if p then first t else other t := by
  by_cases hp : p
  · simpa only [if_pos hp] using hfirst hp
  · simpa only [if_neg hp] using hother hp

private theorem exchanges_literal {kind : Kind} {message : Text} {body : Text → LiteralBody}
    (hbody : (body (s ++ b)).size ≤ s.length → (body (s ++ b)).Admits s b b' →
      body (s ++ b') = body (s ++ b)) :
    Exchanges s b b' fun t => .literal kind message (body t) := by
  intro hmalformed h
  dsimp only at hmalformed h ⊢
  rw [hbody (by simpa using h) fun hopen hsize => ?_]
  cases hread : body (s ++ b) with
  | closed => simp [hread, LiteralBody.isClosed] at hopen
  | unclosed => exact hmalformed (by rw [hread]; rfl) (by simpa using hsize)

/-- An unfinished comment takes everything, so nothing stands behind it, before and after. -/
private theorem exchanges_comment {message : Text} :
    Exchanges s b b' fun t => ⟨.malformed, t.length, some message⟩ := by
  intro hmalformed h
  obtain rfl : b = [] := by
    have hlength : (s ++ b).length ≤ s.length := h
    rw [List.length_append] at hlength
    exact List.eq_nil_of_length_eq_zero (by omega)
  obtain rfl : b' = [] := by
    cases b' with
    | nil => rfl
    | cons d b' => exact absurd (hmalformed rfl (by simp) d rfl) (by simp)
  rfl

/-- A comment that ends in front of the border begins in front of it, and none begins behind it. -/
private theorem commentStart_exchange {c : Char} (hcomment : c = '/' → s = [] → b'.head? ≠ some '*')
    (h : (c = '/' && (s ++ b).head? = some '*') = true → (s ++ b).length ≤ s.length) :
    (c = '/' && (s ++ b').head? = some '*' : Bool) = (c = '/' && (s ++ b).head? = some '*') := by
  cases s with
  | cons d s => rfl
  | nil =>
    by_cases hslash : c = '/'
    · have hnone : b'.head? ≠ some '*' := hcomment hslash rfl
      have hfront : b.head? ≠ some '*' := by
        intro hstar
        have hempty : b.length ≤ 0 := h (by simp [hslash, hstar])
        rw [List.eq_nil_of_length_eq_zero (Nat.le_zero.mp hempty)] at hstar
        cases hstar
      simp [hslash, hnone, hfront]
    · simp [hslash]

variable (hb : ∀ d ∈ b'.head?, separates d = true)

include hb

private theorem operatorReading_exchange (h : (operatorReading (s ++ b)).more ≤ s.length) :
    operatorReading (s ++ b') = operatorReading (s ++ b) := by
  rw [operatorReading, takeWhile_exchange hb (fun d hd => (separates_iff.mp hd).2.1) h,
    operatorReading]

/-- A number that ends in front of the border is hexadecimal or not whatever is behind it. -/
private theorem numberReading_exchange {c : Char}
    (h : (numberReading c (s ++ b)).more ≤ s.length) :
    numberReading c (s ++ b') = numberReading c (s ++ b) := by
  have hexadecimal_of_ne : ∀ {d : Char} (t : Text), d ≠ 'x' → isHexadecimal c (d :: t) = false := by
    intro d t hd
    simp [isHexadecimal, hd]
  have hsame : isHexadecimal c (s ++ b') = isHexadecimal c (s ++ b) := by
    cases s with
    | cons d s =>
      by_cases hd : d = 'x'
      · subst hd
        rfl
      · rw [List.cons_append, List.cons_append, hexadecimal_of_ne _ hd, hexadecimal_of_ne _ hd]
    | nil =>
      have hnone : isHexadecimal c b' = false := by
        cases b' with
        | nil => rfl
        | cons d b' =>
          refine hexadecimal_of_ne _ ?_
          rintro rfl
          exact absurd (hb _ rfl) (by decide)
      rw [List.nil_append, List.nil_append, hnone]
      cases b with
      | nil => rfl
      | cons d b =>
        by_cases hd : d = 'x'
        · subst hd
          have hx : continuesNumber (isHexadecimal c ('x' :: b)) c 'x' (startsWithDigit b) =
              true := by simp [continuesNumber, Text.isAsciiLetter]
          rw [List.nil_append, numberReading, Reading.more_plain, numberSize_cons, if_pos hx] at h
          simp at h
        · rw [hexadecimal_of_ne _ hd]
  unfold numberReading
  rw [hsame, numberSize_exchange hb h]

private theorem opensNumber_exchange {c : Char}
    (h : opensNumber c (s ++ b) = true → (numberReading c (s ++ b)).more ≤ s.length) :
    opensNumber c (s ++ b') = opensNumber c (s ++ b) := by
  cases s with
  | cons d s => rfl
  | nil =>
    simp only [opensNumber, List.nil_append, startsWithDigit_of_separates hb]
    cases hdigit : startsWithDigit b with
    | false => rfl
    | true =>
      have hpos : 1 ≤ (numberReading c b).more := numberSize_pos hdigit _ c
      cases hopens : opensNumber c b with
      | true =>
        have := h hopens
        simp only [List.nil_append, List.length_nil] at this
        omega
      | false =>
        simp only [opensNumber, hdigit, Bool.or_eq_false_iff] at hopens
        simp [hopens]

private theorem wordReading_exchange {c : Char} (h : (wordReading c (s ++ b)).more ≤ s.length) :
    wordReading c (s ++ b') = wordReading c (s ++ b) := by
  have hmore : ((s ++ b).takeWhile continuesName).length ≤ s.length := by
    obtain ⟨kind, -, hword⟩ := wordReading_eq_plain c (s ++ b)
    rwa [hword] at h
  unfold wordReading
  dsimp only
  rw [takeWhile_exchange hb (fun d hd => (separates_iff.mp hd).1) hmore,
    List.take_append_of_le_length hmore, List.take_append_of_le_length hmore]

private theorem dotReading_exchange (h : (dotReading (s ++ b)).more ≤ s.length) :
    dotReading (s ++ b') = dotReading (s ++ b) := by
  have hplain : ∀ t : Text, (∀ u, t ≠ '.' :: '.' :: u) → dotReading t = .plain .dot 0 := by
    intro t ht
    unfold dotReading
    split
    · next u => exact absurd rfl (ht u)
    · rfl
  have hnodot : ∀ u : Text, b' ≠ '.' :: u := by
    rintro u rfl
    exact absurd (hb _ rfl) (by decide)
  by_cases hdots : ∃ u, s ++ b = '.' :: '.' :: u
  · obtain ⟨u, hu⟩ := hdots
    rw [hu] at h
    change 2 ≤ s.length at h
    match s, h, hu with
    | _ :: _ :: s, _, hu =>
      simp only [List.cons_append, List.cons.injEq] at hu
      obtain ⟨rfl, rfl, _⟩ := hu
      rfl
  · rw [hplain (s ++ b) fun u hu => hdots ⟨u, hu⟩]
    refine hplain (s ++ b') fun u hu => ?_
    match s, hu, hdots with
    | [], hu, _ => exact hnodot _ hu
    | [d], hu, _ => exact hnodot _ (List.cons.inj hu).2
    | d :: e :: s, hu, hdots =>
      obtain ⟨rfl, htail⟩ := List.cons.inj hu
      obtain ⟨rfl, _⟩ := List.cons.inj htail
      exact hdots ⟨s ++ b, rfl⟩

private theorem equalsReading_exchange (h : (equalsReading (s ++ b)).more ≤ s.length) :
    equalsReading (s ++ b') = equalsReading (s ++ b) := by
  have hplain : ∀ {d : Char} {t : Text}, d ≠ '>' → d ≠ '=' →
      equalsReading (d :: t) = .plain .equals 0 := by
    intro d t harrow hdouble
    unfold equalsReading
    split <;> simp_all
  cases s with
  | nil =>
    have hleft : equalsReading b' = .plain .equals 0 := by
      cases b' with
      | nil => rfl
      | cons d b' =>
        obtain ⟨_, hoperator, _, harrow⟩ := separates_iff.mp (hb d rfl)
        refine hplain harrow ?_
        rintro rfl
        exact absurd hoperator (by decide)
    rw [List.nil_append] at h
    rw [List.nil_append, List.nil_append, hleft]
    unfold equalsReading at h ⊢
    split at h
    · simp at h
    · simp [operatorReading, continuesOperator] at h
    · rfl
  | cons d s =>
    rw [List.cons_append] at h
    rw [List.cons_append, List.cons_append]
    by_cases harrow : d = '>'
    · subst harrow
      rfl
    by_cases hdouble : d = '='
    · subst hdouble
      exact operatorReading_exchange (s := '=' :: s) hb h
    · rw [hplain harrow hdouble, hplain harrow hdouble]

private theorem jointReading_exchange {alone : Kind}
    (h : (jointReading alone (s ++ b)).more ≤ s.length) :
    jointReading alone (s ++ b') = jointReading alone (s ++ b) := by
  have joined : ∀ {d : Char} {t : Text}, d = '|' ∨ d = '&' ∨ d = '=' →
      jointReading alone (d :: t) = operatorReading (d :: t) := by
    rintro d t (rfl | rfl | rfl) <;> rfl
  have single : ∀ {d : Char} {t : Text}, ¬(d = '|' ∨ d = '&' ∨ d = '=') →
      jointReading alone (d :: t) = .plain alone 0 := by
    intro d t hd
    unfold jointReading
    split <;> simp_all
  cases s with
  | nil =>
    have hleft : jointReading alone b' = .plain alone 0 := by
      cases b' with
      | nil => rfl
      | cons d b' =>
        have hoperator := (separates_iff.mp (hb d rfl)).2.1
        refine single ?_
        rintro (rfl | rfl | rfl) <;> exact absurd hoperator (by decide)
    rw [List.nil_append] at h
    rw [List.nil_append, List.nil_append, hleft]
    cases b with
    | nil => rfl
    | cons d b =>
      by_cases hd : d = '|' ∨ d = '&' ∨ d = '='
      · rw [joined hd] at h
        obtain rfl | rfl | rfl := hd <;> simp [operatorReading, continuesOperator] at h
      · rw [single hd]
  | cons d s =>
    rw [List.cons_append] at h
    rw [List.cons_append, List.cons_append]
    by_cases hd : d = '|' ∨ d = '&' ∨ d = '='
    · rw [joined hd] at h
      rw [joined hd, joined hd]
      exact operatorReading_exchange (s := d :: s) hb h
    · rw [single hd, single hd]

/-- What stands behind a token may be replaced by a text that begins with a separator, or by
nothing, unless this begins a comment. If the token is malformed and ends where the replaced text
begins, the new text must begin with the same character. -/
theorem Reading.ofText_exchange {c : Char}
    (hcomment : c = '/' → s = [] → b'.head? ≠ some '*')
    (hmalformed : (Reading.ofText c (s ++ b)).kind = .malformed →
      (Reading.ofText c (s ++ b)).more = s.length → ∀ d ∈ b'.head?, b.head? = some d)
    (h : (Reading.ofText c (s ++ b)).more ≤ s.length) :
    Reading.ofText c (s ++ b') = Reading.ofText c (s ++ b) := by
  have hread : Exchanges s b b' (Reading.ofText c) :=
    .ite (fun _ => exchanges_literal stringBody_exchange) fun _ =>
    .ite (fun _ => exchanges_literal templateBody_exchange) fun _ =>
    .cond (opensNumber_exchange hb) (fun _ => .of_any (numberReading_exchange hb)) fun _ =>
    .ite (fun _ => .of_any (wordReading_exchange hb)) fun _ =>
    .ite (fun _ => .of_any (dotReading_exchange hb)) fun _ =>
    .ite (fun _ => .of_any (equalsReading_exchange hb)) fun _ =>
    .ite (fun _ => .of_any (jointReading_exchange hb)) fun _ =>
    .cond (commentStart_exchange hcomment) (fun _ => exchanges_comment) fun _ =>
    .ite (fun _ => .of_any (operatorReading_exchange hb)) fun _ =>
    .of_any fun _ => rfl
  exact hread hmalformed h

end Exchange

/-- A token that ends in front of a cut is the same behind it. -/
theorem Reading.ofText_append {c : Char} {s b : Text}
    (h : (Reading.ofText c (s ++ b)).more ≤ s.length) :
    Reading.ofText c s = Reading.ofText c (s ++ b) := by
  have hcut := Reading.ofText_exchange (show ∀ d ∈ ([] : Text).head?, separates d = true by simp)
    (by simp) (by simp) h
  rwa [List.append_nil] at hcut

end TypeInliner.Token

import Mathlib.Data.Finset.Card
import Mathlib.Data.Finset.Range
import Mathlib.Logic.Relation
import TypeInliner.Proofs.DeclarationPlacement
import TypeInliner.Proofs.SourceTiling

/-! # What a declaration mentions comes first

The walk places a position behind everything that its declaration mentions, except for what leads
back to it: while the mentioned positions are visited, the only positions that have been reached and
not placed are those the walk has come through. A word of the text is mentioned, but so is every
name that happens to stand inside a longer word, a string or a comment, and such a name can lead
back and keep a word from coming first. -/

namespace TypeInliner

theorem Text.occursIn_of_infix {part t : Text} (h : part <:+: t) : occursIn part t = true := by
  induction t with
  | nil => simp [occursIn, List.eq_nil_of_infix_nil h]
  | cons c t ih =>
    rw [occursIn, Bool.or_eq_true]
    rcases List.infix_cons_iff.mp h with hprefix | hinfix
    · exact Or.inl (List.isPrefixOf_iff_prefix.mpr hprefix)
    · exact Or.inr (ih hinfix)

namespace Declaration

/-! ## Positions that lead back -/

theorem mem_mentioned {ds : List Declaration} {i j : Nat} : j ∈ mentioned ds i ↔
    ∃ d other, ds[i]? = some d ∧ ds[j]? = some other ∧ d.mentions other = true := by
  unfold mentioned
  constructor
  · intro h
    split at h
    · next d hd =>
      obtain ⟨⟨other, k⟩, hother, rfl⟩ := List.mem_map.mp h
      obtain ⟨hplace, hmentions⟩ := List.mem_filter.mp hother
      exact ⟨d, other, hd, List.mem_zipIdx_iff_getElem?.mp hplace, hmentions⟩
    · simp at h
  · rintro ⟨d, other, hd, hother, hmentions⟩
    rw [hd]
    exact List.mem_map.mpr
      ⟨(other, j), List.mem_filter.mpr ⟨List.mem_zipIdx_iff_getElem?.mpr hother, hmentions⟩, rfl⟩

/-- One position mentions another, through any number of further ones, or is the same. -/
def LeadsTo (ds : List Declaration) : Nat → Nat → Prop :=
  Relation.ReflTransGen fun i j => j ∈ mentioned ds i

/-- Whatever a placed position mentions is placed in front of it or leads back to it. -/
def Preceded (ds : List Declaration) (placed : List Nat) : Prop :=
  ∀ front i behind, placed = front ++ i :: behind → ∀ j ∈ mentioned ds i,
    j ∈ front ∨ LeadsTo ds j i

theorem Preceded.concat {ds : List Declaration} {placed : List Nat} {i : Nat}
    (h : Preceded ds placed) (hi : ∀ j ∈ mentioned ds i, j ∈ placed ∨ LeadsTo ds j i) :
    Preceded ds (placed ++ [i]) := by
  intro front k behind hsplit j hj
  rcases List.eq_nil_or_concat behind with rfl | ⟨behind, last, rfl⟩
  · obtain ⟨rfl, hlast⟩ := List.append_inj' hsplit rfl
    obtain rfl := List.singleton_inj.mp hlast
    exact hi j hj
  · rw [List.concat_eq_append, ← List.cons_append, ← List.append_assoc] at hsplit
    exact h front k behind (List.append_inj' hsplit rfl).1 j hj

/-- What stands in the front part of a list comes before what stands right behind that part. -/
theorem idxOf_lt_of_mem_front {α : Type} [DecidableEq α] {front behind : List α} {a b : α}
    (hb : b ∈ front) (ha : a ∉ front) :
    (front ++ a :: behind).idxOf b < (front ++ a :: behind).idxOf a := by
  rw [List.idxOf_append_of_mem hb, List.idxOf_append_of_notMem ha]
  exact Nat.lt_of_lt_of_le (List.idxOf_lt_length_of_mem hb) (Nat.le_add_right _ _)

theorem Preceded.idxOf_lt {ds : List Declaration} {placed : List Nat} {i j : Nat}
    (h : Preceded ds placed) (hi : i ∈ placed) (hj : j ∈ mentioned ds i)
    (hback : ¬ LeadsTo ds j i) : placed.idxOf j < placed.idxOf i := by
  obtain ⟨front, behind, rfl, hfront⟩ := List.eq_append_cons_of_mem hi
  exact idxOf_lt_of_mem_front ((h front i behind rfl j hj).resolve_right hback) hfront

/-! ## The walk -/

/-- The positions that the walk has come through lead to a position: they have been reached but not
placed. -/
def Progress.ComesTo (ds : List Declaration) (p : Progress) (i : Nat) : Prop :=
  ∀ k ∈ p.reached, k ∉ p.placed → LeadsTo ds k i

/-- A part of the walk leaves behind no position that it has reached and not placed. -/
theorem Adds.comesTo {ds : List Declaration} {p q : Progress} {more : List Nat} {i : Nat}
    (h : Adds ds.length p more q) (hp : p.ComesTo ds i) : q.ComesTo ds i := by
  intro k hreached hplaced
  rw [h.placed, List.mem_append, not_or] at hplaced
  exact hp k (((h.reached k).mp hreached).resolve_right hplaced.2) hplaced.1

/-- Number of positions that have not been reached. -/
def Progress.unreached (ds : List Declaration) (p : Progress) : Nat :=
  ((Finset.range ds.length).filter (· ∉ p.reached)).card

theorem Adds.unreached_le {ds : List Declaration} {p q : Progress} {more : List Nat}
    (h : Adds ds.length p more q) : q.unreached ds ≤ p.unreached ds := by
  refine Finset.card_le_card fun k hk => ?_
  simp only [Finset.mem_filter] at hk ⊢
  exact ⟨hk.1, fun hp => hk.2 ((h.reached k).mpr (Or.inl hp))⟩

theorem unreached_enter {ds : List Declaration} {p : Progress} {i : Nat} (hi : i < ds.length)
    (hnew : i ∉ p.reached) :
    Progress.unreached ds { p with reached := i :: p.reached } < p.unreached ds := by
  refine Finset.card_lt_card (Finset.ssubset_iff_subset_ne.mpr ⟨fun k hk => ?_, fun heq => ?_⟩)
  · simp only [Finset.mem_filter, List.mem_cons, not_or] at hk ⊢
    exact ⟨hk.1, hk.2.2⟩
  · have hmem : i ∈ (Finset.range ds.length).filter (· ∉ p.reached) :=
      Finset.mem_filter.mpr ⟨Finset.mem_range.mpr hi, hnew⟩
    rw [← heq] at hmem
    simp at hmem

/-- At the start no more positions are left than there are. -/
theorem unreached_start (ds : List Declaration) :
    Progress.unreached ds ⟨[], []⟩ < ds.length + 1 := by
  refine Nat.lt_succ_of_le (Nat.le_trans (Finset.card_filter_le _ _) ?_)
  rw [Finset.card_range]

/-- Visits that keep what is placed preceded keep it in a row, as long as the walk leads to each
visited position and has steps left for all positions that have not been reached. -/
theorem foldl_visit_preceded {ds : List Declaration} {depth : Nat}
    (hvisit : ∀ p i, i < ds.length → p.unreached ds < depth → p.ComesTo ds i →
      Preceded ds p.placed → Preceded ds (visit ds depth p i).placed)
    {positions : List Nat} (hvalid : ∀ i ∈ positions, i < ds.length) {p : Progress}
    (hdepth : p.unreached ds < depth) (hcomes : ∀ i ∈ positions, p.ComesTo ds i)
    (h : Preceded ds p.placed) : Preceded ds (positions.foldl (visit ds depth) p).placed := by
  induction positions generalizing p with
  | nil => exact h
  | cons i positions ih =>
    have hi := hvalid i List.mem_cons_self
    obtain ⟨more, hmore⟩ := visit_adds ds depth p hi
    refine ih (fun j hj => hvalid j (List.mem_cons_of_mem i hj)) ?_ ?_ ?_
    · exact Nat.lt_of_le_of_lt hmore.unreached_le hdepth
    · exact fun j hj => hmore.comesTo (hcomes j (List.mem_cons_of_mem i hj))
    · exact hvisit p i hi hdepth (hcomes i List.mem_cons_self) h

/-- A visit keeps what is placed preceded by what it mentions. -/
theorem visit_preceded (ds : List Declaration) (depth : Nat) (p : Progress) (i : Nat)
    (hi : i < ds.length) (hdepth : p.unreached ds < depth) (hcomes : p.ComesTo ds i)
    (h : Preceded ds p.placed) : Preceded ds (visit ds depth p i).placed := by
  induction depth generalizing p i with
  | zero => exact absurd hdepth (Nat.not_lt_zero _)
  | succ depth ih =>
    rw [visit]
    split
    · exact h
    next hreached =>
    have hnew : i ∉ p.reached := by simpa using hreached
    have hvalid : ∀ j ∈ mentioned ds i, j < ds.length := fun j => mentioned_lt
    have henter := unreached_enter hi hnew
    obtain ⟨more, hmore⟩ := Adds.foldl (fun q j hj => visit_adds ds depth q hj) hvalid
      { p with reached := i :: p.reached }
    -- Through the position itself the walk comes to everything that it mentions.
    have hcomes' : ∀ j ∈ mentioned ds i,
        Progress.ComesTo ds { p with reached := i :: p.reached } j := by
      intro j hj k hk hplaced
      rcases List.mem_cons.mp hk with rfl | hk
      · exact .single hj
      · exact (hcomes k hk hplaced).tail hj
    refine Preceded.concat (foldl_visit_preceded ih hvalid (by omega) hcomes' h) fun j hj => ?_
    by_cases hplaced : j ∈ ((mentioned ds i).foldl (visit ds depth)
      { p with reached := i :: p.reached }).placed
    · exact Or.inl hplaced
    right
    obtain ⟨depth, rfl⟩ : ∃ more, depth = more + 1 := ⟨depth - 1, by omega⟩
    have hj' := foldl_visit_reaches ds depth hvalid { p with reached := i :: p.reached } j hj
    rw [hmore.placed, List.mem_append, not_or] at hplaced
    rcases List.mem_cons.mp (((hmore.reached j).mp hj').resolve_right hplaced.2) with rfl | hopen
    · exact .refl
    · exact hcomes j hopen hplaced.1

/-- In the order whatever a position mentions stands in front of it or leads back to it. -/
theorem orderPositions_preceded (ds : List Declaration) : Preceded ds (orderPositions ds) := by
  refine foldl_visit_preceded (fun p i => visit_preceded ds (ds.length + 1) p i)
    (fun i => List.mem_range.mp) (unreached_start ds) ?_ ?_
  · intro i _ k hk
    simp at hk
  · intro front i behind hsplit
    simp at hsplit

/-! ## Words -/

/-- Whether the name of another declaration is a word of a declaration. -/
def UsesName (d other : Declaration) : Prop :=
  d.name ≠ other.name ∧ ∃ t ∈ Token.ofText d.text, t.kind.isName = true ∧ t.value = other.name

instance (d other : Declaration) : Decidable (d.UsesName other) :=
  inferInstanceAs (Decidable (_ ∧ _))

/-- A word that is used is mentioned. -/
theorem mentions_of_usesName {d other : Declaration} (h : d.UsesName other) :
    d.mentions other = true := by
  obtain ⟨hname, t, ht, hword, hvalue⟩ := h
  have hkind : ∀ kind : Kind, kind.isName = false → t.kind ≠ kind := by
    rintro kind hkind rfl
    simp [hkind] at hword
  obtain ⟨before, after, hsplit⟩ := List.append_of_mem ht
  obtain ⟨behind, hstands, _⟩ := Token.exists_standsBetween hsplit
  have htext : t.text = other.name := by
    rw [← hstands.slice_span, ← hvalue]
    exact ((Token.ofText_tiles d.text).value t ht (hkind _ rfl) (hkind _ rfl) (hkind _ rfl)).symm
  have hinfix : other.name <:+: d.text := by
    rw [← htext]
    refine ⟨Token.written before ++ t.gap, behind, ?_⟩
    conv_rhs => rw [hstands.split]
    simp only [List.append_assoc]
  have hne : other.name ≠ [] := by
    have hlt := Token.start_lt_stop ht (hkind _ rfl)
    rw [← htext]
    intro hnil
    simp [Token.span, Token.stop, hnil] at hlt
  simp [mentions, hne, hname, Text.occursIn_of_infix hinfix]

/-- Every position is placed once. A declaration whose name is a word of another one is placed
before it, wherever both stand, unless declarations lead back from the first to the second by
mentioning one another, be it inside of other words. -/
theorem used_names_come_first (ds : List Declaration) :
    order ds = (orderPositions ds).filterMap (ds[·]?) ∧
      (orderPositions ds).Perm (List.range ds.length) ∧
      ∀ i j : Fin ds.length, (ds.get i).UsesName (ds.get j) → ¬ LeadsTo ds j i →
        (orderPositions ds).idxOf j.val < (orderPositions ds).idxOf i.val := by
  have hperm := orderPositions_perm ds
  refine ⟨rfl, hperm, fun i j huses hback => ?_⟩
  have hmentions : j.val ∈ mentioned ds i :=
    mem_mentioned.mpr ⟨ds.get i, ds.get j, by simp, by simp, mentions_of_usesName huses⟩
  have hplaced : i.val ∈ orderPositions ds := hperm.mem_iff.mpr (List.mem_range.mpr i.isLt)
  exact (orderPositions_preceded ds).idxOf_lt hplaced hmentions hback

/-- Two declarations that use each other, and one that both use. -/
def sharedDeclarations : List Declaration :=
  [⟨"A".toList, "type A = \x7b next: C; leaf: B \x7d;".toList⟩,
    ⟨"C".toList, "type C = A | B;".toList⟩, ⟨"B".toList, "type B = 1;".toList⟩]

theorem shared_name_comes_first :
    sharedDeclarations[0].UsesName sharedDeclarations[2] ∧ ¬ LeadsTo sharedDeclarations 2 0 ∧
      (orderPositions sharedDeclarations).idxOf 2 <
        (orderPositions sharedDeclarations).idxOf 0 := by
  have huses : sharedDeclarations[0].UsesName sharedDeclarations[2] := by decide +kernel
  have hnothing : mentioned sharedDeclarations 2 = [] := by decide +kernel
  have hback : ¬ LeadsTo sharedDeclarations 2 0 := by
    intro hleads
    rcases hleads.cases_head with heq | ⟨k, hk, _⟩
    · exact absurd heq (by decide)
    · simp [hnothing] at hk
  exact ⟨huses, hback, (used_names_come_first sharedDeclarations).2.2 ⟨0, by decide⟩ ⟨2, by decide⟩
    huses hback⟩

/-- A union with a string for a member, and an alias of the union with the name that the string
holds. -/
def quotingDeclarations : List Declaration :=
  [⟨"B".toList, "type B = 'A' | 1;".toList⟩, ⟨"A".toList, "type A = B;".toList⟩]

/-- Words alone do not decide the order, even if no declaration leads back to itself through them:
a name in a string keeps the alias of the union in front of the union. -/
theorem quoted_name_comes_first : ¬ ∀ ds : List Declaration, (ds.map name).Nodup →
    (∀ d ∈ ds, ¬ Relation.TransGen (fun d other => other ∈ ds ∧ d.UsesName other) d d) →
      ∀ a ∈ ds, ∀ b ∈ ds, a.UsesName b → (order ds).idxOf b < (order ds).idxOf a := by
  intro hall
  have hunion : ∀ d ∈ quotingDeclarations, ¬ quotingDeclarations[0].UsesName d := by
    decide +kernel
  have halias : ∀ d ∈ quotingDeclarations, quotingDeclarations[1].UsesName d →
      d = quotingDeclarations[0] := by decide +kernel
  have hfirst : quotingDeclarations[0] ≠ quotingDeclarations[1] := by decide
  have hacyclic : ∀ d ∈ quotingDeclarations, ¬ Relation.TransGen
      (fun d other => other ∈ quotingDeclarations ∧ d.UsesName other) d d := by
    intro d hd hcycle
    obtain ⟨other, ⟨hother, huses⟩, hback⟩ := Relation.TransGen.head'_iff.mp hcycle
    obtain rfl | rfl : d = quotingDeclarations[0] ∨ d = quotingDeclarations[1] := by
      simpa [quotingDeclarations] using hd
    · exact hunion other hother huses
    · obtain rfl := halias other hother huses
      rcases hback.cases_head with heq | ⟨last, ⟨hlast, huses⟩, _⟩
      · exact hfirst heq
      · exact hunion last hlast huses
  have horder := hall quotingDeclarations (by decide) hacyclic quotingDeclarations[1] (by decide)
    quotingDeclarations[0] (by decide) (by decide +kernel)
  exact absurd horder (by decide +kernel)

end Declaration

end TypeInliner

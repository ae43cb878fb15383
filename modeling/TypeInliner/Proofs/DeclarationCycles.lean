import TypeInliner.Proofs.DeclarationPrecedence

/-! # The order around cycles

`Visits` tells the walk over the declarations without a bound on its depth; the walk that is carried
out is one, so it always ends. When a visit ends, everything that its position leads to has been
reached. Of the positions on a cycle, the one that is reached first therefore has all the others
reached, and placed, before it is placed itself. -/

namespace TypeInliner.Declaration

/-- Visits of some positions, one after another: a position that has been reached is passed over,
any other one is placed behind the visits of what it mentions. -/
inductive Visits (ds : List Declaration) : Progress → List Nat → Progress → Prop
  | done (p : Progress) : Visits ds p [] p
  | skip {p q : Progress} {i : Nat} {rest : List Nat} (known : i ∈ p.reached)
      (others : Visits ds p rest q) : Visits ds p (i :: rest) q
  | enter {p inner q : Progress} {i : Nat} {rest : List Nat} (new : i ∉ p.reached)
      (down : Visits ds { p with reached := i :: p.reached } (mentioned ds i) inner)
      (others : Visits ds { inner with placed := inner.placed ++ [i] } rest q) :
      Visits ds p (i :: rest) q

namespace Visits

variable {ds : List Declaration} {p q : Progress} {positions : List Nat}

/-- Visits end in one way only. -/
theorem unique {other : Progress} (h : Visits ds p positions q)
    (h' : Visits ds p positions other) : q = other := by
  induction h generalizing other with
  | done p => cases h'; rfl
  | skip known _ ih =>
    cases h' with
    | skip _ others' => exact ih others'
    | enter new _ _ => exact absurd known new
  | enter new _ _ ihDown ihOthers =>
    cases h' with
    | skip known _ => exact absurd known new
    | enter _ down' others' =>
      obtain rfl := ihDown down'
      exact ihOthers others'

theorem append {r : Progress} {more : List Nat} (h : Visits ds p positions q)
    (h' : Visits ds q more r) : Visits ds p (positions ++ more) r := by
  induction h with
  | done p => exact h'
  | skip known _ ih => exact .skip known (ih h')
  | enter new down _ _ ihOthers => exact .enter new down (ihOthers h')

theorem adds (h : Visits ds p positions q) (hvalid : ∀ i ∈ positions, i < ds.length) :
    ∃ more, Adds ds.length p more q := by
  induction h with
  | done p => exact ⟨[], .nothing _ p⟩
  | skip _ _ ih => exact ih fun j hj => hvalid j (List.mem_cons_of_mem _ hj)
  | enter new _ _ ihDown ihOthers =>
    obtain ⟨more, hmore⟩ := ihDown fun j => mentioned_lt
    obtain ⟨more', hmore'⟩ := ihOthers fun j hj => hvalid j (List.mem_cons_of_mem _ hj)
    exact ⟨_, (hmore.around new (hvalid _ List.mem_cons_self)).trans hmore'⟩

/-- The latest position is reached in front of those that have been reached before. -/
theorem reached_suffix (h : Visits ds p positions q) : p.reached <:+ q.reached := by
  induction h with
  | done p => exact List.suffix_rfl
  | skip _ _ ih => exact ih
  | enter _ _ _ ihDown ihOthers =>
    exact ((List.suffix_cons _ _).trans ihDown).trans ihOthers

theorem placed_prefix (h : Visits ds p positions q) : p.placed <+: q.placed := by
  induction h with
  | done p => exact List.prefix_rfl
  | skip _ _ ih => exact ih
  | enter _ _ _ ihDown ihOthers =>
    exact (ihDown.trans (List.prefix_append _ _)).trans ihOthers

theorem reaches (h : Visits ds p positions q) : ∀ i ∈ positions, i ∈ q.reached := by
  induction h with
  | done p => simp
  | skip known others ih =>
    intro j hj
    rcases List.mem_cons.mp hj with rfl | hj
    · exact others.reached_suffix.subset known
    · exact ih j hj
  | enter new down others _ ihOthers =>
    intro j hj
    rcases List.mem_cons.mp hj with rfl | hj
    · exact others.reached_suffix.subset (down.reached_suffix.subset List.mem_cons_self)
    · exact ihOthers j hj

/-- What visits reach is reached with everything it mentions. -/
theorem closed (h : Visits ds p positions q) :
    ∀ i ∈ q.reached, i ∈ p.reached ∨ ∀ j ∈ mentioned ds i, j ∈ q.reached := by
  induction h with
  | done p => exact fun i hi => Or.inl hi
  | skip _ _ ih => exact ih
  | @enter p inner q i rest new down others ihDown ihOthers =>
    have hmono : ∀ k ∈ inner.reached, k ∈ q.reached := fun k hk => others.reached_suffix.subset hk
    intro k hk
    rcases ihOthers k hk with hk | hk
    · rcases ihDown k hk with hk | hk
      · rcases List.mem_cons.mp hk with rfl | hk
        · exact Or.inr fun j hj => hmono j (down.reaches j hj)
        · exact Or.inl hk
      · exact Or.inr fun j hj => hmono j (hk j hj)
    · exact Or.inr hk

/-- A position that visits have reached was entered when `back` had been reached: then what it
mentions was visited, and then it was placed. -/
theorem entered (h : Visits ds p positions q) {front back : List Nat} {i : Nat}
    (hsplit : q.reached = front ++ i :: back) (hstart : p.reached <:+ back) :
    ∃ placed inner, Visits ds ⟨i :: back, placed⟩ (mentioned ds i) inner ∧
      inner.placed ++ [i] <+: q.placed := by
  induction h generalizing front with
  | done p =>
    have hlong := hstart.length_le
    rw [hsplit, List.length_append, List.length_cons] at hlong
    omega
  | skip _ _ ih => exact ih hsplit hstart
  | @enter p inner q k rest new down others ihDown ihOthers =>
    by_cases hbehind : inner.reached <:+ back
    · exact ihOthers hsplit hbehind
    have hhere : i :: back <:+ inner.reached := by
      rcases List.suffix_or_suffix_of_suffix others.reached_suffix ⟨front, hsplit.symm⟩ with
        hinner | hhere
      · rcases List.suffix_cons_iff.mp hinner with heq | hinner
        · exact heq ▸ List.suffix_rfl
        · exact absurd hinner hbehind
      · exact hhere
    have hplaced : inner.placed ++ [k] <+: q.placed := others.placed_prefix
    have hlength : (k :: p.reached).length ≤ (i :: back).length := Nat.succ_le_succ hstart.length_le
    have hentry := List.suffix_of_suffix_length_le down.reached_suffix hhere hlength
    -- The position is the one that is entered, or it is reached on the way down from it.
    rcases List.suffix_cons_iff.mp hentry with hsame | hinside
    · obtain ⟨rfl, rfl⟩ := List.cons.inj hsame
      exact ⟨p.placed, inner, down, hplaced⟩
    · obtain ⟨front', hfront'⟩ := hhere
      obtain ⟨placed, inner', hdown, hinside⟩ := ihDown hfront'.symm hinside
      exact ⟨placed, inner', hdown, (hinside.trans (List.prefix_append _ _)).trans hplaced⟩

end Visits

/-! ## The walk that is carried out -/

/-- The walk over all declarations. -/
def walk (ds : List Declaration) : Progress :=
  (List.range ds.length).foldl (visit ds (ds.length + 1)) ⟨[], []⟩

theorem foldl_visit_visits {ds : List Declaration} {depth : Nat}
    (hvisit : ∀ p i, i < ds.length → p.unreached ds < depth →
      Visits ds p [i] (visit ds depth p i))
    {positions : List Nat} (hvalid : ∀ i ∈ positions, i < ds.length) (p : Progress)
    (hdepth : p.unreached ds < depth) :
    Visits ds p positions (positions.foldl (visit ds depth) p) := by
  induction positions generalizing p with
  | nil => exact .done p
  | cons i positions ih =>
    have hi := hvalid i List.mem_cons_self
    obtain ⟨more, hmore⟩ := visit_adds ds depth p hi
    have hothers := ih (fun j hj => hvalid j (List.mem_cons_of_mem i hj)) _
      (Nat.lt_of_le_of_lt hmore.unreached_le hdepth)
    exact (hvisit p i hi hdepth).append hothers

/-- A visit does not meet the bound of its depth when it exceeds the number of positions that have
not been reached. -/
theorem visit_visits (ds : List Declaration) (depth : Nat) (p : Progress) (i : Nat)
    (hi : i < ds.length) (hdepth : p.unreached ds < depth) :
    Visits ds p [i] (visit ds depth p i) := by
  induction depth generalizing p i with
  | zero => exact absurd hdepth (Nat.not_lt_zero _)
  | succ depth ih =>
    rw [visit]
    split
    · next hreached => exact .skip (by simpa using hreached) (.done p)
    · next hreached =>
      have hnew : i ∉ p.reached := by simpa using hreached
      have henter := unreached_enter hi hnew
      exact .enter hnew (foldl_visit_visits ih (fun j => mentioned_lt) _ (by omega)) (.done _)

theorem walk_visits (ds : List Declaration) :
    Visits ds ⟨[], []⟩ (List.range ds.length) (walk ds) :=
  foldl_visit_visits (visit_visits ds (ds.length + 1)) (fun _ => List.mem_range.mp) _
    (unreached_start ds)

/-! ## Cycles -/

/-- Two positions lead to each other. -/
def LeadMutually (ds : List Declaration) (i j : Nat) : Prop := LeadsTo ds i j ∧ LeadsTo ds j i

/-- While a position is visited, all positions on a cycle with it are reached, provided that none of
them has been reached before. -/
theorem Visits.reaches_cycle {ds : List Declaration} {i : Nat} {back placed : List Nat}
    {inner : Progress} (h : Visits ds ⟨i :: back, placed⟩ (mentioned ds i) inner)
    (hfirst : ∀ j, LeadMutually ds i j → j ∉ back) {j : Nat} (hj : LeadMutually ds i j) :
    j ∈ inner.reached := by
  obtain ⟨hforth, hback⟩ := hj
  induction hforth with
  | refl => exact h.reached_suffix.subset List.mem_cons_self
  | @tail k j hforth hstep ih =>
    -- The position in front on the way lies on a cycle with `i` as well.
    have hk : LeadsTo ds k i := .head hstep hback
    rcases h.closed k (ih hk) with hstart | hall
    · rcases List.mem_cons.mp hstart with rfl | hearlier
      · exact h.reaches j hstep
      · exact absurd hearlier (hfirst k ⟨hforth, hk⟩)
    · exact hall j hstep

/-- Of the positions on a cycle, the one that is reached first is placed behind all the others. -/
theorem Visits.placed_behind_cycle {ds : List Declaration} {last : Progress}
    (h : Visits ds ⟨[], []⟩ (List.range ds.length) last) (hnodup : last.placed.Nodup) {i : Nat}
    (hfirst : ∀ j, LeadMutually ds i j →
      last.reached.reverse.idxOf i ≤ last.reached.reverse.idxOf j)
    {j : Nat} (hj : LeadMutually ds i j) (hi : i ∈ last.reached) (hne : j ≠ i) :
    last.placed.idxOf j < last.placed.idxOf i := by
  obtain ⟨earlier, later, hsplit, hnot⟩ :=
    List.eq_append_cons_of_mem (List.mem_reverse.mpr hi)
  have hback : ∀ k, LeadMutually ds i k → k ∉ earlier.reverse := by
    intro k hk hmem
    have hlt : last.reached.reverse.idxOf k < last.reached.reverse.idxOf i := by
      rw [hsplit]
      exact idxOf_lt_of_mem_front (List.mem_reverse.mp hmem) hnot
    exact absurd (hfirst k hk) (Nat.not_le.mpr hlt)
  have hreached : last.reached = later.reverse ++ i :: earlier.reverse := by
    rw [← List.reverse_reverse last.reached, hsplit]
    simp
  obtain ⟨placed, inner, hinner, behind, hplacing⟩ := h.entered hreached List.nil_suffix
  obtain ⟨more, hmore⟩ := hinner.adds fun k => mentioned_lt
  -- What the visit of `i` has reached besides `i` is placed in front of `i`.
  have hplaced : j ∈ inner.placed := by
    rw [hmore.placed]
    refine List.mem_append_right _ ?_
    refine ((hmore.reached j).mp (hinner.reaches_cycle hback hj)).resolve_left fun hstart => ?_
    exact (List.mem_cons.mp hstart).elim hne (hback j hj)
  rw [List.append_assoc] at hplacing
  rw [← hplacing] at hnodup ⊢
  refine idxOf_lt_of_mem_front hplaced fun hmem => ?_
  exact List.disjoint_of_nodup_append hnodup hmem List.mem_cons_self

/-- Ordering ends, on all declarations, with every position placed once. A declaration stands behind
each one that it mentions, unless mentions lead back; and of the declarations that lead to one
another the one that the walk reaches first stands behind all the others. -/
theorem order_sorts_up_to_cycles (ds : List Declaration) :
    ∃ last, Visits ds ⟨[], []⟩ (List.range ds.length) last ∧
      (∀ other, Visits ds ⟨[], []⟩ (List.range ds.length) other → other = last) ∧
      order ds = last.placed.filterMap (ds[·]?) ∧
      last.placed.Perm (List.range ds.length) ∧
      (∀ i j : Fin ds.length, ds[i].mentions ds[j] = true → ¬ LeadsTo ds j i →
        last.placed.idxOf j.val < last.placed.idxOf i.val) ∧
      ∀ i : Fin ds.length,
        (∀ j, LeadMutually ds i j →
          last.reached.reverse.idxOf i.val ≤ last.reached.reverse.idxOf j) →
        ∀ j, LeadMutually ds i j → j ≠ i → last.placed.idxOf j < last.placed.idxOf i.val := by
  have hwalk := walk_visits ds
  have hperm : (walk ds).placed.Perm (List.range ds.length) := orderPositions_perm ds
  have hnodup : (walk ds).placed.Nodup := hperm.nodup_iff.mpr List.nodup_range
  have hvalid : ∀ i : Fin ds.length, i.val ∈ List.range ds.length :=
    fun i => List.mem_range.mpr i.isLt
  refine ⟨walk ds, hwalk, fun other h => h.unique hwalk, rfl, hperm, ?_, ?_⟩
  · intro i j hmentions hback
    refine (orderPositions_preceded ds).idxOf_lt (hperm.mem_iff.mpr (hvalid i)) ?_ hback
    exact mem_mentioned.mpr ⟨ds[i], ds[j], by simp, by simp, hmentions⟩
  · intro i hfirst j hj hne
    exact hwalk.placed_behind_cycle hnodup hfirst hj (hwalk.reaches i (hvalid i)) hne

example : orderPositions [⟨"A".toList, "type A = B | C;".toList⟩,
    ⟨"B".toList, "type B = A;".toList⟩, ⟨"C".toList, "type C = B;".toList⟩] = [1, 2, 0] := by
  decide +kernel

end TypeInliner.Declaration

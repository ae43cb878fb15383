import TypeInliner.Proofs.DeclarationCycles

/-! # The order is stable

The walk that orders declarations starts at every position in turn, and it has placed a position
before it starts at the next one. So a position comes before an earlier one only if it has been
reached from there or from a position that is earlier still. Declarations that mention earlier ones
only keep their places, and ordering for a second time changes nothing where no declaration leads
back to itself. -/

namespace TypeInliner.Declaration

/-- One position mentions another, directly or through any number of further ones. -/
def LeadsOn (ds : List Declaration) : Nat → Nat → Prop :=
  Relation.TransGen fun i j => j ∈ mentioned ds i

variable {ds : List Declaration}

/-! ## Overtaking -/

/-- Visits of some positions and of others behind them can be told apart. -/
theorem Visits.split {p r : Progress} {positions more : List Nat}
    (h : Visits ds p (positions ++ more) r) :
    ∃ q, Visits ds p positions q ∧ Visits ds q more r := by
  induction positions generalizing p with
  | nil => exact ⟨p, .done p, h⟩
  | cons i positions ih =>
    cases h with
    | skip known others =>
      obtain ⟨q, first, second⟩ := ih others
      exact ⟨q, .skip known first, second⟩
    | enter new down others =>
      obtain ⟨q, first, second⟩ := ih others
      exact ⟨q, .enter new down first, second⟩

/-- What visits reach is mentioned by a visited position, through any number of further ones. -/
theorem Visits.reached_from {p q : Progress} {positions : List Nat} (h : Visits ds p positions q) :
    ∀ j ∈ q.reached, j ∈ p.reached ∨ ∃ i ∈ positions, LeadsTo ds i j := by
  induction h with
  | done p => exact fun j hj => Or.inl hj
  | skip _ _ ih =>
    intro j hj
    rcases ih j hj with hj | ⟨i, hi, hleads⟩
    · exact Or.inl hj
    · exact Or.inr ⟨i, List.mem_cons_of_mem _ hi, hleads⟩
  | @enter p inner q i rest new down others ihDown ihOthers =>
    intro j hj
    rcases ihOthers j hj with hj | ⟨k, hk, hleads⟩
    · rcases ihDown j hj with hj | ⟨k, hk, hleads⟩
      · rcases List.mem_cons.mp hj with rfl | hj
        · exact Or.inr ⟨j, List.mem_cons_self, .refl⟩
        · exact Or.inl hj
      · exact Or.inr ⟨i, List.mem_cons_self, .head hk hleads⟩
    · exact Or.inr ⟨k, List.mem_cons_of_mem _ hk, hleads⟩

/-- Visits from the beginning have placed what they have reached. -/
theorem Visits.mem_placed {q : Progress} {positions : List Nat}
    (h : Visits ds ⟨[], []⟩ positions q) (hvalid : ∀ i ∈ positions, i < ds.length) {j : Nat} :
    j ∈ q.placed ↔ j ∈ q.reached := by
  obtain ⟨more, hmore⟩ := h.adds hvalid
  rw [hmore.placed, hmore.reached]
  simp

/-- What stands before an element of the front of a list is in the front itself. -/
theorem mem_of_idxOf_lt {α : Type} [DecidableEq α] {front all : List α} {a b : α}
    (h : front <+: all) (hb : b ∈ front) (hlt : all.idxOf a < all.idxOf b) : a ∈ front := by
  obtain ⟨behind, rfl⟩ := h
  by_contra ha
  have hfront := List.idxOf_lt_length_of_mem hb
  rw [List.idxOf_append_of_notMem ha, List.idxOf_append_of_mem hb] at hlt
  omega

/-- A position is placed before an earlier one only if the earlier one, or one that is earlier
still, leads to it. -/
theorem leadsOn_of_overtaking {i j : Nat} (hij : i < j) (hj : j < ds.length)
    (h : (orderPositions ds).idxOf j < (orderPositions ds).idxOf i) :
    ∃ k, k ≤ i ∧ LeadsOn ds k j := by
  have hwalk := walk_visits ds
  obtain ⟨more, hmore⟩ : ∃ more, ds.length = i + 1 + more := Nat.exists_eq_add_of_le (by omega)
  rw [hmore, List.range_add] at hwalk
  obtain ⟨q, hfirst, hothers⟩ := hwalk.split
  have hvalid : ∀ k ∈ List.range (i + 1), k < ds.length := by
    intro k hk
    have := List.mem_range.mp hk
    omega
  -- After the visit of `i` all that is placed in front of `i` has been reached.
  have hi : i ∈ q.placed := (hfirst.mem_placed hvalid).mpr (hfirst.reaches i (by simp))
  have hreached := (hfirst.mem_placed hvalid).mp (mem_of_idxOf_lt hothers.placed_prefix hi h)
  rcases hfirst.reached_from j hreached with hstart | ⟨k, hk, hleads⟩
  · simp at hstart
  · have hk := List.mem_range.mp hk
    refine ⟨k, by omega, ?_⟩
    exact (Relation.reflTransGen_iff_eq_or_transGen.mp hleads).resolve_left (by omega)

/-! ## Declarations in order -/

theorem LeadsOn.lt (hback : ∀ i, ∀ j ∈ mentioned ds i, j < i) {i j : Nat} (h : LeadsOn ds i j) :
    j < i := by
  induction h with
  | single hstep => exact hback _ _ hstep
  | tail _ hstep ih => exact (hback _ _ hstep).trans ih

theorem nodup_orderPositions (ds : List Declaration) : (orderPositions ds).Nodup :=
  (orderPositions_perm ds).nodup_iff.mpr List.nodup_range

theorem lt_of_mem_orderPositions {i : Nat} (h : i ∈ orderPositions ds) : i < ds.length :=
  List.mem_range.mp ((orderPositions_perm ds).mem_iff.mp h)

/-- Positions that mention earlier ones only are placed in their order. -/
theorem orderPositions_eq_range (hback : ∀ i, ∀ j ∈ mentioned ds i, j < i) :
    orderPositions ds = List.range ds.length := by
  have hnodup := nodup_orderPositions ds
  have hsorted : (orderPositions ds).Pairwise (· < ·) := by
    refine List.pairwise_iff_getElem.mpr fun p q hp hq hpq => ?_
    by_contra hle
    have hne : (orderPositions ds)[q] ≠ (orderPositions ds)[p] := fun heq =>
      absurd (hnodup.getElem_inj_iff.mp heq) (by omega)
    have hvalid := lt_of_mem_orderPositions (List.getElem_mem hp)
    obtain ⟨k, hk, hleads⟩ := leadsOn_of_overtaking
      (i := (orderPositions ds)[q]) (j := (orderPositions ds)[p]) (by omega) hvalid (by
        rw [hnodup.idxOf_getElem, hnodup.idxOf_getElem]
        exact hpq)
    have := hleads.lt hback
    omega
  exact (orderPositions_perm ds).eq_of_pairwise (fun a b _ _ hab hba => by omega) hsorted
    List.pairwise_lt_range

/-- Declarations that mention earlier ones only are in order. -/
theorem order_of_back (hback : ∀ i, ∀ j ∈ mentioned ds i, j < i) : order ds = ds := by
  rw [order, orderPositions_eq_range hback, filterMap_range]

/-! ## Ordering twice -/

/-- What stands at a place of the order is the declaration whose position is placed there. -/
theorem getElem?_order (ds : List Declaration) (p : Nat) :
    (order ds)[p]? = (orderPositions ds)[p]?.bind (ds[·]?) := by
  have hvalid : ∀ i ∈ orderPositions ds, i < ds.length := fun _ => lt_of_mem_orderPositions
  rw [order]
  generalize orderPositions ds = positions at hvalid
  induction positions generalizing p with
  | nil => rfl
  | cons i positions ih =>
    have hi := List.getElem?_eq_getElem (hvalid i List.mem_cons_self)
    rw [List.filterMap_cons_some hi]
    cases p with
    | zero => simp [hi]
    | succ p => simpa using ih p fun j hj => hvalid j (List.mem_cons_of_mem i hj)

/-- Where no position leads back to itself, the declarations in order mention earlier ones only. -/
theorem mentioned_order_lt (hacyclic : ∀ i, ¬ LeadsOn ds i i) :
    ∀ p, ∀ q ∈ mentioned (order ds) p, q < p := by
  intro p q hq
  obtain ⟨d, other, hd, hother, hmentions⟩ := mem_mentioned.mp hq
  rw [getElem?_order] at hd hother
  obtain ⟨i, hi, hd⟩ := Option.bind_eq_some_iff.mp hd
  obtain ⟨j, hj, hother⟩ := Option.bind_eq_some_iff.mp hother
  have hstep : j ∈ mentioned ds i := mem_mentioned.mpr ⟨d, other, hd, hother, hmentions⟩
  have hback : ¬ LeadsTo ds j i := fun hleads => hacyclic i (.head' hstep hleads)
  have hlt := (orderPositions_preceded ds).idxOf_lt (List.mem_of_getElem? hi) hstep hback
  obtain ⟨hp, rfl⟩ := List.getElem?_eq_some_iff.mp hi
  obtain ⟨hq, rfl⟩ := List.getElem?_eq_some_iff.mp hj
  rwa [(nodup_orderPositions ds).idxOf_getElem, (nodup_orderPositions ds).idxOf_getElem] at hlt

/-- The order is stable. Declarations that mention earlier ones only stay as they are, and where
none leads back to itself a second ordering changes nothing. Whatever mentions whom, the order is
one of positions, each of them once, and a position is placed before an earlier one only if the
earlier one, or one that is earlier still, leads to it by mentions. -/
theorem order_is_stable (ds : List Declaration) :
    ((∀ i j : Fin ds.length, (ds.get i).mentions (ds.get j) = true → j.val < i.val) →
      order ds = ds) ∧
    ((∀ i, ¬ LeadsOn ds i i) → order (order ds) = order ds) ∧
    order ds = (orderPositions ds).filterMap (ds[·]?) ∧
    (orderPositions ds).Perm (List.range ds.length) ∧
    ∀ i j : Fin ds.length, i.val < j.val →
      (orderPositions ds).idxOf j.val < (orderPositions ds).idxOf i.val →
        ∃ k, k ≤ i.val ∧ LeadsOn ds k j.val := by
  refine ⟨fun hback => order_of_back fun i j hj => ?_, fun hacyclic => ?_, rfl,
    orderPositions_perm ds, fun i j hij hplaced => leadsOn_of_overtaking hij j.isLt hplaced⟩
  · obtain ⟨d, other, hd, hother, hmentions⟩ := mem_mentioned.mp hj
    obtain ⟨hi, rfl⟩ := List.getElem?_eq_some_iff.mp hd
    obtain ⟨hj, rfl⟩ := List.getElem?_eq_some_iff.mp hother
    exact hback ⟨i, hi⟩ ⟨j, hj⟩ hmentions
  · exact order_of_back (mentioned_order_lt hacyclic)

example : orderPositions [⟨"A".toList, "type A = 1;".toList⟩, ⟨"B".toList, "type B = D;".toList⟩,
    ⟨"C".toList, "type C = 2;".toList⟩, ⟨"D".toList, "type D = B;".toList⟩] = [0, 3, 1, 2] := by
  decide +kernel

end TypeInliner.Declaration

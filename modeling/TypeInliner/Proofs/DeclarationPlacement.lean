import Mathlib.Data.List.Induction
import Mathlib.Data.List.Nodup
import Mathlib.Data.List.Perm.Basic
import TypeInliner.DeclarationOrder

/-! # Every declaration is placed once

The walk that orders declarations places a position only when it reaches it for the first time, so
that the order has all the declarations, each of them once. -/

namespace TypeInliner.Declaration

/-- A part of the walk that reaches some new positions and places all of them. -/
structure Adds (bound : Nat) (p : Progress) (more : List Nat) (q : Progress) : Prop where
  placed : q.placed = p.placed ++ more
  reached (i : Nat) : i ∈ q.reached ↔ i ∈ p.reached ∨ i ∈ more
  once : more.Nodup
  new : ∀ i ∈ more, i ∉ p.reached
  valid : ∀ i ∈ more, i < bound

namespace Adds

variable {bound : Nat} {p q r : Progress} {more more' : List Nat}

theorem nothing (bound : Nat) (p : Progress) : Adds bound p [] p where
  placed := (List.append_nil _).symm
  reached := by simp
  once := List.nodup_nil
  new := by simp
  valid := by simp

theorem trans (h : Adds bound p more q) (h' : Adds bound q more' r) :
    Adds bound p (more ++ more') r where
  placed := by rw [h'.placed, h.placed, List.append_assoc]
  reached i := by
    rw [h'.reached, h.reached, List.mem_append]
    exact or_assoc
  once := by
    refine List.nodup_append.mpr ⟨h.once, h'.once, ?_⟩
    rintro i hi _ hi' rfl
    exact h'.new i hi' ((h.reached i).mpr (Or.inr hi))
  new := by
    intro i hi
    rcases List.mem_append.mp hi with hi | hi
    · exact h.new i hi
    · exact fun hp => h'.new i hi ((h.reached i).mpr (Or.inl hp))
  valid := by
    intro i hi
    rcases List.mem_append.mp hi with hi | hi
    · exact h.valid i hi
    · exact h'.valid i hi

/-- A position is placed behind what is reached from it. -/
theorem around {i : Nat} (hi : i ∉ p.reached) (hbound : i < bound)
    (h : Adds bound { p with reached := i :: p.reached } more q) :
    Adds bound p (more ++ [i]) { q with placed := q.placed ++ [i] } where
  placed := by rw [h.placed, List.append_assoc]
  reached j := by
    rw [h.reached, List.mem_cons, List.mem_append, List.mem_singleton]
    tauto
  once := by
    refine List.nodup_append.mpr ⟨h.once, List.nodup_singleton i, ?_⟩
    rintro j hj _ hj' rfl
    rw [List.mem_singleton.mp hj'] at hj
    exact h.new i hj List.mem_cons_self
  new := by
    intro j hj
    rcases List.mem_append.mp hj with hj | hj
    · exact fun hp => h.new j hj (List.mem_cons_of_mem i hp)
    · rwa [List.mem_singleton.mp hj]
  valid := by
    intro j hj
    rcases List.mem_append.mp hj with hj | hj
    · exact h.valid j hj
    · rwa [List.mem_singleton.mp hj]

/-- What single visits do, a row of visits does. -/
theorem foldl {step : Progress → Nat → Progress}
    (h : ∀ p i, i < bound → ∃ more, Adds bound p more (step p i)) {positions : List Nat}
    (hvalid : ∀ i ∈ positions, i < bound) (p : Progress) :
    ∃ more, Adds bound p more (positions.foldl step p) := by
  induction positions generalizing p with
  | nil => exact ⟨[], nothing bound p⟩
  | cons i positions ih =>
    obtain ⟨more, hfirst⟩ := h p i (hvalid i List.mem_cons_self)
    obtain ⟨more', hrest⟩ := ih (fun j hj => hvalid j (List.mem_cons_of_mem i hj)) (step p i)
    exact ⟨more ++ more', hfirst.trans hrest⟩

end Adds

theorem mentioned_lt {ds : List Declaration} {i j : Nat} (h : j ∈ mentioned ds i) :
    j < ds.length := by
  unfold mentioned at h
  split at h
  · obtain ⟨⟨d, k⟩, hd, rfl⟩ := List.mem_map.mp h
    exact (List.mem_zipIdx' (List.mem_filter.mp hd).1).1
  · simp at h

/-- A visit reaches new positions and places them. -/
theorem visit_adds (ds : List Declaration) (depth : Nat) (p : Progress) {i : Nat}
    (hi : i < ds.length) : ∃ more, Adds ds.length p more (visit ds depth p i) := by
  induction depth generalizing p i with
  | zero => exact ⟨[], .nothing _ p⟩
  | succ depth ih =>
    rw [visit]
    split
    · exact ⟨[], .nothing _ p⟩
    · next hnew =>
      have hnew : i ∉ p.reached := by simpa using hnew
      obtain ⟨more, hmore⟩ := Adds.foldl (fun p j hj => ih p hj) (fun j => mentioned_lt (i := i))
        { p with reached := i :: p.reached }
      exact ⟨more ++ [i], hmore.around hnew hi⟩

theorem visit_reaches (ds : List Declaration) (depth : Nat) (p : Progress) {i : Nat}
    (hi : i < ds.length) : i ∈ (visit ds (depth + 1) p i).reached := by
  by_cases hreached : i ∈ p.reached
  · obtain ⟨more, hmore⟩ := visit_adds ds (depth + 1) p hi
    exact (hmore.reached i).mpr (Or.inl hreached)
  · obtain ⟨more, hmore⟩ := Adds.foldl (fun p j hj => visit_adds ds depth p hj)
      (fun j => mentioned_lt (i := i)) { p with reached := i :: p.reached }
    rw [visit, if_neg (by simpa using hreached)]
    exact (hmore.reached i).mpr (Or.inl List.mem_cons_self)

/-- Visits of some positions reach all of them. -/
theorem foldl_visit_reaches (ds : List Declaration) (depth : Nat) {positions : List Nat}
    (hvalid : ∀ i ∈ positions, i < ds.length) (p : Progress) :
    ∀ i ∈ positions, i ∈ (positions.foldl (visit ds (depth + 1)) p).reached := by
  induction positions generalizing p with
  | nil => simp
  | cons j positions ih =>
    have hrest := fun i hi => hvalid i (List.mem_cons_of_mem j hi)
    intro i hi
    rcases List.mem_cons.mp hi with rfl | hi
    · obtain ⟨more, hmore⟩ := Adds.foldl (fun p k hk => visit_adds ds (depth + 1) p hk) hrest
        (visit ds (depth + 1) p i)
      exact (hmore.reached i).mpr
        (Or.inl (visit_reaches ds depth p (hvalid i List.mem_cons_self)))
    · exact ih hrest _ i hi

/-- All positions are placed, each of them once. -/
theorem orderPositions_perm (ds : List Declaration) :
    (orderPositions ds).Perm (List.range ds.length) := by
  have hvalid : ∀ i ∈ List.range ds.length, i < ds.length := fun i => List.mem_range.mp
  obtain ⟨more, hmore⟩ := Adds.foldl (fun p i hi => visit_adds ds (ds.length + 1) p hi) hvalid
    ⟨[], []⟩
  have hplaced : orderPositions ds = more := hmore.placed
  rw [hplaced]
  apply (List.perm_ext_iff_of_nodup hmore.once List.nodup_range).mpr
  intro i
  constructor
  · exact fun hi => List.mem_range.mpr (hmore.valid i hi)
  · intro hi
    have hreached := foldl_visit_reaches ds ds.length hvalid ⟨[], []⟩ i hi
    rcases (hmore.reached i).mp hreached with hstart | hi
    · simp at hstart
    · exact hi

theorem filterMap_range (ds : List Declaration) :
    (List.range ds.length).filterMap (ds[·]?) = ds := by
  induction ds using List.reverseRecOn with
  | nil => rfl
  | append_singleton ds d ih =>
    have hfront : (List.range ds.length).filterMap ((ds ++ [d])[·]?) =
        (List.range ds.length).filterMap (ds[·]?) :=
      List.filterMap_congr fun i hi => List.getElem?_append_left (List.mem_range.mp hi)
    rw [List.length_append, List.length_singleton, List.range_succ, List.filterMap_append, hfront,
      ih]
    simp

/-- Ordering keeps the declarations, each of them once. -/
theorem order_perm (ds : List Declaration) : (order ds).Perm ds := by
  have hperm := (orderPositions_perm ds).filterMap (ds[·]?)
  rwa [filterMap_range] at hperm

end TypeInliner.Declaration

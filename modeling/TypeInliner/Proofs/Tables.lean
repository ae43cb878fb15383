import Mathlib.Data.List.Basic
import TypeInliner.Table

/-! # Laws of tables

What a table answers after a change, and what a list holds after new members have been appended.
Keys are compared by `==`, of which only an equivalence is required: two spellings of one key may be
different values. -/

namespace TypeInliner

/-- No two members are the same. -/
def Distinct {κ : Type} [BEq κ] (keys : List κ) : Prop :=
  keys.Pairwise fun a b => (a == b) = false

variable {κ ν : Type} [BEq κ]

namespace Table

/-- What is found for a key stands in the table behind a spelling of the key. -/
theorem mem_of_find? {key : κ} {value : ν} {table : Table κ ν}
    (h : table.find? key = some value) : ∃ k, k == key ∧ (k, value) ∈ table := by
  induction table with
  | nil => simp [find?] at h
  | cons entry rest ih =>
    obtain ⟨k, v⟩ := entry
    rw [find?] at h
    split at h
    · next hkey =>
      cases h
      exact ⟨k, hkey, List.mem_cons_self⟩
    · obtain ⟨k, hkey, hk⟩ := ih h
      exact ⟨k, hkey, List.mem_cons_of_mem _ hk⟩

theorem find?_append (key : κ) (table others : Table κ ν) :
    find? key (table ++ others) = (table.find? key).or (others.find? key) := by
  induction table with
  | nil => rfl
  | cons entry rest ih =>
    obtain ⟨k, v⟩ := entry
    rw [List.cons_append, find?, find?, ih]
    split <;> rfl

theorem erase_sublist (key : κ) (table : Table κ ν) : (erase key table).Sublist table := by
  induction table with
  | nil => exact .slnil
  | cons entry rest ih =>
    rw [erase]
    split
    · exact List.sublist_cons_self _ _
    · exact ih.cons_cons _

variable [EquivBEq κ]

theorem find?_congr {a b : κ} (h : a == b) (table : Table κ ν) : find? a table = find? b table := by
  induction table with
  | nil => rfl
  | cons entry rest ih =>
    obtain ⟨k, v⟩ := entry
    simp only [find?, ih, BEq.congr_right h]

/-- A change of one key is seen at that key alone. -/
theorem find?_insert (key : κ) (value : ν) (table : Table κ ν) (k : κ) :
    find? k (insert key value table) = if key == k then some value else find? k table := by
  induction table with
  | nil => rfl
  | cons entry rest ih =>
    obtain ⟨k', v⟩ := entry
    by_cases h : k' == key
    · simp only [insert, h, ↓reduceIte, find?, BEq.congr_left h]
      split <;> rfl
    · have hk : (key == k) = true → (k' == k) = false := by
        intro hkey
        rw [← BEq.congr_right hkey]
        simpa using h
      simp only [insert, h, Bool.false_eq_true, ↓reduceIte, find?, ih]
      by_cases hkey : key == k
      · simp [hkey, hk hkey]
      · simp [hkey]

section LawfulKeys

variable {κ ν : Type} [BEq κ] [LawfulBEq κ]

theorem map_fst_insert (key : κ) (value : ν) (table : Table κ ν) :
    (insert key value table).map Prod.fst = table.map Prod.fst ∨
      key ∉ table.map Prod.fst ∧
        (insert key value table).map Prod.fst = table.map Prod.fst ++ [key] := by
  induction table with
  | nil => exact Or.inr ⟨List.not_mem_nil, rfl⟩
  | cons entry rest ih =>
    obtain ⟨k, v⟩ := entry
    by_cases h : k == key
    · left
      simp [insert, h]
    · have hne : key ≠ k := fun heq => h (beq_iff_eq.mpr heq.symm)
      simp only [insert, h, Bool.false_eq_true, ↓reduceIte, List.map_cons, List.mem_cons, not_or,
        List.cons_append]
      rcases ih with hsame | ⟨hnew, hend⟩
      · exact Or.inl (congrArg (k :: ·) hsame)
      · exact Or.inr ⟨⟨hne, hnew⟩, congrArg (k :: ·) hend⟩

theorem nodup_insert {table : Table κ ν} (h : (table.map Prod.fst).Nodup) (key : κ) (value : ν) :
    ((insert key value table).map Prod.fst).Nodup := by
  rcases map_fst_insert key value table with hsame | ⟨hnew, hend⟩
  · rwa [hsame]
  · rw [hend]
    refine List.nodup_append.mpr ⟨h, by simp, ?_⟩
    rintro key hkey _ hother rfl
    rw [List.mem_singleton.mp hother] at hkey
    exact hnew hkey

theorem nodup_insertAll {table : Table κ ν} (h : (table.map Prod.fst).Nodup)
    (others : Table κ ν) : ((insertAll table others).map Prod.fst).Nodup := by
  induction others generalizing table with
  | nil => exact h
  | cons entry others ih => exact ih (nodup_insert h entry.1 entry.2)

/-- A table that is filled from nothing has each key once. -/
theorem nodup_insertAll_nil (entries : Table κ ν) :
    ((insertAll [] entries).map Prod.fst).Nodup := by
  have hempty : (([] : Table κ ν).map Prod.fst).Nodup := List.nodup_nil
  exact nodup_insertAll hempty entries

theorem mem_insert {key : κ} {value : ν} {table : Table κ ν} {entry : κ × ν}
    (h : entry ∈ insert key value table) : entry ∈ table ∨ entry = (key, value) := by
  induction table with
  | nil => exact Or.inr (List.mem_singleton.mp h)
  | cons first rest ih =>
    obtain ⟨k, v⟩ := first
    rw [insert] at h
    split at h
    · next hkey =>
      obtain rfl := beq_iff_eq.mp hkey
      exact (List.mem_cons.mp h).symm.imp_left (List.mem_cons_of_mem _)
    · rcases List.mem_cons.mp h with rfl | h
      · exact Or.inl List.mem_cons_self
      · exact (ih h).imp_left (List.mem_cons_of_mem _)

theorem find?_erase_of_ne {key k : κ} (h : k ≠ key) (table : Table κ ν) :
    find? k (erase key table) = find? k table := by
  induction table with
  | nil => rfl
  | cons entry rest ih =>
    obtain ⟨k', v⟩ := entry
    rw [erase]
    split
    · next hkey =>
      obtain rfl := beq_iff_eq.mp hkey
      rw [find?, if_neg (by simpa using Ne.symm h)]
    · rw [find?, find?, ih]

theorem mem_insertAll {table others : Table κ ν} {entry : κ × ν}
    (h : entry ∈ insertAll table others) : entry ∈ table ∨ entry ∈ others := by
  induction others generalizing table with
  | nil => exact Or.inl h
  | cons first others ih =>
    rcases ih h with h | h
    · rcases mem_insert h with h | rfl
      · exact Or.inl h
      · exact Or.inr List.mem_cons_self
    · exact Or.inr (List.mem_cons_of_mem _ h)

/-- A key that stands once has the value that stands with it. -/
theorem find?_eq_some_iff_mem {table : Table κ ν} (h : (table.map Prod.fst).Nodup) {key : κ}
    {value : ν} : table.find? key = some value ↔ (key, value) ∈ table := by
  induction table with
  | nil => simp [find?]
  | cons entry rest ih =>
    obtain ⟨k, v⟩ := entry
    obtain ⟨hnew, hrest⟩ := List.nodup_cons.mp h
    rw [find?, List.mem_cons, Prod.mk.injEq]
    split
    · next hkey =>
      obtain rfl := beq_iff_eq.mp hkey
      have hnot : (k, value) ∉ rest := fun hmem => hnew (List.mem_map.mpr ⟨_, hmem, rfl⟩)
      simp [hnot, eq_comm]
    · next hkey =>
      have hne : key ≠ k := fun heq => hkey (beq_iff_eq.mpr heq.symm)
      simp [ih hrest, hne]

theorem find?_eq_none_iff {table : Table κ ν} {key : κ} :
    table.find? key = none ↔ key ∉ table.map Prod.fst := by
  induction table with
  | nil => simp [find?]
  | cons entry rest ih =>
    obtain ⟨k, v⟩ := entry
    rw [find?, List.map_cons, List.mem_cons, not_or, ← ih]
    split
    · next hkey => simp [beq_iff_eq.mp hkey]
    · next hkey =>
      have hne : key ≠ k := fun heq => hkey (beq_iff_eq.mpr heq.symm)
      simp [hne]

/-- What is found for a key does not depend on the order of the entries. -/
theorem find?_of_perm {table other : Table κ ν} (hperm : table.Perm other)
    (h : (table.map Prod.fst).Nodup) (key : κ) : table.find? key = other.find? key := by
  have hother : (other.map Prod.fst).Nodup := (hperm.map _).nodup_iff.mp h
  refine Option.ext fun value => ?_
  rw [find?_eq_some_iff_mem h, find?_eq_some_iff_mem hother, hperm.mem_iff]

/-- Of all values that are set for a key the last one is found. -/
theorem find?_insertAll (table others : Table κ ν) (key : κ) :
    (insertAll table others).find? key = (find? key others.reverse).or (table.find? key) := by
  induction others generalizing table with
  | nil => rfl
  | cons entry others ih =>
    have hstep := ih (insert entry.1 entry.2 table)
    rw [find?_insert] at hstep
    rw [List.reverse_cons, find?_append]
    refine hstep.trans ?_
    cases find? key others.reverse with
    | some value => rfl
    | none => by_cases hkey : entry.1 == key <;> simp [find?, hkey]

end LawfulKeys

end Table

@[simp] theorem addNew_nil (xs : List κ) : addNew xs [] = xs := rfl

theorem addNew_append (xs ys zs : List κ) :
    addNew xs (ys ++ zs) = addNew (addNew xs ys) zs := by
  simp [addNew, List.foldl_append]

theorem addNew_cons (xs ys : List κ) (y : κ) :
    addNew xs (y :: ys) = addNew (if xs.contains y then xs else xs ++ [y]) ys := rfl

theorem addNew_cons_of_contains {xs : List κ} {y : κ} (h : xs.contains y = true) (ys : List κ) :
    addNew xs (y :: ys) = addNew xs ys := by
  rw [addNew_cons, if_pos h]

theorem addNew_cons_of_not_contains {xs : List κ} {y : κ} (h : xs.contains y = false)
    (ys : List κ) : addNew xs (y :: ys) = addNew (xs ++ [y]) ys := by
  rw [addNew_cons, if_neg (by simp [h])]

theorem prefix_addNew (xs ys : List κ) : xs <+: addNew xs ys := by
  induction ys generalizing xs with
  | nil => exact List.prefix_rfl
  | cons y ys ih =>
    cases h : xs.contains y with
    | true => rw [addNew_cons_of_contains h]; exact ih xs
    | false =>
      rw [addNew_cons_of_not_contains h]
      exact (List.prefix_append xs [y]).trans (ih _)

theorem contains_of_subset {xs ys : List κ} (h : xs ⊆ ys) {k : κ} (hk : xs.contains k = true) :
    ys.contains k = true := by
  rw [List.contains_iff_exists_mem_beq] at hk ⊢
  obtain ⟨a, ha, hka⟩ := hk
  exact ⟨a, h ha, hka⟩

theorem contains_of_mem [ReflBEq κ] {xs : List κ} {k : κ} (h : k ∈ xs) : xs.contains k = true :=
  List.contains_iff_exists_mem_beq.mpr ⟨k, h, BEq.rfl⟩

/-- Appending new members adds exactly what is appended. -/
theorem contains_addNew [EquivBEq κ] (xs ys : List κ) (k : κ) :
    (addNew xs ys).contains k = (xs.contains k || ys.contains k) := by
  induction ys generalizing xs with
  | nil => simp
  | cons y ys ih =>
    cases h : xs.contains y with
    | true =>
      rw [addNew_cons_of_contains h, ih]
      by_cases hk : k == y
      · simp [List.contains_congr hk, h]
      · simp [hk]
    | false =>
      rw [addNew_cons_of_not_contains h, ih]
      simp [Bool.or_assoc]

theorem mem_addNew {xs ys : List κ} {k : κ} (h : k ∈ addNew xs ys) : k ∈ xs ∨ k ∈ ys := by
  induction ys generalizing xs with
  | nil => exact Or.inl h
  | cons y ys ih =>
    rw [addNew_cons] at h
    rcases ih h with h | h
    · split at h
      · exact Or.inl h
      · rcases List.mem_append.mp h with h | h
        · exact Or.inl h
        · exact Or.inr (by simp_all)
    · exact Or.inr (List.mem_cons_of_mem _ h)

/-- What is appended is what is not there yet, each member at its first occurrence. -/
theorem addNew_eq_append_eraseDups (xs ys : List κ) :
    addNew xs ys = xs ++ (ys.filter (!xs.contains ·)).eraseDups := by
  induction ys generalizing xs with
  | nil => simp
  | cons y ys ih =>
    cases h : xs.contains y with
    | true => rw [addNew_cons_of_contains h, ih, List.filter_cons_of_neg (by simp [h])]
    | false =>
      have hsame : ys.filter (!(xs ++ [y]).contains ·) =
          (ys.filter (!xs.contains ·)).filter (!· == y) := by
        rw [List.filter_filter]
        refine List.filter_congr fun z _ => ?_
        simp [Bool.and_comm]
      rw [addNew_cons_of_not_contains h, ih, List.filter_cons_of_pos (by simp [h]),
        List.eraseDups_cons, hsame, List.append_assoc]
      rfl

theorem Distinct.append_new [EquivBEq κ] {xs : List κ} (h : Distinct xs) {y : κ}
    (hy : xs.contains y = false) : Distinct (xs ++ [y]) := by
  refine List.pairwise_append.mpr ⟨h, List.pairwise_singleton _ _, ?_⟩
  intro a ha b hb
  obtain rfl := List.mem_singleton.mp hb
  cases hab : a == b with
  | false => rfl
  | true =>
    have hc := List.contains_iff_exists_mem_beq.mpr ⟨a, ha, BEq.symm hab⟩
    simp [hy] at hc

theorem Distinct.addNew [EquivBEq κ] {xs : List κ} (h : Distinct xs) (ys : List κ) :
    Distinct (addNew xs ys) := by
  induction ys generalizing xs with
  | nil => exact h
  | cons y ys ih =>
    cases hy : xs.contains y with
    | true => rw [addNew_cons_of_contains hy]; exact ih h
    | false => rw [addNew_cons_of_not_contains hy]; exact ih (h.append_new hy)

end TypeInliner

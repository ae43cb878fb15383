import TypeInliner.Manifest
import TypeInliner.Proofs.Tables

/-! # The keys of JSON objects that have been read

A value that has been read has no object with two members of one key, at any depth: a key that is
written again replaces the value at the place of its first appearance. -/

namespace TypeInliner

namespace Json

/-- No object in a value has two members of one key. -/
inductive HasDistinctKeys : Json → Prop
  | null : HasDistinctKeys .null
  | bool (b : Bool) : HasDistinctKeys (.bool b)
  | number (literal : Text) : HasDistinctKeys (.number literal)
  | string (t : Text) : HasDistinctKeys (.string t)
  | array {items : List Json} (items_distinct : ∀ item ∈ items, HasDistinctKeys item) :
      HasDistinctKeys (.array items)
  | object {members : List (Text × Json)} (keys : (members.map Prod.fst).Nodup)
      (values_distinct : ∀ member ∈ members, HasDistinctKeys member.2) :
      HasDistinctKeys (.object members)

theorem HasDistinctKeys.nodup_keys {members : List (Text × Json)}
    (h : HasDistinctKeys (.object members)) : (members.map Prod.fst).Nodup := by
  cases h with
  | object keys => exact keys

mutual

/-- The value of a raw JSON has each key once in each of its objects. -/
theorem hasDistinctKeys_of_value? {depth : Nat} {raw : Raw} {value : Json}
    (h : raw.value? depth = some value) : value.HasDistinctKeys := by
  cases raw with
  | null => cases depth <;> (cases h; exact .null)
  | bool b => cases depth <;> (cases h; exact .bool b)
  | number literal =>
    simp only [Raw.value?] at h
    split at h <;> cases h
    exact .number literal
  | string t =>
    obtain ⟨t, _, rfl⟩ := Option.map_eq_some_iff.mp h
    exact .string t
  | array items =>
    cases depth with
    | zero => cases h
    | succ depth =>
      obtain ⟨values, hvalues, rfl⟩ := Option.map_eq_some_iff.mp h
      exact .array (hasDistinctKeys_of_itemValues? hvalues)
  | object members =>
    cases depth with
    | zero => cases h
    | succ depth =>
      obtain ⟨values, hvalues, rfl⟩ := Option.map_eq_some_iff.mp h
      refine .object (Table.nodup_insertAll_nil values) fun member hmember => ?_
      have hmem := (Table.mem_insertAll hmember).resolve_left List.not_mem_nil
      exact hasDistinctKeys_of_memberValues? hvalues member hmem

theorem hasDistinctKeys_of_itemValues? {depth : Nat} {items : List Raw} {values : List Json}
    (h : itemValues? depth items = some values) : ∀ value ∈ values, value.HasDistinctKeys := by
  cases items with
  | nil =>
    cases h
    simp
  | cons item rest =>
    simp only [itemValues?, Option.bind_eq_bind, Option.bind_eq_some_iff] at h
    obtain ⟨first, hfirst, others, hothers, hvalues⟩ := h
    cases hvalues
    exact List.forall_mem_cons.mpr
      ⟨hasDistinctKeys_of_value? hfirst, hasDistinctKeys_of_itemValues? hothers⟩

theorem hasDistinctKeys_of_memberValues? {depth : Nat} {members : List (Option Text × Raw)}
    {values : List (Text × Json)} (h : memberValues? depth members = some values) :
    ∀ member ∈ values, member.2.HasDistinctKeys := by
  match members with
  | [] =>
    cases h
    simp
  | (key, item) :: rest =>
    simp only [memberValues?, Option.bind_eq_bind, Option.bind_eq_some_iff] at h
    obtain ⟨key, _, first, hfirst, others, hothers, hvalues⟩ := h
    cases hvalues
    exact List.forall_mem_cons.mpr
      ⟨hasDistinctKeys_of_value? hfirst, hasDistinctKeys_of_memberValues? hothers⟩

end

theorem hasDistinctKeys_of_nullable? {depth : Nat} {raw : Option Raw} {value : Json}
    (h : Raw.nullable? (Raw.value? depth) raw = some (some value)) : value.HasDistinctKeys := by
  unfold Raw.nullable? at h
  split at h
  · simp at h
  · simp at h
  · obtain ⟨_, hread, hvalue⟩ := Option.map_eq_some_iff.mp h
    obtain rfl := Option.some.inj hvalue
    exact hasDistinctKeys_of_value? hread

end Json

/-- The export map of a manifest that has been read has each key once in each of its objects. -/
theorem Manifest.exports_hasDistinctKeys {t : Text} {m : Manifest} (h : ofText? t = some m)
    {exports : Json} (hexports : m.exports = some exports) : exports.HasDistinctKeys := by
  obtain ⟨_, _, _, _, hread, -⟩ := exists_fields_of_ofText? h
  rw [hexports] at hread
  exact Json.hasDistinctKeys_of_nullable? hread

end TypeInliner

import Mathlib.Data.List.Basic
import TypeInliner.ExportTable
import TypeInliner.Proofs.JsonValues

/-! # The declaration file of an export value

An export value is searched depth first: in every object the member `types` comes first, `typings`
second, and then the other members in their order; the items of an array are taken in order. The
declaration file is the first string on this way that ends like one. So a value has a declaration
file if and only if such a string stands in it at any depth: a preferred member without one never
hides what stands in the others. -/

namespace TypeInliner

namespace Json

/-- A string stands in a value, at any depth. -/
inductive Holds : Json → Text → Prop
  | string (t : Text) : Holds (.string t) t
  | item {item : Json} {items : List Json} {t : Text} (mem : item ∈ items)
      (holds : Holds item t) : Holds (.array items) t
  | member {member : Text × Json} {members : List (Text × Json)} {t : Text}
      (mem : member ∈ members) (holds : Holds member.2 t) : Holds (.object members) t

/-- Whether a key is none of those for types. -/
def isOtherKey (key : Text) : Bool := key ≠ "types".toList ∧ key ≠ "typings".toList

/-- The members of an object in the order in which they are searched. -/
def searchOrder {α : Type} (members : List (Text × α)) : List (Text × α) :=
  members.filter (·.1 = "types".toList) ++ members.filter (·.1 = "typings".toList) ++
    members.filter (isOtherKey ·.1)

theorem isOtherKey_iff {key : Text} :
    isOtherKey key = true ↔ ¬ (key = "types".toList ∨ key = "typings".toList) := by
  rw [isOtherKey, decide_eq_true_iff, not_or]

theorem mem_searchOrder {α : Type} {members : List (Text × α)} {member : Text × α} :
    member ∈ searchOrder members ↔ member ∈ members := by
  simp only [searchOrder, List.mem_append, List.mem_filter, isOtherKey_iff, decide_eq_true_eq]
  tauto

theorem searchOrder_map {α β : Type} (f : α → β) (members : List (Text × α)) :
    searchOrder (members.map fun member => (member.1, f member.2)) =
      (searchOrder members).map fun member => (member.1, f member.2) := by
  simp only [searchOrder, List.filter_map, List.map_append]
  rfl

mutual

/-- All strings of a value in the order in which it is searched. -/
def strings : Json → List Text
  | .string t => [t]
  | .array items => stringsOfItems items
  | .object members => (searchOrder (stringsOfMembers members)).flatMap Prod.snd
  | _ => []

def stringsOfItems : List Json → List Text
  | [] => []
  | item :: items => strings item ++ stringsOfItems items

/-- The strings of each member with its key, in the order in which the members are written. -/
def stringsOfMembers : List (Text × Json) → List (Text × List Text)
  | [] => []
  | (key, value) :: members => (key, strings value) :: stringsOfMembers members

end

theorem strings_array (items : List Json) : strings (.array items) = items.flatMap strings := by
  rw [strings]
  induction items with
  | nil => rfl
  | cons item items ih => rw [stringsOfItems, ih, List.flatMap_cons]

theorem strings_object (members : List (Text × Json)) :
    strings (.object members) = (searchOrder members).flatMap (strings ·.2) := by
  have hmembers : stringsOfMembers members =
      members.map fun member => (member.1, strings member.2) := by
    induction members with
    | nil => rfl
    | cons member members ih => rw [stringsOfMembers, ih, List.map_cons]
  rw [strings, hmembers, searchOrder_map, List.flatMap_map]

theorem Holds.mem_strings {v : Json} {t : Text} (h : v.Holds t) : t ∈ v.strings := by
  induction h with
  | string t => exact List.mem_singleton_self t
  | item mem _ ih =>
    rw [strings_array]
    exact List.mem_flatMap_of_mem mem ih
  | member mem _ ih =>
    rw [strings_object]
    exact List.mem_flatMap_of_mem (mem_searchOrder.mpr mem) ih

theorem holds_of_mem_strings {v : Json} {t : Text} (h : t ∈ v.strings) : v.Holds t := by
  match v with
  | .null => simp [strings] at h
  | .bool _ => simp [strings] at h
  | .number _ => simp [strings] at h
  | .string s =>
    obtain rfl := List.mem_singleton.mp h
    exact .string t
  | .array items =>
    rw [strings_array] at h
    obtain ⟨item, hitem, ht⟩ := List.mem_flatMap.mp h
    exact .item hitem (holds_of_mem_strings ht)
  | .object members =>
    rw [strings_object] at h
    obtain ⟨member, hmember, ht⟩ := List.mem_flatMap.mp h
    exact .member (mem_searchOrder.mp hmember) (holds_of_mem_strings ht)
termination_by sizeOf v
decreasing_by
  · have hsize := List.sizeOf_lt_of_mem hitem
    rw [Json.array.sizeOf_spec]
    omega
  · have hsize := List.sizeOf_lt_of_mem (mem_searchOrder.mp hmember)
    obtain ⟨key, value⟩ := member
    rw [Prod.mk.sizeOf_spec] at hsize
    rw [Json.object.sizeOf_spec]
    show sizeOf value < _
    omega

/-- Every string of a value is passed on the way through it. -/
theorem mem_strings_iff {v : Json} {t : Text} : t ∈ v.strings ↔ v.Holds t :=
  ⟨holds_of_mem_strings, Holds.mem_strings⟩

end Json

namespace ExportTable

open Json

theorem typesOfItems?_eq (items : List Json) : typesOfItems? items = items.findSome? typesOf? := by
  induction items with
  | nil => rfl
  | cons item items ih =>
    rw [typesOfItems?, ih, List.findSome?_cons]
    cases typesOf? item <;> rfl

theorem typesOfOthers?_eq (members : List (Text × Json)) :
    typesOfOthers? members =
      (members.filter (isOtherKey ·.1)).findSome? (typesOf? ·.2) := by
  induction members with
  | nil => rfl
  | cons member members ih =>
    obtain ⟨key, value⟩ := member
    rw [typesOfOthers?, ih]
    by_cases h : isOtherKey key = true
    · rw [if_neg (isOtherKey_iff.mp h), List.filter_cons, if_pos h, List.findSome?_cons]
      cases typesOf? value <;> rfl
    · rw [if_pos (not_not.mp fun hkey => h (isOtherKey_iff.mpr hkey)), List.filter_cons, if_neg h]

/-- A key that stands once is searched once. -/
theorem typesOfMember?_eq {members : List (Text × Json)} (h : (members.map Prod.fst).Nodup)
    (key : Text) : typesOfMember? key members =
      (members.filter (·.1 = key)).findSome? (typesOf? ·.2) := by
  induction members with
  | nil => rfl
  | cons member members ih =>
    obtain ⟨k, value⟩ := member
    obtain ⟨hnew, hrest⟩ := List.nodup_cons.mp h
    rw [typesOfMember?]
    split
    · next hkey =>
      subst hkey
      have hnone : members.filter (·.1 = k) = [] := by
        refine List.filter_eq_nil_iff.mpr fun member hmember hk => hnew ?_
        exact List.mem_map.mpr ⟨member, hmember, by simpa using hk⟩
      rw [List.filter_cons_of_pos (by simp), hnone]
      cases htypes : typesOf? value <;> simp [htypes]
    · next hkey => rw [List.filter_cons_of_neg (by simpa using hkey), ih hrest]

theorem typesOf?_object {members : List (Text × Json)} (h : (members.map Prod.fst).Nodup) :
    typesOf? (.object members) = (searchOrder members).findSome? (typesOf? ·.2) := by
  rw [typesOf?, typesOfMember?_eq h, typesOfMember?_eq h, typesOfOthers?_eq, searchOrder,
    List.findSome?_append, List.findSome?_append, Option.or_assoc]

private theorem findSome?_congr {α β : Type} {f g : α → Option β} {l : List α}
    (h : ∀ a ∈ l, f a = g a) : l.findSome? f = l.findSome? g := by
  induction l with
  | nil => rfl
  | cons a l ih =>
    rw [List.findSome?_cons, List.findSome?_cons, h a List.mem_cons_self,
      ih fun b hb => h b (List.mem_cons_of_mem _ hb)]

/-- Whether a string can name a declaration file. -/
def isDeclaration (t : Text) : Bool := declarationSuffix.isSuffixOf t

/-- The search finds the first string that can name a declaration file. -/
theorem typesOf?_eq_find? {v : Json} (h : v.HasDistinctKeys) :
    typesOf? v = v.strings.find? isDeclaration := by
  induction h with
  | null => rfl
  | bool => rfl
  | number => rfl
  | string t =>
    rw [typesOf?, strings, List.find?_singleton]
    rfl
  | @array items _ ih =>
    rw [strings_array, List.find?_flatMap, typesOf?, typesOfItems?_eq]
    exact findSome?_congr ih
  | @object members keys _ ih =>
    rw [strings_object, List.find?_flatMap, typesOf?_object keys]
    exact findSome?_congr fun member hmember => ih member (mem_searchOrder.mp hmember)

theorem isDeclaration_iff {t : Text} : isDeclaration t = true ↔ declarationSuffix <:+ t :=
  List.isSuffixOf_iff_suffix

/-- A value names a declaration file exactly if a string that ends like one stands in it, and then
it names the first one on the way through it. -/
theorem first_declaration_file_is_named (v : Json) (hkeys : v.HasDistinctKeys) :
    ((typesOf? v).isSome = true ↔ ∃ t, v.Holds t ∧ declarationSuffix <:+ t) ∧
      ∀ t, typesOf? v = some t ↔ ∃ before after, v.strings = before ++ t :: after ∧
        declarationSuffix <:+ t ∧ ∀ s ∈ before, ¬ declarationSuffix <:+ s := by
  rw [typesOf?_eq_find? hkeys]
  constructor
  · simp only [List.find?_isSome, mem_strings_iff, isDeclaration_iff]
  · intro t
    rw [List.find?_eq_some_iff_append]
    simp only [Bool.not_eq_true', ← Bool.not_eq_true, isDeclaration_iff]
    constructor
    · rintro ⟨ht, before, after, hsplit, hbefore⟩
      exact ⟨before, after, hsplit, ht, hbefore⟩
    · rintro ⟨before, after, hsplit, ht, hbefore⟩
      exact ⟨ht, before, after, hsplit, hbefore⟩

/-- A value whose first member for types names nothing that ends like a declaration file. -/
def nestedExports : Json :=
  .object [("default".toList, .string "./x.d.ts".toList),
    ("types".toList, .object [("import".toList, .string "./a.js".toList)]),
    ("typings".toList, .array [.null, .object [("node".toList, .string "./b.d.ts".toList),
      ("types".toList, .string "./c.d.ts".toList)]])]

theorem hasDistinctKeys_nestedExports : nestedExports.HasDistinctKeys := by
  refine .object (by decide) (List.forall_mem_cons.mpr ⟨.string _, List.forall_mem_cons.mpr
    ⟨.object (by decide) (List.forall_mem_singleton.mpr (.string _)), ?_⟩⟩)
  refine List.forall_mem_singleton.mpr (.array (List.forall_mem_cons.mpr ⟨.null, ?_⟩))
  exact List.forall_mem_singleton.mpr (.object (by decide)
    (List.forall_mem_cons.mpr ⟨.string _, List.forall_mem_singleton.mpr (.string _)⟩))

/-- The search goes on behind that member, and takes the members for types first there, too. -/
theorem nestedExports_name_file : nestedExports.HasDistinctKeys ∧
    typesOf? nestedExports = some "./c.d.ts".toList := by
  refine ⟨hasDistinctKeys_nestedExports, ?_⟩
  refine ((first_declaration_file_is_named nestedExports hasDistinctKeys_nestedExports).2 _).mpr ?_
  exact ⟨["./a.js".toList], ["./b.d.ts".toList, "./x.d.ts".toList], by decide, by decide,
    by decide⟩

end ExportTable

end TypeInliner

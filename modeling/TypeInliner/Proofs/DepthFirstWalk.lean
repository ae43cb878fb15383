import Mathlib.Data.List.Induction
import Mathlib.Logic.Relation
import TypeInliner.Proofs.Tables

/-! # Depth-first walks

A depth-first walk enters keys one after another, each at most once, and right behind a key what the
key leads to. The walk is a relation between what has been seen before and what is seen at the end,
in the order of entry; it does not say how the walk is carried out. What is seen at the end of a
walk from nothing is exactly what its keys reach. A walk that keeps the keys to come on a stack is
a depth-first walk. -/

namespace TypeInliner

variable {κ : Type} [BEq κ]

/-- With some keys seen already, walking from a list of keys ends with `found` seen. -/
inductive DepthFirst (next : κ → List κ) : List κ → List κ → List κ → Prop
  | done (seen : List κ) : DepthFirst next seen [] seen
  | skip {seen keys found : List κ} {key : κ} (known : seen.contains key = true)
      (rest : DepthFirst next seen keys found) : DepthFirst next seen (key :: keys) found
  | enter {seen keys inner found : List κ} {key : κ} (new : seen.contains key = false)
      (down : DepthFirst next (seen ++ [key]) (next key) inner)
      (rest : DepthFirst next inner keys found) : DepthFirst next seen (key :: keys) found

/-- Keys without repetitions and without one that they belong to. -/
def tidy (key : κ) (keys : List κ) : List κ := addNew [] (keys.filter fun k => !(k == key))

/-- A key is reached from another one, up to its spelling. -/
def Reaches (next : κ → List κ) (a b : κ) : Prop :=
  ∃ c, Relation.ReflTransGen (fun x y => y ∈ next x) a c ∧ b == c

namespace DepthFirst

variable {next : κ → List κ} {seen keys found : List κ}

/-- A walk ends in one way only. -/
theorem unique {other : List κ} (h : DepthFirst next seen keys found)
    (h' : DepthFirst next seen keys other) : found = other := by
  induction h generalizing other with
  | done seen => cases h'; rfl
  | skip known rest ih =>
    cases h' with
    | skip _ rest' => exact ih rest'
    | enter new _ _ => simp [known] at new
  | enter new down rest ihDown ihRest =>
    cases h' with
    | skip known _ => simp [known] at new
    | enter _ down' rest' =>
      obtain rfl := ihDown down'
      exact ihRest rest'

theorem seen_prefix (h : DepthFirst next seen keys found) : seen <+: found := by
  induction h with
  | done seen => exact List.prefix_rfl
  | skip known rest ih => exact ih
  | enter new down rest ihDown ihRest =>
    exact ((List.prefix_append _ _).trans ihDown).trans ihRest

theorem contains_mono (h : DepthFirst next seen keys found) {k : κ}
    (hk : seen.contains k = true) : found.contains k = true :=
  contains_of_subset h.seen_prefix.subset hk

/-- Two walks one after the other are one walk. -/
theorem append {more all : List κ} (h : DepthFirst next seen keys found)
    (h' : DepthFirst next found more all) : DepthFirst next seen (keys ++ more) all := by
  induction h with
  | done seen => exact h'
  | skip known rest ih => exact .skip known (ih h')
  | enter new down rest ihDown ihRest => exact .enter new down (ihRest h')

theorem split {more all : List κ} (h : DepthFirst next seen (keys ++ more) all) :
    ∃ middle, DepthFirst next seen keys middle ∧ DepthFirst next middle more all := by
  induction keys generalizing seen with
  | nil => exact ⟨seen, .done seen, h⟩
  | cons key keys ih =>
    cases h with
    | skip known rest =>
      obtain ⟨middle, first, second⟩ := ih rest
      exact ⟨middle, .skip known first, second⟩
    | enter new down rest =>
      obtain ⟨middle, first, second⟩ := ih rest
      exact ⟨middle, .enter new down first, second⟩

theorem skip_all (h : ∀ k ∈ keys, seen.contains k = true) : DepthFirst next seen keys seen := by
  induction keys with
  | nil => exact .done seen
  | cons key keys ih =>
    exact .skip (h key List.mem_cons_self) (ih fun k hk => h k (List.mem_cons_of_mem _ hk))

theorem distinct [EquivBEq κ] (h : DepthFirst next seen keys found) (hs : Distinct seen) :
    Distinct found := by
  induction h with
  | done seen => exact hs
  | skip known rest ih => exact ih hs
  | enter new down rest ihDown ihRest => exact ihRest (ihDown (hs.append_new new))

theorem contains_keys [EquivBEq κ] (h : DepthFirst next seen keys found) :
    ∀ k ∈ keys, found.contains k = true := by
  induction h with
  | done seen => simp
  | skip known rest ih =>
    intro k hk
    rcases List.mem_cons.mp hk with rfl | hk
    · exact rest.contains_mono known
    · exact ih k hk
  | enter new down rest ihDown ihRest =>
    intro k hk
    rcases List.mem_cons.mp hk with rfl | hk
    · exact rest.contains_mono (down.contains_mono (by simp))
    · exact ihRest k hk

/-- Whatever is found beyond what was seen is reached from a key of the walk. -/
theorem reached (h : DepthFirst next seen keys found) :
    ∀ k ∈ found, k ∈ seen ∨ ∃ key ∈ keys, Relation.ReflTransGen (fun x y => y ∈ next x) key k := by
  induction h with
  | done seen => exact fun k hk => Or.inl hk
  | skip known rest ih =>
    intro k hk
    rcases ih k hk with hs | ⟨key, hkey, hr⟩
    · exact Or.inl hs
    · exact Or.inr ⟨key, List.mem_cons_of_mem _ hkey, hr⟩
  | @enter seen keys inner found key new down rest ihDown ihRest =>
    intro k hk
    rcases ihRest k hk with hi | ⟨a, ha, hr⟩
    · rcases ihDown k hi with hs | ⟨b, hb, hr⟩
      · rcases List.mem_append.mp hs with hs | hs
        · exact Or.inl hs
        · obtain rfl := List.mem_singleton.mp hs
          exact Or.inr ⟨k, List.mem_cons_self, .refl⟩
      · exact Or.inr ⟨key, List.mem_cons_self, .head hb hr⟩
    · exact Or.inr ⟨a, List.mem_cons_of_mem _ ha, hr⟩

/-- What is found is closed: beyond what was seen, a key is found with all it leads to. -/
theorem closed [EquivBEq κ] (h : DepthFirst next seen keys found) :
    ∀ k ∈ found, k ∈ seen ∨ ∀ b ∈ next k, found.contains b = true := by
  induction h with
  | done seen => exact fun k hk => Or.inl hk
  | skip known rest ih => exact ih
  | @enter seen keys inner found key new down rest ihDown ihRest =>
    intro k hk
    rcases ihRest k hk with hi | hf
    · rcases ihDown k hi with hs | hb
      · rcases List.mem_append.mp hs with hs | hs
        · exact Or.inl hs
        · obtain rfl := List.mem_singleton.mp hs
          exact Or.inr fun b hb => rest.contains_mono (down.contains_keys b hb)
      · exact Or.inr fun b hm => rest.contains_mono (hb b hm)
    · exact Or.inr hf

end DepthFirst

/-- Keys among themselves: what they lead to belongs to them as well, and two spellings of one of
them lead to the same keys. -/
structure Enclosed (next : κ → List κ) (among : κ → Prop) : Prop where
  inside {a b : κ} : among a → b ∈ next a → among b
  same {a b : κ} : among a → among b → (a == b) = true → next a = next b

theorem Enclosed.reaches {next : κ → List κ} {among : κ → Prop} (he : Enclosed next among) {a b : κ}
    (ha : among a) (h : Relation.ReflTransGen (fun x y => y ∈ next x) a b) : among b := by
  induction h with
  | refl => exact ha
  | tail _ hstep ih => exact he.inside ih hstep

namespace DepthFirst

variable {next : κ → List κ} {among : κ → Prop} {seen keys found : List κ}

theorem among_found (he : Enclosed next among) (h : DepthFirst next [] keys found)
    (hkeys : ∀ k ∈ keys, among k) : ∀ k ∈ found, among k := by
  intro k hk
  rcases h.reached k hk with hs | ⟨key, hkey, hr⟩
  · simp at hs
  · exact he.reaches (hkeys key hkey) hr

/-- The result of a walk from nothing is closed, also for other spellings of its members. -/
theorem closed_found [EquivBEq κ] (he : Enclosed next among) (h : DepthFirst next [] keys found)
    (hkeys : ∀ k ∈ keys, among k) {k : κ} (hk : among k) (hf : found.contains k = true) :
    ∀ b ∈ next k, found.contains b = true := by
  obtain ⟨c, hc, hkc⟩ := List.contains_iff_exists_mem_beq.mp hf
  rw [he.same hk (h.among_found he hkeys c hc) hkc]
  rcases h.closed c hc with hs | hb
  · simp at hs
  · exact hb

/-- A walk from nothing finds exactly what its keys reach. -/
theorem contains_iff_reaches [EquivBEq κ] (he : Enclosed next among)
    (h : DepthFirst next [] keys found) (hkeys : ∀ k ∈ keys, among k) (k : κ) :
    found.contains k = true ↔ ∃ key ∈ keys, Reaches next key k := by
  constructor
  · intro hk
    obtain ⟨c, hc, hkc⟩ := List.contains_iff_exists_mem_beq.mp hk
    rcases h.reached c hc with hs | ⟨key, hkey, hr⟩
    · simp at hs
    · exact ⟨key, hkey, c, hr, hkc⟩
  · rintro ⟨key, hkey, c, hr, hkc⟩
    rw [List.contains_congr hkc]
    clear hkc
    induction hr with
    | refl => exact h.contains_keys key hkey
    | tail hr hstep ih =>
      exact h.closed_found he hkeys (he.reaches (hkeys key hkey) hr) ih _ hstep

/-- A walk whose keys keep to a closed list `old` adds to it what it finds beyond. -/
theorem beyond [EquivBEq κ] {old : List κ} (he : Enclosed next among)
    (closed : ∀ k, among k → old.contains k = true → ∀ b ∈ next k, old.contains b = true)
    (hkeys : ∀ k ∈ keys, among k) (h : DepthFirst next seen keys found) :
    DepthFirst next (addNew old seen) keys (addNew old found) := by
  induction h with
  | done seen => exact .done _
  | skip known rest ih =>
    refine .skip ?_ (ih fun k hk => hkeys k (List.mem_cons_of_mem _ hk))
    simp [contains_addNew, known]
  | @enter seen keys inner found key new down rest ihDown ihRest =>
    have hkey : among key := hkeys key List.mem_cons_self
    have hdown := ihDown fun b hb => he.inside hkey hb
    have hrest := ihRest fun k hk => hkeys k (List.mem_cons_of_mem _ hk)
    rw [addNew_append] at hdown
    by_cases hold : old.contains key = true
    · -- Everything below a key of `old` belongs to `old` and is passed over.
      have hseen : (addNew old seen).contains key = true := by simp [contains_addNew, hold]
      have hall : ∀ b ∈ next key, (addNew old seen).contains b = true := by
        intro b hb
        simp [contains_addNew, closed key hkey hold b hb]
      rw [addNew_cons_of_contains hseen, addNew_nil] at hdown
      rw [hdown.unique (skip_all hall)] at hrest
      exact .skip hseen hrest
    · have hseen : (addNew old seen).contains key = false := by
        simpa [contains_addNew, new] using hold
      rw [addNew_cons_of_not_contains hseen, addNew_nil] at hdown
      exact .enter hseen hdown hrest

theorem tidy_append_singleton (key : κ) (keys : List κ) (k : κ) :
    tidy key (keys ++ [k]) = if k == key then tidy key keys else addNew (tidy key keys) [k] := by
  by_cases h : k == key <;> simp [tidy, h, addNew_append]

theorem mem_of_mem_tidy {key k : κ} {keys : List κ} (h : k ∈ tidy key keys) : k ∈ keys := by
  rcases mem_addNew h with h | h
  · simp at h
  · exact (List.mem_filter.mp h).1

/-- Behind a key, repetitions and the key itself make no difference to a walk. -/
theorem of_tidy [EquivBEq κ] {key : κ} (hkey : seen.contains key = true)
    (h : DepthFirst next seen (tidy key keys) found) : DepthFirst next seen keys found := by
  induction keys using List.reverseRecOn generalizing found with
  | nil => exact h
  | append_singleton keys k ih =>
    rw [tidy_append_singleton] at h
    by_cases hk : k == key
    · rw [if_pos hk] at h
      refine (ih h).append (.skip (h.contains_mono ?_) (.done _))
      rw [List.contains_congr hk, hkey]
    · rw [if_neg hk] at h
      cases hc : (tidy key keys).contains k with
      | true =>
        rw [addNew_cons_of_contains hc, addNew_nil] at h
        obtain ⟨c, hmem, hkc⟩ := List.contains_iff_exists_mem_beq.mp hc
        refine (ih h).append (.skip ?_ (.done _))
        rw [List.contains_congr hkc]
        exact h.contains_keys c hmem
      | false =>
        rw [addNew_cons_of_not_contains hc, addNew_nil] at h
        obtain ⟨middle, first, last⟩ := h.split
        exact (ih first).append last

/-- A walk along tidied edges is a walk along the edges. -/
theorem of_tidied [EquivBEq κ] {edges : κ → List κ}
    (inside : ∀ k, among k → ∀ b ∈ next k, among b)
    (tidied : ∀ k, among k → edges k = tidy k (next k)) (hkeys : ∀ k ∈ keys, among k)
    (h : DepthFirst edges seen keys found) : DepthFirst next seen keys found := by
  induction h with
  | done seen => exact .done seen
  | skip known rest ih => exact .skip known (ih fun k hk => hkeys k (List.mem_cons_of_mem _ hk))
  | @enter seen keys inner found key new down rest ihDown ihRest =>
    have hkey : among key := hkeys key List.mem_cons_self
    rw [tidied key hkey] at ihDown
    have hdown := ihDown fun b hb => inside key hkey b (mem_of_mem_tidy hb)
    exact .enter new (of_tidy (by simp) hdown)
      (ihRest fun k hk => hkeys k (List.mem_cons_of_mem _ hk))

end DepthFirst

/-! ## Walks with a stack -/

/-- A walk with a stack, from the keys seen and the stack at the beginning to the keys seen at the
end: a key on top that has been seen is dropped, and in the place of any other one come the keys it
leads to, as far as they have not been seen. -/
inductive StackWalk (next : κ → List κ) : List κ → List κ → List κ → Prop
  | done (seen : List κ) : StackWalk next seen [] seen
  | drop {seen stack found : List κ} {key : κ} (known : seen.contains key = true)
      (rest : StackWalk next seen stack found) : StackWalk next seen (key :: stack) found
  | push {seen stack found : List κ} {key : κ} (new : seen.contains key = false)
      (rest : StackWalk next (seen ++ [key])
        ((next key).filter (!(seen ++ [key]).contains ·) ++ stack) found) :
      StackWalk next seen (key :: stack) found

/-- Keys that are seen already may be left out of a walk. -/
theorem DepthFirst.of_filter {next : κ → List κ} {old seen keys found : List κ}
    (hold : ∀ k, old.contains k = true → seen.contains k = true)
    (h : DepthFirst next seen (keys.filter (!old.contains ·)) found) :
    DepthFirst next seen keys found := by
  induction keys generalizing seen with
  | nil => exact h
  | cons key keys ih =>
    by_cases hk : old.contains key = true
    · rw [List.filter_cons_of_neg (by simp [hk])] at h
      exact .skip (hold key hk) (ih hold h)
    · rw [List.filter_cons_of_pos (by simp [hk])] at h
      cases h with
      | skip known rest => exact .skip known (ih hold rest)
      | enter new down rest =>
        refine .enter new down (ih (fun k hk => down.contains_mono ?_) rest)
        rw [List.contains_append, hold k hk, Bool.true_or]

/-- The stack keeps the keys in the order of a depth-first walk. -/
theorem StackWalk.depthFirst {next : κ → List κ} {seen stack found : List κ}
    (h : StackWalk next seen stack found) : DepthFirst next seen stack found := by
  induction h with
  | done seen => exact .done seen
  | drop known _ ih => exact .skip known ih
  | push new _ ih =>
    obtain ⟨middle, down, rest⟩ := ih.split
    exact .enter new (down.of_filter fun _ => id) rest

end TypeInliner

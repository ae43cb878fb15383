import Mathlib.Data.List.DropRight
import TypeInliner.Proofs.ContextWalk

/-! # What a context has recorded

A context is what a history of changes has made of an empty one. The keys that a key leads to are
those recorded for it since the last time the context was cleared, each at its first occurrence; no
other change touches them. The closure of a key is the depth-first walk along what is recorded. -/

namespace TypeInliner.Context

/-- A change of a context. -/
inductive Change
  | insert (key : Key) (text : Text)
  | addEdge (source target : Key)
  | addForwarder (source target : Key)
  | loadDependencies (d : Disk) (root : Path)
  | clear

namespace Change

def apply : Change → Context → Context
  | insert key text, ctx => ctx.insert key text
  | addEdge source target, ctx => ctx.addEdge source target
  | addForwarder source target, ctx => ctx.addForwarder source target
  | loadDependencies d root, ctx => ctx.loadDependencies d root
  | clear, _ => empty

def clears : Change → Bool
  | clear => true
  | _ => false

/-- The key that a change records for a key. -/
def target? (key : Key) : Change → Option Key
  | addEdge source target | addForwarder source target =>
    if source == key then some target else none
  | _ => none

end Change

/-- The context that a history leaves behind. -/
def after (changes : List Change) : Context :=
  changes.foldl (fun ctx change => change.apply ctx) empty

/-- The keys recorded for a key since the last change that clears, each once, in the order in which
they were recorded first. -/
def recorded (changes : List Change) (key : Key) : List Key :=
  ((changes.rtakeWhile (!·.clears)).filterMap (·.target? key)).eraseDups

theorem after_append_singleton (changes : List Change) (change : Change) :
    after (changes ++ [change]) = change.apply (after changes) := by
  simp [after]

/-- A change that does not clear adds to the keys of a key what it records for it. -/
theorem dependencies_apply (ctx : Context) {change : Change} (h : change.clears = false)
    (key : Key) : (change.apply ctx).dependencies key =
      addNew (ctx.dependencies key) (change.target? key).toList := by
  have hedge (source target : Key) :
      (if source == key then addNew (ctx.dependencies source) [target]
        else ctx.dependencies key) =
      addNew (ctx.dependencies key) (if source == key then some target else none).toList := by
    by_cases hkey : source == key
    · simp [hkey, ctx.dependencies_congr hkey]
    · simp [hkey]
  cases change with
  | insert k text => exact ctx.dependencies_insert k key text
  | addEdge source target => exact (ctx.dependencies_addEdge source target key).trans (hedge _ _)
  | addForwarder source target =>
    exact (ctx.dependencies_addForwarder source target key).trans (hedge _ _)
  | loadDependencies d root => exact ctx.dependencies_loadDependencies d root key
  | clear => simp [Change.clears] at h

/-- A key leads to what has been recorded for it. -/
theorem dependencies_after (changes : List Change) (key : Key) :
    (after changes).dependencies key = recorded changes key := by
  have hall : (after changes).dependencies key =
      addNew [] ((changes.rtakeWhile (!·.clears)).filterMap (·.target? key)) := by
    induction changes using List.reverseRecOn with
    | nil => rfl
    | append_singleton changes change ih =>
      rw [after_append_singleton]
      cases hclears : change.clears with
      | true =>
        obtain rfl : change = .clear := by cases change <;> simp_all [Change.clears]
        rw [List.rtakeWhile_concat_neg _ _ _ (by simp [hclears])]
        rfl
      | false =>
        rw [List.rtakeWhile_concat_pos _ _ _ (by simp [hclears]), List.filterMap_append,
          addNew_append, ← ih, dependencies_apply _ hclears]
        cases htarget : change.target? key <;> simp [htarget]
  rw [hall, recorded, addNew_eq_append_eraseDups]
  simp

theorem enclosed_recorded (changes : List Change) : Enclosed (recorded changes) fun _ => True where
  inside _ _ := trivial
  same {a b} _ _ h := by
    rw [← dependencies_after, ← dependencies_after]
    exact (after changes).dependencies_congr h

/-- A walk from one key enters it first. -/
theorem head?_of_depthFirst {next : Key → List Key} {key : Key} {found : List Key}
    (h : DepthFirst next [] [key] found) : found.head? = some key := by
  cases h with
  | skip known _ => simp at known
  | enter _ down rest =>
    obtain ⟨behind, rfl⟩ := down.seen_prefix.trans rest.seen_prefix
    rfl

/-- After any history a key leads to what has been recorded for it, and the walk behind the closure
of a key ends with an empty stack. The closure is what the depth-first walk along what is recorded
enters: the key first, then exactly what it reaches, no key twice. -/
theorem closure_walks_recorded (changes : List Change) (key : Key) :
    (∀ k, (after changes).dependencies k = recorded changes k) ∧
    StackWalk (after changes).dependencies [] [key] ((after changes).closure key) ∧
    (∀ found, DepthFirst (recorded changes) [] [key] found ↔
      found = (after changes).closure key) ∧
    ((after changes).closure key).head? = some key ∧
    (∀ k, ((after changes).closure key).contains k = true ↔ Reaches (recorded changes) key k) ∧
    Distinct ((after changes).closure key) := by
  have hwalk : DepthFirst (recorded changes) [] [key] ((after changes).closure key) := by
    rw [← funext (dependencies_after changes)]
    exact (after changes).closure_depthFirst key
  refine ⟨dependencies_after changes, (after changes).closure_stackWalk key, fun found => ?_,
    head?_of_depthFirst hwalk, fun k => ?_, hwalk.distinct List.Pairwise.nil⟩
  · constructor
    · exact fun h => h.unique hwalk
    · rintro rfl
      exact hwalk
  · rw [hwalk.contains_iff_reaches (enclosed_recorded changes) (fun _ _ => trivial)]
    simp

example :
    let key (file symbol : String) : Key := ⟨.ofString file, symbol.toList⟩
    let changes : List Change := [.addEdge (key "/p/a" "A") (key "/p/d" "D"), .clear,
      .addEdge (key "/p/a" "A") (key "/p/b" "B"), .addEdge (key "/p//a" "A") (key "/p/c" "C"),
      .addForwarder (key "/p/b" "B") (key "/p/c" "C"), .addEdge (key "/p/c" "C") (key "/p/a/" "A"),
      .addEdge (key "/p/a" "A") (key "/p//b" "B")]
    ((after changes).closure (key "/p/a" "A")).map Key.symbol = ["A".toList, "B".toList, "C".toList]
      := by decide +kernel

end TypeInliner.Context

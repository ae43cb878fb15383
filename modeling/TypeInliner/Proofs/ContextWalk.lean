import TypeInliner.Proofs.DepthFirstWalk
import TypeInliner.Proofs.PathIdentity

/-! # What a context answers

Every change of a context is described by what it does to the texts, the recorded edges and the set
of resolved keys. `Context.closure`, which works with a stack, carries out the depth-first walk
along the recorded edges. -/

namespace TypeInliner.Context

variable (ctx : Context)

theorem text?_congr {a b : Key} (h : (a == b) = true) : ctx.text? a = ctx.text? b := by
  obtain ⟨hs, hf⟩ := Key.beq_iff.mp h
  simp only [text?, hs, Table.find?_congr hf]

theorem contains_congr {a b : Key} (h : (a == b) = true) : ctx.contains a = ctx.contains b := by
  simp only [contains, ctx.text?_congr h]

theorem isResolved_congr {a b : Key} (h : (a == b) = true) :
    ctx.isResolved a = ctx.isResolved b := by
  simp only [isResolved, ctx.contains_congr h, List.contains_congr h]

theorem dependencies_congr {a b : Key} (h : (a == b) = true) :
    ctx.dependencies a = ctx.dependencies b := by
  simp only [dependencies, Table.find?_congr h]

theorem contains_iff {key : Key} : ctx.contains key = true ↔ ∃ text, ctx.text? key = some text :=
  Option.isSome_iff_exists

theorem isResolved_iff {key : Key} :
    ctx.isResolved key = true ↔ ctx.contains key = true ∨ ctx.forwarders.contains key = true := by
  simp [isResolved]

@[simp] theorem text?_empty (key : Key) : empty.text? key = none := rfl

@[simp] theorem isResolved_empty (key : Key) : empty.isResolved key = false := rfl

/-! ## Storing a declaration -/

theorem text?_insert (key k : Key) (text : Text) :
    (ctx.insert key text).text? k =
      if ctx.contains key then ctx.text? k
      else if key == k then some text else ctx.text? k := by
  unfold insert
  split
  · rfl
  simp only [text?, Table.find?_insert]
  by_cases hf : key.file == k.file
  · simp only [hf, ↓reduceIte, Option.bind_some, Table.find?_insert]
    by_cases hs : key.symbol = k.symbol
    · simp [hs, Key.beq_iff.mpr ⟨hs, hf⟩]
    · have hk : ¬(key == k) = true := fun h => hs (Key.beq_iff.mp h).1
      simp only [beq_iff_eq, hs, hk, ↓reduceIte, Bool.false_eq_true]
      rw [← Table.find?_congr hf]
      cases Table.find? key.file ctx.declarations <;> rfl
  · have hk : ¬(key == k) = true := fun h => hf (Key.beq_iff.mp h).2
    simp [hf, hk]

@[simp] theorem dependencies_insert (key k : Key) (text : Text) :
    (ctx.insert key text).dependencies k = ctx.dependencies k := by
  unfold insert
  split <;> rfl

@[simp] theorem forwarders_insert (key : Key) (text : Text) :
    (ctx.insert key text).forwarders = ctx.forwarders := by
  unfold insert
  split <;> rfl

@[simp] theorem rootDependencies_insert (key : Key) (text : Text) :
    (ctx.insert key text).rootDependencies = ctx.rootDependencies := by
  unfold insert
  split <;> rfl

theorem contains_insert (key k : Key) (text : Text) :
    (ctx.insert key text).contains k = (ctx.contains k || key == k) := by
  simp only [contains, text?_insert]
  by_cases hkey : (ctx.text? key).isSome = true
  · by_cases hk : key == k
    · simp [hkey, ← ctx.text?_congr hk]
    · simp [hkey, hk]
  · by_cases hk : key == k <;> simp [hkey, hk]

theorem isResolved_insert (key k : Key) (text : Text) :
    (ctx.insert key text).isResolved k = (ctx.isResolved k || key == k) := by
  simp only [isResolved, contains_insert, forwarders_insert, Bool.or_right_comm]

/-! ## Recording edges and forwarders -/

@[simp] theorem text?_addEdge (source target key : Key) :
    (ctx.addEdge source target).text? key = ctx.text? key := rfl

@[simp] theorem isResolved_addEdge (source target key : Key) :
    (ctx.addEdge source target).isResolved key = ctx.isResolved key := rfl

@[simp] theorem forwarders_addEdge (source target : Key) :
    (ctx.addEdge source target).forwarders = ctx.forwarders := rfl

@[simp] theorem rootDependencies_addEdge (source target : Key) :
    (ctx.addEdge source target).rootDependencies = ctx.rootDependencies := rfl

theorem dependencies_addEdge (source target key : Key) :
    (ctx.addEdge source target).dependencies key =
      if source == key then addNew (ctx.dependencies source) [target]
      else ctx.dependencies key := by
  simp only [addEdge, dependencies, Table.find?_insert]
  split <;> rfl

@[simp] theorem text?_addForwarder (source target key : Key) :
    (ctx.addForwarder source target).text? key = ctx.text? key := rfl

@[simp] theorem rootDependencies_addForwarder (source target : Key) :
    (ctx.addForwarder source target).rootDependencies = ctx.rootDependencies := rfl

theorem forwarders_addForwarder (source target key : Key) :
    (ctx.addForwarder source target).forwarders.contains key =
      (ctx.forwarders.contains key || key == source) := by
  show (addNew ctx.forwarders [source]).contains key = _
  simp [contains_addNew]

theorem isResolved_addForwarder (source target key : Key) :
    (ctx.addForwarder source target).isResolved key = (ctx.isResolved key || key == source) := by
  simp only [isResolved, forwarders_addForwarder, Bool.or_assoc]
  rfl

theorem dependencies_addForwarder (source target key : Key) :
    (ctx.addForwarder source target).dependencies key =
      if source == key then addNew (ctx.dependencies source) [target]
      else ctx.dependencies key :=
  dependencies_addEdge { ctx with forwarders := addNew ctx.forwarders [source] } source target key

/-! ## Reading the dependencies of the project -/

@[simp] theorem text?_loadDependencies (d : Disk) (root : Path) (key : Key) :
    (ctx.loadDependencies d root).text? key = ctx.text? key := by
  unfold loadDependencies
  split <;> rfl

@[simp] theorem dependencies_loadDependencies (d : Disk) (root : Path) (key : Key) :
    (ctx.loadDependencies d root).dependencies key = ctx.dependencies key := by
  unfold loadDependencies
  split <;> rfl

@[simp] theorem forwarders_loadDependencies (d : Disk) (root : Path) :
    (ctx.loadDependencies d root).forwarders = ctx.forwarders := by
  unfold loadDependencies
  split <;> rfl

@[simp] theorem isResolved_loadDependencies (d : Disk) (root : Path) (key : Key) :
    (ctx.loadDependencies d root).isResolved key = ctx.isResolved key := by
  unfold loadDependencies
  split <;> rfl

/-! ## The walk along recorded edges -/

/-- Number of edges that leave keys not seen yet. -/
private def edgesLeft (edges : Table Key (List Key)) (seen : List Key) : Nat :=
  (edges.flatMap fun entry => if seen.contains entry.1 then [] else entry.2).length

private theorem edgesLeft_cons (key : Key) (targets : List Key) (rest : Table Key (List Key))
    (seen : List Key) : edgesLeft ((key, targets) :: rest) seen =
      (if seen.contains key then 0 else targets.length) + edgesLeft rest seen := by
  rw [edgesLeft, List.flatMap_cons, List.length_append, apply_ite List.length]
  rfl

private theorem edgesLeft_append_le (edges : Table Key (List Key)) (seen : List Key) (key : Key) :
    edgesLeft edges (seen ++ [key]) ≤ edgesLeft edges seen := by
  induction edges with
  | nil => simp [edgesLeft]
  | cons entry rest ih =>
    rw [edgesLeft_cons, edgesLeft_cons]
    by_cases h : seen.contains entry.1 = true
    · have hs : (seen ++ [key]).contains entry.1 = true := by simp [h]
      rw [if_pos h, if_pos hs]
      omega
    · rw [if_neg h]
      split <;> omega

/-- Entering a key uses up the edges that leave it. -/
private theorem edgesLeft_enter (edges : Table Key (List Key)) {seen : List Key} {key : Key}
    (new : seen.contains key = false) :
    edgesLeft edges (seen ++ [key]) + ((edges.find? key).getD []).length ≤
      edgesLeft edges seen := by
  induction edges with
  | nil => simp [edgesLeft, Table.find?]
  | cons entry rest ih =>
    obtain ⟨k, targets⟩ := entry
    have hmono := edgesLeft_append_le rest seen key
    rw [edgesLeft_cons, edgesLeft_cons, Table.find?]
    by_cases hk : k == key
    · have hnew : seen.contains k = false := by rw [List.contains_congr hk, new]
      have hseen : (seen ++ [key]).contains k = true := by simp [hk]
      simp only [hk, hnew, hseen, ↓reduceIte, Bool.false_eq_true, Option.getD_some]
      omega
    · have hsame : (seen ++ [key]).contains k = seen.contains k := by simp [hk]
      simp only [hk, hsame, ↓reduceIte, Bool.false_eq_true]
      omega

private theorem visit_stackWalk (steps : Nat) (stack seen : List Key)
    (h : stack.length + edgesLeft ctx.edges seen ≤ steps) :
    StackWalk ctx.dependencies seen stack (ctx.visit steps stack seen) := by
  induction steps generalizing stack seen with
  | zero =>
    obtain rfl : stack = [] := List.eq_nil_of_length_eq_zero (by omega)
    exact .done seen
  | succ steps ih =>
    cases stack with
    | nil => exact .done seen
    | cons key stack =>
      rw [visit]
      simp only [List.length_cons] at h
      by_cases hk : seen.contains key = true
      · rw [if_pos hk]
        exact .drop hk (ih stack seen (by omega))
      · have new : seen.contains key = false := by simpa using hk
        have hleft := edgesLeft_enter ctx.edges new
        have hpush := List.length_filter_le (!(seen ++ [key]).contains ·) (ctx.dependencies key)
        rw [if_neg hk]
        refine .push new (ih _ (seen ++ [key]) ?_)
        simp only [List.length_append]
        simp only [dependencies] at hpush ⊢
        omega

/-- The walk behind the closure of a key does not meet its bound: it ends with an empty stack. -/
theorem closure_stackWalk (key : Key) :
    StackWalk ctx.dependencies [] [key] (ctx.closure key) := by
  refine ctx.visit_stackWalk _ _ _ ?_
  have : edgesLeft ctx.edges [] = ctx.edgeCount := by simp [edgesLeft, edgeCount]
  simp only [List.length_singleton, this]
  omega

/-- The closure of a key lists what a depth-first walk along the recorded edges enters. -/
theorem closure_depthFirst (key : Key) :
    DepthFirst ctx.dependencies [] [key] (ctx.closure key) :=
  (ctx.closure_stackWalk key).depthFirst

end TypeInliner.Context

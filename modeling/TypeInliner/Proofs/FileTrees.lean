import Mathlib.Data.List.Nodup
import TypeInliner.Disk.Change
import TypeInliner.Proofs.PathIdentity
import TypeInliner.Proofs.Tables

/-! # Trees of files

A disk is a table, which could hold a file inside of a file. `Disk.IsTree` says that it does not:
what stands somewhere stands in a folder, under a name that can be written in a path. The disk that
a run starts from is a tree, and every change of a tree leaves one. -/

namespace TypeInliner

open TypeInliner.Path

def Node.isLink : Node → Bool
  | .link _ => true
  | _ => false

/-- Whether something can stand in a folder: the target of a link must be a possible path. -/
def Node.isPossible : Node → Bool
  | .link target => !target.contains 0
  | _ => true

namespace Disk

variable {d d' : Disk} {follow : Bool} {place : Place} {node : Node} {p : Path}

/-- A name that can stand in a folder. -/
def IsEntryName (name : Bytes) : Prop :=
  IsName name ∧ name.length ≤ nameLimit ∧ 0 ∉ name

instance (name : Bytes) : Decidable (IsEntryName name) := inferInstanceAs (Decidable (_ ∧ _ ∧ _))

theorem IsEntryName.isPlain {name : Bytes} (h : IsEntryName name) : IsPlain name where
  notVoid := isVoid_of_isName h.1
  notParent := h.1.2.2.1
  fits := h.2.1

/-- A disk on which each place is listed once and every place is one in a folder. -/
structure IsTree (d : Disk) : Prop where
  once : (d.nodes.map Prod.fst).Nodup
  inFolder : ∀ entry ∈ d.nodes, d.isFolderAt entry.1.dropLast = true
  named : ∀ entry ∈ d.nodes, entry.1 ≠ [] ∧ ∀ name ∈ entry.1, IsEntryName name
  possible : ∀ entry ∈ d.nodes, entry.2.isPossible = true
  home : d.isFolderAt d.home = true

instance (d : Disk) : Decidable d.IsTree :=
  decidable_of_iff
    ((d.nodes.map Prod.fst).Nodup ∧
      (∀ entry ∈ d.nodes, d.isFolderAt entry.1.dropLast = true ∧
        (entry.1 ≠ [] ∧ ∀ name ∈ entry.1, IsEntryName name) ∧ entry.2.isPossible = true) ∧
      d.isFolderAt d.home = true)
    ⟨fun ⟨once, entries, home⟩ =>
      ⟨once, fun e he => (entries e he).1, fun e he => (entries e he).2.1,
        fun e he => (entries e he).2.2, home⟩,
    fun h => ⟨h.once, fun e he => ⟨h.inFolder e he, h.named e he, h.possible e he⟩, h.home⟩⟩

/-- No symbolic link stands anywhere. -/
def HasNoLinks (d : Disk) : Prop := ∀ entry ∈ d.nodes, entry.2.isLink = false

instance (d : Disk) : Decidable d.HasNoLinks := inferInstanceAs (Decidable (∀ _ ∈ _, _))

theorem HasNoLinks.node? {target : Bytes} (h : d.HasNoLinks) :
    d.node? place ≠ some (.link target) := by
  unfold Disk.node?
  split
  · simp
  · intro hnode
    obtain ⟨k, -, hentry⟩ := Table.mem_of_find? hnode
    exact absurd (h _ hentry) (by simp [Node.isLink])

theorem node?_set (hne : place ≠ []) (node : Node) (other : Place) :
    (d.set place node).node? other = if place = other then some node else d.node? other := by
  unfold node? set
  by_cases hother : other = []
  · rw [if_pos hother, if_pos hother, if_neg fun h => hne (h.trans hother)]
  · simp only [if_neg hother, Table.find?_insert, beq_iff_eq]

theorem isFolderAt_iff : d.isFolderAt place = true ↔ d.node? place = some .folder := by
  simp [isFolderAt]

theorem isFolderAt_set {place other : Place} (hfree : d.isFolderAt place = false) (node : Node)
    (h : d.isFolderAt other = true) : (d.set place node).isFolderAt other = true := by
  have hne : place ≠ [] := by
    rintro rfl
    simp [isFolderAt, node?] at hfree
  have hother : place ≠ other := by
    rintro rfl
    rw [h] at hfree
    cases hfree
  rw [isFolderAt_iff, node?_set hne, if_neg hother]
  exact isFolderAt_iff.mp h

namespace IsTree

theorem node?_eq_some_iff (h : d.IsTree) (hne : place ≠ []) :
    d.node? place = some node ↔ (place, node) ∈ d.nodes := by
  rw [node?, if_neg hne, Table.find?_eq_some_iff_mem h.once]

theorem names (h : d.IsTree) (hnode : d.node? place = some node) :
    ∀ name ∈ place, IsEntryName name := by
  by_cases hne : place = []
  · simp [hne]
  · exact (h.named _ ((h.node?_eq_some_iff hne).mp hnode)).2

/-- What stands somewhere stands in a folder; the root is a folder itself. -/
theorem isFolderAt_dropLast (h : d.IsTree) (hnode : d.node? place = some node) :
    d.isFolderAt place.dropLast = true := by
  by_cases hne : place = []
  · subst hne
    rfl
  · exact h.inFolder _ ((h.node?_eq_some_iff hne).mp hnode)

theorem isPossible (h : d.IsTree) (hnode : d.node? place = some node) :
    node.isPossible = true := by
  by_cases hne : place = []
  · subst hne
    cases hnode
    rfl
  · exact h.possible _ ((h.node?_eq_some_iff hne).mp hnode)

/-! ## What a path finds -/

/-- A walk that starts where something stands finds only what is there. -/
theorem stands {links : Nat} {start found : Place} {segments : List Bytes} (h : d.IsTree)
    (hwalks : Walks d follow links start segments (.found found))
    (hstart : ∃ node, d.node? start = some node) : ∃ node, d.node? found = some node := by
  generalize ha : Arrival.found found = a at hwalks
  induction hwalks with
  | done => cases ha; exact hstart
  | vacant => cases ha
  | atLink _ _ link => cases ha; exact ⟨_, link⟩
  | void _ _ _ ih => exact ih hstart ha
  | up folder _ ih =>
    exact ih ⟨_, isFolderAt_iff.mp (h.isFolderAt_dropLast (isFolderAt_iff.mp folder))⟩ ha
  | through _ _ _ _ _ ih =>
    refine ih ?_ ha
    split
    · exact ⟨.folder, rfl⟩
    · exact hstart
  | down _ _ stands _ _ ih => exact ih ⟨_, stands⟩ ha

theorem isFolderAt_startOf (h : d.IsTree) (p : Path) : d.isFolderAt (d.startOf p) = true := by
  unfold startOf
  split
  · rfl
  · exact h.home

/-- The segments of a possible path, and of the target of a link, hold no separator and no character
that no path can hold. -/
theorem segment_clean {t segment : Bytes} (hnul : 0 ∉ t)
    (hs : segment ∈ Text.splitAt slash t) : slash ∉ segment ∧ 0 ∉ segment :=
  ⟨Text.not_mem_of_mem_splitAt hs, fun h => hnul (Text.mem_of_mem_splitAt hs h)⟩

/-- Where nothing stands yet, something can be put into the folder. -/
theorem vacant_of_arrive (h : d.IsTree) (harrive : d.arrive follow p = .ok (.vacant place)) :
    ∃ folder name, place = folder ++ [name] ∧ d.isFolderAt folder = true ∧ IsEntryName name ∧
      d.node? place = none := by
  obtain ⟨haccess, hwalks⟩ := arrive_eq_ok_iff.mp harrive
  obtain ⟨folder, name, hplace, hfolder, hplain, ⟨hslash, hnul⟩, hnone⟩ :=
    hwalks.vacant_cases (fun s hs => segment_clean haccess.noNul hs) fun other target hlink s hs =>
      segment_clean (by simpa [Node.isPossible] using h.isPossible hlink) hs
  exact ⟨folder, name, hplace, hfolder, ⟨hplain.isName hslash, hplain.fits, hnul⟩, hnone⟩

theorem stands_of_arrive (h : d.IsTree) (harrive : d.arrive follow p = .ok (.found place)) :
    ∃ node, d.node? place = some node :=
  h.stands (arrive_eq_ok_iff.mp harrive).2 ⟨_, isFolderAt_iff.mp (h.isFolderAt_startOf p)⟩

/-! ## Changes -/

/-- Putting something where no folder stands, into a folder, leaves a tree. -/
theorem set {folder : Place} {name : Bytes} (h : d.IsTree) (hfolder : d.isFolderAt folder = true)
    (hname : IsEntryName name) (hfree : d.isFolderAt (folder ++ [name]) = false)
    (hpossible : node.isPossible = true) : (d.set (folder ++ [name]) node).IsTree where
  once := Table.nodup_insert h.once _ _
  inFolder entry hentry := by
    refine isFolderAt_set hfree node ?_
    rcases Table.mem_insert hentry with hentry | rfl
    · exact h.inFolder entry hentry
    · rwa [List.dropLast_concat]
  named entry hentry := by
    rcases Table.mem_insert hentry with hentry | rfl
    · exact h.named entry hentry
    · exact ⟨by simp, List.forall_mem_append.mpr
        ⟨h.names (isFolderAt_iff.mp hfolder), List.forall_mem_singleton.mpr hname⟩⟩
  possible entry hentry := by
    rcases Table.mem_insert hentry with hentry | rfl
    · exact h.possible entry hentry
    · exact hpossible
  home := isFolderAt_set hfree node h.home

/-- Replacing something that is no folder leaves a tree. -/
theorem replace {old : Node} (h : d.IsTree) (hold : d.node? place = some old)
    (hfree : d.isFolderAt place = false) (hpossible : node.isPossible = true) :
    (d.set place node).IsTree := by
  rcases List.eq_nil_or_concat' place with rfl | ⟨folder, name, rfl⟩
  · cases hfree
  · have hfolder := h.isFolderAt_dropLast hold
    rw [List.dropLast_concat] at hfolder
    exact h.set hfolder (h.names hold name (by simp)) hfree hpossible

theorem set_vacant (h : d.IsTree) (harrive : d.arrive follow p = .ok (.vacant place))
    (hpossible : node.isPossible = true) : (d.set place node).IsTree := by
  obtain ⟨folder, name, rfl, hfolder, hname, hnone⟩ := h.vacant_of_arrive harrive
  exact h.set hfolder hname (by simp [isFolderAt, hnone]) hpossible

theorem write {content : Option Text} (h : d.IsTree) (hw : d.write p content = .ok d') :
    d'.IsTree := by
  unfold Disk.write at hw
  split at hw
  · split at hw <;> cases hw
  split at hw
  · next harrive =>
    cases hw
    exact h.set_vacant harrive rfl
  · next harrive =>
    split at hw
    · cases hw
    next hfree =>
    cases hw
    obtain ⟨old, hold⟩ := h.stands_of_arrive harrive
    exact h.replace hold (by simpa using hfree) rfl
  · cases hw

theorem addLink {target : Bytes} (h : d.IsTree) (ha : d.addLink p target = .ok d') :
    d'.IsTree := by
  unfold Disk.addLink at ha
  split at ha
  · cases ha
  next hnul =>
  split at ha
  · cases ha
  split at ha
  · cases ha
  split at ha
  · next harrive =>
    cases ha
    exact h.set_vacant harrive (by simpa [Node.isPossible] using hnul)
  · cases ha
  · cases ha

theorem remove (h : d.IsTree) (hr : d.remove p = .ok d') : d'.IsTree := by
  unfold Disk.remove at hr
  split at hr
  · cases hr
  split at hr
  · next place harrive =>
    split at hr
    · cases hr
    next hfree =>
    cases hr
    have hsub := Table.erase_sublist place d.nodes
    -- A folder that was there is still there, since it is no folder that is removed.
    have hkeeps (other : Place) (hother : d.isFolderAt other = true) :
        isFolderAt { d with nodes := d.nodes.erase place } other = true := by
      have hne : other ≠ place := by
        rintro rfl
        exact hfree hother
      rw [isFolderAt_iff, node?] at hother ⊢
      rwa [Table.find?_erase_of_ne hne]
    exact
      { once := h.once.sublist (hsub.map _)
        inFolder := fun entry hentry => hkeeps _ (h.inFolder entry (hsub.subset hentry))
        named := fun entry hentry => h.named entry (hsub.subset hentry)
        possible := fun entry hentry => h.possible entry (hsub.subset hentry)
        home := hkeeps _ h.home }
  · cases hr
  · cases hr

theorem makeFolder (h : d.IsTree) (hm : d.makeFolder p = .ok d') : d'.IsTree := by
  unfold Disk.makeFolder at hm
  split at hm
  · cases hm
  split at hm
  · next harrive =>
    cases hm
    exact h.set_vacant harrive rfl
  · cases hm
  · cases hm

end IsTree

/-- What making any folder preserves is preserved by making a folder with those around it. -/
theorem makeFolders_induct {P : Disk → Prop}
    (step : ∀ {d d' p}, d.makeFolder p = .ok d' → P d → P d') (d : Disk) (p : Path) (h : P d) :
    P (d.makeFolders p).1 := by
  suffices hwithin : ∀ bound p, P (makeFoldersWithin bound d p).1 from hwithin _ p
  intro bound
  induction bound with
  | zero =>
    intro p
    unfold makeFoldersWithin
    split
    · exact h
    split
    · next hmade => exact step hmade h
    · exact h
    · exact h
  | succ bound ih =>
    intro p
    unfold makeFoldersWithin
    split
    · exact h
    split
    · next hmade => exact step hmade h
    · split
      · next parent hbound hparent =>
        obtain rfl := Nat.succ.inj hbound
        have hbefore := ih parent
        split
        · next hmade => rwa [hmade] at hbefore
        · next hmade =>
          rw [hmade] at hbefore
          split
          · next hlast => exact step hlast hbefore
          · exact hbefore
      · exact h
    · exact h

theorem IsTree.makeFolders (h : d.IsTree) (p : Path) : (d.makeFolders p).1.IsTree :=
  makeFolders_induct (fun hm h => h.makeFolder hm) d p h

/-- The disk with only the folders down to the current one is a tree. -/
theorem isTree_empty {home : Place} (h : ∀ name ∈ home, IsEntryName name) :
    (empty home).IsTree := by
  have hentry {entry : Place × Node} (hentry : entry ∈ (empty home).nodes) :
      ∃ n < home.length, (home.take (n + 1), Node.folder) = entry := by
    simpa [empty] using hentry
  have honce : ((empty home).nodes.map Prod.fst).Nodup := by
    rw [empty, List.map_map]
    refine List.Nodup.map_on (fun m hm n hn heq => ?_) List.nodup_range
    have := congrArg List.length heq
    simp only [Function.comp_apply, List.length_take] at this
    have := List.mem_range.mp hm
    have := List.mem_range.mp hn
    omega
  have hfolder (n : Nat) (hn : n ≤ home.length) :
      (empty home).isFolderAt (home.take n) = true := by
    cases n with
    | zero => rfl
    | succ n =>
      have hne : home.take (n + 1) ≠ [] := by
        cases home <;> simp_all
      rw [isFolderAt_iff, node?, if_neg hne, Table.find?_eq_some_iff_mem honce]
      exact List.mem_map.mpr ⟨n, List.mem_range.mpr hn, rfl⟩
  refine ⟨honce, fun entry he => ?_, fun entry he => ?_, fun entry he => ?_, ?_⟩
  · obtain ⟨n, hn, rfl⟩ := hentry he
    have hlength : min (min (n + 1) home.length - 1) (n + 1) = n := by omega
    rw [List.dropLast_eq_take, List.length_take, List.take_take, hlength]
    exact hfolder n (Nat.le_of_lt hn)
  · obtain ⟨n, hn, rfl⟩ := hentry he
    refine ⟨?_, fun name hname => h name (List.mem_of_mem_take hname)⟩
    cases home <;> simp_all
  · obtain ⟨n, hn, rfl⟩ := hentry he
    rfl
  · have hhome := hfolder home.length (Nat.le_refl _)
    rwa [List.take_length] at hhome

end Disk

end TypeInliner

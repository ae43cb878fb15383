import TypeInliner.Disk

/-! # Walks along a path

`Disk.Walks` is the walk of a path as a relation, with one constructor for each way in which a walk
goes on or ends. What a change of the disk does to paths is read off it: a walk stays what it is as
long as folders and links stay where they are. -/

namespace TypeInliner.Disk

/-- A segment of a path that names something in a folder. -/
structure IsPlain (segment : Bytes) : Prop where
  notVoid : Path.isVoid segment = false
  notParent : segment ≠ [dot, dot]
  fits : segment.length ≤ nameLimit

/-- A walk from a place along segments of a path ends somewhere; the number says how many links may
be followed. -/
inductive Walks (d : Disk) (follow : Bool) : Nat → Place → List Bytes → Arrival → Prop
  | done {links : Nat} {place : Place} : Walks d follow links place [] (.found place)
  | void {links : Nat} {place : Place} {segment : Bytes} {rest : List Bytes} {a : Arrival}
      (folder : d.isFolderAt place = true) (void : Path.isVoid segment = true)
      (walk : Walks d follow links place rest a) :
      Walks d follow links place (segment :: rest) a
  | up {links : Nat} {place : Place} {rest : List Bytes} {a : Arrival}
      (folder : d.isFolderAt place = true)
      (walk : Walks d follow links place.dropLast rest a) :
      Walks d follow links place ([dot, dot] :: rest) a
  | vacant {links : Nat} {place : Place} {segment : Bytes} (folder : d.isFolderAt place = true)
      (plain : IsPlain segment) (nothing : d.node? (place ++ [segment]) = none) :
      Walks d follow links place [segment] (.vacant (place ++ [segment]))
  /-- A link at the end that is not followed. -/
  | atLink {links : Nat} {place : Place} {segment target : Bytes}
      (folder : d.isFolderAt place = true) (plain : IsPlain segment)
      (link : d.node? (place ++ [segment]) = some (.link target)) (stop : follow = false) :
      Walks d follow links place [segment] (.found (place ++ [segment]))
  | through {links : Nat} {place : Place} {segment target : Bytes} {rest : List Bytes} {a : Arrival}
      (folder : d.isFolderAt place = true) (plain : IsPlain segment)
      (link : d.node? (place ++ [segment]) = some (.link target))
      (goesOn : rest ≠ [] ∨ follow = true)
      (walk : Walks d follow links (if target.head? = some slash then [] else place)
        (Text.splitAt slash target ++ rest) a) :
      Walks d follow (links + 1) place (segment :: rest) a
  | down {links : Nat} {place : Place} {segment : Bytes} {node : Node} {rest : List Bytes}
      {a : Arrival} (folder : d.isFolderAt place = true) (plain : IsPlain segment)
      (stands : d.node? (place ++ [segment]) = some node) (noLink : ∀ target, node ≠ .link target)
      (walk : Walks d follow links (place ++ [segment]) rest a) :
      Walks d follow links place (segment :: rest) a

variable {d d' : Disk} {follow : Bool} {links : Nat} {place found : Place} {segments : List Bytes}
  {a : Arrival}

theorem walk_cons (d : Disk) (follow : Bool) (links : Nat) (place : Place) (segment : Bytes)
    (rest : List Bytes) :
    d.walk follow links place (segment :: rest) =
      if ¬ d.isFolderAt place then .error .notFolder
      else if Path.isVoid segment then d.walk follow links place rest
      else if segment = [dot, dot] then d.walk follow links place.dropLast rest
      else if nameLimit < segment.length then .error .nameTooLong
      else
        match d.node? (place ++ [segment]) with
        | none => if rest = [] then .ok (.vacant (place ++ [segment])) else .error .missing
        | some (.link target) =>
          if rest = [] ∧ ¬ follow then .ok (.found (place ++ [segment]))
          else
            match links with
            | 0 => .error .tooManyLinks
            | links + 1 =>
              d.walk follow links (if target.head? = some slash then [] else place)
                (Text.splitAt slash target ++ rest)
        | some _ => d.walk follow links (place ++ [segment]) rest := by
  cases links <;> rfl

theorem walks_of_walk (h : d.walk follow links place segments = .ok a) :
    Walks d follow links place segments a := by
  induction links using Nat.strongRecOn generalizing place segments with
  | ind links ihLinks =>
  induction segments generalizing place with
  | nil =>
    have : d.walk follow links place [] = .ok (.found place) := by cases links <;> rfl
    rw [this] at h
    cases h
    exact .done
  | cons segment rest ih =>
    rw [walk_cons] at h
    split at h
    · cases h
    next hfolder =>
    have hfolder : d.isFolderAt place = true := by simpa using hfolder
    split at h
    · next hvoid => exact .void hfolder hvoid (ih h)
    split at h
    · next hparent =>
      subst hparent
      exact .up hfolder (ih h)
    split at h
    · cases h
    next hvoid hparent hlong =>
    have hplain : IsPlain segment := ⟨by simpa using hvoid, hparent, by omega⟩
    split at h
    · next hnode =>
      split at h
      · next hrest =>
        subst hrest
        cases h
        exact .vacant hfolder hplain hnode
      · cases h
    · next target hnode =>
      split at h
      · next hstop =>
        obtain ⟨rfl, hstop⟩ := hstop
        cases h
        exact .atLink hfolder hplain hnode (by simpa using hstop)
      · next hgo =>
        cases links with
        | zero => cases h
        | succ links =>
          refine .through hfolder hplain hnode ?_ (ihLinks links (Nat.lt_succ_self _) h)
          by_cases hrest : rest = []
          · exact .inr (by simpa [hrest] using hgo)
          · exact .inl hrest
    · next node hlink hnode =>
      exact .down hfolder hplain hnode (fun target hn => hlink target (hn ▸ rfl)) (ih h)

theorem Walks.walk_eq (h : Walks d follow links place segments a) :
    d.walk follow links place segments = .ok a := by
  induction h with
  | @done links place => cases links <;> rfl
  | void folder void _ ih => simp [walk_cons, folder, void, ih]
  | up folder _ ih => simp [walk_cons, folder, Path.isVoid, ih]
  | vacant folder plain nothing =>
    simp [walk_cons, folder, plain.notVoid, plain.notParent, plain.fits, nothing]
  | atLink folder plain link stop =>
    simp [walk_cons, folder, plain.notVoid, plain.notParent, plain.fits, link, stop]
  | through folder plain link goesOn _ ih =>
    have hgo (rest : List Bytes) (h : rest ≠ [] ∨ follow = true) : ¬(rest = [] ∧ ¬follow = true) :=
      fun ⟨hrest, hfollow⟩ => h.elim (· hrest) hfollow
    simp only [walk_cons, folder, plain.notVoid, plain.notParent, Nat.not_lt.mpr plain.fits, link,
      if_neg (hgo _ goesOn), ih, not_true_eq_false, Bool.false_eq_true, ↓reduceIte]
  | @down links place segment node rest a folder plain stands noLink _ ih =>
    cases node with
    | link target => exact absurd rfl (noLink target)
    | file content =>
      simp [walk_cons, folder, plain.notVoid, plain.notParent, plain.fits, stands, ih]
    | folder => simp [walk_cons, folder, plain.notVoid, plain.notParent, plain.fits, stands, ih]

/-- The relation is what the function computes. -/
theorem walk_eq_ok_iff :
    d.walk follow links place segments = .ok a ↔ Walks d follow links place segments a :=
  ⟨walks_of_walk, Walks.walk_eq⟩

/-- A path that can be looked up at all. -/
structure IsAccessible (p : Path) : Prop where
  noNul : 0 ∉ p.bytes
  nonempty : p.bytes ≠ []
  fits : p.bytes.length < pathLimit

/-- The place from which a path is walked. -/
def startOf (d : Disk) (p : Path) : Place := if p.isAbsolute then [] else d.home

theorem arrive_eq_ok_iff {p : Path} :
    d.arrive follow p = .ok a ↔
      IsAccessible p ∧ Walks d follow linkLimit (d.startOf p) p.segments a := by
  rw [← walk_eq_ok_iff]
  unfold arrive startOf
  constructor
  · intro h
    split at h
    · cases h
    split at h
    · cases h
    split at h
    · cases h
    next hnul hempty hlong =>
    exact ⟨⟨by simpa using hnul, hempty, by omega⟩, h⟩
  · rintro ⟨⟨hnul, hempty, hfits⟩, h⟩
    rw [if_neg (by simpa using hnul), if_neg hempty, if_neg (by omega), h]

theorem find_eq_ok_iff {p : Path} :
    d.find p = .ok found ↔ d.arrive true p = .ok (.found found) := by
  unfold find
  split <;> simp_all

theorem read_eq_ok_iff {p : Path} {text : Text} :
    d.read p = .ok text ↔
      ∃ place, d.find p = .ok place ∧ d.node? place = some (.file (some text)) := by
  unfold read
  cases d.find p with
  | error fault => simp [bind, Except.bind]
  | ok place =>
    simp only [bind, Except.bind, Except.ok.injEq, exists_eq_left']
    split <;> simp_all [pure, Except.pure, throw, throwThe, MonadExceptOf.throw]

theorem isFile_iff {p : Path} :
    d.isFile p = true ↔
      ∃ place, d.find p = .ok place ∧ ∃ content, d.node? place = some (.file content) := by
  unfold isFile
  cases d.find p with
  | error fault => simp
  | ok place =>
    simp only [Except.ok.injEq, exists_eq_left']
    split <;> simp_all

namespace Walks

/-! ## What a walk says about its end -/

/-- A walk that ends where nothing stands ends in a folder, at a segment of the path or of the
target of a link. -/
theorem vacant_cases {vacant : Place} {P : Bytes → Prop}
    (h : Walks d follow links place segments (.vacant vacant)) (hsegments : ∀ s ∈ segments, P s)
    (hlinks : ∀ place target, d.node? place = some (.link target) →
      ∀ s ∈ Text.splitAt slash target, P s) :
    ∃ folder name, vacant = folder ++ [name] ∧ d.isFolderAt folder = true ∧ IsPlain name ∧ P name ∧
      d.node? vacant = none := by
  generalize ha : Arrival.vacant vacant = a at h
  induction h with
  | done => cases ha
  | atLink => cases ha
  | vacant folder plain nothing =>
    cases ha
    exact ⟨_, _, rfl, folder, plain, hsegments _ List.mem_cons_self, nothing⟩
  | void _ _ _ ih => exact ih (List.forall_mem_cons.mp hsegments).2 ha
  | up _ _ ih => exact ih (List.forall_mem_cons.mp hsegments).2 ha
  | through _ _ link _ _ ih =>
    exact ih (List.forall_mem_append.mpr
      ⟨hlinks _ _ link, (List.forall_mem_cons.mp hsegments).2⟩) ha
  | down _ _ _ _ _ ih => exact ih (List.forall_mem_cons.mp hsegments).2 ha

/-- With links followed, blank segments at the end of a path do not change where it leads. -/
theorem of_voidEnd {segment : Bytes} (hvoid : Path.isVoid segment = true)
    (h : Walks d true links place (segments ++ [segment]) (.found found)) :
    Walks d true links place segments (.found found) := by
  generalize hs : segments ++ [segment] = all at h
  generalize ha : Arrival.found found = a at h
  induction h generalizing segments with
  | done => simp at hs
  | vacant => cases ha
  | atLink _ _ _ stop => cases stop
  | void folder void walk ih =>
    cases segments with
    | nil =>
      obtain ⟨rfl, rfl⟩ := List.cons.inj hs
      exact walk
    | cons first others =>
      obtain ⟨rfl, rfl⟩ := List.cons.inj hs
      exact .void folder void (ih rfl ha)
  | up folder walk ih =>
    cases segments with
    | nil =>
      obtain ⟨rfl, -⟩ := List.cons.inj hs
      simp [Path.isVoid] at hvoid
    | cons first others =>
      obtain ⟨rfl, rfl⟩ := List.cons.inj hs
      exact .up folder (ih rfl ha)
  | through folder plain link goesOn walk ih =>
    cases segments with
    | nil =>
      obtain ⟨rfl, -⟩ := List.cons.inj hs
      simp [plain.notVoid] at hvoid
    | cons first others =>
      obtain ⟨rfl, rfl⟩ := List.cons.inj hs
      exact .through folder plain link (.inr rfl) (ih (List.append_assoc ..) ha)
  | down folder plain stands noLink walk ih =>
    cases segments with
    | nil =>
      obtain ⟨rfl, -⟩ := List.cons.inj hs
      simp [plain.notVoid] at hvoid
    | cons first others =>
      obtain ⟨rfl, rfl⟩ := List.cons.inj hs
      exact .down folder plain stands noLink (ih rfl ha)

/-- A walk goes on from the place where a first part of the path leads. -/
theorem extend {rest : List Bytes}
    (h : Walks d true links place segments (.found found))
    (hrest : ∀ links, Walks d true links found rest a) :
    Walks d true links place (segments ++ rest) a := by
  generalize hf : Arrival.found found = b at h
  induction h with
  | done => cases hf; exact hrest _
  | vacant => cases hf
  | atLink _ _ _ stop => cases stop
  | void folder void _ ih => exact .void folder void (ih hf)
  | up folder _ ih => exact .up folder (ih hf)
  | through folder plain link _ _ ih =>
    rw [List.cons_append]
    refine .through folder plain link (.inr rfl) ?_
    rw [← List.append_assoc]
    exact ih hf
  | down folder plain stands noLink _ ih => exact .down folder plain stands noLink (ih hf)

end Walks

/-! ## Walks after a change -/

/-- A change after which folders and links are where they were, and files are files. -/
structure KeepsWays (d d' : Disk) : Prop where
  home : d'.home = d.home
  folder {place : Place} : d.node? place = some .folder → d'.node? place = some .folder
  link {place : Place} {target : Bytes} :
    d.node? place = some (.link target) → d'.node? place = some (.link target)
  file {place : Place} {content : Option Text} :
    d.node? place = some (.file content) → ∃ content', d'.node? place = some (.file content')

namespace KeepsWays

theorem refl (d : Disk) : KeepsWays d d := ⟨rfl, id, id, fun h => ⟨_, h⟩⟩

theorem trans {d'' : Disk} (h : KeepsWays d d') (h' : KeepsWays d' d'') : KeepsWays d d'' where
  home := h'.home.trans h.home
  folder hn := h'.folder (h.folder hn)
  link hn := h'.link (h.link hn)
  file hn := by
    obtain ⟨_, hn⟩ := h.file hn
    exact h'.file hn

theorem isFolderAt (h : KeepsWays d d') (hf : d.isFolderAt place = true) :
    d'.isFolderAt place = true := by
  simp only [Disk.isFolderAt, decide_eq_true_eq] at hf ⊢
  exact h.folder hf

theorem not_link (h : KeepsWays d d') {node : Node} (hn : d.node? place = some node)
    (noLink : ∀ target, node ≠ .link target) :
    ∃ node', d'.node? place = some node' ∧ ∀ target, node' ≠ .link target := by
  cases node with
  | file content =>
    obtain ⟨content', hn⟩ := h.file hn
    exact ⟨_, hn, by simp⟩
  | folder => exact ⟨_, h.folder hn, by simp⟩
  | link target => exact absurd rfl (noLink target)

end KeepsWays

namespace Walks

theorem keeps (hk : KeepsWays d d')
    (h : Walks d follow links place segments (.found found)) :
    Walks d' follow links place segments (.found found) := by
  generalize ha : Arrival.found found = a at h
  induction h with
  | done => cases ha; exact .done
  | vacant => cases ha
  | atLink folder plain link stop =>
    cases ha
    exact .atLink (hk.isFolderAt folder) plain (hk.link link) stop
  | void folder void _ ih => exact .void (hk.isFolderAt folder) void (ih ha)
  | up folder _ ih => exact .up (hk.isFolderAt folder) (ih ha)
  | through folder plain link goesOn _ ih =>
    exact .through (hk.isFolderAt folder) plain (hk.link link) goesOn (ih ha)
  | down folder plain stands noLink _ ih =>
    obtain ⟨node', stands, noLink⟩ := hk.not_link stands noLink
    exact .down (hk.isFolderAt folder) plain stands noLink (ih ha)

/-- A walk to where nothing stands finds what has been put there. -/
theorem fill (hk : KeepsWays d d') {vacant : Place} {node : Node}
    (stands : d'.node? vacant = some node) (noLink : ∀ target, node ≠ .link target)
    (h : Walks d follow links place segments (.vacant vacant)) :
    Walks d' true links place segments (.found vacant) := by
  generalize ha : Arrival.vacant vacant = a at h
  induction h with
  | done => cases ha
  | atLink => cases ha
  | vacant folder plain nothing =>
    cases ha
    exact .down (hk.isFolderAt folder) plain stands noLink .done
  | void folder void _ ih => exact .void (hk.isFolderAt folder) void (ih ha)
  | up folder _ ih => exact .up (hk.isFolderAt folder) (ih ha)
  | through folder plain link _ _ ih =>
    exact .through (hk.isFolderAt folder) plain (hk.link link) (.inr rfl) (ih ha)
  | down folder plain stands noLink _ ih =>
    obtain ⟨node', stands, noLink⟩ := hk.not_link stands noLink
    exact .down (hk.isFolderAt folder) plain stands noLink (ih ha)

end Walks

end TypeInliner.Disk

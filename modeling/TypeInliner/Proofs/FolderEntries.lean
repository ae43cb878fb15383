import Mathlib.Data.List.Nodup
import TypeInliner.Proofs.FileTrees
import TypeInliner.Proofs.FoldedPaths

/-! # Names in a folder

A path opens a folder if names behind it are looked up there. What writing to such a name, and
reading it, does is told by what stands at the name in the folder and by the length of the path. -/

namespace TypeInliner

namespace Text

variable {α : Type} [DecidableEq α]

theorem splitAt_replicate (separator : α) (n : Nat) :
    splitAt separator (List.replicate n separator) = List.replicate (n + 1) [] := by
  induction n with
  | zero => rfl
  | succ n ih =>
    rw [List.replicate_succ, ← List.nil_append (separator :: _), splitAt_append, ih]
    rfl

theorem splitAt_append_replicate (separator : α) (t : List α) (n : Nat) :
    splitAt separator (t ++ List.replicate n separator) =
      splitAt separator t ++ List.replicate n [] := by
  cases n with
  | zero => simp
  | succ n => rw [List.replicate_succ, splitAt_append, splitAt_replicate]

omit [DecidableEq α] in
/-- What is cut off at the end of a list is a number of members of the class. -/
theorem exists_trimEnd_append (p : α → Bool) (t : List α) :
    ∃ cut, t = trimEnd p t ++ cut ∧ ∀ c ∈ cut, p c = true := by
  refine ⟨(t.reverse.takeWhile p).reverse, ?_, fun c hc => ?_⟩
  · rw [trimEnd, ← List.reverse_append, List.takeWhile_append_dropWhile, List.reverse_reverse]
  · exact List.all_eq_true.mp List.all_takeWhile c (List.mem_reverse.mp hc)

end Text

namespace Path

variable {p : Path} {name : Bytes}

theorem bytes_join (p : Path) (h : IsName name) :
    (p.join ⟨name⟩).bytes = p.bytes ++ name ∨ (p.join ⟨name⟩).bytes = p.bytes ++ slash :: name := by
  rw [join, if_neg (by simp [isAbsolute_of_isName h])]
  split
  · exact .inl rfl
  · exact .inr rfl

/-- The segments of a path with a name behind it are those of the path, without a blank one at the
end if the path ends in a separator, and the name. -/
theorem segments_join (p : Path) (h : IsName name) :
    ∃ front, (p.segments = front ∨ p.segments = front ++ [[]]) ∧
      (p.join ⟨name⟩).segments = front ++ [name] := by
  obtain ⟨bytes⟩ := p
  have hname : Text.splitAt slash name = [name] := Text.splitAt_of_not_mem h.2.2.2
  rw [join, if_neg (by simp [isAbsolute_of_isName h])]
  split
  · next hend =>
    rcases hend with rfl | hlast
    · exact ⟨[], .inr rfl, hname⟩
    · obtain ⟨front, rfl⟩ := List.getLast?_eq_some_iff.mp hlast
      refine ⟨Text.splitAt slash front, .inr (Text.splitAt_append slash front []), ?_⟩
      rw [segments, List.append_assoc, List.singleton_append, Text.splitAt_append, hname]
  · exact ⟨Text.splitAt slash bytes, .inl rfl, by rw [segments, Text.splitAt_append, hname]⟩

end Path

namespace Disk

open TypeInliner.Path

variable {d d' : Disk} {p : Path} {folder : Place} {name : Bytes}

/-- Names behind a path are looked up in a folder: the one that the path finds, or the current one
behind the empty path. -/
def Opens (d : Disk) (p : Path) (folder : Place) : Prop :=
  d.isFolderAt folder = true ∧ (p.bytes = [] ∧ folder = d.home ∨ d.find p = .ok folder)

theorem Opens.keeps (h : d.Opens p folder) (hk : KeepsWays d d') : d'.Opens p folder := by
  obtain ⟨hfolder, ⟨hempty, rfl⟩ | hfind⟩ := h
  · exact ⟨hk.isFolderAt hfolder, .inl ⟨hempty, hk.home.symm⟩⟩
  · refine ⟨hk.isFolderAt hfolder, .inr ?_⟩
    obtain ⟨haccess, hwalks⟩ := arrive_eq_ok_iff.mp (find_eq_ok_iff.mp hfind)
    refine find_eq_ok_iff.mpr (arrive_eq_ok_iff.mpr ⟨haccess, ?_⟩)
    have hstart : d'.startOf p = d.startOf p := by simp only [startOf, hk.home]
    rw [hstart]
    exact hwalks.keeps hk

/-- The folder that a path opens holds no link. -/
def HoldsNoLinks (d : Disk) (p : Path) : Prop :=
  ∀ folder, d.Opens p folder → ∀ name target, d.node? (folder ++ [name]) ≠ some (.link target)

/-- What a walk arrives at that ends at a place in a folder. -/
def arrivalAt (d : Disk) (place : Place) : Arrival :=
  if d.node? place = none then .vacant place else .found place

theorem walks_entry (hfolder : d.isFolderAt folder = true) (hname : IsEntryName name)
    (hlink : ∀ target, d.node? (folder ++ [name]) ≠ some (.link target)) (links : Nat) :
    Walks d true links folder [name] (d.arrivalAt (folder ++ [name])) := by
  unfold arrivalAt
  split
  · next hnone => exact .vacant hfolder hname.isPlain hnone
  · next hsome =>
    obtain ⟨node, hnode⟩ := Option.ne_none_iff_exists'.mp hsome
    exact .down hfolder hname.isPlain hnode (fun target h => hlink target (h ▸ hnode)) .done

namespace Opens

theorem clean_join (h : d.Opens p folder) (hname : IsEntryName name) :
    0 ∉ (p.join ⟨name⟩).bytes ∧ (p.join ⟨name⟩).bytes ≠ [] := by
  have hnul : 0 ∉ p.bytes := by
    obtain ⟨-, ⟨hempty, -⟩ | hfind⟩ := h
    · simp [hempty]
    · exact (arrive_eq_ok_iff.mp (find_eq_ok_iff.mp hfind)).1.noNul
  rcases bytes_join p hname.1 with hbytes | hbytes <;> rw [hbytes]
  · exact ⟨by simp [hnul, hname.2.2], by simp [hname.1.1]⟩
  · exact ⟨by simp [hnul, hname.2.2], by simp⟩

/-- The walk to a name behind a path goes through the folder that the path opens. -/
theorem walks_join {a : Arrival} (h : d.Opens p folder) (hname : IsName name)
    (hentry : ∀ links, Walks d true links folder [name] a) :
    Walks d true linkLimit (d.startOf (p.join ⟨name⟩)) (p.join ⟨name⟩).segments a := by
  have hstart : d.startOf (p.join ⟨name⟩) = d.startOf p := by
    rw [startOf, startOf, isAbsolute_join (isAbsolute_of_isName hname)]
  rw [hstart]
  obtain ⟨-, ⟨hempty, rfl⟩ | hfind⟩ := h
  · obtain ⟨bytes⟩ := p
    obtain rfl : bytes = [] := hempty
    have hsegments : (join ⟨[]⟩ ⟨name⟩).segments = [name] := by
      rw [join, if_neg (by simp [isAbsolute_of_isName hname]), if_pos (.inl rfl)]
      exact Text.splitAt_of_not_mem hname.2.2.2
    rw [hsegments]
    exact hentry _
  · obtain ⟨front, hfront, hsegments⟩ := segments_join p hname
    have hwalks := (arrive_eq_ok_iff.mp (find_eq_ok_iff.mp hfind)).2
    rw [hsegments]
    refine Walks.extend ?_ hentry
    rcases hfront with rfl | hblank
    · exact hwalks
    · rw [hblank] at hwalks
      exact hwalks.of_voidEnd rfl

/-- What a name behind a path arrives at. -/
theorem arrive_join (h : d.Opens p folder) (hname : IsEntryName name)
    (hlink : ∀ target, d.node? (folder ++ [name]) ≠ some (.link target)) :
    d.arrive true (p.join ⟨name⟩) =
      if pathLimit ≤ (p.join ⟨name⟩).bytes.length then .error .nameTooLong
      else .ok (d.arrivalAt (folder ++ [name])) := by
  obtain ⟨hnul, hne⟩ := h.clean_join hname
  split
  · next hlong => rw [arrive, if_neg (by simpa using hnul), if_neg hne, if_pos hlong]
  · next hfits =>
    exact arrive_eq_ok_iff.mpr ⟨⟨hnul, hne, Nat.lt_of_not_le hfits⟩,
      h.walks_join hname.1 (walks_entry h.1 hname hlink)⟩

end Opens

theorem endsInFolder_join (p : Path) (h : IsName name) : endsInFolder (p.join ⟨name⟩) = false := by
  obtain ⟨front, -, hsegments⟩ := segments_join p h
  simp [endsInFolder, hsegments, isVoid_of_isName h, h.2.2.1]

namespace Opens

/-- Writing to a name behind a path. -/
theorem write_join (h : d.Opens p folder) (hname : IsEntryName name)
    (hlink : ∀ target, d.node? (folder ++ [name]) ≠ some (.link target)) (content : Option Text) :
    d.write (p.join ⟨name⟩) content =
      if pathLimit ≤ (p.join ⟨name⟩).bytes.length then .error .nameTooLong
      else if d.isFolderAt (folder ++ [name]) then .error .isFolder
      else .ok (d.set (folder ++ [name]) (.file content)) := by
  rw [write, endsInFolder_join p hname.1, if_neg Bool.false_ne_true, h.arrive_join hname hlink]
  by_cases hlong : pathLimit ≤ (p.join ⟨name⟩).bytes.length
  · rw [if_pos hlong, if_pos hlong]
  · rw [if_neg hlong, if_neg hlong]
    unfold arrivalAt
    by_cases hnone : d.node? (folder ++ [name]) = none
    · simp [hnone, isFolderAt]
    · simp [hnone]

theorem find_join_eq_ok_iff {place : Place} (h : d.Opens p folder) (hname : IsEntryName name)
    (hlink : ∀ target, d.node? (folder ++ [name]) ≠ some (.link target)) :
    d.find (p.join ⟨name⟩) = .ok place ↔
      (p.join ⟨name⟩).bytes.length < pathLimit ∧ d.node? (folder ++ [name]) ≠ none ∧
        place = folder ++ [name] := by
  rw [find_eq_ok_iff, h.arrive_join hname hlink, arrivalAt]
  split
  · next hlong => simp [Nat.not_lt.mpr hlong]
  · next hfits =>
    split
    · next hnone => simp [hnone]
    · next hsome => simp [Nat.lt_of_not_le hfits, hsome, eq_comm]

theorem read_join_eq_ok_iff {text : Text} (h : d.Opens p folder) (hname : IsEntryName name)
    (hlink : ∀ target, d.node? (folder ++ [name]) ≠ some (.link target)) :
    d.read (p.join ⟨name⟩) = .ok text ↔
      (p.join ⟨name⟩).bytes.length < pathLimit ∧
        d.node? (folder ++ [name]) = some (.file (some text)) := by
  rw [read_eq_ok_iff]
  simp only [h.find_join_eq_ok_iff hname hlink]
  constructor
  · rintro ⟨_, ⟨hfits, -, rfl⟩, hnode⟩
    exact ⟨hfits, hnode⟩
  · rintro ⟨hfits, hnode⟩
    exact ⟨_, ⟨hfits, by simp [hnode], rfl⟩, hnode⟩

theorem isFile_join_iff (h : d.Opens p folder) (hname : IsEntryName name)
    (hlink : ∀ target, d.node? (folder ++ [name]) ≠ some (.link target)) :
    d.isFile (p.join ⟨name⟩) = true ↔
      (p.join ⟨name⟩).bytes.length < pathLimit ∧
        ∃ content, d.node? (folder ++ [name]) = some (.file content) := by
  rw [isFile_iff]
  simp only [h.find_join_eq_ok_iff hname hlink]
  constructor
  · rintro ⟨_, ⟨hfits, -, rfl⟩, hnode⟩
    exact ⟨hfits, hnode⟩
  · rintro ⟨hfits, content, hnode⟩
    exact ⟨_, ⟨hfits, by simp [hnode], rfl⟩, content, hnode⟩

end Opens

/-! ## Putting something where no folder and no link stands -/

theorem keepsWays_set {place : Place} {node : Node} (hne : place ≠ [])
    (h : d.node? place = none ∨
      ∃ content content', d.node? place = some (.file content) ∧ node = .file content') :
    KeepsWays d (d.set place node) := by
  have hother {other : Place} {stands : Node} (hnode : d.node? other = some stands)
      (hstands : ∀ content, stands ≠ .file content) :
      (d.set place node).node? other = some stands := by
    rw [node?_set hne, if_neg ?_, hnode]
    rintro rfl
    rcases h with hnone | ⟨content, _, hfile, -⟩
    · simp [hnone] at hnode
    · exact hstands content (Option.some.inj (hnode.symm.trans hfile))
  refine ⟨rfl, fun hnode => hother hnode (by simp), fun hnode => hother hnode (by simp),
    fun {other content} hnode => ?_⟩
  rw [node?_set hne]
  split
  · next heq =>
    subst heq
    rcases h with hnone | ⟨_, content', -, rfl⟩
    · simp [hnone] at hnode
    · exact ⟨content', rfl⟩
  · exact ⟨content, hnode⟩

/-! ## Making folders -/

/-- A change that makes folders where nothing stood, and nothing else. -/
structure OnlyMakesFolders (d d' : Disk) : Prop where
  home : d'.home = d.home
  node? : ∀ place, d'.node? place = d.node? place ∨
    d.node? place = none ∧ d'.node? place = some .folder

namespace OnlyMakesFolders

theorem refl (d : Disk) : OnlyMakesFolders d d := ⟨rfl, fun _ => .inl rfl⟩

theorem trans {d'' : Disk} (h : OnlyMakesFolders d d') (h' : OnlyMakesFolders d' d'') :
    OnlyMakesFolders d d'' where
  home := h'.home.trans h.home
  node? place := by
    rcases h'.node? place with hsame' | ⟨hnone', hmade'⟩
    · rw [hsame']
      exact h.node? place
    · rcases h.node? place with hsame | ⟨-, hmade⟩
      · exact .inr ⟨hsame ▸ hnone', hmade'⟩
      · simp [hmade] at hnone'

end OnlyMakesFolders

/-- A path is one without separators at its end and a number of separators. -/
theorem exists_withoutEndSlash (p : Path) :
    ∃ n, p.bytes = (withoutEndSlash p).bytes ++ List.replicate n slash := by
  obtain ⟨cut, hbytes, hcut⟩ := Text.exists_trimEnd_append (· = slash) p.bytes
  obtain ⟨n, rfl⟩ : ∃ n, cut = List.replicate n slash :=
    ⟨cut.length, List.eq_replicate_iff.mpr ⟨rfl, fun c hc => by simpa using hcut c hc⟩⟩
  unfold withoutEndSlash
  split
  · next hempty =>
    rw [hempty, List.nil_append] at hbytes
    refine ⟨n - 1, ?_⟩
    rw [hbytes, List.take_replicate, ← List.replicate_add]
    congr 1
    omega
  · exact ⟨n, hbytes⟩

theorem walks_blanks (hfolder : d.isFolderAt folder = true) (follow : Bool) (links n : Nat) :
    Walks d follow links folder (List.replicate n []) (.found folder) := by
  induction n with
  | zero => exact .done
  | succ n ih => exact .void hfolder rfl ih

/-- Separators at the end of a path that finds a folder do not change what it finds. -/
theorem find_of_withoutEndSlash {place : Place} (haccess : IsAccessible (withoutEndSlash p))
    (hfits : p.bytes.length < pathLimit) (hfolder : d.isFolderAt place = true)
    (hwalks : Walks d true linkLimit (d.startOf (withoutEndSlash p)) (withoutEndSlash p).segments
      (.found place)) : d.find p = .ok place := by
  obtain ⟨n, hbytes⟩ := exists_withoutEndSlash p
  have hstart : d.startOf p = d.startOf (withoutEndSlash p) := by
    have habsolute : p.isAbsolute = (withoutEndSlash p).isAbsolute := by
      rw [isAbsolute, isAbsolute, hbytes, List.head?_append_of_ne_nil _ haccess.nonempty]
    simp only [startOf, habsolute]
  have hsegments : p.segments = (withoutEndSlash p).segments ++ List.replicate n [] := by
    rw [segments, hbytes, Text.splitAt_append_replicate]
    rfl
  refine find_eq_ok_iff.mpr (arrive_eq_ok_iff.mpr ⟨⟨?_, ?_, hfits⟩, ?_⟩)
  · simp [hbytes, haccess.noNul]
  · simp [hbytes, haccess.nonempty]
  · rw [hstart, hsegments]
    exact hwalks.extend fun links => walks_blanks hfolder true links n

/-- Making a folder puts it where nothing stood, and its path opens it. -/
theorem exists_place_of_makeFolder (h : d.makeFolder p = .ok d') :
    ∃ place, place ≠ [] ∧ d.node? place = none ∧ d' = d.set place .folder ∧ d'.Opens p place := by
  unfold makeFolder at h
  split at h
  · cases h
  next hshort =>
  split at h
  · next place harrive =>
    cases h
    obtain ⟨haccess, hwalks⟩ := arrive_eq_ok_iff.mp harrive
    obtain ⟨folder, name, rfl, -, -, -, hnone⟩ :=
      hwalks.vacant_cases (P := fun _ => True) (fun _ _ => trivial) fun _ _ _ _ _ => trivial
    have hne : folder ++ [name] ≠ [] := by simp
    have hmade : (d.set (folder ++ [name]) .folder).node? (folder ++ [name]) = some .folder := by
      rw [node?_set hne, if_pos rfl]
    have hfits : p.bytes.length < pathLimit := by
      obtain ⟨n, hbytes⟩ := exists_withoutEndSlash p
      have hnul : 0 ∉ p.bytes := by simp [hbytes, haccess.noNul]
      by_contra hlong
      exact hshort ⟨Nat.le_of_not_lt hlong, by simpa using hnul⟩
    have hfilled := hwalks.fill (keepsWays_set hne (.inl hnone)) hmade (by simp)
    exact ⟨_, hne, hnone, rfl, isFolderAt_iff.mpr hmade,
      .inr (find_of_withoutEndSlash haccess hfits (isFolderAt_iff.mpr hmade) hfilled)⟩
  · cases h
  · cases h

theorem onlyMakesFolders_of_makeFolder (h : d.makeFolder p = .ok d') : OnlyMakesFolders d d' := by
  obtain ⟨place, hne, hnone, rfl, -⟩ := exists_place_of_makeFolder h
  refine ⟨rfl, fun other => ?_⟩
  rw [node?_set hne]
  split
  · next heq => exact .inr ⟨heq ▸ hnone, rfl⟩
  · exact .inl rfl

theorem onlyMakesFolders_makeFolders (d : Disk) (p : Path) :
    OnlyMakesFolders d (d.makeFolders p).1 :=
  makeFolders_induct (P := OnlyMakesFolders d)
    (fun hmade hbefore => hbefore.trans (onlyMakesFolders_of_makeFolder hmade)) d p (.refl d)

/-- If a folder is made with all folders around it, then its path is empty, or it has been made
last, or it is a folder anyway. -/
theorem makeFolders_cases (h : d.makeFolders p = (d', .ok ())) :
    p.bytes = [] ∧ d' = d ∨ (∃ before : Disk, before.makeFolder p = .ok d') ∨
      d'.isFolder p = true := by
  have hor {d : Disk} {fault : Fault}
      (hd : (d, if d.isFolder p then Except.ok () else Except.error fault) = (d', .ok ())) :
      d'.isFolder p = true := by
    obtain ⟨rfl, hok⟩ := Prod.mk.inj hd
    split at hok
    · assumption
    · cases hok
  unfold makeFolders makeFoldersWithin at h
  split at h
  · next hempty =>
    cases h
    exact .inl ⟨hempty, rfl⟩
  split at h
  · next hmade =>
    cases h
    exact .inr (.inl ⟨d, hmade⟩)
  · split at h
    · split at h
      · cases h
      · split at h
        · next hmade =>
          cases h
          exact .inr (.inl ⟨_, hmade⟩)
        · exact .inr (.inr (hor h))
    · cases h
  · exact .inr (.inr (hor h))

/-- The path of a folder that has been made, or was there, opens it. -/
theorem IsTree.exists_opens_of_makeFolders (htree : d.IsTree)
    (h : d.makeFolders p = (d', .ok ())) : ∃ folder, d'.Opens p folder := by
  rcases makeFolders_cases h with ⟨hempty, rfl⟩ | ⟨before, hmade⟩ | hfolder
  · exact ⟨_, htree.home, .inl ⟨hempty, rfl⟩⟩
  · obtain ⟨place, -, -, -, hopens⟩ := exists_place_of_makeFolder hmade
    exact ⟨place, hopens⟩
  · unfold isFolder at hfolder
    split at hfolder
    · next place hfind => exact ⟨place, hfolder, .inr hfind⟩
    · cases hfolder

/-! ## Listing -/

theorem list_eq_ok_iff {names : List Bytes} :
    d.list p = .ok names ↔
      ∃ folder, d.find p = .ok folder ∧ d.isFolderAt folder = true ∧ names = d.namesIn folder := by
  unfold list
  cases d.find p with
  | error fault => simp [bind, Except.bind]
  | ok place =>
    simp only [bind, Except.bind, Except.ok.injEq, exists_eq_left']
    split
    · next hfolder => simp [hfolder, pure, Except.pure, eq_comm]
    · next hfile => simp [hfile, throw, throwThe, MonadExceptOf.throw]

/-- The names that are listed, read off the places. -/
theorem namesIn_eq (d : Disk) (folder : Place) :
    d.namesIn folder = (d.nodes.map Prod.fst).filterMap fun other =>
      if other ≠ [] ∧ other.dropLast = folder then other.getLast? else none := by
  rw [namesIn, List.filterMap_map]
  rfl

theorem eq_append_of_listed {folder other : Place} {name : Bytes}
    (h : (if other ≠ [] ∧ other.dropLast = folder then other.getLast? else none) = some name) :
    other = folder ++ [name] := by
  split at h
  · next hother =>
    rw [← hother.2, List.dropLast_append_getLast? name h]
  · cases h

namespace IsTree

/-- A name is listed if something stands in the folder under it. -/
theorem mem_namesIn_iff (htree : d.IsTree) :
    name ∈ d.namesIn folder ↔ d.node? (folder ++ [name]) ≠ none := by
  rw [namesIn_eq, List.mem_filterMap]
  constructor
  · rintro ⟨other, hother, hlisted⟩
    obtain ⟨⟨_, node⟩, hentry, rfl⟩ := List.mem_map.mp hother
    obtain rfl := eq_append_of_listed hlisted
    rw [(htree.node?_eq_some_iff (by simp)).mpr hentry]
    simp
  · intro hsome
    obtain ⟨node, hnode⟩ := Option.ne_none_iff_exists'.mp hsome
    exact ⟨_, List.mem_map.mpr ⟨_, (htree.node?_eq_some_iff (by simp)).mp hnode, rfl⟩, by simp⟩

theorem nodup_namesIn (htree : d.IsTree) (folder : Place) : (d.namesIn folder).Nodup := by
  rw [namesIn_eq]
  refine List.Nodup.filterMap (fun other other' name h h' => ?_) htree.once
  rw [eq_append_of_listed h, eq_append_of_listed h']

theorem isEntryName_of_mem_namesIn (htree : d.IsTree) (h : name ∈ d.namesIn folder) :
    IsEntryName name := by
  obtain ⟨node, hnode⟩ := Option.ne_none_iff_exists'.mp (htree.mem_namesIn_iff.mp h)
  exact htree.names hnode name (by simp)

end IsTree

end Disk

end TypeInliner

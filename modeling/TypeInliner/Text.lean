/-! # Texts

A text is the list of its characters. Positions and sizes that a reader sees are counted in bytes of
the UTF-8 form; everything else works on the characters. Lists of anything are split, joined and
trimmed as texts are. -/

namespace TypeInliner

abbrev Text := List Char

namespace Text

/-- Size of a text in bytes of its UTF-8 form. -/
def bytes : Text → Nat
  | [] => 0
  | c :: t => c.utf8Size + bytes t

@[simp] theorem bytes_nil : bytes [] = 0 := rfl

@[simp] theorem bytes_cons (c : Char) (t : Text) : bytes (c :: t) = c.utf8Size + bytes t := rfl

@[simp] theorem bytes_append (s t : Text) : bytes (s ++ t) = bytes s + bytes t := by
  induction s with
  | nil => simp
  | cons c s ih => simp [ih, Nat.add_assoc]

theorem length_le_bytes (t : Text) : t.length ≤ bytes t := by
  induction t with
  | nil => exact Nat.le_refl 0
  | cons c t ih =>
    have := Char.utf8Size_pos c
    simp only [List.length_cons, bytes_cons]
    omega

/-- The longest beginning of a text that fits into a number of bytes. -/
def takeBytes : Nat → Text → Text
  | _, [] => []
  | n, c :: t => if c.utf8Size ≤ n then c :: takeBytes (n - c.utf8Size) t else []

/-- What follows the longest beginning that fits into a number of bytes. -/
def dropBytes : Nat → Text → Text
  | _, [] => []
  | n, c :: t => if c.utf8Size ≤ n then dropBytes (n - c.utf8Size) t else c :: t

theorem takeBytes_append_dropBytes (n : Nat) (t : Text) : takeBytes n t ++ dropBytes n t = t := by
  induction t generalizing n with
  | nil => rfl
  | cons c t ih => by_cases h : c.utf8Size ≤ n <;> simp [takeBytes, dropBytes, h, ih]

def occursIn (part : Text) : Text → Bool
  | [] => part.isEmpty
  | c :: t => part.isPrefixOf (c :: t) || occursIn part t

section Pieces

variable {α : Type}

/-- The pieces of a list between the occurrences of a separator; always at least one piece. -/
def splitAt [DecidableEq α] (separator : α) : List α → List (List α)
  | [] => [[]]
  | c :: t =>
    match splitAt separator t with
    | [] => [[c]]
    | piece :: pieces => if c = separator then [] :: piece :: pieces else (c :: piece) :: pieces

def join (separator : List α) : List (List α) → List α
  | [] => []
  | [t] => t
  | t :: u :: rest => t ++ separator ++ join separator (u :: rest)

/-- A list that is not empty makes what it is joined into not empty. -/
theorem join_ne_nil {separator : List α} {texts : List (List α)} (hne : texts ≠ [])
    (h : ∀ t ∈ texts, t ≠ []) : join separator texts ≠ [] := by
  obtain ⟨t, texts, rfl⟩ := List.exists_cons_of_ne_nil hne
  have ht := h t List.mem_cons_self
  cases texts with
  | nil => exact ht
  | cons u texts => simp [join, ht]

/-- What is joined already may be joined with more. -/
theorem join_join_cons {separator : List α} {texts : List (List α)} (hne : texts ≠ [])
    (more : List (List α)) :
    join separator (join separator texts :: more) = join separator (texts ++ more) := by
  obtain ⟨t, texts, rfl⟩ := List.exists_cons_of_ne_nil hne
  induction texts generalizing t with
  | nil => rfl
  | cons u texts ih =>
    cases more with
    | nil => simp [join]
    | cons line more => simpa [join] using ih u (by simp)

theorem join_splitAt [DecidableEq α] (separator : α) (t : List α) :
    join [separator] (splitAt separator t) = t := by
  induction t with
  | nil => rfl
  | cons c t ih =>
    rw [splitAt]
    cases h : splitAt separator t with
    | nil => rw [h] at ih; simp [join] at ih; simp [join, ← ih]
    | cons piece pieces =>
      rw [h] at ih
      by_cases hc : c = separator
      · simp [hc, join, ih]
      · cases pieces with
        | nil => simp [hc, join] at ih ⊢; exact ih
        | cons next rest => simp [hc, join] at ih ⊢; exact ih

/-- A list without the members of a class at its end. -/
def trimEnd (p : α → Bool) (t : List α) : List α := (t.reverse.dropWhile p).reverse

end Pieces

def trim (p : Char → Bool) (t : Text) : Text := trimEnd p (t.dropWhile p)

def dropLineFeed : Text → Text
  | '\n' :: t => t
  | t => t

def ofNat (n : Nat) : Text := (toString n).toList

end Text

end TypeInliner

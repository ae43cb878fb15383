import Mathlib.Data.List.Basic
import Mathlib.Data.List.Induction
import TypeInliner.Utf8

/-! # Bytes read as a text

To read the bytes of a text gives the text back. ASCII characters and ASCII bytes stand for one
another wherever they are, also between bytes that are no text, so a text falls into the same parts
at an ASCII character as its bytes do. -/

namespace TypeInliner.Utf8

variable {state : Option Pending} {byte : Nat} {b : UInt8} {bytes front rest : Bytes} {c : Char}
  {t : Text}

theorem decodeFrom_nil (state : Option Pending) :
    decodeFrom state [] = if state.isSome then [replacement] else [] := rfl

theorem decodeFrom_cons (state : Option Pending) (b : UInt8) (rest : Bytes) :
    decodeFrom state (b :: rest) =
      (read state b.toNat).1 ++ decodeFrom (read state b.toNat).2 rest := rfl

@[simp] theorem encode_nil : encode [] = [] := rfl

@[simp] theorem encode_cons (c : Char) (t : Text) :
    encode (c :: t) = String.utf8EncodeChar c ++ encode t := List.flatMap_cons

@[simp] theorem encode_append (s t : Text) : encode (s ++ t) = encode s ++ encode t :=
  List.flatMap_append

/-! ## Reading what has been written -/

theorem decodeFrom_pending {p : Pending} (h : pending? b.toNat = some p) (rest : Bytes) :
    decodeFrom none (b :: rest) = decodeFrom (some p) rest := by
  have hfirst : ¬ b.toNat < 0x80 := by
    intro hb
    rw [pending?, dif_neg (by omega), dif_neg (by omega), dif_neg (by omega)] at h
    cases h
  rw [decodeFrom_cons, read, readBetween, if_neg hfirst, h]
  rfl

theorem decodeFrom_last {p : Pending} (hmissing : p.missing = 0)
    (hb : p.least ≤ b.toNat ∧ b.toNat ≤ p.greatest) (rest : Bytes) :
    decodeFrom (some p) (b :: rest) =
      Char.ofNat (extended p.value b.toNat) :: decodeFrom none rest := by
  have hread : readWithin p b.toNat = ([Char.ofNat (extended p.value b.toNat)], none) := by
    rw [readWithin, dif_pos hb]
    split
    · rfl
    · next h => rw [hmissing] at h; cases h
  rw [decodeFrom_cons, read, hread]
  rfl

theorem exists_decodeFrom_more {p : Pending} (missing : Nat) (hmissing : p.missing = missing + 1)
    (hb : p.least ≤ b.toNat ∧ b.toNat ≤ p.greatest) (rest : Bytes) :
    ∃ q : Pending, (q.value = extended p.value b.toNat ∧ q.missing = missing ∧ q.least = 0x80 ∧
      q.greatest = 0xBF) ∧ decodeFrom (some p) (b :: rest) = decodeFrom (some q) rest := by
  have hread : ∃ q : Pending, (q.value = extended p.value b.toNat ∧ q.missing = missing ∧
      q.least = 0x80 ∧ q.greatest = 0xBF) ∧ readWithin p b.toNat = ([], some q) := by
    rw [readWithin, dif_pos hb]
    split
    · next h => rw [hmissing] at h; cases h
    · next more h =>
      obtain rfl : more = missing := by rw [hmissing] at h; omega
      refine ⟨_, ?_, rfl⟩
      exact ⟨rfl, rfl, rfl, rfl⟩
  obtain ⟨q, hq, hread⟩ := hread
  exact ⟨q, hq, by rw [decodeFrom_cons, read, hread]; rfl⟩

theorem decodeFrom_one (h : b.toNat < 0x80) (rest : Bytes) :
    decodeFrom none (b :: rest) = Char.ofNat b.toNat :: decodeFrom none rest := by
  rw [decodeFrom_cons, read, readBetween, if_pos h]
  rfl

theorem decodeFrom_two {a b : UInt8} (ha : 0xC2 ≤ a.toNat ∧ a.toNat ≤ 0xDF)
    (hb : 0x80 ≤ b.toNat ∧ b.toNat ≤ 0xBF) (rest : Bytes) :
    decodeFrom none (a :: b :: rest) =
      Char.ofNat ((a.toNat - 0xC0) * 64 + (b.toNat - 0x80)) :: decodeFrom none rest := by
  have hp : pending? a.toNat = some (.two a.toNat ha) := dif_pos ha
  rw [decodeFrom_pending hp]
  exact decodeFrom_last rfl hb rest

theorem decodeFrom_three {a b c : UInt8} (ha : 0xE0 ≤ a.toNat ∧ a.toNat ≤ 0xEF)
    (hb : (if a.toNat = 0xE0 then 0xA0 else 0x80) ≤ b.toNat ∧
      b.toNat ≤ if a.toNat = 0xED then 0x9F else 0xBF)
    (hc : 0x80 ≤ c.toNat ∧ c.toNat ≤ 0xBF) (rest : Bytes) :
    decodeFrom none (a :: b :: c :: rest) =
      Char.ofNat (((a.toNat - 0xE0) * 64 + (b.toNat - 0x80)) * 64 + (c.toNat - 0x80)) ::
        decodeFrom none rest := by
  have hp : pending? a.toNat = some (.three a.toNat ha) :=
    (dif_neg (by omega)).trans (dif_pos ha)
  rw [decodeFrom_pending hp]
  obtain ⟨q, ⟨hvalue, hmissing, hleast, hgreatest⟩, hmore⟩ :=
    exists_decodeFrom_more (p := .three a.toNat ha) 0 rfl hb (c :: rest)
  rw [hmore, decodeFrom_last hmissing (by rwa [hleast, hgreatest]), hvalue]
  rfl

theorem decodeFrom_four {a b c d : UInt8} (ha : 0xF0 ≤ a.toNat ∧ a.toNat ≤ 0xF4)
    (hb : (if a.toNat = 0xF0 then 0x90 else 0x80) ≤ b.toNat ∧
      b.toNat ≤ if a.toNat = 0xF4 then 0x8F else 0xBF)
    (hc : 0x80 ≤ c.toNat ∧ c.toNat ≤ 0xBF) (hd : 0x80 ≤ d.toNat ∧ d.toNat ≤ 0xBF)
    (rest : Bytes) :
    decodeFrom none (a :: b :: c :: d :: rest) =
      Char.ofNat ((((a.toNat - 0xF0) * 64 + (b.toNat - 0x80)) * 64 + (c.toNat - 0x80)) * 64 +
        (d.toNat - 0x80)) :: decodeFrom none rest := by
  have hp : pending? a.toNat = some (.four a.toNat ha) :=
    (dif_neg (by omega)).trans ((dif_neg (by omega)).trans (dif_pos ha))
  rw [decodeFrom_pending hp]
  obtain ⟨q, ⟨hvalue, hmissing, hleast, hgreatest⟩, hmore⟩ :=
    exists_decodeFrom_more (p := .four a.toNat ha) 1 rfl hb (c :: d :: rest)
  obtain ⟨r, ⟨hvalue', hmissing', hleast', hgreatest'⟩, hmore'⟩ :=
    exists_decodeFrom_more (b := c) 0 hmissing (by rwa [hleast, hgreatest]) (d :: rest)
  rw [hmore, hmore', decodeFrom_last hmissing' (by rwa [hleast', hgreatest']), hvalue', hvalue]
  rfl

/-- The bytes of a character are read as that character, whatever follows. -/
theorem decodeFrom_char (c : Char) (rest : Bytes) :
    decodeFrom none (String.utf8EncodeChar c ++ rest) = c :: decodeFrom none rest := by
  have hvalid : c.val.toNat < 0xD800 ∨ 0xDFFF < c.val.toNat ∧ c.val.toNat < 0x110000 := c.valid
  have hchar {n : Nat} (h : n = c.val.toNat) : Char.ofNat n = c := h ▸ Char.ofNat_toNat c
  have hbyte {m : Nat} (h : m < 256) : (UInt8.ofNat m).toNat = m := by
    simp [Nat.mod_eq_of_lt h]
  simp only [String.utf8EncodeChar]
  generalize c.val.toNat = n at hvalid hchar
  split_ifs with hone htwo hthree
  · have hfirst := hbyte (show n < 256 by omega)
    rw [List.singleton_append, decodeFrom_one (by omega), hchar hfirst]
  · have hfirst := hbyte (show n / 64 % 0x20 + 0xC0 < 256 by omega)
    have hlast := hbyte (show n % 0x40 + 0x80 < 256 by omega)
    rw [List.cons_append, List.singleton_append, decodeFrom_two (by omega) (by omega),
      hchar (by omega)]
  · have hfirst := hbyte (show n / 4096 % 0x10 + 0xE0 < 256 by omega)
    have hsecond := hbyte (show n / 64 % 0x40 + 0x80 < 256 by omega)
    have hlast := hbyte (show n % 0x40 + 0x80 < 256 by omega)
    rw [List.cons_append, List.cons_append, List.singleton_append,
      decodeFrom_three (by omega) (by split <;> split <;> omega) (by omega), hchar (by omega)]
  · have hfirst := hbyte (show n / 262144 % 0x08 + 0xF0 < 256 by omega)
    have hsecond := hbyte (show n / 4096 % 0x40 + 0x80 < 256 by omega)
    have hthird := hbyte (show n / 64 % 0x40 + 0x80 < 256 by omega)
    have hlast := hbyte (show n % 0x40 + 0x80 < 256 by omega)
    rw [List.cons_append, List.cons_append, List.cons_append, List.singleton_append,
      decodeFrom_four (by omega) (by split <;> split <;> omega) (by omega) (by omega),
      hchar (by omega)]

theorem decodeFrom_encode (t : Text) (rest : Bytes) :
    decodeFrom none (encode t ++ rest) = t ++ decodeFrom none rest := by
  induction t with
  | nil => rfl
  | cons c t ih => rw [encode_cons, List.append_assoc, decodeFrom_char, ih, List.cons_append]

/-- The bytes of a text are read as that text. -/
theorem decode_encode (t : Text) : decode (encode t) = t := by
  have hnothing : decodeFrom none [] = [] := rfl
  have h := decodeFrom_encode t []
  rwa [List.append_nil, hnothing, List.append_nil] at h

theorem encode_injective : Function.Injective encode := Function.LeftInverse.injective decode_encode

theorem text?_eq_some_iff : text? bytes = some t ↔ encode t = bytes := by
  unfold text?
  constructor
  · intro h
    split at h
    · next hencode => rwa [← Option.some.inj h]
    · cases h
  · rintro rfl
    rw [decode_encode, if_pos rfl]

/-! ## ASCII -/

def IsAscii (b : UInt8) : Prop := b.toNat < 0x80

instance (b : UInt8) : Decidable (IsAscii b) := inferInstanceAs (Decidable (_ < _))

/-- An ASCII byte is read as its character and leaves nothing pending. -/
theorem read_of_isAscii (state : Option Pending) (h : IsAscii b) :
    read state b.toNat = (decodeFrom state [] ++ [Char.ofNat b.toNat], none) := by
  have hbetween : readBetween b.toNat = ([Char.ofNat b.toNat], none) := if_pos h
  cases state with
  | none => exact hbetween
  | some p =>
    have hbreaks : ¬(p.least ≤ b.toNat ∧ b.toNat ≤ p.greatest) := fun hb =>
      absurd (Nat.le_trans p.isTail hb.1) (Nat.not_le.mpr h)
    rw [read, readWithin, dif_neg hbreaks, hbetween]
    rfl

/-- Bytes are read in two parts at an ASCII byte. -/
theorem decodeFrom_append_ascii (state : Option Pending) (front : Bytes) (h : IsAscii b)
    (rest : Bytes) :
    decodeFrom state (front ++ b :: rest) =
      decodeFrom state front ++ Char.ofNat b.toNat :: decodeFrom none rest := by
  induction front generalizing state with
  | nil =>
    rw [List.nil_append, decodeFrom_cons, read_of_isAscii state h, List.append_assoc]
    rfl
  | cons a front ih =>
    rw [List.cons_append, decodeFrom_cons, ih, decodeFrom_cons, List.append_assoc]

theorem decode_append_ascii (front : Bytes) (h : IsAscii b) (rest : Bytes) :
    decode (front ++ b :: rest) = decode front ++ Char.ofNat b.toNat :: decode rest :=
  decodeFrom_append_ascii none front h rest

theorem toNat_ofNat {n : Nat} (h : n.isValidChar) : (Char.ofNat n).toNat = n := by
  rw [Char.ofNat, dif_pos h]
  rfl

theorem not_mem_decodeFrom_nil (h : c.toNat < 0x80) : c ∉ decodeFrom state [] := by
  rw [decodeFrom_nil]
  split
  · rw [List.mem_singleton]
    rintro rfl
    exact absurd h (by decide)
  · simp

/-- What is read at a byte that is no ASCII is no ASCII either. -/
theorem not_ascii_of_mem_read (h : ¬ IsAscii b) (hc : c ∈ (read state b.toNat).1) :
    0x80 ≤ c.toNat := by
  have hbetween : ∀ c ∈ (readBetween b.toNat).1, 0x80 ≤ c.toNat := by
    rw [readBetween, if_neg (show ¬ b.toNat < 0x80 from h)]
    split
    · simp
    · simp [replacement]
  cases state with
  | none => exact hbetween c hc
  | some p =>
    rw [read, readWithin] at hc
    split at hc
    · next hb =>
      split at hc
      · next hmissing =>
        have hlast : c = Char.ofNat (extended p.value b.toNat) := by simpa using hc
        have hbits : 0 < tailCount p.missing := by rw [hmissing]; decide
        obtain ⟨hlong, hvalid⟩ := p.isChar b.toNat 0 hb.1 hb.2 hbits
        rw [hmissing, tailCount, Nat.mul_one, Nat.add_zero] at hlong hvalid
        rwa [hlast, toNat_ofNat hvalid]
      · simp at hc
    · rcases List.mem_cons.mp hc with rfl | hc
      · decide
      · exact hbetween c hc

/-- At each byte something is read, at once or behind it. -/
theorem read_ne_nil (state : Option Pending) (byte : Nat) :
    (read state byte).1 ≠ [] ∨ (read state byte).2.isSome = true := by
  have hbetween : (readBetween byte).1 ≠ [] ∨ (readBetween byte).2.isSome = true := by
    unfold readBetween
    split
    · simp
    · split <;> simp
  cases state with
  | none => exact hbetween
  | some p =>
    rw [read, readWithin]
    split
    · split <;> simp
    · simp

theorem decodeFrom_ne_nil (state : Option Pending) (h : state.isSome = true ∨ bytes ≠ []) :
    decodeFrom state bytes ≠ [] := by
  induction bytes generalizing state with
  | nil => simp [decodeFrom_nil, h.resolve_right (by simp)]
  | cons b rest ih =>
    rw [decodeFrom_cons]
    rcases read_ne_nil state b.toNat with hread | hpending
    · exact List.append_ne_nil_of_left_ne_nil hread _
    · exact List.append_ne_nil_of_right_ne_nil _ (ih _ (.inl hpending))

/-- A text that is read from bytes ends in ASCII only if the bytes do. -/
theorem not_ascii_of_last (state : Option Pending) (h : ¬ IsAscii b)
    (hc : (decodeFrom state (front ++ [b])).getLast? = some c) : 0x80 ≤ c.toNat := by
  induction front generalizing state with
  | nil =>
    have hmem := List.mem_of_getLast? hc
    rw [List.nil_append, decodeFrom_cons, List.mem_append] at hmem
    rcases hmem with hread | hend
    · exact not_ascii_of_mem_read h hread
    · by_contra hlow
      exact not_mem_decodeFrom_nil (Nat.lt_of_not_le hlow) hend
  | cons a front ih =>
    rw [List.cons_append, decodeFrom_cons,
      List.getLast?_append_of_ne_nil _ (decodeFrom_ne_nil _ (.inr (by simp)))] at hc
    exact ih _ hc

/-! ### ASCII characters -/

theorem encodeChar_of_ascii (h : c.toNat < 0x80) :
    String.utf8EncodeChar c = [UInt8.ofNat c.toNat] :=
  if_pos (show c.toNat ≤ 0x7F by omega)

theorem toNat_ofNat_toNat (h : c.toNat < 0x80) : (UInt8.ofNat c.toNat).toNat = c.toNat := by
  rw [UInt8.toNat_ofNat', Nat.mod_eq_of_lt (by omega)]

theorem isAscii_ofNat (h : c.toNat < 0x80) : IsAscii (UInt8.ofNat c.toNat) := by
  rwa [IsAscii, toNat_ofNat_toNat h]

theorem toNat_char_of_isAscii (h : IsAscii b) : (Char.ofNat b.toNat).toNat = b.toNat :=
  toNat_ofNat (.inl (Nat.lt_trans h (by decide)))

theorem encodeChar_of_isAscii (h : IsAscii b) :
    String.utf8EncodeChar (Char.ofNat b.toNat) = [b] := by
  have hnat := toNat_char_of_isAscii h
  rw [encodeChar_of_ascii (hnat.symm ▸ h), hnat, UInt8.ofNat_toNat]

theorem ofNat_toNat_eq_iff (hc : c.toNat < 0x80) (hb : IsAscii b) :
    UInt8.ofNat c.toNat = b ↔ c = Char.ofNat b.toNat := by
  constructor
  · rintro rfl
    rw [toNat_ofNat_toNat hc, Char.ofNat_toNat]
  · rintro rfl
    rw [toNat_char_of_isAscii hb, UInt8.ofNat_toNat]

/-- An ASCII character that is read stands among the bytes. -/
theorem mem_of_mem_decodeFrom (hc : c.toNat < 0x80) (h : c ∈ decodeFrom state bytes) :
    UInt8.ofNat c.toNat ∈ bytes := by
  induction bytes generalizing state with
  | nil => exact absurd h (not_mem_decodeFrom_nil hc)
  | cons b rest ih =>
    rw [decodeFrom_cons, List.mem_append] at h
    rcases h with hread | hrest
    · by_cases hb : IsAscii b
      · rw [read_of_isAscii state hb, List.mem_append, List.mem_singleton] at hread
        have hchar := hread.resolve_left (not_mem_decodeFrom_nil hc)
        exact List.mem_cons.mpr (.inl ((ofNat_toNat_eq_iff hc hb).mpr hchar))
      · exact absurd hc (Nat.not_lt.mpr (not_ascii_of_mem_read hb hread))
    · exact List.mem_cons_of_mem _ (ih hrest)

theorem decode_concat_ascii (front : Bytes) (h : IsAscii b) :
    decode (front ++ [b]) = decode front ++ [Char.ofNat b.toNat] := by
  rw [decode_append_ascii front h []]
  rfl

theorem encode_concat_ascii (t : Text) (h : c.toNat < 0x80) :
    encode (t ++ [c]) = encode t ++ [UInt8.ofNat c.toNat] := by
  rw [encode_append, encode_cons, encode_nil, List.append_nil, encodeChar_of_ascii h]

/-- Bytes end in those of an ASCII text exactly if they are read as a text that ends in it. -/
theorem suffix_decode_iff {ending : Text} (h : ∀ c ∈ ending, c.toNat < 0x80) :
    ending <:+ decode bytes ↔ encode ending <:+ bytes := by
  induction ending using List.reverseRecOn generalizing bytes with
  | nil => simp
  | append_singleton ending c ih =>
    have hc := h c (by simp)
    have ih (bytes : Bytes) : ending <:+ decode bytes ↔ encode ending <:+ bytes :=
      ih fun c hc => h c (by simp [hc])
    rcases List.eq_nil_or_concat' bytes with rfl | ⟨front, b, rfl⟩
    · simp [decode, decodeFrom_nil, encode_concat_ascii ending hc]
    rw [encode_concat_ascii ending hc]
    by_cases hb : IsAscii b
    · rw [decode_concat_ascii front hb, List.suffix_concat_iff, List.suffix_concat_iff]
      simp [ih, ofNat_toNat_eq_iff hc hb]
    · have hlast : ¬ ending ++ [c] <:+ decode (front ++ [b]) := by
        rintro ⟨before, hbefore⟩
        have hend : (decode (front ++ [b])).getLast? = some c := by
          rw [← hbefore, ← List.append_assoc, List.getLast?_concat]
        exact absurd (not_ascii_of_last none hb hend) (Nat.not_le.mpr hc)
      have hbyte : UInt8.ofNat c.toNat ≠ b := fun h => hb (h ▸ isAscii_ofNat hc)
      refine iff_of_false hlast fun hsuffix => ?_
      simp [List.suffix_concat_iff, hbyte] at hsuffix

/-! ## Bytes that are text -/

/-- Bytes with those of replacement characters for what is no text. -/
def repaired (bytes : Bytes) : Bytes := encode (decode bytes)

/-- Whether bytes are those of a text. -/
def IsText (bytes : Bytes) : Prop := repaired bytes = bytes

instance (bytes : Bytes) : Decidable (IsText bytes) := inferInstanceAs (Decidable (_ = _))

theorem isText_nil : IsText [] := rfl

theorem isText_encode (t : Text) : IsText (encode t) := congrArg encode (decode_encode t)

theorem repaired_append_ascii (front : Bytes) (h : IsAscii b) (rest : Bytes) :
    repaired (front ++ b :: rest) = repaired front ++ b :: repaired rest := by
  rw [repaired, decode_append_ascii front h, encode_append, encode_cons, encodeChar_of_isAscii h]
  rfl

theorem repaired_join (h : IsAscii b) (pieces : List Bytes) :
    repaired (Text.join [b] pieces) = Text.join [b] (pieces.map repaired) := by
  induction pieces with
  | nil => rfl
  | cons piece pieces ih =>
    cases pieces with
    | nil => rfl
    | cons next pieces =>
      rw [Text.join, List.append_assoc, List.singleton_append, repaired_append_ascii piece h, ih]
      simp [Text.join]

/-- A character with an ASCII byte is that of the byte. -/
theorem eq_of_mem_encodeChar (h : IsAscii b) (hb : b ∈ String.utf8EncodeChar c) :
    c = Char.ofNat b.toNat := by
  by_cases hc : c.toNat < 0x80
  · rw [encodeChar_of_ascii hc, List.mem_singleton] at hb
    exact (ofNat_toNat_eq_iff hc h).mp hb.symm
  have hbyte {m : Nat} (hm : 0x80 ≤ m ∧ m < 256) : b ≠ UInt8.ofNat m := by
    rintro rfl
    rw [IsAscii, UInt8.toNat_ofNat', Nat.mod_eq_of_lt hm.2] at h
    omega
  rw [Char.toNat] at hc
  simp only [String.utf8EncodeChar] at hb
  exfalso
  split_ifs at hb
  · omega
  all_goals simp only [List.mem_cons, List.not_mem_nil, or_false] at hb
  · rcases hb with hb | hb <;> exact hbyte (by omega) hb
  · rcases hb with hb | hb | hb <;> exact hbyte (by omega) hb
  · rcases hb with hb | hb | hb | hb <;> exact hbyte (by omega) hb

/-- Bytes that are read as an ASCII text are those of the text. -/
theorem eq_encode_of_decode_eq (h : ∀ c ∈ t, c.toNat < 0x80) (hdecode : decode bytes = t) :
    bytes = encode t := by
  have hsuffix : t <:+ decode bytes := ⟨[], hdecode.symm⟩
  obtain ⟨front, rfl⟩ := (suffix_decode_iff h).mp hsuffix
  have hfront : decode front = [] := by
    cases t with
    | nil => simpa using hdecode
    | cons c t =>
      have hc := h c List.mem_cons_self
      rw [encode_cons, encodeChar_of_ascii hc, List.singleton_append,
        decode_append_ascii front (isAscii_ofNat hc), toNat_ofNat_toNat hc, Char.ofNat_toNat,
        decode_encode] at hdecode
      exact List.append_left_eq_self.mp hdecode
  have hnil : front = [] := by
    by_contra hne
    exact decodeFrom_ne_nil none (.inr hne) hfront
  rw [hnil, List.nil_append]

theorem exists_encode_parts (h : IsAscii b) (ht : encode t = front ++ b :: rest) :
    ∃ s u, encode s = front ∧ encode u = rest := by
  induction t generalizing front with
  | nil => simp at ht
  | cons c t ih =>
    rw [encode_cons] at ht
    rcases List.append_eq_append_iff.mp ht with ⟨more, hfront, hmore⟩ | ⟨more, hchar, hmore⟩
    · obtain ⟨s, u, hs, hu⟩ := ih hmore
      exact ⟨c :: s, u, by rw [encode_cons, hs, hfront], hu⟩
    · cases more with
      | nil =>
        have hrest : encode t = [] ++ b :: rest := hmore.symm
        obtain ⟨s, u, hs, hu⟩ := ih hrest
        exact ⟨c :: s, u, by simp [hs, hchar], hu⟩
      | cons a more =>
        obtain ⟨rfl, hrest⟩ := List.cons.inj hmore
        have hsingle : String.utf8EncodeChar c = [b] := by
          rw [eq_of_mem_encodeChar h (c := c) (by simp [hchar]), encodeChar_of_isAscii h]
        have hparts : front = [] ∧ more = [] := by
          simpa [List.append_eq_singleton_iff] using hchar.symm.trans hsingle
        exact ⟨[], t, hparts.1.symm, by simp [hrest, hparts.2]⟩

theorem mem_of_mem_repaired (h : IsAscii b) (hb : b ∈ repaired bytes) : b ∈ bytes := by
  obtain ⟨c, hc, hchar⟩ := List.mem_flatMap.mp hb
  obtain rfl := eq_of_mem_encodeChar h hchar
  have hnat := toNat_char_of_isAscii h
  have hmem := mem_of_mem_decodeFrom (hnat.symm ▸ h) hc
  rwa [hnat, UInt8.ofNat_toNat] at hmem

theorem repaired_ne_nil (h : bytes ≠ []) : repaired bytes ≠ [] := by
  obtain ⟨c, t, ht⟩ := List.exists_cons_of_ne_nil (decodeFrom_ne_nil none (.inr h))
  rw [repaired, decode, ht, encode_cons]
  exact List.append_ne_nil_of_left_ne_nil (String.utf8EncodeChar_ne_nil) _

/-- No bytes but those of an ASCII text are shown as it. -/
theorem repaired_eq_encode_iff (h : ∀ c ∈ t, c.toNat < 0x80) :
    repaired bytes = encode t ↔ bytes = encode t := by
  constructor
  · exact fun heq => eq_encode_of_decode_eq h (encode_injective heq)
  · rintro rfl
    exact isText_encode t

/-- Bytes are text in two parts at an ASCII byte. -/
theorem isText_append_ascii (h : IsAscii b) :
    IsText (front ++ b :: rest) ↔ IsText front ∧ IsText rest := by
  constructor
  · intro htext
    obtain ⟨s, u, rfl, rfl⟩ := exists_encode_parts h htext
    exact ⟨isText_encode s, isText_encode u⟩
  · rintro ⟨hfront, hrest⟩
    rw [IsText, repaired_append_ascii front h, hfront, hrest]

/-- Joined bytes are text exactly if all their parts are. -/
theorem isText_join (h : IsAscii b) (pieces : List Bytes) :
    IsText (Text.join [b] pieces) ↔ ∀ piece ∈ pieces, IsText piece := by
  induction pieces with
  | nil => simp [Text.join, isText_nil]
  | cons piece pieces ih =>
    cases pieces with
    | nil => simp [Text.join]
    | cons next pieces =>
      rw [Text.join, List.append_assoc, List.singleton_append, isText_append_ascii h, ih,
        ← List.forall_mem_cons]

end TypeInliner.Utf8

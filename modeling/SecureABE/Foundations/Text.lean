import Mathlib.Data.List.Basic
import Mathlib.Data.Nat.Digits.Defs

/-!
# Bytes and text

Rust's byte vectors and arrays, and the functions of the standard library on `str` that the source
calls. A string is a sequence of Unicode scalar values, so each function works on the list of
characters; `utf8` and `fromUtf8` pass between a string and the bytes a file holds.
-/

namespace Rust

/-- `Vec<u8>`. -/
abbrev Bytes := List UInt8

/-- `[u8; n]`: a byte vector that carries its length. -/
abbrev ByteArr (n : ℕ) := {b : Bytes // b.length = n}

/-- `Vec::try_into` to an array. -/
def ByteArr.ofBytes? (n : ℕ) (b : Bytes) : Option (ByteArr n) :=
  if h : b.length = n then some ⟨b, h⟩ else none

@[simp] theorem ByteArr.ofBytes?_val {n : ℕ} (b : ByteArr n) : ByteArr.ofBytes? n b.1 = some b := by
  rw [ByteArr.ofBytes?, dif_pos b.2]

/-! ## UTF-8 -/

/-- `str::as_bytes`. -/
def utf8 (s : String) : Bytes := s.toUTF8.data.toList

/-- `String::from_utf8`. -/
def fromUtf8 (b : Bytes) : Option String := String.fromUTF8? ⟨b.toArray⟩

@[simp] theorem fromUtf8_utf8 (s : String) : fromUtf8 (utf8 s) = some s := by
  change String.fromUTF8? s.toByteArray = some s
  rw [String.fromUTF8?, dif_pos s.isValidUTF8]
  rfl

theorem utf8_injective : Function.Injective utf8 := fun s t h => by
  simpa using congrArg fromUtf8 h

theorem utf8_ofList (l : List Char) : utf8 (String.ofList l) = l.flatMap String.utf8EncodeChar := by
  change (String.ofList l).toByteArray.data.toList = _
  rw [String.toByteArray_ofList, List.utf8Encode]
  simp

/-- What goes before in the bytes of a text is followed by the bytes of a text. -/
theorem exists_of_utf8_append {s t : String} {b : Bytes} (h : utf8 s ++ b = utf8 t) :
    ∃ u : List Char, t.toList = s.toList ++ u ∧ b = utf8 (String.ofList u) := by
  have hbytes : s.toList.utf8Encode ++ ⟨b.toArray⟩ = t.toList.utf8Encode := by
    apply ByteArray.ext
    rw [ByteArray.data_append, ← Array.toList_inj, Array.toList_append, String.utf8Encode_toList,
      String.utf8Encode_toList]
    exact h
  obtain ⟨u, hu⟩ := List.isPrefix_of_utf8Encode_append_eq_utf8Encode _ hbytes
  refine ⟨u, hu.symm, ?_⟩
  have happend : utf8 s ++ b = utf8 s ++ utf8 (String.ofList u) := by
    rw [h, ← String.ofList_toList (s := t), ← hu, utf8_ofList, List.flatMap_append, ← utf8_ofList,
      ← utf8_ofList, String.ofList_toList]
  exact List.append_cancel_left happend

/-- The only character with the byte of a line feed in its encoding is the line feed. -/
theorem eq_newline_of_mem_utf8EncodeChar {c : Char} (h : (10 : UInt8) ∈ String.utf8EncodeChar c) :
    c = '\n' := by
  have hbyte : ∀ {n : ℕ}, (10 : UInt8) = UInt8.ofNat n → n % 256 = 10 := by
    intro n hn
    have htoNat := congrArg UInt8.toNat hn
    rw [UInt8.toNat_ofNat'] at htoNat
    exact htoNat.symm
  have hhigh : ∀ {n : ℕ}, 128 ≤ n → n < 256 → (10 : UInt8) ≠ UInt8.ofNat n := by
    intro n hlow hlt hn
    have := hbyte hn
    omega
  revert h
  fun_cases String.utf8EncodeChar c with
  | case1 v hv =>
    intro h
    have hv10 := hbyte (List.mem_singleton.1 h)
    have hval : c.val.toNat = 10 := by omega
    exact Char.ext (UInt32.toNat_inj.1 hval)
  | case2 v | case3 v | case4 v =>
    intro h
    simp (disch := omega) only [List.mem_cons, List.not_mem_nil, hhigh, or_self] at h

theorem newline_mem_of_mem_utf8 {s : String} (h : (10 : UInt8) ∈ utf8 s) : '\n' ∈ s.toList := by
  rw [← String.ofList_toList (s := s), utf8_ofList] at h
  obtain ⟨c, hc, hbyte⟩ := List.mem_flatMap.1 h
  rwa [eq_newline_of_mem_utf8EncodeChar hbyte] at hc

/-! ## Characters -/

/-- `char::is_whitespace`: the characters with the Unicode property `White_Space`. -/
def isWhitespace (c : Char) : Bool :=
  let n := c.toNat
  (0x9 ≤ n && n ≤ 0xD) || n == 0x20 || n == 0x85 || n == 0xA0 || n == 0x1680 ||
    (0x2000 ≤ n && n ≤ 0x200A) || n == 0x2028 || n == 0x2029 || n == 0x202F || n == 0x205F ||
    n == 0x3000

/-- `str::to_ascii_uppercase`. -/
def toAsciiUppercase (s : List Char) : List Char := s.map Char.toUpper

/-- `str::trim`. -/
def trim (s : List Char) : List Char :=
  ((s.dropWhile isWhitespace).reverse.dropWhile isWhitespace).reverse

theorem trim_of_forall {s : List Char} (h : ∀ c ∈ s, isWhitespace c = false) : trim s = s := by
  have key : ∀ l : List Char, (∀ c ∈ l, isWhitespace c = false) → l.dropWhile isWhitespace = l := by
    intro l hl
    cases l with
    | nil => rfl
    | cons c l => simp [hl c]
  rw [trim, key s h, key _ (by simpa using h), List.reverse_reverse]

/-- The `Debug` of a text, for printable characters. -/
def debugStr (s : String) : String :=
  String.ofList ('"' :: (s.toList.flatMap fun c =>
    if c = '"' ∨ c = '\\' then ['\\', c]
    else if c = '\t' then ['\\', 't']
    else if c = '\n' then ['\\', 'n']
    else if c = '\r' then ['\\', 'r']
    else [c]) ++ ['"'])

/-! ## Numbers -/

/-- A text that ends with a marker, which is no digit, and digits can be taken apart. -/
theorem append_cons_inj {l l' ds ds' : List Char} {c c' : Char} (hc : c.isDigit = false)
    (hc' : c'.isDigit = false) (hds : ∀ d ∈ ds, d.isDigit = true)
    (hds' : ∀ d ∈ ds', d.isDigit = true) (h : l ++ c :: ds = l' ++ c' :: ds') :
    l = l' ∧ c = c' ∧ ds = ds' := by
  rcases List.append_eq_append_iff.1 h with ⟨t, rfl, ht⟩ | ⟨t, rfl, ht⟩
  · cases t with
    | nil => simpa using ht
    | cons d t =>
      -- the marker of the right text would be a digit of the left one
      obtain ⟨-, rfl⟩ := List.cons.inj ht
      have := hds c' (by simp)
      simp [hc'] at this
  · cases t with
    | nil => simpa [eq_comm] using ht
    | cons d t =>
      obtain ⟨-, rfl⟩ := List.cons.inj ht
      have := hds' c (by simp)
      simp [hc] at this

theorem toList_toString (n : ℕ) : (toString n).toList = Nat.toDigits 10 n := by
  rw [Nat.toString_eq_repr, Nat.toList_repr]

theorem isDigit_of_mem_toString {n : ℕ} {c : Char} (h : c ∈ (toString n).toList) :
    c.isDigit = true := by
  rw [toList_toString] at h
  exact Nat.isDigit_of_mem_toDigits (by decide) (by decide) h

theorem toString_nat_injective : Function.Injective (toString : ℕ → String) := by
  intro m n h
  have hdigits := congrArg (fun s => Nat.ofDigitChars 10 s.toList 0) h
  simpa [toList_toString] using hdigits

/-- A character that is not a digit of a base does not occur in a number printed in it. -/
theorem notMem_toDigits {b : ℕ} (hb : 1 < b) {c : Char} (hc : ∀ k < b, Nat.digitChar k ≠ c) (n : ℕ) :
    c ∉ Nat.toDigits b n := by
  induction n using Nat.strongRecOn with
  | ind n ih =>
    rw [Nat.toDigits_eq_if hb]
    split_ifs with hn
    · rw [List.mem_singleton]
      exact (hc n hn).symm
    · rw [List.mem_append, List.mem_singleton, not_or]
      exact ⟨ih _ (Nat.div_lt_self (by omega) hb), (hc _ (Nat.mod_lt n (by omega))).symm⟩

/-! ## Splitting -/

/-- `str::split_once`: the text before the first occurrence of a character and the text after. -/
def splitOnce (sep : Char) : List Char → Option (List Char × List Char)
  | [] => none
  | c :: cs =>
    if c = sep then some ([], cs)
    else (splitOnce sep cs).map fun p => (c :: p.1, p.2)

theorem exists_splitOnce {sep : Char} {l : List Char} (h : sep ∈ l) :
    ∃ k v, splitOnce sep l = some (k, v) ∧ k ++ sep :: v = l := by
  induction l with
  | nil => simp at h
  | cons c l ih =>
    unfold splitOnce
    by_cases hc : c = sep
    · exact ⟨[], l, if_pos hc, by rw [hc, List.nil_append]⟩
    · obtain ⟨k, v, hsplit, rfl⟩ := ih ((List.mem_cons.1 h).resolve_left (Ne.symm hc))
      exact ⟨c :: k, v, by rw [if_neg hc, hsplit, Option.map_some], rfl⟩

/-- `str::split` at a character. -/
def split (sep : Char) : List Char → List (List Char)
  | [] => [[]]
  | c :: cs =>
    if c = sep then [] :: split sep cs
    else match split sep cs with
      | [] => [[c]]
      | w :: ws => (c :: w) :: ws

theorem split_of_notMem {sep : Char} {l : List Char} (h : sep ∉ l) : split sep l = [l] := by
  induction l with
  | nil => rfl
  | cons c l ih =>
    rw [List.mem_cons, not_or] at h
    rw [split, if_neg (Ne.symm h.1), ih h.2]

/-- What is put at the end of a text is at the end of its last part. -/
theorem exists_split_append {sep : Char} {t : List Char} (ht : sep ∉ t) (l : List Char) :
    ∃ ws w, split sep l = ws ++ [w] ∧ split sep (l ++ t) = ws ++ [w ++ t] := by
  induction l with
  | nil => exact ⟨[], [], rfl, split_of_notMem ht⟩
  | cons c l ih =>
    obtain ⟨ws, w, hl, hsplit⟩ := ih
    rw [List.cons_append, split, split]
    by_cases hc : c = sep
    · rw [if_pos hc, if_pos hc, hl, hsplit]
      exact ⟨[] :: ws, w, rfl, rfl⟩
    · rw [if_neg hc, if_neg hc, hl, hsplit]
      cases ws with
      | nil => exact ⟨[], c :: w, rfl, rfl⟩
      | cons v ws => exact ⟨(c :: v) :: ws, w, rfl, rfl⟩

end Rust

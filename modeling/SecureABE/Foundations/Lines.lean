import SecureABE.Foundations.Text
import Mathlib.Data.List.TakeWhile

/-!
# Lines of a file

`BufRead::lines`: the text up to each line feed, without it and without a carriage return in front of
it. What follows the last line feed is a line if there is anything.
-/

namespace Rust

/-- A line without the carriage return at its end. -/
def dropReturn (line : Bytes) : Bytes := if line.getLast? = some 13 then line.dropLast else line

/-- The lines of a text that goes on with `line`. -/
def linesFrom (line : Bytes) : Bytes → List Bytes
  | [] => if line = [] then [] else [line]
  | b :: bs => if b = 10 then dropReturn line :: linesFrom [] bs else linesFrom (line ++ [b]) bs

/-- `BufRead::lines`, before the bytes are taken as text. -/
def byteLines (b : Bytes) : List Bytes := linesFrom [] b

theorem linesFrom_append {b : Bytes} (h : (10 : UInt8) ∉ b) (line rest : Bytes) :
    linesFrom line (b ++ rest) = linesFrom (line ++ b) rest := by
  induction b generalizing line with
  | nil => rw [List.nil_append, List.append_nil]
  | cons c b ih =>
    rw [List.mem_cons, not_or] at h
    rw [List.cons_append, linesFrom, if_neg (Ne.symm h.1), ih h.2, List.append_assoc,
      List.singleton_append]

theorem linesFrom_newline (line rest : Bytes) :
    linesFrom line (10 :: rest) = dropReturn line :: linesFrom [] rest := if_pos rfl

/-- What follows a line feed are lines of their own. -/
theorem linesFrom_append_of_getLast {b : Bytes} (h : b.getLast? = some 10) (line rest : Bytes) :
    linesFrom line (b ++ rest) = linesFrom line b ++ linesFrom [] rest := by
  induction b generalizing line with
  | nil => cases h
  | cons c b ih =>
    cases b with
    | nil =>
      obtain rfl : c = 10 := by simpa using h
      rw [List.singleton_append, linesFrom_newline, linesFrom_newline]
      rfl
    | cons c' b =>
      rw [List.getLast?_cons_cons] at h
      rw [List.cons_append, linesFrom, linesFrom]
      split_ifs
      · rw [ih h, List.cons_append]
      · rw [ih h]

/-- The same of a text that may be empty. -/
theorem byteLines_append {b : Bytes} (h : b = [] ∨ b.getLast? = some 10) (rest : Bytes) :
    byteLines (b ++ rest) = byteLines b ++ byteLines rest := by
  rcases h with rfl | h
  · rfl
  · exact linesFrom_append_of_getLast h [] rest

/-- A line that does not end with a carriage return. -/
theorem dropReturn_of_ne {line : Bytes} (h : line.getLast? ≠ some 13) : dropReturn line = line :=
  if_neg h

/-- A text with a character that is not blank is not blank. -/
theorem trim_ne_nil {s : List Char} {c : Char} (h : c ∈ s) (hc : isWhitespace c = false) :
    trim s ≠ [] := by
  have hdrop : ∀ l : List Char, c ∈ l → c ∈ l.dropWhile isWhitespace := by
    intro l hl
    rw [← List.takeWhile_append_dropWhile (p := isWhitespace) (l := l), List.mem_append] at hl
    apply hl.resolve_left
    intro htake
    rw [List.mem_takeWhile_imp htake] at hc
    cases hc
  unfold trim
  intro hnil
  have hmem : c ∈ ((s.dropWhile isWhitespace).reverse.dropWhile isWhitespace).reverse :=
    List.mem_reverse.2 (hdrop _ (List.mem_reverse.2 (hdrop s h)))
  rw [hnil] at hmem
  cases hmem

theorem utf8_append (s t : String) : utf8 (s ++ t) = utf8 s ++ utf8 t := by
  rw [← String.ofList_toList (s := s), ← String.ofList_toList (s := t), ← String.ofList_append,
    utf8_ofList, utf8_ofList, utf8_ofList, List.flatMap_append]

theorem utf8_newline : utf8 "\n" = [10] := by decide

end Rust

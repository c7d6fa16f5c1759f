import Mathlib.Data.List.ModifyLast
import Mathlib.Data.List.TakeWhile
import Mathlib.Data.UInt

/-!
# Reading text in lines, words and numbers

The parts of the C++ input library that programs read their own text files with:
`getline`, the extraction of words by `operator>>`, and `stoull`. A text is a list of
characters. Lines end with a newline, which the last one may lack; words are maximal
runs of characters that are no white space.
-/

namespace TextStreams

/-- `isspace` of the C locale. -/
def isSpace (c : Char) : Bool :=
  c = ' ' || c = '\t' || c = '\n' || c = '\x0b' || c = '\x0c' || c = '\r'

def isNewline (c : Char) : Bool := c = '\n'

/-- What `getline` yields until it fails. -/
def lines (text : List Char) : List (List Char) :=
  let parts := text.splitOnP isNewline
  if parts.getLast? = some [] then parts.dropLast else parts

/-- What `operator>>` yields until it fails. -/
def words (line : List Char) : List (List Char) :=
  (line.splitOnP isSpace).filter fun word => word ≠ []

/-- `std::stoull` in base 10, which ignores what follows the number and negates modulo
`2 ^ 64`. It throws where no number begins or the number is too large. -/
def stoull (text : List Char) : Option UInt64 :=
  let text := text.dropWhile isSpace
  let (negative, text) := match text with
    | '-' :: rest => (true, rest)
    | '+' :: rest => (false, rest)
    | _ => (false, text)
  let digits := text.takeWhile Char.isDigit
  if digits = [] then none
  else
    let n := Nat.ofDigitChars 10 digits 0
    if 2 ^ 64 ≤ n then none
    else some (if negative then 0 - UInt64.ofNat n else UInt64.ofNat n)

/-- How a number is printed. -/
def decimal (n : Nat) : List Char := Nat.toDigits 10 n

/-- A text that reads as one word. -/
def IsWord (text : List Char) : Prop := text ≠ [] ∧ ∀ c ∈ text, isSpace c = false

instance (text : List Char) : Decidable (IsWord text) :=
  @instDecidableAnd _ _ inferInstance (List.decidableBAll (fun c => isSpace c = false) text)

theorem isNewline_of_not_isSpace {c : Char} (h : isSpace c = false) : isNewline c = false := by
  rw [isNewline, decide_eq_false_iff_not]
  rintro rfl
  cases h

section Lines

/-- The lines up to a newline, and those behind it. -/
theorem lines_append (body rest : List Char) :
    lines (body ++ '\n' :: rest) = body.splitOnP isNewline ++ lines rest := by
  have split : (body ++ '\n' :: rest).splitOnP isNewline =
      body.splitOnP isNewline ++ rest.splitOnP isNewline :=
    List.splitOnP_append_cons body rest rfl
  have last : (body.splitOnP isNewline ++ rest.splitOnP isNewline).getLast? =
      (rest.splitOnP isNewline).getLast? := by
    rw [List.getLast?_append_of_ne_nil _ (List.splitOnP_ne_nil _ _)]
  simp only [lines, split, last]
  split
  · rw [List.dropLast_append_of_ne_nil (List.splitOnP_ne_nil _ _)]
  · rfl

/-- A text made of closed lines. -/
theorem lines_flatMap {α : Type} (body : α → List Char) (l : List α) :
    lines (l.flatMap fun a => body a ++ ['\n']) =
      l.flatMap fun a => (body a).splitOnP isNewline := by
  induction l with
  | nil => rfl
  | cons a l ih =>
    rw [List.flatMap_cons, List.flatMap_cons, List.append_assoc, List.singleton_append,
      lines_append, ih]

end Lines

section Words

theorem words_append (xs ys : List Char) {c : Char} (hc : isSpace c = true) :
    words (xs ++ c :: ys) = words xs ++ words ys := by
  rw [words, List.splitOnP_append_cons xs ys hc, List.filter_append]
  rfl

theorem words_of_isWord {text : List Char} (h : IsWord text) : words text = [text] := by
  rw [words, List.splitOnP_eq_singleton h.2, List.filter_cons_of_pos (by simpa using h.1)]
  rfl

theorem splitOnP_pieces {α : Type} (p : α → Bool) (xs : List α) :
    ∀ piece ∈ xs.splitOnP p, ∀ a ∈ piece, p a = false := by
  induction xs with
  | nil => simp
  | cons x xs ih =>
    rw [List.splitOnP_cons_eq_if_modifyHead]
    split
    · rw [List.forall_mem_cons]
      exact ⟨by simp, ih⟩
    · rename_i hx
      obtain ⟨first, rest, hsplit⟩ := List.exists_cons_of_ne_nil (List.splitOnP_ne_nil p xs)
      rw [hsplit, List.forall_mem_cons] at ih
      rw [hsplit, List.modifyHead_cons, List.forall_mem_cons, List.forall_mem_cons]
      exact ⟨⟨by simpa using hx, ih.1⟩, ih.2⟩

theorem isWord_of_mem_words {line word : List Char} (h : word ∈ words line) : IsWord word := by
  obtain ⟨hpiece, hne⟩ := List.mem_filter.mp h
  exact ⟨by simpa using hne, splitOnP_pieces isSpace line word hpiece⟩

/-- Text in front of the first separator stays in front. -/
theorem splitOnP_prepend {α : Type} {p : α → Bool} {xs : List α} (h : ∀ a ∈ xs, p a = false)
    (ys : List α) : (xs ++ ys).splitOnP p = (ys.splitOnP p).modifyHead (xs ++ ·) := by
  induction xs with
  | nil =>
    obtain ⟨first, rest, hsplit⟩ := List.exists_cons_of_ne_nil (List.splitOnP_ne_nil p ys)
    simp [hsplit]
  | cons x xs ih =>
    rw [List.forall_mem_cons] at h
    obtain ⟨first, rest, hsplit⟩ := List.exists_cons_of_ne_nil (List.splitOnP_ne_nil p ys)
    rw [List.cons_append, List.splitOnP_cons_eq_if_modifyHead, h.1, ih h.2, hsplit]
    rfl

theorem map_modifyHead {α β : Type} {f : α → α} {g : β → β} {m : α → β}
    (h : ∀ a, m (f a) = g (m a)) (l : List α) :
    (l.modifyHead f).map m = (l.map m).modifyHead g := by
  cases l with
  | nil => rfl
  | cons a l => simp [h]

theorem map_modifyLast {α β : Type} {f : α → α} {g : β → β} {m : α → β}
    (h : ∀ a, m (f a) = g (m a)) (l : List α) :
    (l.modifyLast f).map m = (l.map m).modifyLast g := by
  rcases List.eq_nil_or_concat' l with rfl | ⟨before, a, rfl⟩
  · rfl
  · rw [List.modifyLast_concat, List.map_append, List.map_append, List.map_singleton,
      List.map_singleton, List.modifyLast_concat, h]

/-- Text behind the last separator stays behind. -/
theorem splitOnP_append {α : Type} {p : α → Bool} {ys : List α} (h : ∀ a ∈ ys, p a = false)
    (xs : List α) : (xs ++ ys).splitOnP p = (xs.splitOnP p).modifyLast (· ++ ys) := by
  induction xs with
  | nil =>
    rw [List.nil_append, List.splitOnP_eq_singleton h, List.splitOnP_nil]
    exact (List.modifyLast_concat (· ++ ys) [] []).symm
  | cons x xs ih =>
    have cons : ∀ (f : List α → List α) (piece : List α) {l : List (List α)}, l ≠ [] →
        (piece :: l).modifyLast f = piece :: l.modifyLast f :=
      fun f piece _ hl => List.modifyLast_append_of_right_ne_nil f [piece] _ hl
    rw [List.cons_append, List.splitOnP_cons_eq_if_modifyHead,
      List.splitOnP_cons_eq_if_modifyHead, ih]
    split
    · rw [cons _ _ (List.splitOnP_ne_nil p xs)]
    · obtain ⟨first, rest, hsplit⟩ := List.exists_cons_of_ne_nil (List.splitOnP_ne_nil p xs)
      rw [hsplit, List.modifyHead_cons]
      cases rest with
      | nil => rfl
      | cons second rest =>
        rw [cons _ _ (List.cons_ne_nil _ _), cons _ _ (List.cons_ne_nil _ _),
          List.modifyHead_cons]

end Words

section Numbers

theorem isSpace_of_isDigit {c : Char} (h : c.isDigit = true) : isSpace c = false := by
  have hrange : 48 ≤ c.toNat ∧ c.toNat ≤ 57 := by
    simpa [Char.isDigit, UInt32.le_iff_toNat_le] using h
  have hne : ∀ d : Char, d.toNat < 48 → c ≠ d := by
    rintro d hd rfl
    omega
  simp [isSpace, hne ' ' (by decide), hne '\t' (by decide), hne '\n' (by decide),
    hne '\x0b' (by decide), hne '\x0c' (by decide), hne '\r' (by decide)]

theorem isDigit_of_mem_decimal {n : Nat} {c : Char} (h : c ∈ decimal n) : c.isDigit = true :=
  Nat.isDigit_of_mem_toDigits (by decide) (by decide) h

theorem decimal_ne_nil (n : Nat) : decimal n ≠ [] := Nat.toDigits_ne_nil

/-- What is printed for a 64-bit number reads back as that number. -/
theorem stoull_decimal (n : UInt64) : stoull (decimal n.toNat) = some n := by
  obtain ⟨c, rest, hdecimal⟩ := List.exists_cons_of_ne_nil (decimal_ne_nil n.toNat)
  have hdigits : ∀ d ∈ c :: rest, d.isDigit = true :=
    fun d hd => isDigit_of_mem_decimal (hdecimal ▸ hd)
  have hc : c.isDigit = true := hdigits c List.mem_cons_self
  have hspace : isSpace c = false := isSpace_of_isDigit hc
  have hminus : c ≠ '-' := by
    rintro rfl
    exact absurd hc (by decide)
  have hplus : c ≠ '+' := by
    rintro rfl
    exact absurd hc (by decide)
  have htake : (c :: rest).takeWhile Char.isDigit = c :: rest :=
    List.takeWhile_eq_self_iff.mpr hdigits
  have hvalue : Nat.ofDigitChars 10 (c :: rest) 0 = n.toNat := by
    rw [← hdecimal]
    exact Nat.ofDigitChars_ten_toDigits
  have hlt : ¬ 2 ^ 64 ≤ n.toNat := Nat.not_le.mpr n.toNat_lt
  rw [hdecimal, stoull, List.dropWhile_cons_of_neg (by simp [hspace])]
  split
  · rename_i negative text heq
    split at heq
    · rename_i hcons
      exact absurd (List.cons.inj hcons).1 hminus
    · rename_i hcons
      exact absurd (List.cons.inj hcons).1 hplus
    · cases heq
      simp only [htake, hvalue, hlt, if_false, UInt64.ofNat_toNat]
      simp

end Numbers

end TextStreams

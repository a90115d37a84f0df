import Mathlib.Data.List.Infix
import Mathlib.Data.Nat.Init

/-! # Searching and replacing in character strings

Strings are lists of characters. The operations are those of the standard
library's string class that path handling uses: the position of the first
occurrence of a substring, and the replacement of every occurrence.
-/

/-- A character string. -/
abbrev Str := List Char

instance decidableMemStrs (text : Str) (texts : List Str) : Decidable (text ∈ texts) :=
  List.instDecidableMemOfLawfulBEq text texts

namespace Text

/-- The position of the first occurrence of `needle`. -/
def find (needle : Str) : Str → Option Nat
  | [] => if needle = [] then some 0 else none
  | c :: rest =>
    if needle.isPrefixOf (c :: rest) then some 0 else (find needle rest).map (· + 1)

/-- Whether `needle` occurs in `text`. -/
def contains (needle text : Str) : Bool := (find needle text).isSome

/-- Replace every occurrence of `search` by `replacement`, from left to right.
The first argument counts the characters of a replaced occurrence still to be
skipped. -/
def replaceFrom (search replacement : Str) : Nat → Str → Str
  | _, [] => []
  | skip + 1, _ :: rest => replaceFrom search replacement skip rest
  | 0, c :: rest =>
    if search.isPrefixOf (c :: rest) then
      replacement ++ replaceFrom search replacement (search.length - 1) rest
    else c :: replaceFrom search replacement 0 rest

def replaceAll (search replacement text : Str) : Str := replaceFrom search replacement 0 text

/-- The pieces of a string between the occurrences of a separator, empty pieces
included. -/
def split (separator : Char) : Str → List Str
  | [] => [[]]
  | c :: rest =>
    if c = separator then [] :: split separator rest
    else
      match split separator rest with
      | [] => [[c]]
      | piece :: pieces => (c :: piece) :: pieces

theorem split_ne_nil (separator : Char) (text : Str) : split separator text ≠ [] := by
  cases text with
  | nil => exact List.cons_ne_nil _ _
  | cons c rest =>
      unfold split
      split
      · exact List.cons_ne_nil _ _
      · split <;> exact List.cons_ne_nil _ _

/-- A text without the separator is one piece. -/
theorem split_of_not_mem {separator : Char} {text : Str} (absent : separator ∉ text) :
    split separator text = [text] := by
  induction text with
  | nil => rfl
  | cons c rest ih =>
      rw [List.mem_cons, not_or] at absent
      unfold split
      rw [if_neg (fun same => absent.1 same.symm), ih absent.2]

theorem split_cons_separator (separator : Char) (rest : Str) :
    split separator (separator :: rest) = [] :: split separator rest := by
  rw [split, if_pos rfl]

theorem split_cons_of_ne {separator c : Char} {rest piece : Str} {pieces : List Str}
    (differs : c ≠ separator) (rest_pieces : split separator rest = piece :: pieces) :
    split separator (c :: rest) = (c :: piece) :: pieces := by
  rw [split, if_neg differs, rest_pieces]

theorem split_append_separator {separator : Char} (first second : Str) :
    split separator (first ++ separator :: second) =
      split separator first ++ split separator second := by
  induction first with
  | nil => exact split_cons_separator separator second
  | cons c rest ih =>
      rw [List.cons_append]
      by_cases same : c = separator
      · rw [same, split_cons_separator, split_cons_separator, ih, List.cons_append]
      · obtain ⟨piece, pieces, cut⟩ := List.exists_cons_of_ne_nil (split_ne_nil separator rest)
        rw [cut, List.cons_append] at ih
        rw [split_cons_of_ne same ih, split_cons_of_ne same cut, List.cons_append]

/-- The pieces of texts joined by a separator are the texts. -/
theorem split_joined {separator : Char} {first : Str} {others : List Str}
    (absent : ∀ text ∈ first :: others, separator ∉ text) :
    split separator (first ++ others.flatMap (separator :: ·)) = first :: others := by
  induction others generalizing first with
  | nil =>
      rw [List.flatMap_nil, List.append_nil]
      exact split_of_not_mem (absent first List.mem_cons_self)
  | cons second rest ih =>
      obtain ⟨absentFirst, absentRest⟩ := List.forall_mem_cons.mp absent
      rw [List.flatMap_cons, List.cons_append, split_append_separator, ih absentRest,
        split_of_not_mem absentFirst]
      rfl

/-- No piece contains the separator. -/
theorem not_mem_of_mem_split {separator : Char} {text piece : Str}
    (member : piece ∈ split separator text) : separator ∉ piece := by
  induction text generalizing piece with
  | nil =>
      cases List.mem_singleton.mp member
      exact List.not_mem_nil
  | cons c rest ih =>
      by_cases same : c = separator
      · rw [same, split_cons_separator] at member
        rcases List.mem_cons.mp member with first | later
        · rw [first]
          exact List.not_mem_nil
        · exact ih later
      · obtain ⟨head, others, cut⟩ := List.exists_cons_of_ne_nil (split_ne_nil separator rest)
        rw [split_cons_of_ne same cut] at member
        rw [cut] at ih
        rcases List.mem_cons.mp member with first | later
        · rw [first, List.mem_cons, not_or]
          exact ⟨fun equal => same equal.symm, ih List.mem_cons_self⟩
        · exact ih (List.mem_cons_of_mem _ later)

/-- A needle is found exactly when it is a substring. -/
theorem contains_iff {needle text : Str} : contains needle text = true ↔ needle <:+: text := by
  unfold contains
  induction text with
  | nil =>
      unfold find
      split
      · next empty => simp [empty]
      · next nonempty => simp [nonempty]
  | cons c rest ih =>
      unfold find
      split
      · next starts =>
          simp only [Option.isSome_some, true_iff]
          exact (List.isPrefixOf_iff_prefix.mp starts).isInfix
      · next differs =>
          rw [Option.isSome_map, ih, List.infix_cons_iff]
          constructor
          · exact Or.inr
          · rintro (starts | inside)
            · exact (differs (List.isPrefixOf_iff_prefix.mpr starts)).elim
            · exact inside

/-- A string occurs in every string it begins. -/
theorem contains_of_prefix {needle text : Str} (starts : needle <+: text) :
    contains needle text = true := contains_iff.mpr starts.isInfix

/-- A needle whose first character does not come again in it is found where it is put behind a
text without it. -/
theorem find_append {c : Char} {rest pre : Str} (once : c ∉ rest)
    (absent : find (c :: rest) pre = none) (behind : Str) :
    find (c :: rest) (pre ++ (c :: rest) ++ behind) = some pre.length := by
  induction pre with
  | nil =>
      have starts : (c :: rest).isPrefixOf (c :: (rest ++ behind)) = true :=
        List.isPrefixOf_iff_prefix.mpr (List.prefix_append (c :: rest) behind)
      rw [List.nil_append, List.cons_append, find, if_pos starts]
      rfl
  | cons d others ih =>
      rw [find] at absent
      split at absent
      · cases absent
      · next apart =>
        have later : find (c :: rest) others = none := Option.map_eq_none_iff.mp absent
        have differs : ¬ (c :: rest).isPrefixOf (d :: (others ++ (c :: rest) ++ behind)) = true := by
          intro starts
          have whole : c :: rest <+: (d :: others) ++ c :: (rest ++ behind) := by
            have same := List.isPrefixOf_iff_prefix.mp starts
            rw [List.append_assoc] at same
            exact same
          rcases List.prefix_or_prefix_of_prefix whole (List.prefix_append _ _) with
            inside | ⟨crossing, crosses⟩
          · exact apart (List.isPrefixOf_iff_prefix.mpr inside)
          · cases crossing with
            | nil =>
                rw [List.append_nil] at crosses
                exact apart (List.isPrefixOf_iff_prefix.mpr (crosses ▸ List.prefix_rfl))
            | cons e crossing =>
                -- The needle would have its first character again where the text ends.
                rw [← crosses, List.prefix_append_right_inj] at whole
                have again := (List.cons_prefix_cons.mp whole).1
                have tail : others ++ e :: crossing = rest := (List.cons.inj crosses).2
                rw [← tail, again] at once
                exact absurd (List.mem_append_right _ List.mem_cons_self) once
        rw [List.cons_append, List.cons_append, find, if_neg differs, ih later]
        rfl

/-- The pieces together have the characters that are no separators. -/
theorem flatten_split (separator : Char) (text : Str) :
    (split separator text).flatten = text.filter (· ≠ separator) := by
  induction text with
  | nil => rfl
  | cons c rest ih =>
      by_cases same : c = separator
      · rw [same, split_cons_separator, List.flatten_cons, ih, List.filter_cons_of_neg (by simp)]
        rfl
      · obtain ⟨piece, pieces, cut⟩ := List.exists_cons_of_ne_nil (split_ne_nil separator rest)
        rw [cut] at ih
        have kept : decide (c ≠ separator) = true := decide_eq_true same
        rw [split_cons_of_ne same cut, List.filter_cons, if_pos kept, ← ih]
        rfl

section Replace

variable {search replacement : Str}

/-- What is left of an occurrence is skipped. -/
theorem replaceFrom_skip (occurrence rest : Str) :
    replaceFrom search replacement occurrence.length (occurrence ++ rest) =
      replaceAll search replacement rest := by
  induction occurrence with
  | nil => rfl
  | cons c others ih => exact ih

theorem replaceAll_prefix (nonempty : search ≠ []) (rest : Str) :
    replaceAll search replacement (search ++ rest) =
      replacement ++ replaceAll search replacement rest := by
  obtain ⟨c, others, rfl⟩ := List.exists_cons_of_ne_nil nonempty
  have starts : (c :: others).isPrefixOf (c :: (others ++ rest)) = true :=
    List.isPrefixOf_iff_prefix.mpr ⟨rest, rfl⟩
  rw [List.cons_append, replaceAll, replaceFrom, if_pos starts, List.length_cons,
    Nat.add_sub_cancel, replaceFrom_skip]

/-- No occurrence begins with another character. -/
theorem replaceAll_cons {c first : Char} {others : Str} (differs : c ≠ first) (rest : Str) :
    replaceAll (first :: others) replacement (c :: rest) =
      c :: replaceAll (first :: others) replacement rest := by
  have apart : ¬ (first :: others).isPrefixOf (c :: rest) = true := by
    intro starts
    exact differs (List.cons_prefix_cons.mp (List.isPrefixOf_iff_prefix.mp starts)).1.symm
  rw [replaceAll, replaceFrom, if_neg apart]
  rfl

/-- A character that an occurrence can only begin with cuts a text into parts that are
treated apart. -/
theorem replaceFrom_append {c : Char} (outside : c ∉ search.tail) (before behind : Str)
    {skip : Nat} (within : skip ≤ before.length) :
    replaceFrom search replacement skip (before ++ c :: behind) =
      replaceFrom search replacement skip before ++
        replaceAll search replacement (c :: behind) := by
  induction before generalizing skip with
  | nil =>
      rw [Nat.le_zero.mp within]
      rfl
  | cons d rest ih =>
      cases skip with
      | succ skip => exact ih (Nat.le_of_succ_le_succ within)
      | zero =>
          have sameStart : search.isPrefixOf (d :: (rest ++ c :: behind)) =
              search.isPrefixOf (d :: rest) := by
            rw [Bool.eq_iff_iff, List.isPrefixOf_iff_prefix, List.isPrefixOf_iff_prefix,
              ← List.cons_append]
            refine ⟨fun starts => ?_, fun starts => starts.trans (List.prefix_append _ _)⟩
            rcases List.prefix_or_prefix_of_prefix starts (List.prefix_append _ _) with
              inside | ⟨others, crosses⟩
            · exact inside
            · cases others with
              | nil =>
                  rw [← crosses, List.append_nil]
              | cons e others =>
                  -- An occurrence that crosses would have the character behind its first.
                  rw [← crosses, List.prefix_append_right_inj] at starts
                  have same := (List.cons_prefix_cons.mp starts).1
                  rw [← crosses, same, List.cons_append, List.tail_cons] at outside
                  exact absurd (List.mem_append_right _ List.mem_cons_self) outside
          rw [List.cons_append, replaceFrom, replaceFrom, sameStart]
          by_cases starts : search.isPrefixOf (d :: rest) = true
          · have fits : search.length - 1 ≤ rest.length := by
              have le := (List.isPrefixOf_iff_prefix.mp starts).length_le
              rw [List.length_cons] at le
              omega
            rw [if_pos starts, if_pos starts, ih fits, List.append_assoc]
          · rw [if_neg starts, if_neg starts, ih (Nat.zero_le _), List.cons_append]

theorem replaceAll_append {c : Char} (outside : c ∉ search.tail) (before behind : Str) :
    replaceAll search replacement (before ++ c :: behind) =
      replaceAll search replacement before ++ replaceAll search replacement (c :: behind) :=
  replaceFrom_append outside before behind (Nat.zero_le _)

/-- A separator put before every occurrence leaves the other characters as they are. -/
theorem filter_replaceFrom {separator : Char} (nonempty : search ≠ [])
    {text : Str} (absent : separator ∉ text) (skip : Nat) :
    (replaceFrom search (separator :: search) skip text).filter (· ≠ separator) =
      text.drop skip := by
  have keeps : ∀ {other : Str}, separator ∉ other → other.filter (· ≠ separator) = other := by
    intro other fresh
    refine List.filter_eq_self.mpr fun c member => decide_eq_true fun same => ?_
    exact fresh (same ▸ member)
  induction text generalizing skip with
  | nil =>
      cases skip <;> rfl
  | cons c rest ih =>
      rw [List.mem_cons, not_or] at absent
      cases skip with
      | succ skip => exact ih absent.2 skip
      | zero =>
          rw [replaceFrom]
          split
          · next starts =>
              obtain ⟨behind, split⟩ := List.isPrefixOf_iff_prefix.mp starts
              obtain ⟨first, others, rfl⟩ := List.exists_cons_of_ne_nil nonempty
              have fresh : separator ∉ first :: others := by
                intro member
                have inside : separator ∈ c :: rest := split ▸ List.mem_append_left _ member
                rcases List.mem_cons.mp inside with same | later
                · exact absent.1 same
                · exact absent.2 later
              injection split with same tail
              have dropped : List.drop others.length rest = behind := by
                rw [← tail]
                exact List.drop_left
              rw [List.filter_append, List.filter_cons_of_neg (by simp), keeps fresh,
                ih absent.2, List.length_cons, Nat.add_sub_cancel, dropped, List.drop_zero,
                ← tail, ← same]
              rfl
          · have kept : decide (c ≠ separator) = true := decide_eq_true (Ne.symm absent.1)
            rw [List.filter_cons, if_pos kept, ih absent.2]
            rfl

end Replace

end Text

/-! ## Decimal numerals

The digits a natural number is written with are read back as the number, and the first of them
is a zero for the number zero alone.
-/

namespace Digits

/-- The number that is read from digits, the most significant first. -/
def value (digits : List Char) : Nat :=
  digits.foldl (fun number c => 10 * number + (c.toNat - '0'.toNat)) 0

theorem value_toDigits (number : Nat) : value (Nat.toDigits 10 number) = number :=
  Nat.ofDigitChars_ten_toDigits

theorem isDigit_of_mem {number : Nat} {c : Char} (member : c ∈ Nat.toDigits 10 number) :
    c.isDigit = true :=
  Nat.isDigit_of_mem_toDigits (by decide) (by decide) member

theorem digitChar_ne_zero : ∀ digit < 10, 0 < digit → some (Nat.digitChar digit) ≠ some '0' := by
  decide

/-- Behind the first digit of a number that is not zero there may be zeros, but it is none. -/
theorem head_ne_zero {number : Nat} (positive : 0 < number) :
    (Nat.toDigits 10 number).head? ≠ some '0' := by
  induction number using Nat.strongRecOn with
  | ind number ih =>
      by_cases small : number < 10
      · rw [Nat.toDigits_of_lt_base small]
        exact digitChar_ne_zero number small positive
      · have more : 10 ≤ number := Nat.le_of_not_lt small
        have less : number / 10 < number := Nat.div_lt_self positive (by decide)
        have first := ih _ less (Nat.div_pos more (by decide))
        rw [Nat.toDigits_of_base_le (by decide) more]
        cases digits : Nat.toDigits 10 (number / 10) with
        | nil => exact absurd digits Nat.toDigits_ne_nil
        | cons c rest =>
            rw [digits] at first
            exact first

/-- A numeral that begins with a zero is no longer than this digit. -/
theorem length_eq_one_of_head {number : Nat} (zero : (Nat.toDigits 10 number).head? = some '0') :
    (Nat.toDigits 10 number).length = 1 := by
  rcases Nat.eq_zero_or_pos number with none | positive
  · rw [none]
    rfl
  · exact absurd zero (head_ne_zero positive)

end Digits

import FlexConfig.Foundation.Text
import Mathlib.Data.List.TakeWhile

/-! # Texts as C functions see them

A C function sees of a text what is before its first NUL. `strtok` goes through such a text token
by token: it skips separators, and a token reaches to the next separator or to the end.
-/

namespace Text

def NUL : Char := Char.ofNat 0

/-- What a C function sees of a text. -/
def c_str (text : Str) : Str := text.takeWhile (· ≠ NUL)

/-- One call of `strtok`: the next token, and what is left for the calls after it. -/
def strtok (separator : Char) (text : Str) : Option (Str × Str) :=
  match text.dropWhile (· = separator) with
  | [] => none
  | first :: rest =>
    some ((first :: rest).takeWhile (· ≠ separator),
      ((first :: rest).dropWhile (· ≠ separator)).drop 1)

/-- The tokens that call after call returns. -/
def tokensFrom (separator : Char) : Nat → Str → List Str
  | 0, _ => []
  | fuel + 1, text =>
    match strtok separator text with
    | none => []
    | some (token, rest) => token :: tokensFrom separator fuel rest

theorem notMem_takeWhile_ne (c : Char) (text : Str) : c ∉ text.takeWhile (· ≠ c) := by
  intro member
  have differs := List.mem_takeWhile_imp member
  exact of_decide_eq_true differs rfl

section CStr

variable {text : Str}

theorem nul_notMem_c_str : NUL ∉ c_str text := notMem_takeWhile_ne NUL text

theorem c_str_of_notMem (absent : NUL ∉ text) : c_str text = text := by
  refine List.takeWhile_eq_self_iff.mpr fun c member => decide_eq_true ?_
  rintro rfl
  exact absent member

/-- A text without a NUL is seen together with what is seen of the text behind it. -/
theorem c_str_append_of_notMem {first : Str} (absent : NUL ∉ first) (second : Str) :
    c_str (first ++ second) = first ++ c_str second := by
  refine List.takeWhile_append_of_pos fun c member => decide_eq_true ?_
  rintro rfl
  exact absent member

/-- Nothing is seen behind a text with a NUL. -/
theorem c_str_append_of_mem {first : Str} (inside : NUL ∈ first) (second : Str) :
    c_str (first ++ second) = c_str first := by
  induction first with
  | nil => cases inside
  | cons c rest ih =>
      unfold c_str at ih ⊢
      rw [List.cons_append, List.takeWhile_cons, List.takeWhile_cons]
      by_cases ends : c = NUL
      · have stops : ¬ decide (c ≠ NUL) = true := fun goes => absurd ends (of_decide_eq_true goes)
        rw [if_neg stops, if_neg stops]
      · have later : NUL ∈ rest := (List.mem_cons.mp inside).resolve_left fun same => ends same.symm
        rw [ih later]

theorem c_str_isPrefix (text : Str) : c_str text <+: text := List.takeWhile_prefix _

end CStr

section Tokens

variable {separator : Char} {text : Str}

/-- The pieces of a text between its separators, without the empty ones. -/
def pieces (separator : Char) (text : Str) : List Str := (split separator text).filter (· ≠ [])

theorem pieces_nil : pieces separator [] = [] := rfl

theorem pieces_cons_separator (rest : Str) :
    pieces separator (separator :: rest) = pieces separator rest := by
  rw [pieces, split_cons_separator, List.filter_cons_of_neg (by simp)]
  rfl

theorem pieces_append_separator (first second : Str) :
    pieces separator (first ++ separator :: second) =
      pieces separator first ++ pieces separator second := by
  rw [pieces, split_append_separator, List.filter_append]
  rfl

/-- The pieces together have the characters that are no separators. -/
theorem flatten_pieces (separator : Char) (text : Str) :
    (pieces separator text).flatten = text.filter (· ≠ separator) := by
  rw [← flatten_split]
  exact List.flatten_filter_ne_nil

theorem pieces_dropWhile :
    pieces separator (text.dropWhile (· = separator)) = pieces separator text := by
  induction text with
  | nil => rfl
  | cons c rest ih =>
      by_cases same : c = separator
      · rw [List.dropWhile_cons, if_pos (decide_eq_true same), ih, same, pieces_cons_separator]
      · rw [List.dropWhile_cons, if_neg fun skips => same (of_decide_eq_true skips)]

theorem pieces_token {token : Str} (nonempty : token ≠ []) (absent : separator ∉ token) :
    pieces separator token = [token] := by
  rw [pieces, split_of_not_mem absent, List.filter_cons_of_pos (by simpa using nonempty)]
  rfl

theorem pieces_token_append {token : Str} (nonempty : token ≠ []) (absent : separator ∉ token)
    (rest : Str) : pieces separator (token ++ separator :: rest) = token :: pieces separator rest := by
  rw [pieces_append_separator, pieces_token nonempty absent]
  rfl

/-- A text that does not start with a separator has its first token up to the next one. -/
theorem pieces_cons {first : Char} (differs : first ≠ separator) (rest : Str) :
    pieces separator (first :: rest) = (first :: rest).takeWhile (· ≠ separator) ::
      pieces separator (((first :: rest).dropWhile (· ≠ separator)).drop 1) := by
  have whole : (first :: rest).takeWhile (· ≠ separator) ++
      (first :: rest).dropWhile (· ≠ separator) = first :: rest := List.takeWhile_append_dropWhile
  have nonempty : (first :: rest).takeWhile (· ≠ separator) ≠ [] := by
    rw [List.takeWhile_cons, if_pos (decide_eq_true differs)]
    exact List.cons_ne_nil _ _
  have absent := notMem_takeWhile_ne separator (first :: rest)
  have ends := List.head?_dropWhile_not (fun c => decide (c ≠ separator)) (first :: rest)
  cases behind : (first :: rest).dropWhile (· ≠ separator) with
  | nil =>
      rw [behind, List.append_nil] at whole
      rw [whole] at absent ⊢
      exact pieces_token (List.cons_ne_nil _ _) absent
  | cons c later =>
      rw [behind] at ends whole
      have same : c = separator := Decidable.not_not.mp (of_decide_eq_false ends)
      rw [same] at whole
      conv_lhs => rw [← whole]
      exact pieces_token_append nonempty absent later

/-- What a call of `strtok` returns is the next piece that is not empty. -/
theorem strtok_cases (separator : Char) (text : Str) :
    (strtok separator text = none ∧ pieces separator text = []) ∨
      ∃ token rest, strtok separator text = some (token, rest) ∧
        pieces separator text = token :: pieces separator rest ∧ rest.length < text.length := by
  have starts := List.head?_dropWhile_not (fun c => decide (c = separator)) text
  have shorter := (List.dropWhile_sublist (l := text) fun c => decide (c = separator)).length_le
  rw [← pieces_dropWhile, strtok]
  cases skipped : text.dropWhile (· = separator) with
  | nil => exact .inl ⟨rfl, rfl⟩
  | cons first rest =>
      rw [skipped] at starts shorter
      have differs : first ≠ separator := of_decide_eq_false starts
      refine .inr ⟨_, _, rfl, pieces_cons differs rest, ?_⟩
      have kept := (List.dropWhile_sublist (l := rest) fun c => decide (c ≠ separator)).length_le
      rw [List.dropWhile_cons, if_pos (decide_eq_true differs), List.length_drop]
      rw [List.length_cons] at shorter
      omega

/-- Call after call `strtok` returns the pieces that are not empty. -/
theorem tokensFrom_eq {fuel : Nat} (enough : text.length < fuel) :
    tokensFrom separator fuel text = pieces separator text := by
  induction fuel generalizing text with
  | zero => exact absurd enough (Nat.not_lt_zero _)
  | succ fuel ih =>
      rw [tokensFrom]
      rcases strtok_cases separator text with ⟨ended, none⟩ | ⟨token, rest, returned, cut, shorter⟩
      · rw [ended, none]
      · rw [returned, cut]
        exact congrArg (token :: ·) (ih (by omega))

end Tokens

end Text

import FlexConfig.Foundation.Strtok
import FlexConfig.Tree.Node

/-! # Paths into a configuration tree

A path text is cut into tokens at its separators by `strtok`, which sees the text up to its
first NUL, a node is printed as the path of names down to it, and a path is followed by
looking for each token in turn.
The search for a token goes through all descendants of the node reached so far,
not only its children, and stops the siblings of a match but no outer loop, so a
match found later replaces one found earlier.
-/

namespace FlexConfig.XPath

open Text

def ITEM_NAME_SUBSCRIPT : Str := "[@key]".toList
def REFERENCE_TOKEN : Str := "@".toList
def ROOT_TOKEN : Str := "/".toList
def SUBSCRIPT_LEFT_PARENTHESIS : Str := "[".toList
def SUBSCRIPT_RIGHT_PARENTHESIS : Str := "]".toList
def SEPARATOR : Str := "/".toList
def WILDCARD_TOKEN : Str := "*".toList

/-- `XPath::parse` calls `strtok` until no token is left. -/
def parse (xpath : Str) : List Str := tokensFrom '/' ((c_str xpath).length + 1) (c_str xpath)

/-- Join tokens to an absolute path. -/
def mergeTokens (tokens : List Str) : Str :=
  tokens.foldl (fun xpath token =>
    (if xpath.getLast? = some '/' then xpath else xpath ++ SEPARATOR) ++ token) ROOT_TOKEN

/-- How a name is printed after its parent: a separator goes before it unless it
is a subscript, and a name that is the separator itself is left out. -/
def printName (name : Str) : Str :=
  if name = SEPARATOR then []
  else if name.head? = some '[' then name
  else SEPARATOR ++ name

/-- The path text of the node at a location. -/
def toString (location : Location) : Str := location.flatMap printName

section Printed

/-- What is read are the pieces between the separators, up to the first NUL. -/
theorem parse_eq (xpath : Str) : parse xpath = pieces '/' (c_str xpath) :=
  tokensFrom_eq (Nat.lt_succ_self _)

theorem parse_of_notMem {xpath : Str} (absent : NUL ∉ xpath) : parse xpath = pieces '/' xpath := by
  rw [parse_eq, c_str_of_notMem absent]

/-- A text without a NUL and what follows a separator behind it are read one after the other. -/
theorem parse_append {first : Str} (absent : NUL ∉ first) (second : Str) :
    parse (first ++ '/' :: second) = parse first ++ parse second := by
  have bounded : NUL ∉ first ++ ['/'] := by
    rw [List.mem_append, not_or]
    exact ⟨absent, by decide⟩
  have seen : c_str (first ++ '/' :: second) = first ++ '/' :: c_str second := by
    rw [List.append_cons, c_str_append_of_notMem bounded, ← List.append_cons]
  rw [parse_eq, seen, pieces_append_separator, parse_of_notMem absent, parse_eq]

theorem parse_cons_separator (text : Str) : parse ('/' :: text) = parse text :=
  parse_append List.not_mem_nil text

/-- Nothing is read behind a NUL. -/
theorem parse_append_of_mem {first : Str} (inside : NUL ∈ first) (second : Str) :
    parse (first ++ second) = parse first := by
  rw [parse_eq, c_str_append_of_mem inside, ← parse_eq]

/-- A token of a path: it is not empty and has no separator. -/
def IsToken (name : Str) : Prop := name ≠ [] ∧ '/' ∉ name

theorem isToken_of_mem_pieces {xpath token : Str} (member : token ∈ pieces '/' xpath) :
    IsToken token := by
  obtain ⟨piece, nonempty⟩ := List.mem_filter.mp member
  exact ⟨of_decide_eq_true nonempty, not_mem_of_mem_split piece⟩

theorem isToken_of_mem_parse {xpath token : Str} (member : token ∈ parse xpath) :
    IsToken token := by
  rw [parse_eq] at member
  exact isToken_of_mem_pieces member

/-- What is read has no NUL. -/
theorem nul_notMem_of_mem_parse {xpath token : Str} (member : token ∈ parse xpath) :
    NUL ∉ token := by
  rw [parse_eq] at member
  intro inside
  have inPieces : NUL ∈ (pieces '/' (c_str xpath)).flatten :=
    List.mem_flatten.mpr ⟨token, member, inside⟩
  rw [flatten_pieces] at inPieces
  exact nul_notMem_c_str (List.mem_filter.mp inPieces).1

/-- Of a text with a NUL the pieces before the one with the first NUL are read, and the beginning of
that one. -/
theorem parse_of_mem {xpath : Str} (inside : NUL ∈ xpath) :
    ∃ above name below, pieces '/' xpath = above ++ name :: below ∧ (∀ piece ∈ above, NUL ∉ piece) ∧
      NUL ∈ name ∧ parse xpath = above ++ pieces '/' (c_str name) := by
  match xpath with
  | [] => cases inside
  | c :: rest =>
      by_cases separates : c = '/'
      · have later : NUL ∈ rest := by
          refine (List.mem_cons.mp inside).resolve_left fun same => ?_
          exact absurd (same.trans separates) (by decide)
        obtain ⟨above, name, below, cut, read⟩ := parse_of_mem later
        refine ⟨above, name, below, ?_, ?_⟩
        · rw [separates, pieces_cons_separator, cut]
        · rw [separates, parse_cons_separator]
          exact read
      · have whole : (c :: rest).takeWhile (· ≠ '/') ++ (c :: rest).dropWhile (· ≠ '/') = c :: rest :=
          List.takeWhile_append_dropWhile
        have cut := pieces_cons separates rest
        have nonempty : (c :: rest).takeWhile (· ≠ '/') ≠ [] := by
          rw [List.takeWhile_cons, if_pos (decide_eq_true separates)]
          exact List.cons_ne_nil _ _
        have ends := List.head?_dropWhile_not (fun d => decide (d ≠ '/')) (c :: rest)
        have absent := notMem_takeWhile_ne '/' (c :: rest)
        generalize (c :: rest).takeWhile (· ≠ '/') = token at whole cut nonempty absent
        by_cases first : NUL ∈ token
        · refine ⟨[], token, _, cut, fun _ impossible => (by cases impossible), first, ?_⟩
          rw [← whole, parse_append_of_mem first, parse_eq]
          rfl
        · cases behind : (c :: rest).dropWhile (· ≠ '/') with
          | nil =>
              rw [behind, List.append_nil] at whole
              exact absurd (whole ▸ inside) first
          | cons d later =>
              rw [behind] at whole ends cut
              have same : d = '/' := Decidable.not_not.mp (of_decide_eq_false ends)
              rw [same] at whole
              have further : NUL ∈ later := by
                rw [← whole] at inside
                rcases List.mem_append.mp inside with here | there
                · exact absurd here first
                · exact (List.mem_cons.mp there).resolve_left (by decide)
              have shorter : later.length < rest.length + 1 := by
                rw [← List.length_cons, ← whole, List.length_append, List.length_cons]
                omega
              obtain ⟨above, name, below, cutLater, clean, isHere, read⟩ := parse_of_mem further
              refine ⟨token :: above, name, below, ?_, ?_, isHere, ?_⟩
              · rw [cut, List.drop_one, List.tail_cons, cutLater]
                rfl
              · exact List.forall_mem_cons.mpr ⟨first, clean⟩
              · rw [← whole, parse_append first, parse_of_notMem first, pieces_token nonempty absent,
                  read]
                rfl
termination_by xpath.length

theorem IsToken.ne_separator {name : Str} (token : IsToken name) : name ≠ SEPARATOR := by
  intro same
  rw [same] at token
  exact token.2 List.mem_cons_self

/-- A subscript is printed behind the token before it, without a separator. -/
def IsSubscript (name : Str) : Prop := name.head? = some '['

theorem printName_of_subscript {name : Str} (token : IsToken name) (subscript : IsSubscript name) :
    printName name = name := by
  unfold printName
  unfold IsSubscript at subscript
  rw [if_neg token.ne_separator, if_pos subscript]

theorem printName_of_not_subscript {name : Str} (token : IsToken name)
    (plain : ¬ IsSubscript name) : printName name = '/' :: name := by
  unfold printName
  unfold IsSubscript at plain
  rw [if_neg token.ne_separator, if_neg plain]
  rfl

/-- Tokens none of which but the first is a subscript are the pieces of what is printed. -/
theorem pieces_toString {tokens : List Str} (proper : ∀ name ∈ tokens, IsToken name)
    (plain : ∀ name ∈ tokens.tail, ¬ IsSubscript name) :
    pieces '/' (toString tokens) = tokens := by
  cases tokens with
  | nil => rfl
  | cons first rest =>
      obtain ⟨properFirst, properRest⟩ := List.forall_mem_cons.mp proper
      have printed : toString rest = rest.flatMap ('/' :: ·) := by
        refine List.flatMap_congr fun name member => ?_
        exact printName_of_not_subscript (properRest name member) (plain name member)
      have cut : split '/' (first ++ rest.flatMap ('/' :: ·)) = first :: rest :=
        split_joined fun name member => (proper name member).2
      have kept : (first :: rest).filter (· ≠ []) = first :: rest :=
        List.filter_eq_self.mpr fun name member => decide_eq_true (proper name member).1
      have unfolded : toString (first :: rest) = printName first ++ toString rest := rfl
      rw [unfolded, printed, pieces]
      by_cases subscript : IsSubscript first
      · rw [printName_of_subscript properFirst subscript, cut, kept]
      · rw [printName_of_not_subscript properFirst subscript, List.cons_append, split,
          if_pos rfl, cut, List.filter_cons_of_neg (by simp), kept]

/-- Printing adds no NUL. -/
theorem nul_mem_toString_iff {location : Location} :
    NUL ∈ toString location ↔ ∃ name ∈ location, NUL ∈ name := by
  rw [toString, List.mem_flatMap]
  refine exists_congr fun name => and_congr_right fun _ => ?_
  have apart : NUL ≠ '/' := by decide
  unfold printName SEPARATOR
  split
  · next same =>
      rw [same]
      exact iff_of_false List.not_mem_nil fun inside => apart (List.mem_singleton.mp inside)
  · split
    · exact Iff.rfl
    · rw [List.mem_append]
      exact or_iff_right fun inside => apart (List.mem_singleton.mp inside)

/-- Such tokens are read back as they are, where none of them has a NUL. -/
theorem parse_toString {tokens : List Str} (proper : ∀ name ∈ tokens, IsToken name)
    (plain : ∀ name ∈ tokens.tail, ¬ IsSubscript name) (clean : ∀ name ∈ tokens, NUL ∉ name) :
    parse (toString tokens) = tokens := by
  have absent : NUL ∉ toString tokens := by
    rw [nul_mem_toString_iff]
    exact fun ⟨name, member, inside⟩ => clean name member inside
  rw [parse_of_notMem absent, pieces_toString proper plain]

/-- Tokens print like tokens of which only the first may be a subscript. -/
theorem exists_plain_tokens {tokens : List Str} (proper : ∀ name ∈ tokens, IsToken name) :
    ∃ merged, (∀ name ∈ merged, IsToken name) ∧ (∀ name ∈ merged.tail, ¬ IsSubscript name) ∧
      toString merged = toString tokens := by
  induction tokens with
  | nil => exact ⟨[], proper, fun _ impossible => (by cases impossible), rfl⟩
  | cons first rest ih =>
      obtain ⟨properFirst, properRest⟩ := List.forall_mem_cons.mp proper
      obtain ⟨merged, properMerged, plain, printed⟩ := ih properRest
      have unfolded : toString (first :: rest) = printName first ++ toString rest := rfl
      rw [unfolded, ← printed]
      cases merged with
      | nil =>
          refine ⟨[first], ?_, fun _ impossible => (by cases impossible), rfl⟩
          exact List.forall_mem_singleton.mpr properFirst
      | cons second others =>
          obtain ⟨properSecond, properOthers⟩ := List.forall_mem_cons.mp properMerged
          by_cases subscript : IsSubscript second
          · have properJoined : IsToken (first ++ second) := by
              refine ⟨fun empty => properFirst.1 (List.append_eq_nil_iff.mp empty).1, ?_⟩
              rw [List.mem_append, not_or]
              exact ⟨properFirst.2, properSecond.2⟩
            have sameHead : (first ++ second).head? = first.head? :=
              List.head?_append_of_ne_nil _ properFirst.1
            refine ⟨(first ++ second) :: others,
              List.forall_mem_cons.mpr ⟨properJoined, properOthers⟩, plain, ?_⟩
            have joined : printName (first ++ second) = printName first ++ second := by
              unfold printName
              rw [if_neg properJoined.ne_separator, if_neg properFirst.ne_separator, sameHead]
              split
              · rfl
              · rfl
            change printName (first ++ second) ++ toString others =
              printName first ++ (printName second ++ toString others)
            rw [joined, printName_of_subscript properSecond subscript, List.append_assoc]
          · refine ⟨first :: second :: others, List.forall_mem_cons.mpr ⟨properFirst, properMerged⟩,
              ?_, rfl⟩
            exact List.forall_mem_cons.mpr ⟨subscript, plain⟩

/-- Printing what was read from a printed path changes nothing more. -/
theorem toString_parse_toString (xpath : Str) :
    toString (parse (toString (parse xpath))) = toString (parse xpath) := by
  have tokens : ∀ name ∈ parse xpath, IsToken name := fun _ member => isToken_of_mem_parse member
  obtain ⟨merged, proper, plain, printed⟩ := exists_plain_tokens tokens
  have clean : ∀ name ∈ merged, NUL ∉ name := by
    intro name member inside
    have printedInside := nul_mem_toString_iff.mpr ⟨name, member, inside⟩
    rw [printed] at printedInside
    obtain ⟨token, fromParse, inToken⟩ := nul_mem_toString_iff.mp printedInside
    exact nul_notMem_of_mem_parse fromParse inToken
  rw [← printed, parse_toString proper plain clean]

end Printed

/-- The name of the node at a location. -/
def nameOf (location : Location) : Str := location.getLast?.getD ROOT_TOKEN

theorem nameOf_concat (location : Location) (name : Str) : nameOf (location ++ [name]) = name := by
  simp [nameOf]

/-- The name of the parent of the node at a location. -/
def parentNameOf (location : Location) : Str := nameOf location.dropLast

/-- `NodeFinder::visit`. -/
def NodeFinder.visit (wanted : Str) (found : Option Located) (visited : Located) :
    Bool × Option Located :=
  if nameOf visited.location = wanted then (false, some visited) else (true, found)

/-- Look for a name among the descendants of a node. -/
def findByName (wanted : Str) (start : Located) : Option Located :=
  start.node.accept (NodeFinder.visit wanted) start.location none

/-- The name before a subscript and the subscript's content. The content reaches
to the end of the token when the brackets stand in the wrong order. -/
def subscriptParts (key : Str) (left right : Nat) : Str × Str :=
  (key.take left,
    if left < right then (key.drop (left + 1)).take (right - left - 1) else key.drop (left + 1))

/-- Follow tokens from a node. -/
def selectTokens : List Str → Located → Option Located
  | [], visiting => some visiting
  | key :: rest, visiting =>
    if key = "value".toList ∧ rest = [] then some visiting
    else
      match Text.find SUBSCRIPT_LEFT_PARENTHESIS key, Text.find SUBSCRIPT_RIGHT_PARENTHESIS key with
      | some left, some right =>
        let parts := subscriptParts key left right
        (findByName parts.1 visiting).bind fun container =>
          (findByName parts.2 container).bind fun item => selectTokens rest item
      | _, _ => (findByName key visiting).bind fun next => selectTokens rest next

/-- The node a path selects in a tree. -/
def select (root : Node) (xpath : Str) : Option Located :=
  if xpath = [] then none else selectTokens (parse xpath) ⟨[], root⟩

/-- The name of the node by which `[@key]` is replaced for the node at `start`:
the parent of the nearest node named `wanted` on the way up, and the node's own
name where no ancestor has that name. -/
def resolveKeyName (start : Location) (wanted : Str) : Str :=
  match (start.reverse ++ [ROOT_TOKEN]).dropWhile (· ≠ wanted) with
  | _ :: parent :: _ => parent
  | _ => start.getLast?.getD []

/-- The token whose node tells the key: the one after the last `[@key]`, or
`[@key]` itself at the end of the path. -/
def wantedChild (tokens : List Str) : Str :=
  ((tokens.reverse.takeWhile (· ≠ ITEM_NAME_SUBSCRIPT)).getLast?).getD ITEM_NAME_SUBSCRIPT

/-- Evaluate `[@key]` in a path for the node at `start`. -/
def evaluateXPath (start : Location) (xpath : Str) : Attempt Str :=
  match xpath with
  | [] => .error .raised
  | first :: _ =>
    if first ≠ '/' then .ok []
    else
      let tokens := parse (Text.replaceAll ITEM_NAME_SUBSCRIPT (SEPARATOR ++ ITEM_NAME_SUBSCRIPT)
        xpath)
      let keyName := resolveKeyName start (wantedChild tokens)
      .ok ((tokens.map fun token => if token = ITEM_NAME_SUBSCRIPT then keyName else token).flatMap
        fun token => SEPARATOR ++ token)

end FlexConfig.XPath

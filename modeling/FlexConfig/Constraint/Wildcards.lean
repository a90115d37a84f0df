import FlexConfig.Constraint.Resolution
import FlexConfig.Tree.Select

/-! # Wildcards in constraints

`xpath_any` and `xpath_all` list the nodes below the node before the wildcard, put what
stands behind the wildcard behind each of them, and keep what leads to a node. They cut
the separator behind the wildcard off without looking for it, and have nothing to list
where there is no wildcard.
-/

namespace FlexConfig.Constraint

open XPath Procedure Node Peg

section Subnodes

theorem printName_eq_nil_iff {name : Str} : printName name = [] ↔ name = SEPARATOR := by
  unfold printName
  split
  · next same => exact ⟨fun _ => same, fun _ => rfl⟩
  · next other =>
    refine ⟨fun empty => ?_, fun same => absurd same other⟩
    split at empty
    · next subscript =>
      rw [empty] at subscript
      cases subscript
    · cases empty

theorem toString_append (above below : Location) :
    XPath.toString (above ++ below) = XPath.toString above ++ XPath.toString below :=
  List.flatMap_append

/-- The path of a node further down is no longer that of the node above. -/
theorem toString_below {location rest : Location} {name : Str} (named : name ≠ SEPARATOR) :
    XPath.toString (location ++ name :: rest) ≠ XPath.toString location := by
  intro same
  have empty : XPath.toString (name :: rest) = [] := by
    rw [toString_append] at same
    exact List.append_right_eq_self.mp same
  exact named (printName_eq_nil_iff.mp (List.append_eq_nil_iff.mp empty).1)

/-- What is listed of the nodes below a node: those with a parent that has the same path. -/
def isSubnode (location : Location) (visited : Located) : Bool :=
  XPath.toString visited.location.dropLast = XPath.toString location

theorem isSubnode_child (location : Location) (name : Str) (child : Node) :
    isSubnode location ⟨location ++ [name], child⟩ = true := by
  unfold isSubnode
  rw [List.dropLast_concat]
  exact decide_eq_true rfl

/-- The path that is listed of a child. -/
def childXPath (parent : Located) (name : Str) : Str :=
  XPath.toString parent.location ++ SEPARATOR ++ name

theorem filter_children {location : Location} {entries : List (Str × Node)}
    (named : ∀ entry ∈ entries, entry.1 ≠ SEPARATOR) :
    ((preorderChildren location entries).filter (isSubnode location)).map (nameOf ·.location) =
      entries.map Prod.fst := by
  have nothing : ∀ entry ∈ entries,
      (entry.2.preorder (location ++ [entry.1])).filter (isSubnode location) = [] := by
    intro entry member
    refine List.filter_eq_nil_iff.mpr fun visited inside => ?_
    obtain ⟨next, rest, below⟩ := exists_below (location ++ [entry.1]) entry.2 inside
    have above : visited.location.dropLast = location ++ entry.1 :: (next :: rest).dropLast := by
      rw [below, List.dropLast_append_of_ne_nil (List.cons_ne_nil _ _), List.append_assoc]
      rfl
    intro listed
    have same : XPath.toString visited.location.dropLast = XPath.toString location :=
      of_decide_eq_true listed
    rw [above] at same
    exact toString_below (named entry member) same
  rw [filter_preorderChildren (isSubnode_child location), List.map_flatMap,
    List.map_eq_flatMap]
  refine List.flatMap_congr fun entry member => ?_
  rw [nothing entry member, List.map_cons, nameOf_concat]
  rfl

/-- Every child is listed. -/
theorem childXPath_mem {parent : Located} {entry : Str × Node}
    (child : entry ∈ parent.node.children) :
    childXPath parent entry.1 ∈ getAllSubnodes parent := by
  obtain ⟨location, node⟩ := parent
  cases node with
  | leaf value => cases child
  | composite entries =>
      refine List.mem_reverse.mpr (List.mem_map.mpr ⟨⟨location ++ [entry.1], entry.2⟩, ?_, ?_⟩)
      · exact List.mem_filter.mpr ⟨mem_preorderChildren child, isSubnode_child ..⟩
      · dsimp only
        rw [nameOf_concat]
        rfl

/-- Where no child is named like the separator the children are listed, the last first. -/
theorem getAllSubnodes_eq {parent : Located}
    (named : ∀ entry ∈ parent.node.children, entry.1 ≠ SEPARATOR) :
    getAllSubnodes parent =
      (parent.node.children.map fun entry => childXPath parent entry.1).reverse := by
  obtain ⟨location, node⟩ := parent
  cases node with
  | leaf value => rfl
  | composite entries =>
      have children : ((preorderChildren location entries).filter (isSubnode location)).map
          (nameOf ·.location) = entries.map Prod.fst := filter_children named
      have names :=
        congrArg (List.map fun name => XPath.toString location ++ SEPARATOR ++ name) children
      rw [List.map_map, List.map_map] at names
      exact congrArg List.reverse names

/-- Nothing is listed exactly where there are no children. -/
theorem getAllSubnodes_eq_nil_iff {parent : Located} :
    getAllSubnodes parent = [] ↔ parent.node.children = [] := by
  obtain ⟨location, node⟩ := parent
  cases node with
  | leaf value => exact ⟨fun _ => rfl, fun _ => rfl⟩
  | composite entries =>
      have kept : getAllSubnodes ⟨location, .composite entries⟩ = [] ↔
          (preorderChildren location entries).filter (isSubnode location) = [] :=
        List.reverse_eq_nil_iff.trans List.map_eq_nil_iff
      exact kept.trans (filter_preorderChildren_eq_nil_iff (isSubnode_child location))

end Subnodes

section Follow

/-- Tokens that do not end with `value` are followed before those behind them. -/
theorem selectTokens_append {tokens more : List Str} (named : tokens.getLast? ≠ some "value".toList)
    (further : more ≠ []) (start : Located) :
    selectTokens (tokens ++ more) start =
      (selectTokens tokens start).bind (selectTokens more) := by
  induction tokens generalizing start with
  | nil => rfl
  | cons key rest ih =>
      have notLast : ¬ (key = "value".toList ∧ rest = []) := by
        rintro ⟨rfl, rfl⟩
        exact named rfl
      have notLastMore : ¬ (key = "value".toList ∧ rest ++ more = []) := by
        rintro ⟨_, empty⟩
        exact further (List.append_eq_nil_iff.mp empty).2
      have namedRest : rest.getLast? ≠ some "value".toList := by
        intro last
        rw [List.getLast?_cons, last] at named
        exact named rfl
      rw [List.cons_append, selectTokens, selectTokens, if_neg notLast, if_neg notLastMore]
      split
      · rw [Option.bind_assoc]
        refine Option.bind_congr fun container _ => ?_
        rw [Option.bind_assoc]
        exact Option.bind_congr fun item _ => ih namedRest item
      · rw [Option.bind_assoc]
        exact Option.bind_congr fun next _ => ih namedRest next

/-- The path that is printed of a node at a path leads to the same node, neither of the two has
a NUL, and no child of the node is named like the separator. -/
structure LeadsBackTo (root : Node) (pre : Str) (parent : Located) : Prop where
  named : (parse pre).getLast? ≠ some "value".toList
  clean : Text.NUL ∉ pre
  back : selectTokens (parse (XPath.toString parent.location)) ⟨[], root⟩ = some parent
  backNamed : (parse (XPath.toString parent.location)).getLast? ≠ some "value".toList
  backClean : Text.NUL ∉ XPath.toString parent.location
  children : ∀ entry ∈ parent.node.children, entry.1 ≠ SEPARATOR

def LeadsBack (root : Node) (pre : Str) : Prop :=
  ∀ parent ∈ select root pre, LeadsBackTo root pre parent

theorem select_of_ne_nil {root : Node} {xpath : Str} (nonempty : xpath ≠ []) :
    select root xpath = selectTokens (parse xpath) ⟨[], root⟩ := if_neg nonempty

/-- A path that leads from child to child by plain names is the path printed of its node. -/
theorem leadsBack_of_get {root node : Node} {pre : Str} (absolute : pre ≠ [])
    (clean : Text.NUL ∉ pre) (leads : root.get (parse pre) = some node)
    (names : ∀ name ∈ parse pre, IsPlainName name)
    (children : ∀ entry ∈ node.children, entry.1 ≠ SEPARATOR) : LeadsBack root pre := by
  have plain := plain_of_names names
  have selected : select root pre = some ⟨parse pre, node⟩ := by
    rw [select_of_ne_nil absolute]
    exact selectTokens_of_get plain leads
  have unsubscripted : ∀ name ∈ (parse pre).tail, ¬ IsSubscript name := fun name member starts =>
    (names name (List.mem_of_mem_tail member)).unsubscripted.1 (List.mem_of_mem_head? starts)
  have cleanNames : ∀ name ∈ parse pre, Text.NUL ∉ name := fun _ member =>
    nul_notMem_of_mem_parse member
  have printed :=
    parse_toString (fun name member => (names name member).token) unsubscripted cleanNames
  have cleanPrinted : Text.NUL ∉ XPath.toString (parse pre) := by
    rw [nul_mem_toString_iff]
    exact fun ⟨name, member, inside⟩ => cleanNames name member inside
  intro parent isParent
  cases selected.symm.trans isParent
  have back : selectTokens (parse pre) ⟨[], root⟩ = some ⟨parse pre, node⟩ :=
    selectTokens_of_get plain leads
  exact ⟨plain.notValue, clean, by rw [printed]; exact back, by rw [printed]; exact plain.notValue,
    cleanPrinted, children⟩

/-- What is put behind the path of a node and behind its printed path leads to the same. -/
theorem LeadsBack.select_behind {root : Node} {pre : Str} {parent : Located}
    (leads : LeadsBack root pre) (isParent : select root pre = some parent) (behind : Str) :
    select root (XPath.toString parent.location ++ '/' :: behind) =
      select root (pre ++ '/' :: behind) := by
  have leadsBack := leads parent isParent
  have nonempty : pre ≠ [] := by
    rintro rfl
    cases isParent
  rw [select_of_ne_nil nonempty] at isParent
  rw [select_of_ne_nil (by simp), select_of_ne_nil (by simp), 
    parse_append leadsBack.backClean, parse_append leadsBack.clean]
  by_cases ends : parse behind = []
  · rw [ends, List.append_nil, List.append_nil, leadsBack.back, isParent]
  · rw [selectTokens_append leadsBack.backNamed ends, selectTokens_append leadsBack.named ends,
      leadsBack.back, isParent]

end Follow

section Written

/-- A path without a wildcard. -/
def NoWildcard (xpath : Str) : Prop := Text.find WILDCARD_XPATH_NODE xpath = none

instance (xpath : Str) : Decidable (NoWildcard xpath) := inferInstanceAs (Decidable (_ = none))

theorem find_wildcard {pre : Str} (plain : NoWildcard pre) (behind : Str) :
    Text.find WILDCARD_XPATH_NODE (pre ++ WILDCARD_XPATH_NODE ++ behind) = some pre.length :=
  Text.find_append (by decide) plain behind

/-- What stands behind a wildcard: nothing, or a separator and a path. -/
def behind (post : Option Str) : Str := (post.map ('/' :: ·)).getD []

/-- `pre/*`, or `pre/*/post`. -/
def wildcardXPath (pre : Str) (post : Option Str) : Str :=
  pre ++ WILDCARD_XPATH_NODE ++ behind post

theorem withReferenceName_concat (node : Location) (text : Str) (c : Char) :
    withReferenceName node (text ++ [c]) =
      text ++ if c = '@' then nameOf node else [c] := by
  unfold withReferenceName
  rw [List.getLast?_concat, List.dropLast_concat]
  by_cases reference : c = '@'
  · rw [if_pos (congrArg some reference), if_pos reference]
  · rw [if_neg fun same => reference (Option.some.inj same), if_neg reference]

/-- A trailing `@` in what stands behind the wildcard is replaced by the node's name. -/
theorem withReferenceName_wildcard (node : Location) (pre : Str) (post : Option Str) :
    withReferenceName node (wildcardXPath pre post) =
      wildcardXPath pre (post.map (withReferenceName node)) := by
  cases post with
  | none =>
      have ends : wildcardXPath pre none = (pre ++ ['/']) ++ ['*'] := by
        simp [wildcardXPath, behind, WILDCARD_XPATH_NODE]
      rw [ends, withReferenceName_concat, if_neg (by decide), ← ends]
      rfl
  | some post =>
      rcases List.eq_nil_or_concat' post with rfl | ⟨text, c, rfl⟩
      · have ends : wildcardXPath pre (some []) = (pre ++ WILDCARD_XPATH_NODE) ++ ['/'] := rfl
        rw [ends, withReferenceName_concat, if_neg (by decide), ← ends]
        rfl
      · have ends : wildcardXPath pre (some (text ++ [c])) =
            (pre ++ WILDCARD_XPATH_NODE ++ '/' :: text) ++ [c] := by
          simp [wildcardXPath, behind]
        rw [ends, withReferenceName_concat, Option.map_some, withReferenceName_concat]
        simp [wildcardXPath, behind]

end Written

section Lists

variable (checker : ConstraintChecker) (node : Location)

/-- The argument of a function of one path. -/
def argument (xpath : Str) : SemanticValues Any := ⟨[.string xpath], [], []⟩

/-- The children of the node at a path. -/
def childrenAt (root : Node) (pre : Str) : List (Str × Node) :=
  ((select root pre).map (·.node.children)).getD []

theorem wildcardXPaths_absent {xpath : Str} (absent : NoWildcard (withReferenceName node xpath)) :
    wildcardXPaths checker node (argument xpath) = .ok [] := by
  unfold NoWildcard at absent
  by_cases empty : xpath = []
  · simp [wildcardXPaths, argument, valueAt, Any.asString, empty, bind, Except.bind, pure,
      Except.pure]
  · simp [wildcardXPaths, argument, valueAt, Any.asString, empty, absent, bind, Except.bind, pure,
      Except.pure]

theorem withReferenceName_ne_nil {pre : Str} {post : Option Str} : wildcardXPath pre post ≠ [] := by
  simp [wildcardXPath, WILDCARD_XPATH_NODE]

/-- The paths of a wildcard, where there is a node before it and where there is none. -/
theorem wildcardXPaths_eq {pre : Str} (plain : NoWildcard pre) (post : Option Str) :
    wildcardXPaths checker node (argument (wildcardXPath pre post)) =
      ((select checker.root_config pre).elim (.ok []) fun parent =>
        (behindWildcard (wildcardXPath pre (post.map (withReferenceName node))) pre.length
          (getAllSubnodes parent)).map fun resolved =>
            resolved.filter fun xpath => (select checker.root_config xpath).isSome) := by
  have nonempty : wildcardXPath pre post ≠ [] := withReferenceName_ne_nil
  have found := find_wildcard plain (behind (post.map (withReferenceName node)))
  have before : (wildcardXPath pre (post.map (withReferenceName node))).take pre.length = pre := by
    unfold wildcardXPath
    rw [List.append_assoc, List.take_left]
  have located : Text.find WILDCARD_XPATH_NODE (wildcardXPath pre
      (post.map (withReferenceName node))) = some pre.length := found
  cases selected : select checker.root_config pre with
  | none =>
      simp [wildcardXPaths, argument, valueAt, Any.asString, nonempty, withReferenceName_wildcard,
        located, before, selected, bind, Except.bind, pure, Except.pure]
  | some parent =>
      simp only [wildcardXPaths, argument, valueAt, Any.asString, nonempty,
        withReferenceName_wildcard, located, before, selected, List.getD_cons_zero, if_false, bind,
        Except.bind, Option.elim_some]
      cases behindWildcard (wildcardXPath pre (post.map (withReferenceName node))) pre.length
        (getAllSubnodes parent) <;> rfl

/-- A path that ends with the wildcard leaves nothing to cut off behind it. -/
theorem wildcardXPaths_end {pre : Str} (plain : NoWildcard pre) :
    wildcardXPaths checker node (argument (wildcardXPath pre none)) =
      if childrenAt checker.root_config pre = [] then .ok [] else .error (.raised .raised) := by
  rw [wildcardXPaths_eq checker node plain]
  unfold childrenAt
  cases select checker.root_config pre with
  | none => rfl
  | some parent =>
      have short : (wildcardXPath pre none).length < pre.length + 3 := by
        simp [wildcardXPath, behind, WILDCARD_XPATH_NODE]
      rw [Option.elim_some, Option.map_some, Option.getD_some, Option.map_none, behindWildcard]
      by_cases childless : parent.node.children = []
      · have nothing := getAllSubnodes_eq_nil_iff.mpr childless
        rw [nothing, if_neg (by simp), if_pos childless]
        rfl
      · have listed : getAllSubnodes parent ≠ [] := fun nothing =>
          childless (getAllSubnodes_eq_nil_iff.mp nothing)
        rw [if_pos ⟨listed, short⟩, if_neg childless]
        rfl

/-- What stands behind the wildcard is put behind every child. -/
theorem wildcardXPaths_behind {pre : Str} (plain : NoWildcard pre) (post : Str)
    (leads : LeadsBack checker.root_config pre) :
    ∃ parent_name, wildcardXPaths checker node (argument (wildcardXPath pre (some post))) =
      .ok (((childrenAt checker.root_config pre).reverse.map fun entry =>
        parent_name ++ SEPARATOR ++ entry.1 ++ SEPARATOR ++ withReferenceName node post).filter
          fun xpath => (select checker.root_config xpath).isSome) ∧
      ∀ parent ∈ select checker.root_config pre, parent_name = XPath.toString parent.location := by
  rw [wildcardXPaths_eq checker node plain]
  unfold childrenAt
  cases selected : select checker.root_config pre with
  | none => exact ⟨[], rfl, fun _ impossible => nomatch impossible⟩
  | some parent =>
      refine ⟨XPath.toString parent.location, ?_, fun _ same => by cases same; rfl⟩
      have long : ¬ (wildcardXPath pre (some (withReferenceName node post))).length <
          pre.length + 3 := by
        simp [wildcardXPath, behind, WILDCARD_XPATH_NODE]
      have cut : (wildcardXPath pre (some (withReferenceName node post))).drop (pre.length + 3) =
          withReferenceName node post := by
        have split : wildcardXPath pre (some (withReferenceName node post)) =
            (pre ++ "/*/".toList) ++ withReferenceName node post := by
          simp [wildcardXPath, behind, WILDCARD_XPATH_NODE]
        rw [split]
        exact List.drop_left' (by simp)
      rw [Option.elim_some, Option.map_some, Option.map_some, Option.getD_some, behindWildcard,
        if_neg fun both => long both.2, cut, getAllSubnodes_eq (leads parent selected).children,
        ← List.map_reverse, List.map_map]
      rfl

end Lists

section Counts

variable (checker : ConstraintChecker) (node : Location)

/-- The children of the node at `pre` for which `pre/c`, or `pre/c/post`, selects a node. -/
def leading (root : Node) (node : Location) (pre : Str) (post : Option Str) : List (Str × Node) :=
  (childrenAt root pre).filter fun entry =>
    (select root (pre ++ '/' :: (entry.1 ++ behind (post.map (withReferenceName node))))).isSome

/-- `count` of `xpath_all` is the number of children that lead to a node, and `exists` of
`xpath_any` whether there are any. -/
def CountsChildren (pre : Str) (post : Option Str) : Prop :=
  ∃ all any, XPathAllHandle checker node (argument (wildcardXPath pre post)) = .ok all ∧
    XPathAnyHandle checker node (argument (wildcardXPath pre post)) = .ok any ∧
      CountHandle checker ⟨[all], [], []⟩ =
        .ok (.number (leading checker.root_config node pre post).length) ∧
      ExistsHandle checker ⟨[any], [], []⟩ =
        .ok (.bool (0 < (leading checker.root_config node pre post).length))

/-- `exists` of `xpath_any`, of `xpath_all` and of `xpath` are the same. -/
def AnswersAlike (xpath : Str) : Prop :=
  ∃ all any one holds, XPathAllHandle checker node (argument xpath) = .ok all ∧
    XPathAnyHandle checker node (argument xpath) = .ok any ∧
      XPathHandle checker node (argument xpath) = .ok one ∧
        ExistsHandle checker ⟨[all], [], []⟩ = .ok (.bool holds) ∧
          ExistsHandle checker ⟨[any], [], []⟩ = .ok (.bool holds) ∧
            ExistsHandle checker ⟨[one], [], []⟩ = .ok (.bool holds)

variable {checker node}

theorem XPathAllHandle_ok {xpath : Str} {xpaths : List Str}
    (listed : wildcardXPaths checker node (argument xpath) = .ok xpaths) :
    XPathAllHandle checker node (argument xpath) = .ok (.xpaths xpaths) := by
  unfold XPathAllHandle
  rw [listed]
  rfl

theorem XPathAnyHandle_ok {xpath : Str} {xpaths : List Str}
    (listed : wildcardXPaths checker node (argument xpath) = .ok xpaths) :
    XPathAnyHandle checker node (argument xpath) = .ok (.xpaths (xpaths.take 1)) := by
  unfold XPathAnyHandle
  rw [listed]
  rfl

/-- Paths that lead to nodes are counted, and one of them is enough. -/
theorem countsChildren_of_listed {pre : Str} {post : Option Str} {xpaths : List Str}
    (listed : wildcardXPaths checker node (argument (wildcardXPath pre post)) =
      .ok (xpaths.filter fun xpath => (select checker.root_config xpath).isSome))
    (as_many : (xpaths.filter fun xpath => (select checker.root_config xpath).isSome).length =
      (leading checker.root_config node pre post).length) :
    CountsChildren checker node pre post := by
  refine ⟨_, _, XPathAllHandle_ok listed, XPathAnyHandle_ok listed, ?_, ?_⟩
  · have counted : CountHandle checker ⟨[.xpaths (xpaths.filter fun xpath =>
        (select checker.root_config xpath).isSome)], [], []⟩ =
          .ok (.number ((xpaths.filter fun xpath =>
            (select checker.root_config xpath).isSome).filter fun xpath =>
              (select checker.root_config xpath).isSome).length) := rfl
    rw [counted, List.filter_filter]
    simp only [Bool.and_self]
    rw [as_many]
  · rw [← as_many]
    have found : ∀ paths : List Str, ExistsHandle checker ⟨[.xpaths paths], [], []⟩ =
        .ok (.bool (paths.any fun xpath => (select checker.root_config xpath).isSome)) :=
      fun _ => rfl
    rw [found]
    cases kept : xpaths.filter fun xpath => (select checker.root_config xpath).isSome with
    | nil => rfl
    | cons first others =>
        have member : first ∈ xpaths.filter fun xpath =>
            (select checker.root_config xpath).isSome := kept ▸ List.mem_cons_self
        have leads := (List.mem_filter.mp member).2
        simp [leads]

/-- A path that ends with the wildcard is answered only where there is nothing to list. -/
theorem countsChildren_end_iff {pre : Str} (plain : NoWildcard pre) :
    CountsChildren checker node pre none ↔ childrenAt checker.root_config pre = [] := by
  have listed := wildcardXPaths_end checker node plain
  constructor
  · rintro ⟨all, _, answered, _⟩
    by_contra children
    rw [if_neg children] at listed
    unfold XPathAllHandle at answered
    rw [listed] at answered
    cases answered
  · intro childless
    rw [if_pos childless] at listed
    have nothing : wildcardXPaths checker node (argument (wildcardXPath pre none)) =
        .ok (([] : List Str).filter fun xpath => (select checker.root_config xpath).isSome) :=
      listed
    refine countsChildren_of_listed nothing ?_
    unfold leading
    rw [childless]
    rfl

/-- What stands behind the wildcard is looked for behind every child. -/
theorem countsChildren_behind {pre : Str} (plain : NoWildcard pre) (post : Str)
    (leads : LeadsBack checker.root_config pre) : CountsChildren checker node pre (some post) := by
  obtain ⟨parent_name, listed, named⟩ := wildcardXPaths_behind checker node plain post leads
  refine countsChildren_of_listed listed ?_
  rw [List.filter_map, List.length_map, List.filter_reverse, List.length_reverse]
  refine congrArg List.length (List.filter_congr fun entry member => ?_)
  cases selected : select checker.root_config pre with
  | none =>
      unfold childrenAt at member
      rw [selected] at member
      cases member
  | some parent =>
      have same := leads.select_behind selected (entry.1 ++ '/' :: withReferenceName node post)
      rw [← named parent selected] at same
      have joined : parent_name ++ SEPARATOR ++ entry.1 ++ SEPARATOR ++ withReferenceName node post =
          parent_name ++ '/' :: (entry.1 ++ '/' :: withReferenceName node post) := by
        simp [SEPARATOR]
      rw [Function.comp_apply, joined, same]
      rfl

/-- Only of the empty text there is no path. -/
theorem exists_xpathPath (node : Location) {xpath : Str} (nonempty : xpath ≠ []) :
    ∃ path, xpathPath node xpath = .ok path := by
  obtain ⟨c, rest, rfl⟩ := List.exists_cons_of_ne_nil nonempty
  by_cases absolute : c = '/'
  · subst absolute
    exact ⟨_, xpathPath_absolute node rest⟩
  · exact ⟨[], congrArg passing (if_pos absolute)⟩

/-- Without a wildcard nothing is listed. -/
theorem answersAlike_iff {xpath : Str} (plain : NoWildcard (withReferenceName node xpath)) :
    AnswersAlike checker node xpath ↔
      ∀ path, xpathPath node xpath = .ok path → select checker.root_config path = none := by
  have listed := wildcardXPaths_absent checker node plain
  have all := XPathAllHandle_ok listed
  have any := XPathAnyHandle_ok listed
  have nothing : ExistsHandle checker ⟨[.xpaths []], [], []⟩ = .ok (.bool false) := rfl
  by_cases empty : xpath = []
  · subst empty
    refine ⟨fun _ path impossible => (by cases impossible), fun _ => ?_⟩
    exact ⟨_, _, .xpaths [], false, all, any, rfl, nothing, nothing, nothing⟩
  · obtain ⟨path, resolved⟩ := exists_xpathPath node empty
    have one : XPathHandle checker node (argument xpath) = _ :=
      XPathHandle_eq checker node empty resolved [] []
    constructor
    · rintro ⟨_, _, _, holds, answeredAll, _, answeredOne, existsAll, _, existsOne⟩ other same
      cases resolved.symm.trans same
      cases all.symm.trans answeredAll
      cases one.symm.trans answeredOne
      cases nothing.symm.trans existsAll
      by_contra found
      obtain ⟨node, selected⟩ := Option.ne_none_iff_exists'.mp found
      rw [selected] at existsOne
      have leads : ExistsHandle checker ⟨[.xpaths [path]], [], []⟩ =
          .ok (.bool ((select checker.root_config path).isSome || false)) := rfl
      rw [selected] at leads
      cases leads.symm.trans existsOne
    · intro absent
      rw [absent path resolved] at one
      exact ⟨_, _, _, false, all, any, one, nothing, nothing, nothing⟩

/-- `xpath_all` and `xpath_any` tell of the children of a node exactly where something stands
behind the wildcard or there are no children, and without a wildcard they agree with `xpath`
exactly where it finds nothing. -/
theorem wildcards_exact_iff (checker : ConstraintChecker) (node : Location) :
    (∀ pre, NoWildcard pre →
      (CountsChildren checker node pre none ↔ childrenAt checker.root_config pre = [])) ∧
    (∀ pre post, NoWildcard pre → LeadsBack checker.root_config pre →
      CountsChildren checker node pre (some post)) ∧
    ∀ xpath, NoWildcard (withReferenceName node xpath) →
      (AnswersAlike checker node xpath ↔
        ∀ path, xpathPath node xpath = .ok path → select checker.root_config path = none) :=
  ⟨fun _ plain => countsChildren_end_iff plain,
    fun _ post plain leads => countsChildren_behind plain post leads,
    fun _ plain => answersAlike_iff plain⟩

end Counts

end FlexConfig.Constraint

namespace FlexConfig.Sample

open Constraint XPath

/-- A checker over a container with one entry. -/
def portChecker : ConstraintChecker :=
  { lonelyChecker with
    root_config := .composite [("port".toList, .composite [("eth1".toList, .leaf "up".toList)])] }

/-- A path that ends with the wildcard is not counted, and a path without one never found. -/
theorem wildcards_not_exact :
    ¬ CountsChildren portChecker [] "/port".toList none ∧
      XPathAllHandle portChecker [] (argument "/port/*".toList) =
        .error (.raised .raised) ∧
      ¬ AnswersAlike portChecker [] "/port/eth1".toList := by
  refine ⟨fun counts => ?_, rfl, fun alike => ?_⟩
  · exact absurd ((countsChildren_end_iff (by decide)).mp counts) (by decide +kernel)
  · exact absurd ((answersAlike_iff (by decide)).mp alike _ rfl) (by decide +kernel)

theorem ports_counted :
    (CountsChildren portChecker [] "/none".toList none ↔
      childrenAt portChecker.root_config "/none".toList = []) ∧
    CountsChildren portChecker [] "/port".toList (some "value".toList) ∧
    (AnswersAlike portChecker [] "/lag".toList ↔
      ∀ path, xpathPath [] "/lag".toList = .ok path →
        select portChecker.root_config path = none) := by
  obtain ⟨ends, further, absent⟩ := wildcards_exact_iff portChecker []
  have port : portChecker.root_config.get (parse "/port".toList) =
      some (.composite [("eth1".toList, .leaf "up".toList)]) := by decide +kernel
  have leads : LeadsBack portChecker.root_config "/port".toList :=
    leadsBack_of_get (by decide) (by decide) port (by decide +kernel) (by decide +kernel)
  exact ⟨ends _ (by decide), further _ _ (by decide) leads, absent _ (by decide)⟩

end FlexConfig.Sample

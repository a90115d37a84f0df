import FlexConfig.Constraint.Grammar
import FlexConfig.Schema.Lookup
import Mathlib.Algebra.Group.Int.Defs

/-! # The evaluation of constraints

A constraint is evaluated while it is parsed: the actions of the rules compute the
values of its parts and write two flags, whether processing goes on and what the
constraint has come to. The parser's own answer is not looked at.

Values are those the actions return. An action that fails a cast or a check of its
own clears the result and returns the default value of its type; only a comparison
and a `must` end the processing.
-/

namespace FlexConfig.Constraint

open Peg Procedure

/-- What an action returns. -/
inductive Any where
  | empty
  | bool (value : Bool)
  | number (value : Int)
  | string (value : Str)
  | xpaths (value : List Str)
  deriving DecidableEq

/-- The flags of `SemanticAction::Argument`. -/
structure Argument where
  ContinueProcessing : Bool := true
  ExpressionResult : Bool := false
  deriving DecidableEq

/-- `ConstraintChecker`: the manager it asks for schema nodes and the tree it looks
paths up in. `std::regex_search` answers with the first match, and not at all for a
pattern that is none. -/
structure ConstraintChecker where
  config_mngr : Env
  regexSearch : (pattern text : Str) → Option (Option Str)
  root_config : Node

/-- Why an action gives no value: a bad cast or a failed check, which it handles
itself, or an exception that leaves the parser. -/
inductive Fault where
  | failed
  | raised (reason : Halt)

abbrev Answer := Except Fault

/-- An exception of the code an action calls. -/
def passing {α : Type} : Attempt α → Answer α
  | .ok value => .ok value
  | .error reason => .error (.raised reason)

/-- `AnyCast`. -/
def Any.asString : Any → Answer Str
  | .string value => .ok value
  | _ => .error .failed

def Any.asXPaths : Any → Answer (List Str)
  | .xpaths value => .ok value
  | _ => .error .failed

def Any.asBool : Any → Answer Bool
  | .bool value => .ok value
  | _ => .error .failed

def Any.asNumber : Any → Answer Int
  | .number value => .ok value
  | _ => .error .failed

/-- The semantic value at an index. -/
def valueAt (vs : SemanticValues Any) (index : Nat) : Any := vs.values.getD index .empty

/-- The characters of `\s`. -/
def isBlank (c : Char) : Bool := c ∈ [' ', '\t', '\n', '\x0b', '\x0c', '\r']

/-- `Utils::Trim`. -/
def Trim (s : Str) : Str := ((s.reverse.dropWhile isBlank).reverse).dropWhile isBlank

/-- `token_to_number` for 64 bits: a number out of range leaves the zero it began with. -/
def token_to_number (token : Str) : Int :=
  let magnitude (digits : Str) : Int :=
    digits.foldl (fun sum c => 10 * sum + (c.toNat - '0'.toNat : Nat)) 0
  let value :=
    match token with
    | '-' :: digits => -magnitude digits
    | digits => magnitude digits
  if -2 ^ 63 ≤ value ∧ value < 2 ^ 63 then value else 0

section Handlers

variable (checker : ConstraintChecker) (node : Location) (vs : SemanticValues Any)

def BooleanHandle : Answer Any :=
  if Text.contains "true".toList vs.token then .ok (.bool true)
  else if Text.contains "false".toList vs.token then .ok (.bool false)
  else .error .failed

def CountHandle : Answer Any := do
  let xpaths ← (valueAt vs 0).asXPaths
  return .number (xpaths.filter fun xpath => (XPath.select checker.root_config xpath).isSome).length

def ExistsHandle : Answer Any := do
  let xpaths ← (valueAt vs 0).asXPaths
  return .bool (xpaths.any fun xpath => (XPath.select checker.root_config xpath).isSome)

def NumberHandle : Answer Any := .ok (.number (token_to_number vs.token))

def RelativeOperatorHandle : Answer Any := .ok (.string (Trim vs.token))

def StringHandle : Answer Any := .ok (.string (Trim vs.token))

/-- A reference of the schema, with `/@` at its end standing for the node's name. -/
def referenceFor (ref : Str) : Str :=
  if Text.contains "/@".toList ref ∧ ref.getLast? = some '@' then
    Text.replaceAll "/@".toList (XPath.SEPARATOR ++ XPath.nameOf node) ref
  else ref

/-- The first reference that leads to a node. -/
def firstReference : List Str → Answer Str
  | [] => .ok []
  | ref :: rest => do
    let evaluated_ref ← passing (XPath.evaluateXPath node (referenceFor node ref))
    if (XPath.select checker.root_config evaluated_ref).isSome then return evaluated_ref
    firstReference rest

def ReferenceHandle : Answer Any := do
  if vs.token ≠ XPath.REFERENCE_TOKEN then .error .failed
  else
    match ← passing (checker.config_mngr.getSchemaByXPath (XPath.toString node)) with
    | none => return .string []
    | some schema_node =>
      return .string (← firstReference checker node
        (schema_node.FindAttr Config.PropertyName.REFERENCE))

def XPathHandle : Answer Any := do
  let xpath ← (valueAt vs 0).asString
  if xpath = [] then return .xpaths []
  let resolved_xpath ← passing (XPath.evaluateXPath node xpath)
  if (XPath.select checker.root_config resolved_xpath).isNone then return .xpaths []
  return .xpaths [resolved_xpath]

/-- Put a path together from its tokens, those that are `[@key]` from the token at the
same place of the node's own path. -/
def rebuildXPath (substitute : Str → Answer (Option Str)) : (tokens resolved : List Str) →
    Answer Str
  | [], _ => .ok []
  | token :: rest, [] => do
    return XPath.SEPARATOR ++ token ++ (← rebuildXPath substitute rest [])
  | token :: rest, own :: others => do
    let replaced ←
      if token = XPath.ITEM_NAME_SUBSCRIPT then substitute own else .ok none
    return XPath.SEPARATOR ++ replaced.getD token ++ (← rebuildXPath substitute rest others)

/-- A path with its `[@key]` resolved token by token. -/
def resolveByPlace (substitute : Str → Answer (Option Str)) (xpath : Str) : Answer Str :=
  rebuildXPath substitute
    (XPath.parse (Text.replaceAll XPath.ITEM_NAME_SUBSCRIPT
      (XPath.SEPARATOR ++ XPath.ITEM_NAME_SUBSCRIPT) xpath))
    (XPath.parse (XPath.toString node))

/-- The first match of a regular expression in a token. -/
def searched (regex_expression own : Str) : Answer (Option Str) :=
  (checker.regexSearch regex_expression own).elim (.error (.raised .raised)) .ok

def XPathValueHandle : Answer Any := do
  let xpath ← (valueAt vs 0).asString
  if xpath = [] then return .empty
  let rebuild_resolved_xpath ← resolveByPlace node (fun own => .ok (some own)) xpath
  match XPath.select checker.root_config rebuild_resolved_xpath with
  | none => return .empty
  | some found =>
    match found.node with
    | .leaf value => return .string value
    | .composite _ => .error .failed

/-- `NodeChildsOnlyVisitor`: the paths of the children of a node, the last first. -/
def getAllSubnodes (parent : Located) : List Str :=
  let parent_name := XPath.toString parent.location
  (((parent.node.preorder parent.location).filter fun visited =>
    XPath.toString visited.location.dropLast = parent_name).map fun visited =>
      parent_name ++ XPath.SEPARATOR ++ XPath.nameOf visited.location).reverse

def WILDCARD_XPATH_NODE : Str := "/*".toList

/-- The nodes that `xpath_match_regex` takes from its second argument. -/
def matchCandidates (xpath : Str) : Answer (List Str) :=
  match Text.find WILDCARD_XPATH_NODE xpath with
  | none => .ok [xpath]
  | some wildcard_pos => do
    let resolved_xpath ← passing (XPath.evaluateXPath node (xpath.take wildcard_pos))
    return ((XPath.select checker.root_config resolved_xpath).map getAllSubnodes).getD []

/-- The candidates that a regular expression matches and that lead to a node. -/
def keepMatching (regex_expression : Str) : List Str → Answer (List Str)
  | [] => .ok []
  | xpath :: rest => do
    let matched ← passing (checker.config_mngr.regex_match regex_expression xpath)
    let others ← keepMatching regex_expression rest
    return if matched ∧ (XPath.select checker.root_config xpath).isSome then xpath :: others
      else others

def XPathMatchRegexHandle : Answer Any := do
  if vs.values.length < 3 then .error .failed
  else
    let regex_expression ← (valueAt vs 2).asString
    if regex_expression = [] then return .xpaths []
    let second ← (valueAt vs 1).asString
    if second = [] then return .xpaths []
    let xpath_subnodes ← matchCandidates checker node second
    let xpath ← (valueAt vs 0).asString
    if xpath = [] then return .xpaths []
    let resolved_xpath ← passing (XPath.evaluateXPath node xpath)
    match XPath.select checker.root_config resolved_xpath with
    | none => return .xpaths []
    | some found =>
      let matched_xpaths := (xpath_subnodes.filter fun xpath_node_child =>
        Text.contains (XPath.toString found.location) xpath_node_child).reverse
      return .xpaths (← keepMatching checker regex_expression matched_xpaths)

/-- The path with `@` at its end standing for the node's name. -/
def withReferenceName (xpath : Str) : Str :=
  if xpath.getLast? = some '@' then xpath.dropLast ++ XPath.nameOf node else xpath

/-- What follows the wildcard, behind each of the nodes it stands for. Raises where
the path ends with the wildcard. -/
def behindWildcard (xpath : Str) (wildcard_pos : Nat) (subnodes : List Str) : Answer (List Str) :=
  if subnodes ≠ [] ∧ xpath.length < wildcard_pos + 3 then .error (.raised .raised)
  else .ok (subnodes.map (· ++ XPath.SEPARATOR ++ xpath.drop (wildcard_pos + 3)))

/-- The paths of a wildcard that lead to nodes. -/
def wildcardXPaths (vs : SemanticValues Any) : Answer (List Str) := do
  let argument ← (valueAt vs 0).asString
  if argument = [] then return []
  let xpath := withReferenceName node argument
  match Text.find WILDCARD_XPATH_NODE xpath with
  | none => return []
  | some wildcard_pos =>
    match XPath.select checker.root_config (xpath.take wildcard_pos) with
    | none => return []
    | some parent =>
      let resolved ← behindWildcard xpath wildcard_pos (getAllSubnodes parent)
      return resolved.filter fun xpath => (XPath.select checker.root_config xpath).isSome

def XPathAnyHandle : Answer Any := do
  return .xpaths ((← wildcardXPaths checker node vs).take 1)

def XPathAllHandle : Answer Any := do
  return .xpaths (← wildcardXPaths checker node vs)

def XPathKeyBasedHandle : Answer Any := do
  if vs.values.length < 2 then .error .failed
  else
    let xpath_key_reference ← (valueAt vs 1).asString
    if xpath_key_reference = [] then return .xpaths []
    let xpath ← (valueAt vs 0).asString
    if xpath = [] then return .xpaths []
    let resolved_reference_xpath_key ← passing (XPath.evaluateXPath node
      (Text.replaceAll XPath.ITEM_NAME_SUBSCRIPT (XPath.SEPARATOR ++ XPath.ITEM_NAME_SUBSCRIPT)
        xpath_key_reference))
    if resolved_reference_xpath_key = [] then return .xpaths []
    let keyed := Text.replaceAll XPath.ITEM_NAME_SUBSCRIPT
      (XPath.SEPARATOR ++ resolved_reference_xpath_key) xpath
    if (XPath.select checker.root_config keyed).isNone then return .xpaths []
    return .xpaths [keyed]

/-- The path of the two handlers that search the node's own path for a key. -/
def keyRegexReplaced : Answer (Option Str) := do
  if vs.values.length < 2 then .error .failed
  else
    let regex_expression ← (valueAt vs 1).asString
    if regex_expression = [] then return none
    let xpath ← (valueAt vs 0).asString
    if xpath = [] then return none
    return some (← resolveByPlace node (searched checker regex_expression) xpath)

def XPathKeyRegexReplaceHandle : Answer Any := do
  match ← keyRegexReplaced checker node vs with
  | none => return .xpaths []
  | some rebuild_resolved_xpath =>
    if (XPath.select checker.root_config rebuild_resolved_xpath).isNone then return .xpaths []
    return .xpaths [rebuild_resolved_xpath]

def XPathValueKeyRegexReplaceHandle : Answer Any := do
  match ← keyRegexReplaced checker node vs with
  | none => return .empty
  | some rebuild_resolved_xpath =>
    match XPath.select checker.root_config rebuild_resolved_xpath with
    | none => return .empty
    | some found =>
      match found.node with
      | .leaf value => return .string value
      | .composite _ => return .empty

/-- Compare by an operator. -/
def compare {α : Type} [DecidableEq α] (arg1 : α) (op : Str) (arg2 : α) : Answer Bool :=
  if op = "==".toList then .ok (arg1 = arg2)
  else if op = "<>".toList then .ok (arg1 ≠ arg2)
  else .error .failed

/-- The result of a comparison. -/
def infixResult : Answer Bool :=
  match valueAt vs 0 with
  | .bool arg1 => do
    if vs.values.length ≤ 1 then return arg1
    compare arg1 (← (valueAt vs 1).asString) (← (valueAt vs 2).asBool)
  | .string arg1 => do
    if vs.values.length ≤ 1 then return arg1 ≠ []
    compare arg1 (← (valueAt vs 1).asString) (← (valueAt vs 2).asString)
  | .number arg1 => do
    if vs.values.length ≤ 1 then return arg1 ≠ 0
    compare arg1 (← (valueAt vs 1).asString) (← (valueAt vs 2).asNumber)
  | _ => .error .failed

end Handlers

section Actions

/-- What `CHECK_PEG_ARGUMENT`, `TRY_CATCH_EPILOG` and `STOP_PROCESSING` put around a
handler. `STOP_PROCESSING` writes to a copy of the flags. -/
def action (default : Any) (handle : SemanticValues Any → Answer Any) (vs : SemanticValues Any) :
    EStateM Halt Argument Any := fun pegArg =>
  if pegArg.ContinueProcessing = false then .ok default pegArg
  else
    match handle vs with
    | .ok value => .ok value pegArg
    | .error .failed => .ok default { pegArg with ExpressionResult := false }
    | .error (.raised reason) => .error reason pegArg

def InfixExpressionHandle (vs : SemanticValues Any) : EStateM Halt Argument Any := fun pegArg =>
  if pegArg.ContinueProcessing = false then .ok (.bool false) pegArg
  else
    match infixResult vs with
    | .ok result => .ok (.bool result) { pegArg with ContinueProcessing := result }
    | .error .failed => .ok (.bool false) { pegArg with ExpressionResult := false }
    | .error (.raised reason) => .error reason pegArg

def MustHandle (vs : SemanticValues Any) : EStateM Halt Argument Any := fun pegArg =>
  if pegArg.ContinueProcessing = false then .ok (.bool pegArg.ExpressionResult) pegArg
  else
    match valueAt vs 0 with
    | .bool result => .ok (.bool result) { pegArg with ExpressionResult := result }
    | _ => .ok (.bool false) { ContinueProcessing := false, ExpressionResult := false }

def ThenStatementHandle (_ : SemanticValues Any) : EStateM Halt Argument Any := fun pegArg =>
  .ok .empty
    (if pegArg.ContinueProcessing = false then { pegArg with ExpressionResult := true } else pegArg)

/-- The handler of a rule that only computes a value, with the default value of its
type. -/
def handler (checker : ConstraintChecker) (node : Location) :
    Rule → Option (Any × (SemanticValues Any → Answer Any))
  | .BOOLEAN => some (.bool false, BooleanHandle)
  | .COUNT_FUNC => some (.number 0, CountHandle checker)
  | .EXISTS_FUNC => some (.bool false, ExistsHandle checker)
  | .NUMBER => some (.number 0, NumberHandle)
  | .REFERENCE => some (.string [], ReferenceHandle checker node)
  | .RELATIVE_OPERATOR => some (.string [], RelativeOperatorHandle)
  | .STRING => some (.string [], StringHandle)
  | .XPATH_FUNC => some (.xpaths [], XPathHandle checker node)
  | .XPATH_KEY_BASED_FUNC => some (.xpaths [], XPathKeyBasedHandle checker node)
  | .XPATH_KEY_REGEX_REPLACE_FUNC => some (.xpaths [], XPathKeyRegexReplaceHandle checker node)
  | .XPATH_MATCH_REGEX_FUNC => some (.xpaths [], XPathMatchRegexHandle checker node)
  | .XPATH_ALL_FUNC => some (.xpaths [], XPathAllHandle checker node)
  | .XPATH_ANY_FUNC => some (.xpaths [], XPathAnyHandle checker node)
  | .XPATH_VALUE_FUNC => some (.empty, XPathValueHandle checker node)
  | .XPATH_VALUE_KEY_REGEX_REPLACE_FUNC =>
    some (.empty, XPathValueKeyRegexReplaceHandle checker node)
  | _ => none

/-- The actions the parser is set up with. -/
def actions (checker : ConstraintChecker) (node : Location) : Actions Rule Any Argument Halt where
  empty := .empty
  action
    | .INFIX_EXPRESSION => some InfixExpressionHandle
    | .MUST_FUNC => some MustHandle
    | .THEN_STATEMENT => some ThenStatementHandle
    | name => (handler checker node name).map fun entry => action entry.1 entry.2

/-- `ConstraintChecker::validate`. -/
def ConstraintChecker.validate (checker : ConstraintChecker) (node_to_validate : Location)
    (constraint_definition : Str) : Attempt Bool :=
  match parse grammar (actions checker node_to_validate) .PROGRAM constraint_definition {} with
  | .ok _ pegArg => .ok pegArg.ExpressionResult
  | .error reason _ => .error reason

end Actions

end FlexConfig.Constraint

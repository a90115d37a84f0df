import FlexConfig.Json.Pointer

/-! # JSON Patch: applying and computing

`patch` applies a list of operations to a document and `diff` computes the
canonical operations that turn one document into another. A client describes an
update of the running configuration as such a list, and cancelling a candidate
computes one.
-/

namespace FlexConfig

namespace JsonDiffField

def OPERATION : Str := "op".toList
def PATH : Str := "path".toList
def VALUE : Str := "value".toList
def FROM : Str := "from".toList

end JsonDiffField

namespace JsonDiffOperation

def ADD : Str := "add".toList
def REMOVE : Str := "remove".toList
def REPLACE : Str := "replace".toList
def MOVE : Str := "move".toList
def COPY : Str := "copy".toList
def TEST : Str := "test".toList

end JsonDiffOperation

/-- One operation of a patch: the members of its JSON object that are read. -/
structure DiffItem where
  op : Str
  path : Str
  value : Option Json
  fromPath : Option Json
  deriving DecidableEq

namespace DiffItem

/-- The operation a JSON object spells; `op` and `path` must be strings. -/
def ofJson (json : Json) : Attempt DiffItem := do
  let op ← (json.find JsonDiffField.OPERATION).elim (.error .raised) Json.getString
  let path ← (json.find JsonDiffField.PATH).elim (.error .raised) Json.getString
  return {
    op := op
    path := path
    value := json.find JsonDiffField.VALUE
    fromPath := json.find JsonDiffField.FROM }

/-- The JSON object of a computed operation. -/
def toJson (item : DiffItem) : Json :=
  .object ([(JsonDiffField.OPERATION, Json.string item.op),
    (JsonDiffField.PATH, Json.string item.path)] ++
      item.value.toList.map fun value => (JsonDiffField.VALUE, value))

def isRemove (item : DiffItem) : Bool := item.op = JsonDiffOperation.REMOVE

end DiffItem

namespace Json

/-- The operations of a patch document: an array of objects. -/
def patchItems : Json → Attempt (List DiffItem)
  | .array elements => elements.mapM DiffItem.ofJson
  | _ => .error .raised

section Apply

/-- Write a value under the last token of an added location. -/
def addMember (last : Str) (value : Json) : Json → Attempt Json
  | .null => .ok (.object [(last, value)])
  | .object members => .ok (.object (Keyed.insert last value members))
  | .array elements =>
    if last = ['-'] then .ok (.array (elements ++ [value]))
    else do
      let index ← arrayIndex last
      if index ≤ elements.length then
        return .array (elements.take index ++ value :: elements.drop index)
      else .error .raised
  | _ => .error .crashed

def operationAdd (tokens : List Str) (value json : Json) : Attempt Json :=
  match tokens.getLast? with
  | none => .ok value
  | some last => modifyAt (addMember last value) tokens.dropLast json

/-- Erase the member under the last token of a removed location. -/
def eraseMember (last : Str) : Json → Attempt Json
  | .object members =>
    match Keyed.find last members with
    | some _ => .ok (.object (Keyed.erase last members))
    | none => .error .raised
  | .array elements => do
    let index ← arrayIndex last
    if index < elements.length then return .array (elements.eraseIdx index) else .error .raised
  | json => .ok json

def operationRemove (tokens : List Str) (json : Json) : Attempt Json := do
  let last ← Pointer.back tokens
  modifyAt (eraseMember last) tokens.dropLast json

def required (member : Option Json) : Attempt Json := member.elim (.error .raised) .ok

/-- Apply one operation. -/
def applyItem (item : DiffItem) (json : Json) : Attempt Json := do
  let tokens ← Pointer.parse item.path
  if item.op = JsonDiffOperation.ADD then do
    let value ← required item.value
    operationAdd tokens value json
  else if item.op = JsonDiffOperation.REMOVE then operationRemove tokens json
  else if item.op = JsonDiffOperation.REPLACE then do
    let value ← required item.value
    modifyAt (fun _ => .ok value) tokens json
  else if item.op = JsonDiffOperation.MOVE then do
    let source ← required item.fromPath >>= getString >>= Pointer.parse
    let value ← json.atPointer source
    let rest ← operationRemove source json
    operationAdd tokens value rest
  else if item.op = JsonDiffOperation.COPY then do
    let source ← required item.fromPath >>= getString >>= Pointer.parse
    let value ← json.atPointer source
    operationAdd tokens value json
  else if item.op = JsonDiffOperation.TEST then do
    let value ← required item.value
    let found ← json.atPointer tokens
    if found = value then .ok json else .error .raised
  else .error .raised

/-- Apply the operations of a patch in order. -/
def applyItems : List DiffItem → Json → Attempt Json
  | [], json => .ok json
  | item :: rest, json => do
    let next ← applyItem item json
    applyItems rest next

/-- `patch`: the document a patch document produces. -/
def patch (json document : Json) : Attempt Json := do
  let items ← document.patchItems
  applyItems items json

end Apply

section Null

open Procedure

theorem addMember_ne_null {last : Str} {value json after : Json}
    (added : addMember last value json = .ok after) : after ≠ .null := by
  cases json with
  | null | object _ =>
      cases added
      simp
  | array elements =>
      unfold addMember at added
      dsimp only at added
      split at added
      · cases added
        simp
      · obtain ⟨index, _, added⟩ := except_bind_eq_ok.mp added
        split at added
        · cases added
          simp
        · cases added
  | bool _ | number _ | string _ => cases added

/-- A value added below the top leaves a container. -/
theorem operationAdd_ne_null {tokens : List Str} {value json after : Json} (below : tokens ≠ [])
    (added : operationAdd tokens value json = .ok after) : after ≠ .null := by
  unfold operationAdd at added
  split at added
  · next whole => exact absurd (List.getLast?_eq_none_iff.mp whole) below
  · cases parent : tokens.dropLast with
    | nil =>
        rw [parent, modifyAt] at added
        exact addMember_ne_null added
    | cons token rest =>
        rw [parent] at added
        exact modifyAt_ne_null added

theorem operationRemove_ne_null {tokens : List Str} {json after : Json} (present : json ≠ .null)
    (removed : operationRemove tokens json = .ok after) : after ≠ .null := by
  obtain ⟨last, _, removed⟩ := except_bind_eq_ok.mp removed
  cases parent : tokens.dropLast with
  | cons token rest =>
      rw [parent] at removed
      exact modifyAt_ne_null removed
  | nil =>
      rw [parent, modifyAt] at removed
      cases json with
      | null => exact absurd rfl present
      | object members =>
          unfold eraseMember at removed
          dsimp only at removed
          split at removed
          · cases removed
            simp
          · cases removed
      | array elements =>
          obtain ⟨index, _, removed⟩ := except_bind_eq_ok.mp removed
          split at removed
          · cases removed
            simp
          · cases removed
      | bool _ | number _ | string _ =>
          cases removed
          simp

/-- Applying an operation leaves no null document unless there was one or the operation
writes the whole document. -/
theorem applyItem_ne_null {item : DiffItem} {json after : Json} (present : json ≠ .null)
    (below : item.isRemove = false → item.path ≠ []) (applied : applyItem item json = .ok after) :
    after ≠ .null := by
  obtain ⟨tokens, parsed, applied⟩ := except_bind_eq_ok.mp applied
  have inside (writes : item.op ≠ JsonDiffOperation.REMOVE) : tokens ≠ [] := by
    intro whole
    rw [whole] at parsed
    exact below (decide_eq_false writes) (Pointer.parse_eq_nil parsed)
  split at applied
  · next adds =>
      obtain ⟨value, _, added⟩ := except_bind_eq_ok.mp applied
      exact operationAdd_ne_null (inside (by rw [adds]; decide)) added
  split at applied
  · exact operationRemove_ne_null present applied
  next notRemove =>
  have nonempty := inside notRemove
  split at applied
  · obtain ⟨value, _, replaced⟩ := except_bind_eq_ok.mp applied
    cases tokens with
    | nil => exact absurd rfl nonempty
    | cons token rest => exact modifyAt_ne_null replaced
  split at applied
  · obtain ⟨source, _, applied⟩ := except_bind_eq_ok.mp applied
    obtain ⟨value, _, applied⟩ := except_bind_eq_ok.mp applied
    obtain ⟨rest, _, added⟩ := except_bind_eq_ok.mp applied
    exact operationAdd_ne_null nonempty added
  split at applied
  · obtain ⟨source, _, applied⟩ := except_bind_eq_ok.mp applied
    obtain ⟨value, _, added⟩ := except_bind_eq_ok.mp applied
    exact operationAdd_ne_null nonempty added
  split at applied
  · obtain ⟨value, _, applied⟩ := except_bind_eq_ok.mp applied
    obtain ⟨found, _, applied⟩ := except_bind_eq_ok.mp applied
    split at applied
    · cases applied
      exact present
    · cases applied
  · cases applied

theorem applyItems_ne_null {items : List DiffItem} {json after : Json} (present : json ≠ .null)
    (below : ∀ item ∈ items, item.isRemove = false → item.path ≠ [])
    (applied : applyItems items json = .ok after) : after ≠ .null := by
  induction items generalizing json with
  | nil =>
      cases applied
      exact present
  | cons item rest ih =>
      obtain ⟨next, first, others⟩ := except_bind_eq_ok.mp applied
      exact ih (applyItem_ne_null present (below item List.mem_cons_self) first)
        (fun other member => below other (List.mem_cons_of_mem _ member)) others

end Null

section Diff

def replaceItem (path : Str) (target : Json) : DiffItem :=
  { op := JsonDiffOperation.REPLACE, path := path, value := some target, fromPath := none }

def addItem (path : Str) (value : Json) : DiffItem :=
  { op := JsonDiffOperation.ADD, path := path, value := some value, fromPath := none }

def removeItem (path : Str) : DiffItem :=
  { op := JsonDiffOperation.REMOVE, path := path, value := none, fromPath := none }

def memberPath (path key : Str) : Str := path ++ '/' :: Pointer.escape key

def elementPath (path : Str) (index : Nat) : Str := path ++ '/' :: indexText index

/-- Add the members of the target that the source does not have. -/
def addedMembers (path : Str) (source target : List (Str × Json)) : List DiffItem :=
  (target.filter fun entry => (Keyed.find entry.1 source).isNone).map fun entry =>
    addItem (memberPath path entry.1) entry.2

mutual

/-- `diff`: the operations turning `source` into `target`. -/
def diffItems : (source target : Json) → (path : Str) → List DiffItem
  | .array source, target, path =>
    match target with
    | .array elements =>
      if source = elements then []
      else
        diffElements source elements path 0 ++
          ((List.range' elements.length (source.length - elements.length)).reverse.map fun index =>
            removeItem (elementPath path index)) ++
          (elements.drop source.length).map fun value => addItem (path ++ ['/', '-']) value
    | _ => [replaceItem path target]
  | .object source, target, path =>
    match target with
    | .object members =>
      if source = members then []
      else diffMembers source members path ++ addedMembers path source members
    | _ => [replaceItem path target]
  | source, target, path => if source = target then [] else [replaceItem path target]

/-- Compare the elements both arrays have. -/
def diffElements : (source target : List Json) → (path : Str) → (index : Nat) → List DiffItem
  | value :: rest, other :: others, path, index =>
    diffItems value other (elementPath path index) ++ diffElements rest others path (index + 1)
  | _, _, _, _ => []

/-- Compare or remove the members of the source. -/
def diffMembers : (source target : List (Str × Json)) → (path : Str) → List DiffItem
  | [], _, _ => []
  | (key, value) :: rest, target, path =>
    (match Keyed.find key target with
    | some other => diffItems value other (memberPath path key)
    | none => [removeItem (memberPath path key)]) ++ diffMembers rest target path

end

/-- `diff`, as a patch document. -/
def diff (source target : Json) : Json :=
  .array ((diffItems source target []).map DiffItem.toJson)

end Diff

end Json

section Items

/-- An operation without a source is read as it was written. -/
theorem ofJson_toJson {item : DiffItem} (plain : item.fromPath = none) :
    DiffItem.ofJson item.toJson = .ok item := by
  obtain ⟨op, path, value, fromPath⟩ := item
  cases plain
  cases value with
  | none => rfl
  | some value => rfl

theorem mapM_ofJson_toJson {items : List DiffItem} (plain : ∀ item ∈ items, item.fromPath = none) :
    (items.map DiffItem.toJson).mapM DiffItem.ofJson = .ok items := by
  induction items with
  | nil => rfl
  | cons item rest ih =>
      obtain ⟨here, others⟩ := List.forall_mem_cons.mp plain
      rw [List.map_cons, List.mapM_cons, ofJson_toJson here, ih others]
      rfl

end Items

end FlexConfig

import FlexConfig.Manager.Actions
import FlexConfig.Manager.References
import FlexConfig.Ordering.NodesOrdering
import FlexConfig.Schema.Loader

/-! # Making a candidate configuration

The routine that applies a patch to a configuration tree and its JSON document, in
this order: the removed nodes are collected, ordered and checked; they leave the
reference index; their deletions are posted; they leave the tree; the added nodes
are loaded into the tree, ordered and checked; their references are recorded; their
updates are posted.

The tree and the index are written in place. A refusal posts the reverse of what
had been posted, and takes nothing else back.
-/

namespace FlexConfig

open Procedure Schema

/-- `NodeCopyMakerVisitor::visit`: a node whose parent is named like the root is copied below
the new root. Elsewhere a node takes the place of an equal one. -/
def NodeCopyMaker.visit (root_config : Node) (visited : Located) : Bool × Node :=
  (true,
    if XPath.parentNameOf visited.location = XPath.ROOT_TOKEN then
      root_config.add (XPath.nameOf visited.location) visited.node
    else root_config)

/-- The copy of a tree. -/
def getNodeConfigCopy (node_config : Node) : Node :=
  node_config.accept NodeCopyMaker.visit [] .empty

/-- What the routine reads besides its arguments: the configuration file and the running
configuration. -/
structure Site where
  configFile : Option Json
  runningConfig : Option Node
  runningJson : Json

/-- What the routine writes: the tree it was given, the reference index and the messages. -/
structure Draft where
  nodeConfig : Node
  references : References
  posts : Log

/-- Run on the tree of a draft. -/
def onNode {α : Type} (body : Loading α) : EStateM Halt Draft α :=
  focus Draft.nodeConfig (fun node draft => { draft with nodeConfig := node }) body

/-- Run on the messages of a draft. -/
def onPosts {α : Type} (body : Posting α) : EStateM Halt Draft α :=
  focus Draft.posts (fun posts draft => { draft with posts := posts }) body

/-- The paths of the operations that remove. -/
def removePaths (items : List DiffItem) : List Str :=
  (items.filter DiffItem.isRemove).map DiffItem.path

/-- The paths of the operations that do not remove. -/
def updatePaths (items : List DiffItem) : List Str :=
  (items.filter fun item => !item.isRemove).map DiffItem.path

/-- Whether one of the paths occurs in a path, at any place. -/
def mentions (paths : List Str) (xpath : Str) : Bool :=
  paths.any fun path => Text.contains path xpath

/-- Look up the value of an operation that has none. The containment test asks for a member
under the text of the whole path; where there is one, the path is created. -/
def fillValue (item : DiffItem) (json_config : Json) : Attempt Json :=
  if item.value.isSome then .ok json_config
  else do
    let pointer ← Json.Pointer.parse item.path
    if (json_config.find (Json.Pointer.print pointer)).isSome then json_config.touched pointer
    else return json_config

section PlanRemoval

/-- What the pass over the operations that remove has gathered. -/
structure Scan where
  jsonConfig : Json
  pathNodes : List Str
  subnodes : List Str

/-- The paths strictly above a path: `/interface`, `/interface/ethernet` and so on. -/
def pathNodesOf (xpath_tokens : List Str) : List Str :=
  (xpath_tokens.dropLast.inits.drop 1).map XPath.mergeTokens

/-- The paths of the nodes below a node. -/
def getSubnodesXPath (node : Located) : List Str :=
  (node.node.preorder node.location).map fun visited => XPath.toString visited.location

/-- The pass over the operations that gathers what is to be removed. -/
def scanRemovals (node_config : Node) : List DiffItem → Scan → Attempt Scan
  | [], scan => .ok scan
  | item :: rest, scan => do
    let json_config ← fillValue item scan.jsonConfig
    if !item.isRemove then scanRemovals node_config rest { scan with jsonConfig := json_config }
    else if XPath.parse item.path = [] then .error .rejected
    else
      match XPath.select node_config item.path with
      | none => .error .rejected
      | some node_to_remove =>
        scanRemovals node_config rest {
          jsonConfig := json_config
          pathNodes := scan.pathNodes ++ pathNodesOf (XPath.parse item.path)
          subnodes := scan.subnodes ++ getSubnodesXPath node_to_remove ++ [item.path] }

/-- `NodesCollectorVisitor::visit`: copy a wanted node with everything below it. -/
def NodesCollector.visit (nodes_to_collect_by_xpath : List Str) (root_config : Node)
    (visited : Located) : Bool × Node :=
  let xpath := XPath.toString visited.location
  if xpath = [] ∨ xpath ∉ nodes_to_collect_by_xpath then (true, root_config)
  else
    let xpath_tokens := (XPath.parse xpath).dropLast
    let parent :=
      if xpath_tokens = [] then some ⟨[], root_config⟩
      else XPath.select root_config (XPath.mergeTokens xpath_tokens)
    match parent with
    | none => (false, root_config)
    | some parent_node =>
      (true, root_config.modify (fun parent =>
        parent.add (XPath.nameOf visited.location) visited.node) parent_node.location)

/-- The tree of the wanted nodes. -/
def collectNodes (nodes_to_collect_by_xpath : List Str) (node_config : Node) : Node :=
  node_config.accept (NodesCollector.visit nodes_to_collect_by_xpath) [] .empty

/-- The nodes to remove, from the last to the first of the order. A node above a removed
path is dropped, and so is every node in whose path no removed path occurs. -/
def orderRemovals (env : Env) (items : List DiffItem) (path_nodes : List Str)
    (root_config_to_remove : Node) : Attempt (List Str) := do
  let ordered_nodes_by_xpath ← NodeDependencyManager.resolve env root_config_to_remove
  return ((ordered_nodes_by_xpath.filter fun xpath => xpath ∉ path_nodes).filter
    (mentions (removePaths items))).reverse

/-- Check every constraint of a node. -/
def checkConstraints (env : Env) (root_config : Node) (location : Location) :
    (constraints : List Str) → Attempt PUnit
  | [] => .ok ⟨⟩
  | constraint :: rest => do
    if ← env.checkConstraint root_config location constraint then
      checkConstraints env root_config location rest
    else .error .rejected

/-- Check the delete constraints of the nodes in turn, each in the tree that the nodes
before it have left. -/
def checkRemovals (env : Env) : (ordered_nodes_by_xpath : List Str) →
    (root_config_to_remove : Node) → Attempt PUnit
  | [], _ => .ok ⟨⟩
  | xpath :: rest, root_config_to_remove => do
    match ← env.getSchemaByXPath xpath with
    | none => .error .rejected
    | some schema_node =>
      match XPath.select root_config_to_remove xpath with
      | none => .error .rejected
      | some node_to_remove => do
        checkConstraints env root_config_to_remove node_to_remove.location
          (schema_node.FindAttr Config.PropertyName.DELETE_CONSTRAINTS)
        if node_to_remove.location = [] then .error .crashed
        else checkRemovals env rest (root_config_to_remove.removeAt node_to_remove.location)

/-- The patched document and the nodes to remove, in the order of their deletion. -/
structure Removal where
  jsonConfig : Json
  ordered : List Str

/-- The patched document, where it passes validation. -/
def patchConfig (env : Env) (patch jconfig : Json) : Attempt Json := do
  let json_config ← jconfig.patch patch
  let jschema ← env.loadedSchema
  if env.validate json_config jschema then return json_config else .error .rejected

/-- Everything up to the checks of the removed nodes: nothing has been written yet. -/
def planRemoval (env : Env) (patch jconfig : Json) (node_config : Node) : Attempt Removal := do
  let json_config ← patchConfig env patch jconfig
  let items ← patch.patchItems
  let scan ← scanRemovals node_config items ⟨json_config, [], []⟩
  let xpaths_to_remove := scan.pathNodes ++ scan.subnodes
  if xpaths_to_remove.all fun subnode => (XPath.select node_config subnode).isSome then do
    let root_config_to_remove := collectNodes xpaths_to_remove node_config
    let ordered_nodes_by_xpath ← orderRemovals env items scan.pathNodes root_config_to_remove
    checkRemovals env ordered_nodes_by_xpath root_config_to_remove
    return ⟨scan.jsonConfig, ordered_nodes_by_xpath⟩
  else .error .rejected

end PlanRemoval

section Post

/-- Post the reverse of the deletions, the last one first. An unanswered message ends the
process. -/
def rollback_removed_nodes (env : Env) (site : Site) (removed_nodes_by_xpath : List Str) :
    Posting PUnit :=
  forEach (fun xpath => do
    match ← attempt (restoreAction env site.runningConfig site.runningJson xpath) with
    | none => pure ⟨⟩
    | some message => do
      if ← post env message then pure ⟨⟩ else throw .exited) removed_nodes_by_xpath

/-- Post the deletions of the nodes in turn; `removed` holds those done, the last first. -/
def postDeletions (env : Env) (site : Site) :
    (removed ordered_nodes_by_xpath : List Str) → Posting PUnit
  | _, [] => pure ⟨⟩
  | removed, xpath :: rest => do
    match ← attempt (deleteAction env site.configFile xpath) with
    | none => postDeletions env site (xpath :: removed) rest
    | some message => do
      if ← post env message then postDeletions env site (xpath :: removed) rest
      else do
        rollback_removed_nodes env site removed
        throw .rejected

/-- Post the reverse of the updates, the last one first. An unanswered message ends the
process. -/
def rollback_added_nodes (env : Env) (node_config : Node) (added_nodes_by_xpath : List Str) :
    Posting PUnit :=
  forEach (fun xpath => do
    match ← attempt (revokeAction env node_config xpath) with
    | none => pure ⟨⟩
    | some message => do
      if ← post env message then pure ⟨⟩ else throw .exited) added_nodes_by_xpath

/-- Post the updates of the nodes in turn; `added` holds those done, the last first. -/
def postUpdates (env : Env) (node_config : Node) (jconfig json_config : Json) :
    (added ordered_nodes_by_xpath : List Str) → Posting PUnit
  | _, [] => pure ⟨⟩
  | added, xpath :: rest => do
    match ← attempt (updateAction env jconfig json_config xpath) with
    | none => postUpdates env node_config jconfig json_config (xpath :: added) rest
    | some message => do
      if ← post env message then
        postUpdates env node_config jconfig json_config (xpath :: added) rest
      else do
        rollback_added_nodes env node_config added
        throw .rejected

end Post

section Edit

/-- Take the removed nodes out of the tree. -/
def removeNodes (ordered_nodes_by_xpath : List Str) : Loading PUnit :=
  forEach (fun xpath => do
    let node_config ← get
    match XPath.select node_config xpath with
    | none => throw .rejected
    | some node => set (node_config.removeAt node.location)) ordered_nodes_by_xpath

/-- Load nodes into the composite at a location. A leaf found there is a null composite, to
which nothing can be added. -/
def loadInto (root_node : Located) (body : Loading PUnit) : Loading PUnit :=
  if root_node.node.isLeaf then fun node_config =>
    match body .empty with
    | .ok _ loaded => if loaded = .empty then .ok ⟨⟩ node_config else .error .crashed node_config
    | .error reason loaded =>
      if loaded = .empty then .error reason node_config else .error .crashed node_config
  else
    focus (fun node_config => (node_config.get root_node.location).getD .empty)
      (fun loaded node_config => node_config.modify (fun _ => loaded) root_node.location) body

/-- How the nodes below a schema object are loaded: from its `properties`, or else from its
`patternProperties`. -/
def subnodeLoader (env : Env) (jschema : Json) : Option (Json → Loading PUnit) :=
  match jschema.find Keyword.PROPERTIES with
  | some properties => some fun jconfig => fParseAndLoadConfig env jconfig properties
  | none =>
    (jschema.find Keyword.PATTERN_PROPERTIES).map fun patterns jconfig =>
      fLoadPatternProperties env jconfig patterns

/-- Load the nodes below the parent of one operation's path anew; the result is the document,
in which that parent has been created where it was missing. -/
def loadItem (env : Env) (item : DiffItem) (json_config : Json) : Loading Json := do
  let xpath_tokens := XPath.parse item.path
  if xpath_tokens = [] then throw .rejected
  else do
    let xpath := XPath.mergeTokens xpath_tokens.dropLast
    let jschema ← attempt (env.GetJsonSchemaByXPath xpath)
    let node_config ← get
    if jschema = .object [] then throw .rejected
    else
      match XPath.select node_config xpath with
      | none => throw .rejected
      | some root_node =>
        match subnodeLoader env jschema with
        | none => pure json_config
        | some load => do
          let pointer ← attempt (Json.Pointer.parse xpath)
          let created ← attempt (json_config.touched pointer)
          let jnode ← attempt (created.pointed pointer)
          loadInto root_node (load jnode)
          pure created

/-- Load the nodes of the operations that do not remove. -/
def loadAdded (env : Env) : List DiffItem → (json_config : Json) → Loading Json
  | [], json_config => pure json_config
  | item :: rest, json_config => do
    let filled ← attempt (fillValue item json_config)
    if item.isRemove then loadAdded env rest filled
    else do
      let loaded ← loadItem env item filled
      loadAdded env rest loaded

/-- Edit the tree in place: take nodes out, and load nodes. -/
def editNodes (env : Env) (items : List DiffItem) (removal : Removal) : Loading Json := do
  removeNodes removal.ordered
  loadAdded env items removal.jsonConfig

end Edit

section PlanUpdate

/-- The nodes whose path mentions the path of an operation that does not remove, in order. -/
def orderUpdates (env : Env) (items : List DiffItem) (node_config : Node) :
    Attempt (List Str) := do
  let ordered_nodes_by_xpath ← NodeDependencyManager.resolve env node_config
  return ordered_nodes_by_xpath.filter (mentions (updatePaths items))

/-- Check the update constraints of the nodes in turn. -/
def checkUpdates (env : Env) (node_config : Node) :
    (ordered_nodes_by_xpath : List Str) → Attempt PUnit
  | [] => .ok ⟨⟩
  | xpath :: rest => do
    match ← env.getSchemaByXPath xpath with
    | none => .error .rejected
    | some schema_node =>
      match XPath.select node_config xpath with
      | none => .error .rejected
      | some node_to_check => do
        checkConstraints env node_config node_to_check.location
          (schema_node.FindAttr Config.PropertyName.UPDATE_CONSTRAINTS)
        checkUpdates env node_config rest

/-- The nodes to update, where they pass their checks, and the index with their references. -/
def planUpdate (env : Env) (items : List DiffItem) (node_config : Node) (index : References) :
    Attempt (List Str × References) := do
  let ordered_nodes_by_xpath ← orderUpdates env items node_config
  checkUpdates env node_config ordered_nodes_by_xpath
  let saved ← saveXPathReference env ordered_nodes_by_xpath node_config index
  return (ordered_nodes_by_xpath, saved)

end PlanUpdate

/-- What follows once the deletions are posted. -/
def performUpdate (env : Env) (jconfig : Json) (items : List DiffItem) (removal : Removal) :
    EStateM Halt Draft Json := do
  let json_config ← onNode (editNodes env items removal)
  let draft ← get
  let plan ← attempt (planUpdate env items draft.nodeConfig draft.references)
  modify fun draft => { draft with references := plan.2 }
  onPosts (postUpdates env draft.nodeConfig jconfig json_config [] plan.1)
  pure json_config

/-- `fMakeCandidateConfigInternal`: the result is the document of the candidate. -/
def fMakeCandidateConfigInternal (env : Env) (site : Site) (patch jconfig : Json) :
    EStateM Halt Draft Json := do
  let draft ← get
  let removal ← attempt (planRemoval env patch jconfig draft.nodeConfig)
  let items ← attempt patch.patchItems
  let index ← attempt (removeXPathReference removal.ordered draft.references)
  modify fun draft => { draft with references := index }
  onPosts (postDeletions env site [] removal.ordered)
  compensated (· = .rejected)
    (onPosts (rollback_removed_nodes env site removal.ordered.reverse))
    (performUpdate env jconfig items removal)

end FlexConfig

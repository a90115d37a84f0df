import FlexConfig.Json.RoundTrip
import FlexConfig.Manager.DuplicatedKeys
import FlexConfig.Manager.Patches

/-! # The text of the configuration file

A load reads the text of the configuration file twice: once to look for a key that an object has
twice, and then for the document. Where it goes on, nothing of the text has been lost. An apply
writes the text anew, and whatever calls come in between, the text in the file is read back as
the document that was applied.
-/

namespace FlexConfig

open Procedure Json

namespace Json

variable {document : Json}

theorem repeatsKey_leaf (leaf : ∀ members, document ≠ .object members)
    (flat : ∀ elements, document ≠ .array elements) : ¬ document.RepeatsKey := by
  rintro ⟨inner, inside, _⟩
  cases inside with
  | self => exact leaf _ rfl
  | member => exact leaf _ rfl
  | element => exact flat _ rfl

mutual

/-- A document that is in order has no key twice. -/
theorem unrepeated_of_sorted : ∀ {document : Json}, document.Sorted → ¬ document.RepeatsKey
  | .object members, sorted => by
      rw [repeatsKey_object]
      have distinct : (Keyed.keys members).Nodup := by
        refine List.Pairwise.imp ?_ sorted.1
        rintro name _ less rfl
        exact irrefl _ less
      rintro (twice | ⟨member, isMember, inner⟩)
      · exact twice distinct
      · exact unrepeated_of_sortedMembers sorted.2 member isMember inner
  | .array elements, sorted => by
      rw [repeatsKey_array]
      rintro ⟨element, isElement, inner⟩
      exact unrepeated_of_sortedElements sorted element isElement inner
  | .null, _ | .bool _, _ | .number _, _ | .string _, _ => repeatsKey_leaf nofun nofun

theorem unrepeated_of_sortedMembers : ∀ {members : List (Str × Json)}, SortedMembers members →
    ∀ member ∈ members, ¬ member.2.RepeatsKey
  | (_, value) :: rest, sorted, member, isMember => by
      have here : ¬ value.RepeatsKey := unrepeated_of_sorted sorted.1
      have others := unrepeated_of_sortedMembers sorted.2
      rcases List.mem_cons.mp isMember with rfl | later
      · exact here
      · exact others member later

theorem unrepeated_of_sortedElements : ∀ {elements : List Json}, SortedElements elements →
    ∀ element ∈ elements, ¬ element.RepeatsKey
  | first :: rest, sorted, element, isElement => by
      have here : ¬ first.RepeatsKey := unrepeated_of_sorted sorted.1
      have others := unrepeated_of_sortedElements sorted.2
      rcases List.mem_cons.mp isElement with rfl | later
      · exact here
      · exact others element later

end

/-- Where no key is repeated, what is kept of a document has at every location what the document
has there. -/
theorem atPointer_collected (unrepeated : ¬ document.RepeatsKey) (tokens : List Str) :
    document.collected.atPointer tokens = (document.atPointer tokens).map collected := by
  induction tokens generalizing document with
  | nil => cases document <;> rfl
  | cons token rest ih =>
      cases document with
      | null | bool | number | string => rfl
      | object members =>
          rw [repeatsKey_object, not_or, not_not] at unrepeated
          obtain ⟨distinct, inner⟩ := unrepeated
          have found : Keyed.find token (Keyed.insertAll (collectedMembers members) []) =
              (Keyed.find token members).map collected := by
            rw [Keyed.find_insertAll_of_nodup (by rwa [keys_collectedMembers]), Keyed.find_nil,
              Option.or_none, find_collectedMembers]
          rw [collected, atPointer, atPointer, found]
          cases here : Keyed.find token members with
          | none => rfl
          | some value =>
              exact ih fun again => inner ⟨_, Keyed.mem_of_find here, again⟩
      | array elements =>
          rw [repeatsKey_array] at unrepeated
          rw [collected, atPointer, atPointer, collectedElements_eq_map]
          split
          · rfl
          cases arrayIndex token with
          | error reason => rfl
          | ok index =>
              dsimp only [bind, Except.bind]
              rw [List.getElem?_map]
              cases here : elements[index]? with
              | none => rfl
              | some value =>
                  exact ih fun again => unrepeated ⟨_, List.mem_of_getElem? here, again⟩

end Json

namespace ConfigFile

section Reading

variable {D : Type} (doubles : Doubles D)

/-- `CheckIfThereIsDuplicatedKey` of the text in a file. -/
def CheckIfThereIsDuplicatedKey (text : Str) : Attempt Bool :=
  match CallbackParser.parseText doubles check_duplicate_keys text ({}, {}) with
  | .ok _ state => .ok state.2.is_duplicated_key
  | .error reason _ => .error reason

/-- What `Config::Manager::load` reads from the configuration file. -/
def read (text : Str) : Attempt Json := do
  if ← CheckIfThereIsDuplicatedKey doubles text then .error .rejected
  else Json.parse doubles text

variable {doubles} {text : Str}

/-- The check of a text is that of the document it is written with. -/
theorem check_of_writes {document : BasicJson D} (writes : Writes doubles document text) :
    ∃ found, CheckIfThereIsDuplicatedKey doubles text = .ok found ∧
      (found = true ↔ (document.value doubles).RepeatsKey) := by
  have ran := checked_document (document.value doubles) {} [] rfl rfl
  rw [← Json.repeats_iff]
  unfold CheckIfThereIsDuplicatedKey CallbackParser.parseText
  rw [sax_parse_of_writes writes]
  rcases ran with ⟨unrepeated, ran⟩ | ⟨again, keys, left, ran⟩
  · refine ⟨false, ?_, iff_of_false Bool.false_ne_true unrepeated⟩
    rw [bind_of_ok ran]
    rfl
  · refine ⟨true, ?_, iff_of_true rfl again⟩
    rw [bind_of_ok ran]
    rfl

/-- A text that is no document raises in the check, which pops no stack that is empty before. -/
theorem check_of_not_writes (none : ∀ document : BasicJson D, ¬ Writes doubles document text) :
    CheckIfThereIsDuplicatedKey doubles text = .error .raised := by
  obtain ⟨document, isPrefix⟩ := exists_prefix doubles text
  have whole : ∃ after, forEach (CallbackParser.handle check_duplicate_keys) document.events
      ({}, {}) = .ok ⟨⟩ after := by
    rcases checked_document document {} [] rfl rfl with ⟨_, ran⟩ | ⟨_, _, _, ran⟩ <;>
      exact ⟨_, ran⟩
  obtain ⟨after, whole⟩ := whole
  obtain ⟨between, ran⟩ := forEach_of_isPrefix isPrefix whole
  have incomplete : (sax_parse doubles text).complete = false := by
    rw [Bool.eq_false_iff]
    intro complete
    obtain ⟨document, writes⟩ := complete_iff.mp complete
    exact none document writes
  unfold CheckIfThereIsDuplicatedKey CallbackParser.parseText
  rw [bind_of_ok ran, incomplete]
  rfl

theorem read_of_writes {document : BasicJson D} (writes : Writes doubles document text)
    (unrepeated : ¬ (document.value doubles).RepeatsKey) :
    read doubles text = .ok (document.value doubles).collected := by
  obtain ⟨found, checked, exact_⟩ := check_of_writes writes
  cases found with
  | true => exact absurd (exact_.mp rfl) unrepeated
  | false =>
      rw [read, checked]
      exact Json.parse_of_writes writes

theorem read_of_repeated {document : BasicJson D} (writes : Writes doubles document text)
    (again : (document.value doubles).RepeatsKey) : read doubles text = .error .rejected := by
  obtain ⟨found, checked, exact_⟩ := check_of_writes writes
  cases found with
  | true =>
      rw [read, checked]
      rfl
  | false => exact absurd (exact_.mpr again) Bool.false_ne_true

theorem read_of_not_writes (none : ∀ document : BasicJson D, ¬ Writes doubles document text) :
    read doubles text = .error .raised := by
  rw [read, check_of_not_writes none]
  rfl

/-- A load reads a document from a text exactly where the text is a document without a repeated
key, and what it reads has at every location what the text has there. -/
theorem read_exact (doubles : Doubles D) (text : Str) (jconfig : Json) :
    read doubles text = .ok jconfig ↔
      ∃ document : BasicJson D, Writes doubles document text ∧
        ¬ (document.value doubles).RepeatsKey ∧ jconfig.Sorted ∧
        jconfig = (document.value doubles).collected ∧
        ∀ tokens, jconfig.atPointer tokens =
          ((document.value doubles).atPointer tokens).map collected := by
  constructor
  · intro reads
    by_cases written : ∃ document : BasicJson D, Writes doubles document text
    · obtain ⟨document, writes⟩ := written
      by_cases again : (document.value doubles).RepeatsKey
      · rw [read_of_repeated writes again] at reads
        cases reads
      · rw [read_of_writes writes again] at reads
        cases reads
        exact ⟨document, writes, again, sorted_collected _, rfl, atPointer_collected again⟩
    · rw [read_of_not_writes (not_exists.mp written)] at reads
      cases reads
  · rintro ⟨document, writes, unrepeated, _, rfl, _⟩
    exact read_of_writes writes unrepeated

end Reading

end ConfigFile

section Runs

variable {D : Type} (env : Env) (doubles : Doubles D)

/-- `Config::Manager::load` with the text of the configuration file. -/
def ConfigFile.load (text : Str) : Posting Manager := do
  let jconfig ← attempt (ConfigFile.read doubles text)
  Manager.load env jconfig

/-- A text is what an apply writes of a document: four spaces for each level. -/
def Prints (jconfig : Json) (text : Str) : Prop :=
  ∃ document : BasicJson D, document.value doubles = jconfig ∧
    document.dump doubles true 4 = some text

/-- A manager and the text of its configuration file. -/
structure FileBacked where
  manager : Manager
  text : Str

namespace FileBacked

/-- One call, with the text of a patch as a client sends it. What reaches the file is all that was
written. -/
inductive Step : FileBacked → FileBacked → Prop
  | unreadable {before : FileBacked} {patch : Str}
      (raises : Json.parse doubles patch = .error .raised) : Step before before
  | makeCandidateConfig {before : FileBacked} {patch : Str} {sent : Json} {after : Manager}
      (parses : Json.parse doubles patch = .ok sent)
      (step : Manager.Step env before.manager (.makeCandidateConfig sent) after) :
      Step before ⟨after, before.text⟩
  | cancelCandidateConfig {before : FileBacked} {after : Manager}
      (step : Manager.Step env before.manager .cancelCandidateConfig after) :
      Step before ⟨after, before.text⟩
  | saved {before : FileBacked} {files : FileOutcome} {after : Manager} {text : Str}
      (flushes : files.flushes = true)
      (returned : Manager.applyCandidateConfig files before.manager = .ok ⟨⟩ after)
      (prints : Prints doubles before.manager.candidateJson text) : Step before ⟨after, text⟩
  | unsaved {before : FileBacked} {files : FileOutcome} {reason : Halt} {after : Manager}
      (halted : Manager.applyCandidateConfig files before.manager = .error reason after) :
      Step before ⟨after, before.text⟩

/-- A state that calls have led to since a successful load of a text. -/
def Reached (last : FileBacked) : Prop :=
  ∃ (text : Str) (first : Manager) (log : Log), ConfigFile.load env doubles text [] = .ok first log ∧
    Relation.ReflTransGen (Step env doubles) ⟨first, text⟩ last

/-- The text of the file is read as the document that the manager takes to be in the file. -/
def ReadsBack (backed : FileBacked) : Prop :=
  ∃ jconfig, backed.manager.configFile = some jconfig ∧
    ConfigFile.read doubles backed.text = .ok jconfig

variable {env doubles} {before after : FileBacked}

theorem sorted_of_parse {text : Str} {json : Json} (parses : Json.parse doubles text = .ok json) :
    json.Sorted := by
  by_cases written : ∃ document : BasicJson D, Writes doubles document text
  · obtain ⟨document, writes⟩ := written
    rw [Json.parse_of_writes writes] at parses
    cases parses
    exact sorted_collected _
  · rw [Json.parse_of_not_writes (not_exists.mp written)] at parses
    cases parses

theorem sorted_of_read {text : Str} {json : Json} (reads : ConfigFile.read doubles text = .ok json) :
    json.Sorted := by
  obtain ⟨found, _, parses⟩ := except_bind_eq_ok.mp reads
  split at parses
  · cases parses
  · exact sorted_of_parse parses

/-- What an apply writes passes the check for repeated keys and is read back. -/
theorem read_of_prints (roundTrips : doubles.RoundTrips) {jconfig : Json} {text : Str}
    (sorted : jconfig.Sorted) (prints : Prints doubles jconfig text) :
    ConfigFile.read doubles text = .ok jconfig := by
  obtain ⟨document, rfl, dumped⟩ := prints
  have small : true = true → 4 ≤ 1024 := fun _ => by decide
  obtain ⟨_, again, writes⟩ := writes_dump roundTrips small document
  cases dumped.symm.trans again
  have same := BasicJson.value_reread doubles document
  rw [ConfigFile.read_of_writes writes (by rw [same]; exact unrepeated_of_sorted sorted), same,
    collected_of_sorted sorted]

/-- A call that is not an apply leaves the file. -/
theorem configFile_of_step {op : Manager.Op} {manager next : Manager}
    (step : Manager.Step env manager op next) (other : ∀ files, op ≠ .applyCandidateConfig files) :
    next.configFile = manager.configFile :=
  congrArg Prod.fst (Manager.committed_of_step step other)

theorem step_of_apply {files : FileOutcome} {manager next : Manager}
    (returned : Manager.applyCandidateConfig files manager = .ok ⟨⟩ next) :
    Manager.Step env manager (.applyCandidateConfig files) next := by
  constructor
  · change Manager.goesOn (Manager.applyCandidateConfig files manager) = true
    rw [returned]
    rfl
  · change next = final (Manager.applyCandidateConfig files manager)
    rw [returned]
    rfl

/-- A call with texts is a call with documents whose patch is in order, or none. -/
theorem call_of_step (step : Step env doubles before after) :
    before.manager = after.manager ∨
      ∃ op, PatchInOrder before.manager op ∧ Manager.Step env before.manager op after.manager := by
  cases step with
  | unreadable => exact .inl rfl
  | makeCandidateConfig parses step => exact .inr ⟨.makeCandidateConfig _, sorted_of_parse parses, step⟩
  | cancelCandidateConfig step => exact .inr ⟨.cancelCandidateConfig, trivial, step⟩
  | saved flushes returned prints =>
      exact .inr ⟨.applyCandidateConfig _, trivial, step_of_apply returned⟩
  | unsaved halted =>
      rename_i files reason after
      rcases Manager.apply_cases files before.manager with ⟨_, same⟩ | ⟨_, _, applied⟩
      · rw [same] at halted
        cases halted
        exact .inl rfl
      · rw [applied] at halted
        cases halted

theorem readsBack_of_step (roundTrips : doubles.RoundTrips) (inOrder : InOrder before.manager)
    (reads : ReadsBack doubles before) (step : Step env doubles before after) :
    ReadsBack doubles after := by
  obtain ⟨jconfig, holds, read⟩ := reads
  cases step with
  | unreadable => exact ⟨jconfig, holds, read⟩
  | makeCandidateConfig parses step =>
      exact ⟨jconfig, (configFile_of_step step fun _ => Manager.Op.noConfusion).trans holds, read⟩
  | cancelCandidateConfig step => exact ⟨jconfig, (configFile_of_step step fun _ => Manager.Op.noConfusion).trans holds, read⟩
  | saved flushes returned prints =>
      rename_i files next text
      rcases Manager.apply_cases files before.manager with ⟨_, halted⟩ | ⟨_, _, applied⟩
      · rw [halted] at returned
        cases returned
      · rw [applied] at returned
        cases returned
        refine ⟨before.manager.candidateJson, ?_, read_of_prints roundTrips inOrder.candidate prints⟩
        rw [Manager.applied, flushes]
        rfl
  | unsaved halted =>
      rename_i files reason next
      rcases Manager.apply_cases files before.manager with ⟨_, same⟩ | ⟨_, _, applied⟩
      · rw [same] at halted
        cases halted
        exact ⟨jconfig, holds, read⟩
      · rw [applied] at halted
        cases halted

/-- What is kept over a run with texts: it is a run with documents that are in order, and the text
in the file is read back. -/
structure Faithful (env : Env) (doubles : Doubles D) (backed : FileBacked) : Prop where
  reached : Manager.ReachedInOrder env backed.manager
  reads : ReadsBack doubles backed

theorem faithful_of_step (roundTrips : doubles.RoundTrips) (faithful : Faithful env doubles before)
    (step : Step env doubles before after) : Faithful env doubles after where
  reached := by
    rcases call_of_step step with same | ⟨op, inOrder, call⟩
    · exact same ▸ faithful.reached
    · obtain ⟨first, loaded, sorted, run⟩ := faithful.reached
      exact ⟨first, loaded, sorted, run.tail ⟨op, inOrder, call⟩⟩
  reads := readsBack_of_step roundTrips (inOrder_of_reached faithful.reached) faithful.reads step

theorem faithful_of_load {text : Str} {manager : Manager} {log : Log}
    (loaded : ConfigFile.load env doubles text [] = .ok manager log) :
    Faithful env doubles ⟨manager, text⟩ := by
  obtain ⟨jconfig, _, attempted, loaded⟩ := bind_eq_ok.mp loaded
  obtain ⟨read, rfl⟩ := attempt_eq_ok.mp attempted
  obtain ⟨reloaded, reload, same⟩ := Manager.loaded_eq loaded
  have running : manager.runningJson = jconfig := by rw [same]
  have file : manager.configFile = some jconfig := by rw [same]
  exact ⟨⟨manager, ⟨jconfig, log, loaded⟩, running ▸ sorted_of_read read, .refl⟩,
    ⟨jconfig, file, read⟩⟩

/-- Whatever texts clients send since a load of a text: the calls are calls with documents in
order, the text in the file is read back as the document the manager takes to be there, without a
repeated key, and a manager that is started again comes as far as to the constraints and the
messages of its nodes, with this document. -/
theorem rereads_of_reached (roundTrips : doubles.RoundTrips) {last : FileBacked}
    (reached : Reached env doubles last) :
    Manager.ReachedInOrder env last.manager ∧
      ∃ jconfig, last.manager.configFile = some jconfig ∧ Reloads env jconfig ∧
        ConfigFile.CheckIfThereIsDuplicatedKey doubles last.text = .ok false ∧
        Json.parse doubles last.text = .ok jconfig ∧
        ∀ log, ConfigFile.load env doubles last.text log = Manager.load env jconfig log := by
  obtain ⟨text, first, log, loaded, run⟩ := reached
  have faithful : Faithful env doubles last := by
    induction run with
    | refl => exact faithful_of_load loaded
    | tail _ step ih => exact faithful_of_step roundTrips ih step
  obtain ⟨jconfig, holds, read⟩ := faithful.reads
  have restartable : Restartable env last.manager := by
    obtain ⟨first, loaded, _, run⟩ := faithful.reached
    exact invariant_of_run (Restartable env) (fun _ _ _ restartable _ step =>
      restartable_of_step restartable step) (restartable_of_loaded loaded) run
  refine ⟨faithful.reached, jconfig, holds, restartable.reloads_file holds, ?_⟩
  obtain ⟨found, checked, parses⟩ := except_bind_eq_ok.mp read
  cases found with
  | true => cases parses
  | false =>
      refine ⟨checked, parses, fun log => ?_⟩
      exact bind_of_ok (attempt_eq_ok.mpr ⟨read, rfl⟩)

end FileBacked

end Runs

end FlexConfig

namespace FlexConfig.Sample

open Procedure

def oldFile : Str := "\x7b\"a\": \x7b\"c\": \"kept\", \"b\": \"old\"\x7d\x7d\n".toList

def replaceRequest : Str :=
  "[\x7b\"op\": \"replace\", \"path\": \"/a/b\", \"value\": \"new\"\x7d]".toList

def newDocument : BasicJson Bool :=
  .object [(['a'], .object [(['b'], .string "new".toList), (['c'], .string "kept".toList)])]

/-- What an apply writes of the document with the new value. -/
def newFile : Str := (newDocument.dump twoDoubles true 4).getD []

/-- The text is read back after an apply, when the members are no longer in the order of the
text that was loaded. -/
theorem rereads_of_reached_applied :
    ∃ last : FileBacked, last.text = newFile ∧
      last.manager.configFile = some (twoLeavesConfig "new") ∧
      Json.parse twoDoubles newFile = .ok (twoLeavesConfig "new") := by
  have read : ConfigFile.read twoDoubles oldFile = .ok (twoLeavesConfig "old") := by
    decide +kernel
  have parses : Json.parse twoDoubles replaceRequest = .ok (replaceB "new") := by decide +kernel
  have pending : ∃ last ∈ Manager.reached twoLeaves (twoLeavesConfig "old")
      [.makeCandidateConfig (replaceB "new")],
      last.isCandidateConfigReady = true ∧ last.candidateJson = twoLeavesConfig "new" := by
    decide +kernel
  obtain ⟨second, reaches, ready, candidate⟩ := pending
  rw [Option.mem_def, Manager.reached] at reaches
  split at reaches
  case h_2 => cases reaches
  next first log loaded =>
  rw [Manager.afterCalls] at reaches
  split at reaches
  case isFalse => cases reaches
  next goes =>
  obtain ⟨third, applied⟩ :
      ∃ third, Manager.applyCandidateConfig .success second = .ok ⟨⟩ third := by
    have stored : storedJson second.candidateJson = .ok (twoLeavesConfig "new") := by
      rw [candidate]
      decide
    unfold Manager.applyCandidateConfig
    rw [get_bind, ready]
    exact ⟨_, bind_of_ok (attempt_eq_ok.mpr ⟨stored, rfl⟩)⟩
  have small : true = true → 4 ≤ 1024 := fun _ => by decide
  obtain ⟨text, dumped, _⟩ := writes_dump twoDoubles_roundTrips small newDocument
  have written : Prints twoDoubles second.candidateJson newFile :=
    ⟨newDocument, candidate.symm, by rw [newFile, dumped]; rfl⟩
  have reached : FileBacked.Reached twoLeaves twoDoubles ⟨third, newFile⟩ := by
    refine ⟨oldFile, first, log, (bind_of_ok (attempt_eq_ok.mpr ⟨read, rfl⟩)).trans loaded, ?_⟩
    have made : FileBacked.Step twoLeaves twoDoubles ⟨first, oldFile⟩ ⟨second, oldFile⟩ :=
      .makeCandidateConfig parses ⟨goes, (Option.some.inj reaches).symm⟩
    exact .tail (.single made) (.saved rfl applied written)
  obtain ⟨_, jconfig, holds, _, _, again, _⟩ :=
    FileBacked.rereads_of_reached twoDoubles_roundTrips reached
  have file : third.configFile = some (twoLeavesConfig "new") := by
    rcases Manager.apply_cases .success second with ⟨_, halted⟩ | ⟨_, _, same⟩
    · rw [halted] at applied
      cases applied
    · rw [same] at applied
      cases applied
      exact congrArg some candidate
  rw [file] at holds
  cases holds
  exact ⟨⟨third, newFile⟩, rfl, file, again⟩

end FlexConfig.Sample

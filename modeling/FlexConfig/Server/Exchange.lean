import FlexConfig.Json.RoundTrip
import FlexConfig.Manager.ConfigFile
import FlexConfig.Manager.Requested
import FlexConfig.Server.Candidate

/-! # From a wanted configuration to its candidate

A client that wants a configuration asks the server for the difference to it, and sends what it
was answered as an update. The texts of documents are the host's: an empty text is no document, a
document that is read is in order, and the difference is read back as it was printed.
-/

namespace FlexConfig

open Procedure HTTP Json

variable {host : Host} {manager after : Manager} {files : FileOutcome} {text answer : Str}
  {status : StatusCode}

theorem parseJson_eq_ok {json : Json} :
    host.parseJson text = .ok json ↔ host.parse text = some json := by
  unfold Host.parseJson
  cases host.parse text with
  | none => exact iff_of_false nofun nofun
  | some found => exact ⟨fun same => congrArg some (Except.ok.inj same), fun same => same ▸ rfl⟩

/-- A difference is answered with the printed patch, or with no text where the configuration is
not valid. -/
theorem processRequest_diff_eq_ok
    (answered : processRequest host files .POST URIRequestPath.RUNNING_DIFF text manager =
      .ok (status, answer) after) :
    after = manager ∧ ∃ target, host.parse text = some target ∧
      (answer = [] ∨ answer = host.dump (manager.runningJson.diff target)) := by
  have handled : processRequest host files .POST URIRequestPath.RUNNING_DIFF text =
      processCallbacks URIRequestPath.RUNNING_DIFF text
        [config_running_diff host, config_running_update host] .INTERNAL_SERVER_ERROR [] := rfl
  rw [handled, processCallbacks] at answered
  obtain ⟨result, between, asked, answered⟩ := bind_eq_ok.mp answered
  unfold config_running_diff at asked
  rw [onPath_self] at asked
  obtain ⟨diff, middle, computed, finished⟩ := bind_eq_ok.mp asked
  cases finished
  cases answered
  unfold Manager.getConfigDiff at computed
  rw [get_bind] at computed
  obtain ⟨jschema, _, schema, parsed⟩ := bind_eq_ok.mp computed
  obtain ⟨target, _, reads, validated⟩ := bind_eq_ok.mp parsed
  obtain ⟨_, rfl⟩ := attempt_eq_ok.mp schema
  obtain ⟨read, rfl⟩ := attempt_eq_ok.mp reads
  split at validated
  · obtain ⟨running_jconfig, _, gets, patched⟩ := bind_eq_ok.mp validated
    obtain ⟨_, _, applies, finished⟩ := bind_eq_ok.mp patched
    obtain ⟨stored, rfl⟩ := attempt_eq_ok.mp gets
    obtain ⟨_, rfl⟩ := attempt_eq_ok.mp applies
    cases finished
    have running : running_jconfig = after.runningJson := by
      unfold storedJson at stored
      split at stored <;> cases stored
      rfl
    exact ⟨rfl, target, parseJson_eq_ok.mp read, .inr (by rw [running])⟩
  · cases validated
    exact ⟨rfl, target, parseJson_eq_ok.mp read, .inl rfl⟩

/-- An update that is answered with success has made a candidate of the patch in its text. -/
theorem processRequest_update_eq_ok
    (answered : processRequest host files .POST URIRequestPath.RUNNING_UPDATE text manager =
      .ok (.OK, answer) after) :
    ∃ patch, host.parse text = some patch ∧
      Manager.makeCandidateConfig host.env patch manager = .ok ⟨⟩ after := by
  have handled : processRequest host files .POST URIRequestPath.RUNNING_UPDATE text =
      processCallbacks URIRequestPath.RUNNING_UPDATE text [config_running_update host]
        .INTERNAL_SUCCESS [] := processCallbacks_of_skipped (onPath_other (by decide))
  rw [handled, processCallbacks] at answered
  obtain ⟨result, between, asked, answered⟩ := bind_eq_ok.mp answered
  unfold config_running_update at asked
  rw [onPath_self] at asked
  obtain ⟨patch, _, attempted, tried⟩ := bind_eq_ok.mp asked
  obtain ⟨made, _, ran, finished⟩ := bind_eq_ok.mp tried
  obtain ⟨read, rfl⟩ := attempt_eq_ok.mp attempted
  cases finished
  refine ⟨patch, parseJson_eq_ok.mp read, ?_⟩
  unfold FlexConfig.answered at ran
  cases made with
  | true =>
      cases answered
      split at ran <;> cases ran
      assumption
  | false =>
      cases answered

/-- What was asked for becomes the candidate, for a host that reads its own answer back. -/
theorem candidate_of_answer {files' : FileOutcome} {between : Manager} {data : Str}
    (reached : Manager.ReachedInOrder host.env manager)
    (counted : manager.runningJson.Counted) (empty : host.parse [] = none)
    (ordered : ∀ text json, host.parse text = some json → json.Sorted)
    (reads : ∀ target, host.parse text = some target →
      host.parse (host.dump (manager.runningJson.diff target)) =
        some (manager.runningJson.diff target))
    (diffed : processRequest host files .POST URIRequestPath.RUNNING_DIFF text manager =
      .ok (.OK, answer) between)
    (updated : processRequest host files' .POST URIRequestPath.RUNNING_UPDATE answer between =
      .ok (.OK, data) after) :
    between = manager ∧ after.isCandidateConfigReady = true ∧
      Manager.committed after = Manager.committed manager ∧
      ∃ target, host.parse text = some target ∧ (target.HasPlainNames →
        Requested host.env (manager.runningJson.diffItems target []) target
          after.candidateJson) := by
  obtain ⟨rfl, target, read, answers⟩ := processRequest_diff_eq_ok diffed
  obtain ⟨patch, sent, made⟩ := processRequest_update_eq_ok updated
  have inOrder : InOrder between := inOrder_of_reached reached
  have targetSorted := ordered text target read
  have isDiff : patch = between.runningJson.diff target := by
    rcases answers with rfl | rfl
    · cases empty.symm.trans sent
    · exact Option.some.inj (sent.symm.trans (reads target read))
  have patched : between.runningJson.patch patch = .ok target := by
    rw [isDiff]
    exact patch_diff inOrder.running targetSorted counted
  have items : patch.patchItems = .ok (between.runningJson.diffItems target []) := by
    rw [isDiff]
    exact patchItems_diff inOrder.running targetSorted counted
  obtain ⟨root, json_config, draft, reloaded, _, _, _, made_eq⟩ := Manager.make_eq_ok.mp made
  refine ⟨rfl, by rw [made_eq]; rfl, by rw [made_eq]; rfl, target, read, fun plain => ?_⟩
  obtain ⟨_, parsed, requested⟩ := requested_of_made inOrder counted (ordered _ _ sent) patched
    plain made
  cases items.symm.trans parsed
  exact requested

section Texts

variable {D : Type} {doubles : Doubles D}

/-- What is parsed from a text is in order. -/
theorem sorted_of_toOption {json : Json} (parses : (Json.parse doubles text).toOption = some json) :
    json.Sorted := by
  cases found : Json.parse doubles text with
  | error => rw [found] at parses; cases parses
  | ok read =>
      rw [found] at parses
      cases parses
      exact FileBacked.sorted_of_parse found

end Texts

end FlexConfig

namespace FlexConfig.Sample

open Procedure HTTP

/-- The text of the wanted configuration of one leaf. -/
def wantedText : Str := "\x7b\"a\":\"new\"\x7d".toList

mutual

/-- A document of strings, as the library keeps it. -/
def plainDocument : Json → BasicJson Bool
  | .string text => .string text
  | .array elements => .array (plainElements elements)
  | .object members => .object (plainMembers members)
  | _ => .null

def plainElements : List Json → List (BasicJson Bool)
  | [] => []
  | element :: rest => plainDocument element :: plainElements rest

def plainMembers : List (Str × Json) → List (Str × BasicJson Bool)
  | [] => []
  | (name, element) :: rest => (name, plainDocument element) :: plainMembers rest

end

def exchangeHost : Host where
  env := oneLeafHost.env
  parse := fun body => (Json.parse twoDoubles body).toOption
  dump := fun json => ((plainDocument json).dump twoDoubles false 0).getD []

end FlexConfig.Sample

import FlexConfig.Server.Outcome
import Mathlib.Data.List.DropRight

/-! # Reading the authorization header

A request should be one of the session of a token exactly when its authorization header,
trimmed, is the bearer scheme followed by the token. The code trims a copy that it throws away
and takes what follows the seventh character, whatever stands before it. So it reads a header as
it should where the header is a bearer header without white space around it, and otherwise only
where neither reading leads to a leased token.
-/

namespace FlexConfig

namespace Utils

/-- The characters that `\s` stands for. -/
def isSpace (c : Char) : Bool :=
  c = ' ' || c = '\t' || c = '\n' || c = '\x0b' || c = '\x0c' || c = '\r'

def leftTrim (s : Str) : Str := s.dropWhile isSpace

def rightTrim (s : Str) : Str := s.rdropWhile isSpace

def Trim (s : Str) : Str := leftTrim (rightTrim s)

theorem Trim_sublist (s : Str) : (Trim s).Sublist s :=
  (List.dropWhile_sublist isSpace).trans (List.rdropWhile_prefix isSpace s).sublist

/-- Trimming either shortens a text or leaves it as it is. -/
theorem Trim_eq_self_of_length {s : Str} (same : (Trim s).length = s.length) : Trim s = s :=
  (Trim_sublist s).eq_of_length same

end Utils

namespace Server

open Procedure HTTP Concurrent SessionManager

/-- The header that names a session: the bearer scheme and the token. -/
def bearerHeader (session_token : Str) : Str := Header.Tokens.BEARER ++ ' ' :: session_token

/-- The session a header belongs to: that of a leased token of which it is the bearer header, as
far as white space around it goes, or none. -/
def OwnedBy (auth : Str) (sessions : SessionManager) : (owner : Option Str) → Prop
  | some session_token =>
    sessions.Leased session_token ∧ Utils.Trim auth = bearerHeader session_token
  | none => ∀ session_token, sessions.Leased session_token →
    Utils.Trim auth ≠ bearerHeader session_token

/-- A method refuses a request and leaves the server as it was. -/
def Refuses (host : Host) (server : Server) (method : Task Verdict) : Prop :=
  ∃ status content, method.run (does host) server = .ok ⟨false, status, content⟩ server

/-- A method accepts a request and leaves the sessions in a new state. -/
def Grants (host : Host) (server : Server) (method : Task Verdict) (sessions : SessionManager) :
    Prop :=
  method.run (does host) server = .ok ⟨true, .OK, none⟩ { server with sessions := sessions }

/-- A method refuses a request of a session because another one is active. -/
def Contends (host : Host) (server : Server) (method : Task Verdict) (sessions : SessionManager) :
    Prop :=
  ∃ content, method.run (does host) server =
    .ok ⟨false, .CONFLICT, some content⟩ { server with sessions := sessions }

/-- The methods treat a request as one of the session of an owner. -/
structure Treats (host : Host) (server : Server) (req : Request) (session_token : Str) : Prop where
  gets : (ask (.getSessionToken req)).run (does host) server = .ok (some session_token) server
  checks : Grants host server (ask (.checkSessionToken req))
    (server.sessions.touchSession server.clock session_token)
  checksActive : if server.sessions.activeSessionToken = some session_token then
      Grants host server (ask (.checkActiveSessionToken req)) server.sessions
    else Refuses host server (ask (.checkActiveSessionToken req))
  activates : if server.sessions.FreeFor session_token then
      Grants host server (SetActiveSessionToken req)
        (activated server.clock session_token server.sessions)
    else Contends host server (SetActiveSessionToken req)
      (server.sessions.touchSession server.clock session_token)
  removes : Grants host server (RemoveSessionToken req)
    ((server.sessions.touchSession server.clock session_token).withoutSession session_token)

/-- The methods treat a request as one of no session. -/
structure Dismisses (host : Host) (server : Server) (req : Request) : Prop where
  gets : (ask (.getSessionToken req)).run (does host) server = .ok none server
  checks : Refuses host server (ask (.checkSessionToken req))
  checksActive : Refuses host server (ask (.checkActiveSessionToken req))
  activates : Refuses host server (SetActiveSessionToken req)
  removes : Refuses host server (RemoveSessionToken req)

/-- The methods treat a request as one of the session of an owner, or of none. -/
def TreatsAs (host : Host) (server : Server) (req : Request) : (owner : Option Str) → Prop
  | some session_token => Treats host server req session_token
  | none => Dismisses host server req

/-- The methods read a header as it should be read: they treat the request as one of the session
it belongs to, and as one of no other. -/
def ReadsHeader (host : Host) (server : Server) (auth body : Str) : Prop :=
  ∀ owner, TreatsAs host server ⟨some auth, body⟩ owner ↔ OwnedBy auth server.sessions owner

variable {host : Host} {server : Server} {req : Request} {auth body : Str}

section Owner

theorem bearerHeader_injective {first second : Str} (same : bearerHeader first = bearerHeader second) :
    first = second :=
  (List.cons.inj (List.append_cancel_left same)).2

/-- A header belongs to one session or to none. -/
theorem OwnedBy.unique {sessions : SessionManager} {first second : Option Str}
    (one : OwnedBy auth sessions first) (other : OwnedBy auth sessions second) :
    first = second := by
  cases first with
  | none =>
      cases second with
      | none => rfl
      | some session_token => exact absurd other.2 (one _ other.1)
  | some session_token =>
      cases second with
      | none => exact absurd one.2 (other _ one.1)
      | some other_token =>
          exact congrArg some (bearerHeader_injective (one.2.symm.trans other.2))

theorem exists_ownedBy (auth : Str) (sessions : SessionManager) :
    ∃ owner, OwnedBy auth sessions owner := by
  by_cases owned : ∃ session_token, sessions.Leased session_token ∧
      Utils.Trim auth = bearerHeader session_token
  · obtain ⟨session_token, leased, trimmed⟩ := owned
    exact ⟨some session_token, leased, trimmed⟩
  · exact ⟨none, fun session_token leased trimmed => owned ⟨session_token, leased, trimmed⟩⟩

theorem TreatsAs.gets {owner : Option Str} (treats : TreatsAs host server req owner) :
    (ask (.getSessionToken req)).run (does host) server = .ok owner server := by
  cases owner with
  | none => exact Dismisses.gets treats
  | some session_token => exact Treats.gets treats

/-- A request is treated in one way only. -/
theorem TreatsAs.unique {first second : Option Str} (one : TreatsAs host server req first)
    (other : TreatsAs host server req second) : first = second := by
  cases one.gets.symm.trans other.gets
  rfl

end Owner

section Methods

variable {session_token : Str}

/-- A request of a leased token is treated as one of its session. -/
theorem treats_of_requests (requests : Requests req session_token server.sessions) :
    Treats host server req session_token where
  gets := (congrFun (run_ask _) server).trans (does_getSessionToken requests)
  checks := run_checkSessionToken requests
  checksActive := by
    split
    · next active => exact run_checkActiveSessionToken requests active
    · next inactive =>
        exact ⟨_, _, (congrFun (run_ask _) server).trans
          (onSessions_of_ok (CheckActiveSessionToken_of_inactive requests inactive))⟩
  activates := by
    split
    · next free => exact run_activate requests free
    · next taken => exact run_activate_of_taken host requests taken
  removes := by
    unfold Grants RemoveSessionToken
    rw [run_bind_of_ok (run_checkSessionToken requests), if_pos rfl, run_ask]
    exact onSessions_of_ok (releaseSessionToken_of_token requests.cut)

/-- A request that the check of its token refuses is dismissed. -/
theorem dismisses_of_refused {status : StatusCode}
    (refused : requestedSession req server.sessions = .ok (.error status)) :
    Dismisses host server req := by
  have checked : (ask (.checkSessionToken req)).run (does host) server =
      .ok ⟨false, status, none⟩ server :=
    (congrFun (run_ask _) server).trans (onSessions_of_ok (CheckSessionToken_of_refused refused))
  exact {
    gets := (congrFun (run_ask _) server).trans
      (onSessions_of_ok (GetSessionToken_of_refused refused))
    checks := ⟨_, _, checked⟩
    checksActive := ⟨_, _, (congrFun (run_ask _) server).trans
      (onSessions_of_ok (CheckActiveSessionToken_of_refused refused))⟩
    activates := by
      refine ⟨status, none, ?_⟩
      unfold SetActiveSessionToken
      rw [run_bind_of_ok checked, if_neg Bool.false_ne_true]
      rfl
    removes := by
      refine ⟨status, none, ?_⟩
      unfold RemoveSessionToken
      rw [run_bind_of_ok checked, if_neg Bool.false_ne_true]
      rfl }

end Methods

section Reading

/-- What stands behind the place of the scheme and one character. -/
def behindScheme (auth : Str) : Str := auth.drop (Header.Tokens.BEARER.length + 1)

/-- The owner the code finds: the session of what stands behind the place of the scheme. -/
def codeOwner (auth : Str) (sessions : SessionManager) : Option Str :=
  if sessions.Leased (behindScheme auth) then some (behindScheme auth) else none

/-- A header that is too short raises. -/
theorem get_of_short (short : auth.length < Header.Tokens.BEARER.length + 1) :
    (ask (.getSessionToken ⟨some auth, body⟩)).run (does host) server = .error .raised server := by
  have raised : requestedSession ⟨some auth, body⟩ server.sessions = .error .raised :=
    except_bind_eq_error.mpr (.inl (if_pos short))
  refine (congrFun (run_ask _) server).trans (onSessions_of_error ?_)
  unfold GetSessionToken
  rw [get_bind, bind_of_error (attempt_eq_error.mpr ⟨raised, rfl⟩)]

theorem bearerToken_of_long (long : ¬ auth.length < Header.Tokens.BEARER.length + 1) :
    bearerToken auth = .ok (behindScheme auth) := if_neg long

/-- The methods treat a header that is long enough as one of the owner the code finds. -/
theorem treatsAs_codeOwner (long : ¬ auth.length < Header.Tokens.BEARER.length + 1) :
    TreatsAs host server ⟨some auth, body⟩ (codeOwner auth server.sessions) := by
  have cut := bearerToken_of_long long
  unfold codeOwner
  by_cases leased : server.sessions.Leased (behindScheme auth)
  · rw [if_pos leased]
    exact treats_of_requests (except_bind_eq_ok.mpr ⟨_, cut, if_pos leased⟩)
  · rw [if_neg leased]
    exact dismisses_of_refused (except_bind_eq_ok.mpr ⟨_, cut, if_neg leased⟩)

/-- A header the code reads as it should be read. -/
def WellRead (auth : Str) (sessions : SessionManager) : Prop :=
  Header.Tokens.BEARER.length + 1 ≤ auth.length ∧
    ((Utils.Trim auth = auth ∧ Header.Tokens.BEARER ++ [' '] <+: auth) ∨
      (¬ sessions.Leased (behindScheme auth) ∧ ∀ session_token,
        Utils.Trim auth = bearerHeader session_token → ¬ sessions.Leased session_token))

/-- A header of which the code cuts off what trimming leaves of it is trimmed. -/
theorem trimmed_of_behindScheme (long : ¬ auth.length < Header.Tokens.BEARER.length + 1)
    (trimmed : Utils.Trim auth = bearerHeader (behindScheme auth)) :
    Utils.Trim auth = auth ∧ Header.Tokens.BEARER ++ [' '] <+: auth := by
  have lengths : (Utils.Trim auth).length = auth.length := by
    rw [trimmed, bearerHeader, behindScheme, List.length_append, List.length_cons, List.length_drop]
    omega
  have same := Utils.Trim_eq_self_of_length lengths
  refine ⟨same, behindScheme auth, ?_⟩
  rw [List.append_assoc]
  exact trimmed.symm.trans same

/-- Of a bearer header the code cuts the token off. -/
theorem bearerHeader_behindScheme (bearer : Header.Tokens.BEARER ++ [' '] <+: auth) :
    auth = bearerHeader (behindScheme auth) := by
  obtain ⟨session_token, same⟩ := bearer
  subst same
  rfl

/-- The owner the code finds is the one the header belongs to exactly where the header is well
read. -/
theorem ownedBy_codeOwner_iff {sessions : SessionManager}
    (long : ¬ auth.length < Header.Tokens.BEARER.length + 1) :
    OwnedBy auth sessions (codeOwner auth sessions) ↔ WellRead auth sessions := by
  have bounded := Nat.not_lt.mp long
  unfold codeOwner
  by_cases leased : sessions.Leased (behindScheme auth)
  · rw [if_pos leased]
    constructor
    · intro owned
      exact ⟨bounded, .inl (trimmed_of_behindScheme long owned.2)⟩
    · intro read
      rcases read.2 with ⟨trimmed, bearer⟩ | ⟨unleased, _⟩
      · exact ⟨leased, trimmed.trans (bearerHeader_behindScheme bearer)⟩
      · exact absurd leased unleased
  · rw [if_neg leased]
    constructor
    · intro free
      exact ⟨bounded, .inr ⟨leased, fun session_token trimmed held =>
        free session_token held trimmed⟩⟩
    · intro read session_token held trimmed
      rcases read.2 with ⟨same, bearer⟩ | ⟨_, others⟩
      · have token := bearerHeader_injective
          (trimmed.symm.trans (same.trans (bearerHeader_behindScheme bearer)))
        exact leased (token ▸ held)
      · exact others session_token trimmed held

/-- The methods read a header as it should be read exactly where it is well read. -/
theorem readsHeader_iff (host : Host) (server : Server) (auth body : Str) :
    ReadsHeader host server auth body ↔ WellRead auth server.sessions := by
  by_cases short : auth.length < Header.Tokens.BEARER.length + 1
  · constructor
    · intro reads
      obtain ⟨owner, owned⟩ := exists_ownedBy auth server.sessions
      have treats := TreatsAs.gets ((reads owner).mpr owned)
      cases (get_of_short short).symm.trans treats
    · intro read
      exact absurd short (Nat.not_lt.mpr read.1)
  · rw [← ownedBy_codeOwner_iff short]
    have treats : TreatsAs host server ⟨some auth, body⟩ (codeOwner auth server.sessions) :=
      treatsAs_codeOwner short
    constructor
    · intro reads
      exact (reads _).mp treats
    · intro owned owner
      constructor
      · intro other
        rw [other.unique treats]
        exact owned
      · intro other
        rw [other.unique owned]
        exact treats

end Reading

end Server

end FlexConfig

namespace FlexConfig.Sample

open Concurrent Server HTTP

/-- A request with another scheme of six letters. -/
def digest (session_token : String) : Str := ("Digest " ++ session_token).toList

/-- A foreign scheme of six letters is taken for the bearer scheme, and a short header raises. -/
theorem digest_taken_for_bearer :
    ∃ server ∈ serverAfter [.request (leasing "s") .postSessionToken],
      TreatsAs oneLeafHost server ⟨some (digest "s"), []⟩ (some "s".toList) ∧
        (ask (.getSessionToken ⟨some "Basic".toList, []⟩)).run (does oneLeafHost) server =
          .error .raised server ∧
        ¬ ReadsHeader oneLeafHost server (digest "s") [] := by
  have leases : ∃ server ∈ serverAfter [.request (leasing "s") .postSessionToken],
      server.sessions.Leased "s".toList := by
    decide +kernel
  obtain ⟨server, reached, leased⟩ := leases
  have treats : TreatsAs oneLeafHost server ⟨some (digest "s"), []⟩
      (codeOwner (digest "s") server.sessions) := treatsAs_codeOwner (by decide)
  have found : codeOwner (digest "s") server.sessions = some "s".toList := if_pos leased
  rw [found] at treats
  refine ⟨server, reached, treats, get_of_short (by decide), fun reads => ?_⟩
  have trimmed := ((reads _).mp treats).2
  exact absurd trimmed (by decide)

end FlexConfig.Sample

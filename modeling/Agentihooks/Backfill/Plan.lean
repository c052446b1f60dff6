import Mathlib.Data.List.Sort
import Mathlib.Data.String.Basic
import Agentihooks.Importer.Sources
import Agentihooks.Ingest.Request

-- The plan of a backfill of legacy sessions: its sources, grouped into sessions, each with the copy to be imported. What
-- is made of a source is asked of the audit and the importer.

namespace Backfill

inductive Fidelity
  | missing
  | vectorOnly
  | previewOnly
  | fullRaw
  deriving DecidableEq

-- `RANK`
def Fidelity.rank : Fidelity → ℕ
  | missing     => 0
  | vectorOnly  => 1
  | previewOnly => 2
  | fullRaw     => 3

-- What `audit_source` finds.
structure Found where
  fidelity      : Fidelity
  confidence    : String
  rawSha256     : Option String
  previewSha256 : Option String
  vectorsSha256 : Option String

-- A source with its raw bytes, preview and vector rows in `material`.
structure Source (M : Type) where
  provider        : String
  installation    : String
  nativeSessionId : String
  location        : String
  material        : M

abbrev Aliases := List (String × String)

-- `audit_source` of a source's observation with the class of its refusal, and `_events`: nothing where they raise.
structure Tools (M : Type) where
  audit  : Source M → Option (Except String Found)
  events : Source M → Found → Aliases → Option (List JsonValue)

structure Plan (M : Type) where
  corpus    : String
  sources   : List (Source M)
  aliases   : Aliases
  batchSize : ℤ

structure Refusal where
  errorClass : String
  detail     : String
  deriving DecidableEq

section Check

variable {M : Type}

def providers : List String :=
  ["claude", "codex"]

-- `_source_error`
def sourceError (index : ℕ) (source : Source M) : Option String :=
  if source.provider = "" ∨ source.installation = "" ∨ source.nativeSessionId = "" ∨ source.location = "" then
    some s!"source {index} needs a provider, installation, native_session_id and location"
  else if source.provider ∉ providers then some s!"source {index} provider is not claude or codex"
  else none

-- `_plan_error`
def planError (grant : Ingest.Grant) (plan : Plan M) (runId : String) : Option Refusal :=
  if runId = "" then some ⟨"invalid_plan", "a run id must be a non-empty string"⟩
  else if plan.batchSize < 1 then some ⟨"invalid_plan", "batch_size must be a positive integer"⟩
  else
    match (plan.sources.zipIdx.filterMap fun entry => sourceError entry.2 entry.1).head? with
    | some error => some ⟨"invalid_plan", error⟩
    | none       =>
      if ¬ plan.aliases.all fun entry => Importer.absolute entry.1 then
        some ⟨"invalid_plan", "alias folders must be absolute paths"⟩
      else if ∃ entry ∈ plan.aliases, entry.2 ∉ grant.projects then
        some ⟨"forbidden_scope", "an alias names a project outside the grant"⟩
      else if plan.corpus ≠ grant.corpus then
        some ⟨"forbidden_scope", "the plan is not approved for the granted corpus; nothing was imported"⟩
      else none

end Check

-- A reason for which a session, or a copy of it, was left out.
structure Entry where
  reason : String
  detail : String
  deriving DecidableEq

structure Key where
  provider        : String
  installation    : String
  nativeSessionId : String
  deriving DecidableEq

-- A session that is to be imported from the best of its copies.
structure Import where
  found      : Found
  digest     : String
  references : List String
  generation : String
  events     : List JsonValue

inductive Outcome
  | selected (source : Import)
  | quarantined
  | missing

structure Item where
  key        : Key
  sessionUid : String
  quarantine : List Entry
  outcome    : Outcome

section Work

variable {M : Type} (tools : Tools M)

def Source.key (source : Source M) : Key :=
  ⟨source.provider, source.installation, source.nativeSessionId⟩

def Key.uid (corpus : String) (key : Key) : String :=
  ":".intercalate [corpus, key.provider, key.installation, key.nativeSessionId]

-- `_content_digest`, where an empty text counts as none.
def Found.digest (found : Found) : Option String :=
  ((found.rawSha256.filter (· ≠ "")).or (found.previewSha256.filter (· ≠ ""))).or found.vectorsSha256

def sorted (texts : List String) : List String :=
  texts.insertionSort (· ≤ ·)

-- `_audited`: the copies that were audited, and the refusals of the others.
def audited (sources : List (Source M)) : Option (List (Source M × Found) × List Entry) :=
  (sources.mapM fun source => (tools.audit source).map fun result => (source, result)).map fun results =>
    (results.filterMap fun (source, result) => result.toOption.map fun found => (source, found),
      results.filterMap fun (source, result) =>
        match result with
        | .ok _             => none
        | .error errorClass => some ⟨"refused_source", s!"{source.location}: {errorClass}"⟩)

-- `import` is of the transcript, `legacy` of what else is left of a session.
def generation (found : Found) (digest : String) : String :=
  (if found.fidelity = .fullRaw then "import:" else "legacy:") ++ digest

-- `_select`, with the generation and the events of what is imported.
def select (aliases : Aliases) (sources : List (Source M)) : Option (List Entry × Outcome) :=
  (audited tools sources).bind fun (held, refused) =>
    let most    := (held.map fun copy => copy.2.fidelity.rank).foldl max 0
    let best    := held.filter fun copy => copy.2.fidelity.rank = most
    let digests := sorted (best.filterMap fun copy => copy.2.digest).dedup
    match digests, best with
    | [], _                          => some (refused, if refused = [] then .missing else .quarantined)
    | [digest], (source, found) :: _ =>
      (tools.events source found aliases).map fun events =>
        (refused, .selected {
          found      := found
          digest     := digest
          references := sorted (best.map fun copy => copy.1.location)
          generation := generation found digest
          events     := events })
    | digests, _                     => some (refused ++ digests.map (⟨"conflicting_source_content", ·⟩), .quarantined)

def Plan.item (plan : Plan M) (key : Key) : Option Item :=
  (select tools plan.aliases (plan.sources.filter fun source => source.key = key)).map fun (quarantine, outcome) =>
    ⟨key, key.uid plan.corpus, quarantine, outcome⟩

-- The keys of the sources, each as it comes first.
def keysOf (sources : List (Source M)) : List Key :=
  sources.foldl (fun keys source => if source.key ∈ keys then keys else keys ++ [source.key]) []

-- `_work`
def Plan.work (plan : Plan M) : Option (List Item) :=
  ((keysOf plan.sources).mapM (plan.item tools)).map fun items =>
    items.insertionSort fun x y => x.sessionUid ≤ y.sessionUid

end Work

end Backfill

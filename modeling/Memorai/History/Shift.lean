import Memorai.Collections.Dict
import Memorai.Storage.HistoryReads

/-! Why a decision shifted: a read over what ingestion left. The walk is blind to permissions, and
every walked claim is checked before anything is assembled. -/
namespace Memorai.History
open Schema Storage Text

/-- `repr` of a string, and milliseconds as days with one decimal. -/
structure Formatting where
  repr : String → String
  days : Int → String

structure Walk where
  candidates : List Claim := []
  edges : List (String × String) := []
  hopOf : List String := []
  deriving DecidableEq, Repr

inductive ClaimView where
  | withheld (id : String) (reason : DenyReason)
  | shown (id statement : String) (status : ClaimStatus) (assertedAtMs : Int) (sources : List SourceId)
      (isCommitment : Bool)
  deriving DecidableEq, Repr

structure CitationView where
  eventId : String
  connector : String
  externalId : String
  url : Option String
  occurredAtMs : Int
  ingestedAtMs : Int
  quote : Option String
  deriving DecidableEq, Repr

structure Step where
  superseding : ClaimView
  superseded : ClaimView
  elapsedMs : Option Int
  newCitations : List CitationView
  withheld : Bool
  deriving DecidableEq, Repr

inductive Reconciled where
  | claim (view : ClaimView)
  | absent (id : String)
  deriving DecidableEq, Repr

structure Denial where
  id : String
  reason : DenyReason
  deriving DecidableEq, Repr

structure ShiftHistory where
  claimId : String
  answered : Bool
  text : String
  chain : List ClaimView := []
  steps : List Step := []
  conflicts : List (ClaimView × ClaimView) := []
  reconciliations : List (ClaimView × Reconciled) := []
  denied : List Denial := []
  considered : Nat := 0
  deriving DecidableEq, Repr

/-- Why each walked object is denied, if it is. -/
abbrev Verdicts := List (String × Option DenyReason)

/-- `verdicts.get(id)` -/
def Verdicts.reason (verdicts : Verdicts) (id : String) : Option DenyReason := (verdicts.lookup id).join

/-- `if claim.reconciled_into` -/
def reconciledInto (claim : Claim) : Option String := claim.reconciledInto.filter (· ≠ "")

section Read
variable (rows : RowOrder Row) (s : Store) (scope : Scope) (nowMs : Int)

def walk (objectId : String) : Walk :=
  let chain := s.supersessionChain scope.ownerId objectId 24
  let ids := chain.map (fun r => r.key.id)
  let links := if ids = [] then [] else s.conflictLinks scope.ownerId ids
  let reconciled := chain.filterMap (fun r => r.claim?.bind reconciledInto)
  let extra := (reconciled ++ links.flatMap (fun (a, b) => [a, b])).filter (· ∉ ids)
  let found := chain ++ (if extra = [] then [] else s.getMany rows scope.ownerId extra)
  { candidates := found.filterMap Row.claim?
    edges := links
    hopOf := ids }

def verdict (claim : Claim) : Option DenyReason :=
  match evaluate scope claim.acl nowMs with
  | .allow => none
  | .deny reason => some reason

/-- One `evaluate` per walked claim, before anything is assembled. -/
def checkPermissions (candidates : List Claim) : Verdicts × List Denial :=
  (Dict.collect Claim.id (verdict scope nowMs) candidates,
    candidates.filterMap (fun claim => (verdict scope nowMs claim).map (Denial.mk claim.id)))

end Read

def claimView (claim : Claim) : Option DenyReason → ClaimView
  | some reason => .withheld claim.id reason
  | none => .shown claim.id claim.statement claim.status claim.assertedAtMs claim.acl.sources claim.commitment.isSome

def citationView (citation : Citation) : CitationView where
  eventId := citation.eventId
  connector := citation.source.connector
  externalId := citation.source.externalId
  url := citation.source.url
  occurredAtMs := citation.source.occurredAtMs
  ingestedAtMs := citation.source.ingestedAtMs
  quote := citation.quote

/-- One `SUPERSEDES` link, with the citations that are new in the superseding claim. Interval and
citations are content of the two claims, so neither survives a denial at either end. -/
def step (superseding superseded : Claim) (verdicts : Verdicts) : Step :=
  let bothVisible := verdicts.reason superseding.id = none ∧ verdicts.reason superseded.id = none
  let known := superseded.provenance.citations.map Citation.eventId
  let new := superseding.provenance.citations.filter (fun c => c.eventId ∉ known)
  { superseding := claimView superseding (verdicts.reason superseding.id)
    superseded := claimView superseded (verdicts.reason superseded.id)
    elapsedMs := if bothVisible then some (superseding.assertedAtMs - superseded.assertedAtMs) else none
    newCitations := if bothVisible then new.map citationView else []
    withheld := !bothVisible }

/-- `(c.asserted_at_ms, c.id)` -/
def claimBefore (a b : Claim) : Prop := a.assertedAtMs < b.assertedAtMs ∨ a.assertedAtMs = b.assertedAtMs ∧ a.id ≤ b.id

instance : DecidableRel claimBefore := fun a b => by unfold claimBefore; infer_instance

section Text
variable (fmt : Formatting)

def short : ClaimView → String
  | .withheld id _ => "[withheld " ++ id ++ "]"
  | .shown id statement _ _ _ _ => "\"" ++ statement ++ "\" (" ++ id ++ ")"

def stepText (n : Nat) (step : Step) : String :=
  let line := toString n ++ ". "
  if step.withheld then
    line ++ short step.superseding ++ " superseded " ++ short step.superseded ++ " -- details withheld (out of scope)."
  else
    let gap := fmt.days (step.elapsedMs.getD 0)
    let evidence := join ", " (step.newCitations.map (fun c => c.connector ++ "/" ++ c.externalId))
    line ++ "after " ++ gap ++ "d, " ++ short step.superseding ++ " superseded " ++ short step.superseded ++
      (if evidence = "" then " -- no new citations." else " -- new evidence: " ++ evidence ++ ".")

def shiftText (claimId : String) (steps : List Step) (conflicts : List (ClaimView × ClaimView)) : String :=
  if steps = [] ∧ conflicts = [] then claimId ++ " has not been superseded or contradicted."
  else
    join "\n" ((claimId ++ ": " ++ toString steps.length ++ " supersession(s), " ++ toString conflicts.length ++
        " open conflict(s).") ::
      steps.zipIdx.map (fun (step, i) => stepText fmt (i + 1) step) ++
      conflicts.map (fun (claim, contradicts) => "! " ++ short claim ++ " still contradicts " ++ short contradicts ++ "."))

def pretty (denials : List Denial) : String :=
  join ", " (((denials.map (fun d => d.reason.value)).dedup.insertionSort (· ≤ ·)).map
    (fun r => r.map (fun c => if c = '_' then ' ' else c)))

def assemble (claimId : String) (walked : Walk) (verdicts : Verdicts) (denials : List Denial) : ShiftHistory :=
  let claims := Dict.collect Claim.id id walked.candidates
  let view (claim : Claim) : ClaimView := claimView claim (verdicts.reason claim.id)
  if claims = [] then
    { claimId := claimId
      answered := false
      text := "No claim " ++ fmt.repr claimId ++ " is present in this memory." }
  else if claims.all (fun p => (verdicts.reason p.1).isSome) then
    { claimId := claimId
      answered := false
      text := "Declining to answer: " ++ toString claims.length ++ " claim(s) make up this decision's history, but " ++
        "none are within the requesting agent's scope (" ++ pretty denials ++ ")."
      denied := denials
      considered := claims.length }
  else
    let ordered := ((claims.filter (fun p => p.1 ∈ walked.hopOf)).map Prod.snd).insertionSort claimBefore
    let steps := ((claims.map Prod.snd).insertionSort claimBefore).flatMap (fun claim =>
      claim.supersedes.filterMap (fun superseded =>
        (claims.lookup superseded).map (fun earlier => step claim earlier verdicts)))
    let conflicts := walked.edges.filterMap (fun (a, b) =>
      (claims.lookup a).bind (fun claim => (claims.lookup b).map (fun contradicts => (view claim, view contradicts))))
    let reconciliations := ordered.filterMap (fun claim => (reconciledInto claim).map (fun target =>
      (view claim, match claims.lookup target with
        | some other => .claim (view other)
        | none => .absent target)))
    { claimId := claimId
      answered := true
      text := shiftText fmt claimId steps conflicts
      chain := ordered.map view
      steps := steps
      conflicts := conflicts
      reconciliations := reconciliations
      denied := denials
      considered := claims.length }

end Text

/-- The read under an introspected grant. -/
def whyDidThisShift (fmt : Formatting) (rows : RowOrder Row) (s : Store) (scope : Scope) (claimId : String)
    (nowMs : Int) : ShiftHistory :=
  let walked := walk rows s scope claimId
  let (verdicts, denials) := checkPermissions scope nowMs walked.candidates
  assemble fmt claimId walked verdicts denials

end Memorai.History

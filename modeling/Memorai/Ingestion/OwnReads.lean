import Memorai.Context.Chain
import Memorai.Ingestion.Tenants

/-! What an owner reads from a store that others use, too: what it would read from a store of its own. -/
namespace Memorai.Ingestion
open Schema Memorai.Graph Storage

section Reads
variable {rows : RowOrder Row} {s : Store} {scope : Scope} {nowMs : Int}

theorem whyDidThisShift_ofOwner (fmt : History.Formatting) (claimId : String) :
    History.whyDidThisShift fmt rows (s.ofOwner scope.ownerId) scope claimId nowMs =
      History.whyDidThisShift fmt rows s scope claimId nowMs := by
  simp only [History.whyDidThisShift, History.walk, Store.supersessionChain_ofOwner, Store.conflictLinks_ofOwner,
    Store.getMany_ofOwner]

theorem contextChain_ofOwner (repr : String → String) (objectId : String) (hops : Nat) :
    Context.contextChain repr rows (s.ofOwner scope.ownerId) scope objectId hops nowMs =
      Context.contextChain repr rows s scope objectId hops nowMs := by
  simp only [Context.contextChain, Context.walk, Store.citesChain_ofOwner, Store.getMany_ofOwner]

theorem neighbourhood_ofOwner (h : Uncrossed s) (repr : String → String) (seedIds : List String) (hops : Nat) :
    Nearby.neighbourhood repr rows (s.ofOwner scope.ownerId) scope seedIds hops nowMs =
      Nearby.neighbourhood repr rows s scope seedIds hops nowMs := by
  simp only [Nearby.neighbourhood, Nearby.walk, Store.neighbourIds_ofOwner h, Store.edgesAmong_ofOwner, Store.getMany_ofOwner]

end Reads

/-- Every read of an owner gives the same answer, word for word, on a store that others have ingested into and wiped as on
one with the owner's runs alone. -/
theorem own_reads (steps : List TenantStep) (hx : ∀ job ∈ ingested steps, job.Extracted) (hapart : Apart (ingested steps))
    (fmt : History.Formatting) (rows : RowOrder Row) (scope : Scope) (nowMs : Int) :
    let shared := serve steps PropertyGraph.empty
    let alone := runAll (jobsSince scope.ownerId steps) PropertyGraph.empty
    (∀ claimId, History.whyDidThisShift fmt rows shared scope claimId nowMs =
      History.whyDidThisShift fmt rows alone scope claimId nowMs) ∧
    (∀ objectId hops, Context.contextChain fmt.repr rows shared scope objectId hops nowMs =
      Context.contextChain fmt.repr rows alone scope objectId hops nowMs) ∧
    (∀ seedIds hops, Nearby.neighbourhood fmt.repr rows shared scope seedIds hops nowMs =
      Nearby.neighbourhood fmt.repr rows alone scope seedIds hops nowMs) ∧
    ∀ q, shared.openCommitments rows scope.ownerId q = alone.openCommitments rows scope.ownerId q := by
  obtain ⟨hdivided, hown⟩ := divided_serve hx hapart (fun _ h => h)
  dsimp only
  rw [← hown scope.ownerId]
  refine ⟨fun claimId => ?_, fun objectId hops => ?_, fun seedIds hops => ?_, fun q => ?_⟩
  · exact (whyDidThisShift_ofOwner fmt claimId).symm
  · exact (contextChain_ofOwner fmt.repr objectId hops).symm
  · exact (neighbourhood_ofOwner hdivided.uncrossed fmt.repr seedIds hops).symm
  · exact Store.openCommitments_ofOwner.symm

/-- A grant of Alice's for projects of the mock source. -/
def aliceScope : Scope where
  agentId := "agent"
  ownerId := "alice"
  sources := [mockConnector]
  entityKinds := [.project]

/-- Of the project of the same name that Bob writes about Alice reads nothing. -/
theorem own_reads_alice :
    Nearby.neighbourhood id .asStored (serve aliceAndBob PropertyGraph.empty) aliceScope [(soleClaim toPostgres).id] 2 0 =
      Nearby.neighbourhood id .asStored (runAll [toPostgres] PropertyGraph.empty) aliceScope [(soleClaim toPostgres).id] 2 0 :=
  (own_reads aliceAndBob aliceAndBob_extracted aliceAndBob_apart ⟨id, toString⟩ .asStored aliceScope 0).2.2.1
    [(soleClaim toPostgres).id] 2

end Memorai.Ingestion

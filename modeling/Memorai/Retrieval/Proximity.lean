import Mathlib.Algebra.Order.Field.Basic
import Mathlib.Algebra.Order.Field.Rat
import Memorai.Collections.Results
import Memorai.Nearby.Owners
import Memorai.Storage.VectorSearch

/-! Hybrid ranking, and what graph proximity gives the candidates it starts from. Scores are exact. -/
namespace Memorai.Retrieval
open Schema Memorai.Graph Storage Memorai.Order Nearby

section Ranking

def semanticWeight : ℚ := 3 / 5

def recencyWeight : ℚ := 3 / 20

def proximityWeight : ℚ := 1 / 4

def recencyHalfLifeMs : ℚ := 30 * 86400000

structure RankedNode where
  node : Row
  score : ℚ
  semantic : ℚ
  recency : ℚ
  proximity : ℚ
  deriving DecidableEq

inductive ZeroDivisionError where
  | floatDivisionByZero
  deriving DecidableEq, Repr

def recencyScore (exp : ℚ → ℚ) (occurredAtMs nowMs : Int) : ℚ :=
  exp (-(max (nowMs - occurredAtMs) 0 : Int) / recencyHalfLifeMs)

def proximityScore : Option Nat → Except ZeroDivisionError ℚ
  | none => .ok 0
  | some 0 => .error .floatDivisionByZero
  | some hops => .ok (1 / hops)

/-- One turn of the loop in `rank`. -/
def scored (exp : ℚ → ℚ) (hopsById : List (String × Nat)) (nowMs : Int) (candidate : Row × ℚ) :
    Except ZeroDivisionError RankedNode :=
  let recency := recencyScore exp candidate.1.occurredAtMs nowMs
  (proximityScore (hopsById.lookup candidate.1.key.id)).map (fun proximity =>
    { node := candidate.1
      score := semanticWeight * candidate.2 + recencyWeight * recency + proximityWeight * proximity
      semantic := candidate.2
      recency := recency
      proximity := proximity })

/-- The sort is stable, also in reverse. -/
def rank (exp : ℚ → ℚ) (candidates : List (Row × ℚ)) (hopsById : List (String × Nat)) (nowMs : Int) :
    Except ZeroDivisionError (List RankedNode) :=
  (candidates.mapM (scored exp hopsById nowMs)).map (List.insertionSort (fun a b => b.score ≤ a.score))

/-- The strongest third of the candidates, and at least one of them. -/
def seedIds (candidates : List (Row × ℚ)) : List String :=
  (candidates.take (max (candidates.length / 3) 1)).map (fun candidate => candidate.1.key.id)

def retrieveStored {Vector : Type} {similarity : Vector → String → ℚ} {v : Vector} (exp : ℚ → ℚ) (s : Store)
    (index : VectorIndex similarity v s.nodes) (ownerId : String) (topK : Nat) (nowMs : Int) :
    Except ZeroDivisionError (List RankedNode) :=
  let candidates := vectorSearch index ownerId (topK * 2)
  if candidates = [] then .ok []
  else (rank exp candidates (s.neighbourIds ownerId (seedIds candidates) 2) nowMs).map (List.take topK)

end Ranking

section Proximity

/-- How close a node at some distance is. A node that was not reached is not close at all. -/
def closeness : Option Nat → ℚ
  | none => 0
  | some hops => 1 / hops

theorem proximityScore_ok_iff {hops : Option Nat} {p : ℚ} : proximityScore hops = .ok p ↔ hops ≠ some 0 ∧ closeness hops = p := by
  rcases hops with - | - | n <;> simp [proximityScore, closeness]

theorem closeness_nonneg (hops : Option Nat) : 0 ≤ closeness hops := by
  cases hops with
  | none => exact le_refl 0
  | some n => exact one_div_nonneg.mpr (Nat.cast_nonneg n)

/-- Whatever is at least as close was reached in at most as many hops. -/
theorem closeness_le_iff {a b : Option Nat} (ha : a ≠ some 0) (hb : b ≠ some 0) :
    closeness b ≤ closeness a ↔ ∀ n, b = some n → ∃ m ≤ n, a = some m := by
  cases b with
  | none => simpa [closeness] using closeness_nonneg a
  | some n =>
    have hn : (0 : ℚ) < n := Nat.cast_pos.mpr (Nat.pos_of_ne_zero (fun h => hb (congrArg some h)))
    cases a with
    | none =>
      have hlt : ¬ 1 / (n : ℚ) ≤ 0 := not_le.mpr (one_div_pos.mpr hn)
      simpa [closeness] using hlt
    | some m =>
      have hm : (0 : ℚ) < m := Nat.cast_pos.mpr (Nat.pos_of_ne_zero (fun h => ha (congrArg some h)))
      rw [closeness, closeness, one_div_le_one_div hn hm, Nat.cast_le]
      simp

end Proximity

section Rank
variable {exp : ℚ → ℚ} {hopsById : List (String × Nat)} {nowMs : Int} {candidates : List (Row × ℚ)} {ranked : List RankedNode}

theorem scored_ok {candidate : Row × ℚ} {r : RankedNode} (h : scored exp hopsById nowMs candidate = .ok r) :
    r.node = candidate.1 ∧ r.proximity = closeness (hopsById.lookup candidate.1.key.id) := by
  obtain ⟨p, hp, rfl⟩ := Results.map_ok h
  exact ⟨rfl, (proximityScore_ok_iff.mp hp).2.symm⟩

/-- A ranking fails exactly if some candidate is at distance zero. -/
theorem exists_rank_iff : (∃ ranked, rank exp candidates hopsById nowMs = .ok ranked) ↔
    ∀ c ∈ candidates, hopsById.lookup c.1.key.id ≠ some 0 := by
  rw [rank, Results.exists_map_ok_iff, Results.exists_mapM_iff]
  refine forall₂_congr (fun c _ => ?_)
  rw [scored, Results.exists_map_ok_iff]
  simp [proximityScore_ok_iff]

/-- A ranking is of the candidates, each of them as close as it is far. -/
theorem rank_perm (h : rank exp candidates hopsById nowMs = .ok ranked) :
    (ranked.map (fun r => (r.node, r.proximity))).Perm
      (candidates.map (fun c => (c.1, closeness (hopsById.lookup c.1.key.id)))) := by
  obtain ⟨turns, hturns, rfl⟩ := Results.map_ok h
  have heach : List.Forall₂ (fun c r => (c.1, closeness (hopsById.lookup c.1.key.id)) = (r.node, r.proximity)) candidates turns := by
    refine (Results.forall₂_of_mapM hturns).imp (fun c r hr => ?_)
    obtain ⟨hnode, hproximity⟩ := scored_ok hr
    rw [hnode, hproximity]
  have hmaps : candidates.map (fun c => (c.1, closeness (hopsById.lookup c.1.key.id))) =
      turns.map (fun r => (r.node, r.proximity)) := by
    rw [← List.forall₂_eq_eq_eq, List.forall₂_map_left_iff, List.forall₂_map_right_iff]
    exact heach
  rw [hmaps]
  exact (List.perm_insertionSort _ turns).map _

theorem forall_mem_rank_iff (h : rank exp candidates hopsById nowMs = .ok ranked) {P : Row → ℚ → Prop} :
    (∀ r ∈ ranked, P r.node r.proximity) ↔ ∀ c ∈ candidates, P c.1 (closeness (hopsById.lookup c.1.key.id)) := by
  have hmem : ∀ q : Row × ℚ, _ ↔ _ := fun q => (rank_perm h).mem_iff (a := q)
  have hall : (∀ q ∈ ranked.map (fun r => (r.node, r.proximity)), P q.1 q.2) ↔
      ∀ q ∈ candidates.map (fun c => (c.1, closeness (hopsById.lookup c.1.key.id))), P q.1 q.2 :=
    forall_congr' (fun q => imp_congr_left (hmem q))
  simpa only [List.forall_mem_map] using hall

end Rank

section Seeds

/-- What proximity promises of a ranking: no seed is less close than a candidate that is not one, and of the nodes that
were reached the nearer ones are at least as close. -/
structure SeedsLead (seeds : List String) (hopsById : List (String × Nat)) (ranked : List RankedNode) : Prop where
  anchors : ∀ a ∈ ranked, ∀ b ∈ ranked, a.node.key.id ∈ seeds → b.node.key.id ∉ seeds → b.proximity ≤ a.proximity
  antitone : ∀ a ∈ ranked, ∀ b ∈ ranked, ∀ m n, hopsById.lookup a.node.key.id = some m →
    hopsById.lookup b.node.key.id = some n → m ≤ n → b.proximity ≤ a.proximity

/-- The owner's node with this id is at the end of a path of `n` relationships from a seed. -/
def Reaches (s : Store) (ownerId : String) (nodeIds : List String) (x : String) (n : Nat) : Prop :=
  TrailTo s.edges (s.seedKeys ownerId nodeIds) (fun k => s.ownedBy ownerId k ∧ k.id = x) n

/-- Wherever a path leads from a seed to another candidate, one that is no longer leads to each of the seeds. -/
def SeedsAsNear (s : Store) (ownerId : String) (candidates : List (Row × ℚ)) (hops : Nat) : Prop :=
  ∀ a ∈ candidates, ∀ b ∈ candidates, a.1.key.id ∈ seedIds candidates → b.1.key.id ∉ seedIds candidates →
    ∀ n, 1 ≤ n → n ≤ hops → Reaches s ownerId (seedIds candidates) b.1.key.id n →
      ∃ m, 1 ≤ m ∧ m ≤ n ∧ Reaches s ownerId (seedIds candidates) a.1.key.id m

variable {s : Store} {ownerId : String} {nodeIds : List String} {hops : Nat}

theorem nodup_neighbourIds : ((s.neighbourIds ownerId nodeIds hops).map Prod.fst).Nodup := by
  rw [Store.neighbourIds, List.map_filterMap]
  refine (List.nodup_dedup _).filterMap (fun x y z hx hy => ?_)
  simp only [Option.map_map, Option.mem_def, Option.map_eq_some_iff, Function.comp_apply] at hx hy
  obtain ⟨_, _, rfl⟩ := hx
  obtain ⟨_, _, hxy⟩ := hy
  exact hxy.symm

theorem lookup_neighbourIds_iff {x : String} {n : Nat} : (s.neighbourIds ownerId nodeIds hops).lookup x = some n ↔
    Least hops (Reaches s ownerId nodeIds x) n := by
  rw [Dict.lookup_eq_some_iff nodup_neighbourIds, mem_neighbourIds_iff_least]
  rfl

theorem lookup_neighbourIds_ne_zero (x : String) : (s.neighbourIds ownerId nodeIds hops).lookup x ≠ some 0 := by
  intro h
  have hone := (lookup_neighbourIds_iff.mp h).1.1
  omega

/-- One node is at least as close as another exactly if it is reached whenever that one is, in no more hops. -/
theorem closer_iff {x y : String} :
    closeness ((s.neighbourIds ownerId nodeIds hops).lookup y) ≤ closeness ((s.neighbourIds ownerId nodeIds hops).lookup x) ↔
      ∀ n, 1 ≤ n → n ≤ hops → Reaches s ownerId nodeIds y n → ∃ m, 1 ≤ m ∧ m ≤ n ∧ Reaches s ownerId nodeIds x m := by
  rw [closeness_le_iff (lookup_neighbourIds_ne_zero x) (lookup_neighbourIds_ne_zero y)]
  simp only [lookup_neighbourIds_iff]
  constructor
  · intro h n hpos hle hn
    obtain ⟨k, hk, hleast⟩ := exists_least hpos hle hn
    obtain ⟨m, hm, ⟨hone, _⟩, hreach, _⟩ := h k hleast
    exact ⟨m, hone, by omega, hreach⟩
  · rintro h n ⟨⟨hpos, hle⟩, hn, _⟩
    obtain ⟨m, hone, hm, hreach⟩ := h n hpos hle hn
    obtain ⟨k, hk, hleast⟩ := exists_least hone (by omega : m ≤ hops) hreach
    exact ⟨k, by omega, hleast⟩

/-- With the distances that the store measures nothing is divided by zero. -/
theorem exists_rank (exp : ℚ → ℚ) (candidates : List (Row × ℚ)) (nowMs : Int) :
    ∃ ranked, rank exp candidates (s.neighbourIds ownerId nodeIds hops) nowMs = .ok ranked :=
  exists_rank_iff.mpr (fun c _ => lookup_neighbourIds_ne_zero c.1.key.id)

theorem antitone_of_rank {exp : ℚ → ℚ} {candidates : List (Row × ℚ)} {nowMs : Int} {ranked : List RankedNode}
    (h : rank exp candidates (s.neighbourIds ownerId nodeIds hops) nowMs = .ok ranked) :
    ∀ a ∈ ranked, ∀ b ∈ ranked, ∀ m n, (s.neighbourIds ownerId nodeIds hops).lookup a.node.key.id = some m →
      (s.neighbourIds ownerId nodeIds hops).lookup b.node.key.id = some n → m ≤ n → b.proximity ≤ a.proximity := by
  have hproximity : ∀ r ∈ ranked, r.proximity = closeness ((s.neighbourIds ownerId nodeIds hops).lookup r.node.key.id) :=
    (forall_mem_rank_iff h (P := fun node p => p = closeness ((s.neighbourIds ownerId nodeIds hops).lookup node.key.id))).mpr
      (fun _ _ => rfl)
  intro a ha b hb m n hm hn hle
  rw [hproximity a ha, hproximity b hb,
    closeness_le_iff (lookup_neighbourIds_ne_zero _) (lookup_neighbourIds_ne_zero _), hm, hn]
  intro k hk
  obtain rfl := Option.some.inj hk
  exact ⟨m, hle, rfl⟩

/-- What is retrieved is ranked without a failure. -/
theorem exists_retrieveStored {Vector : Type} {similarity : Vector → String → ℚ} {v : Vector} (exp : ℚ → ℚ)
    (index : VectorIndex similarity v s.nodes) (topK : Nat) (nowMs : Int) :
    ∃ ranked, retrieveStored exp s index ownerId topK nowMs = .ok ranked := by
  unfold retrieveStored
  dsimp only
  split
  · exact ⟨[], rfl⟩
  · exact Results.exists_map_ok_iff.mpr (exists_rank exp _ nowMs)

end Seeds

/-- A ranking never fails and keeps to the distances. Its seeds lead exactly if each of them is led back to as soon as
anything else is reached. -/
theorem seeds_lead_iff (exp : ℚ → ℚ) (s : Store) (ownerId : String) (candidates : List (Row × ℚ)) (hops : Nat) (nowMs : Int) :
    (∃ ranked, rank exp candidates (s.neighbourIds ownerId (seedIds candidates) hops) nowMs = .ok ranked ∧
      SeedsLead (seedIds candidates) (s.neighbourIds ownerId (seedIds candidates) hops) ranked) ↔
        SeedsAsNear s ownerId candidates hops := by
  have hsome : ∃ ranked, rank exp candidates (s.neighbourIds ownerId (seedIds candidates) hops) nowMs = .ok ranked :=
    exists_rank exp candidates nowMs
  obtain ⟨ranked, hranked⟩ := hsome
  have hanchors : (∀ a ∈ ranked, ∀ b ∈ ranked, a.node.key.id ∈ seedIds candidates → b.node.key.id ∉ seedIds candidates →
      b.proximity ≤ a.proximity) ↔ SeedsAsNear s ownerId candidates hops := by
    -- First the seed is taken for its candidate, then the other one.
    refine (forall_mem_rank_iff hranked (P := fun node p => ∀ b ∈ ranked, node.key.id ∈ seedIds candidates →
      b.node.key.id ∉ seedIds candidates → b.proximity ≤ p)).trans (forall₂_congr (fun a _ => ?_))
    refine (forall_mem_rank_iff hranked (P := fun node p => a.1.key.id ∈ seedIds candidates →
      node.key.id ∉ seedIds candidates → p ≤ _)).trans (forall₂_congr (fun b _ => ?_))
    exact imp_congr_right (fun _ => imp_congr_right (fun _ => closer_iff))
  constructor
  · rintro ⟨_, hok, hlead⟩
    obtain rfl := Except.ok.inj (hranked.symm.trans hok)
    exact hanchors.mp hlead.anchors
  · intro h
    exact ⟨ranked, hranked, hanchors.mpr h, antitone_of_rank hranked⟩

def sameWords (v embedding : String) : ℚ := if embedding = v then 1 else 1 / 2

/-- One document cites another. -/
def cited : Store := library [document "evt_a" false, document "evt_b" false] [("evt_b", "evt_a")]

def citedIndex : VectorIndex sameWords "evt_a" cited.nodes where
  order := cited.nodes
  perm := .refl _
  descending := by decide +kernel

/-- The document that is asked for is not close at all, the one that cites it is as close as can be. -/
theorem citing_closer_than_seed : ¬ ∀ (s : Store) (ownerId : String) (candidates : List (Row × ℚ)) (nowMs : Int),
    ∃ ranked, rank (fun _ => 1) candidates (s.neighbourIds ownerId (seedIds candidates) 2) nowMs = .ok ranked ∧
      SeedsLead (seedIds candidates) (s.neighbourIds ownerId (seedIds candidates) 2) ranked := by
  intro h
  obtain ⟨ranked, hranked, hlead⟩ := h cited "alice" (vectorSearch citedIndex "alice" 20) 1
  obtain rfl : (rank (fun _ => 1) (vectorSearch citedIndex "alice" 20)
      (cited.neighbourIds "alice" (seedIds (vectorSearch citedIndex "alice" 20)) 2) 1).toOption.getD [] = ranked := by
    rw [hranked]
    rfl
  exact absurd hlead.anchors (by decide +kernel)

end Memorai.Retrieval

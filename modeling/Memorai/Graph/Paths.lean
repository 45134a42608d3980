import Memorai.Graph.Trails

/-! Trails with all they pass: which nodes and edges the trails of up to some length make out, and how far
away these are. -/
namespace Memorai.Graph
variable {K R : Type}

/-- A walk: where it starts, and each edge it takes with the node this leads to. -/
structure Path (K R : Type) where
  start : K
  steps : List ((K × R × K) × K)

namespace Path

def nodes (p : Path K R) : List K := p.start :: p.steps.map Prod.snd

def edges (p : Path K R) : List (K × R × K) := p.steps.map Prod.fst

def last (p : Path K R) : K := (p.steps.map Prod.snd).getLastD p.start

def length (p : Path K R) : Nat := p.steps.length

/-- The walk from `j` that takes the edge first. -/
def cons (e : K × R × K) (j : K) (p : Path K R) : Path K R := ⟨j, (e, p.start) :: p.steps⟩

@[simp] theorem nodes_cons (e : K × R × K) (j : K) (p : Path K R) : (p.cons e j).nodes = j :: p.nodes := rfl

@[simp] theorem edges_cons (e : K × R × K) (j : K) (p : Path K R) : (p.cons e j).edges = e :: p.edges := rfl

@[simp] theorem last_cons (e : K × R × K) (j : K) (p : Path K R) : (p.cons e j).last = p.last := by
  simp only [last, cons, List.map_cons, List.getLastD_cons]

theorem last_mem_nodes (p : Path K R) : p.last ∈ p.nodes := by
  rw [last, nodes, List.getLastD_eq_getLast?]
  cases h : (p.steps.map Prod.snd).getLast? with
  | none => exact List.mem_cons_self
  | some k => exact List.mem_cons_of_mem _ (List.mem_of_getLast? h)

end Path

section Trails
variable [DecidableEq K] [DecidableEq R]

/-- The trails of exactly `n` edges from `j`. -/
def trails : Nat → List (K × R × K) → K → List (Path K R)
  | 0, _, j => [⟨j, []⟩]
  | n + 1, edges, j =>
    edges.flatMap (fun e => (across e j).toList.flatMap (fun k => (trails n (edges.filter (· ≠ e)) k).map (Path.cons e j)))

variable {edges : List (K × R × K)} {n : Nat} {j k : K} {p : Path K R}

theorem mem_trails_succ : p ∈ trails (n + 1) edges j ↔
    ∃ e ∈ edges, ∃ k, across e j = some k ∧ ∃ q ∈ trails n (edges.filter (· ≠ e)) k, q.cons e j = p := by
  simp only [trails, List.mem_flatMap, Option.mem_toList, List.mem_map]

theorem start_of_mem_trails (h : p ∈ trails n edges j) : p.start = j := by
  cases n with
  | zero =>
    obtain rfl := List.mem_singleton.mp h
    rfl
  | succ n =>
    obtain ⟨e, _, k, _, q, _, rfl⟩ := mem_trails_succ.mp h
    rfl

theorem length_of_mem_trails (h : p ∈ trails n edges j) : p.length = n := by
  induction n generalizing edges j p with
  | zero =>
    obtain rfl := List.mem_singleton.mp h
    rfl
  | succ n ih =>
    obtain ⟨e, _, k, _, q, hq, rfl⟩ := mem_trails_succ.mp h
    exact congrArg (· + 1) (ih hq)

theorem mem_trailEnds_iff : k ∈ trailEnds n edges j ↔ ∃ p ∈ trails n edges j, p.last = k := by
  induction n generalizing edges j with
  | zero =>
    simp only [trailEnds, trails, List.mem_singleton, exists_eq_left]
    exact eq_comm
  | succ n ih =>
    rw [mem_trailEnds_succ]
    constructor
    · rintro ⟨e, he, l, hl, hk⟩
      obtain ⟨q, hq, rfl⟩ := ih.mp hk
      exact ⟨q.cons e j, mem_trails_succ.mpr ⟨e, he, l, hl, q, hq, rfl⟩, Path.last_cons e j q⟩
    · rintro ⟨p, hp, rfl⟩
      obtain ⟨e, he, l, hl, q, hq, rfl⟩ := mem_trails_succ.mp hp
      exact ⟨e, he, l, hl, ih.mpr ⟨q, hq, (Path.last_cons e j q).symm⟩⟩

/-- The trails all of whose nodes are kept are those over the edges with both ends kept. -/
theorem mem_trails_filter {keep : K → Bool} (hj : keep j) :
    p ∈ trails n (edges.filter (fun e => keep e.1 ∧ keep e.2.2)) j ↔ p ∈ trails n edges j ∧ ∀ k ∈ p.nodes, keep k := by
  induction n generalizing edges j p with
  | zero =>
    simp only [trails, List.mem_singleton]
    refine ⟨fun h => ⟨h, ?_⟩, And.left⟩
    subst h
    simpa [Path.nodes] using hj
  | succ n ih =>
    simp only [mem_trails_succ]
    -- An edge is only kept with the node it leads to.
    have hends : ∀ {e : K × R × K} {k}, across e j = some k → ((keep e.1 ∧ keep e.2.2) ↔ keep k) := by
      intro e k hk
      rcases across_eq_some_iff.mp hk with h | h
      · rw [h]
        exact and_iff_right hj
      · rw [h]
        exact and_iff_left hj
    have hcomm : ∀ e : K × R × K, (edges.filter (fun e => keep e.1 ∧ keep e.2.2)).filter (· ≠ e) =
        (edges.filter (· ≠ e)).filter (fun e => keep e.1 ∧ keep e.2.2) := fun e => List.filter_comm ..
    constructor
    · rintro ⟨e, he, k, hk, q, hq, rfl⟩
      obtain ⟨he, hkept⟩ := List.mem_filter.mp he
      have hkeep := (hends hk).mp (by simpa using hkept)
      rw [hcomm, ih hkeep] at hq
      exact ⟨⟨e, he, k, hk, q, hq.1, rfl⟩, List.forall_mem_cons.mpr ⟨hj, hq.2⟩⟩
    · rintro ⟨⟨e, he, k, hk, q, hq, rfl⟩, hnodes⟩
      have hkeep := (List.forall_mem_cons.mp hnodes).2
      have hstart : keep k := start_of_mem_trails hq ▸ hkeep _ List.mem_cons_self
      refine ⟨e, List.mem_filter.mpr ⟨he, by simpa using (hends hk).mpr hstart⟩, k, hk, q, ?_, rfl⟩
      rw [hcomm, ih hstart]
      exact ⟨hq, hkeep⟩

/-- Some way before its end, a trail was at an end of each edge it takes. -/
theorem near_of_mem_edges {e : K × R × K} (hp : p ∈ trails n edges j) (he : e ∈ p.edges) :
    e ∈ edges ∧ ∃ m < n, Hops edges m j e.1 ∨ Hops edges m j e.2.2 := by
  induction n generalizing edges j p with
  | zero =>
    obtain rfl := List.mem_singleton.mp hp
    exact absurd he List.not_mem_nil
  | succ n ih =>
    obtain ⟨f, hf, k, hk, q, hq, rfl⟩ := mem_trails_succ.mp hp
    rcases List.mem_cons.mp he with rfl | he
    · refine ⟨hf, 0, by omega, ?_⟩
      rcases across_eq_some_iff.mp hk with h | h
      · rw [h]
        exact Or.inl .here
      · rw [h]
        exact Or.inr .here
    · obtain ⟨hmem, m, hm, hnear⟩ := ih hq he
      have hback : ∀ {l}, Hops (edges.filter (· ≠ f)) m k l → Hops edges (m + 1) j l := fun h =>
        .of_across hf hk (h.mono (fun g hg => (List.mem_filter.mp hg).1))
      exact ⟨(List.mem_filter.mp hmem).1, m + 1, by omega, hnear.imp hback hback⟩

/-- A trail goes on along an edge at its end that it has not taken yet. -/
theorem exists_trail_snoc {e : K × R × K} (hp : p ∈ trails n edges j) (he : e ∈ edges) (hnew : e ∉ p.edges)
    (hk : across e p.last = some k) : ∃ q ∈ trails (n + 1) edges j, e ∈ q.edges := by
  induction n generalizing edges j p with
  | zero =>
    obtain rfl := List.mem_singleton.mp hp
    exact ⟨_, mem_trails_succ.mpr ⟨e, he, k, hk, ⟨k, []⟩, List.mem_singleton_self _, rfl⟩, List.mem_cons_self⟩
  | succ n ih =>
    obtain ⟨f, hf, l, hl, q, hq, rfl⟩ := mem_trails_succ.mp hp
    rw [Path.edges_cons, List.mem_cons, not_or] at hnew
    rw [Path.last_cons] at hk
    obtain ⟨q', hq', he'⟩ := ih hq (List.mem_filter.mpr ⟨he, by simpa using hnew.1⟩) hnew.2 hk
    exact ⟨q'.cons f j, mem_trails_succ.mpr ⟨f, hf, l, hl, q', hq', rfl⟩, List.mem_cons_of_mem _ he'⟩

/-- An edge is taken by trails of up to `n` edges exactly if one of its ends is less than `n` away. -/
theorem exists_trail_through_iff {e : K × R × K} : (∃ m, 1 ≤ m ∧ m ≤ n ∧ ∃ p ∈ trails m edges j, e ∈ p.edges) ↔
    e ∈ edges ∧ ∃ d < n, Distance edges j d e.1 ∨ Distance edges j d e.2.2 := by
  constructor
  · rintro ⟨m, _, hm, p, hp, he⟩
    obtain ⟨hmem, l, hl, hnear⟩ := near_of_mem_edges hp he
    rcases hnear with h | h
    · obtain ⟨d, hd, hfar⟩ := h.distance
      exact ⟨hmem, d, by omega, Or.inl hfar⟩
    · obtain ⟨d, hd, hfar⟩ := h.distance
      exact ⟨hmem, d, by omega, Or.inr hfar⟩
  · rintro ⟨he, d, hd, hnear⟩
    classical
    -- The nearer end: a shortest trail to it has not taken the edge.
    have hex : ∃ d, Distance edges j d e.1 ∨ Distance edges j d e.2.2 := ⟨d, hnear⟩
    have hle : Nat.find hex ≤ d := Nat.find_le hnear
    obtain ⟨k, l, hk, hl⟩ : ∃ k l, Distance edges j (Nat.find hex) k ∧ across e k = some l := by
      rcases Nat.find_spec hex with h | h
      · exact ⟨e.1, e.2.2, h, across_eq_some_iff.mpr (Or.inl rfl)⟩
      · exact ⟨e.2.2, e.1, h, across_eq_some_iff.mpr (Or.inr rfl)⟩
    obtain ⟨p, hp, rfl⟩ := mem_trailEnds_iff.mp (mem_trailEnds_of_shortest hk)
    have hnew : e ∉ p.edges := by
      intro htaken
      obtain ⟨_, m, hm, h | h⟩ := near_of_mem_edges hp htaken
      · obtain ⟨d', hd', hfar⟩ := h.distance
        exact Nat.find_min hex (by omega) (Or.inl hfar)
      · obtain ⟨d', hd', hfar⟩ := h.distance
        exact Nat.find_min hex (by omega) (Or.inr hfar)
    obtain ⟨q, hq, heq⟩ := exists_trail_snoc hp he hnew hl
    exact ⟨_, by omega, by omega, q, hq, heq⟩

/-- Somewhere else the least length of a trail is the distance. -/
theorem least_trail_iff (hk : k ≠ j) : (1 ≤ n ∧ (∃ p ∈ trails n edges j, p.last = k) ∧
    ∀ m, 1 ≤ m → m < n → ¬ ∃ p ∈ trails m edges j, p.last = k) ↔ Distance edges j n k := by
  simp only [← mem_trailEnds_iff]
  constructor
  · rintro ⟨_, hends, hmin⟩
    obtain ⟨d, hd, hfar⟩ := (hops_of_mem_trailEnds hends).distance
    have hpos : 1 ≤ d := Nat.one_le_iff_ne_zero.mpr (fun h => hk (Distance.zero_iff.mp (h ▸ hfar)).symm)
    have hge : ¬ d < n := fun hlt => hmin d hpos hlt (mem_trailEnds_of_shortest hfar)
    obtain rfl : d = n := by omega
    exact hfar
  · intro hfar
    refine ⟨Nat.one_le_iff_ne_zero.mpr (fun h => hk (Distance.zero_iff.mp (h ▸ hfar)).symm),
      mem_trailEnds_of_shortest hfar, fun m _ hm hends => ?_⟩
    exact hfar.2 m hm (hops_of_mem_trailEnds hends)

end Trails
end Memorai.Graph

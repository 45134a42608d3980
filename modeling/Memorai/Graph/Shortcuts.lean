import Memorai.Graph.Paths

/-! Trails that stay inside a part of a graph. The shortest of them are the shortest of all, unless one that leaves the
part cuts short. -/
namespace Memorai.Graph
variable {K R : Type}

/-- The least number from 1 to the bound with the property. -/
def Least (bound : Nat) (P : Nat → Prop) (n : Nat) : Prop := (1 ≤ n ∧ n ≤ bound) ∧ P n ∧ ∀ m, 1 ≤ m → m < n → ¬ P m

section Least
variable {bound n : Nat} {P Q : Nat → Prop}

theorem exists_least (hpos : 1 ≤ n) (hle : n ≤ bound) (h : P n) : ∃ m ≤ n, Least bound P m := by
  classical
  have hex : ∃ m, 1 ≤ m ∧ P m := ⟨n, hpos, h⟩
  have hfind : Nat.find hex ≤ n := Nat.find_le ⟨hpos, h⟩
  obtain ⟨hone, hP⟩ := Nat.find_spec hex
  refine ⟨Nat.find hex, hfind, ⟨hone, by omega⟩, hP, ?_⟩
  intro m hm hlt hPm
  exact Nat.find_min hex hlt ⟨hm, hPm⟩

/-- A stronger property has the same least number if it holds no later. -/
theorem least_congr_iff (hsub : ∀ n, Q n → P n) : (∀ n, Least bound P n ↔ Least bound Q n) ↔
    ∀ n, 1 ≤ n → n ≤ bound → P n → ∃ m, 1 ≤ m ∧ m ≤ n ∧ Q m := by
  constructor
  · intro h n hpos hle hn
    obtain ⟨m, hm, hleast⟩ := exists_least hpos hle hn
    obtain ⟨⟨hone, _⟩, hQ, _⟩ := (h m).mp hleast
    exact ⟨m, hone, hm, hQ⟩
  · intro h n
    constructor
    · rintro ⟨⟨hpos, hle⟩, hn, hmin⟩
      obtain ⟨m, hone, hm, hQ⟩ := h n hpos hle hn
      have hge : ¬ m < n := fun hlt => hmin m hone hlt (hsub m hQ)
      obtain rfl : m = n := by omega
      exact ⟨⟨hpos, hle⟩, hQ, fun l hl hlt hQl => hmin l hl hlt (hsub l hQl)⟩
    · rintro ⟨⟨hpos, hle⟩, hn, hmin⟩
      refine ⟨⟨hpos, hle⟩, hsub n hn, ?_⟩
      intro m hone hlt hP
      obtain ⟨l, hl, hlm, hQ⟩ := h m hone (by omega) hP
      exact hmin l hl (by omega) hQ

end Least

/-- The edges both ends of which are kept. -/
def inside (keep : K → Bool) (edges : List (K × R × K)) : List (K × R × K) :=
  edges.filter (fun e => keep e.1 ∧ keep e.2.2)

section Trails
variable [DecidableEq K] [DecidableEq R]

/-- A trail of `n` edges leads from one of the seeds to a target. -/
def TrailTo (edges : List (K × R × K)) (seeds : List K) (target : K → Prop) (n : Nat) : Prop :=
  ∃ seed ∈ seeds, ∃ p ∈ trails n edges seed, target p.last

/-- A trail between kept nodes that passes another node, and is shorter than any trail inside. -/
structure Shortcut (edges : List (K × R × K)) (keep : K → Bool) (seeds : List K) (target : K → Prop) (bound : Nat)
    (p : Path K R) : Prop where
  seed : p.start ∈ seeds
  trail : p ∈ trails p.length edges p.start
  length : 1 ≤ p.length ∧ p.length ≤ bound
  arrives : keep p.last ∧ target p.last
  leaves : ∃ k ∈ p.nodes, ¬ keep k
  shorter : ∀ m, 1 ≤ m → m ≤ p.length → ¬ TrailTo (inside keep edges) seeds target m

variable {edges : List (K × R × K)} {keep : K → Bool} {seeds : List K} {target : K → Prop} {bound n : Nat}

theorem trailTo_inside_iff (hseeds : ∀ seed ∈ seeds, keep seed) : TrailTo (inside keep edges) seeds target n ↔
    ∃ seed ∈ seeds, ∃ p ∈ trails n edges seed, (∀ k ∈ p.nodes, keep k) ∧ target p.last := by
  refine exists_congr (fun seed => and_congr_right (fun hseed => exists_congr (fun p => ?_)))
  rw [inside, mem_trails_filter (hseeds seed hseed), and_assoc]

/-- Among the trails that end inside, the shortest are as long as those that stay inside exactly if there is no
shortcut. -/
theorem least_inside_iff (hseeds : ∀ seed ∈ seeds, keep seed) :
    (∀ n, Least bound (TrailTo edges seeds (fun k => keep k ∧ target k)) n ↔
      Least bound (TrailTo (inside keep edges) seeds target) n) ↔ ∀ p, ¬ Shortcut edges keep seeds target bound p := by
  rw [least_congr_iff]
  · constructor
    · intro h p hp
      obtain ⟨m, hone, hm, hinside⟩ := h p.length hp.length.1 hp.length.2 ⟨p.start, hp.seed, p, hp.trail, hp.arrives⟩
      exact hp.shorter m hone hm hinside
    · rintro hnot n hpos hle ⟨seed, hseed, p, hp, harrives⟩
      obtain rfl := start_of_mem_trails hp
      obtain rfl := length_of_mem_trails hp
      by_contra hnone
      simp only [not_exists, not_and] at hnone
      refine hnot p ⟨hseed, hp, ⟨hpos, hle⟩, harrives, ?_, hnone⟩
      -- A trail that stays inside would be one of those that are longer.
      by_contra hstays
      simp only [not_exists, not_and, not_not] at hstays
      exact hnone p.length hpos (Nat.le_refl _) ((trailTo_inside_iff hseeds).mpr ⟨p.start, hseed, p, hp, hstays, harrives.2⟩)
  · intro n h
    obtain ⟨seed, hseed, p, hp, hkept, harrives⟩ := (trailTo_inside_iff hseeds).mp h
    exact ⟨seed, hseed, p, hp, hkept _ p.last_mem_nodes, harrives⟩

end Trails
end Memorai.Graph

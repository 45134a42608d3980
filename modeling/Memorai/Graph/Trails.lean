import Mathlib.Data.List.Basic
import Mathlib.Data.Nat.Find

/-! Undirected walks over a list of typed edges, the trails among them, which take no edge twice. -/
namespace Memorai.Graph
variable {K R : Type}

/-- `n` edges lead from one node to the other. -/
inductive Hops (edges : List (K × R × K)) : Nat → K → K → Prop where
  | here {k : K} : Hops edges 0 k k
  | out {n : Nat} {j k l : K} {r : R} : (j, r, k) ∈ edges → Hops edges n k l → Hops edges (n + 1) j l
  | back {n : Nat} {j k l : K} {r : R} : (k, r, j) ∈ edges → Hops edges n k l → Hops edges (n + 1) j l

/-- Some of the seeds is that close. -/
def Within (edges : List (K × R × K)) (seeds : List K) (n : Nat) (k : K) : Prop :=
  ∃ seed ∈ seeds, ∃ m ≤ n, Hops edges m seed k

namespace Hops
variable {edges more : List (K × R × K)} {n m : Nat} {j k l : K}

theorem mono (h : Hops edges n j k) (hsub : ∀ e ∈ edges, e ∈ more) : Hops more n j k := by
  induction h with
  | here => exact .here
  | out he _ ih => exact .out (hsub _ he) ih
  | back he _ ih => exact .back (hsub _ he) ih

theorem trans (h : Hops edges n j k) (h' : Hops edges m k l) : Hops edges (n + m) j l := by
  induction h with
  | here => simpa using h'
  | @out n _ _ _ _ he _ ih =>
    rw [Nat.add_right_comm]
    exact .out he (ih h')
  | @back n _ _ _ _ he _ ih =>
    rw [Nat.add_right_comm]
    exact .back he (ih h')

theorem symm (h : Hops edges n j k) : Hops edges n k j := by
  induction h with
  | here => exact .here
  | out he _ ih => exact ih.trans (.back he .here)
  | back he _ ih => exact ih.trans (.out he .here)

theorem last (h : Hops edges (n + 1) j l) : ∃ k r, Hops edges n j k ∧ ((k, r, l) ∈ edges ∨ (l, r, k) ∈ edges) := by
  generalize hm : n + 1 = m at h
  induction h generalizing n with
  | here => exact absurd hm (by omega)
  | @out m j k l r he h ih =>
    obtain rfl : n = m := by omega
    cases n with
    | zero =>
      cases h
      exact ⟨j, r, .here, Or.inl he⟩
    | succ n =>
      obtain ⟨k', r', hk, hr⟩ := ih rfl
      exact ⟨k', r', .out he hk, hr⟩
  | @back m j k l r he h ih =>
    obtain rfl : n = m := by omega
    cases n with
    | zero =>
      cases h
      exact ⟨j, r, .here, Or.inr he⟩
    | succ n =>
      obtain ⟨k', r', hk, hr⟩ := ih rfl
      exact ⟨k', r', .back he hk, hr⟩

/-- A place that moves by at most one along an edge moves by at most `n` along `n` of them. -/
theorem place_le (place : K → Nat) (hplace : ∀ e ∈ edges, place e.1 ≤ place e.2.2 + 1 ∧ place e.2.2 ≤ place e.1 + 1)
    (h : Hops edges n j k) : place k ≤ place j + n := by
  induction h with
  | here => omega
  | out he _ ih =>
    have := hplace _ he
    dsimp only at this
    omega
  | back he _ ih =>
    have := hplace _ he
    dsimp only at this
    omega

end Hops

/-- The shortest walk from one node to the other has `d` edges. -/
def Distance (edges : List (K × R × K)) (j : K) (d : Nat) (k : K) : Prop :=
  Hops edges d j k ∧ ∀ m < d, ¬ Hops edges m j k

theorem Distance.unique {edges : List (K × R × K)} {j k : K} {d d' : Nat} (h : Distance edges j d k)
    (h' : Distance edges j d' k) : d = d' := by
  by_contra hne
  rcases Nat.lt_or_gt_of_ne hne with hlt | hgt
  · exact h'.2 d hlt h.1
  · exact h.2 d' hgt h'.1

theorem Distance.zero_iff {edges : List (K × R × K)} {j k : K} : Distance edges j 0 k ↔ j = k := by
  constructor
  · rintro ⟨⟨⟩, _⟩
    rfl
  · rintro rfl
    exact ⟨.here, fun _ hm => absurd hm (Nat.not_lt_zero _)⟩

/-- A node that some walk leads to has a distance, and this is no longer than the walk. -/
theorem Hops.distance {edges : List (K × R × K)} {n : Nat} {j k : K} (h : Hops edges n j k) :
    ∃ d ≤ n, Distance edges j d k := by
  classical
  have hex : ∃ n, Hops edges n j k := ⟨n, h⟩
  exact ⟨Nat.find hex, Nat.find_le h, Nat.find_spec hex, fun _ hm => Nat.find_min hex hm⟩

section Within
variable {edges : List (K × R × K)} {seeds : List K} {n : Nat} {k : K}

theorem within_zero_iff : Within edges seeds 0 k ↔ k ∈ seeds := by
  constructor
  · intro ⟨seed, hseed, m, hm, h⟩
    obtain rfl : m = 0 := by omega
    cases h
    exact hseed
  · intro h
    exact ⟨k, h, 0, by omega, .here⟩

theorem Within.mono {m : Nat} (h : Within edges seeds n k) (hnm : n ≤ m) : Within edges seeds m k := by
  obtain ⟨seed, hseed, l, hl, h⟩ := h
  exact ⟨seed, hseed, l, by omega, h⟩

/-- One more edge reaches what was reached, and what lies across an edge from it. -/
theorem within_succ_iff : Within edges seeds (n + 1) k ↔
    Within edges seeds n k ∨ ∃ j r, Within edges seeds n j ∧ ((j, r, k) ∈ edges ∨ (k, r, j) ∈ edges) := by
  constructor
  · intro ⟨seed, hseed, m, hm, h⟩
    cases m with
    | zero => exact Or.inl ⟨seed, hseed, 0, by omega, h⟩
    | succ m =>
      obtain ⟨j, r, hj, he⟩ := h.last
      exact Or.inr ⟨j, r, ⟨seed, hseed, m, by omega, hj⟩, he⟩
  · intro h
    rcases h with h | ⟨j, r, ⟨seed, hseed, m, hm, hj⟩, he⟩
    · exact h.mono (by omega)
    · refine ⟨seed, hseed, m + 1, by omega, hj.trans ?_⟩
      rcases he with he | he
      · exact .out he .here
      · exact .back he .here

end Within

section Trails
variable [DecidableEq K]

/-- The other end of the edge, seen from `k`. -/
def across (e : K × R × K) (k : K) : Option K := if e.1 = k then some e.2.2 else if e.2.2 = k then some e.1 else none

theorem across_eq_some_iff {e : K × R × K} {j k : K} : across e j = some k ↔ e = (j, e.2.1, k) ∨ e = (k, e.2.1, j) := by
  obtain ⟨a, r, b⟩ := e
  unfold across
  constructor
  · intro h
    split at h
    · rename_i ha
      obtain rfl : a = j := ha
      obtain rfl := Option.some.inj h
      exact Or.inl rfl
    · split at h
      · rename_i hb
        obtain rfl : b = j := hb
        obtain rfl := Option.some.inj h
        exact Or.inr rfl
      · exact absurd h (by simp)
  · intro h
    rcases h with h | h
    · obtain ⟨rfl, -, rfl⟩ : a = j ∧ r = r ∧ b = k := by simpa using h
      simp
    · obtain ⟨rfl, -, rfl⟩ : a = k ∧ r = r ∧ b = j := by simpa using h
      by_cases hab : a = b
      · simp [hab]
      · simp [hab]

theorem Hops.of_across {edges : List (K × R × K)} {e : K × R × K} {n : Nat} {j k l : K} (he : e ∈ edges)
    (hk : across e j = some k) (h : Hops edges n k l) : Hops edges (n + 1) j l := by
  rcases across_eq_some_iff.mp hk with heq | heq
  · exact .out (heq ▸ he) h
  · exact .back (heq ▸ he) h

variable [DecidableEq R]

/-- Where the trails of exactly `n` edges from `k` end. -/
def trailEnds : Nat → List (K × R × K) → K → List K
  | 0, _, k => [k]
  | n + 1, edges, k => edges.flatMap (fun e => (across e k).toList.flatMap (trailEnds n (edges.filter (· ≠ e))))

theorem mem_trailEnds_succ {n : Nat} {edges : List (K × R × K)} {j l : K} : l ∈ trailEnds (n + 1) edges j ↔
    ∃ e ∈ edges, ∃ k, across e j = some k ∧ l ∈ trailEnds n (edges.filter (· ≠ e)) k := by
  simp only [trailEnds, List.mem_flatMap, Option.mem_toList]

theorem hops_of_mem_trailEnds {n : Nat} {edges : List (K × R × K)} {j k : K} (h : k ∈ trailEnds n edges j) :
    Hops edges n j k := by
  induction n generalizing edges j with
  | zero =>
    obtain rfl := List.mem_singleton.mp h
    exact .here
  | succ n ih =>
    obtain ⟨e, he, l, hl, hk⟩ := mem_trailEnds_succ.mp h
    exact .of_across he hl ((ih hk).mono (fun f hf => (List.mem_filter.mp hf).1))

/-- A walk can do without the edge, or is at an end of it some way before it arrives. -/
private theorem Hops.avoid {n : Nat} {edges : List (K × R × K)} {j k : K} (e : K × R × K) (h : Hops edges n j k) :
    Hops (edges.filter (· ≠ e)) n j k ∨ ∃ m < n, Hops edges m e.1 k ∨ Hops edges m e.2.2 k := by
  induction h with
  | here => exact Or.inl .here
  | @out n j k l r he h ih =>
    by_cases heq : (j, r, k) = e
    · subst heq
      exact Or.inr ⟨n, by omega, Or.inr h⟩
    · rcases ih with ih | ⟨m, hm, ih⟩
      · exact Or.inl (.out (List.mem_filter.mpr ⟨he, by simpa using heq⟩) ih)
      · exact Or.inr ⟨m, by omega, ih⟩
  | @back n j k l r he h ih =>
    by_cases heq : (k, r, j) = e
    · subst heq
      exact Or.inr ⟨n, by omega, Or.inl h⟩
    · rcases ih with ih | ⟨m, hm, ih⟩
      · exact Or.inl (.back (List.mem_filter.mpr ⟨he, by simpa using heq⟩) ih)
      · exact Or.inr ⟨m, by omega, ih⟩

/-- A shortest walk is a trail. -/
theorem mem_trailEnds_of_shortest {n : Nat} {edges : List (K × R × K)} {j k : K} (h : Distance edges j n k) :
    k ∈ trailEnds n edges j := by
  obtain ⟨h, hmin⟩ := h
  induction n generalizing edges j with
  | zero =>
    cases h
    exact List.mem_singleton_self _
  | succ n ih =>
    -- The first edge, and what follows it.
    obtain ⟨e, he, l, hl, hrest⟩ : ∃ e ∈ edges, ∃ l, across e j = some l ∧ Hops edges n l k := by
      cases h with
      | @out _ _ l _ r he h => exact ⟨_, he, l, across_eq_some_iff.mpr (Or.inl rfl), h⟩
      | @back _ _ l _ r he h => exact ⟨_, he, l, across_eq_some_iff.mpr (Or.inr rfl), h⟩
    have hfar : ∀ m < n, ¬ Hops edges m l k := fun m hm h => hmin (m + 1) (by omega) (.of_across he hl h)
    have hnear : ∀ m < n, ¬ Hops edges m j k := fun m hm => hmin m (by omega)
    rcases hrest.avoid e with hrest | ⟨m, hm, hback⟩
    · refine mem_trailEnds_succ.mpr ⟨e, he, l, hl, ih hrest (fun m hm h => ?_)⟩
      exact hfar m hm (h.mono (fun f hf => (List.mem_filter.mp hf).1))
    · rcases across_eq_some_iff.mp hl with heq | heq
      · rw [heq] at hback
        exact absurd hback (not_or.mpr ⟨hnear m hm, hfar m hm⟩)
      · rw [heq] at hback
        exact absurd hback (not_or.mpr ⟨hfar m hm, hnear m hm⟩)

/-- The trails that lead somewhere else are as long as the walks at least, and the shortest ones no longer. -/
theorem exists_trail_iff {edges : List (K × R × K)} {seeds : List K} {n : Nat} {k : K} (hk : k ∉ seeds) :
    (∃ m, 1 ≤ m ∧ m ≤ n ∧ ∃ seed ∈ seeds, k ∈ trailEnds m edges seed) ↔ Within edges seeds n k := by
  constructor
  · intro ⟨m, _, hm, seed, hseed, h⟩
    exact ⟨seed, hseed, m, hm, hops_of_mem_trailEnds h⟩
  · intro ⟨seed, hseed, m, hm, h⟩
    obtain ⟨d, hd, hfar⟩ := h.distance
    refine ⟨d, ?_, by omega, seed, hseed, mem_trailEnds_of_shortest hfar⟩
    by_contra hzero
    obtain rfl : d = 0 := by omega
    exact hk (Distance.zero_iff.mp hfar ▸ hseed)

end Trails
end Memorai.Graph

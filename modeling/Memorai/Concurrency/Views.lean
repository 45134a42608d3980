import Memorai.Concurrency.Calls

/-! Parties that leave each other alone: what one of them sees of an interleaving is its own programs taking the same turns. -/
namespace Memorai.Concurrency
variable {S C I K : Type} {A : C → Type}

/-- Where `Q` holds, a call of a party is answered from its view of the state and does to the view what it does to the state.
It does nothing to the view of another party. -/
structure Separate (srv : Service S C A) (view : K → S → S) (Q : S → Prop) (P : K → C → Prop) : Prop where
  answer : ∀ k s c, P k c → Q s → srv.answer (view k s) c = srv.answer s c
  own : ∀ k s c, P k c → Q s → view k (srv.effect s c) = srv.effect (view k s) c
  other : ∀ k k' s c, P k c → Q s → k' ≠ k → view k' (srv.effect s c) = view k' s

section Interleave
variable [DecidableEq I] [DecidableEq K] {srv : Service S C A} {view : K → S → S} {Q : S → Prop} {P : K → C → Prop}
  {Fits : K → (c : C) → A c → Prop} {party : I → K}

/-- `mine` is what the party `k` sees of `cfg`. -/
structure Seen (view : K → S → S) (party : I → K) (k : K) (cfg mine : Config S I C A) : Prop where
  state : view k cfg.state = mine.state
  progs : ∀ i, party i = k → cfg.progs i = mine.progs i

theorem Seen.step (hseparate : Separate srv view Q P) {k : K} {cfg mine : Config S I C A} (h : Seen view party k cfg mine)
    (hstate : Q cfg.state) (honly : ∀ i, (cfg.progs i).Only (P (party i)) (Fits (party i))) (i : I) :
    Seen view party k (cfg.step srv i) (if party i = k then mine.step srv i else mine) := by
  cases hprog : cfg.progs i with
  | done =>
    rw [Config.step_of_done srv hprog]
    split_ifs with hi
    · rw [Config.step_of_done srv ((h.progs i hi).symm.trans hprog)]
      exact h
    · exact h
  | call c next =>
    have hcall : P (party i) c := by
      have h := honly i
      rw [hprog] at h
      exact h.1
    rw [Config.step_of_call srv hprog]
    split_ifs with hi
    · subst hi
      rw [Config.step_of_call srv ((h.progs i rfl).symm.trans hprog), ← h.state]
      refine ⟨hseparate.own _ _ c hcall hstate, fun j hj => ?_⟩
      rw [hseparate.answer _ _ c hcall hstate]
      dsimp only
      by_cases hji : j = i
      · subst hji
        rw [Function.update_self, Function.update_self]
      · rw [Function.update_of_ne hji, Function.update_of_ne hji]
        exact h.progs j hj
    · refine ⟨(hseparate.other _ k _ c hcall hstate (Ne.symm hi)).trans h.state, fun j hj => ?_⟩
      have hji : j ≠ i := by
        rintro rfl
        exact hi hj
      dsimp only
      rw [Function.update_of_ne hji]
      exact h.progs j hj

end Interleave

end Memorai.Concurrency

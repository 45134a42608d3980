import Memorai.Concurrency.Interleaving

/-! The calls of a program: those it can come to, and those it makes on its own. -/
namespace Memorai.Concurrency
variable {S C I : Type} {A : C → Type}

namespace Prog

/-- Every call that the program can come to is one of `P`, as long as what it is answered fits the call. -/
def Only (P : C → Prop) (Fits : (c : C) → A c → Prop) : Prog C A → Prop
  | .done => True
  | .call c k => P c ∧ ∀ a, Fits c a → (k a).Only P Fits

section Only
variable {P : C → Prop} {Fits : (c : C) → A c → Prop}

private theorem exists_leads_done (hsome : ∀ c, ∃ a, Fits c a) (p : Prog C A) :
    ∃ t, p.Leads t .done ∧ ∀ e ∈ t, Fits e.1 e.2 := by
  induction p with
  | done => exact ⟨[], .nil _, fun _ he => absurd he List.not_mem_nil⟩
  | call c k ih =>
    obtain ⟨a, ha⟩ := hsome c
    obtain ⟨t, ht, hfits⟩ := ih a
    exact ⟨⟨c, a⟩ :: t, .cons c k a ht, List.forall_mem_cons.mpr ⟨ha, hfits⟩⟩

/-- What is said of complete traces is said of every call, since each is a part of one. -/
theorem only_of_leads (hsome : ∀ c, ∃ a, Fits c a) {p : Prog C A}
    (h : ∀ t, p.Leads t .done → (∀ e ∈ t, Fits e.1 e.2) → ∀ e ∈ t, P e.1) : p.Only P Fits := by
  induction p with
  | done => trivial
  | call c k ih =>
    have hrest : ∀ a, Fits c a → (k a).Only P Fits := by
      intro a ha
      refine ih a (fun t ht hfits e he => ?_)
      exact h (⟨c, a⟩ :: t) (.cons c k a ht) (List.forall_mem_cons.mpr ⟨ha, hfits⟩) e (List.mem_cons_of_mem _ he)
    obtain ⟨a, ha⟩ := hsome c
    obtain ⟨t, ht, hfits⟩ := exists_leads_done hsome (k a)
    exact ⟨h (⟨c, a⟩ :: t) (.cons c k a ht) (List.forall_mem_cons.mpr ⟨ha, hfits⟩) _ List.mem_cons_self, hrest⟩

theorem only_update [DecidableEq I] {P : I → C → Prop} {Fits : I → (c : C) → A c → Prop} {progs : I → Prog C A}
    (h : ∀ i, (progs i).Only (P i) (Fits i)) (i : I) {p : Prog C A} (hp : p.Only (P i) (Fits i)) :
    ∀ j, (Function.update progs i p j).Only (P j) (Fits j) := by
  intro j
  by_cases hj : j = i
  · subst hj
    rwa [Function.update_self]
  · rw [Function.update_of_ne hj]
    exact h j

end Only

section Alone
variable (srv : Service S C A)

/-- The calls of the program on its own. -/
def calls : Prog C A → S → List C
  | .done, _ => []
  | .call c k, s => c :: calls (k (srv.answer s c)) (srv.effect s c)

/-- `p` on `s` has come to `q` on `s'`: it has made some first calls of its own, and `q` makes the others. -/
def Reaches (p : Prog C A) (s : S) (q : Prog C A) (s' : S) : Prop :=
  ∃ made, p.calls srv s = made ++ q.calls srv s' ∧ s' = made.foldl srv.effect s

variable {srv} {p : Prog C A} {s s' : S}

theorem Reaches.refl : p.Reaches srv s p s := ⟨[], rfl, rfl⟩

theorem Reaches.step {c : C} {k : A c → Prog C A} (h : p.Reaches srv s (.call c k) s') :
    p.Reaches srv s (k (srv.answer s' c)) (srv.effect s' c) := by
  obtain ⟨made, hcalls, rfl⟩ := h
  refine ⟨made ++ [c], ?_, by rw [List.foldl_append, List.foldl_cons, List.foldl_nil]⟩
  rw [hcalls, calls, List.append_assoc, List.singleton_append]

end Alone

end Prog

/-- `Q` is kept by the calls that each program may make, and makes their answers fit. -/
structure Keeps (srv : Service S C A) (Q : S → Prop) (P : I → C → Prop) (Fits : I → (c : C) → A c → Prop) : Prop where
  answer : ∀ i s c, P i c → Q s → Fits i c (srv.answer s c)
  effect : ∀ i s c, P i c → Q s → Q (srv.effect s c)

/-- One step of any program. -/
theorem Keeps.step [DecidableEq I] {srv : Service S C A} {Q : S → Prop} {P : I → C → Prop} {Fits : I → (c : C) → A c → Prop}
    (hkeeps : Keeps srv Q P Fits) {cfg : Config S I C A} (hstate : Q cfg.state)
    (honly : ∀ i, (cfg.progs i).Only (P i) (Fits i)) (i : I) :
    Q (cfg.step srv i).state ∧ ∀ j, ((cfg.step srv i).progs j).Only (P j) (Fits j) := by
  cases hprog : cfg.progs i with
  | done =>
    rw [Config.step_of_done srv hprog]
    exact ⟨hstate, honly⟩
  | call c k =>
    have hcall : P i c ∧ ∀ a, Fits i c a → (k a).Only (P i) (Fits i) := by
      have h := honly i
      rwa [hprog] at h
    rw [Config.step_of_call srv hprog]
    exact ⟨hkeeps.effect i _ c hcall.1 hstate, Prog.only_update honly i (hcall.2 _ (hkeeps.answer i _ c hcall.1 hstate))⟩

end Memorai.Concurrency

import Mathlib.Data.List.Induction
import Mathlib.Logic.Function.Basic

/-! Programs over a shared state whose calls are atomic, and their interleavings. -/
namespace Memorai.Concurrency

/-- A program that calls the shared state and goes on with the answer. -/
inductive Prog (C : Type) (A : C → Type) where
  | done
  | call (c : C) (k : A c → Prog C A)

/-- A call and what was answered. -/
abbrev Event (C : Type) (A : C → Type) := (c : C) × A c

/-- How the shared state answers a call and changes by it. -/
structure Service (S C : Type) (A : C → Type) where
  answer : S → (c : C) → A c
  effect : S → C → S

variable {S C I : Type} {A : C → Type}

namespace Prog

/-- `p` makes the calls of the trace, is answered as it says, and is then `q`. -/
inductive Leads : Prog C A → List (Event C A) → Prog C A → Prop
  | nil (p : Prog C A) : Leads p [] p
  | cons (c : C) (k : A c → Prog C A) (a : A c) {t : List (Event C A)} {q : Prog C A} :
      Leads (k a) t q → Leads (.call c k) (⟨c, a⟩ :: t) q

theorem Leads.concat {p : Prog C A} {t : List (Event C A)} {c : C} {k : A c → Prog C A} (h : Leads p t (.call c k))
    (a : A c) : Leads p (t ++ [⟨c, a⟩]) (k a) := by
  generalize hq : Prog.call c k = q at h
  induction h with
  | nil p =>
    subst hq
    exact .cons c k a (.nil _)
  | cons d l b _ ih => exact .cons d l b (ih hq)

theorem leads_done {t : List (Event C A)} {q : Prog C A} (h : Leads .done t q) : t = [] := by
  cases h
  rfl

theorem leads_call {c : C} {k : A c → Prog C A} {t : List (Event C A)} (h : Leads (.call c k) t .done) :
    ∃ a t', t = ⟨c, a⟩ :: t' ∧ Leads (k a) t' .done := by
  cases h with
  | cons c k a h => exact ⟨a, _, rfl, h⟩

instance (p : Prog C A) : Decidable (p = .done) :=
  match p with
  | .done => isTrue rfl
  | .call _ _ => isFalse nofun

/-- The program on its own. -/
def run (srv : Service S C A) : Prog C A → S → S
  | .done, s => s
  | .call c k, s => run srv (k (srv.answer s c)) (srv.effect s c)

end Prog

/-- The state after the calls of a trace. -/
def replay (srv : Service S C A) (t : List (I × Event C A)) (s : S) : S :=
  t.foldl (fun s e => srv.effect s e.2.1) s

theorem replay_append (srv : Service S C A) (t u : List (I × Event C A)) (s : S) :
    replay srv (t ++ u) s = replay srv u (replay srv t s) := List.foldl_append

/-- Several programs on one state, with the trace of their calls so far. -/
structure Config (S I C : Type) (A : C → Type) where
  state : S
  progs : I → Prog C A
  trace : List (I × Event C A)

section
variable [DecidableEq I] (srv : Service S C A)

/-- One call of program `i`. A program that is done makes none. -/
def Config.step (cfg : Config S I C A) (i : I) : Config S I C A :=
  match cfg.progs i with
  | .done => cfg
  | .call c k =>
    { state := srv.effect cfg.state c
      progs := Function.update cfg.progs i (k (srv.answer cfg.state c))
      trace := cfg.trace ++ [(i, ⟨c, srv.answer cfg.state c⟩)] }

/-- The programs take turns as the schedule says. -/
def interleave (schedule : List I) (s : S) (progs : I → Prog C A) : Config S I C A :=
  schedule.foldl (Config.step srv) ⟨s, progs, []⟩

def own (i : I) (t : List (I × Event C A)) : List (Event C A) := (t.filter (fun e => e.1 = i)).map Prod.snd

theorem own_append (i : I) (t u : List (I × Event C A)) : own i (t ++ u) = own i t ++ own i u := by
  simp [own]

theorem mem_own {i : I} {t : List (I × Event C A)} {e : Event C A} : e ∈ own i t ↔ (i, e) ∈ t := by
  simp only [own, List.mem_map, List.mem_filter, decide_eq_true_eq]
  constructor
  · intro h
    obtain ⟨⟨j, d⟩, ⟨hd, rfl⟩, rfl⟩ := h
    exact hd
  · intro h
    exact ⟨(i, e), ⟨h, rfl⟩, rfl⟩

/-- A split of one program's part of a trace is a split of the trace. -/
theorem exists_split_of_own {i : I} {t : List (I × Event C A)} {e : Event C A} {l m : List (Event C A)}
    (h : own i t = l ++ e :: m) : ∃ u v, t = u ++ (i, e) :: v ∧ own i u = l ∧ own i v = m := by
  induction t generalizing l with
  | nil => exact absurd h (by simp [own])
  | cons f t ih =>
    have hcons : own i (f :: t) = own i [f] ++ own i t := own_append i [f] t
    by_cases hf : f.1 = i
    · have hone : own i [f] = [f.2] := by simp [own, hf]
      rw [hcons, hone, List.singleton_append] at h
      cases l with
      | nil =>
        obtain ⟨rfl, rfl⟩ := List.cons.inj h
        exact ⟨[], t, by rw [← hf]; rfl, rfl, rfl⟩
      | cons d l =>
        obtain ⟨hd, hl⟩ := List.cons.inj h
        obtain ⟨u, v, rfl, rfl, rfl⟩ := ih hl
        exact ⟨f :: u, v, rfl, by rw [← hd, ← List.singleton_append, own_append, hone]; rfl, rfl⟩
    · have hnone : own i [f] = [] := by simp [own, hf]
      rw [hcons, hnone, List.nil_append] at h
      obtain ⟨u, v, rfl, rfl, rfl⟩ := ih h
      exact ⟨f :: u, v, rfl, by rw [← List.singleton_append, own_append, hnone]; rfl, rfl⟩

/-- An event that does not come after another one comes before it. -/
theorem before_of_not_after {α : Type} {u v pre post : List α} {e r : α} (h : u ++ e :: v = pre ++ r :: post)
    (hne : e ≠ r) (hn : e ∉ post) : ∃ mid, pre = u ++ e :: mid ∧ v = mid ++ r :: post := by
  rcases List.append_eq_append_iff.mp h with ⟨mid, hpre, hmid⟩ | ⟨mid, hu, hmid⟩
  · cases mid with
    | nil => exact absurd (List.cons.inj hmid).1 hne
    | cons f mid =>
      obtain ⟨rfl, hv⟩ := List.cons.inj hmid
      exact ⟨mid, hpre, hv⟩
  · cases mid with
    | nil => exact absurd (List.cons.inj hmid).1.symm hne
    | cons f mid =>
      obtain ⟨rfl, hpost⟩ := List.cons.inj hmid
      exact absurd (by rw [hpost]; simp) hn

/-- What a trace of an interleaving tells: it leads to the state, every answer in it is the one the
state gave at that point, and its part of each program leads that program to where it is. -/
structure Coherent (s : S) (progs : I → Prog C A) (cfg : Config S I C A) : Prop where
  state : cfg.state = replay srv cfg.trace s
  answers : ∀ pre i c a post, cfg.trace = pre ++ (i, ⟨c, a⟩) :: post → a = srv.answer (replay srv pre s) c
  leads : ∀ i, (progs i).Leads (own i cfg.trace) (cfg.progs i)

theorem Coherent.step {s : S} {progs : I → Prog C A} {cfg : Config S I C A} (h : Coherent srv s progs cfg) (i : I) :
    Coherent srv s progs (cfg.step srv i) := by
  unfold Config.step
  split
  · exact h
  · rename_i c k hp
    refine ⟨?_, ?_, ?_⟩
    · rw [replay_append, ← h.state]
      rfl
    · intro pre j d b post he
      rcases List.eq_nil_or_concat post with rfl | ⟨post, e, rfl⟩
      · obtain ⟨rfl, hlast⟩ := List.append_inj' he rfl
        cases List.singleton_inj.mp hlast
        rw [h.state]
      · rw [List.concat_eq_append, ← List.cons_append, ← List.append_assoc] at he
        obtain ⟨he, _⟩ := List.append_inj' he rfl
        exact h.answers pre j d b post he
    · intro j
      have hj := h.leads j
      rw [own_append]
      by_cases hji : j = i
      · subst hji
        rw [hp] at hj
        simpa [own] using hj.concat (srv.answer cfg.state c)
      · have hnone : own j [(i, (⟨c, srv.answer cfg.state c⟩ : Event C A))] = [] := by
          simp [own, Ne.symm hji]
        rw [hnone, List.append_nil]
        dsimp only
        rw [Function.update_of_ne hji]
        exact hj

theorem coherent_interleave (schedule : List I) (s : S) (progs : I → Prog C A) :
    Coherent srv s progs (interleave srv schedule s progs) := by
  induction schedule using List.reverseRecOn with
  | nil =>
    exact ⟨rfl, fun pre i c a post he => absurd he (by simp [interleave]), fun i => .nil _⟩
  | append_singleton schedule i ih =>
    have hstep : interleave srv (schedule ++ [i]) s progs = (interleave srv schedule s progs).step srv i := by
      simp [interleave]
    rw [hstep]
    exact ih.step srv i

theorem Config.step_of_call {cfg : Config S I C A} {i : I} {c : C} {k : A c → Prog C A} (h : cfg.progs i = .call c k) :
    cfg.step srv i =
      { state := srv.effect cfg.state c
        progs := Function.update cfg.progs i (k (srv.answer cfg.state c))
        trace := cfg.trace ++ [(i, ⟨c, srv.answer cfg.state c⟩)] } := by
  rw [Config.step, h]

theorem Config.step_of_done {cfg : Config S I C A} {i : I} (h : cfg.progs i = .done) : cfg.step srv i = cfg := by
  rw [Config.step, h]

/-- The last program that is not done runs as if on its own. -/
theorem Config.state_of_alone {cfg : Config S I C A} {j : I} (hothers : ∀ i, i ≠ j → cfg.progs i = .done) (schedule : List I)
    (hdone : (schedule.foldl (Config.step srv) cfg).progs j = .done) :
    (schedule.foldl (Config.step srv) cfg).state = (cfg.progs j).run srv cfg.state := by
  induction schedule generalizing cfg with
  | nil =>
    rw [List.foldl_nil] at hdone ⊢
    rw [hdone, Prog.run]
  | cons i schedule ih =>
    rw [List.foldl_cons] at hdone ⊢
    by_cases hi : i = j
    · subst hi
      cases hprog : cfg.progs i with
      | done =>
        rw [Config.step_of_done srv hprog] at hdone ⊢
        rw [ih hothers hdone, hprog]
      | call c k =>
        rw [Config.step_of_call srv hprog] at hdone ⊢
        rw [ih _ hdone]
        · dsimp only
          rw [Function.update_self, Prog.run]
        · intro l hl
          dsimp only
          rw [Function.update_of_ne hl]
          exact hothers l hl
    · rw [Config.step_of_done srv (hothers i hi)] at hdone ⊢
      exact ih hothers hdone

end
end Memorai.Concurrency

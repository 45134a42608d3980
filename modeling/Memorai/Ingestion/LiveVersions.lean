import Memorai.Ingestion.RunLaws

/-! There are never two live versions of one decision, after any complete runs. -/
namespace Memorai.Ingestion
open Schema Memorai.Graph Storage Resolver

/-- Two statements of the same thing: the same tokens and the same obligation. -/
def SameContent (a b : Claim) : Prop := tokens a.statement = tokens b.statement ∧ obligation a = obligation b

instance (a b : Claim) : Decidable (SameContent a b) := by unfold SameContent; infer_instance

/-- Two claims that may not both be live. -/
def Conflict (a b : Claim) : Prop :=
  a.ownerId = b.ownerId ∧ Shares a b ∧ topic a.statement = topic b.statement ∧ ¬ SameContent a b

instance (a b : Claim) : Decidable (Conflict a b) := by unfold Conflict; infer_instance

theorem Conflict.symm {a b : Claim} (h : Conflict a b) : Conflict b a :=
  ⟨h.1.symm, h.2.1.symm, h.2.2.1.symm, fun e => h.2.2.2 ⟨e.1.symm, e.2.symm⟩⟩

theorem Conflict.disputes {a b : Claim} (h : Conflict a b) (hid : b.id ≠ a.id) : Disputes a b :=
  ⟨hid, h.2.2.1.symm, fun e => h.2.2.2 ⟨e.1.symm, e.2.symm⟩⟩

def OneLive (s : Store) : Prop := ∀ x y a b, s.claim? x = some a → s.claim? y = some b →
  a.status = .active → b.status = .active → ¬ Conflict a b

private theorem oneLive_mixed {s : Store} (hs : Sound s) (job : Job) {x : String} {c b : Claim}
    (hc : s.claim? x = some c) (hnm : ¬ marked (job.ops s) c.id) (hb : b ∈ job.pending s) (hca : c.status = .active)
    (hba : b.status = .active) : ¬ Conflict b c := by
  intro h
  have hcid : c.id = x := Store.id_of_claim? hc
  have hne : c.id ≠ b.id := by
    intro he
    have hnone := job.claim?_eq_none_of_mem_pending s hb
    rw [← he, hcid, hc] at hnone
    exact absurd hnone (by simp)
  have hown : c.ownerId = job.ownerId := h.1.symm.trans (job.owner_of_mem_pending s hb)
  have hst : c ∈ storedAbout job.rows s job.ownerId b := hs.mem_storedAbout (hcid ▸ hc) hown h.2.1
  have hsup := (job.supersedes_stored hb hba hst ⟨h.disputes hne, hca⟩).2
  exact hnm (((job.carries_ops s).marked_iff c.id).mpr ⟨b, hb, hsup⟩)

theorem OneLive.run {s : Store} (hs : Sound s) (h : OneLive s) (job : Job) : OneLive (job.run s) := by
  intro x y a b ha hb haa hba hconf
  have hne : b.id ≠ a.id := by
    intro he
    rw [Store.id_of_claim? ha, Store.id_of_claim? hb] at he
    obtain rfl := Option.some.inj (ha.symm.trans (he ▸ hb))
    exact hconf.2.2.2 ⟨rfl, rfl⟩
  rcases job.claim?_run_active ha haa with ⟨hc, hnm⟩ | hc
  · rcases job.claim?_run_active hb hba with ⟨hd, _⟩ | hd
    · exact h x y a b hc hd haa hba hconf
    · exact oneLive_mixed hs job hc hnm hd haa hba hconf.symm
  · rcases job.claim?_run_active hb hba with ⟨hd, hnm⟩ | hd
    · exact oneLive_mixed hs job hd hnm hc hba haa hconf
    · exact pending_settled hc hd haa hba (hconf.disputes hne)

/-- After any complete runs from the empty store, two active claims of one owner about a shared
subject and with the same topic say the same thing. -/
theorem one_live_version (jobs : List Job) : OneLive (runAll jobs PropertyGraph.empty) :=
  (runAll_invariant (fun job _ hs h => OneLive.run hs h job) Sound.empty
    (fun _ _ _ _ ha => absurd ha (by simp [Store.claim?])) jobs).2

end Memorai.Ingestion

import Memorai.Ingestion.Links
import Memorai.Resolution.Rereads

/-! Claims laid over a store: what is stored of claims once some more of them are written, in
closed form, whoever wrote them and in how many goes. -/
namespace Memorai.Ingestion
open Schema Memorai.Graph Storage Extraction Resolver

/-- The nodes a claim is linked to are claims or entities, by relation. -/
def targetKey (r : Rel) (t : String) : NodeKey :=
  if r = .supersedes ∨ r = .contradicts then Store.claimKey t else Store.entityKey t

/-- The claim with this id: the stored one, or one of `cs`. -/
def entry (s : Store) (cs : List Claim) (x : String) : Option Claim := (s.claim? x).or (cs.find? (fun c => c.id = x))

/-- `s'` is `s` with the claims `cs` written over it, as far as claims and what links them go. Claims
are the same up to what `view` hides. -/
structure Layered {β : Type} (view : Claim → β) (s s' : Store) (cs : List Claim) : Prop where
  claims : ∀ x, Option.Rel (Alike view) ((entry s cs x).map (mark cs)) (s'.claim? x)
  edges : ∀ k r j, r ≠ .mentions → r ≠ .cites → ((k, r, j) ∈ s'.edges ↔
    (k, r, j) ∈ s.edges ∨ ∃ c ∈ cs, k = Store.claimKey c.id ∧ ∃ t ∈ linked c r, j = targetKey r t)
  known : ∀ x, Supersede cs x → ∃ c, s'.claim? x = some c

theorem entry_append (s : Store) (as bs : List Claim) (x : String) :
    entry s (as ++ bs) x = (entry s as x).or (bs.find? (fun c => c.id = x)) := by
  rw [entry, entry, List.find?_append, Option.or_assoc]

section Layered
variable {β : Type} {view : Claim → β} {s s₁ s₂ : Store} {as bs cs : List Claim}

theorem find?_alike (ht : Telling view) (h : List.Forall₂ (Alike view) as bs) (x : String) :
    Option.Rel (Alike view) (as.find? (fun c => c.id = x)) (bs.find? (fun c => c.id = x)) := by
  induction h with
  | nil => exact .none
  | @cons a b as bs hab _ ih =>
    have hid : a.id = b.id := eq_of_gist Gist.id (ht.gist hab.shown)
    by_cases hx : b.id = x
    · rw [List.find?_cons_of_pos (by simp [hid, hx]), List.find?_cons_of_pos (by simp [hx])]
      exact .some hab
    · rw [List.find?_cons_of_neg (by simp [hid, hx]), List.find?_cons_of_neg (by simp [hx])]
      exact ih

theorem linked_alike (ht : Telling view) {a b : Claim} (h : Alike view a b) {r : Rel} (hc : r ≠ .cites) (t : String) :
    t ∈ linked a r ↔ t ∈ linked b r := by
  have hg := ht.gist h.shown
  have hsub : a.subjectEntityIds = b.subjectEntityIds := eq_of_gist Gist.subjectEntityIds hg
  have hcom : a.commitment = b.commitment := eq_of_gist Gist.commitment hg
  cases r with
  | supersedes => exact h.supersedes t
  | contradicts => exact h.contradicts t
  | cites => exact absurd rfl hc
  | _ => simp only [linked, hsub, hcom]

theorem exists_linked_alike (ht : Telling view) (hab : List.Forall₂ (Alike view) as bs) {r : Rel} (hc : r ≠ .cites)
    {k j : NodeKey} : (∃ a ∈ as, k = Store.claimKey a.id ∧ ∃ t ∈ linked a r, j = targetKey r t) ↔
      ∃ b ∈ bs, k = Store.claimKey b.id ∧ ∃ t ∈ linked b r, j = targetKey r t := by
  induction hab with
  | nil => exact Iff.rfl
  | @cons a b as bs hal _ ih =>
    have hid : a.id = b.id := eq_of_gist Gist.id (ht.gist hal.shown)
    simp only [List.exists_mem_cons_iff, ih, hid, linked_alike ht hal hc]

theorem Layered.refl (view : Claim → β) (s : Store) : Layered view s s [] where
  claims x := by
    rw [entry, List.find?_nil, Option.or_none]
    cases s.claim? x with
    | none => exact .none
    | some c => exact .some (by rw [mark_nil]; exact .refl view c)
  edges _ _ _ _ _ := by simp
  known _ h := absurd h supersede_nil

theorem Layered.stored (h : Layered view s s₁ cs) {x : String} {c : Claim} (hc : s.claim? x = some c) :
    ∃ d, s₁.claim? x = some d ∧ Alike view (mark cs c) d := by
  have hx := h.claims x
  rw [entry, hc, Option.some_or, Option.map_some] at hx
  cases hd : s₁.claim? x with
  | none => rw [hd] at hx; cases hx
  | some d =>
    rw [hd] at hx
    cases hx with
    | some hcd => exact ⟨d, rfl, hcd⟩

theorem Layered.laid (h : Layered view s s₁ cs) {c : Claim} (hc : c ∈ cs) : ∃ d, s₁.claim? c.id = some d := by
  have hx := h.claims c.id
  have hsome : ∃ e, entry s cs c.id = some e := by
    rw [entry, ← Option.isSome_iff_exists, Option.isSome_or, List.find?_isSome.mpr ⟨c, hc, by simp⟩, Bool.or_true]
  obtain ⟨e, he⟩ := hsome
  rw [he] at hx
  cases hd : s₁.claim? c.id with
  | none => rw [hd] at hx; cases hx
  | some d => exact ⟨d, rfl⟩

/-- Layers add up. -/
theorem Layered.trans (ht : Telling view) (h : Layered view s s₁ as) (h' : Layered view s₁ s₂ bs) :
    Layered view s s₂ (as ++ bs) where
  claims x := by
    have hx := h.claims x
    rw [entry_append]
    cases he : entry s as x with
    | none =>
      have hnone : s₁.claim? x = none := by
        rw [he, Option.map_none] at hx
        cases hc : s₁.claim? x with
        | none => rfl
        | some c => rw [hc] at hx; cases hx
      have hx' := h'.claims x
      rw [entry, hnone, Option.none_or] at hx'
      rw [Option.none_or]
      cases hb : bs.find? (fun c => c.id = x) with
      | none => rwa [hb] at hx'
      | some b =>
        have hid : b.id = x := by simpa using List.find?_some hb
        have hno : ¬ Supersede as b.id := by
          intro hsup
          obtain ⟨c, hc⟩ := h.known b.id hsup
          rw [hid, hnone] at hc
          exact absurd hc (by simp)
        rw [hb] at hx'
        rwa [Option.map_some, ← mark_mark, mark_of_not_supersede hno]
    | some c =>
      rw [he, Option.map_some] at hx
      cases hc₁ : s₁.claim? x with
      | none => rw [hc₁] at hx; cases hx
      | some c₁ =>
        rw [hc₁] at hx
        cases hx with
        | some hal =>
          obtain ⟨c₂, hc₂, hal₂⟩ := h'.stored hc₁
          rw [hc₂, Option.some_or, Option.map_some, ← mark_mark]
          exact .some ((hal.mark ht (fun _ => Iff.rfl)).trans hal₂)
  edges k r j hm hc := by
    rw [h'.edges k r j hm hc, h.edges k r j hm hc, or_assoc]
    simp only [List.mem_append, or_and_right, exists_or]
  known x hx := by
    rcases supersede_append.mp hx with hx | hx
    · obtain ⟨c, hc⟩ := h.known x hx
      obtain ⟨d, hd, _⟩ := h'.stored hc
      exact ⟨d, hd⟩
    · exact h'.known x hx

/-- Claims may be exchanged for alike ones. -/
theorem Layered.congr (ht : Telling view) (hab : List.Forall₂ (Alike view) as bs) (h : Layered view s s₁ bs) :
    Layered view s s₁ as where
  claims x := by
    have hx := h.claims x
    have hrel : Option.Rel (Alike view) (entry s as x) (entry s bs x) := by
      rw [entry, entry]
      cases s.claim? x with
      | none => simpa only [Option.none_or] using find?_alike ht hab x
      | some c => exact .some (.refl view c)
    cases ha : entry s as x with
    | none =>
      rw [ha] at hrel
      cases hb : entry s bs x with
      | none => rwa [hb] at hx
      | some b => rw [hb] at hrel; cases hrel
    | some a =>
      rw [ha] at hrel
      cases hb : entry s bs x with
      | none => rw [hb] at hrel; cases hrel
      | some b =>
        rw [hb] at hrel hx
        cases hrel with
        | some hal =>
          cases hc : s₁.claim? x with
          | none => rw [hc] at hx; cases hx
          | some c =>
            rw [hc] at hx
            cases hx with
            | some hbc => exact .some ((hal.mark ht (supersede_alike hab)).trans hbc)
  edges k r j hm hc := by
    rw [h.edges k r j hm hc, exists_linked_alike ht hab hc]
  known x hx := h.known x ((supersede_alike hab x).mp hx)

theorem linked_mark (ds : List Claim) (c : Claim) (r : Rel) : linked (mark ds c) r = linked c r := by
  unfold mark
  split
  · cases r <;> rfl
  · rfl

/-- Whether the earlier claims of a layer are listed as the later ones left them does not matter. -/
theorem Layered.marked (h : Layered view s s₁ (as ++ bs)) : Layered view s s₁ (as.map (mark bs) ++ bs) where
  claims x := by
    have hx := h.claims x
    have hsup : ∀ y, Supersede (as.map (mark bs) ++ bs) y ↔ Supersede (as ++ bs) y := fun y => by
      rw [supersede_append, supersede_append, supersede_map (supersedes_mark bs)]
    have hfind : (as.map (mark bs)).find? (fun c => c.id = x) = (as.find? (fun c => c.id = x)).map (mark bs) := by
      rw [List.find?_map]
      simp only [Function.comp_def, id_mark]
    have hover : ∀ c, mark (as.map (mark bs) ++ bs) (mark bs c) = mark (as ++ bs) c := by
      intro c
      rw [mark_congr hsup, mark_mark]
      refine mark_congr (fun y => ?_) c
      rw [supersede_append, supersede_append]
      tauto
    rw [entry_append, entry] at hx ⊢
    rw [hfind]
    cases hs : s.claim? x with
    | some c =>
      rw [hs] at hx
      rwa [Option.some_or, Option.some_or, Option.map_some, mark_congr hsup, ← Option.map_some]
    | none =>
      rw [hs] at hx
      cases ha : as.find? (fun c => c.id = x) with
      | some a =>
        rw [ha] at hx
        rwa [Option.map_some, Option.none_or, Option.some_or, Option.map_some, hover, ← Option.map_some]
      | none =>
        rw [ha] at hx
        simp only [Option.map_none, Option.none_or] at hx ⊢
        have hmap : (mark (as.map (mark bs) ++ bs)) = mark (as ++ bs) := funext (mark_congr hsup)
        rwa [hmap]
  edges k r j hm hc := by
    rw [h.edges k r j hm hc]
    simp only [List.mem_append, or_and_right, exists_or, List.mem_map, exists_exists_and_eq_and, id_mark, linked_mark]
  known x hx := by
    rw [supersede_append, supersede_map (supersedes_mark bs), ← supersede_append] at hx
    exact h.known x hx

end Layered
end Memorai.Ingestion

import Mathlib.Data.List.Forall2

/-! Elements that correspond to each other in two lists related entry by entry. -/
namespace List.Forall₂

variable {α β γ : Type} {R : α → β → Prop} {l : List α} {l' : List β}

theorem mem_left (h : Forall₂ R l l') {b : β} (hb : b ∈ l') : ∃ a ∈ l, R a b := by
  induction h with
  | nil => cases hb
  | cons hab _ ih =>
    rcases List.mem_cons.mp hb with rfl | hb
    · exact ⟨_, List.mem_cons_self, hab⟩
    · obtain ⟨a, ha, h⟩ := ih hb
      exact ⟨a, List.mem_cons_of_mem _ ha, h⟩

theorem mem_right (h : Forall₂ R l l') {a : α} (ha : a ∈ l) : ∃ b ∈ l', R a b :=
  h.flip.mem_left ha

theorem getLast_right (h : Forall₂ R l l') {a : α} (ha : l.getLast? = some a) :
    ∃ b, l'.getLast? = some b ∧ R a b := by
  induction h with
  | nil => cases ha
  | @cons c d _ _ hcd htail ih =>
    cases htail with
    | nil => cases ha; exact ⟨d, rfl, hcd⟩
    | cons => rw [List.getLast?_cons_cons] at ha ⊢; exact ih ha

theorem comp {S : β → γ → Prop} {U : α → γ → Prop} {l'' : List γ} (h : Forall₂ R l l')
    (h' : Forall₂ S l' l'') (hU : ∀ a b c, R a b → S b c → U a c) : Forall₂ U l l'' := by
  induction h generalizing l'' with
  | nil => cases h'; exact .nil
  | cons hab _ ih =>
    cases h' with
    | cons hbc ht => exact .cons (hU _ _ _ hab hbc) (ih ht)

end List.Forall₂

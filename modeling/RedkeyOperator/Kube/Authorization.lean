import RedkeyOperator.Api.Types

/-! # Role-based access control

A request is allowed by the rules of its author's roles. Nobody may hand out a
rule that goes beyond the own ones: the API server takes the rules of a Role
apart into single requests and looks for each of them among the rules of the
author (`covers`). A rule without names of objects is meant, and no rule has
`*` for the resources of a subresource. -/
namespace RedkeyOperator.Kube
open RedkeyOperator.Api

structure Request where
  group : String
  resource : String
  verb : String
deriving DecidableEq, Repr

/-- One of the values, or all of them. -/
def named (values : List String) (value : String) : Bool :=
  values.contains value || values.contains "*"

def allows (rule : PolicyRule) (q : Request) : Bool :=
  named rule.apiGroups q.group && named rule.resources q.resource && named rule.verbs q.verb

def permits (rules : List PolicyRule) (q : Request) : Bool := rules.any (allows · q)

/-- The single requests that a rule names. -/
def breakdown (rule : PolicyRule) : List Request :=
  rule.apiGroups.flatMap fun group => rule.resources.flatMap fun resource =>
    rule.verbs.map fun verb => ⟨group, resource, verb⟩

def covers (owner rules : List PolicyRule) : Bool :=
  rules.all fun rule => (breakdown rule).all (permits owner)

theorem exists_of_named {values : List String} {value : String} (h : named values value = true) :
    ∃ v ∈ values, v = value ∨ v = "*" := by
  rcases Bool.or_eq_true_iff.mp h with h | h
  · exact ⟨value, List.contains_iff_mem.mp h, .inl rfl⟩
  · exact ⟨"*", List.contains_iff_mem.mp h, .inr rfl⟩

theorem named_of_named {values : List String} {v value : String} (h : named values v = true)
    (hv : v = value ∨ v = "*") : named values value = true := by
  rcases hv with rfl | rfl
  · exact h
  · have hstar : values.contains "*" = true := by simpa [named] using h
    exact Bool.or_eq_true_iff.mpr (.inr hstar)

/-- Rules that are covered permit nothing that the owner's do not. -/
theorem permits_of_covers {owner rules : List PolicyRule} {q : Request}
    (h : covers owner rules = true) (hq : permits rules q = true) : permits owner q = true := by
  obtain ⟨rule, hrule, hallow⟩ := List.any_eq_true.mp hq
  simp only [allows, Bool.and_eq_true] at hallow
  obtain ⟨⟨hg, hr⟩, hv⟩ := hallow
  obtain ⟨group, hgroup, hgq⟩ := exists_of_named hg
  obtain ⟨resource, hresource, hrq⟩ := exists_of_named hr
  obtain ⟨verb, hverb, hvq⟩ := exists_of_named hv
  have hmem : (⟨group, resource, verb⟩ : Request) ∈ breakdown rule :=
    List.mem_flatMap.mpr ⟨group, hgroup, List.mem_flatMap.mpr ⟨resource, hresource,
      List.mem_map.mpr ⟨verb, hverb, rfl⟩⟩⟩
  have hpermit := List.all_eq_true.mp (List.all_eq_true.mp h rule hrule) _ hmem
  obtain ⟨own, hown, hallow⟩ := List.any_eq_true.mp hpermit
  simp only [allows, Bool.and_eq_true] at hallow
  refine List.any_eq_true.mpr ⟨own, hown, ?_⟩
  simp only [allows, Bool.and_eq_true]
  exact ⟨⟨named_of_named hallow.1.1 hgq, named_of_named hallow.1.2 hrq⟩,
    named_of_named hallow.2 hvq⟩

end RedkeyOperator.Kube

import RedkeyOperator.Api.Types

/-! The CEL rules of the Redkey CRD (`redkey_types.go`): which update of a spec
the API server admits, given the stored Redkey. An update of the spec leaves the
status as it is, so `self.status` is the stored one. A field with `omitempty` is
absent when it has its zero value, which is what `has` asks; a rule that
compares with `oldSelf` applies to a field that is present before and after. -/
namespace RedkeyOperator.Api

structure Violation where
  field : String
  message : String
deriving DecidableEq, Repr

def rule (field message : String) (holds : Bool) : List Violation :=
  if holds then [] else [⟨field, message⟩]

/-- Rules on a field that must not change. -/
def fieldRules (old new : RedkeySpec) : List Violation :=
  rule ".spec.ephemeral" "Changing the ephemeral field is not allowed"
      (new.ephemeral == old.ephemeral) ++
    rule ".spec.storage" "Changing the storage size is not allowed"
      (old.storage == "" || new.storage == "" || new.storage == old.storage) ++
    rule ".spec.storageClassName" "Changing the storage class name is not allowed"
      (new.storageClassName == old.storageClassName) ++
    rule ".spec.accessModes" "Changing the storage access modes is not allowed"
      (old.accessModes == [] || new.accessModes == [] || new.accessModes == old.accessModes)

/-- Rules on `RedkeySpec`. `purgeKeysOnRebalance` defaults to true. -/
def specRules (old new : RedkeySpec) : List Violation :=
  rule ".spec" "Ephemeral or storage must be set" (new.ephemeral || new.storage != "") ++
    rule ".spec" "Ephemeral and storage cannot be combined"
      (!(new.ephemeral && new.storage != "")) ++
    rule ".spec" "Cannot set purgeKeysOnRebalance to true for non-ephemeral clusters"
      (!(!new.ephemeral && new.purgeKeysOnRebalance.getD true)) ++
    rule ".spec" "Changing the mode field is not allowed" (new.mode == old.mode) ++
    rule ".spec" "Standalone mode allows at most 1 primary (0 to scale to zero)"
      (new.mode != .standalone || decide (new.primaries ≤ 1)) ++
    rule ".spec" "Standalone mode does not allow replicas (replicasPerPrimary must be 0)"
      (new.mode != .standalone || new.replicasPerPrimary == 0)

/-- The lock on scaling up from zero, one rule for each number. -/
def rootRules (old : Redkey) (new : RedkeySpec) : List Violation :=
  let unlocked := new.ephemeral || old.spec.primaries != 0 || new.primaries == 0 ||
    !(old.status.lastAppliedPrimaries != 0)
  rule ".spec.primaries" ("For storage clusters, scaling up from zero must restore the same " ++
      "primaries the cluster had before scaling to zero (see .status.lastAppliedPrimaries)")
      (unlocked || new.primaries == old.status.lastAppliedPrimaries) ++
    rule ".spec.replicasPerPrimary" ("For storage clusters, scaling up from zero must restore the " ++
      "same replicasPerPrimary the cluster had before scaling to zero " ++
      "(see .status.lastAppliedReplicasPerPrimary)")
      (unlocked || new.replicasPerPrimary ==
        if old.status.lastAppliedReplicasPerPrimary != 0
        then old.status.lastAppliedReplicasPerPrimary else 0)

def violations (old : Redkey) (new : RedkeySpec) : List Violation :=
  fieldRules old.spec new ++ specRules old.spec new ++ rootRules old new

def admitted (old : Redkey) (new : RedkeySpec) : Bool := (violations old new).isEmpty

theorem rule_eq_nil {field message : String} {holds : Bool} :
    rule field message holds = [] ↔ holds = true := by
  cases holds <;> simp [rule]

theorem admitted_iff {old : Redkey} {new : RedkeySpec} : admitted old new = true ↔
    fieldRules old.spec new = [] ∧ specRules old.spec new = [] ∧ rootRules old new = [] := by
  simp [admitted, violations]

theorem admitted_ephemeral {old : Redkey} {new : RedkeySpec} (h : admitted old new = true) :
    new.ephemeral = old.spec.ephemeral := by
  have := (admitted_iff.mp h).1
  simp only [fieldRules, List.append_eq_nil_iff, rule_eq_nil, beq_iff_eq] at this
  exact this.1.1.1

/-- A storage cluster is scaled up from zero only to the recorded topology. -/
theorem admitted_wakeUp {old : Redkey} {new : RedkeySpec} (h : admitted old new = true)
    (he : old.spec.ephemeral = false) (h0 : old.spec.primaries = 0) (hn : new.primaries ≠ 0)
    (hr : old.status.lastAppliedPrimaries ≠ 0) :
    (new.primaries, new.replicasPerPrimary) = old.status.lastApplied := by
  have hroot := (admitted_iff.mp h).2.2
  rw [← admitted_ephemeral h] at he
  simp only [rootRules, he, h0, List.append_eq_nil_iff, rule_eq_nil, bne_self_eq_false,
    Bool.false_or, beq_eq_false_iff_ne.mpr hn, bne_iff_ne.mpr hr, Bool.not_true, beq_iff_eq] at hroot
  have hrep := hroot.2
  split at hrep
  · rw [hroot.1, hrep]
  · rename_i hz
    rw [bne_iff_ne, not_not] at hz
    rw [hroot.1, hrep, RedkeyStatus.lastApplied, hz]

end RedkeyOperator.Api

import RedkeyOperator.Api.Admission
import RedkeyOperator.Controller.Config

/-! # What a config keeps of the spec

Robin sees the configs only. `configSpec` copies the spec of the Redkey field by
field; here two specs with the same copy are compared. -/
namespace RedkeyOperator.Controller
open RedkeyOperator.Api

/-- What a spec says about the Redis cluster: all but the fields of `robin` that
the operator itself puts into Robin's Deployment. -/
def clusterPart (spec : RedkeySpec) : RedkeySpec :=
  { spec with robin := { image := "", config := spec.robin.config } }

theorem clusterPart_eq_iff {spec spec' : RedkeySpec} {seq : Nat}
    (h : configSpec spec seq = configSpec spec' seq) : clusterPart spec = clusterPart spec' ↔
      spec.accessModes = spec'.accessModes ∧ spec.backup = spec'.backup := by
  simp only [configSpec, RedkeyConfigSpec.mk.injEq] at h
  unfold clusterPart
  simp only [RedkeySpec.mk.injEq, h, true_and]
  exact and_comm

/-- Two Redkeys with equal snapshots want the same cluster exactly when they agree
on the two fields that a snapshot leaves out. -/
theorem snapshot_determines_cluster_iff {rk rk' : Redkey} {highest : Option RedkeyConfig}
    (_hk : rk.key = rk'.key) (_hg : rk.generation = rk'.generation)
    (h : (newConfig rk (nextSequence highest)).spec = (newConfig rk' (nextSequence highest)).spec) :
    clusterPart rk.spec = clusterPart rk'.spec ↔
      rk.spec.accessModes = rk'.spec.accessModes ∧ rk.spec.backup = rk'.spec.backup :=
  clusterPart_eq_iff h

/-- A cluster with storage. -/
def storageCluster (accessModes : List String) (robinImage : String) : Redkey where
  key := ⟨"default", "redis"⟩
  uid := "u1"
  generation := 1
  resourceVersion := 1
  spec :=
    { primaries := 3
      ephemeral := false
      storage := "1Gi"
      purgeKeysOnRebalance := some false
      accessModes := accessModes
      robin := { image := robinImage } }

theorem snapshot_determines_storageCluster :
    clusterPart (storageCluster ["ReadWriteOnce"] "robin:1").spec =
      clusterPart (storageCluster ["ReadWriteOnce"] "robin:2").spec :=
  (@snapshot_determines_cluster_iff (storageCluster ["ReadWriteOnce"] "robin:1")
    (storageCluster ["ReadWriteOnce"] "robin:2") none rfl rfl rfl).mpr ⟨rfl, rfl⟩

/-- Both clusters are admitted, only one asks for shared volumes, and Robin sees
the same config. -/
theorem snapshot_forgets_accessModes : ∃ rk rk' : Redkey, rk.key = rk'.key ∧
    rk.generation = rk'.generation ∧ admitted rk rk.spec = true ∧ admitted rk' rk'.spec = true ∧
    (newConfig rk (nextSequence none)).spec = (newConfig rk' (nextSequence none)).spec ∧
    clusterPart rk.spec ≠ clusterPart rk'.spec := by
  refine ⟨storageCluster ["ReadWriteOnce"] "robin:1", storageCluster ["ReadWriteMany"] "robin:1",
    rfl, rfl, by decide, by decide, rfl, fun h => ?_⟩
  have hmodes := congrArg RedkeySpec.accessModes h
  simp [clusterPart, storageCluster] at hmodes

end RedkeyOperator.Controller

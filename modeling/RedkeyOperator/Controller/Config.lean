import Mathlib.Data.List.Sort
import RedkeyOperator.Kube.World
import RedkeyOperator.Controller.Status

/-! The config lineage (`redkey_config.go`): listing, creating and pruning
RedkeyConfigs and mirroring the active one onto the Redkey. -/
namespace RedkeyOperator.Controller
open RedkeyOperator.Api RedkeyOperator.Kube RedkeyOperator.Interleave

abbrev Act := Prog api

def write (a : Write) : Act (Except ApiError Unit) := Prog.perform (S := api) (.write a)

def count (c : Counter) : Act Unit := Prog.request (S := api) (.count c)

/-! ## Metadata (`redkey_robin.go`) -/

def derefMap (m : Option StringMap) : StringMap := m.getD []

/-- Labels or annotations of a managed object: an override replaces the user's
block as a whole, and the internal entries always win. -/
def mergeMeta (spec override base : StringMap) : StringMap :=
  StringMap.copy (StringMap.copy [] (if override.isEmpty then spec else override)) base

def generationAnnotation : String := "redkey.inditex.dev/cluster-generation"

/-! ## Listing and creating -/

/-- `sort.Slice` by sequence. The input comes in any order, so a stable sort
covers every order of configs with equal sequences. -/
def sortBySequence (items : List RedkeyConfig) : List RedkeyConfig :=
  items.insertionSort fun a b => a.sequence ≤ b.sequence

def listConfigs (cluster : Redkey) : Act (List RedkeyConfig) := do
  let items : List RedkeyConfig ←
    Prog.request (S := api) (.listConfigs cluster.key.namespace_ cluster.key.name)
  return sortBySequence items

/-- The generation a config was created for, if its annotation is a number. -/
def annotatedGeneration (c : RedkeyConfig) : Option Int :=
  (c.metadata.annotations.get generationAnnotation).bind parseInt

def needsNewConfig (cluster : Redkey) (latestConfig : Option RedkeyConfig) : Bool :=
  match latestConfig.bind annotatedGeneration with
  | some parsedGen =>
    if parsedGen ≥ cluster.generation then false
    else cluster.status.observedGeneration < cluster.generation
  | none => cluster.status.observedGeneration < cluster.generation

def configName (cluster : String) (seq : Nat) : String := cluster ++ "-" ++ toString seq

/-- The snapshot of a Redkey spec that a config carries. -/
def configSpec (spec : RedkeySpec) (seq : Nat) : RedkeyConfigSpec :=
  { sequence := seq
    skipIfSuperseded := spec.skipIfSuperseded
    mode := spec.mode
    primaries := spec.primaries
    replicasPerPrimary := spec.replicasPerPrimary
    ephemeral := spec.ephemeral
    storage := spec.storage
    storageClassName := spec.storageClassName
    image := spec.image
    version := spec.version
    redisConfig := spec.config
    resources := spec.resources
    auth := spec.auth
    labels := spec.labels
    annotations := spec.annotations
    deletePVC := spec.deletePVC
    purgeKeysOnRebalance := spec.purgeKeysOnRebalance
    override := spec.override
    pdb := spec.pdb
    robinConfig := spec.robin.config }

/-- The config `createNewConfig` sends, owned by the Redkey. -/
def newConfig (cluster : Redkey) (seq : Nat) : RedkeyConfig :=
  { metadata :=
      { key := ⟨cluster.key.namespace_, configName cluster.key.name seq⟩
        labels := mergeMeta (derefMap cluster.spec.labels) [] [(clusterLabel, cluster.key.name)]
        annotations := mergeMeta (derefMap cluster.spec.annotations) []
          [( generationAnnotation, formatInt cluster.generation)]
        owner := some cluster.uid }
    spec := configSpec cluster.spec seq }

def nextSequence (highestSeq : Option RedkeyConfig) : Nat :=
  match highestSeq with
  | some c => c.sequence + 1
  | none => 1

def createNewConfig (cluster : Redkey) (highestSeq : Option RedkeyConfig) : Act Unit := do
  match ← write (.createConfig (newConfig cluster (nextSequence highestSeq))) with
  | .error .alreadyExists => return ()
  | .error e => .fail e
  | .ok _ => count (.configCreations (if highestSeq.isNone then "initial" else "generation_change"))

/-! ## Aggregating the status -/

/-- `retry.RetryOnConflict`: at most `steps` attempts, the last conflict returned. -/
def retryOnConflict {α : Type} (steps : Nat) (fn : Act α) : Act α :=
  match steps with
  | 0 => .fail .conflict
  | n + 1 => do
    match ← fn.attempt with
    | .ok a => return a
    | .error .conflict => retryOnConflict n fn
    | .error e => .fail e

/-- `retry.DefaultRetry.Steps`. -/
def defaultRetrySteps : Nat := 5

/-- One attempt of `aggregateStatus`; it returns the status it has persisted. -/
def tryAggregateStatus (cluster : Redkey) (active : RedkeyConfig) : Act RedkeyStatus := do
  let latest : Redkey ← Prog.request (S := api) (.getRedkey cluster.key)
  let now : Time ← Prog.request (S := api) .now
  let status := aggregatedStatus now latest active cluster.generation
  match ← write (.updateStatus { latest with status := status }) with
  | .error e => .fail e
  | .ok _ => return status

/-- The result is the caller's copy of the Redkey, in sync with what was persisted. -/
def aggregateStatus (cluster : Redkey) (configs : List RedkeyConfig) : Act Redkey :=
  match selectActiveConfig configs with
  | none => return cluster
  | some active => do
    let status ← retryOnConflict defaultRetrySteps (tryAggregateStatus cluster active)
    return { cluster with status := status }

/-! ## Pruning -/

/-- How many configs precede the last Applied one; 0 when there is none. -/
def lastAppliedIndex (configs : List RedkeyConfig) : Nat :=
  match configs with
  | [] => 0
  | _ :: cs => if cs.any fun d => d.phase == .applied then lastAppliedIndex cs + 1 else 0

/-- The deletion loop: `older` are deleted one by one, and what is returned
starts at the config whose deletion failed. -/
def deleteOlder (older kept : List RedkeyConfig) :
    Act (List RedkeyConfig × Option ApiError) :=
  match older with
  | [] => return (kept, none)
  | c :: cs => do
    match ← write (.deleteConfig c.key) with
    | .error .notFound => deleteOlder cs kept
    | .error e => return (c :: cs ++ kept, some e)
    | .ok _ => do
      count .cleanupDeletedConfigs
      deleteOlder cs kept

def cleanupSupersededConfigs (configs : List RedkeyConfig) :
    Act (List RedkeyConfig × Option ApiError) :=
  let n := lastAppliedIndex configs
  deleteOlder (configs.take n) (configs.drop n)

end RedkeyOperator.Controller

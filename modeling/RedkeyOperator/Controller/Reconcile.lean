import RedkeyOperator.Controller.Robin

/-! The reconcile loop (`redkey_controller.go`) and its scale-to-zero branch
(`redkey_scale_zero.go`). -/
namespace RedkeyOperator.Controller
open RedkeyOperator.Api RedkeyOperator.Kube RedkeyOperator.Interleave

/-- `ctrl.Result`: when to reconcile again without an event. -/
structure Result where
  requeueAfter : Option Nat := none

/-- The configuration of the reconciler that the loop reads. -/
structure RedkeyReconciler where
  resyncInterval : Nat

/-! ## Tearing down -/

/-- A Delete that counts an object already gone as success. -/
def deleteIgnoringNotFound (a : Write) : Act Unit := do
  match ← write a with
  | .error .notFound => return ()
  | .error e => .fail e
  | .ok _ => return ()

def deleteRobinDeployment (cluster : Redkey) : Act Unit :=
  deleteIgnoringNotFound (.delete .deployment (robinKey cluster))

def deleteRBAC (cluster : Redkey) : Act Unit := do
  deleteIgnoringNotFound (.delete .roleBinding (robinKey cluster))
  deleteIgnoringNotFound (.delete .role (robinKey cluster))
  deleteIgnoringNotFound (.delete .serviceAccount (robinKey cluster))

def deleteConfigs (configs : List RedkeyConfig) : Act Unit :=
  match configs with
  | [] => return ()
  | c :: cs => do
    deleteIgnoringNotFound (.deleteConfig c.key)
    deleteConfigs cs

/-- The configs are deleted in the order List returns them. -/
def deleteAllConfigs (cluster : Redkey) : Act Unit := do
  let items : List RedkeyConfig ←
    Prog.request (S := api) (.listConfigs cluster.key.namespace_ cluster.key.name)
  deleteConfigs items

/-- The object read at the start of the reconcile is written back. -/
def updateStatusScaledToZero (cluster : Redkey) : Act Redkey := do
  let now : Time ← Prog.request (S := api) .now
  let cluster := { cluster with status := scaledToZeroStatus now cluster }
  writeOrFail (.updateStatus cluster)
  return cluster

/-! ## Scale to zero -/

/-- Case B: hand the scale-down to Robin as a config with no primaries. -/
def beginScaleToZero (cluster : Redkey) (latestConfig : RedkeyConfig) : Act Redkey := do
  ensureRBAC cluster
  ensureRobinDeployment cluster
  createNewConfig cluster (some latestConfig)
  return cluster

/-- Case C: Robin is done, so the operator removes its own objects. -/
def finishScaleToZero (cluster : Redkey) : Act Redkey := do
  deleteRobinDeployment cluster
  deleteRBAC cluster
  deleteAllConfigs cluster
  updateStatusScaledToZero cluster

/-- Case D: Robin is working; the list is aggregated as it is. -/
def awaitScaleToZero (cluster : Redkey) (configs : List RedkeyConfig) : Act Redkey := do
  ensureRBAC cluster
  ensureRobinDeployment cluster
  aggregateStatus cluster configs

/-- Every case requeues after the resync interval. -/
def reconcileScaleToZero (cluster : Redkey) : Act Redkey := do
  let configs ← listConfigs cluster
  match configs.getLast? with
  | none => updateStatusScaledToZero cluster
  | some latestConfig =>
    if latestConfig.spec.primaries ≠ 0 then beginScaleToZero cluster latestConfig
    else if latestConfig.phase = .applied then finishScaleToZero cluster
    else awaitScaleToZero cluster configs

/-! ## The loop -/

/-- Run one stage of the loop, counting its failure under its name. -/
def stage {α : Type} (name : String) (m : Act α) : Act α := do
  match ← m.attempt with
  | .ok a => return a
  | .error e => do
    count (.reconcileStageErrors name)
    .fail e

/-- The configs of the cluster, after one for the current spec has been created
if the generation tracking asks for it. -/
def ensureConfig (cluster : Redkey) : Act (List RedkeyConfig) := do
  let configs ← stage "list_configs" (listConfigs cluster)
  if configs.isEmpty || needsNewConfig cluster configs.getLast? then do
    stage "create_new_config" (createNewConfig cluster configs.getLast?)
    stage "list_configs" (listConfigs cluster)
  else return configs

/-- Prune and aggregate a non-empty list of configs. -/
def settleConfigs (cluster : Redkey) (configs : List RedkeyConfig) :
    Act (Redkey × List RedkeyConfig) :=
  if configs.isEmpty then return (cluster, configs)
  else do
    let (configs, err) ← cleanupSupersededConfigs configs
    match err with
    | some e => stage "cleanup_superseded_configs" (.fail e)
    | none =>
      let cluster ← stage "aggregate_status" (aggregateStatus cluster configs)
      return (cluster, configs)

/-- The branch of a cluster with primaries. -/
def reconcileRunning (cluster : Redkey) : Act Unit := do
  stage "ensure_rbac" (ensureRBAC cluster)
  stage "ensure_robin_deployment" (ensureRobinDeployment cluster)
  let configs ← ensureConfig cluster
  let (cluster, configs) ← settleConfigs cluster configs
  Prog.request (S := api) (.recordMetrics cluster (selectActiveConfig configs))

def reconcile (r : RedkeyReconciler) (req : NamespacedName) : Act Result := do
  match ← Prog.perform (S := api) (.getRedkey req) with
  | .error .notFound => do
    Prog.request (S := api) (.deleteMetrics req)
    return {}
  | .error e => stage "get_cluster" (.fail e)
  | .ok (cluster : Redkey) =>
    if cluster.spec.primaries = 0 then do
      let cluster ← stage "scale_to_zero" (reconcileScaleToZero cluster)
      Prog.request (S := api) (.recordMetrics cluster none)
      return { requeueAfter := some r.resyncInterval }
    else do
      reconcileRunning cluster
      return { requeueAfter := some r.resyncInterval }

end RedkeyOperator.Controller

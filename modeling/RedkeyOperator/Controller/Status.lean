import RedkeyOperator.Api.Types

/-! The pure half of status aggregation (`redkey_config.go`): which config the
status is taken from, the conditions and phase computed from it, and the two
status values the operator writes. -/
namespace RedkeyOperator.Controller
open RedkeyOperator.Api

/-! ## Conditions of `apimachinery/pkg/api/meta` -/

def findStatusCondition (conditions : List Condition) (type : String) : Option Condition :=
  conditions.find? fun c => c.type == type

/-- Update the first condition of the type in place, bumping its transition
time only when the status changes, and append a new condition otherwise. -/
def setStatusCondition (now : Time) (conditions : List Condition) (new : Condition) :
    List Condition :=
  match conditions with
  | [] => [{ new with lastTransitionTime := now }]
  | c :: cs =>
    if c.type == new.type then
      { new with
        lastTransitionTime := if c.status = new.status then c.lastTransitionTime else now } :: cs
    else c :: setStatusCondition now cs new

def conditionStatus (b : Bool) : ConditionStatus := if b then .true else .false

/-! ## Reading a config -/

def isTerminalConfigPhase (phase : ConfigPhase) : Bool :=
  phase == .applied || phase == .superseded

def isConfigReady (config : RedkeyConfig) : Bool :=
  isTerminalConfigPhase config.phase && config.status.status != clusterPhaseError

def hasConfigError (config : RedkeyConfig) : Bool :=
  isTerminalConfigPhase config.phase && config.status.status == clusterPhaseError

/-- The config the cluster status is aggregated from: the only one, the one in
progress, or else the first. There is none to return for an empty list. -/
def selectActiveConfig (configs : List RedkeyConfig) : Option RedkeyConfig :=
  match configs with
  | [] => none
  | [c] => some c
  | c :: cs => some (((c :: cs).find? fun d => d.phase == .inProgress).getD c)

/-! ## Conditions and phase of the Redkey -/

def healthConditionTypes : List String :=
  ["Healthy", "MembershipHealthy", "SlotsCovered", "SlotsBalanced", "ReplicasBalanced",
    "ClusterCheckPassing"]

/-- One health condition as mirrored from the active config. -/
def healthCondition (settled : Bool) (active : RedkeyConfig) (type : String) : Condition :=
  match settled, findStatusCondition active.status.conditions type with
  | true, some src =>
    { type := type, status := src.status, reason := src.reason, message := src.message }
  | _, _ => { type := type, status := .unknown, reason := "Reconciling" }

def aggregateHealthConditions (now : Time) (conditions : List Condition) (active : RedkeyConfig) :
    List Condition :=
  let settled := isTerminalConfigPhase active.phase && active.status.status == clusterStatusReady
  healthConditionTypes.foldl
    (fun cs type => setStatusCondition now cs (healthCondition settled active type)) conditions

/-- The three lifecycle conditions, written in the order Ready, ConfigPending, Error. -/
def setLifecycleConditions (now : Time) (conditions : List Condition)
    (ready configPending error : ConditionStatus) (reason : String) : List Condition :=
  let cs := setStatusCondition now conditions { type := "Ready", status := ready, reason := reason }
  let cs := setStatusCondition now cs
    { type := "ConfigPending", status := configPending, reason := reason }
  setStatusCondition now cs { type := "Error", status := error, reason := reason }

def aggregateConditions (now : Time) (existing : List Condition) (active : RedkeyConfig) :
    List Condition :=
  aggregateHealthConditions now
    (setLifecycleConditions now existing (conditionStatus (isConfigReady active))
      (conditionStatus (!isTerminalConfigPhase active.phase))
      (conditionStatus (hasConfigError active)) "StatusAggregated") active

def computePhaseFromConditions (conditions : List Condition) : RedkeyPhase :=
  if (findStatusCondition conditions "Error").any fun c => c.status == .true then .error
  else if (findStatusCondition conditions "Ready").any fun c => c.status == .true then .ready
  else .configuring

def emptyNodesIfNil (nodes : Nodes) : Nodes := some (nodes.getD [])

/-! ## The two status writers -/

/-- The status `aggregateStatus` writes over the refetched `latest`.
`observedGeneration` is the generation of the reconcile-start snapshot. -/
def aggregatedStatus (now : Time) (latest : Redkey) (active : RedkeyConfig)
    (observedGeneration : Nat) : RedkeyStatus :=
  let conditions := aggregateConditions now latest.status.conditions active
  -- the last applied topology is tracked for storage clusters and never cleared
  let tracked := !latest.spec.ephemeral && active.phase == .applied && 0 < active.spec.primaries
  { replicas := latest.spec.primaries
    phase := computePhaseFromConditions conditions
    status := active.status.status
    substatus := active.status.substatus
    nodes := emptyNodesIfNil active.status.nodes
    conditions := conditions
    lastUpdatedAt := some now
    observedGeneration := observedGeneration
    lastAppliedPrimaries :=
      if tracked then active.spec.primaries else latest.status.lastAppliedPrimaries
    lastAppliedReplicasPerPrimary :=
      if tracked then active.spec.replicasPerPrimary
      else latest.status.lastAppliedReplicasPerPrimary }

/-- The status `updateStatusScaledToZero` writes. -/
def scaledToZeroStatus (now : Time) (cluster : Redkey) : RedkeyStatus :=
  { cluster.status with
    replicas := 0
    phase := .ready
    status := ""
    substatus := {}
    nodes := some []
    lastUpdatedAt := some now
    observedGeneration := cluster.generation
    conditions := setLifecycleConditions now cluster.status.conditions
      .true .false .false "ScaledToZero" }

end RedkeyOperator.Controller

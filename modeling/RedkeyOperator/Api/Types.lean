import RedkeyOperator.Api.GoValue

/-! The API types of `api/v1beta1` and the Kubernetes objects the operator
manages. Embedded structures that the operator only copies are `Value`s; every
field that a modelled function reads or writes is here. -/
namespace RedkeyOperator.Api

structure NamespacedName where
  namespace_ : String
  name : String
deriving DecidableEq, Repr

abbrev UID := String
/-- Clock readings (`metav1.Time`). -/
abbrev Time := Nat

/-! ## RedkeyConfig -/

/-- `status.configPhase`; `unset` is the empty string a fresh config carries. -/
inductive ConfigPhase where
  | unset
  | pending
  | inProgress
  | superseded
  | applied
deriving DecidableEq, Repr

inductive Mode where
  | cluster
  | standalone
deriving DecidableEq, Repr

def clusterStatusReady : String := "Ready"
def clusterPhaseError : String := "Error"

inductive ConditionStatus where
  | true
  | false
  | unknown
deriving DecidableEq, Repr

/-- `metav1.Condition`. -/
structure Condition where
  type : String
  status : ConditionStatus
  observedGeneration : Nat := 0
  lastTransitionTime : Time := 0
  reason : String
  message : String := ""
deriving DecidableEq, Repr

structure RedkeySubstatus where
  status : String := ""
  upgradingPartition : Int := 0
deriving DecidableEq, Repr

structure RedisNode where
  role : String
  ip : String
  replicationStatus : String
deriving DecidableEq, Repr

/-- `map[string]*RedisNode`, with the nil map told apart from the empty one. -/
abbrev Nodes := Option (List (String × RedisNode))

structure RedisAuth where
  secretName : String := ""
deriving DecidableEq, Repr

/-- `spec` of a RedkeyConfig, immutable after creation. -/
structure RedkeyConfigSpec where
  sequence : Nat
  skipIfSuperseded : Bool
  mode : Mode
  primaries : Nat
  replicasPerPrimary : Int
  ephemeral : Bool
  storage : String
  storageClassName : String
  image : String
  version : String
  redisConfig : String
  resources : Option Value
  auth : RedisAuth
  labels : Option StringMap
  annotations : Option StringMap
  deletePVC : Option Bool
  purgeKeysOnRebalance : Option Bool
  override : Option Value
  pdb : Value
  robinConfig : Option Value

/-- Written by Robin only. -/
structure RedkeyConfigStatus where
  configPhase : ConfigPhase := .unset
  status : String := ""
  substatus : RedkeySubstatus := {}
  nodes : Nodes := none
  conditions : List Condition := []

/-- The metadata the operator reads or writes; `owner` is the UID in the
controller owner reference. -/
structure ObjectMeta where
  key : NamespacedName
  labels : StringMap := []
  annotations : StringMap := []
  owner : Option UID := none

structure RedkeyConfig where
  metadata : ObjectMeta
  spec : RedkeyConfigSpec
  status : RedkeyConfigStatus := {}

namespace RedkeyConfig

abbrev key (c : RedkeyConfig) : NamespacedName := c.metadata.key
abbrev sequence (c : RedkeyConfig) : Nat := c.spec.sequence
abbrev phase (c : RedkeyConfig) : ConfigPhase := c.status.configPhase
/-- What the wake-up lock compares. -/
abbrev topology (c : RedkeyConfig) : Nat × Int := (c.spec.primaries, c.spec.replicasPerPrimary)

end RedkeyConfig

/-! ## Containers and pod templates -/

structure EnvVar where
  name : String
  value : String := ""
  valueFrom : Option Value := none

/-- `limits` and `requests` are told apart from empty lists: the code tests them for nil. -/
structure ResourceRequirements where
  limits : Option (List (String × Value)) := none
  requests : Option (List (String × Value)) := none
  claims : List Value := []

structure Container where
  name : String
  image : String
  args : List String := []
  env : List EnvVar := []
  envFrom : List Value := []
  ports : List Value := []
  resources : ResourceRequirements := {}
  volumeMounts : List Value := []
  securityContext : Option Value := none

structure PodSpec where
  serviceAccountName : String := ""
  containers : List Container := []
  nodeSelector : StringMap := []
  tolerations : List Value := []
  affinity : Option Value := none
  securityContext : Option Value := none
  imagePullSecrets : List Value := []
  priorityClassName : String := ""
  topologySpreadConstraints : List Value := []
  volumes : List Value := []

/-- The parts of `PartialPodTemplateSpec` that the operator reads. -/
structure PartialPodTemplateSpec where
  labels : StringMap := []
  annotations : StringMap := []
  spec : PodSpec := {}

/-! ## Redkey -/

structure RobinSpec where
  image : String
  resources : Option ResourceRequirements := none
  template : Option PartialPodTemplateSpec := none
  config : Option Value := none

structure RedkeySpec where
  auth : RedisAuth := {}
  version : String := ""
  mode : Mode := .cluster
  primaries : Nat
  replicasPerPrimary : Int := 0
  image : String := ""
  deletePVC : Option Bool := some false
  backup : Bool := false
  robin : RobinSpec
  skipIfSuperseded : Bool := true
  purgeKeysOnRebalance : Option Bool := some true
  config : String := ""
  resources : Option Value := none
  labels : Option StringMap := none
  annotations : Option StringMap := none
  pdb : Value := .struct []
  override : Option Value := none
  ephemeral : Bool := true
  storage : String := ""
  storageClassName : String := ""
  accessModes : List String := ["ReadWriteOnce"]

/-- `status.phase`; `unset` is the empty string. -/
inductive RedkeyPhase where
  | unset
  | ready
  | configuring
  | error
deriving DecidableEq, Repr

structure RedkeyStatus where
  replicas : Nat := 0
  phase : RedkeyPhase := .unset
  status : String := ""
  substatus : RedkeySubstatus := {}
  nodes : Nodes := none
  conditions : List Condition := []
  lastUpdatedAt : Option Time := none
  observedGeneration : Nat := 0
  lastAppliedPrimaries : Nat := 0
  lastAppliedReplicasPerPrimary : Int := 0
deriving DecidableEq, Repr

namespace RedkeyStatus

abbrev lastApplied (s : RedkeyStatus) : Nat × Int :=
  (s.lastAppliedPrimaries, s.lastAppliedReplicasPerPrimary)

end RedkeyStatus

/-- Generations and resource versions are set by the API server. -/
structure Redkey where
  key : NamespacedName
  uid : UID
  generation : Nat
  resourceVersion : Nat
  spec : RedkeySpec
  status : RedkeyStatus := {}

namespace Redkey

/-- The Redkey after a user's write. -/
def withSpec (rk : Redkey) (spec : RedkeySpec) : Redkey :=
  { rk with
    spec := spec
    generation := rk.generation + 1
    resourceVersion := rk.resourceVersion + 1 }

/-- The Redkey after a write to its status subresource. -/
def withStatus (rk : Redkey) (status : RedkeyStatus) : Redkey :=
  { rk with status := status, resourceVersion := rk.resourceVersion + 1 }

end Redkey

/-! ## The objects of Robin -/

structure PolicyRule where
  apiGroups : List String
  resources : List String
  verbs : List String
deriving DecidableEq, Repr

structure Subject where
  kind : String
  name : String
  namespace_ : String
deriving DecidableEq, Repr

structure RoleRef where
  apiGroup : String
  kind : String
  name : String
deriving DecidableEq, Repr

structure ServiceAccount where
  metadata : ObjectMeta

structure Role where
  metadata : ObjectMeta
  rules : List PolicyRule

structure RoleBinding where
  metadata : ObjectMeta
  subjects : List Subject
  roleRef : RoleRef

structure PodTemplateSpec where
  labels : StringMap
  annotations : StringMap
  spec : PodSpec

structure Deployment where
  metadata : ObjectMeta
  replicas : Option Nat
  selector : StringMap
  template : PodTemplateSpec

/-- The kinds of object the operator keeps for Robin. -/
inductive Kind where
  | serviceAccount
  | role
  | roleBinding
  | deployment
deriving DecidableEq, Repr

def Obj : Kind → Type
  | .serviceAccount => ServiceAccount
  | .role => Role
  | .roleBinding => RoleBinding
  | .deployment => Deployment

def Obj.metadata : {k : Kind} → Obj k → ObjectMeta
  | .serviceAccount, o => ServiceAccount.metadata o
  | .role, o => Role.metadata o
  | .roleBinding, o => RoleBinding.metadata o
  | .deployment, o => Deployment.metadata o

end RedkeyOperator.Api

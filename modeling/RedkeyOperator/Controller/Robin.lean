import RedkeyOperator.Controller.Config

/-! The objects of Robin (`redkey_robin.go`): RBAC and the Deployment, created
when missing and repaired when they have drifted. -/
namespace RedkeyOperator.Controller
open RedkeyOperator.Api RedkeyOperator.Kube RedkeyOperator.Interleave

def componentLabel : String := "redkey.inditex.dev/component"

def robinName (cluster : Redkey) : String := cluster.key.name ++ "-robin"

def robinKey (cluster : Redkey) : NamespacedName := ⟨cluster.key.namespace_, robinName cluster⟩

/-- Internal labels of Robin's objects; they double as the selector. -/
def robinBaseLabels (cluster : Redkey) : StringMap :=
  [(clusterLabel, cluster.key.name), (componentLabel, "robin")]

def get (k : Kind) (key : NamespacedName) : Act (Except ApiError (Obj k)) :=
  Prog.perform (S := api) (.get k key)

/-- A write whose error the caller returns. -/
def writeOrFail (a : Write) : Act Unit := Prog.request (S := api) (.write a)

/-! ## RBAC -/

def desiredRobinRules : List PolicyRule :=
  let all := ["get", "list", "watch", "create", "update", "patch", "delete"]
  [ ⟨["apps"], ["statefulsets"], all⟩,
    ⟨[""], ["services", "configmaps"], all⟩,
    ⟨[""], ["pods"], ["get", "list", "watch", "delete"]⟩,
    ⟨[""], ["persistentvolumeclaims"], ["list", "delete"]⟩,
    ⟨["policy"], ["poddisruptionbudgets"], all⟩,
    ⟨[""], ["secrets"], ["get"]⟩,
    ⟨["redkey.inditex.dev"], ["redkeys"], ["get"]⟩,
    ⟨["redkey.inditex.dev"], ["redkeyconfigs"], ["get", "list", "watch"]⟩,
    ⟨["redkey.inditex.dev"], ["redkeyconfigs/status"], ["update", "patch"]⟩ ]

/-- Metadata of the desired RBAC objects, the controller reference included. -/
def rbacMeta (cluster : Redkey) : ObjectMeta :=
  { key := robinKey cluster
    labels := mergeMeta (derefMap cluster.spec.labels) [] (robinBaseLabels cluster)
    annotations := mergeMeta (derefMap cluster.spec.annotations) [] []
    owner := some cluster.uid }

def desiredServiceAccount (cluster : Redkey) : ServiceAccount := ⟨rbacMeta cluster⟩

def desiredRole (cluster : Redkey) : Role := ⟨rbacMeta cluster, desiredRobinRules⟩

def desiredRoleBinding (cluster : Redkey) : RoleBinding :=
  { metadata := rbacMeta cluster
    subjects := [⟨"ServiceAccount", robinName cluster, cluster.key.namespace_⟩]
    roleRef := ⟨"rbac.authorization.k8s.io", "Role", robinName cluster⟩ }

def metaDrifted (existing desired : ObjectMeta) : Bool :=
  !existing.labels.deepEqual desired.labels || !existing.annotations.deepEqual desired.annotations

/-- Create an object when it is missing, patch it when it has drifted. The
ServiceAccount and the Role of `ensureRBAC` are repaired this way. -/
def ensure (k : Kind) (desired : Obj k) (drifted : Obj k → Bool) : Act Unit := do
  match ← get k desired.metadata.key with
  | .error .notFound => writeOrFail (.create k desired)
  | .error e => .fail e
  | .ok existing => if drifted existing then writeOrFail (.patch k desired) else return ()

def ensureServiceAccount (cluster : Redkey) : Act Unit :=
  ensure .serviceAccount (desiredServiceAccount cluster) fun existing : ServiceAccount =>
    metaDrifted existing.metadata (rbacMeta cluster)

def ensureRole (cluster : Redkey) : Act Unit :=
  ensure .role (desiredRole cluster) fun existing : Role =>
    existing.rules != desiredRobinRules || metaDrifted existing.metadata (rbacMeta cluster)

/-- The RoleRef of a RoleBinding is immutable: a wrong one is deleted and made anew. -/
def ensureRoleBinding (cluster : Redkey) : Act Unit := do
  let desired := desiredRoleBinding cluster
  match ← get .roleBinding (robinKey cluster) with
  | .error .notFound => writeOrFail (.create .roleBinding desired)
  | .error e => .fail e
  | .ok (existing : RoleBinding) =>
    if existing.roleRef != desired.roleRef then do
      writeOrFail (.delete .roleBinding (robinKey cluster))
      writeOrFail (.create .roleBinding desired)
    else if existing.subjects != desired.subjects
        || metaDrifted existing.metadata desired.metadata then
      writeOrFail (.patch .roleBinding desired)
    else return ()

def ensureRBAC (cluster : Redkey) : Act Unit := do
  ensureServiceAccount cluster
  ensureRole cluster
  ensureRoleBinding cluster

/-! ## The Deployment -/

def robinDefaultEnvVars (cluster : Redkey) : List EnvVar :=
  [{ name := "CLUSTER_NAME", value := cluster.key.name },
    { name := "NAMESPACE", value := cluster.key.namespace_ }]

/-- `indexByName` maps a name to the last index at which the base has it. -/
def indexByName (base : List EnvVar) : List (String × Nat) :=
  base.zipIdx.foldl (fun m e => (e.1.name, e.2) :: m) []

/-- One override: replace the indexed entry of that name, or append and index it. -/
def mergeEnvVar (s : List EnvVar × List (String × Nat)) (e : EnvVar) :
    List EnvVar × List (String × Nat) :=
  match s.2.lookup e.name with
  | some index => (s.1.set index e, s.2)
  | none => (s.1 ++ [e], (e.name, s.1.length) :: s.2)

def mergeEnvVars (base overrides : List EnvVar) : List EnvVar :=
  (overrides.foldl mergeEnvVar (base, indexByName base)).1

def metricsPort : Value :=
  .struct [("name", .str "metrics"), ("containerPort", .num 8080), ("protocol", .str "TCP")]

def orElse {α : Type} (xs ys : List α) : List α := if xs.isEmpty then ys else xs

/-- The container before the template is looked at. -/
def robinBaseContainer (cluster : Redkey) : Container :=
  { name := "robin"
    image := cluster.spec.robin.image
    args := ["--cluster-name=$(CLUSTER_NAME)", "--namespace=$(NAMESPACE)"]
    env := robinDefaultEnvVars cluster
    ports := [metricsPort]
    resources := cluster.spec.robin.resources.getD {} }

/-- Overrides from the first container of the template. -/
def overrideContainer (base src : Container) : Container :=
  { base with
    image := if src.image == "" then base.image else src.image
    resources :=
      if src.resources.limits.isSome || src.resources.requests.isSome then src.resources
      else base.resources
    env := if src.env.isEmpty then base.env else mergeEnvVars base.env src.env
    envFrom := orElse src.envFrom base.envFrom
    volumeMounts := orElse src.volumeMounts base.volumeMounts
    securityContext := src.securityContext.or base.securityContext }

def robinContainer (cluster : Redkey) : Container :=
  let base := robinBaseContainer cluster
  match cluster.spec.robin.template with
  | none => base
  | some tpl =>
    let c := match tpl.spec.containers with
      | src :: _ => overrideContainer base src
      | [] => base
    { c with env := mergeEnvVars c.env (robinDefaultEnvVars cluster) }

def robinPodSpec (cluster : Redkey) : PodSpec :=
  let base : PodSpec :=
    { serviceAccountName := robinName cluster, containers := [robinContainer cluster] }
  match cluster.spec.robin.template with
  | none => base
  | some tpl =>
    { base with
      nodeSelector := tpl.spec.nodeSelector
      tolerations := tpl.spec.tolerations
      affinity := tpl.spec.affinity
      securityContext := tpl.spec.securityContext
      imagePullSecrets := tpl.spec.imagePullSecrets
      priorityClassName := tpl.spec.priorityClassName
      topologySpreadConstraints := tpl.spec.topologySpreadConstraints
      volumes := tpl.spec.volumes }

def buildDesiredRobinDeployment (cluster : Redkey) : Deployment :=
  let specLabels := derefMap cluster.spec.labels
  let specAnnotations := derefMap cluster.spec.annotations
  let tpl := cluster.spec.robin.template.getD {}
  { metadata :=
      { key := robinKey cluster
        labels := mergeMeta specLabels [] (robinBaseLabels cluster)
        annotations := mergeMeta specAnnotations [] []
        owner := some cluster.uid }
    replicas := some 1
    selector := robinBaseLabels cluster
    template :=
      { labels := mergeMeta specLabels tpl.labels (robinBaseLabels cluster)
        annotations := mergeMeta specAnnotations tpl.annotations []
        spec := robinPodSpec cluster } }

/-- Written by the Deployment controller, not by the operator. -/
def deploymentRevisionAnnotation : String := "deployment.kubernetes.io/revision"

def stripManagedAnnotations (annotations : StringMap) : StringMap :=
  annotations.filter fun e => e.1 != deploymentRevisionAnnotation

def preserveManagedAnnotations (existing desired : StringMap) : StringMap :=
  match existing.get deploymentRevisionAnnotation with
  | none => desired
  | some rev => (StringMap.copy [] desired).set deploymentRevisionAnnotation rev

/-! `Semantic.DeepDerivative(desired, existing)` on the pod spec, field by field. -/

def strDerives (a b : String) : Bool := a == "" || a == b

def listDerives {α : Type} (derives : α → α → Bool) : List α → List α → Bool
  | [], _ => true
  | _ :: _, [] => false
  | a :: as, b :: bs => derives a b && listDerives derives as bs

def ptrDerives : Option Value → Option Value → Bool
  | none, _ => true
  | some a, some b => a.derives b
  | some _, none => false

def mapDerives (a b : StringMap) : Bool := a.all fun e => (b.get e.1).any fun v => strDerives e.2 v

def EnvVar.derives (a b : EnvVar) : Bool :=
  strDerives a.name b.name && strDerives a.value b.value && ptrDerives a.valueFrom b.valueFrom

def ResourceRequirements.derives (a b : ResourceRequirements) : Bool :=
  derivesEntries (a.limits.getD []) (b.limits.getD []) &&
    derivesEntries (a.requests.getD []) (b.requests.getD []) && derivesPrefix a.claims b.claims

def Container.derives (a b : Container) : Bool :=
  strDerives a.name b.name && strDerives a.image b.image && listDerives strDerives a.args b.args &&
    listDerives EnvVar.derives a.env b.env && derivesPrefix a.envFrom b.envFrom &&
    derivesPrefix a.ports b.ports && ResourceRequirements.derives a.resources b.resources &&
    derivesPrefix a.volumeMounts b.volumeMounts && ptrDerives a.securityContext b.securityContext

def PodSpec.derives (a b : PodSpec) : Bool :=
  strDerives a.serviceAccountName b.serviceAccountName &&
    listDerives Container.derives a.containers b.containers &&
    mapDerives a.nodeSelector b.nodeSelector && derivesPrefix a.tolerations b.tolerations &&
    ptrDerives a.affinity b.affinity && ptrDerives a.securityContext b.securityContext &&
    derivesPrefix a.imagePullSecrets b.imagePullSecrets &&
    strDerives a.priorityClassName b.priorityClassName &&
    derivesPrefix a.topologySpreadConstraints b.topologySpreadConstraints &&
    derivesPrefix a.volumes b.volumes

def robinDeploymentNeedsUpdate (existing desired : Deployment) : Bool :=
  existing.replicas != desired.replicas ||
    !existing.metadata.labels.deepEqual desired.metadata.labels ||
    !(stripManagedAnnotations existing.metadata.annotations).deepEqual desired.metadata.annotations ||
    !existing.template.labels.deepEqual desired.template.labels ||
    !existing.template.annotations.deepEqual desired.template.annotations ||
    !PodSpec.derives desired.template.spec existing.template.spec

def ensureRobinDeployment (cluster : Redkey) : Act Unit := do
  let desired := buildDesiredRobinDeployment cluster
  match ← get .deployment desired.metadata.key with
  | .error .notFound => do
    writeOrFail (.create .deployment desired)
    count (.robinDeploymentChanges "create")
  | .error e => .fail e
  | .ok (existing : Deployment) =>
    if robinDeploymentNeedsUpdate existing desired then do
      writeOrFail (.patch .deployment { desired with
        metadata := { desired.metadata with
          annotations := preserveManagedAnnotations existing.metadata.annotations
            desired.metadata.annotations } })
      count (.robinDeploymentChanges "patch")
    else return ()

end RedkeyOperator.Controller

import RedkeyOperator.Api.Types

/-! The API server's store and what one accepted write does to it. Writes are
linearizable: each is judged against the store as it is when it arrives. A
status update carries the resource version its author read and conflicts when
that is not the stored one; a create of an existing name is refused; a merge
patch makes the fields the operator sends equal to those it sends. -/
namespace RedkeyOperator.Kube
open RedkeyOperator.Api

inductive ApiError where
  | notFound
  | alreadyExists
  | conflict
  /-- Any other failure: a timeout, a server error, an unreachable server. -/
  | unavailable
deriving DecidableEq, Repr

structure Store where
  redkeys : NamespacedName → Option Redkey
  configs : List RedkeyConfig
  robin : (k : Kind) → NamespacedName → Option (Obj k)

inductive Write where
  | updateStatus (rk : Redkey)
  | createConfig (c : RedkeyConfig)
  | deleteConfig (key : NamespacedName)
  | create (k : Kind) (o : Obj k)
  | patch (k : Kind) (o : Obj k)
  | delete (k : Kind) (key : NamespacedName)

/-- The fields a merge patch of the operator touches, taken from `o`. -/
def patched : {k : Kind} → (stored o : Obj k) → Obj k
  | .serviceAccount, (s : ServiceAccount), (o : ServiceAccount) => show ServiceAccount from
    { metadata := { s.metadata with
        labels := o.metadata.labels, annotations := o.metadata.annotations } }
  | .role, (s : Role), (o : Role) => show Role from
    { metadata := { s.metadata with
        labels := o.metadata.labels, annotations := o.metadata.annotations }
      rules := o.rules }
  | .roleBinding, (s : RoleBinding), (o : RoleBinding) => show RoleBinding from
    { s with
      metadata := { s.metadata with
        labels := o.metadata.labels, annotations := o.metadata.annotations }
      subjects := o.subjects }
  | .deployment, (s : Deployment), (o : Deployment) => show Deployment from
    { s with
      metadata := { s.metadata with
        labels := o.metadata.labels, annotations := o.metadata.annotations }
      replicas := o.replicas
      template := o.template }

namespace Store

def setRedkey (st : Store) (rk : Redkey) : Store :=
  { st with redkeys := Function.update st.redkeys rk.key (some rk) }

def setRobin (st : Store) (k : Kind) (key : NamespacedName) (o : Option (Obj k)) : Store :=
  { st with robin := Function.update st.robin k (Function.update (st.robin k) key o) }

def config (st : Store) (key : NamespacedName) : Option RedkeyConfig :=
  st.configs.find? fun c => c.key == key

def removeConfig (st : Store) (key : NamespacedName) : Store :=
  { st with configs := st.configs.filter fun c => c.key != key }

/-- Robin's write to the status subresource of one config. -/
def setConfigStatus (st : Store) (key : NamespacedName) (s : RedkeyConfigStatus) : Store :=
  { st with configs := st.configs.map fun c => if c.key == key then { c with status := s } else c }

/-- The configs a List with the namespace and the cluster label returns. -/
def configsOf (st : Store) (label namespace_ cluster : String) : List RedkeyConfig :=
  st.configs.filter fun c =>
    c.key.namespace_ == namespace_ && c.metadata.labels.get label == some cluster

def apply : Write → Store → Except ApiError Store
  | .updateStatus rk, st => match st.redkeys rk.key with
    | none => .error .notFound
    | some cur =>
      if rk.resourceVersion == cur.resourceVersion then
        .ok (st.setRedkey (cur.withStatus rk.status))
      else .error .conflict
  | .createConfig c, st =>
    if (st.config c.key).isSome then .error .alreadyExists
    else .ok { st with configs := st.configs ++ [c] }
  | .deleteConfig key, st =>
    if (st.config key).isSome then .ok (st.removeConfig key) else .error .notFound
  | .create k o, st =>
    if (st.robin k o.metadata.key).isSome then .error .alreadyExists
    else .ok (st.setRobin k o.metadata.key (some o))
  | .patch k o, st => match st.robin k o.metadata.key with
    | none => .error .notFound
    | some stored => .ok (st.setRobin k o.metadata.key (some (patched stored o)))
  | .delete k key, st =>
    if (st.robin k key).isSome then .ok (st.setRobin k key none) else .error .notFound

end Store
end RedkeyOperator.Kube

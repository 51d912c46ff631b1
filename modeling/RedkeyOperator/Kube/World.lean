import RedkeyOperator.Interleave.System
import RedkeyOperator.Kube.Store

/-! # The API server as the operator sees it

The operator reads through informer caches and writes to the API server. The
world therefore keeps every version of the store: a read returns one of them,
of its own kind of object never one older than what an earlier Reconcile has
read. Any remote call may fail, and a write may also take effect and have its
answer lost. Users, Robin and the garbage collector are the environment.

`snapshot`, `consulted`, `listed` and `journal` are history variables: the
Redkey, the first and the last config list the current Reconcile has read, and
what happened to configs. No call depends on them. -/
namespace RedkeyOperator.Kube
open RedkeyOperator.Api RedkeyOperator.Interleave

/-- `ClusterLabel`: associates a RedkeyConfig with its parent. -/
def clusterLabel : String := "redkey.inditex.dev/cluster"

/-- The counters that the reconcile loop increments. -/
inductive Counter where
  | configCreations (reason : String)
  | cleanupDeletedConfigs
  | robinDeploymentChanges (action : String)
  | reconcileStageErrors (stage : String)
deriving DecidableEq, Repr

inductive Call where
  | getRedkey (key : NamespacedName)
  | listConfigs (namespace_ cluster : String)
  | get (k : Kind) (key : NamespacedName)
  | write (a : Write)
  | now
  | count (c : Counter)
  | recordMetrics (cluster : Redkey) (active : Option RedkeyConfig)
  | deleteMetrics (key : NamespacedName)

def Reply : Call → Type
  | .getRedkey _ => Redkey
  | .listConfigs _ _ => List RedkeyConfig
  | .get k _ => Obj k
  | .now => Time
  | .write _ | .count _ | .recordMetrics _ _ | .deleteMetrics _ => Unit

def api : Signature := ⟨Call, Reply, ApiError⟩

/-- What became of the configs, newest first. `last` tells whether the deleted
config was the last one of its cluster. -/
inductive Happening where
  | created (c : RedkeyConfig)
  | moved (c : RedkeyConfig)
  | deleted (c : RedkeyConfig) (last : Bool)
  | collected (c : RedkeyConfig)

/-- One position in the history of the store for each informer. -/
structure Cursor where
  redkey : Nat := 0
  config : Nat := 0
  robin : Kind → Nat := fun _ => 0

structure World where
  store : Store
  past : List Store := []
  clock : Time := 0
  floor : Cursor := {}
  seen : Cursor := {}
  counters : Counter → Nat := fun _ => 0
  snapshot : Option Redkey := none
  consulted : Option (List RedkeyConfig) := none
  listed : Option (List RedkeyConfig) := none
  journal : List Happening := []

namespace World

/-- The index of the current version of the store. -/
def now (w : World) : Nat := w.past.length

/-- Every version of the store, the current one last. -/
def history (w : World) : List Store := w.past ++ [w.store]

/-- Replace the store, keeping the version it had. -/
def commit (w : World) (st : Store) (hs : List Happening) : World :=
  { w with store := st, past := w.past ++ [w.store], journal := hs ++ w.journal }

/-- Version `i` was read for a Redkey and had `rk`. -/
def sawRedkey (w : World) (i : Nat) (rk : Option Redkey) : World :=
  { w with
    seen := { w.seen with redkey := max w.seen.redkey i }
    snapshot := w.snapshot.or rk }

def sawConfigs (w : World) (i : Nat) (items : List RedkeyConfig) : World :=
  { w with
    seen := { w.seen with config := max w.seen.config i }
    consulted := w.consulted.or (some items)
    listed := some items }

def sawRobin (w : World) (k : Kind) (i : Nat) : World :=
  { w with seen := { w.seen with
      robin := Function.update w.seen.robin k (max (w.seen.robin k) i) } }

end World

/-- How a remote call goes. `ok` reads the current store; `stale` reads an
earlier version, and a list in the given order. -/
inductive Outcome where
  | ok
  | stale (version : Nat) (order : List Nat)
  | refused
  | lost

/-- The version of the store a read sees. -/
def Outcome.view (o : Outcome) (floor : Nat) (w : World) : Option (Nat × Store) :=
  match o with
  | .ok => some (w.now, w.store)
  | .stale i _ => if floor ≤ i then w.history[i]?.map (i, ·) else none
  | .refused | .lost => none

/-- List returns its items in any order. -/
def Outcome.arrange (o : Outcome) (items : List RedkeyConfig) : Option (List RedkeyConfig) :=
  match o with
  | .stale _ order =>
    if order.isPerm (List.range items.length) then some (order.filterMap (items[·]?)) else none
  | _ => some items

def sameCluster (c d : RedkeyConfig) : Bool :=
  c.key.namespace_ == d.key.namespace_ &&
    c.metadata.labels.get clusterLabel == d.metadata.labels.get clusterLabel

/-- What a write to `st` that leaves `st'` did to the configs. -/
def happenings : Write → (st st' : Store) → List Happening
  | .createConfig c, _, _ => [.created c]
  | .deleteConfig key, st, st' => match st.config key with
    | some c => [.deleted c (!st'.configs.any (sameCluster c))]
    | none => []
  | _, _, _ => []

/-- A write that arrives at the API server: its result and the world after it. -/
def perform (a : Write) (w : World) : Except ApiError Unit × World :=
  match w.store.apply a with
  | .ok st => (.ok (), w.commit st (happenings a w.store st))
  | .error e => (.error e, w)

/-- The reply to a Get of an object that is there or not. -/
def found {α : Type} : Option α → Except ApiError α
  | some a => .ok a
  | none => .error .notFound

def answer : (c : Call) → Outcome → World → Option (Except ApiError (Reply c) × World)
  | .getRedkey _, .refused, w => some (.error .unavailable, w)
  | .getRedkey key, o, w => (o.view w.floor.redkey w).map fun (i, st) =>
    (found (st.redkeys key), w.sawRedkey i (st.redkeys key))
  | .listConfigs _ _, .refused, w => some (.error .unavailable, w)
  | .listConfigs ns cluster, o, w => (o.view w.floor.config w).bind fun (i, st) =>
    (o.arrange (st.configsOf clusterLabel ns cluster)).map fun items =>
      (.ok items, w.sawConfigs i items)
  | .get _ _, .refused, w => some (.error .unavailable, w)
  | .get k key, o, w => (o.view (w.floor.robin k) w).map fun (i, st) =>
    (found (st.robin k key), w.sawRobin k i)
  | .write a, .ok, w => some (perform a w)
  | .write a, .lost, w => some (.error .unavailable, (perform a w).2)
  | .write _, .refused, w => some (.error .unavailable, w)
  | .write _, .stale _ _, _ => none
  | .now, .ok, w => some (.ok w.clock, { w with clock := w.clock + 1 })
  | .count c, .ok, w => some (.ok (), { w with
      counters := Function.update w.counters c (w.counters c + 1) })
  | .recordMetrics _ _, .ok, w => some (.ok (), w)
  | .deleteMetrics _, .ok, w => some (.ok (), w)
  | _, _, _ => none

/-- Users write specs, Robin writes config statuses, and the garbage collector
removes configs whose owner is gone. -/
inductive Ev where
  | update (key : NamespacedName) (spec : RedkeySpec)
  | robin (key : NamespacedName) (status : RedkeyConfigStatus)
  | collect (key : NamespacedName)

/-- The Redkey that a config is labelled for, by name. -/
def parent (st : Store) (c : RedkeyConfig) : Option Redkey :=
  (c.metadata.labels.get clusterLabel).bind fun name => st.redkeys ⟨c.key.namespace_, name⟩

/-- What Robin's write of a status does to the phase of its config. -/
def moves (c : RedkeyConfig) (s : RedkeyConfigStatus) : List Happening :=
  if c.phase = s.configPhase then [] else [.moved { c with status := s }]

def env : Ev → World → Option World
  | .update key spec, w => (w.store.redkeys key).bind fun rk =>
    -- `metadata.generation` is an int64
    if rk.generation + 1 < 2 ^ 63 then
      some (w.commit (w.store.setRedkey (rk.withSpec spec)) [])
    else none
  | .robin key s, w => (w.store.config key).map fun c =>
    w.commit (w.store.setConfigStatus key s) (moves c s)
  | .collect key, w => (w.store.config key).bind fun c =>
    if (parent w.store c).any fun rk => c.metadata.owner == some rk.uid then none
    else some (w.commit (w.store.removeConfig key) [.collected c])

/-- A Reconcile reads nothing older than what the ones before it have read. -/
def enter (w : World) : World :=
  { w with floor := w.seen, snapshot := none, consulted := none, listed := none }

def server : Service api := ⟨World, Ev, Outcome, env, answer, enter⟩

end RedkeyOperator.Kube

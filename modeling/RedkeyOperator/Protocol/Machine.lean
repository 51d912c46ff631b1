import RedkeyOperator.Interleave.Automaton
import RedkeyOperator.Kube.Frame
import RedkeyOperator.Controller.Reconcile

/-! # Reconcile as a state machine

The points of one Reconcile between its calls, the calls issued at each of
them and the moves on their answers. A point holds the local data of the
program that later calls depend on. Failed calls end the Reconcile; the retry
of a status update goes back to `aggregating`. -/
namespace RedkeyOperator.Protocol
open RedkeyOperator.Api RedkeyOperator.Kube RedkeyOperator.Interleave RedkeyOperator.Controller

inductive Point where
  | idle
  | start
  /-- The Redkey does not exist. -/
  | absent
  | got (cluster : Redkey)
  | listed (cluster : Redkey) (configs : List RedkeyConfig)
  /-- `createNewConfig` has succeeded. -/
  | created (cluster : Redkey)
  /-- `older` are still to be deleted, `kept` will be aggregated. -/
  | pruning (cluster : Redkey) (older kept : List RedkeyConfig)
  | aggregating (cluster : Redkey) (configs : List RedkeyConfig)
  | refetched (cluster : Redkey) (configs : List RedkeyConfig) (latest : Redkey)
  /-- A finished scale-down: `items` are still to be deleted. -/
  | deleting (cluster : Redkey) (items : List RedkeyConfig)
  | settled (cluster : Redkey)

/-- The Redkey a Reconcile works on. -/
def Point.cluster : Point → Option Redkey
  | .idle | .start | .absent => none
  | .got rk | .listed rk _ | .created rk | .pruning rk _ _ | .aggregating rk _
  | .refetched rk _ _ | .deleting rk _ | .settled rk => some rk

/-- Where `cleanupSupersededConfigs` starts. -/
def Point.prune (cluster : Redkey) (configs : List RedkeyConfig) : Point :=
  .pruning cluster (configs.take (lastAppliedIndex configs)) (configs.drop (lastAppliedIndex configs))

/-! ## The decisions taken on the list read -/

/-- A new config is created: for a new generation, or to begin a scale-down. -/
def Creates (cluster : Redkey) (configs : List RedkeyConfig) : Prop :=
  if cluster.spec.primaries = 0 then ∃ c, configs.getLast? = some c ∧ c.spec.primaries ≠ 0
  else configs = [] ∨ needsNewConfig cluster configs.getLast? = true

/-- Robin has finished the scale-down. -/
def Dismantles (cluster : Redkey) (configs : List RedkeyConfig) : Prop :=
  cluster.spec.primaries = 0 ∧
    ∃ c, configs.getLast? = some c ∧ c.spec.primaries = 0 ∧ c.phase = .applied

/-- Robin has the scale-down and is not done with it. -/
def Awaits (cluster : Redkey) (configs : List RedkeyConfig) : Prop :=
  cluster.spec.primaries = 0 ∧
    ∃ c, configs.getLast? = some c ∧ c.spec.primaries = 0 ∧ c.phase ≠ .applied

/-- Robin's objects are created or brought up to date. -/
def Ensures : Point → Prop
  | .got cluster => cluster.spec.primaries ≠ 0
  | .listed cluster configs =>
    cluster.spec.primaries = 0 ∧ (Creates cluster configs ∨ Awaits cluster configs)
  | _ => False

/-! ## Calls and moves -/

inductive Issues (req : NamespacedName) : Point → Call → Prop where
  | free {p : Point} {c : Call} (hc : Free c) : Issues req p c
  | ensure {p : Point} {c : Call} (hp : Ensures p) (hc : RobinWrite c) : Issues req p c
  | dismantle {cluster : Redkey} {configs : List RedkeyConfig} {k : Kind} {key : NamespacedName}
      (h : Dismantles cluster configs) : Issues req (.listed cluster configs) (.write (.delete k key))
  | get : Issues req .start (.getRedkey req)
  | list {cluster : Redkey} :
      Issues req (.got cluster) (.listConfigs cluster.key.namespace_ cluster.key.name)
  | create {cluster : Redkey} {configs : List RedkeyConfig} (h : Creates cluster configs) :
      Issues req (.listed cluster configs)
        (.write (.createConfig (newConfig cluster (nextSequence configs.getLast?))))
  | relist {cluster : Redkey} (h : cluster.spec.primaries ≠ 0) :
      Issues req (.created cluster) (.listConfigs cluster.key.namespace_ cluster.key.name)
  | prune {cluster : Redkey} {c : RedkeyConfig} {older kept : List RedkeyConfig} :
      Issues req (.pruning cluster (c :: older) kept) (.write (.deleteConfig c.key))
  | refetch {cluster : Redkey} {configs : List RedkeyConfig} :
      Issues req (.aggregating cluster configs) (.getRedkey cluster.key)
  | update {cluster latest : Redkey} {configs : List RedkeyConfig} {active : RedkeyConfig}
      (h : selectActiveConfig configs = some active) (now : Time) :
      Issues req (.refetched cluster configs latest) (.write (.updateStatus
        { latest with status := aggregatedStatus now latest active cluster.generation }))
  | relistAll {cluster : Redkey} {configs : List RedkeyConfig} (h : Dismantles cluster configs) :
      Issues req (.listed cluster configs)
        (.listConfigs cluster.key.namespace_ cluster.key.name)
  | delete {cluster : Redkey} {c : RedkeyConfig} {items : List RedkeyConfig} :
      Issues req (.deleting cluster (c :: items)) (.write (.deleteConfig c.key))
  | zero {cluster : Redkey} (now : Time) :
      Issues req (.deleting cluster [])
        (.write (.updateStatus { cluster with status := scaledToZeroStatus now cluster }))

inductive Next (req : NamespacedName) :
    Point → (c : Call) → Except ApiError (Reply c) → Point → Prop where
  | stay {p : Point} {c : Call} {r : Except ApiError (Reply c)} (h : Issues req p c)
      (hc : RobinWrite c ∨ Free c) : Next req p c r p
  | failed {p : Point} {c : Call} {e : ApiError} (h : Issues req p c) :
      Next req p c (.error e) .idle
  | get {cluster : Redkey} : Next req .start (.getRedkey req) (.ok cluster) (.got cluster)
  | missing : Next req .start (.getRedkey req) (.error .notFound) .absent
  | list {cluster : Redkey} {items : List RedkeyConfig} :
      Next req (.got cluster) (.listConfigs cluster.key.namespace_ cluster.key.name) (.ok items)
        (.listed cluster (sortBySequence items))
  | create {cluster : Redkey} {configs : List RedkeyConfig} {r : Except ApiError Unit}
      (h : Creates cluster configs) (hr : r = .ok () ∨ r = .error .alreadyExists) :
      Next req (.listed cluster configs)
        (.write (.createConfig (newConfig cluster (nextSequence configs.getLast?)))) r
        (.created cluster)
  | relist {cluster : Redkey} {items : List RedkeyConfig} (h : cluster.spec.primaries ≠ 0) :
      Next req (.created cluster) (.listConfigs cluster.key.namespace_ cluster.key.name)
        (.ok items) (.prune cluster (sortBySequence items))
  | prune {cluster : Redkey} {c : RedkeyConfig} {older kept : List RedkeyConfig}
      {r : Except ApiError Unit} (hr : r = .ok () ∨ r = .error .notFound) :
      Next req (.pruning cluster (c :: older) kept) (.write (.deleteConfig c.key)) r
        (.pruning cluster older kept)
  | refetch {cluster latest : Redkey} {configs : List RedkeyConfig} :
      Next req (.aggregating cluster configs) (.getRedkey cluster.key) (.ok latest)
        (.refetched cluster configs latest)
  | retryRead {cluster : Redkey} {configs : List RedkeyConfig} {e : ApiError} :
      Next req (.aggregating cluster configs) (.getRedkey cluster.key) (.error e)
        (.aggregating cluster configs)
  | update {cluster latest : Redkey} {configs : List RedkeyConfig} {active : RedkeyConfig}
      (h : selectActiveConfig configs = some active) (now : Time) :
      Next req (.refetched cluster configs latest) (.write (.updateStatus
        { latest with status := aggregatedStatus now latest active cluster.generation })) (.ok ())
        (.settled cluster)
  | retryUpdate {cluster latest : Redkey} {configs : List RedkeyConfig} {active : RedkeyConfig}
      {e : ApiError} (h : selectActiveConfig configs = some active) (now : Time) :
      Next req (.refetched cluster configs latest) (.write (.updateStatus
        { latest with status := aggregatedStatus now latest active cluster.generation })) (.error e)
        (.aggregating cluster configs)
  | relistAll {cluster : Redkey} {configs items : List RedkeyConfig}
      (h : Dismantles cluster configs) :
      Next req (.listed cluster configs) (.listConfigs cluster.key.namespace_ cluster.key.name)
        (.ok items) (.deleting cluster items)
  | delete {cluster : Redkey} {c : RedkeyConfig} {items : List RedkeyConfig}
      {r : Except ApiError Unit} (hr : r = .ok () ∨ r = .error .notFound) :
      Next req (.deleting cluster (c :: items)) (.write (.deleteConfig c.key)) r
        (.deleting cluster items)
  | zero {cluster : Redkey} (now : Time) :
      Next req (.deleting cluster [])
        (.write (.updateStatus { cluster with status := scaledToZeroStatus now cluster })) (.ok ())
        (.settled cluster)

inductive Silent : Point → Point → Prop where
  /-- The rest of a Reconcile may be dropped at any time. -/
  | quit {p : Point} : Silent p .idle
  | reuse {cluster : Redkey} {configs : List RedkeyConfig} (h : cluster.spec.primaries ≠ 0)
      (hc : ¬ Creates cluster configs) : Silent (.listed cluster configs) (.prune cluster configs)
  | begun {cluster : Redkey} (h : cluster.spec.primaries = 0) :
      Silent (.created cluster) (.settled cluster)
  | pruned {cluster : Redkey} {kept : List RedkeyConfig} :
      Silent (.pruning cluster [] kept) (.aggregating cluster kept)
  | await {cluster : Redkey} {configs : List RedkeyConfig} (h : Awaits cluster configs) :
      Silent (.listed cluster configs) (.aggregating cluster configs)
  /-- An attempt of `aggregateStatus` may be given up for the next one. -/
  | again {cluster latest : Redkey} {configs : List RedkeyConfig} :
      Silent (.refetched cluster configs latest) (.aggregating cluster configs)
  | skip {cluster : Redkey} : Silent (.aggregating cluster []) (.settled cluster)
  | steady {cluster : Redkey} (h : cluster.spec.primaries = 0) :
      Silent (.listed cluster []) (.deleting cluster [])

def machine (req : NamespacedName) : Automaton api := ⟨Point, .idle, .start, Silent, Next req⟩

theorem Next.issues {req : NamespacedName} {p q : Point} {c : Call}
    {r : Except ApiError (Reply c)} (h : Next req p c r q) : Issues req p c := by
  cases h with
  | stay h => exact h
  | failed h => exact h
  | get => exact .get
  | missing => exact .get
  | list => exact .list
  | create h => exact .create h
  | relist h => exact .relist h
  | prune => exact .prune
  | refetch => exact .refetch
  | retryRead => exact .refetch
  | update h now => exact .update h now
  | retryUpdate h now => exact .update h now
  | relistAll h => exact .relistAll h
  | delete => exact .delete
  | zero now => exact .zero now

theorem Silent.cluster {p q : Point} {rk : Redkey} (h : Silent p q) (hq : q.cluster = some rk) :
    p.cluster = some rk := by
  cases h <;> first | exact hq | cases hq

/-- The Redkey is chosen by the first read. -/
theorem Next.cluster {req : NamespacedName} {p q : Point} {c : Call}
    {r : Except ApiError (Reply c)} {rk : Redkey} (h : Next req p c r q)
    (hq : q.cluster = some rk) : p.cluster = some rk ∨ p = .start ∧ q = .got rk := by
  cases h with
  | get => cases hq; exact .inr ⟨rfl, rfl⟩
  | failed => cases hq
  | missing => cases hq
  | _ => exact .inl hq

/-! ## Who issues a write -/

theorem Issues.of_createConfig {req : NamespacedName} {p : Point} {c : RedkeyConfig}
    (h : Issues req p (.write (.createConfig c))) :
    ∃ cluster configs, p = .listed cluster configs ∧ Creates cluster configs ∧
      c = newConfig cluster (nextSequence configs.getLast?) := by
  cases h with
  | free hc => cases hc
  | ensure _ hc => cases hc
  | create hc => exact ⟨_, _, rfl, hc, rfl⟩

theorem Issues.of_deleteConfig {req : NamespacedName} {p : Point} {key : NamespacedName}
    (h : Issues req p (.write (.deleteConfig key))) :
    (∃ cluster c older kept, p = .pruning cluster (c :: older) kept ∧ key = c.key) ∨
      ∃ cluster c items, p = .deleting cluster (c :: items) ∧ key = c.key := by
  cases h with
  | free hc => cases hc
  | ensure _ hc => cases hc
  | prune => exact .inl ⟨_, _, _, _, rfl, rfl⟩
  | delete => exact .inr ⟨_, _, _, rfl, rfl⟩

theorem Issues.of_updateStatus {req : NamespacedName} {p : Point} {rk : Redkey}
    (h : Issues req p (.write (.updateStatus rk))) :
    (∃ cluster configs latest active now, p = .refetched cluster configs latest ∧
      selectActiveConfig configs = some active ∧
      rk = { latest with status := aggregatedStatus now latest active cluster.generation }) ∨
      ∃ cluster now, p = .deleting cluster [] ∧
        rk = { cluster with status := scaledToZeroStatus now cluster } := by
  cases h with
  | free hc => cases hc
  | ensure _ hc => cases hc
  | update ha now => exact .inl ⟨_, _, _, _, now, rfl, ha, rfl⟩
  | zero now => exact .inr ⟨_, now, rfl, rfl⟩

/-- A status is stamped with the generation the Reconcile has read. -/
theorem Issues.observedGeneration {req : NamespacedName} {p : Point} {rk : Redkey}
    (h : Issues req p (.write (.updateStatus rk))) :
    ∃ cluster, p.cluster = some cluster ∧ rk.status.observedGeneration = cluster.generation := by
  obtain ⟨cluster, _, _, _, _, rfl, -, rfl⟩ | ⟨cluster, _, rfl, rfl⟩ := h.of_updateStatus <;>
    exact ⟨cluster, rfl, rfl⟩

end RedkeyOperator.Protocol

import RedkeyOperator.Controller.Calls
import RedkeyOperator.Protocol.Machine

/-! # Reconcile follows its state machine

Function by function: the program text of Reconcile is simulated by
`machine req`. What is proved of the runs of the machine therefore holds in
every reachable state of the operator. -/
namespace RedkeyOperator.Protocol
open RedkeyOperator.Api RedkeyOperator.Kube RedkeyOperator.Interleave RedkeyOperator.Controller
open Automaton (Follows)

variable {req : NamespacedName} {α : Type}

/-- A program that may fail anywhere. -/
abbrev Along (req : NamespacedName) (Q : α → Point → Prop) : Act α → Point → Prop :=
  (machine req).Follows Q fun _ _ => True

/-! ## Robin's objects -/

/-- The name that Robin's objects share. -/
def robinKeyOf (req : NamespacedName) : NamespacedName := ⟨req.namespace_, req.name ++ "-robin"⟩

theorem robinKey_eq {rk : Redkey} (h : rk.key = req) : robinKey rk = robinKeyOf req := by
  subst h; rfl

theorem quiet_ensureRBAC (cluster : Redkey) :
    (ensureRBAC cluster).Calls fun c => RobinWrite c ∨ Free c :=
  calls_ensureRBAC (fun _ => .inr trivial) (fun _ _ _ _ => .inl trivial)
    (fun _ _ _ _ => .inl trivial) (.inl trivial)

theorem quiet_ensureRobinDeployment (cluster : Redkey) :
    (ensureRobinDeployment cluster).Calls fun c => RobinWrite c ∨ Free c :=
  calls_ensureRobinDeployment (.inr trivial) (.inl trivial) (fun _ _ => .inl trivial)
    fun _ => .inr trivial

theorem along_ensure {p : Point} {m : Act α} (hp : Ensures p)
    (hm : m.Calls fun c => RobinWrite c ∨ Free c) : Along req (fun _ q => q = p) m p := by
  refine (Follows.stay hm fun c r hc => ?_).mono (fun _ _ h => h) fun _ _ _ => trivial
  exact .stay (hc.elim (.ensure hp) .free) hc

/-! ## Stages and counters -/

theorem along_free {p : Point} {c : Call} (hc : Free c) :
    Along req (fun _ q => q = p) (Prog.request (S := api) c) p :=
  Follows.request (fun _ => ⟨p, .stay (.free hc) (.inr hc), rfl⟩)
    fun _ => ⟨p, .stay (.free hc) (.inr hc), trivial⟩

theorem along_stage {name : String} {m : Act α} {Q : α → Point → Prop} {p : Point}
    (hm : Along req Q m p) : Along req Q (stage name m) p := by
  refine Follows.attempt_bind hm (fun a q hq => .ret hq) fun e q _ => ?_
  exact Follows.bind (along_free trivial) fun _ _ _ => .fail trivial

/-! ## Configs -/

theorem along_listConfigs {cluster : Redkey} :
    Along req (fun configs q => q = .listed cluster configs) (listConfigs cluster) (.got cluster) :=
  Follows.bind (Follows.request
    (Q := fun items q => q = Point.listed cluster (sortBySequence items))
    (fun _ => ⟨_, .list, rfl⟩) fun _ => ⟨_, .failed .list, trivial⟩) fun _ _ h => .ret h

theorem along_relistConfigs {cluster : Redkey} (h : cluster.spec.primaries ≠ 0) :
    Along req (fun configs q => q = .prune cluster configs) (listConfigs cluster)
      (.created cluster) :=
  Follows.bind (Follows.request
    (Q := fun items q => q = Point.prune cluster (sortBySequence items))
    (fun _ => ⟨_, .relist h, rfl⟩) fun _ => ⟨_, .failed (.relist h), trivial⟩) fun _ _ h => .ret h

theorem along_createNewConfig {cluster : Redkey} {configs : List RedkeyConfig}
    (h : Creates cluster configs) :
    Along req (fun _ q => q = .created cluster) (createNewConfig cluster configs.getLast?)
      (.listed cluster configs) := by
  refine Follows.call fun r => ?_
  cases r with
  | ok u => exact ⟨_, .create h (.inl rfl), along_free trivial⟩
  | error e =>
    cases e with
    | alreadyExists => exact ⟨_, .create h (.inr rfl), .ret rfl⟩
    | _ => exact ⟨_, .failed (.create h), .fail trivial⟩

theorem along_deleteOlder {cluster : Redkey} (older kept : List RedkeyConfig) :
    Along req (fun res q => res.2 = none → res.1 = kept ∧ q = .pruning cluster [] kept)
      (deleteOlder older kept) (.pruning cluster older kept) := by
  induction older with
  | nil => exact .ret fun _ => ⟨rfl, rfl⟩
  | cons c cs ih =>
    refine Follows.call fun r => ?_
    cases r with
    | ok u =>
      refine ⟨_, .prune (.inl rfl), ?_⟩
      show Along req _ ((count .cleanupDeletedConfigs).bind fun _ => deleteOlder cs kept) _
      exact Follows.seq (along_free trivial) fun _ => ih
    | error e =>
      cases e with
      | notFound => exact ⟨_, .prune (.inr rfl), ih⟩
      | _ => exact ⟨_, .failed .prune, .ret fun h => by cases h⟩

/-! ## Status -/

theorem follows_tryAggregateStatus {cluster : Redkey} {configs : List RedkeyConfig}
    {active : RedkeyConfig} (h : selectActiveConfig configs = some active) :
    (machine req).Follows (fun _ q => q = .settled cluster)
      (fun _ q => (machine req).Silently q (.aggregating cluster configs))
      (tryAggregateStatus cluster active) (.aggregating cluster configs) := by
  refine Follows.bind (Follows.request
    (Q := fun latest q => q = Point.refetched cluster configs latest)
    (fun _ => ⟨_, .refetch, rfl⟩) fun _ => ⟨_, .retryRead, .refl⟩) fun latest q hq => ?_
  subst hq
  refine Follows.seq (q := Point.refetched cluster configs latest) (Follows.request
    (fun _ => ⟨_, .stay (.free trivial) (.inr trivial), rfl⟩)
    fun _ => ⟨_, .stay (.free trivial) (.inr trivial), .single .again⟩) fun now => ?_
  refine Follows.call fun r => ?_
  cases r with
  | ok u => exact ⟨_, .update h now, .ret rfl⟩
  | error e => exact ⟨_, .retryUpdate h now, .fail .refl⟩

theorem along_retryOnConflict {fn : Act α} {Q : α → Point → Prop} {p : Point}
    (h : (machine req).Follows Q (fun _ q => (machine req).Silently q p) fn p) (steps : Nat) :
    Along req Q (retryOnConflict steps fn) p := by
  induction steps with
  | zero => exact .fail trivial
  | succ n ih =>
    refine Follows.attempt_bind h (fun a q hq => .ret hq) fun e q hq => ?_
    cases e with
    | conflict => exact Follows.after_all hq ih
    | _ => exact .fail trivial

theorem along_aggregateStatus {cluster : Redkey} (configs : List RedkeyConfig) :
    Along req (fun _ q => q = .settled cluster) (aggregateStatus cluster configs)
      (.aggregating cluster configs) := by
  unfold aggregateStatus
  split
  · rename_i h
    cases configs with
    | nil => exact Follows.after .skip (.ret rfl)
    | cons c cs => cases cs <;> simp [selectActiveConfig] at h
  · rename_i active h
    exact Follows.bind (along_retryOnConflict (follows_tryAggregateStatus h) _) fun _ _ h => .ret h

theorem along_updateStatusScaledToZero {cluster : Redkey} :
    Along req (fun _ q => q = .settled cluster) (updateStatusScaledToZero cluster)
      (.deleting cluster []) := by
  refine Follows.seq (along_free trivial) fun now => ?_
  exact Follows.seq (q := Point.settled cluster) (Follows.request (fun _ => ⟨_, .zero now, rfl⟩)
    fun _ => ⟨_, .failed (.zero now), trivial⟩) fun _ => .ret rfl

/-! ## Scale to zero -/

theorem along_deleteIgnoringNotFound {a : Write} {p q : Point}
    (h : ∀ r, r = .ok () ∨ r = .error .notFound → Next req p (.write a) r q)
    (hi : Issues req p (.write a)) :
    Along req (fun _ q' => q' = q) (deleteIgnoringNotFound a) p := by
  refine Follows.call fun r => ?_
  cases r with
  | ok u => exact ⟨_, h _ (.inl rfl), .ret rfl⟩
  | error e =>
    cases e with
    | notFound => exact ⟨_, h _ (.inr rfl), .ret rfl⟩
    | _ => exact ⟨_, .failed hi, .fail trivial⟩

theorem along_dismantle {cluster : Redkey} {configs : List RedkeyConfig} {k : Kind}
    {key : NamespacedName} (h : Dismantles cluster configs) :
    Along req (fun _ q => q = .listed cluster configs) (deleteIgnoringNotFound (.delete k key))
      (.listed cluster configs) :=
  along_deleteIgnoringNotFound (fun _ _ => .stay (.dismantle h) (.inl trivial)) (.dismantle h)

theorem along_deleteConfigs {cluster : Redkey} (items : List RedkeyConfig) :
    Along req (fun _ q => q = .deleting cluster []) (deleteConfigs items)
      (.deleting cluster items) := by
  induction items with
  | nil => exact .ret rfl
  | cons c cs ih =>
    exact Follows.seq (along_deleteIgnoringNotFound (fun _ hr => .delete hr) .delete) fun _ => ih

theorem along_deleteAllConfigs {cluster : Redkey} {configs : List RedkeyConfig}
    (h : Dismantles cluster configs) :
    Along req (fun _ q => q = .deleting cluster []) (deleteAllConfigs cluster)
      (.listed cluster configs) := by
  refine Follows.bind (Follows.request (Q := fun items q => q = Point.deleting cluster items)
    (fun _ => ⟨_, .relistAll h, rfl⟩) fun _ => ⟨_, .failed (.relistAll h), trivial⟩)
    fun items q hq => ?_
  subst hq
  exact along_deleteConfigs items

theorem along_finishScaleToZero {cluster : Redkey} {configs : List RedkeyConfig}
    (h : Dismantles cluster configs) :
    Along req (fun _ q => q = .settled cluster) (finishScaleToZero cluster)
      (.listed cluster configs) := by
  have hrbac : Along req (fun _ q => q = .listed cluster configs) (deleteRBAC cluster)
      (.listed cluster configs) :=
    Follows.seq (along_dismantle h) fun _ => Follows.seq (along_dismantle h) fun _ =>
      along_dismantle h
  refine Follows.seq (along_dismantle h) fun _ => Follows.seq hrbac fun _ => ?_
  exact Follows.seq (along_deleteAllConfigs h) fun _ => along_updateStatusScaledToZero

theorem along_ensureRobin {p : Point} {cluster : Redkey} {m : Act α} {Q : α → Point → Prop}
    (hp : Ensures p) (hm : Along req Q m p) :
    Along req Q ((ensureRBAC cluster).bind fun _ => (ensureRobinDeployment cluster).bind
      fun _ => m) p :=
  Follows.seq (along_ensure hp (quiet_ensureRBAC _)) fun _ =>
    Follows.seq (along_ensure hp (quiet_ensureRobinDeployment _)) fun _ => hm

theorem along_reconcileScaleToZero {cluster : Redkey} (h0 : cluster.spec.primaries = 0) :
    Along req (fun _ q => q = .settled cluster) (reconcileScaleToZero cluster) (.got cluster) := by
  refine Follows.bind along_listConfigs fun configs q hq => ?_
  subst hq
  split
  · rename_i hl
    rw [List.getLast?_eq_none_iff.mp hl]
    exact Follows.after (.steady h0) along_updateStatusScaledToZero
  · rename_i latestConfig hl
    split
    · rename_i hne
      have hc : Creates cluster configs := by rw [Creates, if_pos h0]; exact ⟨_, hl, hne⟩
      have hcreate : Along req _ _ _ := along_createNewConfig hc
      rw [hl] at hcreate
      exact along_ensureRobin ⟨h0, .inl hc⟩ (Follows.seq hcreate fun _ =>
        Follows.after (.begun h0) (.ret rfl))
    · rename_i hz
      have hz : latestConfig.spec.primaries = 0 := not_not.mp hz
      split
      · rename_i ha
        exact along_finishScaleToZero ⟨h0, _, hl, hz, ha⟩
      · rename_i ha
        have hw : Awaits cluster configs := ⟨h0, _, hl, hz, ha⟩
        exact along_ensureRobin ⟨h0, .inr hw⟩
          (Follows.after (.await hw) (along_aggregateStatus configs))

/-! ## The loop -/

theorem along_ensureConfig {cluster : Redkey} (h : cluster.spec.primaries ≠ 0) :
    Along req (fun configs q => q = .prune cluster configs) (ensureConfig cluster)
      (.got cluster) := by
  refine Follows.bind (along_stage along_listConfigs) fun configs q hq => ?_
  subst hq
  have hiff : (configs.isEmpty || needsNewConfig cluster configs.getLast?) = true ↔
      Creates cluster configs := by
    rw [Creates, if_neg h, Bool.or_eq_true, List.isEmpty_iff]
  split
  · rename_i hc
    exact Follows.seq (along_stage (along_createNewConfig (hiff.mp hc))) fun _ =>
      along_stage (along_relistConfigs h)
  · rename_i hc
    exact Follows.after (.reuse h fun hcr => hc (hiff.mpr hcr)) (.ret rfl)

theorem along_settleConfigs {cluster : Redkey} (configs : List RedkeyConfig) :
    Along req (fun _ q => q = .settled cluster) (settleConfigs cluster configs)
      (.prune cluster configs) := by
  unfold settleConfigs
  split
  · rename_i he
    rw [List.isEmpty_iff.mp he]
    exact Follows.after .pruned (Follows.after .skip (.ret rfl))
  · refine Follows.bind (along_deleteOlder _ _) fun res q hq => ?_
    obtain ⟨kept, err⟩ := res
    cases err with
    | some e => exact along_stage (.fail trivial)
    | none =>
      obtain ⟨rfl, rfl⟩ := hq rfl
      refine Follows.after .pruned ?_
      exact Follows.seq (along_stage (along_aggregateStatus _)) fun _ => .ret rfl

theorem along_reconcileRunning {cluster : Redkey} (h : cluster.spec.primaries ≠ 0) :
    Along req (fun _ q => q = .settled cluster) (reconcileRunning cluster) (.got cluster) := by
  refine Follows.seq (along_stage (along_ensure h (quiet_ensureRBAC _))) fun _ => ?_
  refine Follows.seq (along_stage (along_ensure h (quiet_ensureRobinDeployment _))) fun _ => ?_
  refine Follows.bind (along_ensureConfig h) fun configs q hq => ?_
  subst hq
  exact Follows.seq (along_settleConfigs configs) fun _ => along_free trivial

/-- A Reconcile that returns has found no Redkey or has settled one. -/
def Returned (q : Point) : Prop := q = .absent ∨ ∃ cluster, q = .settled cluster

theorem along_reconcile (r : RedkeyReconciler) (req : NamespacedName) :
    Along req (fun _ => Returned) (reconcile r req) .start := by
  refine Follows.call fun res => ?_
  cases res with
  | error e =>
    cases e with
    | notFound =>
      refine ⟨_, .missing, ?_⟩
      show Along req (fun _ => Returned)
        ((Prog.request (S := api) (.deleteMetrics req)).bind fun _ => .ret (⟨none⟩ : Result)) _
      exact Follows.seq (along_free trivial) fun _ => .ret (.inl rfl)
    | _ => exact ⟨_, .failed .get, along_stage (.fail trivial)⟩
  | ok cluster =>
    refine ⟨.got cluster, .get, ?_⟩
    show Along req _ (if cluster.spec.primaries = 0 then _ else _) _
    split
    · rename_i h0
      refine Follows.seq (along_stage (along_reconcileScaleToZero h0)) fun _ => ?_
      exact Follows.seq (along_free trivial) fun _ => .ret (.inr ⟨_, rfl⟩)
    · rename_i h
      exact Follows.seq (along_reconcileRunning h) fun _ => .ret (.inr ⟨_, rfl⟩)

end RedkeyOperator.Protocol

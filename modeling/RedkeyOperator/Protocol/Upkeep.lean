import RedkeyOperator.Interleave.Product
import RedkeyOperator.Protocol.Trace

/-! # The upkeep of Robin's objects as a state machine

The machine of Reconcile treats the calls about Robin's objects alike. This
second machine tells them apart: which Redkey they are for, that a RoleBinding
is replaced only after it was read with another RoleRef, and that a finished
scale-down deletes the objects of one kind after the other before it deletes
the configs. Reconcile follows both machines, and so their product. -/
namespace RedkeyOperator.Protocol
open RedkeyOperator.Api RedkeyOperator.Kube RedkeyOperator.Interleave RedkeyOperator.Controller
open Automaton (Follows)

variable {T : Terms server} {req : NamespacedName} {α : Type}

inductive Upkeep where
  | off
  /-- There is no Redkey, or a deletion has failed. -/
  | stopped
  /-- The Redkey has been read. -/
  | read (cluster : Redkey)
  /-- Its RoleBinding has been read and refers to another role. -/
  | mismatched (cluster : Redkey)
  /-- Robin has finished the scale-down; its objects of the kinds `gone` are deleted. -/
  | finishing (cluster : Redkey) (gone : List Kind)
  | finished (cluster : Redkey)

def Upkeep.cluster : Upkeep → Option Redkey
  | .off | .stopped => none
  | .read rk | .mismatched rk | .finishing rk _ | .finished rk => some rk

/-- The last config of a sorted list is a scale-down that Robin has finished. -/
def EndsHalted (configs : List RedkeyConfig) : Prop :=
  ∃ z, configs.getLast? = some z ∧ z.spec.primaries = 0 ∧ z.phase = .applied

/-- Calls that write neither an object of Robin nor a config. -/
def Harmless : Call → Prop
  | .write (.updateStatus _) => True
  | .write _ => False
  | _ => True

/-- Calls that keep the objects of `cluster` as they should be, and creates of configs. -/
def Tends (cluster : Redkey) : Call → Prop
  | .write (.create k o) => o.metadata.key = robinKey cluster ∧
    ∀ rb : RoleBinding, (⟨k, o⟩ : Σ k, Obj k) = ⟨.roleBinding, rb⟩ →
      rb.roleRef = (desiredRoleBinding cluster).roleRef
  | .write (.patch _ o) => o.metadata.key = robinKey cluster
  | .write (.createConfig _) => True
  | c => Harmless c

inductive UpkeepNext (req : NamespacedName) :
    Upkeep → (c : Call) → Except ApiError (Reply c) → Upkeep → Prop where
  | pass {u : Upkeep} {c : Call} {r : Except ApiError (Reply c)} (hu : u ≠ .off ∨ Free c)
      (h : Harmless c) : UpkeepNext req u c r u
  | get {cluster : Redkey} : UpkeepNext req .off (.getRedkey req) (.ok cluster) (.read cluster)
  | missing {e : ApiError} : UpkeepNext req .off (.getRedkey req) (.error e) .stopped
  | tend {cluster : Redkey} {c : Call} {r : Except ApiError (Reply c)} (h : Tends cluster c) :
      UpkeepNext req (.read cluster) c r (.read cluster)
  | mismatch {cluster : Redkey} {existing : RoleBinding}
      (h : existing.roleRef ≠ (desiredRoleBinding cluster).roleRef) :
      UpkeepNext req (.read cluster) (.get .roleBinding (robinKey cluster)) (.ok existing)
        (.mismatched cluster)
  | replace {cluster : Redkey} {r : Except ApiError Unit} :
      UpkeepNext req (.mismatched cluster) (.write (.delete .roleBinding (robinKey cluster))) r
        (.read cluster)
  | prune {cluster : Redkey} {key : NamespacedName} {r : Except ApiError Unit}
      (h : cluster.spec.primaries ≠ 0) :
      UpkeepNext req (.read cluster) (.write (.deleteConfig key)) r (.read cluster)
  | list {cluster : Redkey} {items : List RedkeyConfig} (h : EndsHalted (sortBySequence items)) :
      UpkeepNext req (.read cluster)
        (.listConfigs cluster.key.namespace_ cluster.key.name) (.ok items) (.finishing cluster [])
  | delete {cluster : Redkey} {gone : List Kind} {k : Kind} {r : Except ApiError Unit}
      (hr : r = .ok () ∨ r = .error .notFound) :
      UpkeepNext req (.finishing cluster gone) (.write (.delete k (robinKey cluster))) r
        (.finishing cluster (k :: gone))
  | failed {cluster : Redkey} {gone : List Kind} {k : Kind} {e : ApiError} :
      UpkeepNext req (.finishing cluster gone) (.write (.delete k (robinKey cluster))) (.error e)
        .stopped
  | erase {cluster : Redkey} {key : NamespacedName} {r : Except ApiError Unit} :
      UpkeepNext req (.finished cluster) (.write (.deleteConfig key)) r (.finished cluster)

inductive UpkeepSilent : Upkeep → Upkeep → Prop where
  | cleared {cluster : Redkey} {gone : List Kind} (h : ∀ k, k ∈ gone) :
      UpkeepSilent (.finishing cluster gone) (.finished cluster)

def upkeep (req : NamespacedName) : Automaton api :=
  ⟨Upkeep, .off, .off, UpkeepSilent, UpkeepNext req⟩

/-! ## Reconcile follows it -/

abbrev Keeps (req : NamespacedName) (Q : α → Upkeep → Prop) : Act α → Upkeep → Prop :=
  (upkeep req).Follows Q fun _ _ => True

theorem keeps_of_calls {u : Upkeep} {m : Act α} {C : Call → Prop} (hm : m.Calls C)
    (h : ∀ c r, C c → UpkeepNext req u c r u) : Keeps req (fun _ v => v = u) m u :=
  (Follows.stay (A := upkeep req) hm h).mono (fun _ _ h => h) fun _ _ _ => trivial

theorem keeps_harmless {u : Upkeep} {m : Act α} (hu : u ≠ .off) (hm : m.Calls Harmless) :
    Keeps req (fun _ v => v = u) m u := keeps_of_calls hm fun _ _ => .pass (.inl hu)

theorem keeps_tending {cluster : Redkey} {m : Act α} (hm : m.Calls (Tends cluster)) :
    Keeps req (fun _ v => v = .read cluster) m (.read cluster) := keeps_of_calls hm fun _ _ => .tend

theorem keeps_free {u : Upkeep} {c : Call} (hc : Free c) (h : Harmless c) :
    Keeps req (fun _ v => v = u) (Prog.request (S := api) c) u :=
  keeps_of_calls (C := (· = c)) (.request rfl) fun _ _ he => by subst he; exact .pass (.inr hc) h

theorem keeps_stage {name : String} {m : Act α} {Q : α → Upkeep → Prop} {u : Upkeep}
    (hm : Keeps req Q m u) : Keeps req Q (stage name m) u := by
  refine Follows.attempt_bind hm (fun a v hv => .ret hv) fun e v _ => ?_
  exact Follows.bind (keeps_free trivial trivial) fun _ _ _ => .fail trivial

/-! ### Robin's objects -/

theorem keeps_ensureRoleBinding (cluster : Redkey) :
    Keeps req (fun _ v => v = .read cluster) (ensureRoleBinding cluster) (.read cluster) := by
  have create : Keeps req (fun _ v => v = .read cluster)
      (writeOrFail (.create .roleBinding (desiredRoleBinding cluster))) (.read cluster) := by
    refine keeps_tending (.request ⟨rfl, fun rb h => ?_⟩)
    cases h
    rfl
  refine Follows.call fun r => ?_
  cases r with
  | error e =>
    cases e with
    | notFound => exact ⟨_, .pass (.inl nofun) trivial, create⟩
    | _ => exact ⟨_, .pass (.inl nofun) trivial, .fail trivial⟩
  | ok existing =>
    change RoleBinding at existing
    by_cases h : existing.roleRef = (desiredRoleBinding cluster).roleRef
    · refine ⟨_, .pass (.inl nofun) trivial, ?_⟩
      show Keeps req _ (if existing.roleRef != (desiredRoleBinding cluster).roleRef then _ else _) _
      rw [if_neg (by simpa using h)]
      split
      · exact keeps_tending (.request rfl)
      · exact .ret rfl
    · refine ⟨_, .mismatch h, ?_⟩
      show Keeps req _ (if existing.roleRef != (desiredRoleBinding cluster).roleRef then _ else _) _
      rw [if_pos (by simpa using h)]
      exact Follows.seq (Follows.request (fun _ => ⟨_, .replace, rfl⟩)
        fun _ => ⟨_, .replace, trivial⟩) fun _ => create

theorem tends_ensure {cluster : Redkey} {k : Kind} {desired : Obj k} {drifted : Obj k → Bool}
    (hk : k ≠ .roleBinding) (hd : desired.metadata.key = robinKey cluster) :
    (ensure k desired drifted).Calls (Tends cluster) :=
  calls_ensure trivial ⟨hd, fun _ h => absurd (congrArg Sigma.fst h) hk⟩ hd

theorem keeps_ensureRBAC (cluster : Redkey) :
    Keeps req (fun _ v => v = .read cluster) (ensureRBAC cluster) (.read cluster) := by
  refine Follows.seq (keeps_tending (tends_ensure nofun rfl)) fun _ => ?_
  refine Follows.seq (keeps_tending (tends_ensure nofun rfl)) fun _ => ?_
  exact keeps_ensureRoleBinding cluster

theorem keeps_ensureRobinDeployment (cluster : Redkey) :
    Keeps req (fun _ v => v = .read cluster) (ensureRobinDeployment cluster) (.read cluster) :=
  keeps_tending (calls_ensureRobinDeployment trivial
    ⟨rfl, fun _ h => nomatch congrArg Sigma.fst h⟩ (fun _ h => h) fun _ => trivial)

/-! ### Configs and status -/

theorem tends_createNewConfig (cluster : Redkey) (highest : Option RedkeyConfig) :
    (createNewConfig cluster highest).Calls (Tends cluster) :=
  calls_createNewConfig trivial fun _ => trivial

theorem keeps_deleteOlder {cluster : Redkey} (h : cluster.spec.primaries ≠ 0)
    (older kept : List RedkeyConfig) :
    Keeps req (fun _ v => v = .read cluster) (deleteOlder older kept) (.read cluster) := by
  induction older with
  | nil => exact .ret rfl
  | cons c cs ih =>
    refine Follows.call fun r => ⟨_, .prune h, ?_⟩
    cases r with
    | ok u =>
      show Keeps req _ ((count .cleanupDeletedConfigs).bind fun _ => deleteOlder cs kept) _
      exact Follows.seq (keeps_harmless nofun (.request trivial)) fun _ => ih
    | error e =>
      cases e with
      | notFound => exact ih
      | _ => exact .ret rfl

theorem harmless_aggregateStatus (cluster : Redkey) (configs : List RedkeyConfig) :
    (aggregateStatus cluster configs).Calls Harmless :=
  calls_aggregateStatus trivial trivial (fun _ => trivial) configs

theorem keeps_updateStatusScaledToZero {u : Upkeep} (hu : u ≠ .off) (cluster : Redkey) :
    Keeps req (fun _ _ => True) (updateStatusScaledToZero cluster) u := by
  refine (keeps_harmless hu ?_).mono (fun _ _ _ => trivial) fun _ _ h => h
  exact Prog.Calls.bind (.request trivial) fun _ => Prog.Calls.bind (.request trivial) fun _ => trivial

/-! ### Scale to zero -/

theorem keeps_delete {cluster : Redkey} {gone : List Kind} (k : Kind) :
    Keeps req (fun _ v => v = .finishing cluster (k :: gone))
      (deleteIgnoringNotFound (.delete k (robinKey cluster))) (.finishing cluster gone) := by
  refine Follows.call fun r => ?_
  cases r with
  | ok u => exact ⟨_, .delete (.inl rfl), .ret rfl⟩
  | error e =>
    cases e with
    | notFound => exact ⟨_, .delete (.inr rfl), .ret rfl⟩
    | _ => exact ⟨_, .failed, .fail trivial⟩

theorem keeps_deleteConfigs {cluster : Redkey} (items : List RedkeyConfig) :
    Keeps req (fun _ v => v = .finished cluster) (deleteConfigs items) (.finished cluster) := by
  induction items with
  | nil => exact .ret rfl
  | cons c cs ih =>
    refine Follows.seq (q := Upkeep.finished cluster) (Follows.call fun r => ⟨_, .erase, ?_⟩)
      fun _ => ih
    cases r with
    | ok u => exact .ret rfl
    | error e =>
      cases e with
      | notFound => exact .ret rfl
      | _ => exact .fail trivial

theorem keeps_finishScaleToZero (cluster : Redkey) :
    Keeps req (fun _ _ => True) (finishScaleToZero cluster) (.finishing cluster []) := by
  have hrbac : ∀ gone, Keeps req
      (fun _ v => v = .finishing cluster (.serviceAccount :: .role :: .roleBinding :: gone))
      (deleteRBAC cluster) (.finishing cluster gone) := fun gone =>
    Follows.seq (keeps_delete _) fun _ => Follows.seq (keeps_delete _) fun _ => keeps_delete _
  refine Follows.seq (keeps_delete _) fun _ => Follows.seq (hrbac _) fun _ => ?_
  refine Follows.after (.cleared fun k => by cases k <;> simp) ?_
  refine Follows.seq (q := Upkeep.finished cluster) ?_ fun _ =>
    keeps_updateStatusScaledToZero (u := .finished cluster) nofun cluster
  exact Follows.seq (keeps_harmless nofun (.request trivial)) fun _ => keeps_deleteConfigs _

/-- The list decides whether Robin's objects are kept or deleted. -/
def Upkeep.Decided (cluster : Redkey) (configs : List RedkeyConfig) (v : Upkeep) : Prop :=
  EndsHalted configs ∧ v = .finishing cluster [] ∨ ¬ EndsHalted configs ∧ v = .read cluster

theorem keeps_listConfigs (cluster : Redkey) :
    Keeps req (Upkeep.Decided cluster) (listConfigs cluster) (.read cluster) := by
  refine Follows.bind (Q := fun items => Upkeep.Decided cluster (sortBySequence items))
    (Follows.request (fun items => ?_) fun _ => ⟨_, .pass (.inl nofun) trivial, trivial⟩)
    fun _ _ h => .ret h
  by_cases h : EndsHalted (sortBySequence items)
  · exact ⟨_, .list h, .inl ⟨h, rfl⟩⟩
  · exact ⟨_, .pass (.inl nofun) trivial, .inr ⟨h, rfl⟩⟩

theorem keeps_ensureRobin {cluster : Redkey} {m : Act α}
    (hm : Keeps req (fun _ v => v = .read cluster) m (.read cluster)) :
    Keeps req (fun _ _ => True)
      ((ensureRBAC cluster).bind fun _ => (ensureRobinDeployment cluster).bind fun _ => m)
      (.read cluster) :=
  Follows.seq (keeps_ensureRBAC _) fun _ => Follows.seq (keeps_ensureRobinDeployment _) fun _ =>
    hm.mono (fun _ _ _ => trivial) fun _ _ h => h

theorem keeps_reconcileScaleToZero (cluster : Redkey) :
    Keeps req (fun _ _ => True) (reconcileScaleToZero cluster) (.read cluster) := by
  refine Follows.bind (keeps_listConfigs cluster) fun configs v hv => ?_
  have read : ¬ EndsHalted configs → v = .read cluster := by
    intro hn
    rcases hv with ⟨h, -⟩ | ⟨-, h⟩
    · exact absurd h hn
    · exact h
  split
  · rename_i hl
    rw [read fun ⟨z, hz, _⟩ => by rw [hl] at hz; cases hz]
    exact keeps_updateStatusScaledToZero (u := .read cluster) nofun cluster
  · rename_i latest hl
    have top : ∀ {z}, configs.getLast? = some z → z = latest := by
      intro z hz
      rw [hl] at hz
      exact (Option.some.inj hz).symm
    split
    · rename_i hne
      rw [read fun ⟨z, hz, h0, _⟩ => hne (top hz ▸ h0)]
      exact keeps_ensureRobin
        (Follows.seq (keeps_tending (tends_createNewConfig _ _)) fun _ => .ret rfl)
    · rename_i h0
      split
      · rename_i ha
        rcases hv with ⟨-, rfl⟩ | ⟨h, -⟩
        · exact keeps_finishScaleToZero cluster
        · exact absurd ⟨_, hl, not_not.mp h0, ha⟩ h
      · rename_i ha
        rw [read fun ⟨z, hz, _, h⟩ => ha (top hz ▸ h)]
        exact keeps_ensureRobin (keeps_harmless nofun (harmless_aggregateStatus _ _))

/-! ### The loop -/

theorem keeps_reconcileRunning {cluster : Redkey} (h : cluster.spec.primaries ≠ 0) :
    Keeps req (fun _ v => v = .read cluster) (reconcileRunning cluster) (.read cluster) := by
  have list : Keeps req (fun _ v => v = .read cluster) (listConfigs cluster) (.read cluster) :=
    keeps_harmless nofun (Prog.Calls.bind (.request trivial) fun _ => trivial)
  refine Follows.seq (keeps_stage (keeps_ensureRBAC _)) fun _ => ?_
  refine Follows.seq (keeps_stage (keeps_ensureRobinDeployment _)) fun _ => ?_
  refine Follows.seq (q := Upkeep.read cluster) ?_ fun configs => ?_
  · refine Follows.seq (keeps_stage list) fun configs => ?_
    split
    · exact Follows.seq (keeps_stage (keeps_tending (tends_createNewConfig _ _))) fun _ =>
        keeps_stage list
    · exact .ret rfl
  · refine Follows.seq (q := Upkeep.read cluster) ?_ fun _ => keeps_harmless nofun (.request trivial)
    unfold settleConfigs
    split
    · exact .ret rfl
    · refine Follows.seq (keeps_deleteOlder h _ _) fun res => ?_
      obtain ⟨kept, err⟩ := res
      cases err with
      | some e => exact keeps_stage (.fail trivial)
      | none =>
        exact Follows.seq (keeps_stage (keeps_harmless nofun (harmless_aggregateStatus _ _)))
          fun _ => .ret rfl

theorem keeps_reconcile (r : RedkeyReconciler) (req : NamespacedName) :
    Keeps req (fun _ _ => True) (reconcile r req) .off := by
  refine Follows.call fun res => ?_
  cases res with
  | error e =>
    cases e with
    | notFound =>
      refine ⟨_, .missing, ?_⟩
      show Keeps req _
        ((Prog.request (S := api) (.deleteMetrics req)).bind fun _ => .ret (⟨none⟩ : Result)) _
      exact Follows.seq (keeps_harmless nofun (.request trivial)) fun _ => .ret trivial
    | _ => exact ⟨_, .missing, keeps_stage (.fail trivial)⟩
  | ok cluster =>
    refine ⟨.read cluster, .get, ?_⟩
    show Keeps req _ (if cluster.spec.primaries = 0 then _ else _) _
    split
    · refine Follows.bind (keeps_stage (keeps_reconcileScaleToZero cluster)) fun _ v _ => ?_
      exact Follows.bind (keeps_free trivial trivial) fun _ _ _ => .ret trivial
    · rename_i h
      exact Follows.seq (keeps_reconcileRunning h) fun _ => .ret trivial

end RedkeyOperator.Protocol

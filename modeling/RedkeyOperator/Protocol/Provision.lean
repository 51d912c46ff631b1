import RedkeyOperator.Controller.Emits
import RedkeyOperator.Controller.Ownership
import RedkeyOperator.Protocol.Upkeep

/-! # The order in which Robin's objects come and go

A third machine beside those of `Trace` and `Upkeep`. It keeps count of what
Reconcile knows of Robin's objects: the kinds that were found or created since
the Redkey was read, or those that a finished scale-down has deleted. The
Deployment is created when the other three are there, and they are deleted when
the Deployment is gone. -/
namespace RedkeyOperator.Protocol
open RedkeyOperator.Api RedkeyOperator.Kube RedkeyOperator.Interleave RedkeyOperator.Controller
open Automaton (Follows)

variable {T : Terms server} {req : NamespacedName} {α : Type}

/-! ## The machine -/

inductive Provision where
  | off
  /-- There is no Redkey, or a deletion has failed. -/
  | stopped
  /-- The Redkey has been read; the objects of the kinds `there` are stored. -/
  | building (cluster : Redkey) (there : List Kind)
  /-- Its RoleBinding has been read and refers to another role. -/
  | mismatched (cluster : Redkey)
  /-- The objects of the kinds `gone` are deleted. -/
  | clearing (cluster : Redkey) (gone : List Kind)

def Provision.cluster : Provision → Option Redkey
  | .off | .stopped => none
  | .building rk _ | .mismatched rk | .clearing rk _ => some rk

/-- What has to be known before an object of this kind is created. -/
def Supplied (k : Kind) (there : List Kind) : Prop :=
  k = .deployment → ∀ k', k' = .deployment ∨ k' ∈ there

/-- What has to be known before one is deleted. -/
def Released (k : Kind) (gone : List Kind) : Prop := k = .deployment ∨ .deployment ∈ gone

inductive ProvisionNext (req : NamespacedName) :
    Provision → (c : Call) → Except ApiError (Reply c) → Provision → Prop where
  | pass {u : Provision} {c : Call} {r : Except ApiError (Reply c)} (hu : u ≠ .off ∨ Free c)
      (h : ¬ RobinWrite c) : ProvisionNext req u c r u
  | get {cluster : Redkey} :
      ProvisionNext req .off (.getRedkey req) (.ok cluster) (.building cluster [])
  | missing {e : ApiError} : ProvisionNext req .off (.getRedkey req) (.error e) .stopped
  | found {cluster : Redkey} {there : List Kind} {k : Kind} {o : Obj k} :
      ProvisionNext req (.building cluster there) (.get k (robinKey cluster)) (.ok o)
        (.building cluster (k :: there))
  | create {cluster : Redkey} {there : List Kind} {k : Kind} (hk : Supplied k there) :
      ProvisionNext req (.building cluster there) (.write (.create k (desiredObject cluster k)))
        (.ok ()) (.building cluster (k :: there))
  | createFailed {cluster : Redkey} {there : List Kind} {k : Kind} {e : ApiError}
      (hk : Supplied k there) :
      ProvisionNext req (.building cluster there) (.write (.create k (desiredObject cluster k)))
        (.error e) (.building cluster there)
  | patch {cluster : Redkey} {there : List Kind} {k : Kind} {o : Obj k} {r : Except ApiError Unit}
      (h : Emits (Eq cluster) (.write (.patch k o))) (ho : o.metadata.key = robinKey cluster) :
      ProvisionNext req (.building cluster there) (.write (.patch k o)) r (.building cluster there)
  | mismatch {cluster : Redkey} {there : List Kind} {existing : RoleBinding}
      (h : existing.roleRef ≠ (desiredRoleBinding cluster).roleRef) :
      ProvisionNext req (.building cluster there) (.get .roleBinding (robinKey cluster))
        (.ok existing) (.mismatched cluster)
  /-- What is done about such a RoleBinding is left open: no run has one. -/
  | replace {cluster : Redkey} {c : Call} {r : Except ApiError (Reply c)} :
      ProvisionNext req (.mismatched cluster) c r (.mismatched cluster)
  | delete {cluster : Redkey} {gone : List Kind} {k : Kind} {r : Except ApiError Unit}
      (hk : Released k gone) (hr : r = .ok () ∨ r = .error .notFound) :
      ProvisionNext req (.clearing cluster gone) (.write (.delete k (robinKey cluster))) r
        (.clearing cluster (k :: gone))
  | failed {cluster : Redkey} {gone : List Kind} {k : Kind} {e : ApiError} (hk : Released k gone) :
      ProvisionNext req (.clearing cluster gone) (.write (.delete k (robinKey cluster))) (.error e)
        .stopped

inductive ProvisionSilent : Provision → Provision → Prop where
  | clear {cluster : Redkey} {there : List Kind} (h : cluster.spec.primaries = 0) :
      ProvisionSilent (.building cluster there) (.clearing cluster [])

def provision (req : NamespacedName) : Automaton api :=
  ⟨Provision, .off, .off, ProvisionSilent, ProvisionNext req⟩

/-! ## Reconcile follows it -/

abbrev Provides (req : NamespacedName) (Q : α → Provision → Prop) : Act α → Provision → Prop :=
  (provision req).Follows Q fun _ _ => True

/-- The Redkey is still provided for, or its RoleBinding was a stranger's. -/
def Provision.Has (cluster : Redkey) (there : List Kind) (v : Provision) : Prop :=
  v = .building cluster there ∨ v = .mismatched cluster

theorem provides_spared {u : Provision} {m : Act α} (hu : u ≠ .off)
    (hm : m.Calls fun c => ¬ RobinWrite c) : Provides req (fun _ v => v = u) m u :=
  (Follows.stay (A := provision req) hm fun _ _ => .pass (.inl hu)).mono (fun _ _ h => h)
    fun _ _ _ => trivial

theorem provides_rest {u : Provision} {m : Act α} (hu : u ≠ .off)
    (hm : m.Calls fun c => ¬ RobinWrite c) : Provides req (fun _ _ => True) m u :=
  (provides_spared hu hm).mono (fun _ _ _ => trivial) fun _ _ h => h

theorem provides_mismatched {cluster : Redkey} {m : Act α} :
    Provides req (fun _ v => v = .mismatched cluster) m (.mismatched cluster) := by
  induction m with
  | ret a => exact .ret rfl
  | fail e => exact .fail trivial
  | call c k ih => exact Follows.call fun r => ⟨_, .replace, ih r⟩

theorem provides_free {u : Provision} {c : Call} (hc : Free c) (h : ¬ RobinWrite c) :
    Provides req (fun _ v => v = u) (Prog.request (S := api) c) u :=
  Follows.request (fun _ => ⟨_, .pass (.inr hc) h, rfl⟩) fun _ => ⟨_, .pass (.inr hc) h, trivial⟩

theorem provides_stage {name : String} {m : Act α} {Q : α → Provision → Prop} {u : Provision}
    (hm : Provides req Q m u) : Provides req Q (stage name m) u := by
  refine Follows.attempt_bind hm (fun a v hv => .ret hv) fun e v _ => ?_
  exact Follows.bind (provides_free trivial id) fun _ _ _ => .fail trivial

/-- A program that goes on from where the Redkey is provided for. -/
theorem provides_bind {β : Type} {cluster : Redkey} {there : List Kind} {m : Act α}
    {f : α → Act β} {u : Provision} {Q : β → Provision → Prop}
    (hm : Provides req (fun _ => Provision.Has cluster there) m u)
    (hf : ∀ a, Provides req Q (f a) (.building cluster there))
    (hQ : ∀ b, Q b (.mismatched cluster)) : Provides req Q (m.bind f) u := by
  refine Follows.bind hm fun a v hv => ?_
  rcases hv with rfl | rfl
  · exact hf a
  · exact provides_mismatched.mono (fun b v hv => hv ▸ hQ b) fun _ _ h => h

/-! ### Robin's objects -/

section
variable {cluster : Redkey} {there : List Kind}

theorem provides_create {k : Kind} (hk : Supplied k there) :
    Provides req (fun _ v => v = .building cluster (k :: there))
      (writeOrFail (.create k (desiredObject cluster k))) (.building cluster there) :=
  Follows.request (fun _ => ⟨_, .create hk, rfl⟩) fun _ => ⟨_, .createFailed hk, trivial⟩

theorem provides_patch {k : Kind} {o : Obj k} (h : Emits (Eq cluster) (.write (.patch k o)))
    (ho : o.metadata.key = robinKey cluster) :
    Provides req (fun _ v => v = .building cluster there) (writeOrFail (.patch k o))
      (.building cluster there) :=
  Follows.request (fun _ => ⟨_, .patch h ho, rfl⟩) fun _ => ⟨_, .patch h ho, trivial⟩

theorem provides_ensure {k : Kind} (hk : k ≠ .deployment) (drifted : Obj k → Bool) :
    Provides req (fun _ v => v = .building cluster (k :: there))
      (ensure k (desiredObject cluster k) drifted) (.building cluster there) := by
  have hkey := (metadata_desiredObject cluster k).1
  unfold ensure
  rw [hkey]
  refine Follows.call fun r => ?_
  cases r with
  | error e =>
    cases e with
    | notFound =>
      exact ⟨_, .pass (.inl nofun) id, provides_create fun he => absurd he hk⟩
    | _ => exact ⟨_, .pass (.inl nofun) id, .fail trivial⟩
  | ok existing =>
    refine ⟨_, .found, ?_⟩
    show Provides req _ (if drifted existing then _ else _) _
    split
    · exact provides_patch (.patch rfl k) hkey
    · exact .ret rfl

theorem provides_ensureRoleBinding :
    Provides req (fun _ => Provision.Has cluster (.roleBinding :: there))
      (ensureRoleBinding cluster) (.building cluster there) := by
  refine Follows.call fun r => ?_
  cases r with
  | error e =>
    cases e with
    | notFound =>
      exact ⟨_, .pass (.inl nofun) id,
        (provides_create (k := .roleBinding) nofun).mono (fun _ _ => .inl) fun _ _ h => h⟩
    | _ => exact ⟨_, .pass (.inl nofun) id, .fail trivial⟩
  | ok existing =>
    change RoleBinding at existing
    by_cases h : existing.roleRef = (desiredRoleBinding cluster).roleRef
    · refine ⟨_, .found, ?_⟩
      show Provides req _ (if existing.roleRef != (desiredRoleBinding cluster).roleRef then _
        else _) _
      rw [if_neg (by simpa using h)]
      split
      · exact (provides_patch (.patch rfl .roleBinding) rfl).mono (fun _ _ => .inl) fun _ _ h => h
      · exact .ret (.inl rfl)
    · exact ⟨_, .mismatch h, provides_mismatched.mono (fun _ _ => .inr) fun _ _ h => h⟩

theorem provides_ensureRobinDeployment (hk : Supplied .deployment there) :
    Provides req (fun _ v => v = .building cluster (.deployment :: there))
      (ensureRobinDeployment cluster) (.building cluster there) := by
  refine Follows.call fun r => ?_
  cases r with
  | error e =>
    cases e with
    | notFound =>
      refine ⟨_, .pass (.inl nofun) id, ?_⟩
      show Provides req _ ((writeOrFail (.create .deployment (desiredObject cluster .deployment))).bind
        fun _ => count (.robinDeploymentChanges "create")) _
      exact Follows.seq (provides_create hk) fun _ => provides_spared nofun (.request id)
    | _ => exact ⟨_, .pass (.inl nofun) id, .fail trivial⟩
  | ok existing =>
    change Deployment at existing
    refine ⟨_, .found, ?_⟩
    show Provides req _ (if robinDeploymentNeedsUpdate existing
      (buildDesiredRobinDeployment cluster) then _ else _) _
    split
    · exact Follows.seq (provides_patch (.patchDeployment rfl _) rfl) fun _ =>
        provides_spared nofun (.request id)
    · exact .ret rfl

/-- The three kinds of `ensureRBAC`. -/
abbrev rbacKinds : List Kind := [.roleBinding, .role, .serviceAccount]

theorem supplied_rbacKinds (k : Kind) : Supplied k rbacKinds := by
  intro _ k'
  cases k' <;> simp

theorem provides_ensureRBAC :
    Provides req (fun _ => Provision.Has cluster rbacKinds) (ensureRBAC cluster)
      (.building cluster []) := by
  refine Follows.seq (provides_ensure (k := .serviceAccount) nofun _) fun _ => ?_
  refine Follows.seq (provides_ensure (k := .role) nofun _) fun _ => ?_
  exact provides_ensureRoleBinding

/-- What comes after Robin's objects does not touch them. -/
theorem provides_ensureRobin {m : Act α} (hm : m.Calls fun c => ¬ RobinWrite c) :
    Provides req (fun _ _ => True)
      ((ensureRBAC cluster).bind fun _ => (ensureRobinDeployment cluster).bind fun _ => m)
      (.building cluster []) := by
  refine provides_bind provides_ensureRBAC (fun _ => ?_) fun _ => trivial
  refine Follows.seq (provides_ensureRobinDeployment (supplied_rbacKinds _)) fun _ => ?_
  exact provides_rest nofun hm

theorem provides_delete {gone : List Kind} {k : Kind} (hk : Released k gone) :
    Provides req (fun _ v => v = .clearing cluster (k :: gone))
      (deleteIgnoringNotFound (.delete k (robinKey cluster))) (.clearing cluster gone) := by
  refine Follows.call fun r => ?_
  cases r with
  | ok u => exact ⟨_, .delete hk (.inl rfl), .ret rfl⟩
  | error e =>
    cases e with
    | notFound => exact ⟨_, .delete hk (.inr rfl), .ret rfl⟩
    | _ => exact ⟨_, .failed hk, .fail trivial⟩

/-! ### The loop -/

theorem spares_updateStatusScaledToZero :
    (updateStatusScaledToZero cluster).Calls fun c => ¬ RobinWrite c :=
  Prog.Calls.bind (.request id) fun _ => Prog.Calls.bind (.request id) fun _ => trivial

theorem spares_deleteConfigs (items : List RedkeyConfig) :
    (deleteConfigs items).Calls fun c => ¬ RobinWrite c := by
  induction items with
  | nil => trivial
  | cons c cs ih =>
    refine Prog.Calls.bind (Prog.Calls.bind (.perform id) fun r => ?_) fun _ => ih
    cases r with
    | ok u => trivial
    | error e => cases e <;> trivial

theorem provides_finishScaleToZero (h : cluster.spec.primaries = 0) :
    Provides req (fun _ _ => True) (finishScaleToZero cluster) (.building cluster there) := by
  refine Follows.after (.clear h) ?_
  refine Follows.seq (provides_delete (.inl rfl)) fun _ => ?_
  refine Follows.seq (q := Provision.clearing cluster
    [.serviceAccount, .role, .roleBinding, .deployment]) ?_ fun _ => ?_
  · exact Follows.seq (provides_delete (.inr (by simp))) fun _ =>
      Follows.seq (provides_delete (.inr (by simp))) fun _ => provides_delete (.inr (by simp))
  · refine provides_rest nofun ?_
    refine Prog.Calls.bind ?_ fun _ => spares_updateStatusScaledToZero
    exact Prog.Calls.bind (.request id) spares_deleteConfigs

theorem provides_reconcileScaleToZero (h : cluster.spec.primaries = 0) :
    Provides req (fun _ _ => True) (reconcileScaleToZero cluster) (.building cluster []) := by
  refine Follows.seq (provides_spared nofun (calls_listConfigs id)) fun configs => ?_
  split
  · exact provides_rest nofun spares_updateStatusScaledToZero
  · split
    · exact provides_ensureRobin
        (Prog.Calls.bind (calls_createNewConfig id fun _ => id) fun _ => trivial)
    · split
      · exact provides_finishScaleToZero h
      · exact provides_ensureRobin (calls_aggregateStatus id id (fun _ => id) _)

theorem provides_reconcileRunning :
    Provides req (fun _ _ => True) (reconcileRunning cluster) (.building cluster []) := by
  refine provides_bind (provides_stage provides_ensureRBAC) (fun _ => ?_) fun _ => trivial
  refine Follows.seq (provides_stage (provides_ensureRobinDeployment (supplied_rbacKinds _)))
    fun _ => ?_
  refine provides_rest nofun ?_
  refine Prog.Calls.bind (spares_ensureConfig cluster) fun configs => ?_
  exact Prog.Calls.bind (spares_settleConfigs cluster configs) fun _ => .request id

end

theorem provides_reconcile (r : RedkeyReconciler) (req : NamespacedName) :
    Provides req (fun _ _ => True) (reconcile r req) .off := by
  refine Follows.call fun res => ?_
  cases res with
  | error e =>
    cases e with
    | notFound =>
      refine ⟨_, .missing, ?_⟩
      show Provides req _
        ((Prog.request (S := api) (.deleteMetrics req)).bind fun _ => .ret (⟨none⟩ : Result)) _
      exact Follows.seq (provides_spared nofun (.request id)) fun _ => .ret trivial
    | _ => exact ⟨_, .missing, provides_stage (.fail trivial)⟩
  | ok cluster =>
    refine ⟨_, .get, ?_⟩
    show Provides req _ (if cluster.spec.primaries = 0 then _ else _) _
    split
    · rename_i h
      refine Follows.bind (provides_stage (provides_reconcileScaleToZero h)) fun _ v _ => ?_
      exact Follows.bind (provides_free trivial id) fun _ _ _ => .ret trivial
    · exact Follows.bind provides_reconcileRunning fun _ _ _ => .ret trivial

/-! ## Runs of both machines -/

abbrev Built (T : Terms server) (req : NamespacedName) (w₀ : World) (p : Point) (v : Provision)
    (w : World) : Prop :=
  ((machine req).prod (provision req)).Run (M := server) T w₀ (p, v) w

section
variable {w₀ w : World} {p : Point} {v : Provision}

theorem Built.runs (h : Built T req w₀ p v w) : Runs T req w₀ p w := h.left

theorem Built.induct {G : Point → Provision → World → Prop}
    (init : G .idle .off w₀)
    (env : ∀ p v e w w', Built T req w₀ p v w → G p v w → T.env e w = true →
      env e w = some w' → G p v w')
    (enter : ∀ p v w, G p v w → G .start .off (enter w))
    (silent : ∀ p q v w, Built T req w₀ p v w → G p v w → Silent p q → G q v w)
    (cleared : ∀ p u v w, G p u w → ProvisionSilent u v → G p v w)
    (call : ∀ p q u v w w' c o res, Built T req w₀ p u w → G p u w → Next req p c res q →
      ProvisionNext req u c res v → T.call c o w = true → answer c o w = some (res, w') → G q v w')
    (h : Built T req w₀ p v w) : G p v w :=
  Automaton.Run.prod_induct (A := machine req) (B := provision req) (M := server) init env enter
    silent cleared call h

theorem reconcile_built {r : RedkeyReconciler} {s : State server Result}
    (h : Reaches T (reconcile r req) ⟨w₀, none⟩ s) : ∃ p v, Built T req w₀ p v s.world := by
  obtain ⟨⟨p, v⟩, hrun, -⟩ :=
    ((along_reconcile r req).prod (provides_reconcile r req)).reaches rfl h
  exact ⟨p, v, hrun⟩

end

end RedkeyOperator.Protocol

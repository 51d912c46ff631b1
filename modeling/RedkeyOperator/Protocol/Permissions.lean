import RedkeyOperator.Kube.Authorization
import RedkeyOperator.Protocol.Granting

/-! # What the operator may do

The operator runs with the rules of a ClusterRole, generated from the markers in
`redkey_controller.go` or written in the Helm chart. It asks for nothing beyond
them: not by the calls of a Reconcile, and not by the rules that it hands to
Robin, which the API server accepts only if the operator has them itself. A
RoleBinding is accepted only if its Role is there, so Reconcile has to see Robin's
objects as they are. -/
namespace RedkeyOperator.Protocol
open RedkeyOperator.Api RedkeyOperator.Kube RedkeyOperator.Interleave RedkeyOperator.Controller

/-! ## The rules -/

def redkeyGroup : String := "redkey.inditex.dev"

def allVerbs : List String := ["create", "delete", "get", "list", "patch", "update", "watch"]

/-- `config/rbac/role.yaml`, generated from the markers of the reconciler. -/
def managerRules : List PolicyRule :=
  [ ⟨[""], ["configmaps", "serviceaccounts", "services"], allVerbs⟩,
    ⟨[""], ["persistentvolumeclaims"], ["delete", "list"]⟩,
    ⟨[""], ["pods"], ["delete", "get", "list", "watch"]⟩,
    ⟨[""], ["secrets"], ["get"]⟩,
    ⟨["apps"], ["deployments", "statefulsets"], allVerbs⟩,
    ⟨["policy"], ["poddisruptionbudgets"], allVerbs⟩,
    ⟨["rbac.authorization.k8s.io"], ["rolebindings", "roles"], allVerbs⟩,
    ⟨[redkeyGroup], ["redkeyconfigs"], ["create", "delete", "get", "list", "watch"]⟩,
    ⟨[redkeyGroup], ["redkeyconfigs/status", "redkeys/scale", "redkeys/status"],
      ["get", "patch", "update"]⟩,
    ⟨[redkeyGroup], ["redkeys"], allVerbs⟩,
    ⟨[redkeyGroup], ["redkeys/finalizers"], ["update"]⟩ ]

/-- The manager's ClusterRole of the Helm chart, `templates/rbac.yaml`. -/
def chartRules : List PolicyRule :=
  [ ⟨[""], ["configmaps", "pods", "services"], ["get", "list", "watch"]⟩,
    ⟨[""], ["configmaps", "pods", "services"], allVerbs⟩,
    ⟨[""], ["events"], ["create", "patch"]⟩,
    ⟨[""], ["secrets"], ["get"]⟩,
    ⟨[""], ["persistentvolumeclaims"], ["get", "list", "watch", "delete", "deletecollection"]⟩,
    ⟨["apps"], ["deployments", "statefulsets"], allVerbs⟩,
    ⟨["policy"], ["poddisruptionbudgets"], allVerbs⟩,
    ⟨[redkeyGroup], ["redkeys"], allVerbs⟩,
    ⟨[redkeyGroup], ["redkeys/finalizers"], ["update"]⟩,
    ⟨[redkeyGroup], ["redkeys/scale"], ["get", "patch", "update"]⟩,
    ⟨[redkeyGroup], ["redkeys/status"], ["get", "patch", "update"]⟩,
    ⟨[redkeyGroup], ["redkeyconfigs"], ["create", "delete", "get", "list", "watch"]⟩,
    ⟨[redkeyGroup], ["redkeyconfigs/status"], ["get", "patch", "update"]⟩,
    ⟨[""], ["serviceaccounts"], allVerbs⟩,
    ⟨["rbac.authorization.k8s.io"], ["roles", "rolebindings"], allVerbs⟩ ]

/-! ## What a call asks for -/

def requestFor (k : Kind) (verb : String) : Request :=
  match k with
  | .serviceAccount => ⟨"", "serviceaccounts", verb⟩
  | .role => ⟨"rbac.authorization.k8s.io", "roles", verb⟩
  | .roleBinding => ⟨"rbac.authorization.k8s.io", "rolebindings", verb⟩
  | .deployment => ⟨"apps", "deployments", verb⟩

/-- A read fills an informer cache first. -/
def cachedRead (request : String → Request) : List Request := ["get", "list", "watch"].map request

/-- A controller reference blocks the deletion of its owner, and to set one takes
the right to update the finalizers of the owner. -/
def referenceDemands (m : ObjectMeta) : List Request :=
  if m.owner.isSome then [⟨redkeyGroup, "redkeys/finalizers", "update"⟩] else []

def demands : Call → List Request
  | .getRedkey _ => cachedRead (⟨redkeyGroup, "redkeys", ·⟩)
  | .listConfigs _ _ => cachedRead (⟨redkeyGroup, "redkeyconfigs", ·⟩)
  | .get k _ => cachedRead (requestFor k)
  | .write (.updateStatus _) => [⟨redkeyGroup, "redkeys/status", "update"⟩]
  | .write (.createConfig c) =>
    ⟨redkeyGroup, "redkeyconfigs", "create"⟩ :: referenceDemands c.metadata
  | .write (.deleteConfig _) => [⟨redkeyGroup, "redkeyconfigs", "delete"⟩]
  | .write (.create k o) => requestFor k "create" :: referenceDemands o.metadata
  | .write (.patch k _) => [requestFor k "patch"]
  | .write (.delete k _) => [requestFor k "delete"]
  | .now | .count _ | .recordMetrics _ _ | .deleteMetrics _ => []

/-- The rules of the Role that a RoleBinding in `ns` refers to. The API server
refuses a RoleBinding whose Role it cannot find. -/
def boundRules (st : Store) (ns : String) (ref : RoleRef) : Option (List PolicyRule) :=
  match st.robin .role ⟨ns, ref.name⟩ with
  | some (role : Role) => if ref.kind = "Role" then some role.rules else none
  | none => none

/-- The rules that a call hands to somebody, if they are known: those of a Role that
is written, and those of the Role that a RoleBinding refers to. A patch leaves the
RoleRef alone, and one of a RoleBinding that is not there comes to nothing. -/
def handsOut (st : Store) : Call → Option (List PolicyRule)
  | .write (.create .role (o : Role)) => some o.rules
  | .write (.patch .role (o : Role)) => some o.rules
  | .write (.create .roleBinding (o : RoleBinding)) =>
    boundRules st o.metadata.key.namespace_ o.roleRef
  | .write (.patch .roleBinding (o : RoleBinding)) =>
    match st.robin .roleBinding o.metadata.key with
    | some (stored : RoleBinding) => boundRules st o.metadata.key.namespace_ stored.roleRef
    | none => some []
  | _ => some []

/-- The API server lets somebody with these rules make the call. -/
def authorized (rules : List PolicyRule) (st : Store) (c : Call) : Bool :=
  (demands c).all (permits rules) && (handsOut st c).any (covers rules)

/-! ## They are enough -/

/-- All that is ever asked for. -/
def everyDemand : List Request :=
  cachedRead (⟨redkeyGroup, "redkeys", ·⟩) ++ cachedRead (⟨redkeyGroup, "redkeyconfigs", ·⟩) ++
    [⟨redkeyGroup, "redkeys/status", "update"⟩, ⟨redkeyGroup, "redkeys/finalizers", "update"⟩,
      ⟨redkeyGroup, "redkeyconfigs", "create"⟩, ⟨redkeyGroup, "redkeyconfigs", "delete"⟩] ++
    [Kind.serviceAccount, .role, .roleBinding, .deployment].flatMap fun k =>
      ["get", "list", "watch", "create", "patch", "delete"].map (requestFor k)

theorem mem_everyDemand {c : Call} {q : Request} (h : q ∈ demands c) : q ∈ everyDemand := by
  have kinds : ∀ (k : Kind) (verb : String),
      verb ∈ ["get", "list", "watch", "create", "patch", "delete"] →
      requestFor k verb ∈ everyDemand := by
    intro k verb hverb
    refine List.mem_append_right _ (List.mem_flatMap.mpr ⟨k, ?_, List.mem_map_of_mem hverb⟩)
    cases k <;> simp
  have reference : ∀ m : ObjectMeta, q ∈ referenceDemands m → q ∈ everyDemand := by
    intro m hm
    unfold referenceDemands at hm
    split at hm
    · rw [List.mem_singleton.mp hm]
      decide
    · cases hm
  cases c with
  | getRedkey key => exact List.mem_append_left _ (List.mem_append_left _ (List.mem_append_left _ h))
  | listConfigs ns cluster =>
    exact List.mem_append_left _ (List.mem_append_left _ (List.mem_append_right _ h))
  | get k key =>
    obtain ⟨verb, hverb, rfl⟩ := List.mem_map.mp h
    have hmore : ["get", "list", "watch", "create", "patch", "delete"] =
        ["get", "list", "watch"] ++ ["create", "patch", "delete"] := rfl
    exact kinds k verb (hmore ▸ List.mem_append_left _ hverb)
  | write a =>
    cases a with
    | updateStatus rk =>
      rw [List.mem_singleton.mp h]
      decide
    | createConfig c =>
      rcases List.mem_cons.mp h with rfl | h
      · decide
      · exact reference _ h
    | deleteConfig key =>
      rw [List.mem_singleton.mp h]
      decide
    | create k o =>
      rcases List.mem_cons.mp h with rfl | h
      · exact kinds k _ (by simp)
      · exact reference _ h
    | patch k o =>
      rw [List.mem_singleton.mp h]
      exact kinds k _ (by simp)
    | delete k key =>
      rw [List.mem_singleton.mp h]
      exact kinds k _ (by simp)
  | now | count _ | recordMetrics _ _ | deleteMetrics _ => cases h

/-- The rules allow all that is asked for, and Robin's rules to be handed out. -/
def enough (rules : List PolicyRule) : Bool :=
  everyDemand.all (permits rules) && covers rules desiredRobinRules

theorem enough_of_mem {rules : List PolicyRule} (h : rules ∈ [managerRules, chartRules]) :
    enough rules = true := by
  rcases List.mem_cons.mp h with rfl | h
  · decide +kernel
  · rw [List.mem_singleton.mp h]
    decide +kernel

theorem permits_demands {rules : List PolicyRule} (h : enough rules = true) (c : Call) :
    (demands c).all (permits rules) = true := by
  refine List.all_eq_true.mpr fun q hq => ?_
  exact List.all_eq_true.mp (Bool.and_eq_true_iff.mp h).1 q (mem_everyDemand hq)

/-! ## Nothing is handed out that the operator has not -/

section
variable {rules : List PolicyRule} {st : Store} {c : Call} {cluster : Redkey}

theorem boundRules_of_hasRole (h : HasRole cluster st) :
    boundRules st cluster.key.namespace_ (desiredRoleBinding cluster).roleRef =
      some desiredRobinRules := by
  obtain ⟨role, hrole, hrules⟩ := h
  have hstored : st.robin .role
      ⟨cluster.key.namespace_, (desiredRoleBinding cluster).roleRef.name⟩ = some role := hrole
  rw [boundRules, hstored, ← hrules]
  exact if_pos rfl

/-- What a Reconcile hands out is nothing, or the rules that Robin needs. -/
theorem GrantNext.handsOut {g g' : Grant} {e : ApiError} (h : g.Holds st)
    (hn : GrantNext g c (.error e) g') :
    Protocol.handsOut st c = some [] ∨ Protocol.handsOut st c = some desiredRobinRules := by
  cases hn with
  | pass hc =>
    refine .inl ?_
    cases c with
    | write a =>
      cases a with
      | create k o => exact absurd trivial hc
      | patch k o => exact absurd trivial hc
      | _ => rfl
    | _ => rfl
  | other ha hk =>
    refine .inl ?_
    rcases hk with rfl | rfl <;> cases ha <;> rfl
  | createFailed => exact .inr rfl
  | patchFailed => exact .inr rfl
  | bind => exact .inr (boundRules_of_hasRole h)
  | rebind =>
    obtain ⟨hrole, binding, hbinding, href⟩ := h
    refine .inr (Eq.trans ?_ (boundRules_of_hasRole hrole))
    rw [← href]
    show (match st.robin .roleBinding (robinKey _) with
      | some (stored : RoleBinding) => boundRules st _ stored.roleRef
      | none => some []) = _
    rw [hbinding]
    rfl
  | unbind => exact .inl rfl
  | delete => exact .inl rfl

theorem authorized_of_handsOut (h : enough rules = true)
    (hc : handsOut st c = some [] ∨ handsOut st c = some desiredRobinRules) :
    authorized rules st c = true := by
  refine Bool.and_eq_true_iff.mpr ⟨permits_demands h c, ?_⟩
  rcases hc with hc | hc
  · rw [hc]
    rfl
  · rw [hc]
    exact (Bool.and_eq_true_iff.mp h).2

/-- A Role permits nothing that these rules do not. -/
def Modest (rules : List PolicyRule) : (k : Kind) → NamespacedName → Obj k → Prop
  | .role, _, (o : Role) => ∀ q, permits o.rules q = true → permits rules q = true
  | .serviceAccount, _, _ | .roleBinding, _, _ | .deployment, _, _ => True

theorem made_modest (h : enough rules = true) : Made (fun _ => True) (Modest rules) where
  desired _ k := by
    cases k with
    | role => exact fun _ => permits_of_covers (Bool.and_eq_true_iff.mp h).2
    | serviceAccount | roleBinding | deployment => trivial
  patched _ k _ _ := by
    cases k with
    | role => exact fun _ => permits_of_covers (Bool.and_eq_true_iff.mp h).2
    | serviceAccount | roleBinding | deployment => trivial
  deployment _ _ _ _ := trivial

end

/-- With the rules of either deployment, in every run in which Robin's objects are
read from the current store, whatever was stored at first and whatever fails: each
call that a Reconcile makes is one that the API server lets the operator make, the
rules it would hand out with it included. And if no Role permits anything at first
that the operator is not permitted, none ever does. -/
theorem operator_is_authorized {T : Terms server} {r : RedkeyReconciler} {req : NamespacedName}
    {w₀ : World} {s : State server Result} {rules : List PolicyRule}
    (hrules : rules ∈ [managerRules, chartRules]) (hT : T.Implies currentObjects)
    (h : Reaches T (reconcile r req) ⟨w₀, none⟩ s) :
    (∀ c, pendingCall s = some c → authorized rules s.world.store c = true) ∧
      (RobinAll (Modest rules) w₀.store → RobinAll (Modest rules) s.world.store) := by
  have henough := enough_of_mem hrules
  constructor
  · intro c hc
    unfold pendingCall at hc
    split at hc
    · rename_i c' k hk
      cases hc
      obtain ⟨g, hrun, haccepts⟩ := (grants_reconcile r req Grant.unknown).pending rfl h hk
      obtain ⟨g', hn⟩ := haccepts (.error .unavailable)
      exact authorized_of_handsOut henough (GrantNext.handsOut (holds_of_run hT hrun) hn)
    · cases hc
  · intro h₀
    exact (h.within (I := fun w : World => RobinAll (Modest rules) w.store)
      (emits_reconcile (fun _ => True) r req) h₀ (fun hw he => hw.env he) (fun hw => hw)
      (fun _ hc hw ha => ⟨hw.answer (made_modest henough) hc ha, reads_true _ _⟩)).1

/-- A Reconcile is about to create the RoleBinding of a Role. -/
def bindsRole (s : State server Result) : Bool :=
  match pendingCall s with
  | some (.write (.create .roleBinding _)) => true
  | _ => false

set_option maxRecDepth 100000 in
theorem operator_is_authorized_sample :
    ∃ s, Reaches currentObjects sampleReconcile ⟨sampleWorld 3, none⟩ s ∧ bindsRole s = true ∧
      (∀ c, pendingCall s = some c → authorized managerRules s.world.store c = true) ∧
      RobinAll (Modest managerRules) s.world.store := by
  obtain ⟨s, hs, hbinds⟩ := exists_reaches_of_play (T := currentObjects)
    ([.event .start, .drain .ok 6] : List (Move server)) bindsRole
    (by decide +kernel : (play currentObjects sampleReconcile _ ⟨sampleWorld 3, none⟩).any _ = true)
  obtain ⟨hauth, hmodest⟩ := operator_is_authorized (List.mem_cons_self ..) (.refl _) hs
  exact ⟨s, hs, hbinds, hauth, hmodest fun k key o ho => by cases ho⟩

/-- The sample cluster is torn down and scaled up again, and the cache still has the
Role of before. -/
def lateRole : List (Move server) :=
  downAndUp ++
    [.event .start, .drain .ok 3, .event (.call (.stale 12 [])), .event (.call .ok)]

set_option maxRecDepth 100000 in
/-- A late cache lets the operator ask for what it is refused: the RoleBinding of a
Role that is gone. -/
theorem operator_can_be_refused :
    ∃ s : State server Result, Reaches Terms.any sampleReconcile ⟨sampleWorld 3, none⟩ s ∧
      ∃ c, pendingCall s = some c ∧ authorized managerRules s.world.store c = false := by
  obtain ⟨s, hs, htest⟩ := exists_reaches_of_play (T := Terms.any) lateRole
    (fun s : State server Result =>
      (pendingCall s).any fun c => !authorized managerRules s.world.store c)
    (by decide +kernel : (play Terms.any sampleReconcile _ ⟨sampleWorld 3, none⟩).any _ = true)
  obtain ⟨c, hc, hno⟩ := (Option.any_eq_true _ _).mp htest
  exact ⟨s, hs, c, hc, by simpa using hno⟩

end RedkeyOperator.Protocol

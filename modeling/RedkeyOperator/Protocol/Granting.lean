import RedkeyOperator.Protocol.Equipped

/-! # The Role comes before its RoleBinding

A small machine beside those of `Trace`, `Upkeep` and `Provision`. It keeps to one
question: has Reconcile seen or written the Role with the rules Robin needs, and
has it seen a RoleBinding that refers to it? Whatever was stored before, a
RoleBinding is created or patched only then. -/
namespace RedkeyOperator.Protocol
open RedkeyOperator.Api RedkeyOperator.Kube RedkeyOperator.Interleave RedkeyOperator.Controller
open Automaton (Follows)

variable {T : Terms server} {α β : Type} {w₀ w w' : World} {st st' : Store} {cluster : Redkey}

/-! ## The machine -/

/-- A write of Robin's object of this kind. -/
inductive WritesKind (k : Kind) : Write → Prop where
  | create (o : Obj k) : WritesKind k (.create k o)
  | patch (o : Obj k) : WritesKind k (.patch k o)
  | delete (key : NamespacedName) : WritesKind k (.delete k key)

inductive Grant where
  | unknown
  /-- The Role is stored, with the rules Robin needs. -/
  | role (cluster : Redkey)
  /-- And so is a RoleBinding that refers to it. -/
  | binding (cluster : Redkey)

inductive GrantNext : Grant → (c : Call) → Except ApiError (Reply c) → Grant → Prop where
  | pass {g : Grant} {c : Call} {r : Except ApiError (Reply c)} (h : ¬ RobinWrite c) :
      GrantNext g c r g
  | other {g : Grant} {k : Kind} {a : Write} {r : Except ApiError Unit} (ha : WritesKind k a)
      (hk : k = .serviceAccount ∨ k = .deployment) : GrantNext g (.write a) r g
  | create {g : Grant} {cluster : Redkey} :
      GrantNext g (.write (.create .role (desiredRole cluster))) (.ok ()) (.role cluster)
  | patch {g : Grant} {cluster : Redkey} :
      GrantNext g (.write (.patch .role (desiredRole cluster))) (.ok ()) (.role cluster)
  | createFailed {g : Grant} {cluster : Redkey} {e : ApiError} :
      GrantNext g (.write (.create .role (desiredRole cluster))) (.error e) .unknown
  | patchFailed {g : Grant} {cluster : Redkey} {e : ApiError} :
      GrantNext g (.write (.patch .role (desiredRole cluster))) (.error e) .unknown
  | found {g : Grant} {cluster : Redkey} {existing : Role}
      (h : existing.rules = desiredRobinRules) :
      GrantNext g (.get .role (robinKey cluster)) (.ok existing) (.role cluster)
  | bind {cluster : Redkey} {r : Except ApiError Unit} :
      GrantNext (.role cluster) (.write (.create .roleBinding (desiredRoleBinding cluster))) r
        (.role cluster)
  | unbind {cluster : Redkey} {r : Except ApiError Unit} :
      GrantNext (.role cluster) (.write (.delete .roleBinding (robinKey cluster))) r
        (.role cluster)
  | foundBinding {cluster : Redkey} {existing : RoleBinding}
      (h : existing.roleRef = (desiredRoleBinding cluster).roleRef) :
      GrantNext (.role cluster) (.get .roleBinding (robinKey cluster)) (.ok existing)
        (.binding cluster)
  | rebind {cluster : Redkey} {r : Except ApiError Unit} :
      GrantNext (.binding cluster) (.write (.patch .roleBinding (desiredRoleBinding cluster))) r
        (.binding cluster)
  | delete {g : Grant} {k : Kind} {key : NamespacedName} {r : Except ApiError Unit} :
      GrantNext g (.write (.delete k key)) r .unknown

def granting : Automaton api := ⟨Grant, .unknown, .unknown, fun _ _ => False, GrantNext⟩

/-! ## Reconcile follows it -/

/-- The program can be followed from any point. -/
def Grants (m : Act α) : Prop :=
  ∀ g, granting.Follows (fun _ _ => True) (fun _ _ => True) m g

theorem Grants.bind {m : Act α} {f : α → Act β} (hm : Grants m) (hf : ∀ a, Grants (f a)) :
    Grants (m.bind f) := fun g => Follows.bind (hm g) fun a q _ => hf a q

/-- Calls that write no Role and no RoleBinding, though they may delete one. -/
def Neutral : Call → Prop
  | .write (.create k _) | .write (.patch k _) => k = .serviceAccount ∨ k = .deployment
  | _ => True

theorem Neutral.next {c : Call} (h : Neutral c) (g : Grant) (r : Except ApiError (Reply c)) :
    ∃ g', GrantNext g c r g' := by
  cases c with
  | write a =>
    cases a with
    | create k o => exact ⟨g, .other (.create o) h⟩
    | patch k o => exact ⟨g, .other (.patch o) h⟩
    | delete k key => exact ⟨_, .delete⟩
    | _ => exact ⟨g, .pass id⟩
  | _ => exact ⟨g, .pass id⟩

theorem neutral_of_spared {c : Call} (h : ¬ RobinWrite c) : Neutral c := by
  cases c with
  | write a =>
    cases a with
    | create k o => exact absurd trivial h
    | patch k o => exact absurd trivial h
    | _ => trivial
  | _ => trivial

theorem grants_neutral {m : Act α} (hm : m.Calls Neutral) : Grants m :=
  Follows.roam (A := granting) hm fun g _ r h => h.next g r

theorem grants_spared {m : Act α} (hm : m.Calls fun c => ¬ RobinWrite c) : Grants m :=
  grants_neutral (hm.mono fun _ => neutral_of_spared)

theorem grants_stage {m : Act α} (hm : Grants m) (name : String) : Grants (stage name m) := by
  intro g
  refine Follows.attempt_bind (hm g) (fun a q _ => .ret trivial) fun e q _ => ?_
  exact Follows.bind (grants_spared (m := count _) (.request id) q) fun _ _ _ => .fail trivial

/-- Once this is done, the Role is there. -/
theorem follows_ensureRole (g : Grant) :
    granting.Follows (fun _ q => q = .role cluster) (fun _ _ => True) (ensureRole cluster) g := by
  have hpatch (g : Grant) : granting.Follows (fun _ q => q = .role cluster) (fun _ _ => True)
      (writeOrFail (.patch .role (desiredRole cluster))) g :=
    Follows.request (fun _ => ⟨_, .patch, rfl⟩) fun _ => ⟨_, .patchFailed, trivial⟩
  refine Follows.call fun r => ?_
  cases r with
  | error e =>
    refine ⟨g, .pass id, ?_⟩
    cases e with
    | notFound =>
      exact Follows.request (fun _ => ⟨_, .create, rfl⟩) fun _ => ⟨_, .createFailed, trivial⟩
    | _ => exact .fail trivial
  | ok existing =>
    change Role at existing
    by_cases h : existing.rules = desiredRobinRules
    · refine ⟨_, .found h, ?_⟩
      show granting.Follows _ _ (if _ then _ else _) _
      split
      · exact hpatch _
      · exact .ret rfl
    · refine ⟨g, .pass id, ?_⟩
      show granting.Follows _ _ (if (existing.rules != desiredRobinRules || _) then _ else _) _
      rw [if_pos (by simp [h])]
      exact hpatch _

theorem follows_ensureRoleBinding :
    granting.Follows (fun _ _ => True) (fun _ _ => True) (ensureRoleBinding cluster)
      (.role cluster) := by
  have hcreate : granting.Follows (fun _ _ => True) (fun _ _ => True)
      (writeOrFail (.create .roleBinding (desiredRoleBinding cluster))) (.role cluster) :=
    Follows.request (fun _ => ⟨_, .bind, trivial⟩) fun _ => ⟨_, .bind, trivial⟩
  refine Follows.call fun r => ?_
  cases r with
  | error e =>
    refine ⟨_, .pass id, ?_⟩
    cases e with
    | notFound => exact hcreate
    | _ => exact .fail trivial
  | ok existing =>
    change RoleBinding at existing
    by_cases h : existing.roleRef = (desiredRoleBinding cluster).roleRef
    · refine ⟨_, .foundBinding h, ?_⟩
      show granting.Follows _ _ (if existing.roleRef != (desiredRoleBinding cluster).roleRef then _
        else _) _
      rw [if_neg (by simpa using h)]
      split
      · exact Follows.request (fun _ => ⟨_, .rebind, trivial⟩) fun _ => ⟨_, .rebind, trivial⟩
      · exact .ret trivial
    · -- a RoleBinding of another Role is replaced, and the Role is still there
      refine ⟨_, .pass id, ?_⟩
      show granting.Follows _ _ (if existing.roleRef != (desiredRoleBinding cluster).roleRef then _
        else _) _
      rw [if_pos (by simpa using h)]
      refine Follows.seq (q := Grant.role cluster) ?_ fun _ => hcreate
      exact Follows.request (fun _ => ⟨_, .unbind, rfl⟩) fun _ => ⟨_, .unbind, trivial⟩

theorem grants_ensureRBAC (cluster : Redkey) : Grants (ensureRBAC cluster) := by
  have haccount : Grants (ensureServiceAccount cluster) :=
    grants_neutral (calls_ensure trivial (.inl rfl) (.inl rfl))
  refine haccount.bind fun _ g => ?_
  exact Follows.seq (follows_ensureRole g) fun _ => follows_ensureRoleBinding

theorem grants_ensureRobinDeployment (cluster : Redkey) : Grants (ensureRobinDeployment cluster) :=
  grants_neutral
    (calls_ensureRobinDeployment trivial (.inr rfl) (fun _ _ => .inr rfl) fun _ => trivial)

/-- A finished scale-down only deletes. -/
theorem grants_finishScaleToZero (cluster : Redkey) : Grants (finishScaleToZero cluster) := by
  have hcalls : (finishScaleToZero cluster).Calls (Emits fun _ => False) := emits_finishScaleToZero
  refine grants_neutral (hcalls.mono fun c hc => ?_)
  cases hc with
  | free hf =>
    cases c with
    | write a => cases hf
    | _ => trivial
  | create h | patch h | patchDeployment h => exact h.elim
  | _ => trivial

theorem grants_reconcileScaleToZero (cluster : Redkey) : Grants (reconcileScaleToZero cluster) := by
  have hrobin {m : Act Redkey} (hm : m.Calls fun c => ¬ RobinWrite c) :
      Grants ((ensureRBAC cluster).bind fun _ => (ensureRobinDeployment cluster).bind fun _ => m) :=
    (grants_ensureRBAC cluster).bind fun _ =>
      (grants_ensureRobinDeployment cluster).bind fun _ => grants_spared hm
  refine Grants.bind (grants_spared (calls_listConfigs id)) fun configs => ?_
  split
  · exact grants_spared spares_updateStatusScaledToZero
  · split
    · exact hrobin (Prog.Calls.bind (calls_createNewConfig id fun _ => id) fun _ => trivial)
    · split
      · exact grants_finishScaleToZero cluster
      · exact hrobin (calls_aggregateStatus id id (fun _ => id) _)

theorem grants_reconcileRunning (cluster : Redkey) : Grants (reconcileRunning cluster) := by
  refine (grants_stage (grants_ensureRBAC cluster) _).bind fun _ => ?_
  refine (grants_stage (grants_ensureRobinDeployment cluster) _).bind fun _ => grants_spared ?_
  refine Prog.Calls.bind (spares_ensureConfig cluster) fun configs => ?_
  exact Prog.Calls.bind (spares_settleConfigs cluster configs) fun _ => .request id

theorem grants_reconcile (r : RedkeyReconciler) (req : NamespacedName) :
    Grants (reconcile r req) := by
  refine Grants.bind (grants_spared (.perform id)) fun reply => ?_
  cases reply with
  | error e =>
    cases e with
    | notFound => exact grants_spared (Prog.Calls.bind (.request id) fun _ => trivial)
    | _ => exact grants_stage (fun _ => .fail trivial) _
  | ok cluster =>
    simp only
    split
    · refine (grants_stage (grants_reconcileScaleToZero cluster) _).bind fun _ => ?_
      exact grants_spared (Prog.Calls.bind (.request id) fun _ => trivial)
    · exact (grants_reconcileRunning cluster).bind fun _ _ => .ret trivial

/-! ## The machine and the store -/

/-- The Role of the cluster is stored, with the rules Robin needs. -/
def HasRole (cluster : Redkey) (st : Store) : Prop :=
  ∃ role : Role, st.robin .role (robinKey cluster) = some role ∧ role.rules = desiredRobinRules

/-- The RoleBinding is stored and refers to it. -/
def HasBinding (cluster : Redkey) (st : Store) : Prop :=
  ∃ binding : RoleBinding, st.robin .roleBinding (robinKey cluster) = some binding ∧
    binding.roleRef = (desiredRoleBinding cluster).roleRef

def Grant.Holds : Grant → Store → Prop
  | .unknown, _ => True
  | .role cluster, st => HasRole cluster st
  | .binding cluster, st => HasRole cluster st ∧ HasBinding cluster st

theorem HasRole.of_robin (h : HasRole cluster st)
    (hr : st'.robin .role (robinKey cluster) = st.robin .role (robinKey cluster)) :
    HasRole cluster st' := by
  obtain ⟨role, hrole, hrules⟩ := h
  exact ⟨role, hr.trans hrole, hrules⟩

theorem HasBinding.of_robin (h : HasBinding cluster st)
    (hb : st'.robin .roleBinding (robinKey cluster) = st.robin .roleBinding (robinKey cluster)) :
    HasBinding cluster st' := by
  obtain ⟨binding, hbinding, href⟩ := h
  exact ⟨binding, hb.trans hbinding, href⟩

theorem Grant.Holds.of_robin {g : Grant} (h : g.Holds st)
    (hr : ∀ key, st'.robin .role key = st.robin .role key)
    (hb : ∀ key, st'.robin .roleBinding key = st.robin .roleBinding key) : g.Holds st' := by
  cases g with
  | unknown => trivial
  | role cluster => exact HasRole.of_robin h (hr _)
  | binding cluster => exact ⟨h.1.of_robin (hr _), h.2.of_robin (hb _)⟩

/-- A write of one kind leaves the objects of the others as they are. -/
theorem answer_robin_of_ne {k k' : Kind} {a : Write} {o : Outcome} {r : Except ApiError Unit}
    (ha : WritesKind k a) (hk : k' ≠ k) (hw : answer (.write a) o w = some (r, w'))
    (key : NamespacedName) : w'.store.robin k' key = w.store.robin k' key := by
  obtain ⟨rfl, -⟩ | ⟨st, hst, rfl, -⟩ := answer_write hw
  · rfl
  · cases ha with
    | create x =>
      obtain ⟨-, rfl⟩ := apply_create hst
      exact Store.robin_setRobin_of_ne _ _ (.inl hk)
    | patch x =>
      obtain ⟨stored, -, rfl⟩ := apply_patch hst
      exact Store.robin_setRobin_of_ne _ _ (.inl hk)
    | delete key =>
      obtain rfl := apply_delete hst
      exact Store.robin_setRobin_of_ne _ _ (.inl hk)

/-- A patch keeps the RoleRef. -/
theorem HasBinding.patch {o : Outcome} {r : Except ApiError Unit} (h : HasBinding cluster w.store)
    (hw : answer (.write (.patch .roleBinding (desiredRoleBinding cluster))) o w = some (r, w')) :
    HasBinding cluster w'.store := by
  obtain ⟨rfl, -⟩ | ⟨st, hst, rfl, -⟩ := answer_write hw
  · exact h
  · obtain ⟨binding, hbinding, href⟩ := h
    obtain ⟨stored, hs, rfl⟩ := apply_patch hst
    obtain rfl := Option.some.inj (hbinding.symm.trans hs)
    exact ⟨_, Store.robin_setRobin_self _ _ _ _, href⟩

theorem Grant.Holds.next {g g' : Grant} {c : Call} {o : Outcome} {r : Except ApiError (Reply c)}
    (h : g.Holds w.store) (hn : GrantNext g c r g') (ok : currentObjects.call c o w = true)
    (hw : answer c o w = some (r, w')) : g'.Holds w'.store := by
  have hne : Kind.role ≠ .roleBinding := nofun
  cases hn with
  | pass hc =>
    have hr := answer_robin_eq hc hw
    exact h.of_robin (fun _ => by rw [hr]) fun _ => by rw [hr]
  | other ha hk =>
    refine h.of_robin (answer_robin_of_ne ha ?_ hw) (answer_robin_of_ne ha ?_ hw)
    · rcases hk with rfl | rfl <;> exact nofun
    · rcases hk with rfl | rfl <;> exact nofun
  | create =>
    obtain ⟨st, hst, rfl⟩ := answer_write_ok hw
    obtain ⟨-, rfl⟩ := apply_create hst
    exact ⟨_, Store.robin_setRobin_self _ _ _ _, rfl⟩
  | patch =>
    obtain ⟨st, hst, rfl⟩ := answer_write_ok hw
    obtain ⟨stored, -, rfl⟩ := apply_patch hst
    exact ⟨_, Store.robin_setRobin_self _ _ _ _, rfl⟩
  | found hrules =>
    obtain ⟨hrole, hst⟩ := get_currentObjects ok hw
    exact ⟨_, hst ▸ hrole, hrules⟩
  | bind => exact HasRole.of_robin h (answer_robin_of_ne (.create _) hne hw _)
  | unbind => exact HasRole.of_robin h (answer_robin_of_ne (.delete _) hne hw _)
  | foundBinding href =>
    obtain ⟨hbinding, hst⟩ := get_currentObjects ok hw
    refine ⟨?_, _, hst ▸ hbinding, href⟩
    rw [hst]
    exact h
  | rebind => exact ⟨h.1.of_robin (answer_robin_of_ne (.patch _) hne hw _), h.2.patch hw⟩
  | createFailed | patchFailed | delete => trivial

/-- What the machine knows is so, in every run in which Robin's objects are read
from the current store. -/
theorem holds_of_run {g : Grant} (hT : T.Implies currentObjects)
    (h : granting.Run (M := server) T w₀ g w) : g.Holds w.store := by
  refine h.invariant (A := granting) (M := server) (G := fun g w => Grant.Holds g (World.store w))
    trivial ?_ ?_ ?_ ?_
  · intro g e w w' ih _ he
    have hr : w'.store.robin = w.store.robin := env_robin_eq he
    exact Grant.Holds.of_robin ih (fun _ => by rw [hr]) fun _ => by rw [hr]
  · exact fun _ _ _ => trivial
  · exact fun _ _ _ _ hq => hq.elim
  · intro g g' w w' c o r ih hn ok hw
    exact Grant.Holds.next ih hn (hT.call c o w ok) hw

end RedkeyOperator.Protocol

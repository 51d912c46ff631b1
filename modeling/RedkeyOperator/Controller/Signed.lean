import RedkeyOperator.Controller.Calls
import RedkeyOperator.Controller.Pure
import RedkeyOperator.Interleave.Parallel
import RedkeyOperator.Kube.Names

/-! # Where configs, statuses and metrics come from

A config that Reconcile sends is made from a Redkey that it has read, a status that
it writes is made from a Redkey that it has read and a config that it has listed,
and the status that it shows in the metrics is one that it has read or written. `G`
are the versions of the store. -/
namespace RedkeyOperator.Controller
open RedkeyOperator.Api RedkeyOperator.Kube RedkeyOperator.Interleave

variable {α : Type} {G : Store → Prop} {a : NamespacedName} {cluster : Redkey}

def HasRead (G : Store → Prop) (a : NamespacedName) (rk : Redkey) : Prop :=
  ∃ st, G st ∧ st.redkeys a = some rk

def HasListed (G : Store → Prop) (a : NamespacedName) (c : RedkeyConfig) : Prop :=
  ∃ st, G st ∧ c ∈ st.configsOf clusterLabel a.namespace_ a.name

/-- A status that the Redkey has had. -/
def HasHad (G : Store → Prop) (a : NamespacedName) (status : RedkeyStatus) : Prop :=
  ∃ rk, HasRead G a rk ∧ rk.status = status

/-- Calls that carry what was read. -/
def Carries : Call → Prop
  | .write (.createConfig _) | .write (.updateStatus _) => True
  | .recordMetrics _ _ | .deleteMetrics _ => True
  | _ => False

inductive Signed (G : Store → Prop) (a : NamespacedName) : Call → Prop where
  | createConfig {rk : Redkey} (h : HasRead G a rk) (seq : Nat) :
      Signed G a (.write (.createConfig (newConfig rk seq)))
  | aggregate {latest : Redkey} {active : RedkeyConfig} (h : HasRead G a latest)
      (ha : HasListed G a active) (now : Time) (observedGeneration : Nat) :
      Signed G a (.write (.updateStatus
        { latest with status := aggregatedStatus now latest active observedGeneration }))
  | scaledToZero {rk : Redkey} (h : HasRead G a rk) (now : Time) :
      Signed G a (.write (.updateStatus { rk with status := scaledToZeroStatus now rk }))
  | recordMetrics {rk : Redkey} {active : Option RedkeyConfig} (hk : rk.key = a)
      (h : HasHad G a rk.status) (ha : ∀ c ∈ active, HasListed G a c) :
      Signed G a (.recordMetrics rk active)
  | deleteMetrics {st : Store} (h : G st) (hn : st.redkeys a = none) :
      Signed G a (.deleteMetrics a)
  | other {c : Call} (h : ¬ Carries c) : Signed G a c

/-- What is read is in one of the versions, and so is a status that was accepted. -/
def Informed (G : Store → Prop) : (c : Call) → Except ApiError (Reply c) → Prop
  | .getRedkey key, .ok (rk : Redkey) => HasRead G key rk ∧ rk.key = key
  | .getRedkey key, .error .notFound => ∃ st, G st ∧ st.redkeys key = none
  | .listConfigs ns name, .ok (items : List RedkeyConfig) => ∀ c ∈ items, HasListed G ⟨ns, name⟩ c
  | .write (.updateStatus rk), .ok _ => HasHad G rk.key rk.status
  | _, _ => True

/-- The API server answers out of its versions. -/
theorem informed_of_answer {w w' : World} {c : Call} {o : Outcome}
    {r : Except ApiError (Reply c)} (hn : w'.Named) (hG : ∀ st ∈ w'.history, G st)
    (hans : answer c o w = some (r, w')) : Informed G c r := by
  have hmono (st : Store) (hst : st ∈ w.history) : st ∈ w'.history := (answer_extends hans).mono hst
  cases c with
  | getRedkey key =>
    obtain ⟨rfl, -⟩ | ⟨i, st, hv, rfl, -⟩ := answer_getRedkey hans
    · trivial
    · have hst := hmono st (view_mem hv)
      cases hrk : st.redkeys key with
      | none => exact ⟨st, hG st hst, hrk⟩
      | some rk => exact ⟨⟨st, hG st hst, hrk⟩, hn st hst key rk hrk⟩
  | listConfigs ns cluster =>
    obtain ⟨rfl, -⟩ | ⟨i, st, items, hv, hi, rfl, -⟩ := answer_listConfigs hans
    · trivial
    · exact fun c hc => ⟨st, hG st (hmono st (view_mem hv)), hi.mem_iff.mp hc⟩
  | write x =>
    cases x with
    | updateStatus rk =>
      cases r with
      | error e => trivial
      | ok u =>
        obtain ⟨st, hx, rfl⟩ := answer_write_ok hans
        obtain ⟨cur, hcur, -, rfl⟩ := apply_updateStatus hx
        have hkey : cur.key = rk.key := hn _ (hmono _ w.store_mem_history) _ _ hcur
        refine ⟨cur.withStatus rk.status, ⟨_, hG _ (World.store_mem_history _), ?_⟩, rfl⟩
        rw [← hkey]
        exact Function.update_self ..
    | _ => trivial
  | _ => trivial

/-- The caller's copy of the Redkey, with a status that it has had. -/
structure InSync (G : Store → Prop) (a : NamespacedName) (rk : Redkey) : Prop where
  key : rk.key = a
  status : HasHad G a rk.status

/-- A program that signs what it writes and returns what satisfies `Q`. -/
abbrev Signs (G : Store → Prop) (a : NamespacedName) (Q : α → Prop) : Act α → Prop :=
  Prog.Within (S := api) (Signed G a) (Informed G) Q

theorem signs_of_calls {m : Act α} (h : m.Calls fun c => ¬ Carries c) :
    Signs G a (fun _ => True) m := .of_calls (h.mono fun _ => .other)

theorem signs_stage {name : String} {m : Act α} {Q : α → Prop} (hm : Signs G a Q m) :
    Signs G a Q (stage name m) := by
  refine Prog.Within.attempt_bind hm (fun x hx => hx) fun e => ?_
  exact Prog.Within.bind (signs_of_calls (.request id)) fun _ _ => trivial

theorem signs_deleteIgnoringNotFound {w : Write} (hw : ¬ Carries (.write w)) :
    Signs G a (fun _ => True) (deleteIgnoringNotFound w) := by
  refine Prog.Within.bind (signs_of_calls (.perform hw)) fun r _ => ?_
  cases r with
  | ok u => trivial
  | error e => cases e <;> trivial

theorem signs_deleteConfigs (configs : List RedkeyConfig) :
    Signs G a (fun _ => True) (deleteConfigs configs) := by
  induction configs with
  | nil => trivial
  | cons c cs ih => exact Prog.Within.bind (signs_deleteIgnoringNotFound id) fun _ _ => ih

/-- The configs that are kept are among those given. -/
theorem signs_deleteOlder {P : RedkeyConfig → Prop} {older kept : List RedkeyConfig}
    (ho : ∀ c ∈ older, P c) (hk : ∀ c ∈ kept, P c) :
    Signs G a (fun res => ∀ c ∈ res.1, P c) (deleteOlder older kept) := by
  induction older with
  | nil => exact hk
  | cons c cs ih =>
    have ih := ih fun d hd => ho d (List.mem_cons_of_mem c hd)
    refine Prog.Within.bind (Q := fun _ => True) (signs_of_calls (.perform id)) fun r _ => ?_
    cases r with
    | ok u => exact Prog.Within.bind (signs_of_calls (.request id)) fun _ _ => ih
    | error e =>
      cases e with
      | notFound => exact ih
      | _ =>
        intro d hd
        rcases List.mem_append.mp hd with hd | hd
        · exact ho d hd
        · exact hk d hd

theorem signs_retryOnConflict {fn : Act α} {Q : α → Prop} (h : Signs G a Q fn) (steps : Nat) :
    Signs G a Q (retryOnConflict steps fn) := by
  induction steps with
  | zero => trivial
  | succ n ih =>
    refine Prog.Within.attempt_bind h (fun _ hx => hx) fun e => ?_
    cases e with
    | conflict => exact ih
    | _ => trivial

theorem signs_ensureRBAC : Signs G a (fun _ => True) (ensureRBAC cluster) :=
  signs_of_calls (calls_ensureRBAC (fun _ => id) (fun _ _ _ _ => id) (fun _ _ _ _ => id) id)

theorem signs_ensureRobinDeployment : Signs G a (fun _ => True) (ensureRobinDeployment cluster) :=
  signs_of_calls (calls_ensureRobinDeployment id id (fun _ _ => id) fun _ => id)

theorem signs_createNewConfig (hr : HasRead G a cluster) (highest : Option RedkeyConfig) :
    Signs G a (fun _ => True) (createNewConfig cluster highest) := by
  refine Prog.Within.bind (Prog.Within.perform (S := api) (c := .write _) (.createConfig hr _))
    fun r _ => ?_
  cases r with
  | ok u => exact signs_of_calls (.request id)
  | error e => cases e <;> trivial

section
variable (hk : cluster.key = a)
include hk

theorem signs_listConfigs :
    Signs G a (fun configs => ∀ c ∈ configs, HasListed G a c) (listConfigs cluster) := by
  subst hk
  refine Prog.Within.bind (Prog.Within.request (S := api)
    (c := .listConfigs cluster.key.namespace_ cluster.key.name) (.other id)) fun items hitems => ?_
  exact fun c hc => hitems c (mem_sortBySequence.mp hc)

theorem signs_tryAggregateStatus {active : RedkeyConfig} (ha : HasListed G a active) :
    Signs G a (HasHad G a) (tryAggregateStatus cluster active) := by
  subst hk
  refine Prog.Within.bind (Prog.Within.request (S := api) (c := .getRedkey cluster.key)
    (.other id)) fun latest hlatest => ?_
  obtain ⟨hlatest, hkey⟩ := hlatest
  refine Prog.Within.bind (Prog.Within.request (S := api) (c := .now) (.other id)) fun now _ => ?_
  refine Prog.Within.bind (Prog.Within.perform (S := api) (c := .write (.updateStatus _))
    (.aggregate hlatest ha now _)) fun r hr => ?_
  cases r with
  | error e => trivial
  | ok u =>
    rw [← hkey]
    exact hr

variable (hr : HasRead G a cluster)
include hr

theorem inSync_of_read : InSync G a cluster := ⟨hk, cluster, hr, rfl⟩

theorem signs_aggregateStatus {configs : List RedkeyConfig}
    (h : ∀ c ∈ configs, HasListed G a c) :
    Signs G a (InSync G a) (aggregateStatus cluster configs) := by
  unfold aggregateStatus
  split
  · exact inSync_of_read hk hr
  · rename_i active hactive
    have ha := h active (selectActiveConfig_mem hactive)
    exact Prog.Within.bind (signs_retryOnConflict (signs_tryAggregateStatus hk ha) _)
      fun status hstatus => ⟨hk, hstatus⟩

theorem signs_settleConfigs {configs : List RedkeyConfig} (h : ∀ c ∈ configs, HasListed G a c) :
    Signs G a (fun res => InSync G a res.1 ∧ ∀ c ∈ res.2, HasListed G a c)
      (settleConfigs cluster configs) := by
  unfold settleConfigs
  split
  · exact ⟨inSync_of_read hk hr, h⟩
  · refine Prog.Within.bind (signs_deleteOlder (fun c hc => h c (List.mem_of_mem_take hc))
      fun c hc => h c (List.mem_of_mem_drop hc)) fun res hres => ?_
    obtain ⟨kept, err⟩ := res
    cases err with
    | some e => exact signs_stage trivial
    | none =>
      exact Prog.Within.bind (signs_stage (signs_aggregateStatus hk hr hres)) fun _ hrk => ⟨hrk, hres⟩

theorem signs_ensureConfig :
    Signs G a (fun configs => ∀ c ∈ configs, HasListed G a c) (ensureConfig cluster) := by
  refine Prog.Within.bind (signs_stage (signs_listConfigs hk)) fun configs hconfigs => ?_
  split
  · exact Prog.Within.bind (signs_stage (signs_createNewConfig hr _)) fun _ _ =>
      signs_stage (signs_listConfigs hk)
  · exact hconfigs

theorem signs_updateStatusScaledToZero :
    Signs G a (InSync G a) (updateStatusScaledToZero cluster) := by
  subst hk
  refine Prog.Within.bind (Prog.Within.request (S := api) (c := .now) (.other id)) fun now _ => ?_
  exact Prog.Within.bind (Prog.Within.request (S := api) (c := .write (.updateStatus _))
    (.scaledToZero hr now)) fun _ hstatus => ⟨rfl, hstatus⟩

theorem signs_finishScaleToZero : Signs G a (InSync G a) (finishScaleToZero cluster) := by
  have hdelete (k : Kind) :
      Signs G a (fun _ => True) (deleteIgnoringNotFound (.delete k (robinKey cluster))) :=
    signs_deleteIgnoringNotFound id
  have hrbac : Signs G a (fun _ => True) (deleteRBAC cluster) :=
    Prog.Within.bind (hdelete _) fun _ _ => Prog.Within.bind (hdelete _) fun _ _ => hdelete _
  refine Prog.Within.bind (hdelete .deployment) fun _ _ => Prog.Within.bind hrbac fun _ _ => ?_
  refine Prog.Within.bind (Q := fun _ => True) ?_ fun _ _ => signs_updateStatusScaledToZero hk hr
  exact Prog.Within.bind (signs_of_calls (.request id)) fun items _ => signs_deleteConfigs items

theorem signs_reconcileScaleToZero : Signs G a (InSync G a) (reconcileScaleToZero cluster) := by
  refine Prog.Within.bind (signs_listConfigs hk) fun configs hconfigs => ?_
  split
  · exact signs_updateStatusScaledToZero hk hr
  · split
    · refine Prog.Within.bind signs_ensureRBAC fun _ _ => ?_
      refine Prog.Within.bind signs_ensureRobinDeployment fun _ _ => ?_
      exact Prog.Within.bind (signs_createNewConfig hr _) fun _ _ => inSync_of_read hk hr
    · split
      · exact signs_finishScaleToZero hk hr
      · refine Prog.Within.bind signs_ensureRBAC fun _ _ => ?_
        refine Prog.Within.bind signs_ensureRobinDeployment fun _ _ => ?_
        exact signs_aggregateStatus hk hr hconfigs

theorem signs_reconcileRunning : Signs G a (fun _ => True) (reconcileRunning cluster) := by
  refine Prog.Within.bind (signs_stage signs_ensureRBAC) fun _ _ => ?_
  refine Prog.Within.bind (signs_stage signs_ensureRobinDeployment) fun _ _ => ?_
  refine Prog.Within.bind (signs_ensureConfig hk hr) fun configs hconfigs => ?_
  refine Prog.Within.bind (signs_settleConfigs hk hr hconfigs) fun res hres => ?_
  obtain ⟨hrk, hlisted⟩ := hres
  refine (Prog.Within.request (S := api) (c := .recordMetrics _ _)
    (.recordMetrics hrk.key hrk.status fun c hc => ?_)).mono fun _ _ => trivial
  exact hlisted c (selectActiveConfig_mem hc)

end

theorem signs_reconcile (r : RedkeyReconciler) (a : NamespacedName) :
    Signs G a (fun _ => True) (reconcile r a) := by
  refine Prog.Within.bind (Prog.Within.perform (S := api) (c := .getRedkey a) (.other id))
    fun reply hreply => ?_
  cases reply with
  | error e =>
    cases e with
    | notFound =>
      obtain ⟨st, hst, hn⟩ := hreply
      exact Prog.Within.bind (Prog.Within.request (S := api) (c := .deleteMetrics a)
        (.deleteMetrics hst hn)) fun _ _ => trivial
    | _ => exact signs_stage trivial
  | ok cluster =>
    obtain ⟨hr, hk⟩ := hreply
    simp only
    split
    · refine Prog.Within.bind (signs_stage (signs_reconcileScaleToZero hk hr)) fun rk hrk => ?_
      exact Prog.Within.bind (Prog.Within.request (S := api) (c := .recordMetrics rk none)
        (.recordMetrics hrk.key hrk.status fun c hc => by cases hc)) fun _ _ => trivial
    · exact Prog.Within.bind (signs_reconcileRunning hk hr) fun _ _ => trivial

end RedkeyOperator.Controller

import RedkeyOperator.Controller.Calls
import RedkeyOperator.Controller.Ensure
import RedkeyOperator.Interleave.Parallel

/-! # The calls of a Reconcile

What Reconcile can ask of the API server, whatever it is answered. What it
creates it makes from the Redkey that it has read, and a patch carries what a new
object would have. `G` is what is known of the Redkey when it is read. -/
namespace RedkeyOperator.Controller
open RedkeyOperator.Api RedkeyOperator.Kube RedkeyOperator.Interleave

/-- The Deployment that is sent to correct one with these annotations. -/
def sentDeployment (cluster : Redkey) (existing : StringMap) : Deployment :=
  let desired := buildDesiredRobinDeployment cluster
  { desired with metadata := { desired.metadata with
      annotations := preserveManagedAnnotations existing desired.metadata.annotations } }

inductive Emits (G : Redkey → Prop) : Call → Prop where
  | getRedkey (key : NamespacedName) : Emits G (.getRedkey key)
  | listConfigs (ns cluster : String) : Emits G (.listConfigs ns cluster)
  | free {c : Call} (h : Free c) : Emits G c
  | updateStatus (rk : Redkey) : Emits G (.write (.updateStatus rk))
  | createConfig {rk : Redkey} (h : G rk) (seq : Nat) :
      Emits G (.write (.createConfig (newConfig rk seq)))
  | deleteConfig (key : NamespacedName) : Emits G (.write (.deleteConfig key))
  | create {rk : Redkey} (h : G rk) (k : Kind) : Emits G (.write (.create k (desiredObject rk k)))
  | patch {rk : Redkey} (h : G rk) (k : Kind) : Emits G (.write (.patch k (desiredObject rk k)))
  | patchDeployment {rk : Redkey} (h : G rk) (existing : StringMap) :
      Emits G (.write (.patch .deployment (sentDeployment rk existing)))
  | delete (k : Kind) (key : NamespacedName) : Emits G (.write (.delete k key))

theorem Emits.mono {G H : Redkey → Prop} (hGH : ∀ rk, G rk → H rk) {c : Call} (h : Emits G c) :
    Emits H c := by
  cases h with
  | getRedkey key => exact .getRedkey key
  | listConfigs ns cluster => exact .listConfigs ns cluster
  | free h => exact .free h
  | updateStatus rk => exact .updateStatus rk
  | createConfig h seq => exact .createConfig (hGH _ h) seq
  | deleteConfig key => exact .deleteConfig key
  | create h k => exact .create (hGH _ h) k
  | patch h k => exact .patch (hGH _ h) k
  | patchDeployment h existing => exact .patchDeployment (hGH _ h) existing
  | delete k key => exact .delete k key

/-- The Redkey `req`, when it is read, is one of `G`. -/
def Reads (req : NamespacedName) (G : Redkey → Prop) :
    (c : Call) → Except ApiError (Reply c) → Prop
  | .getRedkey key, .ok (rk : Redkey) => key = req → G rk
  | _, _ => True

theorem reads_true {req : NamespacedName} (c : Call) (r : Except ApiError (Reply c)) :
    Reads req (fun _ => True) c r := by
  cases c with
  | getRedkey key =>
    cases r with
    | ok rk => exact fun _ => trivial
    | error e => trivial
  | _ => trivial

section
variable {G : Redkey → Prop} {cluster : Redkey}

/-! ## Configs and the status -/

theorem emits_stage {α : Type} {m : Act α} (hm : m.Calls (Emits G)) (name : String) :
    (stage name m).Calls (Emits G) := calls_stage hm (fun _ => .free trivial) name

theorem emits_listConfigs : (listConfigs cluster).Calls (Emits G) :=
  calls_listConfigs (.listConfigs _ _)

theorem emits_aggregateStatus (configs : List RedkeyConfig) :
    (aggregateStatus cluster configs).Calls (Emits G) :=
  calls_aggregateStatus (.getRedkey _) (.free trivial) .updateStatus configs

theorem emits_settleConfigs (configs : List RedkeyConfig) :
    (settleConfigs cluster configs).Calls (Emits G) := by
  unfold settleConfigs
  split
  · trivial
  · refine Prog.Calls.bind (calls_deleteOlder .deleteConfig (fun _ => .free trivial) _ _)
      fun res => ?_
    obtain ⟨kept, err⟩ := res
    cases err with
    | some e => exact emits_stage (m := .fail e) trivial _
    | none => exact Prog.Calls.bind (emits_stage (emits_aggregateStatus _) _) fun _ => trivial

variable (h : G cluster)
include h

theorem emits_createNewConfig (highest : Option RedkeyConfig) :
    (createNewConfig cluster highest).Calls (Emits G) :=
  calls_createNewConfig (.createConfig h _) fun _ => .free trivial

theorem emits_ensureConfig : (ensureConfig cluster).Calls (Emits G) := by
  refine Prog.Calls.bind (emits_stage emits_listConfigs _) fun configs => ?_
  split
  · exact Prog.Calls.bind (emits_stage (emits_createNewConfig h _) _)
      fun _ => emits_stage emits_listConfigs _
  · trivial

/-! ## Robin's objects -/

theorem emits_ensureRoleBinding : (ensureRoleBinding cluster).Calls (Emits G) := by
  refine Prog.Calls.bind (.perform (.free trivial)) fun r => ?_
  cases r with
  | error e =>
    cases e with
    | notFound => exact .request (.create h .roleBinding)
    | _ => trivial
  | ok existing =>
    simp only
    split
    · exact Prog.Calls.bind (.request (.delete _ _)) fun _ => .request (.create h .roleBinding)
    · split
      · exact .request (.patch h .roleBinding)
      · trivial

theorem emits_ensureRBAC : (ensureRBAC cluster).Calls (Emits G) := by
  refine Prog.Calls.bind ?_ fun _ => Prog.Calls.bind ?_ fun _ => emits_ensureRoleBinding h
  · exact calls_ensure (.free trivial) (.create h .serviceAccount) (.patch h .serviceAccount)
  · exact calls_ensure (.free trivial) (.create h .role) (.patch h .role)

theorem emits_ensureRobinDeployment : (ensureRobinDeployment cluster).Calls (Emits G) := by
  refine Prog.Calls.bind (.perform (.free trivial)) fun r => ?_
  cases r with
  | error e =>
    cases e with
    | notFound =>
      exact Prog.Calls.bind (.request (.create h .deployment)) fun _ => .request (.free trivial)
    | _ => trivial
  | ok existing =>
    simp only
    split
    · exact Prog.Calls.bind (.request (.patchDeployment h _)) fun _ => .request (.free trivial)
    · trivial

/-! ## Reconcile -/

omit h in
theorem emits_deleteIgnoringNotFound {a : Write} (ha : Emits G (.write a)) :
    (deleteIgnoringNotFound a).Calls (Emits G) := by
  refine Prog.Calls.bind (.perform ha) fun r => ?_
  cases r with
  | ok u => trivial
  | error e => cases e <;> trivial

omit h in
theorem emits_deleteConfigs (configs : List RedkeyConfig) :
    (deleteConfigs configs).Calls (Emits G) := by
  induction configs with
  | nil => trivial
  | cons c cs ih =>
    exact Prog.Calls.bind (emits_deleteIgnoringNotFound (.deleteConfig _)) fun _ => ih

omit h in
theorem emits_updateStatusScaledToZero : (updateStatusScaledToZero cluster).Calls (Emits G) :=
  Prog.Calls.bind (.request (.free trivial)) fun _ =>
    Prog.Calls.bind (.request (.updateStatus _)) fun _ => trivial

omit h in
theorem emits_finishScaleToZero : (finishScaleToZero cluster).Calls (Emits G) := by
  have hdelete (k : Kind) :
      (deleteIgnoringNotFound (.delete k (robinKey cluster))).Calls (Emits G) :=
    emits_deleteIgnoringNotFound (.delete _ _)
  have hrbac : (deleteRBAC cluster).Calls (Emits G) :=
    Prog.Calls.bind (hdelete _) fun _ => Prog.Calls.bind (hdelete _) fun _ => hdelete _
  refine Prog.Calls.bind (hdelete .deployment) fun _ => Prog.Calls.bind hrbac fun _ => ?_
  refine Prog.Calls.bind ?_ fun _ => emits_updateStatusScaledToZero
  exact Prog.Calls.bind (.request (.listConfigs _ _)) emits_deleteConfigs

theorem emits_reconcileScaleToZero : (reconcileScaleToZero cluster).Calls (Emits G) := by
  refine Prog.Calls.bind emits_listConfigs fun configs => ?_
  split
  · exact emits_updateStatusScaledToZero
  · split
    · refine Prog.Calls.bind (emits_ensureRBAC h) fun _ => ?_
      refine Prog.Calls.bind (emits_ensureRobinDeployment h) fun _ => ?_
      exact Prog.Calls.bind (emits_createNewConfig h _) fun _ => trivial
    · split
      · exact emits_finishScaleToZero
      · refine Prog.Calls.bind (emits_ensureRBAC h) fun _ => ?_
        refine Prog.Calls.bind (emits_ensureRobinDeployment h) fun _ => ?_
        exact emits_aggregateStatus _

theorem emits_reconcileRunning : (reconcileRunning cluster).Calls (Emits G) := by
  refine Prog.Calls.bind (emits_stage (emits_ensureRBAC h) _) fun _ => ?_
  refine Prog.Calls.bind (emits_stage (emits_ensureRobinDeployment h) _) fun _ => ?_
  refine Prog.Calls.bind (emits_ensureConfig h) fun configs => ?_
  exact Prog.Calls.bind (emits_settleConfigs configs) fun _ => .request (.free trivial)

end

theorem emits_reconcile (G : Redkey → Prop) (r : RedkeyReconciler) (req : NamespacedName) :
    (reconcile r req).Within (Emits G) (Reads req G) fun _ => True := by
  refine Prog.Within.bind (Prog.Within.perform (S := api) (.getRedkey req)) fun reply hreply => ?_
  cases reply with
  | error e =>
    refine .of_calls ?_
    cases e with
    | notFound => exact Prog.Calls.bind (.request (.free trivial)) fun _ => trivial
    | _ => exact emits_stage (m := .fail _) trivial _
  | ok cluster =>
    have h : G cluster := hreply rfl
    refine .of_calls ?_
    simp only
    split
    · refine Prog.Calls.bind (emits_stage (emits_reconcileScaleToZero h) _) fun _ => ?_
      exact Prog.Calls.bind (.request (.free trivial)) fun _ => trivial
    · exact Prog.Calls.bind (emits_reconcileRunning h) fun _ => trivial

/-! ## The objects that are there -/

/-- A property of every object of every Robin, under its kind and its name. -/
def RobinAll (P : (k : Kind) → NamespacedName → Obj k → Prop) (st : Store) : Prop :=
  ∀ k key o, st.robin k key = some o → P k key o

/-- It holds of what is made from a Redkey of `G`, and patches keep it. -/
structure Made (G : Redkey → Prop) (P : (k : Kind) → NamespacedName → Obj k → Prop) : Prop where
  desired : ∀ {rk : Redkey}, G rk → ∀ k, P k (robinKey rk) (desiredObject rk k)
  patched : ∀ {rk : Redkey}, G rk → ∀ k stored, P k (robinKey rk) stored →
    P k (robinKey rk) (patched stored (desiredObject rk k))
  deployment : ∀ {rk : Redkey}, G rk → ∀ (stored : Obj .deployment) existing,
    P .deployment (robinKey rk) stored →
      P .deployment (robinKey rk) (Kube.patched stored (sentDeployment rk existing))

theorem metadata_desiredObject (rk : Redkey) (k : Kind) :
    (desiredObject rk k).metadata.key = robinKey rk ∧
      (desiredObject rk k).metadata.owner = some rk.uid := by
  cases k <;> exact ⟨rfl, rfl⟩

section
variable {G : Redkey → Prop} {P : (k : Kind) → NamespacedName → Obj k → Prop} {st : Store}
  {w w' : World}

theorem RobinAll.setRobin (h : RobinAll P st) {k : Kind} {key : NamespacedName}
    {o : Option (Obj k)} (ho : ∀ x, o = some x → P k key x) : RobinAll P (st.setRobin k key o) := by
  intro k' key' x hx
  by_cases he : k' = k ∧ key' = key
  · obtain ⟨rfl, rfl⟩ := he
    rw [Store.robin_setRobin_self] at hx
    exact ho x hx
  · rw [Store.robin_setRobin_of_ne _ _ (not_and_or.mp he)] at hx
    exact h k' key' x hx

theorem RobinAll.env {e : Ev} (h : RobinAll P w.store) (he : env e w = some w') :
    RobinAll P w'.store := by
  intro k key o ho
  rw [env_robin_eq he] at ho
  exact h k key o ho

theorem RobinAll.answer {c : Call} {o : Outcome} {r : Except ApiError (Reply c)}
    (h : RobinAll P w.store) (hP : Made G P) (hc : Emits G c)
    (hans : answer c o w = some (r, w')) : RobinAll P w'.store := by
  by_cases hrobin : RobinWrite c
  swap
  · intro k key x hx
    rw [answer_robin_eq hrobin hans] at hx
    exact h k key x hx
  have patch : ∀ {k : Kind} {x : Obj k} {st : Store} {key : NamespacedName},
      w.store.apply (.patch k x) = .ok st → x.metadata.key = key →
      (∀ stored, P k key stored → P k key (Kube.patched stored x)) → RobinAll P st := by
    intro k x st key hst hkey hx
    obtain ⟨stored, hs, rfl⟩ := apply_patch hst
    rw [hkey] at hs ⊢
    refine h.setRobin fun y hy => ?_
    cases hy
    exact hx stored (h k _ stored hs)
  cases hc with
  | create hG k =>
    obtain ⟨rfl, -⟩ | ⟨st, hst, rfl, -⟩ := answer_write hans
    · exact h
    · obtain ⟨-, rfl⟩ := apply_create hst
      refine h.setRobin fun y hy => ?_
      cases hy
      rw [(metadata_desiredObject _ k).1]
      exact hP.desired hG k
  | patch hG k =>
    obtain ⟨rfl, -⟩ | ⟨st, hst, rfl, -⟩ := answer_write hans
    · exact h
    · exact patch hst (metadata_desiredObject _ k).1 (hP.patched hG k)
  | patchDeployment hG existing =>
    obtain ⟨rfl, -⟩ | ⟨st, hst, rfl, -⟩ := answer_write hans
    · exact h
    · exact patch hst rfl fun stored => hP.deployment hG stored existing
  | delete k key =>
    obtain ⟨rfl, -⟩ | ⟨st, hst, rfl, -⟩ := answer_write hans
    · exact h
    · obtain rfl := apply_delete hst
      exact h.setRobin fun y hy => by cases hy
  | free hf =>
    cases c with
    | write a => cases hf
    | _ => cases hrobin
  | _ => cases hrobin

end

end RedkeyOperator.Controller

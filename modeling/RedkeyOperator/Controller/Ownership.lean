import RedkeyOperator.Controller.Calls
import RedkeyOperator.Controller.RobinDeployment
import RedkeyOperator.Controller.Undisturbed

/-! # Who owns Robin's objects

An object that the operator creates carries a controller reference to its
Redkey; a patch leaves the reference of the object as it is. What a Reconcile
leaves is therefore owned by the Redkey where it has been created, and by
whoever owned it before where it has only been patched. -/
namespace RedkeyOperator.Controller
open RedkeyOperator.Api RedkeyOperator.Kube RedkeyOperator.Interleave

variable {α : Type} {T : Terms server} {w w' : World}

/-! ## After a Reconcile -/

theorem exec_stage {name : String} {m : Act α} {a : α}
    (h : Exec T (stage name m) w (.ok a) w') : Exec T m w (.ok a) w' := by
  obtain ⟨r, v, hv, hx⟩ | ⟨e, he, -⟩ := Exec.bind_iff.mp h
  · obtain ⟨r', hr, hm⟩ := Exec.attempt_iff.mp hv
    cases hr
    cases r with
    | ok b =>
      obtain ⟨hb, rfl⟩ := Exec.ret_iff.mp hx
      cases hb
      exact hm
    | error e =>
      obtain ⟨_, _, _, hx⟩ | ⟨_, hb, _⟩ := Exec.bind_iff.mp hx
      · cases hx
      · cases hb
  · cases he

theorem exec_robin_eq {m : Act α} (hm : m.Calls fun c => ¬RobinWrite c) {res : Except ApiError α}
    (h : Exec T m w res w') : w'.store.robin = w.store.robin :=
  Exec.preserves (M := server) (R := fun v v' : World => v'.store.robin = v.store.robin)
    (fun _ => rfl) (fun h h' => h'.trans h) (fun hc hw => answer_robin_eq hc hw) hm h

theorem spares_ensureConfig (cluster : Redkey) :
    (ensureConfig cluster).Calls fun c => ¬RobinWrite c := by
  have hlist : ∀ name, (stage name (listConfigs cluster)).Calls fun c => ¬RobinWrite c :=
    calls_stage (calls_listConfigs id) fun _ => id
  refine Prog.Calls.bind (hlist _) fun configs => ?_
  split
  · exact Prog.Calls.bind (calls_stage (calls_createNewConfig id fun _ => id) (fun _ => id) _)
      fun _ => hlist _
  · trivial

theorem spares_settleConfigs (cluster : Redkey) (configs : List RedkeyConfig) :
    (settleConfigs cluster configs).Calls fun c => ¬RobinWrite c := by
  unfold settleConfigs
  split
  · trivial
  · refine Prog.Calls.bind (calls_deleteOlder (fun _ => id) (fun _ => id) _ _) ?_
    rintro ⟨kept, err⟩
    cases err with
    | some e => exact calls_stage (m := .fail e) trivial (fun _ => id) _
    | none =>
      exact Prog.Calls.bind (calls_stage (calls_aggregateStatus id id (fun _ => id) _) (fun _ => id) _)
        fun _ => trivial

theorem robin_reconcileRunning {rk : Redkey}
    (h : Exec currentReads (reconcileRunning rk) w (.ok ()) w') (k : Kind) :
    w'.store.robin k (robinKey rk) = some (mended rk k (w.store.robin k (robinKey rk))) := by
  obtain ⟨⟨⟩, v₁, h₁, h⟩ | ⟨e, he, -⟩ := Exec.bind_iff.mp h
  swap
  · cases he
  obtain ⟨⟨⟩, v₂, h₂, h⟩ | ⟨e, he, -⟩ := Exec.bind_iff.mp h
  swap
  · cases he
  -- the rest writes configs and the status
  have hrest : w'.store.robin = v₂.store.robin := by
    refine exec_robin_eq ?_ h
    refine Prog.Calls.bind (spares_ensureConfig rk) fun configs => ?_
    exact Prog.Calls.bind (spares_settleConfigs rk configs) fun _ => .request id
  rw [hrest, exec_ensureDeployment (exec_stage h₂), exec_ensureRBAC (exec_stage h₁)]
  cases k with
  | deployment => simp [mendRBAC]
  | _ =>
    rw [robin_mend_of_ne (by decide)]
    exact robin_mendRBAC nofun

/-- The four objects of Robin after a Reconcile that returns. -/
theorem robin_reconcile {r : RedkeyReconciler} {req : NamespacedName} {rk : Redkey} {a : Result}
    (hrk : w.store.redkeys req = some rk) (hp : rk.spec.primaries ≠ 0)
    (h : Exec currentReads (reconcile r req) w (.ok a) w') (k : Kind) :
    w'.store.robin k (robinKey rk) = some (mended rk k (w.store.robin k (robinKey rk))) := by
  obtain ⟨res, v, hv, hx⟩ | ⟨e, he, -⟩ := Exec.bind_iff.mp h
  · obtain ⟨o, res', ok, hw, hres⟩ := Exec.perform_iff.mp hv
    cases hres
    obtain ⟨rfl, rfl⟩ | ⟨i, st, hview, rfl, rfl⟩ := answer_getRedkey hw
    · -- the Get failed, and so has the Reconcile
      cases exec_stage hx
    · obtain ⟨-, rfl⟩ := view_current ok hview
      rw [hrk] at hx
      simp only [found, if_neg hp] at hx
      obtain ⟨⟨⟩, u, hu, hx⟩ | ⟨e, he, -⟩ := Exec.bind_iff.mp hx
      · obtain ⟨-, rfl⟩ := Exec.ret_iff.mp hx
        exact robin_reconcileRunning hu k
      · cases he
  · cases he

/-! ## Owners -/

/-- The object is deleted and made anew. -/
def Recreated (cluster : Redkey) : (k : Kind) → Obj k → Prop
  | .roleBinding, (o : RoleBinding) => o.roleRef ≠ (desiredRoleBinding cluster).roleRef
  | _, _ => False

theorem owner_desiredObject (cluster : Redkey) (k : Kind) :
    (desiredObject cluster k).metadata.owner = some cluster.uid := by
  cases k <;> rfl

theorem owner_patched {k : Kind} (stored o : Obj k) :
    (patched stored o).metadata.owner = stored.metadata.owner := by
  cases k <;> rfl

/-- A new owner comes with a new object only. -/
theorem owner_mended {cluster : Redkey} {k : Kind} (o : Obj k) :
    (mended cluster k (some o)).metadata.owner = some cluster.uid ↔
      o.metadata.owner = some cluster.uid ∨ Recreated cluster k o := by
  cases k with
  | roleBinding =>
    by_cases href : RoleBinding.roleRef o = (desiredRoleBinding cluster).roleRef
    · have hkept : (mended cluster .roleBinding (some o)).metadata.owner = o.metadata.owner := by
        simp only [mended, corrected, bne_eq_false_iff_eq.mpr href, Bool.false_eq_true, if_false]
        split
        · exact owner_patched _ _
        · rfl
      rw [hkept]
      exact ⟨.inl, fun h => h.resolve_right fun hne => hne href⟩
    · have hnew : mended cluster .roleBinding (some o) = desiredObject cluster .roleBinding := by
        simp [mended, drifted, corrected, href]
      rw [hnew]
      exact ⟨fun _ => .inr href, fun _ => owner_desiredObject cluster .roleBinding⟩
  | _ =>
    simp only [mended, Recreated, or_false]
    split
    · exact iff_of_eq (congrArg (· = some cluster.uid) (owner_patched _ _))
    · exact Iff.rfl

/-- After a Reconcile that returns, all four objects are owned by the Redkey if and only if
each of them was missing or already owned by it, or, for the RoleBinding, had another RoleRef. -/
theorem objects_owned_iff {r : RedkeyReconciler} {req : NamespacedName} {rk : Redkey} {a : Result}
    (hrk : w.store.redkeys req = some rk) (hp : rk.spec.primaries ≠ 0)
    (h : Exec currentReads (reconcile r req) w (.ok a) w') :
    (∀ k, ∃ o, w'.store.robin k (robinKey rk) = some o ∧ o.metadata.owner = some rk.uid) ↔
      ∀ k o, w.store.robin k (robinKey rk) = some o →
        o.metadata.owner = some rk.uid ∨ Recreated rk k o := by
  have hafter := robin_reconcile hrk hp h
  constructor
  · intro howned k o ho
    obtain ⟨o', ho', hu⟩ := howned k
    rw [hafter k, ho] at ho'
    cases ho'
    exact (owner_mended o).mp hu
  · intro hbefore k
    refine ⟨_, hafter k, ?_⟩
    cases ho : w.store.robin k (robinKey rk) with
    | none => exact owner_desiredObject rk k
    | some o => exact (owner_mended o).mpr (hbefore k o ho)

def accountOf (owner : UID) : ServiceAccount :=
  { metadata := { rbacMeta (annotated []) with owner := some owner } }

/-- The cluster alone in its store, with a ServiceAccount of this owner. -/
def inherited (owner : UID) : World :=
  { worldOf [] with
    store :=
      { (worldOf []).store.setRobin .serviceAccount (robinKey (annotated [])) (some (accountOf owner))
          with
        redkeys := Function.update (fun _ => none) (annotated []).key (some (annotated [])) } }

theorem robin_inherited (owner : UID) :
    (inherited owner).store.robin .serviceAccount (robinKey (annotated [])) =
      some (accountOf owner) :=
  Store.robin_setRobin_self (worldOf []).store .serviceAccount (robinKey (annotated []))
    (some (accountOf owner))

theorem redkeys_inherited (owner : UID) :
    (inherited owner).store.redkeys (annotated []).key = some (annotated []) := rfl

theorem exists_reconcile (owner : UID) : ∃ a w',
    Exec currentReads (reconcile ⟨60⟩ (annotated []).key) (inherited owner) (.ok a) w' := by
  obtain ⟨res, w', hx⟩ := exists_flawless (reconcile ⟨60⟩ (annotated []).key) (inherited owner)
  obtain ⟨a, rfl, -⟩ := always_reconcile ⟨60⟩ (redkeys_inherited owner) (by decide) res w' hx
  exact ⟨a, w', hx.mono flawless_current⟩

theorem objects_owned_annotated : ∃ a w',
    Exec currentReads (reconcile ⟨60⟩ (annotated []).key) (inherited (annotated []).uid) (.ok a) w' ∧
    ∀ k, ∃ o, w'.store.robin k (robinKey (annotated [])) = some o ∧
      o.metadata.owner = some (annotated []).uid := by
  obtain ⟨a, w', hx⟩ := exists_reconcile (annotated []).uid
  refine ⟨a, w', hx, (objects_owned_iff (redkeys_inherited _) (by decide) hx).mpr ?_⟩
  intro k o ho
  cases k with
  | serviceAccount =>
    rw [robin_inherited] at ho
    cases ho
    exact .inl rfl
  | _ => cases ho

/-- The ServiceAccount of a deleted Redkey of the same name keeps its owner. -/
theorem foreign_owner_is_kept : ∃ (w w' : World) (rk : Redkey) (a : Result),
    w.store.redkeys rk.key = some rk ∧ rk.spec.primaries ≠ 0 ∧
    Exec currentReads (reconcile ⟨60⟩ rk.key) w (.ok a) w' ∧
    ∃ o, w'.store.robin .serviceAccount (robinKey rk) = some o ∧
      o.metadata.owner ≠ some rk.uid := by
  obtain ⟨a, w', hx⟩ := exists_reconcile "deleted"
  have hafter := robin_reconcile (redkeys_inherited _) (by decide) hx .serviceAccount
  rw [robin_inherited] at hafter
  refine ⟨_, w', annotated [], a, rfl, by decide, hx, _, hafter, fun howner => ?_⟩
  rcases (owner_mended _).mp howner with h | h
  · revert h
    decide
  · exact h

end RedkeyOperator.Controller

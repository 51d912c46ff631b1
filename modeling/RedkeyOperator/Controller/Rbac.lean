import RedkeyOperator.Controller.Calls
import RedkeyOperator.Controller.RobinDeployment
import RedkeyOperator.Controller.Undisturbed

/-! # The repair of Robin's RBAC objects

However the ServiceAccount, the Role and the RoleBinding are found, and however
many calls of `ensureRBAC` have failed before, a call without failures puts
them in place, and the next one leaves them alone. -/
namespace RedkeyOperator.Controller
open RedkeyOperator.Api RedkeyOperator.Kube RedkeyOperator.Interleave

/-! ## In place -/

/-- The same labels and the same annotations, as maps. -/
structure SameMeta (a b : ObjectMeta) : Prop where
  labels : ∀ l, a.labels.get l = b.labels.get l
  annotations : ∀ l, a.annotations.get l = b.annotations.get l

theorem metaDrifted_eq_false_iff {a b : ObjectMeta} : metaDrifted a b = false ↔ SameMeta a b := by
  unfold metaDrifted
  rw [Bool.or_eq_false_iff, Bool.not_eq_false', Bool.not_eq_false', StringMap.deepEqual_iff,
    StringMap.deepEqual_iff]
  exact ⟨fun h => ⟨h.1, h.2⟩, fun h => ⟨h.labels, h.annotations⟩⟩

/-- The three objects are there and as desired. -/
structure RbacInPlace (cluster : Redkey) (st : Store) : Prop where
  serviceAccount : ∃ o : ServiceAccount, st.robin .serviceAccount (robinKey cluster) = some o ∧
    SameMeta o.metadata (desiredServiceAccount cluster).metadata
  role : ∃ o : Role, st.robin .role (robinKey cluster) = some o ∧
    SameMeta o.metadata (desiredRole cluster).metadata ∧ o.rules = (desiredRole cluster).rules
  roleBinding : ∃ o : RoleBinding, st.robin .roleBinding (robinKey cluster) = some o ∧
    SameMeta o.metadata (desiredRoleBinding cluster).metadata ∧
    o.subjects = (desiredRoleBinding cluster).subjects ∧
    o.roleRef = (desiredRoleBinding cluster).roleRef

/-- No drift of the three is found. -/
theorem rbacInPlace_iff {cluster : Redkey} {st : Store} : RbacInPlace cluster st ↔
    ∀ k, k ≠ .deployment → ∃ o, st.robin k (robinKey cluster) = some o ∧
      drifted cluster k o = false := by
  constructor
  · rintro ⟨⟨sa, hsa, hm⟩, ⟨r, hr, hm', hrules⟩, ⟨rb, hrb, hm'', hsubjects, href⟩⟩ k hk
    cases k with
    | serviceAccount => exact ⟨sa, hsa, metaDrifted_eq_false_iff.mpr hm⟩
    | role =>
      refine ⟨r, hr, Bool.or_eq_false_iff.mpr ⟨?_, metaDrifted_eq_false_iff.mpr hm'⟩⟩
      exact bne_eq_false_iff_eq.mpr hrules
    | roleBinding =>
      refine ⟨rb, hrb, Bool.or_eq_false_iff.mpr ⟨bne_eq_false_iff_eq.mpr href,
        Bool.or_eq_false_iff.mpr ⟨bne_eq_false_iff_eq.mpr hsubjects, ?_⟩⟩⟩
      exact metaDrifted_eq_false_iff.mpr hm''
    | deployment => exact absurd rfl hk
  · intro h
    refine ⟨?_, ?_, ?_⟩
    · obtain ⟨o, ho, hd⟩ := h .serviceAccount nofun
      exact ⟨o, ho, metaDrifted_eq_false_iff.mp hd⟩
    · obtain ⟨o, ho, hd⟩ := h .role nofun
      obtain ⟨hrules, hm⟩ := Bool.or_eq_false_iff.mp hd
      exact ⟨o, ho, metaDrifted_eq_false_iff.mp hm, bne_eq_false_iff_eq.mp hrules⟩
    · obtain ⟨o, ho, hd⟩ := h .roleBinding nofun
      obtain ⟨href, hd⟩ := Bool.or_eq_false_iff.mp hd
      obtain ⟨hsubjects, hm⟩ := Bool.or_eq_false_iff.mp hd
      exact ⟨o, ho, metaDrifted_eq_false_iff.mp hm, bne_eq_false_iff_eq.mp hsubjects,
        bne_eq_false_iff_eq.mp href⟩

section
variable {cluster : Redkey}

theorem metaDrifted_eq_false {m : ObjectMeta} (hl : m.labels = (rbacMeta cluster).labels)
    (ha : m.annotations = (rbacMeta cluster).annotations) : metaDrifted m (rbacMeta cluster) = false :=
  metaDrifted_eq_false_iff.mpr ⟨fun _ => by rw [hl], fun _ => by rw [ha]⟩

theorem drifted_desiredObject {k : Kind} (hk : k ≠ .deployment) :
    drifted cluster k (desiredObject cluster k) = false := by
  have hmeta := metaDrifted_eq_false (m := rbacMeta cluster) rfl rfl
  cases k with
  | serviceAccount => exact hmeta
  | role => simp [drifted, desiredObject, desiredRole, hmeta]
  | roleBinding => simp [drifted, desiredObject, desiredRoleBinding, hmeta]
  | deployment => exact absurd rfl hk

theorem drifted_corrected {k : Kind} (hk : k ≠ .deployment) (o : Obj k) :
    drifted cluster k (corrected cluster k o) = false := by
  cases k with
  | serviceAccount => exact metaDrifted_eq_false rfl rfl
  | role =>
    show (desiredRobinRules != desiredRobinRules || metaDrifted _ (rbacMeta cluster)) = false
    rw [bne_self_eq_false, Bool.false_or]
    exact metaDrifted_eq_false rfl rfl
  | roleBinding =>
    show drifted cluster .roleBinding (if _ then _ else _) = false
    split
    · exact drifted_desiredObject nofun
    · rename_i href
      refine Bool.or_eq_false_iff.mpr ⟨Bool.eq_false_iff.mpr href, ?_⟩
      exact Bool.or_eq_false_iff.mpr ⟨bne_eq_false_iff_eq.mpr rfl, metaDrifted_eq_false rfl rfl⟩
  | deployment => exact absurd rfl hk

theorem drifted_mended {k : Kind} (hk : k ≠ .deployment) (o : Option (Obj k)) :
    drifted cluster k (mended cluster k o) = false := by
  cases o with
  | none => exact drifted_desiredObject hk
  | some o =>
    by_cases hd : drifted cluster k o = true
    · rw [mended, if_pos hd]
      exact drifted_corrected hk o
    · rw [mended, if_neg hd]
      exact Bool.eq_false_iff.mpr hd

end

theorem rbacInPlace_mendRBAC (cluster : Redkey) (st : Store) :
    RbacInPlace cluster (mendRBAC cluster st) :=
  rbacInPlace_iff.mpr fun _ hk => ⟨_, robin_mendRBAC hk, drifted_mended hk _⟩

/-! ## What is written -/

/-- Nothing but the three objects has changed. -/
structure Elsewhere (cluster : Redkey) (st st' : Store) : Prop where
  redkeys : st'.redkeys = st.redkeys
  configs : st'.configs = st.configs
  robin : ∀ k key, k = .deployment ∨ key ≠ robinKey cluster → st'.robin k key = st.robin k key

namespace Elsewhere
variable {cluster : Redkey} {st st' st'' : Store}

theorem refl (cluster : Redkey) (st : Store) : Elsewhere cluster st st :=
  ⟨rfl, rfl, fun _ _ _ => rfl⟩

theorem trans (h : Elsewhere cluster st st') (h' : Elsewhere cluster st' st'') :
    Elsewhere cluster st st'' where
  redkeys := h'.redkeys.trans h.redkeys
  configs := h'.configs.trans h.configs
  robin k key hk := (h'.robin k key hk).trans (h.robin k key hk)

theorem setRobin {k : Kind} (hk : k ≠ .deployment) (o : Option (Obj k)) :
    Elsewhere cluster st (st.setRobin k (robinKey cluster) o) := by
  refine ⟨rfl, rfl, fun k' key h => Store.robin_setRobin_of_ne _ _ ?_⟩
  rcases h with rfl | h
  · exact .inl (Ne.symm hk)
  · exact .inr h

end Elsewhere

/-- The calls of `ensureRBAC`. -/
def RbacCall (cluster : Redkey) : Call → Prop
  | .get _ _ => True
  | .write (.create k o) => k ≠ .deployment ∧ o.metadata.key = robinKey cluster
  | .write (.patch k o) => k ≠ .deployment ∧ o.metadata.key = robinKey cluster
  | .write (.delete k key) => k ≠ .deployment ∧ key = robinKey cluster
  | _ => False

theorem RbacCall.elsewhere {cluster : Redkey} {c : Call} {o : Outcome}
    {r : Except ApiError (Reply c)} {w w' : World} (hc : RbacCall cluster c)
    (h : answer c o w = some (r, w')) : Elsewhere cluster w.store w'.store := by
  cases c with
  | get k key =>
    obtain ⟨-, rfl⟩ | ⟨i, st, -, -, rfl⟩ := answer_get h <;> exact .refl _ _
  | write a =>
    obtain ⟨rfl, -⟩ | ⟨st, hst, rfl, -⟩ := answer_write h
    · exact .refl _ _
    · cases a with
      | create k o =>
        rw [World.store_commit, (apply_create hst).2, hc.2]
        exact .setRobin hc.1 _
      | patch k o =>
        obtain ⟨stored, -, rfl⟩ := apply_patch hst
        rw [World.store_commit, hc.2]
        exact .setRobin hc.1 _
      | delete k key =>
        rw [World.store_commit, apply_delete hst, hc.2]
        exact .setRobin hc.1 _
      | _ => cases hc
  | _ => cases hc

theorem exec_ensureRBAC_elsewhere {T : Terms server} {cluster : Redkey} {w w' : World}
    {res : Except ApiError Unit} (h : Exec T (ensureRBAC cluster) w res w') :
    Elsewhere cluster w.store w'.store := by
  have hcalls : (ensureRBAC cluster).Calls (RbacCall cluster) :=
    calls_ensureRBAC (fun _ => trivial) (fun _ _ hk h => ⟨hk, h⟩) (fun _ _ hk h => ⟨hk, h⟩)
      ⟨nofun, rfl⟩
  exact Exec.preserves (M := server) (R := fun v v' : World => Elsewhere cluster v.store v'.store)
    (fun _ => .refl _ _) Elsewhere.trans RbacCall.elsewhere hcalls h

/-- A write needs an object of the three that is missing or has drifted, a
deletion a RoleBinding with another RoleRef. -/
theorem asks_ensureRBAC {cluster : Redkey} {w : World} {a : Write}
    (h : Asks currentReads (ensureRBAC cluster) w (.write a)) :
    (∃ k, k ≠ .deployment ∧ ∀ o, w.store.robin k (robinKey cluster) = some o →
      drifted cluster k o = true) ∧
    ∀ k key, a = .delete k key → ∃ o : RoleBinding,
      w.store.robin .roleBinding (robinKey cluster) = some o ∧
      o.roleRef ≠ (desiredRoleBinding cluster).roleRef := by
  obtain h | ⟨⟨⟩, v, hv, h⟩ := h.bind
  · obtain ⟨hd, hn⟩ := asks_ensure h
    exact ⟨⟨.serviceAccount, nofun, hd⟩, fun k key ha => absurd ha (hn k key)⟩
  have hsa := exec_ensure (k := .serviceAccount) rfl (fun _ => rfl) hv
  obtain h | ⟨⟨⟩, u, hu, h⟩ := h.bind
  · obtain ⟨hd, hn⟩ := asks_ensure h
    refine ⟨⟨.role, nofun, fun o ho => hd o ?_⟩, fun k key ha => absurd ha (hn k key)⟩
    rw [hsa, robin_mend_of_ne (by decide)]
    exact ho
  have hrole := exec_ensure (k := .role) rfl (fun _ => rfl) hu
  have hrb := asks_ensureRoleBinding h
  rw [hrole, robin_mend_of_ne (by decide), hsa, robin_mend_of_ne (by decide)] at hrb
  exact ⟨⟨.roleBinding, nofun, hrb.1⟩, hrb.2⟩

/-! ## Repair -/

/-- A call of `ensureRBAC` that returned an error. -/
def FailedCall (cluster : Redkey) (w w' : World) : Prop :=
  ∃ e, Exec currentReads (ensureRBAC cluster) w (.error e) w'

theorem elsewhere_failedCalls {cluster : Redkey} {w w' : World}
    (h : Relation.ReflTransGen (FailedCall cluster) w w') : Elsewhere cluster w.store w'.store := by
  induction h with
  | refl => exact .refl _ _
  | tail _ hs ih =>
    obtain ⟨e, hx⟩ := hs
    exact ih.trans (exec_ensureRBAC_elsewhere hx)

/-- From any store and after any number of failed calls, a call without failures returns, puts
the three objects in place and touches nothing else; the next call asks for no write; and no call
ever deletes a RoleBinding with the right RoleRef. -/
theorem ensureRBAC_repairs {cluster : Redkey} {w₀ w : World}
    (hfailed : Relation.ReflTransGen (FailedCall cluster) w₀ w) :
    (∃ w', Exec flawless (ensureRBAC cluster) w (.ok ()) w') ∧
    (∀ res w', Exec flawless (ensureRBAC cluster) w res w' →
      res = .ok () ∧ RbacInPlace cluster w'.store ∧ Elsewhere cluster w₀.store w'.store ∧
      ∀ a, ¬ Asks currentReads (ensureRBAC cluster) w' (.write a)) ∧
    ∀ (v : World) (rb : RoleBinding), v.store.robin .roleBinding (robinKey cluster) = some rb →
      rb.roleRef = (desiredRoleBinding cluster).roleRef →
      ∀ k key, ¬ Asks currentReads (ensureRBAC cluster) v (.write (.delete k key)) := by
  refine ⟨?_, fun res w' hx => ?_, fun v rb hrb href k key hask => ?_⟩
  · obtain ⟨res, w', hx⟩ := exists_flawless (ensureRBAC cluster) w
    obtain ⟨⟨⟩, rfl, -⟩ := always_ensureRBAC cluster res w' hx
    exact ⟨w', hx⟩
  · obtain ⟨⟨⟩, rfl, -⟩ := always_ensureRBAC cluster res w' hx
    have hplace : RbacInPlace cluster w'.store := by
      rw [exec_ensureRBAC (hx.mono flawless_current)]
      exact rbacInPlace_mendRBAC cluster w.store
    refine ⟨rfl, hplace, (elsewhere_failedCalls hfailed).trans (exec_ensureRBAC_elsewhere hx), ?_⟩
    intro a hask
    obtain ⟨⟨k, hk, hd⟩, -⟩ := asks_ensureRBAC hask
    obtain ⟨o, ho, hn⟩ := rbacInPlace_iff.mp hplace k hk
    rw [hd o ho] at hn
    cases hn
  · obtain ⟨o, ho, hne⟩ := (asks_ensureRBAC hask).2 k key rfl
    obtain rfl : rb = o := Option.some.inj (hrb.symm.trans ho)
    exact hne href

/-- A RoleBinding of the right name for another role. -/
def misbound : World :=
  { worldOf [] with
    store := (worldOf []).store.setRobin .roleBinding (robinKey (annotated []))
      (some (show RoleBinding from
        { metadata := { key := robinKey (annotated []) }
          subjects := []
          roleRef := ⟨"rbac.authorization.k8s.io", "ClusterRole", "admin"⟩ })) }

/-- The first call deletes the RoleBinding and fails to create it anew. -/
theorem ensureRBAC_repairs_misbound : ∃ w, FailedCall (annotated []) misbound w ∧
    ∃ w', Exec flawless (ensureRBAC (annotated [])) w (.ok ()) w' ∧
      RbacInPlace (annotated []) w'.store := by
  have hfailed : ∃ w, FailedCall (annotated []) misbound w :=
    ⟨_, .unavailable, exec_of_runWith (List.replicate 6 Outcome.ok ++ [.refused]) rfl⟩
  obtain ⟨w, hw⟩ := hfailed
  obtain ⟨⟨w', hx⟩, hall, -⟩ := ensureRBAC_repairs (.single hw)
  exact ⟨w, hw, w', hx, (hall _ _ hx).2.1⟩

end RedkeyOperator.Controller

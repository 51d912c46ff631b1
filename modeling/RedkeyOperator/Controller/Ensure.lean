import RedkeyOperator.Controller.Robin
import RedkeyOperator.Interleave.Exec
import RedkeyOperator.Kube.Frame

/-! # Robin's objects after a call that returns

With reads of the current store, what `ensureRBAC` and `ensureRobinDeployment`
leave of an object is a function of the object they find: `mended`. Which
writes they issue depends on the same object. -/
namespace RedkeyOperator.Controller
open RedkeyOperator.Api RedkeyOperator.Kube RedkeyOperator.Interleave

variable {w w' : World}

/-! ## Single calls -/

theorem exec_get {k : Kind} {key : NamespacedName} {res : Except ApiError (Except ApiError (Obj k))}
    (h : Exec currentReads (get k key) w res w') :
    w'.store = w.store ∧ w'.past = w.past ∧
      (res = .ok (.error .unavailable) ∨ res = .ok (found (w.store.robin k key))) := by
  obtain ⟨o, r, ok, hw, rfl⟩ := Exec.perform_iff.mp h
  obtain ⟨rfl, rfl⟩ | ⟨i, st, hv, rfl, rfl⟩ := answer_get hw
  · exact ⟨rfl, rfl, .inl rfl⟩
  · obtain ⟨-, rfl⟩ := view_current ok hv
    exact ⟨rfl, rfl, .inr rfl⟩

/-- A write that succeeds makes a new version of the store. -/
theorem exec_writeOrFail {T : Terms server} {a : Write} (h : Exec T (writeOrFail a) w (.ok ()) w') :
    w.store.apply a = .ok w'.store ∧ w'.past = w.past ++ [w.store] := by
  obtain ⟨o, -, hw⟩ := Exec.request_iff.mp h
  obtain ⟨st, hst, rfl⟩ := answer_write_ok hw
  exact ⟨hst, rfl⟩

theorem exec_writeOrFail_count {T : Terms server} {a : Write} {c : Counter}
    (h : Exec T ((writeOrFail a).bind fun _ => count c) w (.ok ()) w') :
    w.store.apply a = .ok w'.store ∧ w'.past = w.past ++ [w.store] := by
  obtain ⟨u, v, hv, hc⟩ | ⟨e, he, -⟩ := Exec.bind_iff.mp h
  · have hwrote := exec_writeOrFail hv
    obtain ⟨o, -, hw⟩ := Exec.request_iff.mp hc
    cases o <;> cases hw
    exact hwrote
  · cases he

/-- After a Get that the program survives: what it found is what is stored. -/
theorem exec_get_bind {α : Type} {k : Kind} {key : NamespacedName} {a : α}
    {f : Except ApiError (Obj k) → Act α} (hf : f (.error .unavailable) = .fail .unavailable)
    (h : Exec currentReads ((get k key).bind f) w (.ok a) w') :
    ∃ v, v.store = w.store ∧ v.past = w.past ∧
      Exec currentReads (f (found (w.store.robin k key))) v (.ok a) w' := by
  obtain ⟨r, v, hv, hx⟩ | ⟨e, he, -⟩ := Exec.bind_iff.mp h
  · obtain ⟨hs, hp, hr | hr⟩ := exec_get hv
    · cases hr
      rw [hf] at hx
      cases hx
    · cases hr
      exact ⟨v, hs, hp, hx⟩
  · cases he

/-! ## What is left of an object -/

def desiredObject (cluster : Redkey) : (k : Kind) → Obj k
  | .serviceAccount => desiredServiceAccount cluster
  | .role => desiredRole cluster
  | .roleBinding => desiredRoleBinding cluster
  | .deployment => buildDesiredRobinDeployment cluster

/-- The object is not as desired. -/
def drifted (cluster : Redkey) : (k : Kind) → Obj k → Bool
  | .serviceAccount, (o : ServiceAccount) => metaDrifted o.metadata (rbacMeta cluster)
  | .role, (o : Role) => o.rules != desiredRobinRules || metaDrifted o.metadata (rbacMeta cluster)
  | .roleBinding, (o : RoleBinding) =>
    o.roleRef != (desiredRoleBinding cluster).roleRef ||
      (o.subjects != (desiredRoleBinding cluster).subjects ||
        metaDrifted o.metadata (rbacMeta cluster))
  | .deployment, o => robinDeploymentNeedsUpdate o (buildDesiredRobinDeployment cluster)

/-- What takes its place. -/
def corrected (cluster : Redkey) : (k : Kind) → Obj k → Obj k
  | .serviceAccount, o => patched o (desiredObject cluster .serviceAccount)
  | .role, o => patched o (desiredObject cluster .role)
  | .roleBinding, (o : RoleBinding) =>
    if o.roleRef != (desiredRoleBinding cluster).roleRef then desiredObject cluster .roleBinding
    else patched (k := .roleBinding) o (desiredRoleBinding cluster)
  | .deployment, (o : Deployment) => patched (k := .deployment) o
    (show Deployment from { buildDesiredRobinDeployment cluster with
      metadata := { (buildDesiredRobinDeployment cluster).metadata with
        annotations := preserveManagedAnnotations o.metadata.annotations
          (buildDesiredRobinDeployment cluster).metadata.annotations } })

/-- What a call that returns leaves of the object it finds. -/
def mended (cluster : Redkey) (k : Kind) : Option (Obj k) → Obj k
  | none => desiredObject cluster k
  | some o => if drifted cluster k o then corrected cluster k o else o

/-- The store with the object of one kind mended. -/
def mend (cluster : Redkey) (k : Kind) (st : Store) : Store :=
  st.setRobin k (robinKey cluster) (some (mended cluster k (st.robin k (robinKey cluster))))

theorem setRobin_self {st : Store} {k : Kind} {key : NamespacedName} {o : Obj k}
    (h : st.robin k key = some o) : st.setRobin k key (some o) = st := by
  cases st
  simp only [Store.setRobin, Store.mk.injEq, true_and]
  rw [← h, Function.update_eq_self, Function.update_eq_self]

theorem setRobin_setRobin (st : Store) (k : Kind) (key : NamespacedName) (o o' : Option (Obj k)) :
    (st.setRobin k key o).setRobin k key o' = st.setRobin k key o' := by
  simp [Store.setRobin]

section
variable {cluster : Redkey} {k : Kind} {st : Store}

@[simp] theorem robin_mend_self : (mend cluster k st).robin k (robinKey cluster) =
    some (mended cluster k (st.robin k (robinKey cluster))) :=
  Store.robin_setRobin_self _ _ _ _

@[simp] theorem robin_mend_of_ne {k' : Kind} (h : k' ≠ k) (key : NamespacedName) :
    (mend cluster k st).robin k' key = st.robin k' key :=
  Store.robin_setRobin_of_ne _ _ (.inl h)

theorem mend_of_none (h : st.robin k (robinKey cluster) = none) :
    mend cluster k st = st.setRobin k (robinKey cluster) (some (desiredObject cluster k)) := by
  rw [mend, h, mended]

theorem mend_of_drifted {o : Obj k} (h : st.robin k (robinKey cluster) = some o)
    (hd : drifted cluster k o = true) :
    mend cluster k st = st.setRobin k (robinKey cluster) (some (corrected cluster k o)) := by
  rw [mend, h, mended, if_pos hd]

theorem mend_of_not_drifted {o : Obj k} (h : st.robin k (robinKey cluster) = some o)
    (hd : drifted cluster k o = false) : mend cluster k st = st := by
  rw [mend, h, mended, if_neg (by simp [hd]), setRobin_self h]

end

/-- `ensure` mends, if the kind's drift and correction are the ones it is given. -/
theorem exec_ensure {cluster : Redkey} {k : Kind}
    (hkey : (desiredObject cluster k).metadata.key = robinKey cluster)
    (hc : ∀ o, corrected cluster k o = patched o (desiredObject cluster k))
    (h : Exec currentReads (ensure k (desiredObject cluster k) (drifted cluster k)) w (.ok ()) w') :
    w'.store = mend cluster k w.store := by
  obtain ⟨v, hv, -, hx⟩ := exec_get_bind rfl h
  rw [hkey] at hx
  rw [← hv] at hx ⊢
  cases ho : v.store.robin k (robinKey cluster) with
  | none =>
    rw [ho] at hx
    obtain ⟨-, hst⟩ := apply_create (exec_writeOrFail hx).1
    rw [hst, mend_of_none ho, hkey]
  | some o =>
    rw [ho] at hx
    simp only [found] at hx
    split at hx
    · rename_i hd
      obtain ⟨stored, hs, hst⟩ := apply_patch (exec_writeOrFail hx).1
      rw [hkey, ho] at hs
      cases hs
      rw [hst, mend_of_drifted ho hd, hkey, hc]
    · rename_i hd
      obtain ⟨-, rfl⟩ := Exec.ret_iff.mp hx
      rw [mend_of_not_drifted ho (Bool.eq_false_iff.mpr hd)]

theorem exec_ensureRoleBinding {cluster : Redkey}
    (h : Exec currentReads (ensureRoleBinding cluster) w (.ok ()) w') :
    w'.store = mend cluster .roleBinding w.store := by
  obtain ⟨v, hv, -, hx⟩ := exec_get_bind rfl h
  rw [← hv] at hx ⊢
  cases ho : v.store.robin .roleBinding (robinKey cluster) with
  | none =>
    rw [ho] at hx
    obtain ⟨-, hst⟩ := apply_create (exec_writeOrFail hx).1
    rw [hst, mend_of_none ho]
    rfl
  | some o =>
    rw [ho] at hx
    simp only [found] at hx
    split at hx
    · -- deleted and made anew
      rename_i href
      obtain ⟨u, x, hdel, hx⟩ | ⟨e, he, -⟩ := Exec.bind_iff.mp hx
      · have hst := apply_delete (exec_writeOrFail hdel).1
        obtain ⟨-, hst'⟩ := apply_create (exec_writeOrFail hx).1
        have hd : drifted cluster .roleBinding o = true := by simp [drifted, href]
        rw [hst', hst, mend_of_drifted ho hd]
        simp only [corrected, href, if_true]
        exact setRobin_setRobin _ _ _ _ _
      · cases he
    · rename_i href
      split at hx
      · rename_i hpatch
        obtain ⟨stored, hs, hst⟩ := apply_patch (exec_writeOrFail hx).1
        obtain rfl : o = stored := Option.some.inj (ho.symm.trans hs)
        have hd : drifted cluster .roleBinding o = true := Bool.or_eq_true_iff.mpr (.inr hpatch)
        rw [hst, mend_of_drifted ho hd]
        simp only [corrected, href]
        rfl
      · rename_i hpatch
        obtain ⟨-, rfl⟩ := Exec.ret_iff.mp hx
        have hd : drifted cluster .roleBinding o = false :=
          Bool.or_eq_false_iff.mpr ⟨Bool.eq_false_iff.mpr href, Bool.eq_false_iff.mpr hpatch⟩
        rw [mend_of_not_drifted ho hd]

theorem exec_ensureDeployment {cluster : Redkey}
    (h : Exec currentReads (ensureRobinDeployment cluster) w (.ok ()) w') :
    w'.store = mend cluster .deployment w.store := by
  obtain ⟨v, hv, -, hx⟩ := exec_get_bind rfl h
  rw [← hv] at hx ⊢
  rw [show (buildDesiredRobinDeployment cluster).metadata.key = robinKey cluster from rfl] at hx
  cases ho : v.store.robin .deployment (robinKey cluster) with
  | none =>
    rw [ho] at hx
    obtain ⟨-, hst⟩ := apply_create (exec_writeOrFail_count hx).1
    rw [hst, mend_of_none ho]
    rfl
  | some o =>
    rw [ho] at hx
    simp only [found] at hx
    split at hx
    · rename_i hd
      obtain ⟨stored, hs, hst⟩ := apply_patch (exec_writeOrFail_count hx).1
      obtain rfl : o = stored := Option.some.inj (ho.symm.trans hs)
      rw [hst, mend_of_drifted ho hd]
      rfl
    · rename_i hd
      obtain ⟨-, rfl⟩ := Exec.ret_iff.mp hx
      rw [mend_of_not_drifted ho (Bool.eq_false_iff.mpr hd)]

/-- A Deployment that is missing or has drifted is written. -/
theorem exec_ensureDeployment_past {cluster : Redkey}
    (hd : ∀ o, w.store.robin .deployment (robinKey cluster) = some o →
      drifted cluster .deployment o = true)
    (h : Exec currentReads (ensureRobinDeployment cluster) w (.ok ()) w') : w'.past ≠ w.past := by
  obtain ⟨v, hv, hp, hx⟩ := exec_get_bind rfl h
  rw [show (buildDesiredRobinDeployment cluster).metadata.key = robinKey cluster from rfl] at hx
  have hwrote : w'.past = v.past ++ [v.store] := by
    cases ho : w.store.robin .deployment (robinKey cluster) with
    | none =>
      rw [ho] at hx
      exact (exec_writeOrFail_count hx).2
    | some o =>
      rw [ho] at hx
      simp only [found, show robinDeploymentNeedsUpdate o _ = true from hd o ho, if_true] at hx
      exact (exec_writeOrFail_count hx).2
  rw [hwrote, hp]
  simp

/-- The three RBAC objects mended. -/
def mendRBAC (cluster : Redkey) (st : Store) : Store :=
  mend cluster .roleBinding (mend cluster .role (mend cluster .serviceAccount st))

theorem robin_mendRBAC {cluster : Redkey} {st : Store} {k : Kind} (hk : k ≠ .deployment) :
    (mendRBAC cluster st).robin k (robinKey cluster) =
      some (mended cluster k (st.robin k (robinKey cluster))) := by
  unfold mendRBAC
  cases k with
  | serviceAccount => simp
  | role => simp
  | roleBinding => simp
  | deployment => exact absurd rfl hk

theorem exec_ensureRBAC {cluster : Redkey}
    (h : Exec currentReads (ensureRBAC cluster) w (.ok ()) w') :
    w'.store = mendRBAC cluster w.store := by
  obtain ⟨⟨⟩, v, hv, h⟩ | ⟨e, he, -⟩ := Exec.bind_iff.mp h
  · obtain ⟨⟨⟩, u, hu, h⟩ | ⟨e, he, -⟩ := Exec.bind_iff.mp h
    · rw [exec_ensureRoleBinding h, exec_ensure (k := .role) rfl (fun _ => rfl) hu,
        exec_ensure (k := .serviceAccount) rfl (fun _ => rfl) hv]
      rfl
    · cases he
  · cases he

/-! ## Which calls are issued -/

/-- `ensure` writes only where it finds no object or one that has drifted, and never deletes. -/
theorem asks_ensure {k : Kind} {desired : Obj k} {drifts : Obj k → Bool} {a : Write}
    (h : Asks currentReads (ensure k desired drifts) w (.write a)) :
    (∀ o, w.store.robin k desired.metadata.key = some o → drifts o = true) ∧
      ∀ k' key, a ≠ .delete k' key := by
  obtain h | ⟨r, v, hv, h⟩ := h.bind
  · cases h.perform
  · obtain ⟨hs, -, hr | hr⟩ := exec_get hv
    · cases hr
      cases h
    · cases hr
      cases ho : w.store.robin k desired.metadata.key with
      | none =>
        rw [ho] at h
        cases h.request
        exact ⟨nofun, nofun⟩
      | some o =>
        rw [ho] at h
        simp only [found] at h
        split at h
        · rename_i hd
          cases h.request
          refine ⟨?_, nofun⟩
          rintro _ ⟨⟩
          exact hd
        · cases h

/-- A RoleBinding is deleted for its RoleRef only. -/
theorem asks_ensureRoleBinding {cluster : Redkey} {a : Write}
    (h : Asks currentReads (ensureRoleBinding cluster) w (.write a)) :
    (∀ o, w.store.robin .roleBinding (robinKey cluster) = some o →
      drifted cluster .roleBinding o = true) ∧
    ∀ k key, a = .delete k key → ∃ o : RoleBinding,
      w.store.robin .roleBinding (robinKey cluster) = some o ∧
      o.roleRef ≠ (desiredRoleBinding cluster).roleRef := by
  obtain h | ⟨r, v, hv, h⟩ := h.bind
  · cases h.perform
  · obtain ⟨hs, -, hr | hr⟩ := exec_get hv
    · cases hr
      cases h
    · cases hr
      cases ho : w.store.robin .roleBinding (robinKey cluster) with
      | none =>
        rw [ho] at h
        cases h.request
        exact ⟨nofun, nofun⟩
      | some o =>
        rw [ho] at h
        simp only [found] at h
        split at h
        · rename_i href
          refine ⟨?_, fun _ _ _ => ⟨o, rfl, bne_iff_ne.mp href⟩⟩
          rintro _ ⟨⟩
          exact Bool.or_eq_true_iff.mpr (.inl href)
        · split at h
          · rename_i hpatch
            cases h.request
            refine ⟨?_, nofun⟩
            rintro _ ⟨⟩
            exact Bool.or_eq_true_iff.mpr (.inr hpatch)
          · cases h

end RedkeyOperator.Controller

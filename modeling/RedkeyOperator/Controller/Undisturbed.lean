import RedkeyOperator.Controller.Reconcile
import RedkeyOperator.Interleave.Exec
import RedkeyOperator.Kube.Frame

/-! # Reconciles without failures

Function by function: when every call is carried out on the current store, a
Reconcile of a Redkey with primaries comes to its end and returns. -/
namespace RedkeyOperator.Controller
open RedkeyOperator.Api RedkeyOperator.Kube RedkeyOperator.Interleave

variable {w : World} {α : Type}

/-- Every call is carried out, and reads are of the current store. -/
def flawless : Terms server where
  env _ _ := false
  call _ o w := match o with
    | .ok => true
    | .stale i _ => i == w.now
    | _ => false

theorem flawless_current : flawless.Implies currentReads where
  env e w h := by cases h
  call c o w h := by
    cases o with
    | stale i order => exact h
    | _ => rfl

/-- Every call has an answer, so a program comes to its end. -/
theorem exists_flawless (m : Act α) (w : World) : ∃ res w', Exec flawless m w res w' := by
  refine exists_exec (M := server) (fun c v => ?_) m w
  cases c <;> exact ⟨.ok, _, _, rfl, rfl⟩

/-! ## Single calls -/

theorem view_flawless {c : Call} {o : Outcome} {f i : Nat} {st : Store}
    (ok : flawless.call c o w = true) (hv : o.view f w = some (i, st)) : st = w.store :=
  (view_current (flawless_current.call c o w ok) hv).2

theorem answer_getRedkey_flawless {key : NamespacedName} {o : Outcome} {v : World}
    {r : Except ApiError (Reply (.getRedkey key))} (ok : flawless.call (.getRedkey key) o w = true)
    (h : answer (.getRedkey key) o w = some (r, v)) :
    r = found (w.store.redkeys key) ∧ v.store = w.store := by
  cases o with
  | refused => cases ok
  | lost => cases ok
  | _ =>
    simp only [answer, Option.map_eq_some_iff] at h
    obtain ⟨⟨i, st⟩, hv, he⟩ := h
    cases he
    rw [view_flawless ok hv]
    exact ⟨rfl, rfl⟩

theorem always_getRedkey {rk : Redkey} {key : NamespacedName}
    (h : w.store.redkeys key = some rk) :
    Always flawless (Prog.request (S := api) (.getRedkey key)) w fun (latest : Redkey) v =>
      latest = rk ∧ v.store = w.store := by
  refine Always.request fun o r v ok hw => ?_
  obtain ⟨rfl, hv⟩ := answer_getRedkey_flawless ok hw
  rw [h]
  exact ⟨rk, rfl, rfl, hv⟩

theorem answer_listConfigs_flawless {ns cluster : String} {o : Outcome} {v : World}
    {r : Except ApiError (Reply (.listConfigs ns cluster))}
    (ok : flawless.call (.listConfigs ns cluster) o w = true)
    (h : answer (.listConfigs ns cluster) o w = some (r, v)) :
    (∃ items, r = .ok items) ∧ v.store = w.store := by
  cases o with
  | refused => cases ok
  | lost => cases ok
  | _ =>
    simp only [answer, Option.bind_eq_some_iff] at h
    obtain ⟨⟨i, st⟩, -, h⟩ := h
    obtain ⟨items, -, he⟩ := Option.map_eq_some_iff.mp h
    cases he
    exact ⟨⟨items, rfl⟩, rfl⟩

theorem answer_get_flawless {k : Kind} {key : NamespacedName} {o : Outcome} {v : World}
    {r : Except ApiError (Reply (.get k key))} (ok : flawless.call (.get k key) o w = true)
    (h : answer (.get k key) o w = some (r, v)) :
    r = found (w.store.robin k key) ∧ v.store = w.store := by
  cases o with
  | refused => cases ok
  | lost => cases ok
  | _ =>
    simp only [answer, Option.map_eq_some_iff] at h
    obtain ⟨⟨i, st⟩, hv, he⟩ := h
    cases he
    rw [view_flawless ok hv]
    exact ⟨rfl, rfl⟩

theorem always_get (k : Kind) (key : NamespacedName) :
    Always flawless (get k key) w fun r v =>
      r = found (w.store.robin k key) ∧ v.store = w.store :=
  Always.perform fun _ _ _ ok hw => answer_get_flawless ok hw

theorem always_count (c : Counter) :
    Always flawless (count c) w fun _ v => v.store = w.store := by
  refine Always.request fun o r v ok hw => ?_
  cases o <;> cases hw
  exact ⟨_, rfl, rfl⟩

theorem answer_write_flawless {a : Write} {o : Outcome} {r : Except ApiError Unit} {v : World}
    (ok : flawless.call (.write a) o w = true) (h : answer (.write a) o w = some (r, v)) :
    (∃ st, w.store.apply a = .ok st ∧ r = .ok () ∧ v.store = st) ∨
      ∃ e, w.store.apply a = .error e ∧ r = .error e ∧ v = w := by
  cases o with
  | ok =>
    have hw : Kube.perform a w = (r, v) := Option.some.inj h
    unfold Kube.perform at hw
    cases hst : w.store.apply a with
    | error e =>
      rw [hst] at hw
      cases hw
      exact .inr ⟨e, rfl, rfl, rfl⟩
    | ok st =>
      rw [hst] at hw
      cases hw
      exact .inl ⟨st, rfl, rfl, rfl⟩
  | stale i order => cases h
  | refused => cases ok
  | lost => cases ok

theorem always_writeOrFail {a : Write} {st : Store} (h : w.store.apply a = .ok st) :
    Always flawless (writeOrFail a) w fun _ v => v.store = st := by
  refine Always.request fun o r v ok hw => ?_
  obtain ⟨st', hst, rfl, hv⟩ | ⟨e, he, -⟩ := answer_write_flawless ok hw
  · rw [h] at hst
    cases hst
    exact ⟨(), rfl, hv⟩
  · rw [h] at he
    cases he

theorem always_stage {m : Act α} {Q : α → World → Prop} (name : String) (h : Always flawless m w Q) :
    Always flawless (stage name m) w Q := by
  refine Always.bind (Q := fun r v => ∃ a, r = .ok a ∧ Q a v)
    (Always.attempt (h.mono fun a v hq => ⟨a, rfl, hq⟩)) ?_
  rintro r v ⟨a, rfl, hq⟩
  exact .ret hq

/-! ## Robin's objects -/

/-- The Redkeys are left alone. -/
abbrev Leaves (w : World) : α → World → Prop := fun _ v => v.store.redkeys = w.store.redkeys

theorem always_robinWrite {a : Write} {st : Store} (h : w.store.apply a = .ok st)
    (ha : RobinWrite (.write a)) : Always flawless (writeOrFail a) w (Leaves w) :=
  (always_writeOrFail h).mono fun _ _ hv => (congrArg Store.redkeys hv).trans (quiet_apply ha h).1

theorem apply_create_of_none {k : Kind} {o : Obj k} {st : Store}
    (h : st.robin k o.metadata.key = none) :
    st.apply (.create k o) = .ok (st.setRobin k o.metadata.key (some o)) := by
  simp [Store.apply, h]

theorem apply_patch_of_some {k : Kind} {o stored : Obj k} {st : Store}
    (h : st.robin k o.metadata.key = some stored) :
    st.apply (.patch k o) = .ok (st.setRobin k o.metadata.key (some (patched stored o))) := by
  simp [Store.apply, h]

theorem always_ensure {k : Kind} (desired : Obj k) (drifted : Obj k → Bool) :
    Always flawless (ensure k desired drifted) w (Leaves w) := by
  refine Always.bind (always_get k desired.metadata.key) ?_
  rintro r v ⟨rfl, hv⟩
  cases hs : w.store.robin k desired.metadata.key with
  | none =>
    refine (always_robinWrite (apply_create_of_none (hv ▸ hs)) trivial).mono fun _ u hu => ?_
    exact hu.trans (congrArg Store.redkeys hv)
  | some existing =>
    show Always flawless (if drifted existing then _ else _) v _
    split
    · refine (always_robinWrite (apply_patch_of_some (hv ▸ hs)) trivial).mono fun _ u hu => ?_
      exact hu.trans (congrArg Store.redkeys hv)
    · exact .ret (congrArg Store.redkeys hv)

theorem always_ensureRoleBinding (cluster : Redkey) :
    Always flawless (ensureRoleBinding cluster) w (Leaves w) := by
  refine Always.bind (always_get .roleBinding (robinKey cluster)) ?_
  rintro r v ⟨rfl, hv⟩
  have hr := congrArg Store.redkeys hv
  cases hs : w.store.robin .roleBinding (robinKey cluster) with
  | none =>
    exact (always_robinWrite (apply_create_of_none (hv ▸ hs)) trivial).mono fun _ u hu => hu.trans hr
  | some existing =>
    show Always flawless (if _ then _ else if _ then _ else _) v _
    split
    · -- the old binding is there to be deleted, and then there is none
      have hdel : v.store.apply (.delete .roleBinding (robinKey cluster)) =
          .ok (v.store.setRobin .roleBinding (robinKey cluster) none) := by
        simp [Store.apply, hv, hs]
      refine Always.bind (always_writeOrFail hdel) fun _ u hu => ?_
      have hnone : u.store.robin .roleBinding (desiredRoleBinding cluster).metadata.key = none := by
        rw [hu]
        exact Store.robin_setRobin_self _ _ _ _
      refine (always_robinWrite (apply_create_of_none hnone) trivial).mono fun _ x hx => ?_
      exact hx.trans ((congrArg Store.redkeys hu).trans hr)
    · split
      · exact (always_robinWrite (apply_patch_of_some (hv ▸ hs)) trivial).mono
          fun _ u hu => hu.trans hr
      · exact .ret hr

theorem always_ensureRBAC (cluster : Redkey) :
    Always flawless (ensureRBAC cluster) w (Leaves w) := by
  refine Always.bind (always_ensure _ _) fun _ v hv => ?_
  refine Always.bind (always_ensure _ _) fun _ u hu => ?_
  exact (always_ensureRoleBinding cluster).mono fun _ x hx => hx.trans (hu.trans hv)

theorem always_ensureRobinDeployment (cluster : Redkey) :
    Always flawless (ensureRobinDeployment cluster) w (Leaves w) := by
  refine Always.bind (always_get .deployment _) ?_
  rintro r v ⟨rfl, hv⟩
  have hr := congrArg Store.redkeys hv
  have counted : ∀ {m : Act Unit} {c : Counter}, Always flawless m v (Leaves v) →
      Always flawless (m.bind fun _ => count c) v (Leaves w) := by
    intro m c hm
    refine Always.bind hm fun _ u hu => ?_
    exact (always_count c).mono fun _ x hx => (congrArg Store.redkeys hx).trans (hu.trans hr)
  cases hs : w.store.robin .deployment (buildDesiredRobinDeployment cluster).metadata.key with
  | none => exact counted (always_robinWrite (apply_create_of_none (hv ▸ hs)) trivial)
  | some existing =>
    show Always flawless (if _ then _ else _) v _
    split
    · exact counted (always_robinWrite (apply_patch_of_some (hv ▸ hs)) trivial)
    · exact .ret hr

/-! ## Configs and the status -/

theorem always_listConfigs (cluster : Redkey) :
    Always flawless (listConfigs cluster) w (Leaves w) := by
  refine Always.bind (Q := fun _ (v : World) => v.store = w.store)
    (Always.request fun o r v ok hw => ?_) fun _ _ hv => .ret (congrArg Store.redkeys hv)
  obtain ⟨⟨items, rfl⟩, hv⟩ := answer_listConfigs_flawless ok hw
  exact ⟨items, rfl, hv⟩

theorem always_createNewConfig (cluster : Redkey) (highestSeq : Option RedkeyConfig) :
    Always flawless (createNewConfig cluster highestSeq) w (Leaves w) := by
  refine Always.bind (Q := fun (r : Except ApiError Unit) (v : World) =>
    (r = .ok () ∨ r = .error .alreadyExists) ∧
    v.store.redkeys = w.store.redkeys) (Always.perform fun o r v ok hw => ?_) ?_
  · obtain ⟨st, hst, rfl, rfl⟩ | ⟨e, he, rfl, rfl⟩ := answer_write_flawless ok hw
    · obtain ⟨-, hst⟩ := apply_createConfig hst
      exact ⟨.inl rfl, by rw [hst]⟩
    · obtain ⟨rfl, -⟩ := apply_createConfig_error he
      exact ⟨.inr rfl, rfl⟩
  · rintro r v ⟨rfl | rfl, hv⟩
    · exact (always_count _).mono fun _ u hu => (congrArg Store.redkeys hu).trans hv
    · exact .ret hv

theorem always_ensureConfig (cluster : Redkey) :
    Always flawless (ensureConfig cluster) w (Leaves w) := by
  refine Always.bind (always_stage _ (always_listConfigs cluster)) fun configs v hv => ?_
  split
  · refine Always.bind (always_stage _ (always_createNewConfig _ _)) fun _ u hu => ?_
    exact (always_stage _ (always_listConfigs cluster)).mono fun _ x hx => hx.trans (hu.trans hv)
  · exact .ret hv

theorem always_deleteOlder (older kept : List RedkeyConfig) :
    Always flawless (deleteOlder older kept) w fun res v =>
      res = (kept, none) ∧ v.store.redkeys = w.store.redkeys := by
  induction older generalizing w with
  | nil => exact .ret ⟨rfl, rfl⟩
  | cons c cs ih =>
    refine Always.bind (Q := fun (r : Except ApiError Unit) (v : World) =>
      (r = .ok () ∨ r = .error .notFound) ∧
      v.store.redkeys = w.store.redkeys) (Always.perform fun o r v ok hw => ?_) ?_
    · obtain ⟨st, hst, rfl, rfl⟩ | ⟨e, he, rfl, rfl⟩ := answer_write_flawless ok hw
      · obtain ⟨d, -, hst⟩ := apply_deleteConfig hst
        exact ⟨.inl rfl, by rw [hst]; rfl⟩
      · obtain ⟨rfl, -⟩ := apply_deleteConfig_error he
        exact ⟨.inr rfl, rfl⟩
    · rintro r v ⟨rfl | rfl, hv⟩
      · refine Always.bind (always_count _) fun _ u hu => ?_
        exact ih.mono fun _ x hx => ⟨hx.1, hx.2.trans ((congrArg Store.redkeys hu).trans hv)⟩
      · exact ih.mono fun _ x hx => ⟨hx.1, hx.2.trans hv⟩

/-- With nobody else writing, the version just read is the stored one. -/
theorem always_tryAggregateStatus {cluster rk : Redkey} (active : RedkeyConfig)
    (hk : rk.key = cluster.key) (h : w.store.redkeys cluster.key = some rk) :
    Always flawless (tryAggregateStatus cluster active) w fun _ _ => True := by
  refine Always.bind (always_getRedkey h) ?_
  rintro latest v ⟨rfl, hv⟩
  refine Always.bind (Q := fun _ (u : World) => u.store = v.store)
    (Always.request fun o r u ok hw => ?_)
    fun now u hu => ?_
  · cases o <;> cases hw
    exact ⟨_, rfl, rfl⟩
  · refine Always.bind (Q := fun r _ => r = .ok ()) (Always.perform fun o r x ok hw => ?_) ?_
    · obtain ⟨st, -, rfl, -⟩ | ⟨e, he, -⟩ := answer_write_flawless ok hw
      · rfl
      · simp [Store.apply, hu, hv, hk, h] at he
    · rintro r x rfl
      exact .ret trivial

theorem always_aggregateStatus {cluster rk : Redkey} (configs : List RedkeyConfig)
    (hk : rk.key = cluster.key) (h : w.store.redkeys cluster.key = some rk) :
    Always flawless (aggregateStatus cluster configs) w fun _ _ => True := by
  unfold aggregateStatus
  split
  · exact .ret trivial
  · rename_i active _
    refine Always.bind (Q := fun _ _ => True) ?_ fun _ _ _ => .ret trivial
    -- the first attempt succeeds
    refine Always.bind (Q := fun r _ => ∃ s, r = .ok s) (Always.attempt
      ((always_tryAggregateStatus active hk h).mono fun s _ _ => ⟨s, rfl⟩)) ?_
    rintro r v ⟨s, rfl⟩
    exact .ret trivial

theorem always_settleConfigs {cluster rk : Redkey} (configs : List RedkeyConfig)
    (hk : rk.key = cluster.key) (h : w.store.redkeys cluster.key = some rk) :
    Always flawless (settleConfigs cluster configs) w fun _ _ => True := by
  unfold settleConfigs
  split
  · exact .ret trivial
  · refine Always.bind (always_deleteOlder _ _) ?_
    rintro res v ⟨rfl, hv⟩
    refine Always.bind (always_stage _ (always_aggregateStatus _ hk ?_)) fun _ _ _ => .ret trivial
    rw [hv, h]

/-! ## The loop -/

theorem always_reconcile (r : RedkeyReconciler) {rk : Redkey} (h : w.store.redkeys rk.key = some rk)
    (hp : rk.spec.primaries ≠ 0) : Always flawless (reconcile r rk.key) w fun _ _ => True := by
  refine Always.bind (Q := fun res (v : World) => res = .ok rk ∧ v.store = w.store)
    (Always.perform fun o res v ok hw => ?_) ?_
  · obtain ⟨rfl, hv⟩ := answer_getRedkey_flawless ok hw
    rw [h]
    exact ⟨rfl, hv⟩
  · rintro res v ⟨rfl, hv⟩
    show Always flawless (if rk.spec.primaries = 0 then _ else _) v _
    rw [if_neg hp]
    refine Always.bind (Q := fun _ _ => True) ?_ fun _ _ _ => .ret trivial
    refine Always.bind (always_stage _ (always_ensureRBAC rk)) fun _ v₁ h₁ => ?_
    refine Always.bind (always_stage _ (always_ensureRobinDeployment rk)) fun _ v₂ h₂ => ?_
    refine Always.bind (always_ensureConfig rk) fun configs v₃ h₃ => ?_
    have hrk : v₃.store.redkeys rk.key = some rk := by
      rw [h₃, h₂, h₁, hv, h]
    refine Always.bind (always_settleConfigs configs rfl hrk) fun _ v₄ _ => ?_
    refine Always.request fun o res u ok hw => ?_
    cases o <;> cases hw
    exact ⟨_, rfl, trivial⟩

/-! ## Scaling to zero -/

/-- An object that is there is deleted, and one that is not does not matter. -/
theorem always_deleteIgnoringNotFound {a : Write}
    (ha : (∃ k key, a = .delete k key) ∨ ∃ key, a = .deleteConfig key) :
    Always flawless (deleteIgnoringNotFound a) w (Leaves w) := by
  refine Always.bind (Q := fun (r : Except ApiError Unit) (v : World) =>
    (r = .ok () ∨ r = .error .notFound) ∧ v.store.redkeys = w.store.redkeys)
    (Always.perform fun o r v ok hw => ?_) ?_
  · obtain ⟨st, hst, rfl, rfl⟩ | ⟨e, he, rfl, rfl⟩ := answer_write_flawless ok hw
    · refine ⟨.inl rfl, ?_⟩
      obtain ⟨k, key, rfl⟩ | ⟨key, rfl⟩ := ha
      · exact (quiet_apply (a := .delete k key) trivial hst).1
      · obtain ⟨d, -, hst⟩ := apply_deleteConfig hst
        rw [hst]
        rfl
    · refine ⟨.inr ?_, rfl⟩
      obtain ⟨k, key, rfl⟩ | ⟨key, rfl⟩ := ha
      · rw [(apply_delete_error he).1]
      · rw [(apply_deleteConfig_error he).1]
  · rintro r v ⟨rfl | rfl, hv⟩
    · exact .ret hv
    · exact .ret hv

theorem always_deleteConfigs (configs : List RedkeyConfig) :
    Always flawless (deleteConfigs configs) w (Leaves w) := by
  induction configs generalizing w with
  | nil => exact .ret rfl
  | cons c cs ih =>
    refine Always.bind (always_deleteIgnoringNotFound (.inr ⟨c.key, rfl⟩)) fun _ v hv => ?_
    exact ih.mono fun _ u hu => hu.trans hv

theorem always_deleteAllConfigs (cluster : Redkey) :
    Always flawless (deleteAllConfigs cluster) w (Leaves w) := by
  refine Always.bind (Q := fun _ (v : World) => v.store = w.store)
    (Always.request fun o r v ok hw => ?_) fun items v hv => ?_
  · obtain ⟨⟨items, rfl⟩, hv⟩ := answer_listConfigs_flawless ok hw
    exact ⟨items, rfl, hv⟩
  · exact (always_deleteConfigs items).mono fun _ u hu => hu.trans (congrArg Store.redkeys hv)

/-- The version read at the start is still the stored one. -/
theorem always_updateStatusScaledToZero {cluster : Redkey}
    (h : w.store.redkeys cluster.key = some cluster) :
    Always flawless (updateStatusScaledToZero cluster) w fun _ _ => True := by
  refine Always.bind (Q := fun _ (v : World) => v.store = w.store)
    (Always.request fun o r v ok hw => ?_) fun now v hv => ?_
  · cases o <;> cases hw
    exact ⟨_, rfl, rfl⟩
  · let rk := { cluster with status := scaledToZeroStatus now cluster }
    have hst : v.store.apply (.updateStatus rk) =
        .ok (v.store.setRedkey (cluster.withStatus rk.status)) := by
      have hk : v.store.redkeys rk.key = some cluster := hv ▸ h
      simp [Store.apply, hk, rk]
    exact Always.bind (always_writeOrFail hst) fun _ _ _ => .ret trivial

theorem always_finishScaleToZero {cluster : Redkey}
    (h : w.store.redkeys cluster.key = some cluster) :
    Always flawless (finishScaleToZero cluster) w fun _ _ => True := by
  refine Always.bind (always_deleteIgnoringNotFound (.inl ⟨_, _, rfl⟩)) fun _ v₁ h₁ => ?_
  refine Always.bind (Q := fun _ (v : World) => v.store.redkeys = w.store.redkeys) ?_
    fun _ v₂ h₂ => ?_
  · refine Always.bind (always_deleteIgnoringNotFound (.inl ⟨_, _, rfl⟩)) fun _ v₂ h₂ => ?_
    refine Always.bind (always_deleteIgnoringNotFound (.inl ⟨_, _, rfl⟩)) fun _ v₃ h₃ => ?_
    exact (always_deleteIgnoringNotFound (.inl ⟨_, _, rfl⟩)).mono
      fun _ u hu => hu.trans (h₃.trans (h₂.trans h₁))
  · refine Always.bind (always_deleteAllConfigs cluster) fun _ v₃ h₃ => ?_
    exact always_updateStatusScaledToZero (by rw [h₃, h₂, h])

theorem always_reconcileScaleToZero {cluster : Redkey}
    (h : w.store.redkeys cluster.key = some cluster) :
    Always flawless (reconcileScaleToZero cluster) w fun _ _ => True := by
  refine Always.bind (always_listConfigs cluster) fun configs v hv => ?_
  have hrk : v.store.redkeys cluster.key = some cluster := by rw [hv, h]
  split
  · exact always_updateStatusScaledToZero hrk
  · rename_i latest _
    split
    · refine Always.bind (always_ensureRBAC cluster) fun _ v₁ _ => ?_
      refine Always.bind (always_ensureRobinDeployment cluster) fun _ v₂ _ => ?_
      exact Always.bind (always_createNewConfig cluster _) fun _ _ _ => .ret trivial
    · split
      · exact always_finishScaleToZero hrk
      · refine Always.bind (always_ensureRBAC cluster) fun _ v₁ h₁ => ?_
        refine Always.bind (always_ensureRobinDeployment cluster) fun _ v₂ h₂ => ?_
        exact always_aggregateStatus configs rfl (by rw [h₂, h₁, hrk])

/-- Without failures every Reconcile of a stored Redkey returns. -/
theorem reconcile_returns (r : RedkeyReconciler) {rk : Redkey}
    (h : w.store.redkeys rk.key = some rk) :
    Always flawless (reconcile r rk.key) w fun _ _ => True := by
  by_cases hp : rk.spec.primaries = 0
  · refine Always.bind (Q := fun res (v : World) => res = .ok rk ∧ v.store = w.store)
      (Always.perform fun o res v ok hw => ?_) ?_
    · obtain ⟨rfl, hv⟩ := answer_getRedkey_flawless ok hw
      rw [h]
      exact ⟨rfl, hv⟩
    · rintro res v ⟨rfl, hv⟩
      show Always flawless (if rk.spec.primaries = 0 then _ else _) v _
      rw [if_pos hp]
      refine Always.bind (always_stage _ (always_reconcileScaleToZero (hv ▸ h))) fun _ u _ => ?_
      refine Always.bind (Q := fun _ _ => True) ?_ fun _ _ _ => .ret trivial
      refine Always.request fun o res u ok hw => ?_
      cases o <;> cases hw
      exact ⟨_, rfl, trivial⟩
  · exact always_reconcile r h hp

end RedkeyOperator.Controller

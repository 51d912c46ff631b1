import RedkeyOperator.Protocol.Leftovers
import RedkeyOperator.Protocol.Provision

/-! # Robin never runs without its permissions

Whenever the Deployment of Robin is stored, its pods run under a ServiceAccount
that is stored too, and a RoleBinding that is stored gives that account the Role
with the rules Robin needs. Reconcile finds the objects in a cache. It has to be
up to date about them: one that still has a deleted ServiceAccount would let
Robin start without it. -/
namespace RedkeyOperator.Protocol
open RedkeyOperator.Api RedkeyOperator.Kube RedkeyOperator.Interleave RedkeyOperator.Controller

variable {T : Terms server} {req : NamespacedName} {w₀ w w' : World} {u v : Provision} {st : Store}
  {r : RedkeyReconciler} {s : State server Result}

/-- Robin's objects are read from the current store. -/
def currentObjects : Terms server where
  env _ _ := true
  call c o w := match c, o with
    | .get _ _, .stale i _ => i == w.now
    | _, _ => true

theorem get_currentObjects {k : Kind} {key : NamespacedName} {o : Outcome} {obj : Obj k}
    (ok : currentObjects.call (.get k key) o w = true)
    (hw : answer (.get k key) o w = some (.ok obj, w')) :
    w.store.robin k key = some obj ∧ w'.store = w.store := by
  obtain ⟨hr, -⟩ | ⟨i, st, hv, hr, rfl⟩ := answer_get hw
  · cases hr
  · obtain ⟨-, rfl⟩ :=
      view_now (fun j order ho => by subst ho; simpa [currentObjects] using ok) hv
    refine ⟨?_, rfl⟩
    cases hst : w.store.robin k key with
    | none => rw [hst] at hr; cases hr
    | some x => rw [hst] at hr; cases hr; rfl

/-! ## What the objects hold -/

/-- The content that makes the objects of the Robin of `req` work together. -/
def Serves (req : NamespacedName) : (k : Kind) → NamespacedName → Obj k → Prop
  | .serviceAccount, _, _ => True
  | .role, key, (o : Role) => key = robinKeyOf req → o.rules = desiredRobinRules
  | .roleBinding, key, (o : RoleBinding) => key = robinKeyOf req →
    o.roleRef = ⟨"rbac.authorization.k8s.io", "Role", (robinKeyOf req).name⟩ ∧
      o.subjects = [⟨"ServiceAccount", (robinKeyOf req).name, req.namespace_⟩]
  | .deployment, key, (o : Deployment) => key = robinKeyOf req →
    o.template.spec.serviceAccountName = (robinKeyOf req).name

theorem serviceAccountName_desired (rk : Redkey) :
    (buildDesiredRobinDeployment rk).template.spec.serviceAccountName = robinName rk := by
  simp only [buildDesiredRobinDeployment, robinPodSpec]
  split <;> rfl

theorem made_serves (req : NamespacedName) : Made (fun rk => rk.key = req) (Serves req) where
  desired hG k := by
    subst hG
    cases k with
    | serviceAccount => trivial
    | role => exact fun _ => rfl
    | roleBinding => exact fun _ => ⟨rfl, rfl⟩
    | deployment => exact fun _ => serviceAccountName_desired _
  patched hG k stored hs := by
    subst hG
    cases k with
    | serviceAccount => trivial
    | role => exact fun _ => rfl
    | roleBinding => exact fun hk => ⟨(hs hk).1, rfl⟩
    | deployment => exact fun _ => serviceAccountName_desired _
  deployment hG stored existing hs := by
    subst hG
    exact fun _ => serviceAccountName_desired _

/-! ## What the stores have -/

def Stored (req : NamespacedName) (st : Store) (k : Kind) : Prop :=
  (st.robin k (robinKeyOf req)).isSome = true

/-- A Deployment that is there has its account, Role and RoleBinding. -/
def Supported (req : NamespacedName) (st : Store) : Prop :=
  Stored req st .deployment → ∀ k, Stored req st k

theorem stored_setRobin {k : Kind} {o : Option (Obj k)} (k' : Kind) :
    Stored req (st.setRobin k (robinKeyOf req) o) k' ↔
      if k' = k then o.isSome = true else Stored req st k' := by
  unfold Stored
  split
  · rename_i h
    subst h
    rw [Store.robin_setRobin_self]
  · rename_i h
    rw [Store.robin_setRobin_of_ne _ _ (.inl h)]

theorem Supported.put {k : Kind} {o : Obj k} (h : Supported req st)
    (hk : k = .deployment → ∀ k', k' = .deployment ∨ Stored req st k') :
    Supported req (st.setRobin k (robinKeyOf req) (some o)) := by
  intro hd k'
  rw [stored_setRobin] at hd ⊢
  split
  · rfl
  · rename_i hne
    by_cases he : k = .deployment
    · exact (hk he k').resolve_left (he ▸ hne)
    · rw [if_neg (Ne.symm he)] at hd
      exact h hd k'

theorem supported_remove {k : Kind}
    (hk : k = .deployment ∨ ¬ Stored req st .deployment) :
    Supported req (st.setRobin k (robinKeyOf req) none) := by
  intro hd k'
  rw [stored_setRobin] at hd
  exfalso
  split at hd
  · cases hd
  · rename_i hne
    rcases hk with rfl | hn
    · exact hne rfl
    · exact hn hd

/-! ## The machine and the store -/

structure Provided (req : NamespacedName) (v : Provision) (st : Store) : Prop where
  cluster : ∀ rk, v.cluster = some rk → rk.key = req
  present : ∀ rk there, v = .building rk there → ∀ k ∈ there, Stored req st k
  absent : ∀ rk gone, v = .clearing rk gone → ∀ k ∈ gone, ¬ Stored req st k
  /-- The RoleBinding is never replaced. -/
  matched : ∀ rk, v ≠ .mismatched rk
  supported : Supported req st
  serves : RobinAll (Serves req) st

theorem Provided.loose (hv : v = .off ∨ v = .stopped) (hs : Supported req st)
    (hr : RobinAll (Serves req) st) : Provided req v st where
  cluster _ h := by rcases hv with rfl | rfl <;> cases h
  present _ _ h := by rcases hv with rfl | rfl <;> cases h
  absent _ _ h := by rcases hv with rfl | rfl <;> cases h
  matched _ h := by rcases hv with rfl | rfl <;> cases h
  supported := hs
  serves := hr

theorem Provided.building {rk : Redkey} {there : List Kind} (hk : rk.key = req)
    (ht : ∀ k ∈ there, Stored req st k) (hs : Supported req st) (hr : RobinAll (Serves req) st) :
    Provided req (.building rk there) st where
  cluster _ h := by cases h; exact hk
  present _ _ h := by cases h; exact ht
  absent _ _ h := by cases h
  matched _ h := by cases h
  supported := hs
  serves := hr

theorem Provided.clearing {rk : Redkey} {gone : List Kind} (hk : rk.key = req)
    (hg : ∀ k ∈ gone, ¬ Stored req st k) (hs : Supported req st)
    (hr : RobinAll (Serves req) st) : Provided req (.clearing rk gone) st where
  cluster _ h := by cases h; exact hk
  present _ _ h := by cases h
  absent _ _ h := by cases h; exact hg
  matched _ h := by cases h
  supported := hs
  serves := hr

theorem Provided.silent (h : Provided req u st) (hs : ProvisionSilent u v) : Provided req v st := by
  cases hs with
  | clear _ => exact .clearing (h.cluster _ rfl) (by simp) h.supported h.serves

theorem Provided.of_robin {st' : Store} (h : Provided req v st) (hr : st'.robin = st.robin) :
    Provided req v st' := by
  have hst : ∀ k, Stored req st' k ↔ Stored req st k := fun k => by rw [Stored, Stored, hr]
  refine ⟨h.cluster, fun rk there hv k hk => (hst k).mpr (h.present rk there hv k hk),
    fun rk gone hv k hk hs => h.absent rk gone hv k hk ((hst k).mp hs), h.matched, ?_, ?_⟩
  · exact fun hd k => (hst k).mpr (h.supported ((hst _).mp hd) k)
  · intro k key o ho
    rw [hr] at ho
    exact h.serves k key o ho

/-- A deletion leaves the kind deleted, or nothing changed. -/
theorem answer_delete {k : Kind} {key : NamespacedName} {o : Outcome} {res : Except ApiError Unit}
    (hw : answer (.write (.delete k key)) o w = some (res, w')) :
    w'.store = w.store.setRobin k key none ∨
      (w'.store = w.store ∧ (res = .error .notFound → w.store.robin k key = none) ∧
        res ≠ .ok ()) := by
  obtain ⟨rfl, e, rfl, he⟩ | ⟨st, hst, rfl, -⟩ := answer_write hw
  · refine .inr ⟨rfl, fun hn => ?_, nofun⟩
    cases hn
    rcases he with he | he
    · cases he
    · simp only [Store.apply] at he
      split at he
      · cases he
      · rename_i hnone
        simpa using hnone
  · exact .inl (apply_delete hst)

theorem Provided.deleted {rk : Redkey} {gone : List Kind} {k : Kind}
    (h : Provided req (.clearing rk gone) st) (hk : Released k gone) :
    Provided req (.clearing rk (k :: gone)) (st.setRobin k (robinKeyOf req) none) := by
  refine .clearing (h.cluster _ rfl) ?_ (supported_remove ?_) (h.serves.setRobin nofun)
  · intro k' hk'
    rw [stored_setRobin]
    split
    · simp
    · rename_i hne
      exact h.absent _ _ rfl k' ((List.mem_cons.mp hk').resolve_left hne)
  · exact hk.imp_right (h.absent _ _ rfl _)

theorem Provided.put {rk : Redkey} {there : List Kind} {k : Kind} {o : Obj k}
    (h : Provided req (.building rk there) st)
    (hk : k = .deployment → ∀ k', k' = .deployment ∨ Stored req st k')
    (hr : RobinAll (Serves req) (st.setRobin k (robinKeyOf req) (some o))) :
    Provided req (.building rk (k :: there)) (st.setRobin k (robinKeyOf req) (some o)) := by
  refine .building (h.cluster _ rfl) (fun k' hk' => ?_) (h.supported.put hk) hr
  rw [stored_setRobin]
  split
  · rfl
  · rename_i hne
    exact h.present _ _ rfl k' ((List.mem_cons.mp hk').resolve_left hne)

theorem Provided.weaken {rk : Redkey} {there : List Kind} {k : Kind}
    (h : Provided req (.building rk (k :: there)) st) : Provided req (.building rk there) st :=
  .building (h.cluster _ rfl) (fun k' hk' => h.present _ _ rfl k' (List.mem_cons_of_mem _ hk'))
    h.supported h.serves

/-- What a create or a patch leaves, whether its answer arrives or not. -/
theorem Provided.create {rk : Redkey} {there : List Kind} {k : Kind} {o : Outcome}
    {res : Except ApiError Unit} (h : Provided req (.building rk there) w.store)
    (hk : Supplied k there)
    (hw : answer (.write (.create k (desiredObject rk k))) o w = some (res, w')) :
    Provided req (.building rk there) w'.store ∧
      (res = .ok () → Provided req (.building rk (k :: there)) w'.store) := by
  have hkey := h.cluster _ rfl
  have hr : RobinAll (Serves req) w'.store :=
    h.serves.answer (made_serves req) (Emits.create hkey k) hw
  obtain ⟨rfl, e, rfl, -⟩ | ⟨st, hst, rfl, -⟩ := answer_write hw
  · exact ⟨h, nofun⟩
  · obtain ⟨-, rfl⟩ := apply_create hst
    rw [World.store_commit, (metadata_desiredObject rk k).1, robinKey_eq hkey] at hr ⊢
    have hput := h.put (fun hd k' => (hk hd k').imp_right (h.present _ _ rfl k')) hr
    exact ⟨hput.weaken, fun _ => hput⟩

theorem Provided.patch {rk : Redkey} {there : List Kind} {k : Kind} {x : Obj k} {o : Outcome}
    {res : Except ApiError Unit} (h : Provided req (.building rk there) w.store)
    (hx : x.metadata.key = robinKey rk) (he : Emits (Eq rk) (.write (.patch k x)))
    (hw : answer (.write (.patch k x)) o w = some (res, w')) :
    Provided req (.building rk there) w'.store := by
  have hkey := h.cluster _ rfl
  have hr : RobinAll (Serves req) w'.store :=
    h.serves.answer (made_serves req) (he.mono fun _ hrk => hrk ▸ hkey) hw
  obtain ⟨rfl, -⟩ | ⟨st, hst, rfl, -⟩ := answer_write hw
  · exact h
  · obtain ⟨stored, hs, rfl⟩ := apply_patch hst
    rw [hx, robinKey_eq hkey] at hs
    rw [World.store_commit, hx, robinKey_eq hkey] at hr ⊢
    refine (h.put (fun hd k' => .inr (h.supported ?_ k')) hr).weaken
    subst hd
    rw [Stored, hs]
    rfl

theorem Provided.next {c : Call} {o : Outcome} {res : Except ApiError (Reply c)}
    (h : Provided req u w.store) (hv : ProvisionNext req u c res v)
    (hread : ∀ rk, (⟨c, res⟩ : Σ c, Except ApiError (Reply c)) = ⟨.getRedkey req, .ok rk⟩ →
      rk.key = req)
    (ok : currentObjects.call c o w = true) (hw : answer c o w = some (res, w')) :
    Provided req v w'.store := by
  cases hv with
  | pass _ hc => exact h.of_robin (answer_robin_eq hc hw)
  | get =>
    have h' := h.of_robin (answer_robin_eq id hw)
    exact .building (hread _ rfl) (by simp) h'.supported h'.serves
  | missing =>
    have h' := h.of_robin (answer_robin_eq id hw)
    exact .loose (.inr rfl) h'.supported h'.serves
  | @found rk there k obj =>
    have hkey := h.cluster _ rfl
    obtain ⟨hobj, hst⟩ := get_currentObjects ok hw
    rw [robinKey_eq hkey] at hobj
    rw [hst]
    refine .building hkey (fun k' hk' => ?_) h.supported h.serves
    rcases List.mem_cons.mp hk' with rfl | hk'
    · rw [Stored, hobj]
      rfl
    · exact h.present _ _ rfl k' hk'
  | create hk => exact (h.create hk hw).2 rfl
  | createFailed hk => exact (h.create hk hw).1
  | patch he hx => exact h.patch hx he hw
  | @mismatch rk there existing hne =>
    have hkey := h.cluster _ rfl
    obtain ⟨hobj, -⟩ := get_currentObjects ok hw
    refine absurd ((h.serves _ _ _ hobj (robinKey_eq hkey)).1.trans ?_) hne
    rw [← hkey]
    rfl
  | replace => exact absurd rfl (h.matched _)
  | @delete rk gone k r hk hr =>
    rw [robinKey_eq (h.cluster _ rfl)] at hw
    obtain hst | ⟨hst, hnone, hok⟩ := answer_delete hw
    · rw [hst]
      exact h.deleted hk
    · rw [hst]
      refine .clearing (h.cluster _ rfl) (fun k' hk' => ?_) h.supported h.serves
      rcases List.mem_cons.mp hk' with rfl | hk'
      · rw [Stored, hnone (hr.resolve_left hok)]
        simp
      · exact h.absent _ _ rfl k' hk'
  | @failed rk gone k e hk =>
    rw [robinKey_eq (h.cluster _ rfl)] at hw
    obtain hst | ⟨hst, -⟩ := answer_delete hw
    · rw [hst]
      exact .loose (.inr rfl) (h.deleted hk).supported (h.deleted hk).serves
    · rw [hst]
      exact .loose (.inr rfl) h.supported h.serves

/-! ## Runs -/

theorem Built.provided {p : Point} (hT : T.Implies currentObjects) (hf : Fresh req w₀)
    (hb : Bare req w₀.store) (h : Built T req w₀ p v w) : Provided req v w.store := by
  refine h.induct (G := fun _ v w => Provided req v w.store) ?_ ?_ ?_ ?_ ?_ ?_
  · refine .loose (.inl rfl) (fun hd => ?_) fun k key o ho => ?_
    · rw [Stored, hb] at hd
      cases hd
    · have hne : key ≠ robinKeyOf req := by
        intro hk
        rw [hk, hb k] at ho
        cases ho
      cases k with
      | serviceAccount => trivial
      | _ => exact fun hk => absurd hk hne
  · intro p v e w w' _ ih _ he
    exact ih.of_robin (env_robin_eq he)
  · intro p v w ih
    exact .loose (.inl rfl) ih.supported ih.serves
  · intro p p' v w _ ih _
    exact ih
  · intro p v v' w ih hs
    exact ih.silent hs
  · intro p p' v v' w w' c o res hrun ih _ hn ok hw
    refine ih.next hn (fun rk he => ?_) (hT.call c o w ok) hw
    cases he
    obtain ⟨i, st, hview, hst, -⟩ := answer_getRedkey_ok hw
    exact ((hrun.runs.versions hf.versions).of_mem (view_mem hview) hst).1

/-- From a new Redkey with nothing of Robin's there, and with Robin's objects read from
the current store: a Deployment that is stored can do its work. The account of its
pods is there, and a RoleBinding that is there gives that account, and no one else, the
Role with the rules Robin needs. -/
theorem robin_has_its_permissions (hT : T.Implies currentObjects) (hf : Fresh req w₀)
    (hb : Bare req w₀.store) (h : Reaches T (reconcile r req) ⟨w₀, none⟩ s) {d : Deployment}
    (hd : s.world.store.robin .deployment (robinKeyOf req) = some d) :
    ∃ (account : ServiceAccount) (role : Role) (binding : RoleBinding),
      s.world.store.robin .serviceAccount
        ⟨req.namespace_, d.template.spec.serviceAccountName⟩ = some account ∧
      s.world.store.robin .roleBinding (robinKeyOf req) = some binding ∧
      binding.subjects =
        [⟨"ServiceAccount", d.template.spec.serviceAccountName, req.namespace_⟩] ∧
      binding.roleRef.kind = "Role" ∧
      s.world.store.robin .role ⟨req.namespace_, binding.roleRef.name⟩ = some role ∧
      role.rules = desiredRobinRules := by
  obtain ⟨p, v, hrun⟩ := reconcile_built h
  have hp := hrun.provided hT hf hb
  have hall := hp.supported (by rw [Stored, hd]; rfl)
  obtain ⟨account, haccount⟩ := Option.isSome_iff_exists.mp (hall .serviceAccount)
  obtain ⟨role, hrole⟩ := Option.isSome_iff_exists.mp (hall .role)
  obtain ⟨binding, hbinding⟩ := Option.isSome_iff_exists.mp (hall .roleBinding)
  obtain ⟨href, hsubjects⟩ := hp.serves _ _ _ hbinding rfl
  have hname : d.template.spec.serviceAccountName = (robinKeyOf req).name := hp.serves _ _ _ hd rfl
  refine ⟨account, role, binding, ?_, hbinding, ?_, ?_, ?_, hp.serves _ _ _ hrole rfl⟩
  · rw [hname]
    exact haccount
  · rw [hname]
    exact hsubjects
  · rw [href]
  · rw [href]
    exact hrole

set_option maxRecDepth 100000 in
/-- The sample cluster has its Deployment after the first Reconcile. -/
theorem robin_has_its_permissions_sample :
    ∃ (s : State server Result) (d : Deployment) (binding : RoleBinding) (role : Role),
      Reaches currentObjects sampleReconcile ⟨sampleWorld 3, none⟩ s ∧
      s.world.store.robin .deployment (robinKeyOf sampleKey) = some d ∧
      s.world.store.robin .roleBinding (robinKeyOf sampleKey) = some binding ∧
      s.world.store.robin .role ⟨"ns", binding.roleRef.name⟩ = some role ∧
      role.rules = desiredRobinRules := by
  obtain ⟨s, hs, htest⟩ := exists_reaches_of_play (T := currentObjects) undisturbed
    (fun s : State server Result =>
      (s.world.store.robin .deployment (robinKeyOf sampleKey)).isSome)
    (by decide +kernel : (play currentObjects sampleReconcile _ ⟨sampleWorld 3, none⟩).any _ = true)
  obtain ⟨d, hd⟩ := Option.isSome_iff_exists.mp htest
  obtain ⟨-, role, binding, -, hb, -, -, hrole, hrules⟩ :=
    robin_has_its_permissions (.refl _) (fresh_sampleWorld 3) (bare_sampleWorld 3) hs hd
  exact ⟨s, d, binding, role, hs, hd, hb, hrole, hrules⟩

/-- The sample cluster is scaled to zero, torn down and scaled up again. -/
def downAndUp : List (Move server) :=
  undisturbed ++ [robinMoves 1 .inProgress, scaleTo 0] ++ undisturbed ++
    [robinMoves 1 .applied, robinMoves 2 .inProgress, robinMoves 2 .applied] ++ undisturbed ++
    [scaleTo 3]

/-- The cache still has the ServiceAccount of before. -/
def lateAccount : List (Move server) :=
  downAndUp ++
    [.event .start, .event (.call .ok), .event (.call (.stale 12 [])), .drain .ok 8]

set_option maxRecDepth 100000 in
/-- A late cache lets Robin start without its account. -/
theorem robin_can_lack_its_account :
    ∃ s : State server Result, Reaches Terms.any sampleReconcile ⟨sampleWorld 3, none⟩ s ∧
      Stored sampleKey s.world.store .deployment ∧
      ¬ Stored sampleKey s.world.store .serviceAccount := by
  obtain ⟨s, hs, htest⟩ := exists_reaches_of_play (T := Terms.any) lateAccount
    (fun s : State server Result =>
      (s.world.store.robin .deployment (robinKeyOf sampleKey)).isSome &&
        !(s.world.store.robin .serviceAccount (robinKeyOf sampleKey)).isSome)
    (by decide +kernel : (play Terms.any sampleReconcile _ ⟨sampleWorld 3, none⟩).any _ = true)
  obtain ⟨hd, ha⟩ := Bool.and_eq_true_iff.mp htest
  refine ⟨s, hs, hd, fun hsome => ?_⟩
  rw [Bool.not_eq_true', ← Bool.not_eq_true] at ha
  exact ha hsome

end RedkeyOperator.Protocol

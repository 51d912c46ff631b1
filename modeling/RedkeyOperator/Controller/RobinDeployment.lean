import Mathlib.Data.List.Forall2
import RedkeyOperator.Api.Filled
import RedkeyOperator.Controller.Cleanup
import RedkeyOperator.Controller.Ensure

/-! # Drift of the Robin Deployment

`ensureRobinDeployment` compares the stored Deployment with the desired one. The
API server fills in what was unset and the Deployment controller keeps an
annotation of its own; neither is to be taken for drift. -/
namespace RedkeyOperator.Controller
open RedkeyOperator.Api RedkeyOperator.Kube RedkeyOperator.Interleave

/-! ## What filling in defaults leaves to be seen -/

/-- The comparison sees what was sent, and still sees it after defaults were filled in. -/
structure Sees {α : Type} (derives : α → α → Bool) (Fills : α → α → Prop) : Prop where
  sent : ∀ {a b : α}, Fills a b → derives a b = true
  stored : ∀ {a b c : α}, derives a b = true → Fills b c → derives a c = true

def StrFills (a b : String) : Prop := a = "" ∨ b = a

def ListFills {α : Type} (Fills : α → α → Prop) (as bs : List α) : Prop :=
  as = [] ∨ List.Forall₂ Fills as bs

inductive PtrFills : Option Value → Option Value → Prop where
  | unset (b : Option Value) : PtrFills none b
  | set {a b : Value} (h : a.Fills b) : PtrFills (some a) (some b)

def MapFills (a b : StringMap) : Prop := ∀ e ∈ a, ∃ v, b.get e.1 = some v ∧ StrFills e.2 v

def ItemsFill (as bs : List Value) : Prop := as = [] ∨ FillsItems as bs

theorem sees_str : Sees strDerives StrFills where
  sent h := by
    rcases h with rfl | rfl <;> simp [strDerives]
  stored h hf := by
    rcases hf with rfl | rfl
    · simp_all [strDerives]
    · exact h

theorem sees_list {α : Type} {derives : α → α → Bool} {Fills : α → α → Prop}
    (hs : Sees derives Fills) : Sees (listDerives derives) (ListFills Fills) where
  sent {as bs} h := by
    rcases h with rfl | h
    · rfl
    · induction h with
      | nil => rfl
      | cons h _ ih => simp [listDerives, hs.sent h, ih]
  stored {as bs cs} h hf := by
    rcases hf with rfl | hf
    · cases as with
      | nil => rfl
      | cons a as => cases h
    · induction hf generalizing as with
      | nil =>
        cases as with
        | nil => rfl
        | cons a as => cases h
      | cons hf _ ih =>
        cases as with
        | nil => rfl
        | cons a as =>
          rw [listDerives, Bool.and_eq_true] at h ⊢
          exact ⟨hs.stored h.1 hf, ih h.2⟩

theorem sees_ptr : Sees ptrDerives PtrFills where
  sent h := by
    cases h with
    | unset => rfl
    | set h => exact h.derives
  stored {a b c} h hf := by
    cases a with
    | none => rfl
    | some a =>
      cases hf with
      | unset => cases h
      | set hf => exact Value.derives_fills h hf

theorem sees_map : Sees mapDerives MapFills where
  sent h := by
    refine List.all_eq_true.mpr fun e he => ?_
    obtain ⟨v, hv, hf⟩ := h e he
    rw [hv]
    exact sees_str.sent hf
  stored {a b c} h hf := by
    refine List.all_eq_true.mpr fun e he => ?_
    obtain ⟨v, hv, hd⟩ := (Option.any_eq_true _ _).mp (List.all_eq_true.mp h e he)
    obtain ⟨u, hu, hvu⟩ := hf (e.1, v) (StringMap.mem_of_get hv)
    rw [hu]
    exact sees_str.stored hd hvu

theorem sees_items : Sees derivesPrefix ItemsFill where
  sent h := by
    rcases h with rfl | h
    · simp [derivesPrefix]
    · exact h.derives
  stored {as bs cs} h hf := by
    rcases hf with rfl | hf
    · cases as with
      | nil => simp [derivesPrefix]
      | cons a as => simp [derivesPrefix] at h
    · exact derivesPrefix_fills h hf

structure EnvVar.Fills (a b : EnvVar) : Prop where
  name : StrFills a.name b.name
  value : StrFills a.value b.value
  valueFrom : PtrFills a.valueFrom b.valueFrom

structure ResourceRequirements.Fills (a b : ResourceRequirements) : Prop where
  limits : FillsEntries (a.limits.getD []) (b.limits.getD [])
  requests : FillsEntries (a.requests.getD []) (b.requests.getD [])
  claims : ItemsFill a.claims b.claims

structure Container.Fills (a b : Container) : Prop where
  name : StrFills a.name b.name
  image : StrFills a.image b.image
  args : ListFills StrFills a.args b.args
  env : ListFills EnvVar.Fills a.env b.env
  envFrom : ItemsFill a.envFrom b.envFrom
  ports : ItemsFill a.ports b.ports
  resources : ResourceRequirements.Fills a.resources b.resources
  volumeMounts : ItemsFill a.volumeMounts b.volumeMounts
  securityContext : PtrFills a.securityContext b.securityContext

structure PodSpec.Fills (a b : PodSpec) : Prop where
  serviceAccountName : StrFills a.serviceAccountName b.serviceAccountName
  containers : ListFills Container.Fills a.containers b.containers
  nodeSelector : MapFills a.nodeSelector b.nodeSelector
  tolerations : ItemsFill a.tolerations b.tolerations
  affinity : PtrFills a.affinity b.affinity
  securityContext : PtrFills a.securityContext b.securityContext
  imagePullSecrets : ItemsFill a.imagePullSecrets b.imagePullSecrets
  priorityClassName : StrFills a.priorityClassName b.priorityClassName
  topologySpreadConstraints : ItemsFill a.topologySpreadConstraints b.topologySpreadConstraints
  volumes : ItemsFill a.volumes b.volumes

theorem sees_envVar : Sees EnvVar.derives EnvVar.Fills where
  sent h := by
    simp only [EnvVar.derives, Bool.and_eq_true]
    exact ⟨⟨sees_str.sent h.name, sees_str.sent h.value⟩, sees_ptr.sent h.valueFrom⟩
  stored h hf := by
    simp only [EnvVar.derives, Bool.and_eq_true] at h ⊢
    obtain ⟨⟨h₁, h₂⟩, h₃⟩ := h
    exact ⟨⟨sees_str.stored h₁ hf.name, sees_str.stored h₂ hf.value⟩,
      sees_ptr.stored h₃ hf.valueFrom⟩

theorem sees_resources : Sees ResourceRequirements.derives ResourceRequirements.Fills where
  sent h := by
    simp only [ResourceRequirements.derives, Bool.and_eq_true]
    exact ⟨⟨h.limits.derives, h.requests.derives⟩, sees_items.sent h.claims⟩
  stored h hf := by
    simp only [ResourceRequirements.derives, Bool.and_eq_true] at h ⊢
    obtain ⟨⟨h₁, h₂⟩, h₃⟩ := h
    exact ⟨⟨derivesEntries_fills h₁ hf.limits, derivesEntries_fills h₂ hf.requests⟩,
      sees_items.stored h₃ hf.claims⟩

theorem sees_container : Sees Container.derives Container.Fills where
  sent h := by
    simp only [Container.derives, Bool.and_eq_true]
    exact ⟨⟨⟨⟨⟨⟨⟨⟨sees_str.sent h.name, sees_str.sent h.image⟩, (sees_list sees_str).sent h.args⟩,
      (sees_list sees_envVar).sent h.env⟩, sees_items.sent h.envFrom⟩, sees_items.sent h.ports⟩,
      sees_resources.sent h.resources⟩, sees_items.sent h.volumeMounts⟩,
      sees_ptr.sent h.securityContext⟩
  stored h hf := by
    simp only [Container.derives, Bool.and_eq_true] at h ⊢
    obtain ⟨⟨⟨⟨⟨⟨⟨⟨h₁, h₂⟩, h₃⟩, h₄⟩, h₅⟩, h₆⟩, h₇⟩, h₈⟩, h₉⟩ := h
    exact ⟨⟨⟨⟨⟨⟨⟨⟨sees_str.stored h₁ hf.name, sees_str.stored h₂ hf.image⟩,
      (sees_list sees_str).stored h₃ hf.args⟩, (sees_list sees_envVar).stored h₄ hf.env⟩,
      sees_items.stored h₅ hf.envFrom⟩, sees_items.stored h₆ hf.ports⟩,
      sees_resources.stored h₇ hf.resources⟩, sees_items.stored h₈ hf.volumeMounts⟩,
      sees_ptr.stored h₉ hf.securityContext⟩

theorem sees_podSpec : Sees PodSpec.derives PodSpec.Fills where
  sent h := by
    simp only [PodSpec.derives, Bool.and_eq_true]
    exact ⟨⟨⟨⟨⟨⟨⟨⟨⟨sees_str.sent h.serviceAccountName, (sees_list sees_container).sent h.containers⟩,
      sees_map.sent h.nodeSelector⟩, sees_items.sent h.tolerations⟩, sees_ptr.sent h.affinity⟩,
      sees_ptr.sent h.securityContext⟩, sees_items.sent h.imagePullSecrets⟩,
      sees_str.sent h.priorityClassName⟩, sees_items.sent h.topologySpreadConstraints⟩,
      sees_items.sent h.volumes⟩
  stored h hf := by
    simp only [PodSpec.derives, Bool.and_eq_true] at h ⊢
    obtain ⟨⟨⟨⟨⟨⟨⟨⟨⟨h₁, h₂⟩, h₃⟩, h₄⟩, h₅⟩, h₆⟩, h₇⟩, h₈⟩, h₉⟩, h₁₀⟩ := h
    exact ⟨⟨⟨⟨⟨⟨⟨⟨⟨sees_str.stored h₁ hf.serviceAccountName,
      (sees_list sees_container).stored h₂ hf.containers⟩, sees_map.stored h₃ hf.nodeSelector⟩,
      sees_items.stored h₄ hf.tolerations⟩, sees_ptr.stored h₅ hf.affinity⟩,
      sees_ptr.stored h₆ hf.securityContext⟩, sees_items.stored h₇ hf.imagePullSecrets⟩,
      sees_str.stored h₈ hf.priorityClassName⟩,
      sees_items.stored h₉ hf.topologySpreadConstraints⟩, sees_items.stored h₁₀ hf.volumes⟩

/-! ## The stored Deployment between two calls -/

/-- The API server has filled in what was unset in `d`. -/
structure Deployment.Fills (d d' : Deployment) : Prop where
  metadata : d'.metadata = d.metadata
  replicas : ∀ n, d.replicas = some n → d'.replicas = some n
  labels : d'.template.labels = d.template.labels
  annotations : d'.template.annotations = d.template.annotations
  spec : PodSpec.Fills d.template.spec d'.template.spec

/-- The Deployment controller has written the revision. -/
def Revised (d d' : Deployment) : Prop :=
  ∃ rev, d' = { d with metadata := { d.metadata with
    annotations := d.metadata.annotations.set deploymentRevisionAnnotation rev } }

/-- `robinDeploymentNeedsUpdate` is false. -/
structure Matches (existing desired : Deployment) : Prop where
  replicas : existing.replicas = desired.replicas
  labels : existing.metadata.labels.deepEqual desired.metadata.labels = true
  annotations : (stripManagedAnnotations existing.metadata.annotations).deepEqual
    desired.metadata.annotations = true
  podLabels : existing.template.labels.deepEqual desired.template.labels = true
  podAnnotations : existing.template.annotations.deepEqual desired.template.annotations = true
  spec : PodSpec.derives desired.template.spec existing.template.spec = true

theorem needsUpdate_eq_false_iff {existing desired : Deployment} :
    robinDeploymentNeedsUpdate existing desired = false ↔ Matches existing desired := by
  simp only [robinDeploymentNeedsUpdate, Bool.or_eq_false_iff, Bool.not_eq_false',
    bne_eq_false_iff_eq]
  constructor
  · rintro ⟨⟨⟨⟨⟨h₁, h₂⟩, h₃⟩, h₄⟩, h₅⟩, h₆⟩
    exact ⟨h₁, h₂, h₃, h₄, h₅, h₆⟩
  · rintro ⟨h₁, h₂, h₃, h₄, h₅, h₆⟩
    exact ⟨⟨⟨⟨⟨h₁, h₂⟩, h₃⟩, h₄⟩, h₅⟩, h₆⟩

theorem get_stripManagedAnnotations (m : StringMap) (k : String) :
    (stripManagedAnnotations m).get k =
      if k = deploymentRevisionAnnotation then none else m.get k := by
  unfold stripManagedAnnotations StringMap.get
  induction m with
  | nil => simp
  | cons e m ih =>
    obtain ⟨l, v⟩ := e
    by_cases hl : l = deploymentRevisionAnnotation
    · rw [List.filter_cons_of_neg (by simp [hl]), ih]
      by_cases hk : k = deploymentRevisionAnnotation
      · simp [hk]
      · simp [hk, List.lookup_cons, hl, beq_eq_false_iff_ne.mpr hk]
    · rw [List.filter_cons_of_pos (by simp [hl])]
      by_cases hk : k = l
      · subst hk
        simp [hl]
      · simp [List.lookup_cons, beq_eq_false_iff_ne.mpr hk, ih]

/-- The revision is not compared. -/
theorem Matches.revised {d d' desired : Deployment} (h : Matches d desired) (hr : Revised d d') :
    Matches d' desired := by
  obtain ⟨rev, rfl⟩ := hr
  refine ⟨h.replicas, h.labels, StringMap.deepEqual_iff.mpr fun k => ?_, h.podLabels,
    h.podAnnotations, h.spec⟩
  rw [← StringMap.deepEqual_iff.mp h.annotations k, get_stripManagedAnnotations,
    get_stripManagedAnnotations]
  split
  · rfl
  · rename_i hk
    exact StringMap.get_set_of_ne _ _ hk

theorem Matches.fills {d d' desired : Deployment} (h : Matches d desired) (hf : Deployment.Fills d d')
    (hr : desired.replicas ≠ none) : Matches d' desired where
  replicas := by
    obtain ⟨n, hn⟩ := Option.ne_none_iff_exists'.mp hr
    rw [hn]
    exact hf.replicas n (h.replicas.trans hn)
  labels := hf.metadata ▸ h.labels
  annotations := hf.metadata ▸ h.annotations
  podLabels := hf.labels ▸ h.podLabels
  podAnnotations := hf.annotations ▸ h.podAnnotations
  spec := sees_podSpec.stored h.spec hf.spec

theorem get_preserveManagedAnnotations {existing desired : StringMap}
    (hn : (desired.map Prod.fst).Nodup) {k : String} (hk : k ≠ deploymentRevisionAnnotation) :
    (preserveManagedAnnotations existing desired).get k = desired.get k := by
  unfold preserveManagedAnnotations
  split
  · rfl
  · rw [StringMap.get_set_of_ne _ _ hk, StringMap.get_copy hn]
    simp [StringMap.get]

/-- What was sent is found, unless the user claims the managed annotation. -/
theorem matches_sent (existing : Deployment) {desired d d' : Deployment} (hr : desired.replicas ≠ none)
    (hn : (desired.metadata.annotations.map Prod.fst).Nodup)
    (hu : desired.metadata.annotations.get deploymentRevisionAnnotation = none)
    (hd : d.replicas = desired.replicas ∧ d.metadata.labels = desired.metadata.labels ∧
      (d.metadata.annotations = desired.metadata.annotations ∨ d.metadata.annotations =
        preserveManagedAnnotations existing.metadata.annotations desired.metadata.annotations) ∧
      d.template = desired.template) (hf : Deployment.Fills d d') : Matches d' desired := by
  obtain ⟨hrep, hlab, hann, htpl⟩ := hd
  refine ⟨?_, ?_, StringMap.deepEqual_iff.mpr fun k => ?_, ?_, ?_, ?_⟩
  · obtain ⟨n, hn⟩ := Option.ne_none_iff_exists'.mp hr
    rw [hn]
    exact hf.replicas n (hrep.trans hn)
  · rw [hf.metadata, hlab]
    exact StringMap.deepEqual_iff.mpr fun _ => rfl
  · rw [hf.metadata, get_stripManagedAnnotations]
    split
    · rename_i hk
      rw [hk, hu]
    · rename_i hk
      obtain hann | hann := hann
      · rw [hann]
      · rw [hann, get_preserveManagedAnnotations hn hk]
  · rw [hf.labels, htpl]
    exact StringMap.deepEqual_iff.mpr fun _ => rfl
  · rw [hf.annotations, htpl]
    exact StringMap.deepEqual_iff.mpr fun _ => rfl
  · exact sees_podSpec.sent (htpl ▸ hf.spec)

theorem nodup_annotations_desired (cluster : Redkey) :
    ((buildDesiredRobinDeployment cluster).metadata.annotations.map Prod.fst).Nodup := by
  have hnil : (([] : StringMap).map Prod.fst).Nodup := List.nodup_nil
  exact StringMap.nodup_copy (StringMap.nodup_copy hnil _) _

theorem annotations_desired (cluster : Redkey) :
    (buildDesiredRobinDeployment cluster).metadata.annotations.get deploymentRevisionAnnotation =
      none ↔ (derefMap cluster.spec.annotations).get deploymentRevisionAnnotation = none := by
  show (StringMap.copy (StringMap.copy [] (derefMap cluster.spec.annotations)) []).get _ = none ↔ _
  rw [StringMap.get_copy_eq_none, StringMap.get_copy_eq_none]
  simp [StringMap.get]

/-- The managed annotation of a user is never found in the stored Deployment. -/
theorem Matches.unclaimed {d desired : Deployment} (h : Matches d desired) :
    desired.metadata.annotations.get deploymentRevisionAnnotation = none := by
  have := StringMap.deepEqual_iff.mp h.annotations deploymentRevisionAnnotation
  rw [get_stripManagedAnnotations, if_pos rfl] at this
  exact this.symm

/-! ## Two calls -/

section
variable {cluster : Redkey} {w w' : World}

/-- A Deployment that matches is read and left alone. -/
theorem exec_ensureRobinDeployment_matching {d : Deployment} {res : Except ApiError Unit}
    (hd : w.store.robin .deployment (robinKey cluster) = some d)
    (hm : Matches d (buildDesiredRobinDeployment cluster))
    (h : Exec currentReads (ensureRobinDeployment cluster) w res w') :
    w'.store = w.store ∧ w'.past = w.past := by
  unfold ensureRobinDeployment at h
  obtain ⟨r, v, hv, hf⟩ | ⟨e, -, hv⟩ := Exec.bind_iff.mp h
  · obtain ⟨hs, hp, hr | hr⟩ := exec_get hv
    · cases hr
      obtain ⟨-, rfl⟩ := Exec.fail_iff.mp hf
      exact ⟨hs, hp⟩
    · rw [show (buildDesiredRobinDeployment cluster).metadata.key = robinKey cluster from rfl, hd] at hr
      cases hr
      simp only [found, needsUpdate_eq_false_iff.mpr hm] at hf
      obtain ⟨-, rfl⟩ := Exec.ret_iff.mp hf
      exact ⟨hs, hp⟩
  · exact ⟨(exec_get hv).1, (exec_get hv).2.1⟩

/-- After a call that succeeds and after the API server and the Deployment
controller have done their part, the next call for the same Redkey finds no
drift and writes nothing if and only if the user has not set the annotation
that the Deployment controller manages. -/
theorem deployment_settles_iff
    (h : Exec currentReads (ensureRobinDeployment cluster) w (.ok ()) w') :
    ∃ d : Deployment, w'.store.robin .deployment (robinKey cluster) = some d ∧
      ∀ d₁ d₂, Deployment.Fills d d₁ → Relation.ReflTransGen Revised d₁ d₂ →
        ((robinDeploymentNeedsUpdate d₂ (buildDesiredRobinDeployment cluster) = false ∧
          ∀ v v' res, v.store.robin .deployment (robinKey cluster) = some d₂ →
            Exec currentReads (ensureRobinDeployment cluster) v res v' →
            v'.store = v.store ∧ v'.past = v.past) ↔
        (derefMap cluster.spec.annotations).get deploymentRevisionAnnotation = none) := by
  have hd : w'.store.robin .deployment (robinKey cluster) =
      some (mended cluster .deployment (w.store.robin .deployment (robinKey cluster))) := by
    rw [exec_ensureDeployment h, robin_mend_self]
  refine ⟨_, hd, fun d₁ d₂ hf hr => ?_⟩
  rw [← annotations_desired]
  constructor
  · rintro ⟨hn, -⟩
    exact (needsUpdate_eq_false_iff.mp hn).unclaimed
  · intro hu
    have hnodup := nodup_annotations_desired cluster
    have h₁ : Matches d₁ (buildDesiredRobinDeployment cluster) := by
      cases ho : w.store.robin .deployment (robinKey cluster) with
      | none =>
        rw [ho] at hf
        exact matches_sent (buildDesiredRobinDeployment cluster) nofun hnodup hu
          ⟨rfl, rfl, .inl rfl, rfl⟩ hf
      | some existing =>
        rw [ho, mended] at hf
        split at hf
        · refine matches_sent existing nofun hnodup hu ?_ hf
          exact ⟨rfl, rfl, .inr rfl, rfl⟩
        · rename_i hn
          exact (needsUpdate_eq_false_iff.mp (Bool.eq_false_iff.mpr hn)).fills hf nofun
    have h₂ : Matches d₂ (buildDesiredRobinDeployment cluster) := by
      clear hf
      induction hr with
      | refl => exact h₁
      | tail _ hs ih => exact ih.revised hs
    exact ⟨needsUpdate_eq_false_iff.mpr h₂, fun v v' res hv hx =>
      exec_ensureRobinDeployment_matching hv h₂ hx⟩

end

/-- A small cluster with these annotations. -/
def annotated (annotations : StringMap) : Redkey :=
  { emptyRedkey with
    spec := { primaries := 3, robin := { image := "robin" }, annotations := some annotations } }

theorem exec_create (annotations : StringMap) : ∃ w', Exec currentReads
    (ensureRobinDeployment (annotated annotations)) (worldOf []) (.ok ()) w' ∧
      w'.store.robin .deployment (robinKey (annotated annotations)) =
        some (buildDesiredRobinDeployment (annotated annotations)) :=
  ⟨_, exec_of_runWith (List.replicate 3 Outcome.ok) rfl, Store.robin_setRobin_self _ _ _ _⟩

/-- The API server adds the default security context of the pod. -/
def withSecurityContext (d : Deployment) : Deployment :=
  { d with template := { d.template with
      spec := { d.template.spec with securityContext := some (.struct []) } } }

theorem fills_robinContainer (annotations : StringMap) :
    Container.Fills (robinContainer (annotated annotations))
      (robinContainer (annotated annotations)) where
  name := .inr rfl
  image := .inr rfl
  args := .inr (.cons (.inr rfl) (.cons (.inr rfl) .nil))
  env := .inr (.cons ⟨.inr rfl, .inr rfl, .unset _⟩ (.cons ⟨.inr rfl, .inr rfl, .unset _⟩ .nil))
  envFrom := .inl rfl
  ports := .inr (.cons (.struct (.cons rfl (.str _) (.cons rfl (.num _) (.cons rfl (.str _)
    (.nil _))))) .nil)
  resources := ⟨.nil _, .nil _, .inl rfl⟩
  volumeMounts := .inl rfl
  securityContext := .unset _

theorem fills_withSecurityContext (annotations : StringMap) :
    Deployment.Fills (buildDesiredRobinDeployment (annotated annotations))
      (withSecurityContext (buildDesiredRobinDeployment (annotated annotations))) where
  metadata := rfl
  replicas _ h := h
  labels := rfl
  annotations := rfl
  spec :=
    { serviceAccountName := .inr rfl
      containers := .inr (.cons (fills_robinContainer annotations) .nil)
      nodeSelector := nofun
      tolerations := .inl rfl
      affinity := .unset _
      securityContext := .unset _
      imagePullSecrets := .inl rfl
      priorityClassName := .inr rfl
      topologySpreadConstraints := .inl rfl
      volumes := .inl rfl }

/-- The Deployment after the defaults and the first revision. -/
def settledDeployment (annotations : StringMap) : Deployment :=
  let d := withSecurityContext (buildDesiredRobinDeployment (annotated annotations))
  { d with metadata := { d.metadata with
      annotations := d.metadata.annotations.set deploymentRevisionAnnotation "1" } }

theorem deployment_settles_iff_sample :
    robinDeploymentNeedsUpdate (settledDeployment [("team", "data")])
      (buildDesiredRobinDeployment (annotated [("team", "data")])) = false := by
  obtain ⟨w', hx, hw⟩ := exec_create [("team", "data")]
  obtain ⟨d, hd, hall⟩ := deployment_settles_iff hx
  obtain rfl : buildDesiredRobinDeployment _ = d := Option.some.inj (hw.symm.trans hd)
  exact ((hall _ _ (fills_withSecurityContext _) (.single ⟨"1", rfl⟩)).mpr rfl).1

/-- A user sets the annotation of the Deployment controller. -/
theorem deployment_can_drift_forever :
    ¬ ∀ (cluster : Redkey) (w w' : World) (d d₁ d₂ : Deployment),
      Exec currentReads (ensureRobinDeployment cluster) w (.ok ()) w' →
      w'.store.robin .deployment (robinKey cluster) = some d → Deployment.Fills d d₁ →
      Relation.ReflTransGen Revised d₁ d₂ →
      robinDeploymentNeedsUpdate d₂ (buildDesiredRobinDeployment cluster) = false := by
  intro hall
  obtain ⟨w', hx, hw⟩ := exec_create [( deploymentRevisionAnnotation, "7")]
  have := hall _ _ w' _ _ (settledDeployment [( deploymentRevisionAnnotation, "7")]) hx hw
    (fills_withSecurityContext _) (.single ⟨"1", rfl⟩)
  revert this
  decide

end RedkeyOperator.Controller

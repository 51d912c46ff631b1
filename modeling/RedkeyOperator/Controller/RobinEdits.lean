import RedkeyOperator.Controller.RobinDeployment
import RedkeyOperator.Controller.Undisturbed

/-! # Edits of `spec.robin`

A sequence of edits, each followed by a call of `ensureRobinDeployment` that
returns. The stored pod template follows an edit exactly if the comparison with
the stored Deployment notices it: what an edit removes is not noticed as such.
What the API server makes of a template it is sent is a parameter. -/
namespace RedkeyOperator.Controller
open RedkeyOperator.Api RedkeyOperator.Kube RedkeyOperator.Interleave

/-! ## Templates up to the order of their maps -/

structure SameTemplate (a b : PodTemplateSpec) : Prop where
  labels : ∀ k, a.labels.get k = b.labels.get k
  annotations : ∀ k, a.annotations.get k = b.annotations.get k
  nodeSelector : ∀ k, a.spec.nodeSelector.get k = b.spec.nodeSelector.get k
  spec : { a.spec with nodeSelector := [] } = { b.spec with nodeSelector := [] }

namespace SameTemplate
variable {a b c : PodTemplateSpec}

theorem refl (a : PodTemplateSpec) : SameTemplate a a :=
  ⟨fun _ => rfl, fun _ => rfl, fun _ => rfl, rfl⟩

theorem symm (h : SameTemplate a b) : SameTemplate b a :=
  ⟨fun k => (h.labels k).symm, fun k => (h.annotations k).symm, fun k => (h.nodeSelector k).symm,
    h.spec.symm⟩

theorem trans (h : SameTemplate a b) (h' : SameTemplate b c) : SameTemplate a c :=
  ⟨fun k => (h.labels k).trans (h'.labels k), fun k => (h.annotations k).trans (h'.annotations k),
    fun k => (h.nodeSelector k).trans (h'.nodeSelector k), h.spec.trans h'.spec⟩

/-- The comparison sees a map through its lookups. -/
theorem derives (h : SameTemplate a b) (p : PodSpec) :
    PodSpec.derives p a.spec = PodSpec.derives p b.spec := by
  have hmap : mapDerives p.nodeSelector a.spec.nodeSelector =
      mapDerives p.nodeSelector b.spec.nodeSelector := by
    simp only [mapDerives, h.nodeSelector]
  have hs := h.spec
  simp only [PodSpec.mk.injEq] at hs
  simp only [PodSpec.derives, hmap, hs]

end SameTemplate

/-- What the comparison reads of a Deployment besides its template. -/
structure SameHead (d d' : Deployment) : Prop where
  replicas : d.replicas = d'.replicas
  labels : ∀ k, d.metadata.labels.get k = d'.metadata.labels.get k
  annotations : ∀ k, (stripManagedAnnotations d.metadata.annotations).get k =
    (stripManagedAnnotations d'.metadata.annotations).get k

theorem SameHead.symm {d d' : Deployment} (h : SameHead d d') : SameHead d' d :=
  ⟨h.replicas.symm, fun k => (h.labels k).symm, fun k => (h.annotations k).symm⟩

theorem SameHead.trans {d d' d'' : Deployment} (h : SameHead d d') (h' : SameHead d' d'') :
    SameHead d d'' :=
  ⟨h.replicas.trans h'.replicas, fun k => (h.labels k).trans (h'.labels k),
    fun k => (h.annotations k).trans (h'.annotations k)⟩

theorem SameHead.matches {d d' desired : Deployment} (h : SameHead d d')
    (ht : SameTemplate d.template d'.template) (hm : Matches d desired) : Matches d' desired where
  replicas := h.replicas ▸ hm.replicas
  labels := StringMap.deepEqual_iff.mpr fun k =>
    (h.labels k).symm.trans (StringMap.deepEqual_iff.mp hm.labels k)
  annotations := StringMap.deepEqual_iff.mpr fun k =>
    (h.annotations k).symm.trans (StringMap.deepEqual_iff.mp hm.annotations k)
  podLabels := StringMap.deepEqual_iff.mpr fun k =>
    (ht.labels k).symm.trans (StringMap.deepEqual_iff.mp hm.podLabels k)
  podAnnotations := StringMap.deepEqual_iff.mpr fun k =>
    (ht.annotations k).symm.trans (StringMap.deepEqual_iff.mp hm.podAnnotations k)
  spec := (ht.derives _).symm.trans hm.spec

theorem needsUpdate_congr {d d' : Deployment} (h : SameHead d d')
    (ht : SameTemplate d.template d'.template) (desired : Deployment) :
    robinDeploymentNeedsUpdate d desired = robinDeploymentNeedsUpdate d' desired := by
  rw [Bool.eq_iff_iff, ← not_iff_not, Bool.not_eq_true, Bool.not_eq_true,
    needsUpdate_eq_false_iff, needsUpdate_eq_false_iff]
  exact ⟨h.matches ht, h.symm.matches ht.symm⟩

theorem sameHead_of_revised {d d' : Deployment} (h : Relation.ReflTransGen Revised d d') :
    SameHead d d' ∧ d'.template = d.template := by
  induction h with
  | refl => exact ⟨⟨rfl, fun _ => rfl, fun _ => rfl⟩, rfl⟩
  | tail _ hs ih =>
    obtain ⟨rev, rfl⟩ := hs
    refine ⟨ih.1.trans ⟨rfl, fun _ => rfl, fun k => ?_⟩, ih.2⟩
    rw [get_stripManagedAnnotations, get_stripManagedAnnotations]
    split
    · rfl
    · rename_i hk
      exact (StringMap.get_set_of_ne _ _ hk).symm

/-! ## What the comparison does not see

`a` is below `b` if whatever `a` says `b` says as well: a field may be empty in `a`
(`StrFills`), a map may lack keys of `b` (`MapFills`), and a list may lack the tail of
`b`. Values inside are compared in the same way (`Value.derives`). -/

def PtrBelow (a b : Option Value) : Prop := ∀ x, a = some x → ∃ y, b = some y ∧ x.derives y = true

def EntriesBelow (a b : List (String × Value)) : Prop :=
  ∀ e ∈ a, ∃ v, b.lookup e.1 = some v ∧ e.2.derives v = true

def ListBelow {α : Type} (R : α → α → Prop) (as bs : List α) : Prop :=
  ∃ kept tail, bs = kept ++ tail ∧ List.Forall₂ R as kept

abbrev ValuesBelow : List Value → List Value → Prop := ListBelow fun x y => x.derives y = true

theorem strDerives_iff {a b : String} : strDerives a b = true ↔ StrFills a b := by
  rw [strDerives, StrFills, Bool.or_eq_true, beq_iff_eq, beq_iff_eq, @eq_comm _ b]

theorem ptrDerives_iff {a b : Option Value} : ptrDerives a b = true ↔ PtrBelow a b := by
  cases a with
  | none => simp [ptrDerives, PtrBelow]
  | some x => cases b <;> simp [ptrDerives, PtrBelow]

theorem mapDerives_iff {a b : StringMap} : mapDerives a b = true ↔ MapFills a b := by
  unfold mapDerives MapFills
  rw [List.all_eq_true]
  refine forall₂_congr fun e _ => ?_
  rw [Option.any_eq_true]
  exact exists_congr fun v => and_congr_right fun _ => strDerives_iff

theorem listBelow_nil {α : Type} {R : α → α → Prop} (bs : List α) : ListBelow R [] bs :=
  ⟨[], bs, rfl, .nil⟩

theorem listBelow_cons {α : Type} {R : α → α → Prop} {a b : α} {as bs : List α} :
    ListBelow R (a :: as) (b :: bs) ↔ R a b ∧ ListBelow R as bs := by
  constructor
  · intro h
    obtain ⟨kept, tail, hbs, hall⟩ := h
    cases hall with
    | cons h hall =>
      obtain ⟨rfl, rfl⟩ := List.cons.inj hbs
      exact ⟨h, _, tail, rfl, hall⟩
  · intro h
    obtain ⟨h, kept, tail, rfl, hall⟩ := h
    exact ⟨b :: kept, tail, rfl, .cons h hall⟩

theorem not_listBelow_nil {α : Type} {R : α → α → Prop} {a : α} {as : List α} :
    ¬ ListBelow R (a :: as) [] := by
  intro h
  obtain ⟨kept, tail, hbs, hall⟩ := h
  cases hall with
  | cons h hall => cases hbs

theorem listDerives_iff {α : Type} {derives : α → α → Bool} {R : α → α → Prop}
    (h : ∀ {a b}, derives a b = true ↔ R a b) {as bs : List α} :
    listDerives derives as bs = true ↔ ListBelow R as bs := by
  induction as generalizing bs with
  | nil => exact iff_of_true rfl (listBelow_nil bs)
  | cons a as ih =>
    cases bs with
    | nil => exact iff_of_false Bool.false_ne_true not_listBelow_nil
    | cons b bs => rw [listDerives, Bool.and_eq_true, h, ih, listBelow_cons]

theorem derivesPrefix_iff {as bs : List Value} :
    derivesPrefix as bs = true ↔ ValuesBelow as bs := by
  induction as generalizing bs with
  | nil => exact iff_of_true (by simp [derivesPrefix]) (listBelow_nil bs)
  | cons a as ih =>
    cases bs with
    | nil => exact iff_of_false (by simp [derivesPrefix]) not_listBelow_nil
    | cons b bs => rw [derivesPrefix, Bool.and_eq_true, ih, ValuesBelow, listBelow_cons]

theorem derivesEntries_iff {as bs : List (String × Value)} :
    derivesEntries as bs = true ↔ EntriesBelow as bs := by
  induction as with
  | nil => simp [derivesEntries, EntriesBelow]
  | cons e as ih =>
    obtain ⟨k, a⟩ := e
    rw [derivesEntries, Bool.and_eq_true, ih]
    refine Iff.trans (and_congr_left fun _ => ?_) List.forall_mem_cons.symm
    cases hb : bs.lookup k <;> simp

structure EnvVar.Below (a b : EnvVar) : Prop where
  name : StrFills a.name b.name
  value : StrFills a.value b.value
  valueFrom : PtrBelow a.valueFrom b.valueFrom

structure ResourceRequirements.Below (a b : ResourceRequirements) : Prop where
  limits : EntriesBelow (a.limits.getD []) (b.limits.getD [])
  requests : EntriesBelow (a.requests.getD []) (b.requests.getD [])
  claims : ValuesBelow a.claims b.claims

structure Container.Below (a b : Container) : Prop where
  name : StrFills a.name b.name
  image : StrFills a.image b.image
  args : ListBelow StrFills a.args b.args
  env : ListBelow EnvVar.Below a.env b.env
  envFrom : ValuesBelow a.envFrom b.envFrom
  ports : ValuesBelow a.ports b.ports
  resources : ResourceRequirements.Below a.resources b.resources
  volumeMounts : ValuesBelow a.volumeMounts b.volumeMounts
  securityContext : PtrBelow a.securityContext b.securityContext

structure PodSpec.Below (a b : PodSpec) : Prop where
  serviceAccountName : StrFills a.serviceAccountName b.serviceAccountName
  containers : ListBelow Container.Below a.containers b.containers
  nodeSelector : MapFills a.nodeSelector b.nodeSelector
  tolerations : ValuesBelow a.tolerations b.tolerations
  affinity : PtrBelow a.affinity b.affinity
  securityContext : PtrBelow a.securityContext b.securityContext
  imagePullSecrets : ValuesBelow a.imagePullSecrets b.imagePullSecrets
  priorityClassName : StrFills a.priorityClassName b.priorityClassName
  topologySpreadConstraints :
    ValuesBelow a.topologySpreadConstraints b.topologySpreadConstraints
  volumes : ValuesBelow a.volumes b.volumes

theorem envVar_derives_iff {a b : EnvVar} : EnvVar.derives a b = true ↔ EnvVar.Below a b := by
  simp only [EnvVar.derives, Bool.and_eq_true, strDerives_iff, ptrDerives_iff]
  constructor
  · intro h
    obtain ⟨⟨h₁, h₂⟩, h₃⟩ := h
    exact ⟨h₁, h₂, h₃⟩
  · intro h
    exact ⟨⟨h.1, h.2⟩, h.3⟩

theorem resources_derives_iff {a b : ResourceRequirements} :
    ResourceRequirements.derives a b = true ↔ ResourceRequirements.Below a b := by
  simp only [ResourceRequirements.derives, Bool.and_eq_true, derivesEntries_iff, derivesPrefix_iff]
  constructor
  · intro h
    obtain ⟨⟨h₁, h₂⟩, h₃⟩ := h
    exact ⟨h₁, h₂, h₃⟩
  · intro h
    exact ⟨⟨h.1, h.2⟩, h.3⟩

theorem container_derives_iff {a b : Container} :
    Container.derives a b = true ↔ Container.Below a b := by
  simp only [Container.derives, Bool.and_eq_true, strDerives_iff, ptrDerives_iff,
    derivesPrefix_iff, resources_derives_iff, listDerives_iff strDerives_iff,
    listDerives_iff envVar_derives_iff]
  constructor
  · intro h
    obtain ⟨⟨⟨⟨⟨⟨⟨⟨h₁, h₂⟩, h₃⟩, h₄⟩, h₅⟩, h₆⟩, h₇⟩, h₈⟩, h₉⟩ := h
    exact ⟨h₁, h₂, h₃, h₄, h₅, h₆, h₇, h₈, h₉⟩
  · intro h
    obtain ⟨h₁, h₂, h₃, h₄, h₅, h₆, h₇, h₈, h₉⟩ := h
    exact ⟨⟨⟨⟨⟨⟨⟨⟨h₁, h₂⟩, h₃⟩, h₄⟩, h₅⟩, h₆⟩, h₇⟩, h₈⟩, h₉⟩

theorem podSpec_derives_iff {a b : PodSpec} : PodSpec.derives a b = true ↔ PodSpec.Below a b := by
  simp only [PodSpec.derives, Bool.and_eq_true, strDerives_iff, ptrDerives_iff, mapDerives_iff,
    derivesPrefix_iff, listDerives_iff container_derives_iff]
  constructor
  · intro h
    obtain ⟨⟨⟨⟨⟨⟨⟨⟨⟨h₁, h₂⟩, h₃⟩, h₄⟩, h₅⟩, h₆⟩, h₇⟩, h₈⟩, h₉⟩, h₁₀⟩ := h
    exact ⟨h₁, h₂, h₃, h₄, h₅, h₆, h₇, h₈, h₉, h₁₀⟩
  · intro h
    obtain ⟨h₁, h₂, h₃, h₄, h₅, h₆, h₇, h₈, h₉, h₁₀⟩ := h
    exact ⟨⟨⟨⟨⟨⟨⟨⟨⟨h₁, h₂⟩, h₃⟩, h₄⟩, h₅⟩, h₆⟩, h₇⟩, h₈⟩, h₉⟩, h₁₀⟩

/-! ## One edit -/

/-- `next` differs from `prev` in `spec.robin` only. -/
def EditOf (prev next : Redkey) : Prop :=
  next.key = prev.key ∧ next.spec = { prev.spec with robin := next.spec.robin }

theorem sameHead_of_edit {prev next : Redkey} (h : EditOf prev next) :
    SameHead (buildDesiredRobinDeployment prev) (buildDesiredRobinDeployment next) := by
  obtain ⟨hk, hs⟩ := h
  have hl : next.spec.labels = prev.spec.labels := by rw [hs]
  have ha : next.spec.annotations = prev.spec.annotations := by rw [hs]
  constructor
  · rfl
  · simp [buildDesiredRobinDeployment, robinBaseLabels, hk, hl]
  · simp [buildDesiredRobinDeployment, ha]

section
variable (defaults : PodTemplateSpec → PodTemplateSpec) {cluster : Redkey} {w w' : World}

/-- The stored template is the one for the current spec. -/
def Current (cluster : Redkey) (d : Deployment) : Prop :=
  SameTemplate d.template (defaults (buildDesiredRobinDeployment cluster).template)

/-- The Deployment that is stored when it has been created for this spec. -/
def fresh (cluster : Redkey) : Deployment :=
  { buildDesiredRobinDeployment cluster with
    template := defaults (buildDesiredRobinDeployment cluster).template }

/-- The comparison tells the two specs apart, or there is nothing to tell apart. -/
def Noticed (prev next : Redkey) : Prop :=
  robinDeploymentNeedsUpdate (fresh defaults prev) (buildDesiredRobinDeployment next) = true ∨
    SameTemplate (defaults (buildDesiredRobinDeployment prev).template)
      (defaults (buildDesiredRobinDeployment next).template)

/-- An edit of `prev` into `next` that is lost: the template is to change, but its maps
are the same, and of its pod spec nothing is asked for that is not there already. What
the edit has emptied, the keys it has taken from maps and the tails it has taken from
lists stay. -/
structure Overlooked (prev next : Redkey) : Prop where
  changes : ¬ SameTemplate (defaults (buildDesiredRobinDeployment prev).template)
    (defaults (buildDesiredRobinDeployment next).template)
  labels : ∀ k, (defaults (buildDesiredRobinDeployment prev).template).labels.get k =
    (buildDesiredRobinDeployment next).template.labels.get k
  annotations : ∀ k, (defaults (buildDesiredRobinDeployment prev).template).annotations.get k =
    (buildDesiredRobinDeployment next).template.annotations.get k
  spec : PodSpec.Below (buildDesiredRobinDeployment next).template.spec
    (defaults (buildDesiredRobinDeployment prev).template).spec
  /-- A user who sets the revision annotation has every Reconcile patch the Deployment. -/
  unclaimed : (buildDesiredRobinDeployment next).metadata.annotations.get
    deploymentRevisionAnnotation = none

/-- What is stored after a call: what was sent, with the defaults, or what was there. -/
inductive Stored (cluster : Redkey) (w w' : World) : Deployment → Prop
  | sent {d : Deployment} (hd : w'.store.robin .deployment (robinKey cluster) = some d)
      (hw : w'.past ≠ w.past) : Stored cluster w w' { d with template := defaults d.template }
  | kept {d : Deployment} (hd : w'.store.robin .deployment (robinKey cluster) = some d)
      (hw : w'.past = w.past) : Stored cluster w w' d

variable {defaults}

theorem stored_first {d : Deployment} (hnone : w.store.robin .deployment (robinKey cluster) = none)
    (hx : Exec currentReads (ensureRobinDeployment cluster) w (.ok ()) w')
    (hs : Stored defaults cluster w w' d) : d = fresh defaults cluster := by
  have hafter : w'.store.robin .deployment (robinKey cluster) =
      some (buildDesiredRobinDeployment cluster) := by
    rw [exec_ensureDeployment hx, robin_mend_self, hnone]
    rfl
  have hpast : w'.past ≠ w.past :=
    exec_ensureDeployment_past (fun o ho => nomatch hnone.symm.trans ho) hx
  cases hs with
  | sent hd _ =>
    rw [hafter] at hd
    cases hd
    rfl
  | kept hd hw => exact absurd hw hpast

theorem sameHead_corrected (cluster : Redkey) (d : Deployment) :
    SameHead (corrected cluster .deployment d) (buildDesiredRobinDeployment cluster) := by
  refine ⟨rfl, fun _ => rfl, fun k => ?_⟩
  rw [get_stripManagedAnnotations, get_stripManagedAnnotations]
  split
  · rfl
  · rename_i hk
    exact get_preserveManagedAnnotations (nodup_annotations_desired cluster) hk

/-- A stored Deployment is replaced where the comparison asks for it. -/
theorem stored_next {d₀ d : Deployment}
    (hd₀ : w.store.robin .deployment (robinKey cluster) = some d₀)
    (hx : Exec currentReads (ensureRobinDeployment cluster) w (.ok ()) w')
    (hs : Stored defaults cluster w w' d) :
    (robinDeploymentNeedsUpdate d₀ (buildDesiredRobinDeployment cluster) = true ∧
      SameHead d (buildDesiredRobinDeployment cluster) ∧
      d.template = defaults (buildDesiredRobinDeployment cluster).template) ∨
    (robinDeploymentNeedsUpdate d₀ (buildDesiredRobinDeployment cluster) = false ∧ d = d₀) := by
  cases hu : robinDeploymentNeedsUpdate d₀ (buildDesiredRobinDeployment cluster) with
  | true =>
    have hpast : w'.past ≠ w.past := by
      refine exec_ensureDeployment_past (fun o ho => ?_) hx
      cases hd₀.symm.trans ho
      exact hu
    have hafter : w'.store.robin .deployment (robinKey cluster) =
        some (corrected cluster .deployment d₀) := by
      rw [exec_ensureDeployment hx, mend_of_drifted hd₀ hu]
      exact Store.robin_setRobin_self _ _ _ _
    cases hs with
    | sent hd _ =>
      rw [hafter] at hd
      cases hd
      have hh := sameHead_corrected cluster d₀
      exact .inl ⟨rfl, ⟨hh.replicas, hh.labels, hh.annotations⟩, rfl⟩
    | kept hd hw => exact absurd hw hpast
  | false =>
    obtain ⟨hstore, hpast⟩ :=
      exec_ensureRobinDeployment_matching hd₀ (needsUpdate_eq_false_iff.mp hu) hx
    cases hs with
    | sent hd hw => exact absurd hpast hw
    | kept hd _ =>
      rw [hstore, hd₀] at hd
      cases hd
      exact .inr ⟨rfl, rfl⟩

theorem sameHead_fresh {prev next : Redkey} (he : EditOf prev next) :
    SameHead (fresh defaults prev) (buildDesiredRobinDeployment next) := by
  have hh := sameHead_of_edit he
  exact ⟨hh.replicas, hh.labels, hh.annotations⟩

/-- The edits that are not noticed. -/
theorem not_noticed_iff {prev next : Redkey} (he : EditOf prev next) :
    ¬ Noticed defaults prev next ↔ Overlooked defaults prev next := by
  have hh : SameHead (fresh defaults prev) (buildDesiredRobinDeployment next) := sameHead_fresh he
  unfold Noticed
  rw [not_or, Bool.not_eq_true, needsUpdate_eq_false_iff]
  constructor
  · intro h
    obtain ⟨hm, hchanges⟩ := h
    refine ⟨hchanges, StringMap.deepEqual_iff.mp hm.podLabels,
      StringMap.deepEqual_iff.mp hm.podAnnotations, podSpec_derives_iff.mp hm.spec, ?_⟩
    rw [← StringMap.deepEqual_iff.mp hm.annotations, get_stripManagedAnnotations, if_pos rfl]
  · intro h
    obtain ⟨hchanges, hlabels, hannotations, hspec, hfree⟩ := h
    refine ⟨⟨hh.replicas, StringMap.deepEqual_iff.mpr hh.labels,
      StringMap.deepEqual_iff.mpr fun k => ?_, StringMap.deepEqual_iff.mpr hlabels,
      StringMap.deepEqual_iff.mpr hannotations, podSpec_derives_iff.mpr hspec⟩, hchanges⟩
    rw [hh.annotations, get_stripManagedAnnotations]
    split
    · rename_i hk
      rw [hk, hfree]
    · rfl

/-! ## Every sequence of edits -/

variable (defaults)

/-- Edits of one Redkey, the last one first, each with the Deployment that is stored after it.
Between two of them only the Deployment controller writes to the Deployment. -/
inductive Edits : List (Redkey × Deployment) → Prop
  | first {cluster : Redkey} {d : Deployment} {w w' : World}
      (hnone : w.store.robin .deployment (robinKey cluster) = none)
      (hx : Exec currentReads (ensureRobinDeployment cluster) w (.ok ()) w')
      (hs : Stored defaults cluster w w' d) : Edits [(cluster, d)]
  | next {prev next : Redkey} {d d₀ d' : Deployment} {past : List (Redkey × Deployment)}
      {w w' : World} (h : Edits ((prev, d) :: past)) (he : EditOf prev next)
      (hr : Relation.ReflTransGen Revised d d₀)
      (hw : w.store.robin .deployment (robinKey next) = some d₀)
      (hx : Exec currentReads (ensureRobinDeployment next) w (.ok ()) w')
      (hs : Stored defaults next w w' d') : Edits ((next, d') :: (prev, d) :: past)

variable {defaults}

theorem Edits.sameHead {p : Redkey × Deployment} {past : List (Redkey × Deployment)}
    (h : Edits defaults (p :: past)) : SameHead p.2 (buildDesiredRobinDeployment p.1) := by
  generalize hl : p :: past = l at h
  induction h generalizing p past with
  | first hnone hx hs =>
    cases hl
    rw [stored_first hnone hx hs]
    exact ⟨rfl, fun _ => rfl, fun _ => rfl⟩
  | next h he hr hw hx hs ih =>
    cases hl
    obtain ⟨-, hh, -⟩ | ⟨-, rfl⟩ := stored_next hw hx hs
    · exact hh
    · exact (sameHead_of_revised hr).1.symm.trans ((ih rfl).trans (sameHead_of_edit he))

/-- An edit of a current Deployment leaves a current one exactly if it is noticed. -/
theorem current_next_iff {prev next : Redkey} {d d₀ d' : Deployment}
    (hh : SameHead d (buildDesiredRobinDeployment prev)) (hc : Current defaults prev d)
    (hr : Relation.ReflTransGen Revised d d₀)
    (hw : w.store.robin .deployment (robinKey next) = some d₀)
    (hx : Exec currentReads (ensureRobinDeployment next) w (.ok ()) w')
    (hs : Stored defaults next w w' d') :
    Current defaults next d' ↔ Noticed defaults prev next := by
  obtain ⟨hrev, htpl⟩ := sameHead_of_revised hr
  have hfresh : robinDeploymentNeedsUpdate d₀ (buildDesiredRobinDeployment next) =
      robinDeploymentNeedsUpdate (fresh defaults prev) (buildDesiredRobinDeployment next) := by
    have hh' := hrev.symm.trans hh
    have hhead : SameHead d₀ (fresh defaults prev) := ⟨hh'.replicas, hh'.labels, hh'.annotations⟩
    refine needsUpdate_congr hhead ?_ _
    rw [htpl]
    exact hc
  unfold Noticed
  rw [← hfresh]
  obtain ⟨hu, -, ht⟩ | ⟨hu, rfl⟩ := stored_next hw hx hs
  · rw [Current, ht]
    exact ⟨fun _ => .inl hu, fun _ => .refl _⟩
  · rw [Current, htpl, hu]
    constructor
    · exact fun h => .inr (hc.symm.trans h)
    · rintro (h | h)
      · cases h
      · exact hc.trans h

/-- The stored template is the one for the current spec after every edit if and only
if every edit is noticed. -/
theorem edits_reach_deployment_iff {run : List (Redkey × Deployment)} (h : Edits defaults run) :
    (∀ p ∈ run, Current defaults p.1 p.2) ↔
      run.IsChain fun next prev => Noticed defaults prev.1 next.1 := by
  induction h with
  | @first cluster d w w' hnone hx hs =>
    refine iff_of_true ?_ (.singleton _)
    rintro p hp
    obtain rfl := List.mem_singleton.mp hp
    rw [stored_first hnone hx hs]
    exact SameTemplate.refl _
  | @next prev next d d₀ d' past w w' h he hr hw hx hs ih =>
    rw [List.isChain_cons_cons, List.forall_mem_cons, ← ih]
    constructor
    · intro ⟨hc', hpast⟩
      exact ⟨(current_next_iff h.sameHead (hpast _ (by simp)) hr hw hx hs).mp hc', hpast⟩
    · intro ⟨hn, hpast⟩
      exact ⟨(current_next_iff h.sameHead (hpast _ (by simp)) hr hw hx hs).mpr hn, hpast⟩

variable (defaults)

/-- A call can return in every world. -/
theorem exists_stored (cluster : Redkey) (w : World) : ∃ w' d,
    Exec currentReads (ensureRobinDeployment cluster) w (.ok ()) w' ∧
      Stored defaults cluster w w' d := by
  obtain ⟨res, w', hx⟩ := exists_flawless (ensureRobinDeployment cluster) w
  obtain ⟨⟨⟩, rfl, -⟩ := always_ensureRobinDeployment cluster res w' hx
  have hx' := hx.mono flawless_current
  have hd : w'.store.robin .deployment (robinKey cluster) =
      some (mended cluster .deployment (w.store.robin .deployment (robinKey cluster))) := by
    rw [exec_ensureDeployment hx', robin_mend_self]
  by_cases hp : w'.past = w.past
  · exact ⟨w', _, hx', .kept hd hp⟩
  · exact ⟨w', _, hx', .sent hd hp⟩

theorem exists_edits {prev next : Redkey} (he : EditOf prev next) :
    ∃ d d', Edits defaults [(next, d'), (prev, d)] := by
  obtain ⟨w₁, d, hx, hs⟩ := exists_stored defaults prev (worldOf [])
  obtain ⟨w₂, d', hx', hs'⟩ := exists_stored defaults next
    { worldOf [] with
      store := (worldOf []).store.setRobin .deployment (robinKey next) (some d) }
  refine ⟨d, d', .next (.first rfl hx hs) he .refl ?_ hx' hs'⟩
  exact Store.robin_setRobin_self _ _ _ _

end

/-- A cluster whose Robin runs this image on these nodes. -/
def placed (image : String) (nodeSelector : StringMap) : Redkey :=
  { emptyRedkey with
    spec :=
      { primaries := 3
        robin :=
          { image := image
            template := some { spec := { nodeSelector := nodeSelector } } } } }

/-- A removal that comes with a new image is noticed. -/
theorem edits_reach_deployment_placed : ∃ d d',
    Edits id [(placed "robin:2" [], d'), (placed "robin:1" [("disk", "ssd")], d)] ∧
      d'.template.spec.nodeSelector.get "disk" = none := by
  have he : EditOf (placed "robin:1" [("disk", "ssd")]) (placed "robin:2" []) := ⟨rfl, rfl⟩
  obtain ⟨d, d', h⟩ := exists_edits id he
  have hnoticed : Noticed id (placed "robin:1" [("disk", "ssd")]) (placed "robin:2" []) :=
    .inl (by decide)
  have hcurrent := (edits_reach_deployment_iff h).mpr (.cons_cons hnoticed (.singleton _))
  exact ⟨d, d', h, (hcurrent _ List.mem_cons_self).nodeSelector "disk"⟩

/-- A node selector that is taken away stays. -/
theorem removal_is_not_noticed : ∃ d d',
    Edits id [(placed "robin:1" [], d'), (placed "robin:1" [("disk", "ssd")], d)] ∧
      d'.template.spec.nodeSelector.get "disk" = some "ssd" ∧
      ¬ Current id (placed "robin:1" []) d' := by
  have he : EditOf (placed "robin:1" [("disk", "ssd")]) (placed "robin:1" []) := ⟨rfl, rfl⟩
  obtain ⟨d, d', h⟩ := exists_edits id he
  refine ⟨d, d', h, ?_⟩
  cases h with
  | @next _ _ _ d₀ _ _ _ _ h he hr hw hx hs =>
    have hkept : d'.template.spec.nodeSelector.get "disk" = some "ssd" := by
      obtain ⟨hrev, htpl⟩ := sameHead_of_revised hr
      have hd : d = fresh id (placed "robin:1" [("disk", "ssd")]) := by
        cases h with
        | first hnone hx hs => exact stored_first hnone hx hs
      subst hd
      have hsame : SameTemplate d₀.template
          (fresh id (placed "robin:1" [("disk", "ssd")])).template := htpl ▸ .refl _
      obtain ⟨hu, -⟩ | ⟨-, rfl⟩ := stored_next hw hx hs
      · rw [needsUpdate_congr hrev.symm hsame] at hu
        exact absurd hu (by decide)
      · rw [htpl]
        rfl
    refine ⟨hkept, fun hc => ?_⟩
    have hgone := hc.nodeSelector "disk"
    rw [hkept] at hgone
    cases hgone

end RedkeyOperator.Controller

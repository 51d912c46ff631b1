import RedkeyOperator.Controller.Emits
import RedkeyOperator.Controller.Rbac

/-! # What is sent is not drift

An object that was just created or patched for a Redkey is one that the next
Reconcile of the same spec leaves alone. For the Deployment this needs what every
Go value has, maps without a key twice, and that the user does not claim the
annotation of the Deployment controller. -/
namespace RedkeyOperator.Api

mutual
/-- No map of the value has a key twice. -/
def Value.distinct : Value → Bool
  | .ptr v => v.distinct
  | .list vs => distinctItems vs
  | .map es => decide (es.map Prod.fst).Nodup && distinctEntries es
  | .struct es => decide (es.map Prod.fst).Nodup && distinctEntries es
  | .bool _ | .num _ | .str _ | .nil => true

def distinctItems : List Value → Bool
  | [] => true
  | v :: vs => v.distinct && distinctItems vs

def distinctEntries : List (String × Value) → Bool
  | [] => true
  | (_, v) :: es => v.distinct && distinctEntries es
end

theorem lookup_of_nodup {β : Type} {es : List (String × β)} (hn : (es.map Prod.fst).Nodup)
    {e : String × β} (he : e ∈ es) : es.lookup e.1 = some e.2 := by
  induction es with
  | nil => cases he
  | cons d es ih =>
    obtain ⟨hd, hn⟩ := List.nodup_cons.mp hn
    rcases List.mem_cons.mp he with rfl | he
    · exact List.lookup_cons_self
    · have hne : e.1 ≠ d.1 := fun h => hd (h ▸ List.mem_map_of_mem he)
      rw [List.lookup_cons, beq_eq_false_iff_ne.mpr hne]
      exact ih hn he

mutual
theorem Value.fills_self : ∀ {v : Value}, v.distinct = true → v.Fills v
  | .bool b, _ => .bool b
  | .num n, _ => .num n
  | .str s, _ => .str s
  | .nil, _ => .nil _
  | .ptr v, h => by
    rw [Value.distinct] at h
    exact .ptr (Value.fills_self h)
  | .list vs, h => by
    rw [Value.distinct] at h
    exact .list (fillsItems_self h)
  | .map es, h => by
    rw [Value.distinct, Bool.and_eq_true, decide_eq_true_eq] at h
    exact .map (fillsEntries_of_lookup h.2 fun e he => lookup_of_nodup h.1 he)
  | .struct es, h => by
    rw [Value.distinct, Bool.and_eq_true, decide_eq_true_eq] at h
    exact .struct (fillsEntries_of_lookup h.2 fun e he => lookup_of_nodup h.1 he)

theorem fillsItems_self : ∀ {vs : List Value}, distinctItems vs = true → FillsItems vs vs
  | [], _ => .nil
  | v :: vs, h => by
    rw [distinctItems, Bool.and_eq_true] at h
    exact .cons (Value.fills_self h.1) (fillsItems_self h.2)

theorem fillsEntries_of_lookup : ∀ {as bs : List (String × Value)}, distinctEntries as = true →
    (∀ e ∈ as, bs.lookup e.1 = some e.2) → FillsEntries as bs
  | [], _, _, _ => .nil _
  | (k, v) :: as, bs, h, hl => by
    rw [distinctEntries, Bool.and_eq_true] at h
    exact .cons (hl (k, v) List.mem_cons_self) (Value.fills_self h.1)
      (fillsEntries_of_lookup h.2 fun e he => hl e (List.mem_cons_of_mem _ he))
end

end RedkeyOperator.Api

namespace RedkeyOperator.Controller
open RedkeyOperator.Api RedkeyOperator.Kube RedkeyOperator.Interleave

/-! ## Pods -/

def distinctMap (es : List (String × Value)) : Bool :=
  decide (es.map Prod.fst).Nodup && distinctEntries es

def ResourceRequirements.distinct (r : ResourceRequirements) : Bool :=
  distinctMap (r.limits.getD []) && distinctMap (r.requests.getD []) && distinctItems r.claims

def Container.distinct (c : Container) : Bool :=
  c.env.all (fun e => e.valueFrom.all Value.distinct) && distinctItems c.envFrom &&
    distinctItems c.ports && ResourceRequirements.distinct c.resources &&
    distinctItems c.volumeMounts && c.securityContext.all Value.distinct

def PodSpec.distinct (p : PodSpec) : Bool :=
  p.containers.all Container.distinct && decide (p.nodeSelector.map Prod.fst).Nodup &&
    distinctItems p.tolerations && p.affinity.all Value.distinct &&
    p.securityContext.all Value.distinct && distinctItems p.imagePullSecrets &&
    distinctItems p.topologySpreadConstraints && distinctItems p.volumes

theorem ptrFills_self {v : Option Value} (h : v.all Value.distinct = true) : PtrFills v v := by
  cases v with
  | none => exact .unset _
  | some v => exact .set (Value.fills_self h)

theorem listFills_self {α : Type} {Fills : α → α → Prop} {l : List α} (h : ∀ a ∈ l, Fills a a) :
    ListFills Fills l l := .inr (List.forall₂_same.mpr h)

theorem fillsEntries_self {es : List (String × Value)} (h : distinctMap es = true) :
    FillsEntries es es := by
  rw [distinctMap, Bool.and_eq_true, decide_eq_true_eq] at h
  exact fillsEntries_of_lookup h.2 fun e he => lookup_of_nodup h.1 he

theorem mapFills_self {m : StringMap} (h : (m.map Prod.fst).Nodup) : MapFills m m :=
  fun e he => ⟨e.2, lookup_of_nodup h he, .inr rfl⟩

theorem Container.fills_self {c : Container} (h : Container.distinct c = true) :
    Container.Fills c c := by
  simp only [Container.distinct, ResourceRequirements.distinct, Bool.and_eq_true,
    List.all_eq_true] at h
  obtain ⟨⟨⟨⟨⟨henv, hfrom⟩, hports⟩, ⟨hlimits, hrequests⟩, hclaims⟩, hmounts⟩, hsec⟩ := h
  exact
    { name := .inr rfl
      image := .inr rfl
      args := listFills_self fun _ _ => .inr rfl
      env := listFills_self fun e he => ⟨.inr rfl, .inr rfl, ptrFills_self (henv e he)⟩
      envFrom := .inr (fillsItems_self hfrom)
      ports := .inr (fillsItems_self hports)
      resources := ⟨fillsEntries_self hlimits, fillsEntries_self hrequests,
        .inr (fillsItems_self hclaims)⟩
      volumeMounts := .inr (fillsItems_self hmounts)
      securityContext := ptrFills_self hsec }

theorem PodSpec.fills_self {p : PodSpec} (h : PodSpec.distinct p = true) : PodSpec.Fills p p := by
  simp only [PodSpec.distinct, Bool.and_eq_true, List.all_eq_true, decide_eq_true_eq] at h
  obtain ⟨⟨⟨⟨⟨⟨⟨hcontainers, hnodes⟩, htol⟩, haff⟩, hsec⟩, hpull⟩, htop⟩, hvol⟩ := h
  exact
    { serviceAccountName := .inr rfl
      containers := listFills_self fun c hc => Container.fills_self (hcontainers c hc)
      nodeSelector := mapFills_self hnodes
      tolerations := .inr (fillsItems_self htol)
      affinity := ptrFills_self haff
      securityContext := ptrFills_self hsec
      imagePullSecrets := .inr (fillsItems_self hpull)
      priorityClassName := .inr rfl
      topologySpreadConstraints := .inr (fillsItems_self htop)
      volumes := .inr (fillsItems_self hvol) }

theorem Deployment.fills_self {d : Deployment} (h : PodSpec.distinct d.template.spec = true) :
    Deployment.Fills d d :=
  ⟨rfl, fun _ hn => hn, rfl, rfl, PodSpec.fills_self h⟩

/-! ## Robin's objects -/

/-- The Deployment of the Redkey is a Go value, and the user leaves the annotation
of the Deployment controller alone. -/
structure Acceptable (rk : Redkey) : Prop where
  distinct : PodSpec.distinct (buildDesiredRobinDeployment rk).template.spec = true
  unclaimed : (derefMap rk.spec.annotations).get deploymentRevisionAnnotation = none

section
variable {rk rk' : Redkey}

/-- What is looked at of a Redkey is its name and its spec. -/
theorem drifted_congr (hk : rk.key = rk'.key) (hs : rk.spec = rk'.spec) (k : Kind) (o : Obj k) :
    drifted rk k o = drifted rk' k o := by
  obtain ⟨key, uid, generation, version, spec, status⟩ := rk
  cases hk
  cases hs
  cases k <;> rfl

theorem Acceptable.congr (h : Acceptable rk) (hk : rk.key = rk'.key) (hs : rk.spec = rk'.spec) :
    Acceptable rk' := by
  obtain ⟨key, uid, generation, version, spec, status⟩ := rk
  cases hk
  cases hs
  exact ⟨h.distinct, h.unclaimed⟩

theorem Acceptable.matches_sent (h : Acceptable rk) (existing : Deployment) {d : Deployment}
    (hd : d.replicas = (buildDesiredRobinDeployment rk).replicas ∧
      d.metadata.labels = (buildDesiredRobinDeployment rk).metadata.labels ∧
      (d.metadata.annotations = (buildDesiredRobinDeployment rk).metadata.annotations ∨
        d.metadata.annotations = preserveManagedAnnotations existing.metadata.annotations
          (buildDesiredRobinDeployment rk).metadata.annotations) ∧
      d.template = (buildDesiredRobinDeployment rk).template) :
    drifted rk .deployment d = false := by
  have hfills : Deployment.Fills d d := Deployment.fills_self (by rw [hd.2.2.2]; exact h.distinct)
  exact needsUpdate_eq_false_iff.mpr (Controller.matches_sent existing nofun
    (nodup_annotations_desired rk) ((annotations_desired rk).mpr h.unclaimed) hd hfills)

theorem Acceptable.drifted_desired (h : Acceptable rk) (k : Kind) :
    drifted rk k (desiredObject rk k) = false := by
  by_cases hk : k = .deployment
  · subst hk
    exact h.matches_sent (buildDesiredRobinDeployment rk) ⟨rfl, rfl, .inl rfl, rfl⟩
  · exact drifted_desiredObject hk

/-- What a Reconcile that returns leaves is not drift. -/
theorem Acceptable.drifted_mended (h : Acceptable rk) (k : Kind) (o : Option (Obj k)) :
    drifted rk k (mended rk k o) = false := by
  by_cases hk : k = .deployment
  · subst hk
    cases o with
    | none => exact h.drifted_desired .deployment
    | some o =>
      rw [mended]
      split
      · exact h.matches_sent o ⟨rfl, rfl, .inr rfl, rfl⟩
      · rename_i hn
        exact Bool.eq_false_iff.mpr hn
  · exact Controller.drifted_mended hk o

/-- A patch for the Redkey keeps an object as it should be. -/
theorem Acceptable.drifted_patched (h : Acceptable rk) {k : Kind} {stored x : Obj k}
    (hs : drifted rk k stored = false) (hx : Emits (Eq rk) (.write (.patch k x))) :
    drifted rk k (patched stored x) = false := by
  cases hx with
  | free hf => cases hf
  | patchDeployment hG existing =>
    cases hG
    exact h.matches_sent
      { buildDesiredRobinDeployment rk with
        metadata := { (buildDesiredRobinDeployment rk).metadata with annotations := existing } }
      ⟨rfl, rfl, .inr rfl, rfl⟩
  | patch hG =>
    cases hG
    cases k with
    | serviceAccount => exact drifted_corrected (k := .serviceAccount) nofun stored
    | role => exact drifted_corrected (k := .role) nofun stored
    | roleBinding =>
      -- the RoleRef is the stored one
      refine Bool.or_eq_false_iff.mpr ⟨(Bool.or_eq_false_iff.mp hs).1, ?_⟩
      exact Bool.or_eq_false_iff.mpr ⟨bne_eq_false_iff_eq.mpr rfl, metaDrifted_eq_false rfl rfl⟩
    | deployment =>
      exact h.matches_sent (buildDesiredRobinDeployment rk) ⟨rfl, rfl, .inl rfl, rfl⟩

end

end RedkeyOperator.Controller

import RedkeyOperator.Controller.EnvVars
import RedkeyOperator.Controller.Pure

/-! # What identifies a Robin

The pod labels that the selector asks for and the two variables that name the
cluster come last in every merge, so user input cannot replace them. -/
namespace RedkeyOperator.Controller
open RedkeyOperator.Api RedkeyOperator.Data LastWins

/-- An override replaces the user's block as a whole; the internal entries win. -/
theorem get_mergeMeta_eq {spec override base : StringMap} (hs : spec.IsMap) (ho : override.IsMap)
    (hb : base.IsMap) (k : String) :
    (mergeMeta spec override base).get k =
      (base.get k).or (if override.isEmpty then spec.get k else override.get k) := by
  unfold mergeMeta
  rw [StringMap.get_copy hb]
  congr 1
  have hcopy : ∀ m : StringMap, m.IsMap → (StringMap.copy [] m).get k = m.get k := by
    intro m hm
    rw [StringMap.get_copy hm]
    simp [StringMap.get]
  split
  · exact hcopy spec hs
  · exact hcopy override ho

/-! ## The environment -/

/-- The template of the Redkey, empty when there is none. -/
def templateOf (cluster : Redkey) : PartialPodTemplateSpec := cluster.spec.robin.template.getD {}

/-- The variables of the template's first container. -/
def userEnv (cluster : Redkey) : List EnvVar :=
  match (templateOf cluster).spec.containers with
  | src :: _ => src.env
  | [] => []

theorem nodup_robinDefaultEnvVars (cluster : Redkey) :
    ((robinDefaultEnvVars cluster).map EnvVar.name).Nodup := by
  simp [robinDefaultEnvVars]

theorem merge_robinDefaultEnvVars (cluster : Redkey) :
    merge EnvVar.name (robinDefaultEnvVars cluster) (robinDefaultEnvVars cluster) =
      robinDefaultEnvVars cluster := by
  simp [merge, put, robinDefaultEnvVars]

/-- The defaults are merged before and after the user's variables. -/
theorem env_robinContainer (cluster : Redkey) :
    (robinContainer cluster).env =
      merge EnvVar.name (merge EnvVar.name (robinDefaultEnvVars cluster) (userEnv cluster))
        (robinDefaultEnvVars cluster) := by
  unfold robinContainer userEnv templateOf
  cases cluster.spec.robin.template with
  | none => exact (merge_robinDefaultEnvVars cluster).symm
  | some tpl =>
    simp only [Option.getD_some, mergeEnvVars_eq]
    cases tpl.spec.containers with
    | nil => rfl
    | cons src rest =>
      simp only [overrideContainer, mergeEnvVars_eq]
      split
      · rename_i hempty
        rw [List.isEmpty_iff.mp hempty]
        rfl
      · rfl

theorem last_robinDefaultEnvVars (cluster : Redkey) (n : String) :
    last EnvVar.name n (robinDefaultEnvVars cluster) =
      if n = "NAMESPACE" then some { name := "NAMESPACE", value := cluster.key.namespace_ }
      else if n = "CLUSTER_NAME" then some { name := "CLUSTER_NAME", value := cluster.key.name }
      else none := by
  unfold robinDefaultEnvVars
  rw [last_cons, last_singleton]
  simp only [eq_comm]
  split
  · rfl
  · rfl

/-! ## User input -/

/-- The label and annotation maps of a Redkey are maps. -/
structure GoMaps (cluster : Redkey) : Prop where
  labels : (derefMap cluster.spec.labels).IsMap
  annotations : (derefMap cluster.spec.annotations).IsMap
  podLabels : (templateOf cluster).labels.IsMap
  podAnnotations : (templateOf cluster).annotations.IsMap

theorem isMap_robinBaseLabels (cluster : Redkey) : (robinBaseLabels cluster).IsMap := by
  simp [StringMap.IsMap, robinBaseLabels, Kube.clusterLabel, componentLabel]

/-- Whatever the user sets, Robin's pods are selected, Robin is told the name and the
namespace of its cluster by exactly one variable each, and every other entry is
the user's. -/
theorem robin_identity_is_fixed {cluster : Redkey} (hm : GoMaps cluster) :
    (∀ k v, (buildDesiredRobinDeployment cluster).selector.get k = some v →
      (buildDesiredRobinDeployment cluster).template.labels.get k = some v) ∧
    (∃ c, (buildDesiredRobinDeployment cluster).template.spec.containers = [c] ∧
      (c.env.map EnvVar.name).Nodup ∧
      c.env.filter (fun e => e.name == "CLUSTER_NAME") =
        [{ name := "CLUSTER_NAME", value := cluster.key.name, valueFrom := none }] ∧
      c.env.filter (fun e => e.name == "NAMESPACE") =
        [{ name := "NAMESPACE", value := cluster.key.namespace_, valueFrom := none }] ∧
      ∀ n, n ≠ "CLUSTER_NAME" → n ≠ "NAMESPACE" → ∀ e,
        (e ∈ c.env ∧ e.name = n) ↔ lastNamed n (userEnv cluster) = some e) ∧
    (∀ k, (buildDesiredRobinDeployment cluster).template.labels.get k =
      ((robinBaseLabels cluster).get k).or
        (if (templateOf cluster).labels.isEmpty then (derefMap cluster.spec.labels).get k
        else (templateOf cluster).labels.get k)) ∧
    ∀ k, (buildDesiredRobinDeployment cluster).template.annotations.get k =
      if (templateOf cluster).annotations.isEmpty then (derefMap cluster.spec.annotations).get k
      else (templateOf cluster).annotations.get k := by
  have hlabels : ∀ k, (buildDesiredRobinDeployment cluster).template.labels.get k = _ :=
    get_mergeMeta_eq hm.labels hm.podLabels (isMap_robinBaseLabels cluster)
  have hnil : StringMap.IsMap [] := List.nodup_nil
  refine ⟨fun k v hk => ?_, ⟨robinContainer cluster, ?_, ?_⟩, hlabels, fun k => ?_⟩
  · have hk' : (robinBaseLabels cluster).get k = some v := hk
    rw [hlabels, hk']
    rfl
  · show (robinPodSpec cluster).containers = _
    unfold robinPodSpec
    split <;> rfl
  · have hnodup : ((robinContainer cluster).env.map EnvVar.name).Nodup := by
      rw [env_robinContainer]
      exact nodup_merge (nodup_merge (nodup_robinDefaultEnvVars cluster) _) _
    have hlast : ∀ n, last EnvVar.name n (robinContainer cluster).env =
        (last EnvVar.name n (robinDefaultEnvVars cluster)).or (lastNamed n (userEnv cluster)) := by
      intro n
      rw [env_robinContainer, last_merge, last_append, last_merge, last_append]
      cases last EnvVar.name n (robinDefaultEnvVars cluster) <;> simp
    refine ⟨hnodup, ?_, ?_, fun n hc hn e => ?_⟩
    · rw [filter_eq_last hnodup, hlast, last_robinDefaultEnvVars]
      rfl
    · rw [filter_eq_last hnodup, hlast, last_robinDefaultEnvVars]
      rfl
    · rw [mem_iff_last hnodup, hlast, last_robinDefaultEnvVars, if_neg hn, if_neg hc,
        Option.none_or]
  · exact get_mergeMeta_eq hm.annotations hm.podAnnotations hnil k

/-- A Redkey that claims to be another cluster. -/
def impostor : Redkey where
  key := ⟨"default", "redis"⟩
  uid := "u1"
  generation := 1
  resourceVersion := 1
  spec :=
    { primaries := 3
      labels := some [(Kube.clusterLabel, "other"), ("team", "cache")]
      robin :=
        { image := "robin"
          template := some
            { annotations := [("note", "mine")]
              spec :=
                { containers :=
                    [{ name := "robin"
                       image := "robin"
                       env :=
                         [{ name := "CLUSTER_NAME", valueFrom := some (.str "field") },
                          { name := "LEVEL", value := "info" },
                          { name := "LEVEL", value := "debug" }] }] } } } }

theorem robin_identity_is_fixed_impostor :
    (buildDesiredRobinDeployment impostor).template.labels.get Kube.clusterLabel = some "redis" ∧
    (buildDesiredRobinDeployment impostor).template.labels.get "team" = some "cache" ∧
    ∃ c, (buildDesiredRobinDeployment impostor).template.spec.containers = [c] ∧
      { name := "LEVEL", value := "debug" } ∈ c.env ∧
      c.env.filter (fun e => e.name == "CLUSTER_NAME") =
        [{ name := "CLUSTER_NAME", value := "redis" }] := by
  have hm : GoMaps impostor :=
    ⟨by simp [StringMap.IsMap, derefMap, impostor, Kube.clusterLabel], List.nodup_nil,
      List.nodup_nil, List.pairwise_singleton _ _⟩
  obtain ⟨hselected, ⟨c, hc, -, hname, -, hrest⟩, hlabels, -⟩ := robin_identity_is_fixed hm
  refine ⟨hselected _ _ rfl, hlabels "team", c, hc, ?_, hname⟩
  exact ((hrest "LEVEL" (by decide) (by decide) _).mpr rfl).1

end RedkeyOperator.Controller

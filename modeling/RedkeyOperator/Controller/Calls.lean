import RedkeyOperator.Controller.Reconcile

/-! # The calls that each function of the controller can issue

One lemma for each function: if the calls in its text satisfy `P`, every call
it issues does, whatever the replies. -/
namespace RedkeyOperator.Controller
open RedkeyOperator.Api RedkeyOperator.Kube RedkeyOperator.Interleave

variable {α : Type} {P : Call → Prop}

theorem calls_stage {m : Act α} (hm : m.Calls P) (hn : ∀ n, P (.count n)) (name : String) :
    (stage name m).Calls P := by
  refine Prog.Calls.bind hm.attempt fun r => ?_
  cases r with
  | ok a => trivial
  | error e => exact Prog.Calls.bind (.request (hn _)) fun _ => trivial

/-! ## Robin's objects -/

theorem calls_ensure {k : Kind} {desired : Obj k} {drifted : Obj k → Bool}
    (hg : P (.get k desired.metadata.key)) (hc : P (.write (.create k desired)))
    (hp : P (.write (.patch k desired))) : (ensure k desired drifted).Calls P := by
  refine Prog.Calls.bind (.perform hg) fun r => ?_
  cases r with
  | error e =>
    cases e with
    | notFound => exact .request hc
    | _ => trivial
  | ok existing =>
    simp only
    split
    · exact .request hp
    · trivial

theorem calls_ensureRBAC {cluster : Redkey}
    (hg : ∀ k, P (.get k (robinKey cluster)))
    (hc : ∀ k (o : Obj k), k ≠ .deployment → o.metadata.key = robinKey cluster →
      P (.write (.create k o)))
    (hp : ∀ k (o : Obj k), k ≠ .deployment → o.metadata.key = robinKey cluster →
      P (.write (.patch k o)))
    (hd : P (.write (.delete .roleBinding (robinKey cluster)))) : (ensureRBAC cluster).Calls P := by
  refine Prog.Calls.bind (calls_ensure (hg _) (hc _ _ nofun rfl) (hp _ _ nofun rfl)) fun _ => ?_
  refine Prog.Calls.bind (calls_ensure (hg _) (hc _ _ nofun rfl) (hp _ _ nofun rfl)) fun _ => ?_
  refine Prog.Calls.bind (.perform (hg _)) fun r => ?_
  cases r with
  | error e =>
    cases e with
    | notFound => exact .request (hc _ _ nofun rfl)
    | _ => trivial
  | ok existing =>
    simp only
    split
    · exact Prog.Calls.bind (.request hd) fun _ => .request (hc _ _ nofun rfl)
    · split
      · exact .request (hp _ _ nofun rfl)
      · trivial

theorem calls_ensureRobinDeployment {cluster : Redkey}
    (hg : P (.get .deployment (robinKey cluster)))
    (hc : P (.write (.create .deployment (buildDesiredRobinDeployment cluster))))
    (hp : ∀ o : Deployment, o.metadata.key = robinKey cluster → P (.write (.patch .deployment o)))
    (hn : ∀ n, P (.count n)) : (ensureRobinDeployment cluster).Calls P := by
  refine Prog.Calls.bind (.perform hg) fun r => ?_
  cases r with
  | error e =>
    cases e with
    | notFound => exact Prog.Calls.bind (.request hc) fun _ => .request (hn _)
    | _ => trivial
  | ok existing =>
    simp only
    split
    · exact Prog.Calls.bind (.request (hp _ rfl)) fun _ => .request (hn _)
    · trivial

/-! ## Configs and the status -/

section
variable {cluster : Redkey}

theorem calls_listConfigs (h : P (.listConfigs cluster.key.namespace_ cluster.key.name)) :
    (listConfigs cluster).Calls P :=
  Prog.Calls.bind (.request h) fun _ => trivial

theorem calls_createNewConfig {highest : Option RedkeyConfig}
    (hc : P (.write (.createConfig (newConfig cluster (nextSequence highest)))))
    (hn : ∀ n, P (.count n)) : (createNewConfig cluster highest).Calls P := by
  refine Prog.Calls.bind (.perform hc) fun r => ?_
  cases r with
  | ok u => exact .request (hn _)
  | error e => cases e <;> trivial

theorem calls_retryOnConflict {fn : Act α} (h : fn.Calls P) (steps : Nat) :
    (retryOnConflict steps fn).Calls P := by
  induction steps with
  | zero => trivial
  | succ n ih =>
    refine Prog.Calls.bind h.attempt fun r => ?_
    cases r with
    | ok a => trivial
    | error e =>
      cases e with
      | conflict => exact ih
      | _ => trivial

theorem calls_aggregateStatus (hg : P (.getRedkey cluster.key)) (ht : P .now)
    (hw : ∀ rk, P (.write (.updateStatus rk))) (configs : List RedkeyConfig) :
    (aggregateStatus cluster configs).Calls P := by
  unfold aggregateStatus
  split
  · trivial
  · refine Prog.Calls.bind (calls_retryOnConflict ?_ _) fun _ => trivial
    refine Prog.Calls.bind (.request hg) fun latest => ?_
    refine Prog.Calls.bind (.request ht) fun now => ?_
    refine Prog.Calls.bind (.perform (hw _)) fun r => ?_
    cases r <;> trivial

theorem calls_deleteOlder (hd : ∀ key, P (.write (.deleteConfig key))) (hn : ∀ n, P (.count n))
    (older kept : List RedkeyConfig) : (deleteOlder older kept).Calls P := by
  induction older with
  | nil => trivial
  | cons c cs ih =>
    refine Prog.Calls.bind (.perform (hd _)) fun r => ?_
    cases r with
    | ok u => exact Prog.Calls.bind (.request (hn _)) fun _ => ih
    | error e =>
      cases e with
      | notFound => exact ih
      | _ => trivial

end
end RedkeyOperator.Controller

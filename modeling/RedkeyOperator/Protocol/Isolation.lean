import RedkeyOperator.Controller.Pure
import RedkeyOperator.Interleave.Parallel
import RedkeyOperator.Kube.Direct
import RedkeyOperator.Protocol.Refinement

/-! # Reconciles of different Redkeys

The objects of a Redkey are itself, the configs that carry its name and a
number and the four objects of its Robin. Reconcile reads and writes no others:
it addresses them by name, and a list by label returns configs that the
operator has named after the label. No object belongs to two Redkeys, because
the number of a config is what follows the last dash. -/
namespace RedkeyOperator.Protocol
open RedkeyOperator.Api RedkeyOperator.Kube RedkeyOperator.Interleave RedkeyOperator.Controller

variable {a b : NamespacedName} {st st' : Store} {α : Type}

/-! ## The objects of a Redkey -/

def configKey (a : NamespacedName) (n : Nat) : NamespacedName := ⟨a.namespace_, configName a.name n⟩

def Belongs (a : NamespacedName) : ObjectId → Prop
  | .redkey key => key = a
  | .config key => ∃ n, key = configKey a n
  | .robin _ key => key = robinKeyOf a

theorem Belongs.unique {x : ObjectId} (ha : Belongs a x) (hb : Belongs b x) : a = b := by
  cases x with
  | redkey key => exact (ha : key = a).symm.trans hb
  | config key =>
    obtain ⟨n, rfl⟩ := ha
    obtain ⟨m, h⟩ := hb
    obtain ⟨hns, hname⟩ := NamespacedName.mk.inj h
    cases a; cases b
    exact congrArg₂ _ hns (configName_injective hname).1
  | robin k key =>
    obtain rfl : key = robinKeyOf a := ha
    obtain ⟨hns, hname⟩ := NamespacedName.mk.inj (hb : robinKeyOf a = robinKeyOf b)
    have hl := congrArg String.toList hname
    rw [String.toList_append, String.toList_append] at hl
    cases a; cases b
    exact congrArg₂ _ hns (String.toList_inj.mp (List.append_cancel_right hl))

/-- Every config is one that `createNewConfig` has sent for some Redkey, whatever
its user put into labels and annotations, and whatever Robin has reported. -/
structure OperatorMade (st : Store) : Prop where
  keyed : ∀ key rk, st.redkeys key = some rk → rk.key = key
  made : ∀ c ∈ st.configs, ∃ rk, MadeFrom rk c

namespace OperatorMade

/-- A config is named after the Redkey it is labelled for. -/
theorem belongs (h : OperatorMade st) {c : RedkeyConfig}
    (hc : c ∈ st.configsOf clusterLabel a.namespace_ a.name) : Belongs a (.config c.key) := by
  obtain ⟨hmem, hsel⟩ := List.mem_filter.mp hc
  obtain ⟨hns, hlabel⟩ := Bool.and_eq_true_iff.mp hsel
  obtain ⟨rk, hmade⟩ := h.made c hmem
  have hname : rk.key.name = a.name := by simpa [hmade.label] using hlabel
  have hkey := hmade.key
  have hns' : rk.key.namespace_ = a.namespace_ := by simpa [hkey] using hns
  exact ⟨c.sequence, by rw [hkey, hns', hname]; rfl⟩

theorem of_configs (h : OperatorMade st) (hr : st'.redkeys = st.redkeys)
    (hc : ∀ c ∈ st'.configs, c ∈ st.configs) : OperatorMade st' :=
  ⟨hr ▸ h.keyed, fun c hm => h.made c (hc c hm)⟩

end OperatorMade

/-! ## The calls of one Reconcile -/

/-- Calls about the objects of `a`. -/
def Own (a : NamespacedName) : Call → Prop
  | .getRedkey key => Belongs a (.redkey key)
  | .listConfigs ns cluster => ns = a.namespace_ ∧ cluster = a.name
  | .get k key => Belongs a (.robin k key)
  | .write (.createConfig c) => ∃ rk seq, rk.key = a ∧ c = newConfig rk seq
  | .write w => Belongs a w.object
  | .now | .count _ | .recordMetrics _ _ | .deleteMetrics _ => True

/-- Answers that are about the objects of `a`. -/
def Sound (a : NamespacedName) : (c : Call) → Except ApiError (Reply c) → Prop
  | .getRedkey _, .ok rk => Redkey.key rk = a
  | .listConfigs _ _, .ok (items : List RedkeyConfig) => ∀ c ∈ items, Belongs a (.config c.key)
  | _, _ => True

theorem belongs_of_own {c : Call} {r : Except ApiError (Reply c)} (hc : Own a c)
    (hr : Sound a c r) : ∀ x ∈ c.objects r, Belongs a x := by
  cases c with
  | getRedkey key => exact List.forall_mem_singleton.mpr hc
  | listConfigs ns cluster =>
    cases r with
    | error e => exact fun x hx => nomatch hx
    | ok items =>
      intro x hx
      obtain ⟨c, hc, rfl⟩ := List.mem_map.mp hx
      exact hr c hc
  | get k key => exact List.forall_mem_singleton.mpr hc
  | write w =>
    refine List.forall_mem_singleton.mpr ?_
    cases w with
    | createConfig c => obtain ⟨rk, seq, rfl, rfl⟩ := hc; exact ⟨seq, rfl⟩
    | _ => exact hc
  | now | count _ | recordMetrics _ _ | deleteMetrics _ => exact fun x hx => nomatch hx

theorem OperatorMade.apply {w : Write} (h : OperatorMade st) (hw : Own a (.write w))
    (hs : st.apply w = .ok st') : OperatorMade st' := by
  cases w with
  | updateStatus rk =>
    obtain ⟨cur, hcur, -, rfl⟩ := apply_updateStatus hs
    refine ⟨fun key rk' hrk' => ?_, h.made⟩
    by_cases hk : key = cur.key
    · subst hk
      simp [Store.setRedkey, Redkey.withStatus] at hrk'
      subst hrk'
      rfl
    · exact h.keyed key rk' (by simpa [Store.setRedkey, Redkey.withStatus, hk] using hrk')
  | createConfig c =>
    obtain ⟨-, rfl⟩ := apply_createConfig hs
    obtain ⟨rk, seq, -, rfl⟩ := hw
    refine ⟨h.keyed, fun c hc => ?_⟩
    obtain hc | hc := List.mem_append.mp hc
    · exact h.made c hc
    · exact ⟨rk, List.mem_singleton.mp hc ▸ madeFrom_newConfig rk seq⟩
  | deleteConfig key =>
    obtain ⟨_, -, rfl⟩ := apply_deleteConfig hs
    exact h.of_configs rfl fun c hc => (Store.mem_removeConfig.mp hc).1
  | create k o => obtain ⟨-, rfl⟩ := apply_create hs; exact ⟨h.keyed, h.made⟩
  | patch k o => obtain ⟨_, -, rfl⟩ := apply_patch hs; exact ⟨h.keyed, h.made⟩
  | delete k key => obtain rfl := apply_delete hs; exact ⟨h.keyed, h.made⟩

/-- Caches hold what the operator has made, too. -/
def FromOperator : Choice → Prop
  | .cached seen _ => OperatorMade seen
  | _ => True

theorem OperatorMade.view {o : Choice} {seen : Store} (h : OperatorMade st) (ho : FromOperator o)
    (hv : o.view st = some seen) : OperatorMade seen := by
  cases o <;> cases hv
  · exact h
  · exact ho

theorem sound_of_serve {c : Call} {o : Choice} {r : Except ApiError (Reply c)}
    (h : OperatorMade st) (ho : FromOperator o) (hc : Own a c)
    (hs : serve c o st = some (r, st')) : Sound a c r := by
  cases c with
  | getRedkey key =>
    obtain rfl : key = a := hc
    obtain ⟨rfl, -⟩ | ⟨seen, hv, rfl, -⟩ := serve_getRedkey hs
    · trivial
    · cases hrk : seen.redkeys key with
      | none => trivial
      | some rk => exact (h.view ho hv).keyed key rk hrk
  | listConfigs ns cluster =>
    obtain ⟨rfl, rfl⟩ := hc
    obtain ⟨rfl, -⟩ | ⟨seen, items, hv, hi, rfl, -⟩ := serve_listConfigs hs
    · trivial
    · exact fun c hc => (h.view ho hv).belongs (Choice.mem_of_arrange hi c hc)
  | _ => trivial

theorem OperatorMade.serve {c : Call} {o : Choice} {r : Except ApiError (Reply c)}
    (h : OperatorMade st) (hc : Own a c) (hs : serve c o st = some (r, st')) :
    OperatorMade st' := by
  obtain rfl | ⟨w, rfl, rfl⟩ := serve_store hs
  · exact h
  · unfold Store.perform
    cases ha : st.apply w with
    | ok v => exact h.apply hc ha
    | error e => exact h

/-- The part of the store that a Reconcile of `a` works on. -/
def region (a : NamespacedName) : Region direct OperatorMade FromOperator where
  own := Own a
  sound := Sound a
  inside := Store.AgreeOn (Belongs a)
  outside := Store.AgreeOn fun x => ¬Belongs a x
  equiv_inside := Store.AgreeOn.equivalence _
  equiv_outside := Store.AgreeOn.equivalence _
  keeps hc hw ho hs := by
    have hsound := sound_of_serve hw ho hc hs
    refine ⟨hw.serve hc hs, hsound, serve_elsewhere hw.keyed hs fun x hx hn => ?_⟩
    exact hn (belongs_of_own hc hsound x hx)
  depends hc hw hv ho hin hs := by
    refine serve_agree hin hs (belongs_of_own hc (sound_of_serve hw ho hc hs)) ?_
    rintro ns cluster rfl
    obtain ⟨rfl, rfl⟩ := hc
    -- the listed configs are among those that belong to the Redkey
    exact hin.filter_configs (fun c hm hp => hw.belongs (List.mem_filter.mpr ⟨hm, hp⟩))
      fun c hm hp => hv.belongs (List.mem_filter.mpr ⟨hm, hp⟩)

theorem region_apart (hab : a ≠ b) : (region a).Apart (region b) where
  left h := h.mono fun _ hb ha => hab (ha.unique hb)
  right h := h.mono fun _ ha hb => hab (ha.unique hb)

/-! ## The program keeps to them -/

/-- The program keeps to the objects of `a` and returns what satisfies `Q`. -/
abbrev Stays (a : NamespacedName) (Q : α → Prop) : Act α → Prop :=
  Prog.Within (S := api) (Own a) (Sound a) Q

theorem stays_count (n : Counter) : Stays a (fun _ => True) (count n) :=
  (Prog.Within.request (S := api) (c := .count n) trivial).mono fun _ _ => trivial

theorem stays_stage {name : String} {m : Act α} {Q : α → Prop} (hm : Stays a Q m) :
    Stays a Q (stage name m) := by
  refine Prog.Within.attempt_bind hm (fun x hx => hx) fun e => ?_
  exact Prog.Within.bind (stays_count _) fun _ _ => trivial

section
variable {cluster : Redkey} (hk : cluster.key = a)
include hk

theorem stays_ensureRBAC : Stays a (fun _ => True) (ensureRBAC cluster) := by
  subst hk
  exact .of_calls (calls_ensureRBAC (fun _ => rfl) (fun _ _ _ h => h) (fun _ _ _ h => h) rfl)

theorem stays_ensureRobinDeployment : Stays a (fun _ => True) (ensureRobinDeployment cluster) := by
  subst hk
  exact .of_calls (calls_ensureRobinDeployment rfl rfl (fun _ h => h) fun _ => trivial)

theorem stays_listConfigs :
    Stays a (fun configs => ∀ c ∈ configs, Belongs a (.config c.key)) (listConfigs cluster) := by
  subst hk
  refine Prog.Within.bind (Prog.Within.request (S := api)
    (c := .listConfigs cluster.key.namespace_ cluster.key.name) ⟨rfl, rfl⟩) fun items hitems => ?_
  exact fun c hc => hitems c ((List.perm_insertionSort _ _).mem_iff.mp hc)

theorem stays_createNewConfig (highest : Option RedkeyConfig) :
    Stays a (fun _ => True) (createNewConfig cluster highest) := by
  refine Prog.Within.bind (Prog.Within.perform (S := api) (c := .write _) ⟨cluster, _, hk, rfl⟩)
    fun r _ => ?_
  cases r with
  | ok u => exact stays_count _
  | error e => cases e <;> trivial

theorem stays_tryAggregateStatus (active : RedkeyConfig) :
    Stays a (fun _ => True) (tryAggregateStatus cluster active) := by
  refine Prog.Within.bind (Prog.Within.request (S := api) (c := .getRedkey cluster.key) hk)
    fun latest hlatest => ?_
  refine Prog.Within.bind (Prog.Within.request (S := api) (c := .now) trivial) fun now _ => ?_
  refine Prog.Within.bind (Prog.Within.perform (S := api) (c := .write _) hlatest) fun r _ => ?_
  cases r <;> trivial

end

theorem stays_retryOnConflict {fn : Act α} (h : Stays a (fun _ => True) fn) (steps : Nat) :
    Stays a (fun _ => True) (retryOnConflict steps fn) := by
  induction steps with
  | zero => trivial
  | succ n ih =>
    refine Prog.Within.attempt_bind h (fun _ _ => trivial) fun e => ?_
    cases e with
    | conflict => exact ih
    | _ => trivial

theorem stays_aggregateStatus {cluster : Redkey} (hk : cluster.key = a)
    (configs : List RedkeyConfig) : Stays a (fun _ => True) (aggregateStatus cluster configs) := by
  unfold aggregateStatus
  split
  · trivial
  · exact Prog.Within.bind (stays_retryOnConflict (stays_tryAggregateStatus hk _) _)
      fun _ _ => trivial

theorem stays_deleteOlder {older : List RedkeyConfig}
    (h : ∀ c ∈ older, Belongs a (.config c.key)) (kept : List RedkeyConfig) :
    Stays a (fun _ => True) (deleteOlder older kept) := by
  induction older with
  | nil => trivial
  | cons c cs ih =>
    obtain ⟨hc, hcs⟩ := List.forall_mem_cons.mp h
    refine Prog.Within.bind (Prog.Within.perform (S := api) (c := .write (.deleteConfig c.key)) hc)
      fun r _ => ?_
    cases r with
    | ok u => exact Prog.Within.bind (stays_count _) fun _ _ => ih hcs
    | error e =>
      cases e with
      | notFound => exact ih hcs
      | _ => trivial

/-! ### Scale to zero -/

theorem stays_deleteIgnoringNotFound {w : Write} (hw : Own a (.write w)) :
    Stays a (fun _ => True) (deleteIgnoringNotFound w) := by
  refine Prog.Within.bind (Prog.Within.perform (S := api) (c := .write w) hw) fun r _ => ?_
  cases r with
  | ok u => trivial
  | error e => cases e <;> trivial

theorem stays_deleteConfigs {configs : List RedkeyConfig}
    (h : ∀ c ∈ configs, Belongs a (.config c.key)) :
    Stays a (fun _ => True) (deleteConfigs configs) := by
  induction configs with
  | nil => trivial
  | cons c cs ih =>
    obtain ⟨hc, hcs⟩ := List.forall_mem_cons.mp h
    exact Prog.Within.bind (stays_deleteIgnoringNotFound hc) fun _ _ => ih hcs

section
variable {cluster : Redkey} (hk : cluster.key = a)
include hk

theorem stays_deleteAllConfigs : Stays a (fun _ => True) (deleteAllConfigs cluster) := by
  subst hk
  exact Prog.Within.bind (Prog.Within.request (S := api)
    (c := .listConfigs cluster.key.namespace_ cluster.key.name) ⟨rfl, rfl⟩)
    fun items hitems => stays_deleteConfigs hitems

theorem stays_updateStatusScaledToZero :
    Stays a (fun _ => True) (updateStatusScaledToZero cluster) := by
  refine Prog.Within.bind (Prog.Within.request (S := api) (c := .now) trivial) fun now _ => ?_
  exact Prog.Within.bind (Prog.Within.request (S := api) (c := .write (.updateStatus _)) hk)
    fun _ _ => trivial

theorem stays_finishScaleToZero : Stays a (fun _ => True) (finishScaleToZero cluster) := by
  have hdelete (k : Kind) :
      Stays a (fun _ => True) (deleteIgnoringNotFound (.delete k (robinKey cluster))) := by
    subst hk
    exact stays_deleteIgnoringNotFound rfl
  have hrbac : Stays a (fun _ => True) (deleteRBAC cluster) :=
    Prog.Within.bind (hdelete _) fun _ _ => Prog.Within.bind (hdelete _) fun _ _ => hdelete _
  refine Prog.Within.bind (hdelete .deployment) fun _ _ => Prog.Within.bind hrbac fun _ _ => ?_
  exact Prog.Within.bind (stays_deleteAllConfigs hk) fun _ _ => stays_updateStatusScaledToZero hk

theorem stays_reconcileScaleToZero : Stays a (fun _ => True) (reconcileScaleToZero cluster) := by
  refine Prog.Within.bind (stays_listConfigs hk) fun configs _ => ?_
  split
  · exact stays_updateStatusScaledToZero hk
  · split
    · refine Prog.Within.bind (stays_ensureRBAC hk) fun _ _ => ?_
      refine Prog.Within.bind (stays_ensureRobinDeployment hk) fun _ _ => ?_
      exact Prog.Within.bind (stays_createNewConfig hk _) fun _ _ => trivial
    · split
      · exact stays_finishScaleToZero hk
      · refine Prog.Within.bind (stays_ensureRBAC hk) fun _ _ => ?_
        refine Prog.Within.bind (stays_ensureRobinDeployment hk) fun _ _ => ?_
        exact stays_aggregateStatus hk _

/-! ### The loop -/

theorem stays_ensureConfig :
    Stays a (fun configs => ∀ c ∈ configs, Belongs a (.config c.key)) (ensureConfig cluster) := by
  refine Prog.Within.bind (stays_stage (stays_listConfigs hk)) fun configs hconfigs => ?_
  split
  · refine Prog.Within.bind (stays_stage (stays_createNewConfig hk _)) fun _ _ => ?_
    exact stays_stage (stays_listConfigs hk)
  · exact hconfigs

theorem stays_settleConfigs {configs : List RedkeyConfig}
    (h : ∀ c ∈ configs, Belongs a (.config c.key)) :
    Stays a (fun _ => True) (settleConfigs cluster configs) := by
  unfold settleConfigs
  split
  · trivial
  · refine Prog.Within.bind (stays_deleteOlder (fun c hc => h c (List.mem_of_mem_take hc)) _)
      fun res _ => ?_
    obtain ⟨kept, err⟩ := res
    cases err with
    | some e => exact stays_stage trivial
    | none =>
      exact Prog.Within.bind (stays_stage (stays_aggregateStatus hk _)) fun _ _ => trivial

theorem stays_reconcileRunning : Stays a (fun _ => True) (reconcileRunning cluster) := by
  refine Prog.Within.bind (stays_stage (stays_ensureRBAC hk)) fun _ _ => ?_
  refine Prog.Within.bind (stays_stage (stays_ensureRobinDeployment hk)) fun _ _ => ?_
  refine Prog.Within.bind (stays_ensureConfig hk) fun configs hconfigs => ?_
  refine Prog.Within.bind (stays_settleConfigs hk hconfigs) fun res _ => ?_
  exact (Prog.Within.request (S := api) (c := .recordMetrics _ _) trivial).mono fun _ _ => trivial

end

theorem stays_reconcile (r : RedkeyReconciler) (a : NamespacedName) :
    Stays a (fun _ => True) (reconcile r a) := by
  refine Prog.Within.bind (Prog.Within.perform (S := api) (c := .getRedkey a) rfl)
    fun reply hreply => ?_
  cases reply with
  | error e =>
    cases e with
    | notFound =>
      exact Prog.Within.bind (Prog.Within.request (S := api) (c := .deleteMetrics a) trivial)
        fun _ _ => trivial
    | _ => exact stays_stage trivial
  | ok cluster =>
    have hk : Redkey.key cluster = a := hreply
    simp only
    split
    · refine Prog.Within.bind (stays_stage (stays_reconcileScaleToZero hk)) fun _ _ => ?_
      exact Prog.Within.bind (Prog.Within.request (S := api) (c := .recordMetrics _ _) trivial)
        fun _ _ => trivial
    · exact Prog.Within.bind (stays_reconcileRunning hk) fun _ _ => trivial

/-! ## In the versioned world -/

/-- Every version of the store is the operator's work. -/
def HistoryMade (w : World) : Prop := ∀ st ∈ w.history, OperatorMade st

theorem HistoryMade.extend {w w' : World} (h : HistoryMade w) (hext : w.Extends w')
    (hmade : OperatorMade w'.store) : HistoryMade w' := by
  intro st hst
  obtain hst | rfl := hext.mem hst
  · exact h st hst
  · exact hmade

theorem OperatorMade.env {e : Ev} {w w' : World} (h : OperatorMade w.store)
    (he : env e w = some w') : OperatorMade w'.store := by
  cases e with
  | update key spec =>
    obtain ⟨rk, hrk, -, rfl⟩ := env_update he
    refine ⟨fun key' rk' hrk' => ?_, h.made⟩
    by_cases hk : key' = rk.key
    · subst hk
      simp [Store.setRedkey, Redkey.withSpec] at hrk'
      subst hrk'
      rfl
    · exact h.keyed key' rk' (by simpa [Store.setRedkey, Redkey.withSpec, hk] using hrk')
  | robin key s =>
    obtain ⟨_, -, rfl⟩ := env_robin he
    refine ⟨h.keyed, fun c hc => ?_⟩
    obtain ⟨d, hd, ⟨-, rfl⟩ | ⟨-, rfl⟩⟩ := Store.mem_setConfigStatus hc
    · exact h.made _ hd
    · obtain ⟨rk, hmade⟩ := h.made d hd
      exact ⟨rk, hmade.withStatus s⟩
  | collect key =>
    obtain ⟨_, -, -, rfl⟩ := env_collect he
    exact h.of_configs rfl fun c hc => (Store.mem_removeConfig.mp hc).1

theorem projects_server (a : NamespacedName) :
    Projects server direct World.store HistoryMade FromOperator (Own a) (Sound a) := by
  intro c o r w w' hc hw hans
  obtain ⟨ch, hfrom, hs⟩ := serve_of_answer hans
  have hmade := hw _ w.store_mem_history
  have hfine : FromOperator ch := by
    cases ch with
    | cached seen order => exact hw seen hfrom
    | _ => trivial
  exact ⟨hw.extend (answer_extends hans) (hmade.serve hc hs), sound_of_serve hmade hfine hc hs,
    ch, hfine, hs⟩

/-- What the operator produces is operator-made: configs come from nowhere else. -/
theorem historyMade_of_reaches {T : Terms server} {r : RedkeyReconciler}
    {s₀ s : State server Result} (h : Reaches T (reconcile r a) s₀ s) (h₀ : HistoryMade s₀.world)
    (hidle : s₀.running = none) :
    HistoryMade s.world ∧ ∀ m, s.running = some m → Stays a (fun _ => True) m := by
  induction h with
  | refl => exact ⟨h₀, fun m hm => by rw [hidle] at hm; cases hm⟩
  | step e _ _ ht ih =>
    obtain ⟨hmade, hstays⟩ := ih
    cases e with
    | env e =>
      obtain ⟨w', hw', rfl⟩ := Option.map_eq_some_iff.mp ht
      exact ⟨hmade.extend (env_extends hw') ((hmade _ (World.store_mem_history _)).env hw'), hstays⟩
    | start =>
      simp only [step] at ht
      split at ht
      · cases ht
        exact ⟨hmade, fun m hm => by cases hm; exact stays_reconcile r a⟩
      · cases ht
    | call o =>
      simp only [step] at ht
      split at ht
      · rename_i c k hrun
        obtain ⟨⟨reply, w'⟩, hans, rfl⟩ := Option.map_eq_some_iff.mp ht
        have hwithin := hstays _ hrun
        obtain ⟨hmade', hsound, -⟩ := projects_server a hwithin.1 hmade hans
        exact ⟨hmade', fun m hm => by cases hm; exact hwithin.2 _ hsound⟩
      · cases ht
    | stop =>
      simp only [step] at ht
      split at ht
      · cases ht
      · cases ht
        exact ⟨hmade, fun m hm => by cases hm⟩

/-- Two Reconciles whose calls the API server answers in turn, from caches that may
lag behind, are two Reconciles on the store, with the same calls and answers. -/
theorem both_direct {r : RedkeyReconciler} {es fs : List (Exchange server)} {w w' : World}
    {resA resB : Except ApiError Result} (hw : HistoryMade w)
    (h : Both server (reconcile r a) (reconcile r b) es fs w resA resB w') :
    ∃ es' fs', (∀ e ∈ es', FromOperator e.outcome) ∧ (∀ e ∈ fs', FromOperator e.outcome) ∧
      es'.map Exchange.said = es.map Exchange.said ∧ fs'.map Exchange.said = fs.map Exchange.said ∧
      Both direct (reconcile r a) (reconcile r b) es' fs' w.store resA resB w'.store :=
  h.project (projects_server a) (projects_server b) (stays_reconcile r a) (stays_reconcile r b) hw

/-! ## Two Reconciles side by side -/

/-- One of them after the other gets the same answers and leaves the same store. -/
theorem sequential_of_both {r : RedkeyReconciler} {es fs : List (Exchange direct)}
    {resA resB : Except ApiError Result} (hab : a ≠ b) (hst : OperatorMade st)
    (hes : ∀ e ∈ es, FromOperator e.outcome) (hfs : ∀ e ∈ fs, FromOperator e.outcome)
    (h : Both direct (reconcile r a) (reconcile r b) es fs st resA resB st') :
    ∃ u v, Trace direct (reconcile r a) es st resA u ∧
      Trace direct (reconcile r b) fs u resB v ∧ st'.Same v := by
  obtain ⟨u, v, hu, hv, hA, hB, hrest⟩ := h.sequential (region_apart hab) (stays_reconcile r a)
    (stays_reconcile r b) hes hfs hst
    (Store.AgreeOn.equivalence fun x => ¬Belongs a x ∧ ¬Belongs b x)
    (fun hout => hout.mono fun _ hx => hx.1) fun hout => hout.mono fun _ hx => hx.2
  exact ⟨u, v, hu, hv, Store.AgreeOn.same hA hB hrest fun x ha hb => hab (ha.unique hb)⟩

/-- From every state that Reconciles have led to: two Reconciles of different Redkeys,
their calls answered in turn and from caches that may lag behind, make the calls and
get the answers they make and get one after the other on the store, in either order,
and leave the same store. -/
theorem reachable_reconciles_sequential {T : Terms server} {r : RedkeyReconciler}
    {c : NamespacedName} {s₀ s : State server Result} {es fs : List (Exchange server)} {w' : World}
    {resA resB : Except ApiError Result} (hab : a ≠ b) (hs : Reaches T (reconcile r c) s₀ s)
    (h₀ : HistoryMade s₀.world) (hidle : s₀.running = none)
    (h : Both server (reconcile r a) (reconcile r b) es fs s.world resA resB w') :
    ∃ es' fs', es'.map Exchange.said = es.map Exchange.said ∧
      fs'.map Exchange.said = fs.map Exchange.said ∧
      (∃ u v, Trace direct (reconcile r a) es' s.world.store resA u ∧
        Trace direct (reconcile r b) fs' u resB v ∧ w'.store.Same v) ∧
      ∃ u v, Trace direct (reconcile r b) fs' s.world.store resB u ∧
        Trace direct (reconcile r a) es' u resA v ∧ w'.store.Same v := by
  obtain ⟨hmade, -⟩ := historyMade_of_reaches hs h₀ hidle
  obtain ⟨es', fs', hes, hfs, hsaid, hsaid', hboth⟩ := both_direct hmade h
  have hst := hmade _ s.world.store_mem_history
  exact ⟨es', fs', hsaid, hsaid', sequential_of_both hab hst hes hfs hboth,
    sequential_of_both hab.symm hst hfs hes hboth.symm⟩

theorem fromOperator_congr {es es' : List (Exchange direct)}
    (ho : es'.map Exchange.outcome = es.map Exchange.outcome)
    (h : ∀ e ∈ es, FromOperator e.outcome) : ∀ e ∈ es', FromOperator e.outcome := by
  intro e he
  have hmem : e.outcome ∈ es.map Exchange.outcome := ho ▸ List.mem_map_of_mem he
  obtain ⟨e₀, he₀, heq⟩ := List.mem_map.mp hmem
  exact heq ▸ h e₀ he₀

/-- Reconciles of two Redkeys have no object in common. In every interleaving of
their calls both get the answers they get one after the other, in either order,
and the store they leave is the same; any other interleaving in which the calls
of each go the same way leaves it as well. -/
theorem reconciles_commute {r : RedkeyReconciler} {es fs : List (Exchange direct)}
    {resA resB : Except ApiError Result} (hab : a ≠ b) (hst : OperatorMade st)
    (hes : ∀ e ∈ es, FromOperator e.outcome) (hfs : ∀ e ∈ fs, FromOperator e.outcome)
    (h : Both direct (reconcile r a) (reconcile r b) es fs st resA resB st') :
    (∀ e ∈ es, ∀ f ∈ fs, ∀ x ∈ Call.objects e.call e.reply, x ∉ Call.objects f.call f.reply) ∧
    (∃ u v, Trace direct (reconcile r a) es st resA u ∧
      Trace direct (reconcile r b) fs u resB v ∧ st'.Same v) ∧
    (∃ u v, Trace direct (reconcile r b) fs st resB u ∧
      Trace direct (reconcile r a) es u resA v ∧ st'.Same v) ∧
    ∀ es' fs' resA' resB' st'',
      Both direct (reconcile r a) (reconcile r b) es' fs' st resA' resB' st'' →
      es'.map Exchange.outcome = es.map Exchange.outcome →
      fs'.map Exchange.outcome = fs.map Exchange.outcome →
      es' = es ∧ fs' = fs ∧ resA' = resA ∧ resB' = resB ∧ st'.Same st'' := by
  obtain ⟨u, v, hu, hv, hsame⟩ := sequential_of_both hab hst hes hfs h
  obtain ⟨u', v', hu', hv', hsame'⟩ := sequential_of_both hab.symm hst hfs hes h.symm
  refine ⟨fun e he f hf x hx hx' => ?_, ⟨u, v, hu, hv, hsame⟩, ⟨u', v', hu', hv', hsame'⟩, ?_⟩
  · have hA := h.own (A := region a) (B := region b) (stays_reconcile r a)
      (stays_reconcile r b) hes hfs hst e he
    have hB := h.symm.own (A := region b) (B := region a) (stays_reconcile r b)
      (stays_reconcile r a) hfs hes hst f hf
    exact hab ((belongs_of_own hA.1 hA.2 x hx).unique (belongs_of_own hB.1 hB.2 x hx'))
  · intro es' fs' resA' resB' st'' h' hoA hoB
    obtain ⟨u₂, v₂, hu₂, hv₂, hsame₂⟩ := sequential_of_both hab hst (fromOperator_congr hoA hes)
      (fromOperator_congr hoB hfs) h'
    obtain ⟨rfl, rfl, rfl⟩ := hu₂.unique hu hoA
    obtain ⟨rfl, rfl, rfl⟩ := hv₂.unique hv hoB
    exact ⟨rfl, rfl, rfl, rfl, hsame.trans hsame₂.symm⟩

/-- A Redkey whose labels claim to be of another cluster. -/
def labelledRedkey (name claimed : String) : Redkey :=
  { key := ⟨"ns", name⟩
    uid := name
    generation := 1
    resourceVersion := 1
    spec := { primaries := 3, robin := { image := "robin" }, labels := some [(clusterLabel, claimed)] } }

/-- The first configs of the one and of the other are called `rk-1` and `rk-1-1`. -/
def twoRedkeys : Store where
  redkeys key :=
    if key = ⟨"ns", "rk"⟩ then some (labelledRedkey "rk" "rk-1")
    else if key = ⟨"ns", "rk-1"⟩ then some (labelledRedkey "rk-1" "rk")
    else none
  configs := []
  robin _ _ := none

theorem operatorMade_twoRedkeys : OperatorMade twoRedkeys := by
  refine ⟨fun key rk h => ?_, fun c hc => nomatch hc⟩
  simp only [twoRedkeys] at h
  split at h
  · cases h; exact Eq.symm (by assumption)
  · split at h <;> cases h
    exact Eq.symm (by assumption)

/-- The calls of both take turns; each second list has one config. -/
def turns : List (Bool × Choice) :=
  (List.replicate 13 [] ++ List.replicate 5 [0]).flatMap fun order =>
    [(true, .done 7 order), (false, .done 8 order)]

theorem fromOperator_of_mem_turns {o : Choice} (h : o ∈ turns.map Prod.snd) : FromOperator o := by
  obtain ⟨⟨side, o'⟩, hmem, rfl⟩ := List.mem_map.mp h
  obtain ⟨order, -, hmem⟩ := List.mem_flatMap.mp hmem
  simp only [List.mem_cons, List.not_mem_nil, or_false, Prod.mk.injEq] at hmem
  obtain ⟨-, rfl⟩ | ⟨-, rfl⟩ := hmem <;> trivial

set_option maxRecDepth 100000 in
theorem reconciles_commute_sample : ∃ es fs resA resB st' u v,
    Both direct (reconcile ⟨60⟩ ⟨"ns", "rk"⟩) (reconcile ⟨60⟩ ⟨"ns", "rk-1"⟩) es fs twoRedkeys
      resA resB st' ∧
    st'.configs.map (fun c => c.key.name) = ["rk-1", "rk-1-1"] ∧
    Trace direct (reconcile ⟨60⟩ ⟨"ns", "rk-1"⟩) fs twoRedkeys resB u ∧
    Trace direct (reconcile ⟨60⟩ ⟨"ns", "rk"⟩) es u resA v ∧ st'.Same v := by
  obtain ⟨x, hboth, hturns, hnames⟩ := exists_both_of_weave (M := direct) turns
    (m := reconcile ⟨60⟩ ⟨"ns", "rk"⟩) (n := reconcile ⟨60⟩ ⟨"ns", "rk-1"⟩) (w := twoRedkeys)
    (fun x => x.world.configs.map (fun c => c.key.name) == ["rk-1", "rk-1-1"]) (by decide +kernel)
  have hfine (e) (he : e ∈ x.left ++ x.right) := fromOperator_of_mem_turns (hturns e he)
  obtain ⟨-, -, ⟨u, v, hu, hv, hsame⟩, -⟩ := reconciles_commute (by decide)
    operatorMade_twoRedkeys (fun e he => hfine e (List.mem_append_left _ he))
    (fun e he => hfine e (List.mem_append_right _ he)) hboth
  exact ⟨x.left, x.right, _, _, x.world, u, v, hboth, beq_iff_eq.mp hnames, hu, hv, hsame⟩

end RedkeyOperator.Protocol

import RedkeyOperator.Controller.Signed
import RedkeyOperator.Kube.Fleet
import RedkeyOperator.Protocol.StatusHistory

/-! # Several operators at work on one Redkey

Leader election is a flag of the operator, and it is off by default. Without it
every operator that is started reconciles every Redkey, each with caches of its
own, and a Reconcile of one may come between any two calls of a Reconcile of
another. The observed generation then goes back and forth (`observed_can_regress`),
as it never does with one operator. What is kept rests on the API server alone: a
resource version has one content and a name is given once. -/
namespace RedkeyOperator.Protocol
open RedkeyOperator.Api RedkeyOperator.Kube RedkeyOperator.Interleave RedkeyOperator.Controller

variable {K : Type} [DecidableEq K] {req : NamespacedName} {w w' : World} {st st' : Store}
  {G : Store → Prop}

/-- The operators `K`, each of which reconciles every Redkey. -/
abbrev operators (K : Type) [DecidableEq K] : Hub api (K × NamespacedName) :=
  sharedBy (K × NamespacedName)

/-- The operators need not be configured alike. -/
def reconcileBy (r : K → RedkeyReconciler) (k : K × NamespacedName) : Act Result :=
  reconcile (r k.1) k.2

/-! ## Versions, whoever writes -/

theorem Versions.env {e : Ev} (h : Versions req w) (he : env e w = some w') : Versions req w' := by
  cases e with
  | update key spec =>
    obtain ⟨rk, hrk, hg, rfl⟩ := env_update he
    exact h.set hrk (precedes_withSpec rk spec) (fun _ => hg) []
  | robin key s =>
    obtain ⟨c, -, rfl⟩ := env_robin he
    exact h.of_redkeys rfl (.inr rfl)
  | collect key =>
    obtain ⟨c, -, -, rfl⟩ := env_collect he
    exact h.of_redkeys rfl (.inr rfl)

theorem Versions.congr (h : Versions req w) (hs : w'.store = w.store) (hp : w'.past = w.past) :
    Versions req w' :=
  h.of_redkeys (congrArg _ hs) (.inl (by rw [World.history, hs, hp]; rfl))

theorem Versions.write {x : Write} (h : Versions req w) (hx : w.store.apply x = .ok st)
    (hs : List Happening) : Versions req (w.commit st hs) := by
  cases x with
  | updateStatus rk =>
    obtain ⟨cur, hcur, -, rfl⟩ := apply_updateStatus hx
    exact h.set hcur (precedes_withStatus _ _) id hs
  | createConfig c => obtain ⟨-, rfl⟩ := apply_createConfig hx; exact h.of_redkeys rfl (.inr rfl)
  | deleteConfig key =>
    obtain ⟨_, -, rfl⟩ := apply_deleteConfig hx
    exact h.of_redkeys rfl (.inr rfl)
  | create k o => obtain ⟨-, rfl⟩ := apply_create hx; exact h.of_redkeys rfl (.inr rfl)
  | patch k o => obtain ⟨_, -, rfl⟩ := apply_patch hx; exact h.of_redkeys rfl (.inr rfl)
  | delete k key => obtain rfl := apply_delete hx; exact h.of_redkeys rfl (.inr rfl)

theorem Newborn.named (h : Newborn req w) : w.Named := by
  intro st hst
  rw [h.history, List.mem_singleton] at hst
  rw [hst]
  exact h.keyed

section
variable {T : Hub.Terms (operators K)} {r : K → RedkeyReconciler}
  {f₀ : SharedBy (K × NamespacedName)} {s : Hub.Pool (operators K) Result}

theorem named_of_reaches (h₀ : ∀ k, (f₀.worldOf k).Named)
    (h : Hub.Reaches T (reconcileBy r) (.idle f₀) s) (k : K × NamespacedName) :
    (s.world.worldOf k).Named :=
  (h.within_upTo (Q := fun _ => True) (World.Named.keeps _) (fun k => .any (reconcileBy r k)) h₀
    (fun _ => rfl) fun _ _ => trivial).1 k

theorem versions_of_reaches (h₀ : ∀ k, Versions req (f₀.worldOf k))
    (h : Hub.Reaches T (reconcileBy r) (.idle f₀) s) (k : K × NamespacedName) :
    Versions req (s.world.worldOf k) := by
  have hkeeps : Hub.KeepsUpTo (operators K) (fun f => ∀ st ∈ f.history, True)
      (fun f => ∀ k, Versions req (f.worldOf k)) (fun _ _ => True) fun _ _ _ => True := by
    refine keepsUpTo_sharedBy (fun hs hp hw => hw.congr hs hp) (fun _ hw he => hw.env he) ?_
    intro k c o r w w' _ _ hw hans
    refine ⟨?_, trivial⟩
    rcases answer_shared hans with ⟨hs, hp, -⟩ | ⟨x, st, -, hx, rfl⟩
    · exact hw.congr hs hp
    · exact hw.write hx _
  exact (h.within_upTo (Q := fun _ => True) hkeeps (fun k => .any (reconcileBy r k)) h₀
    (fun _ => rfl) fun _ _ => trivial).1 k

end

/-- One resource version has one content, in whatever order the versions are. -/
theorem Versions.eq_of_versions (h : Versions req w) (hs : st ∈ w.history) (hs' : st' ∈ w.history)
    {rk rk' : Redkey} (hrk : st.redkeys req = some rk) (hrk' : st'.redkeys req = some rk')
    (hv : rk.resourceVersion = rk'.resourceVersion) : rk = rk' := by
  obtain ⟨i, hi⟩ := List.getElem?_of_mem hs
  obtain ⟨j, hj⟩ := List.getElem?_of_mem hs'
  rcases le_total i j with hij | hij
  · exact (((h.precedes hij hi hj).precedes hrk hrk').same hv.symm).symm
  · exact ((h.precedes hij hj hi).precedes hrk' hrk).same hv

/-! ## One step -/

/-- A config listed for the cluster is Applied with primaries and this topology. -/
def AppliedIn (G : Store → Prop) (req : NamespacedName) (t : Nat × Int) : Prop :=
  ∃ c, HasListed G req c ∧ c.phase = .applied ∧ 0 < c.spec.primaries ∧ c.topology = t

/-- The recorded topology stays, or that of an Applied config takes its place while
the cluster has storage. -/
def Records (G : Store → Prop) (req : NamespacedName) (rk rk' : Redkey) : Prop :=
  rk'.status.lastApplied = rk.status.lastApplied ∨
    rk.spec.ephemeral = false ∧ AppliedIn G req rk'.status.lastApplied

/-- What can become of the store in one step, whoever takes it. -/
structure Attributed (G : Store → Prop) (req : NamespacedName) (st st' : Store) : Prop where
  keys : (st.configs.map RedkeyConfig.key).Nodup → (st'.configs.map RedkeyConfig.key).Nodup
  made : ∀ c ∈ st'.configs, (∃ d ∈ st.configs, c = { d with status := c.status }) ∨
    ∃ a rk, HasRead G a rk ∧ MadeFrom rk c
  status : ∀ rk', st'.redkeys req = some rk' → ∃ rk, st.redkeys req = some rk ∧ Records G req rk rk'

namespace Attributed

theorem of_configs (hc : st'.configs = st.configs)
    (hs : ∀ rk', st'.redkeys req = some rk' →
      ∃ rk, st.redkeys req = some rk ∧ Records G req rk rk') : Attributed G req st st' :=
  ⟨by rw [hc]; exact id, fun c hm => .inl ⟨c, hc ▸ hm, rfl⟩, hs⟩

theorem removeConfig (key : NamespacedName) : Attributed G req st (st.removeConfig key) where
  keys h := (List.filter_sublist.map _).nodup h
  made c hc := .inl ⟨c, (Store.mem_removeConfig.mp hc).1, rfl⟩
  status rk hrk := ⟨rk, hrk, .inl rfl⟩

theorem env {e : Ev} (hv : Versions req w) (he : env e w = some w') :
    Attributed G req w.store w'.store := by
  cases e with
  | update key spec =>
    obtain ⟨rk, hrk, -, rfl⟩ := env_update he
    refine of_configs rfl fun rk' hrk' => ?_
    obtain ⟨rfl, hreq⟩ | hrk' := hv.store_update hrk (precedes_withSpec _ _) hrk'
    · exact ⟨rk, hreq, .inl rfl⟩
    · exact ⟨rk', hrk', .inl rfl⟩
  | robin key s =>
    obtain ⟨c, -, rfl⟩ := env_robin he
    refine ⟨fun hnd => ?_, fun d hd => .inl ?_, fun rk hrk => ⟨rk, hrk, .inl rfl⟩⟩
    · simpa [Store.keys_setConfigStatus] using hnd
    · obtain ⟨b, hb, ⟨-, rfl⟩ | ⟨-, rfl⟩⟩ := Store.mem_setConfigStatus hd <;> exact ⟨_, hb, rfl⟩
  | collect key =>
    obtain ⟨c, -, -, rfl⟩ := env_collect he
    exact removeConfig key

/-- A status that is accepted was made from the stored Redkey: the version it
carries has no other content. -/
theorem updateStatus {w₁ : World} {a : NamespacedName} {rk : Redkey} (hv₁ : Versions req w₁)
    (hn : w₁.Named) (hv : Versions req w) (hst : w.store ∈ w₁.history)
    (hc : Signed (· ∈ w₁.history) a (.write (.updateStatus rk)))
    (hx : w.store.apply (.updateStatus rk) = .ok st') :
    Attributed (· ∈ w₁.history) req w.store st' := by
  obtain ⟨cur, hcur, hver, rfl⟩ := apply_updateStatus hx
  refine of_configs rfl fun rk' hrk' => ?_
  obtain ⟨rfl, hreq⟩ | hrk' := hv.store_update hcur (precedes_withStatus _ _) hrk'
  · refine ⟨cur, hreq, ?_⟩
    have hkey : rk.key = req := (hn _ hst _ _ hcur).symm.trans (hn _ hst _ _ hreq)
    -- the Redkey that was read is the stored one
    have hread {rk₀ : Redkey} (h : HasRead (· ∈ w₁.history) a rk₀) (he : rk₀.key = rk.key)
        (hrv : rk₀.resourceVersion = rk.resourceVersion) : a = req ∧ rk₀ = cur := by
      obtain ⟨st, hs, hrk₀⟩ := h
      have ha : a = req := (hn st hs a rk₀ hrk₀).symm.trans (he.trans hkey)
      subst ha
      exact ⟨rfl, hv₁.eq_of_versions hs hst hrk₀ hreq (hrv.trans hver)⟩
    cases hc with
    | @aggregate latest active h ha now g =>
      obtain ⟨rfl, rfl⟩ := hread h rfl rfl
      obtain he | ⟨he, hap, hpos, ht⟩ := lastApplied_aggregatedStatus now latest active g
      · exact .inl he
      · exact .inr ⟨he, active, ha, hap, hpos, ht.symm⟩
    | scaledToZero h now =>
      obtain ⟨rfl, rfl⟩ := hread h rfl rfl
      exact .inl rfl
    | other h => exact absurd trivial h
  · exact ⟨rk', hrk', .inl rfl⟩

theorem write {w₁ : World} {a : NamespacedName} {x : Write} (hv₁ : Versions req w₁)
    (hn : w₁.Named) (hv : Versions req w) (hst : w.store ∈ w₁.history)
    (hc : Signed (· ∈ w₁.history) a (.write x)) (hx : w.store.apply x = .ok st') :
    Attributed (· ∈ w₁.history) req w.store st' := by
  have same (rk : Redkey) (hrk : w.store.redkeys req = some rk) :
      ∃ rk₀, w.store.redkeys req = some rk₀ ∧ Records (· ∈ w₁.history) req rk₀ rk :=
    ⟨rk, hrk, .inl rfl⟩
  cases x with
  | updateStatus rk => exact updateStatus hv₁ hn hv hst hc hx
  | createConfig c =>
    obtain ⟨hnone, rfl⟩ := apply_createConfig hx
    refine ⟨fun hnd => ?_, fun d hd => ?_, same⟩
    · simp only [List.map_append, List.map_cons, List.map_nil]
      refine List.nodup_append.mpr ⟨hnd, by simp, ?_⟩
      intro b hb b' hb' he
      obtain ⟨d, hd, rfl⟩ := List.mem_map.mp hb
      exact Store.config_eq_none.mp hnone d hd (he.trans (List.mem_singleton.mp hb'))
    · rcases List.mem_append.mp hd with hd | hd
      · exact .inl ⟨d, hd, rfl⟩
      · rw [List.mem_singleton.mp hd]
        cases hc with
        | createConfig h seq => exact .inr ⟨a, _, h, madeFrom_newConfig _ seq⟩
        | other h => exact absurd trivial h
  | deleteConfig key =>
    obtain ⟨_, -, rfl⟩ := apply_deleteConfig hx
    exact removeConfig key
  | create k o => obtain ⟨-, rfl⟩ := apply_create hx; exact of_configs rfl same
  | patch k o => obtain ⟨_, -, rfl⟩ := apply_patch hx; exact of_configs rfl same
  | delete k key => obtain rfl := apply_delete hx; exact of_configs rfl same

end Attributed

/-! ## Every run -/

/-- Configs and recorded topologies all the way back. -/
structure Attributable (G : Store → Prop) (req : NamespacedName) (w : World) : Prop where
  versions : Versions req w
  keys : ∀ st ∈ w.history, (st.configs.map RedkeyConfig.key).Nodup
  made : ∀ st ∈ w.history, ∀ c ∈ st.configs, ∃ a rk, HasRead G a rk ∧ MadeFrom rk c
  recorded : ∀ st ∈ w.history, ∀ rk, st.redkeys req = some rk → rk.status.lastApplied = (0, 0) ∨
    (∃ rk, HasRead G req rk ∧ rk.spec.ephemeral = false) ∧ AppliedIn G req rk.status.lastApplied
  kept : w.history.Pairwise fun a b => ∀ rk rk', a.redkeys req = some rk →
    b.redkeys req = some rk' → 0 < rk.status.lastAppliedPrimaries →
      0 < rk'.status.lastAppliedPrimaries

theorem Records.primaries_pos {rk rk' : Redkey} (h : Records G req rk rk')
    (hpos : 0 < rk.status.lastAppliedPrimaries) : 0 < rk'.status.lastAppliedPrimaries := by
  rcases h with h | ⟨-, c, -, -, hc, h⟩
  · exact hpos.trans_eq (congrArg Prod.fst h).symm
  · exact hc.trans_eq (congrArg Prod.fst h)

namespace Attributable

theorem extend (h : Attributable G req w) (hk : Versions req w') (hx : w.Extends w')
    (hG : G w.store) (hs : Attributed G req w.store w'.store) : Attributable G req w' := by
  have hmem := w.store_mem_history
  refine ⟨hk, fun st hst => ?_, fun st hst c hc => ?_, fun st hst rk' hrk' => ?_,
    hx.pairwise h.kept fun a ha rk rk' hrk hrk' hpos => ?_⟩
  · rcases hx.mem hst with hst | rfl
    · exact h.keys st hst
    · exact hs.keys (h.keys _ hmem)
  · rcases hx.mem hst with hst | rfl
    · exact h.made st hst c hc
    · rcases hs.made c hc with ⟨d, hd, he⟩ | hm
      · obtain ⟨a, rk, hr, hm⟩ := h.made _ hmem d hd
        exact ⟨a, rk, hr, he ▸ hm.withStatus _⟩
      · exact hm
  · rcases hx.mem hst with hst | rfl
    · exact h.recorded st hst rk' hrk'
    · obtain ⟨rk, hrk, he | ⟨he, hap⟩⟩ := hs.status rk' hrk'
      · rw [he]
        exact h.recorded _ hmem rk hrk
      · exact .inr ⟨⟨rk, ⟨_, hG, hrk⟩, he⟩, hap⟩
  · -- the stored Redkey lies between the old version and the new one
    obtain ⟨cur, hcur, hr⟩ := hs.status rk' hrk'
    refine hr.primaries_pos (World.before_store h.kept ?_ ha rk cur hrk hcur hpos)
    intro b b' hb hb' hp
    rw [hb] at hb'
    cases hb'
    exact hp

theorem congr (h : Attributable G req w) (hs : w'.store = w.store) (hp : w'.past = w.past) :
    Attributable G req w' := by
  have hh : w'.history = w.history := by rw [World.history, hs, hp]; rfl
  exact ⟨h.versions.congr hs hp, hh ▸ h.keys, hh ▸ h.made, hh ▸ h.recorded, hh ▸ h.kept⟩

theorem of_fresh (h : Fresh req w) : Attributable G req w := by
  refine ⟨h.versions, fun st hst => ?_, fun st hst c hc => ?_, fun st hst rk hrk => ?_, ?_⟩
  · rw [h.history, List.mem_singleton] at hst
    simp [hst, h.configs]
  · rw [h.history, List.mem_singleton] at hst
    simp [hst, h.configs] at hc
  · rw [h.history, List.mem_singleton] at hst
    obtain ⟨rk₀, hrk₀, -, hs⟩ := h.redkey
    rw [hst, hrk₀] at hrk
    cases hrk
    exact .inl (by rw [hs])
  · rw [h.history]
    exact List.pairwise_singleton _ _

end Attributable

section
variable {T : Hub.Terms (operators K)} {r : K → RedkeyReconciler}
  {f₀ : SharedBy (K × NamespacedName)} {s : Hub.Pool (operators K) Result}

theorem attributable_of_reaches (hf : ∀ k, Fresh req (f₀.worldOf k))
    (h : Hub.Reaches T (reconcileBy r) (.idle f₀) s) (k : K × NamespacedName) :
    Attributable (· ∈ (s.world.worldOf k).history) req (s.world.worldOf k) := by
  have hversions := versions_of_reaches (fun k => (hf k).versions) h k
  have hnamed := named_of_reaches (fun k => (hf k).named) h k
  set G : Store → Prop := (· ∈ (s.world.worldOf k).history)
  have hkeeps : Hub.KeepsUpTo (operators K) (fun f => ∀ st ∈ f.history, G st)
      (fun f => ∀ k, Attributable G req (f.worldOf k)) (fun k => Signed G k.2)
      fun _ => Informed G := by
    refine keepsUpTo_sharedBy (fun hs hp hw => hw.congr hs hp) ?_ ?_
    · intro e w w' hG hw he
      have hx := env_extends he
      exact hw.extend (hw.versions.env he) hx (hG _ (hx.mono w.store_mem_history))
        (.env hw.versions he)
    · intro k c o r w w' hG hc hw hans
      refine ⟨?_, informed_of_answer (fun st hst => hnamed st (hG st hst)) hG hans⟩
      have hst : G w.store := hG _ ((answer_extends hans).mono w.store_mem_history)
      rcases answer_shared hans with ⟨hs, hp, -⟩ | ⟨x, st, rfl, hx, rfl⟩
      · exact hw.congr hs hp
      · exact hw.extend (hw.versions.write hx _) (.inr rfl) hst
          (.write hversions hnamed hw.versions hst hc hx)
  exact (h.within_upTo hkeeps (fun k => signs_reconcile (r k.1) k.2)
    (fun k => .of_fresh (hf k)) (fun _ => rfl) fun st hst => hst).1 k

/-- With any number of operators from when a Redkey is new, every config of the cluster
is the snapshot of one version of its Redkey, and no two have the same sequence. -/
theorem operators_make_genuine_configs (hf : ∀ k, Fresh req (f₀.worldOf k))
    (h : Hub.Reaches T (reconcileBy r) (.idle f₀) s) (k : K × NamespacedName) :
    ∀ st ∈ (s.world.worldOf k).history,
      (∀ c ∈ st.configsOf clusterLabel req.namespace_ req.name,
        ∃ st' ∈ (s.world.worldOf k).history, ∃ rk, st'.redkeys req = some rk ∧ MadeFrom rk c) ∧
      ∀ c ∈ st.configsOf clusterLabel req.namespace_ req.name,
        ∀ d ∈ st.configsOf clusterLabel req.namespace_ req.name,
          c.sequence = d.sequence → c = d := by
  intro st hst
  have hatt := attributable_of_reaches hf h k
  have hnamed := named_of_reaches (fun k => (hf k).named) h k
  -- the label and the namespace tell of which Redkey the version is
  have hmade : ∀ c ∈ st.configsOf clusterLabel req.namespace_ req.name,
      ∃ rk, HasRead (· ∈ (s.world.worldOf k).history) req rk ∧ MadeFrom rk c := by
    intro c hc
    obtain ⟨hmem, hsel⟩ := List.mem_filter.mp hc
    obtain ⟨hns, hlabel⟩ := Bool.and_eq_true_iff.mp hsel
    obtain ⟨a, rk, hr, hm⟩ := hatt.made st hst c hmem
    obtain ⟨st', hst', hrk⟩ := hr
    have hkey := hnamed st' hst' a rk hrk
    have hname : rk.key.name = req.name := by simpa [hm.label] using hlabel
    have hns' : rk.key.namespace_ = req.namespace_ := by simpa [hm.key] using hns
    have ha : a = req := by
      rw [← hkey]
      exact congrArg₂ NamespacedName.mk hns' hname
    subst ha
    exact ⟨rk, ⟨st', hst', hrk⟩, hm⟩
  refine ⟨fun c hc => ?_, fun c hc d hd he => ?_⟩
  · obtain ⟨rk, ⟨st', hst', hrk⟩, hm⟩ := hmade c hc
    exact ⟨st', hst', rk, hrk, hm⟩
  · obtain ⟨rk, ⟨u, hu, hrk⟩, hm⟩ := hmade c hc
    obtain ⟨rk', ⟨v, hv, hrk'⟩, hm'⟩ := hmade d hd
    have hkey : c.key = d.key := by
      rw [hm.key, hm'.key, hnamed u hu req rk hrk, hnamed v hv req rk' hrk', he]
    exact List.inj_on_of_nodup_map (hatt.keys st hst) (List.mem_filter.mp hc).1
      (List.mem_filter.mp hd).1 hkey

/-- With any number of operators from when a Redkey is new, the recorded topology is
never cleared, is that of one config that was Applied with primaries, and stays unset while the cluster is
ephemeral: no status is put together from what two operators have read. -/
theorem operators_keep_recorded_topology (hf : ∀ k, Fresh req (f₀.worldOf k))
    (h : Hub.Reaches T (reconcileBy r) (.idle f₀) s) (k : K × NamespacedName) :
    ((s.world.worldOf k).history.Pairwise fun a b => ∀ rk rk', a.redkeys req = some rk →
      b.redkeys req = some rk' → 0 < rk.status.lastAppliedPrimaries →
        0 < rk'.status.lastAppliedPrimaries) ∧
    (∀ st ∈ (s.world.worldOf k).history, ∀ rk, st.redkeys req = some rk →
      rk.status.lastApplied = (0, 0) ∨
        WasApplied req (s.world.worldOf k) rk.status.lastApplied) ∧
    ((∀ st ∈ (s.world.worldOf k).history, ∀ rk, st.redkeys req = some rk →
        rk.spec.ephemeral = true) →
      ∀ st ∈ (s.world.worldOf k).history, ∀ rk, st.redkeys req = some rk →
        rk.status.lastApplied = (0, 0)) := by
  have hatt := attributable_of_reaches hf h k
  refine ⟨hatt.kept, fun st hst rk hrk => ?_, fun heph st hst rk hrk => ?_⟩
  · rcases hatt.recorded st hst rk hrk with h0 | ⟨-, c, ⟨u, hu, hc⟩, hap, hpos, ht⟩
    · exact .inl h0
    · exact .inr ⟨u, hu, c, hc, hap, hpos, ht⟩
  · rcases hatt.recorded st hst rk hrk with h0 | ⟨⟨rk', ⟨u, hu, hrk'⟩, he⟩, -⟩
    · exact h0
    · rw [heph u hu rk' hrk'] at he
      cases he

end

/-! ## Two operators -/

/-- The sample cluster, as two operators find it. -/
def forTwo : SharedBy (Bool × NamespacedName) where
  store := (sampleWorld 3).store

theorem fresh_forTwo (k : Bool × NamespacedName) : Fresh sampleKey (forTwo.worldOf k) :=
  have h := fresh_sampleWorld 3
  ⟨⟨h.keyed, h.redkey, rfl, rfl, rfl, rfl⟩, h.configs⟩

def anyOperators : Hub.Terms (operators Bool) where
  env _ _ := true
  call _ _ _ _ := true

def callsOf (who : Bool) (n : Nat) : List (Hub.Event (operators Bool)) :=
  List.replicate n (.call (who, sampleKey) .ok)

/-- One operator has read the Redkey when the other does all of its work, and goes
on after `es`. -/
def overtaken (es : List (Hub.Event (operators Bool))) : List (Hub.Event (operators Bool)) :=
  [.start (true, sampleKey), .start (false, sampleKey)] ++ callsOf true 1 ++ callsOf false 18 ++
    es ++ callsOf true 9

/-- Meanwhile Robin applies the config. -/
def appliesMeanwhile : List (Hub.Event (operators Bool)) :=
  overtaken [.env (.robin ⟨"ns", configName "rk" 1⟩ { configPhase := .applied })]

/-- Meanwhile the user scales the cluster and the other operator sees to it. -/
def scalesMeanwhile : List (Hub.Event (operators Bool)) :=
  overtaken ([.stop (false, sampleKey), .env (.update sampleKey (sampleSpec 5)),
    .start (false, sampleKey)] ++ callsOf false 13)

def sampleOperators : Bool × NamespacedName → Act Result := reconcileBy fun _ => ⟨60⟩

set_option maxRecDepth 100000 in
theorem operators_make_genuine_configs_sample :
    ∃ (s : Hub.Pool (operators Bool) Result) (k : Bool × NamespacedName),
      Hub.Reaches anyOperators sampleOperators (.idle forTwo) s ∧
      (SharedBy.store s.world).configs.map (fun c => c.sequence) = [1, 2] ∧
      ∀ st ∈ (SharedBy.worldOf s.world k).history,
        (∀ c ∈ st.configsOf clusterLabel "ns" "rk",
          ∃ st' ∈ (SharedBy.worldOf s.world k).history, ∃ rk,
            st'.redkeys sampleKey = some rk ∧ MadeFrom rk c) ∧
        ∀ c ∈ st.configsOf clusterLabel "ns" "rk", ∀ d ∈ st.configsOf clusterLabel "ns" "rk",
          c.sequence = d.sequence → c = d := by
  obtain ⟨s, hs, hseq⟩ := Hub.exists_reaches_of_play (T := anyOperators) scalesMeanwhile
    (fun s : Hub.Pool (operators Bool) Result =>
      (SharedBy.store s.world).configs.map (fun c => c.sequence) == [1, 2])
    (by decide +kernel : (Hub.play anyOperators sampleOperators scalesMeanwhile
      (.idle forTwo)).any _ = true)
  exact ⟨s, (true, sampleKey), hs, beq_iff_eq.mp hseq,
    operators_make_genuine_configs fresh_forTwo hs _⟩

set_option maxRecDepth 100000 in
theorem operators_keep_recorded_topology_sample :
    ∃ (s : Hub.Pool (operators Bool) Result) (k : Bool × NamespacedName) (rk : Redkey),
      Hub.Reaches anyOperators sampleOperators (.idle forTwo) s ∧
      (SharedBy.store s.world).redkeys sampleKey = some rk ∧ rk.status.lastApplied = (3, 0) ∧
      WasApplied sampleKey (SharedBy.worldOf s.world k) (3, 0) := by
  obtain ⟨s, hs, hrec⟩ := Hub.exists_reaches_of_play (T := anyOperators) appliesMeanwhile
    (fun s : Hub.Pool (operators Bool) Result =>
      ((SharedBy.store s.world).redkeys sampleKey).any fun rk => rk.status.lastApplied == (3, 0))
    (by decide +kernel : (Hub.play anyOperators sampleOperators appliesMeanwhile
      (.idle forTwo)).any _ = true)
  obtain ⟨rk, hrk, he⟩ := (Option.any_eq_true _ _).mp hrec
  rw [beq_iff_eq] at he
  have hap := (operators_keep_recorded_topology fresh_forTwo hs (true, sampleKey)).2.1 _
    (World.store_mem_history _) rk hrk
  exact ⟨s, (true, sampleKey), rk, hs, hrk, he, he ▸ hap.resolve_left (by simp [he])⟩

/-- The generation that a version of the sample cluster has observed. -/
def observedIn (st : Store) : Option Nat :=
  (st.redkeys sampleKey).map fun rk => rk.status.observedGeneration

set_option maxRecDepth 100000 in
/-- An operator that is overtaken puts back the generation that it has read. -/
theorem observed_can_regress :
    ∃ s : Hub.Pool (operators Bool) Result,
      Hub.Reaches anyOperators sampleOperators (.idle forTwo) s ∧
      (∃ st ∈ (SharedBy.past s.world), observedIn st = some 2) ∧
      observedIn (SharedBy.store s.world) = some 1 := by
  obtain ⟨s, hs, htest⟩ := Hub.exists_reaches_of_play (T := anyOperators) scalesMeanwhile
    (fun s : Hub.Pool (operators Bool) Result =>
      (SharedBy.past s.world).any (fun st => observedIn st == some 2) &&
        observedIn (SharedBy.store s.world) == some 1)
    (by decide +kernel : (Hub.play anyOperators sampleOperators scalesMeanwhile
      (.idle forTwo)).any _ = true)
  obtain ⟨hpast, hnow⟩ := Bool.and_eq_true_iff.mp htest
  obtain ⟨st, hst, h2⟩ := List.any_eq_true.mp hpast
  exact ⟨s, hs, ⟨st, hst, beq_iff_eq.mp h2⟩, beq_iff_eq.mp hnow⟩

end RedkeyOperator.Protocol

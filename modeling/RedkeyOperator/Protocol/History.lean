import RedkeyOperator.Controller.Pure
import RedkeyOperator.Protocol.Trace

/-! # Versions of a Redkey and the origin of its configs

In every run of one Redkey, from its creation on: generations never decrease, a
generation has one spec, a resource version has one content (`Versions`), and
every config ever stored was created by the operator from a version of the
Redkey, under a name of its own (`Provenance`). -/
namespace RedkeyOperator.Protocol
open RedkeyOperator.Api RedkeyOperator.Kube RedkeyOperator.Interleave RedkeyOperator.Controller

variable {T : Terms server} {req : NamespacedName} {w₀ w w' : World} {p : Point}

/-- A Redkey that has just been created. -/
structure Newborn (req : NamespacedName) (w : World) : Prop where
  keyed : ∀ key rk, w.store.redkeys key = some rk → rk.key = key
  redkey : ∃ rk, w.store.redkeys req = some rk ∧ rk.generation = 1 ∧ rk.status = {}
  past : w.past = []
  journal : w.journal = []
  floor : w.floor = {}
  seen : w.seen = {}

/-- A Redkey that has just been created and has no configs yet. -/
structure Fresh (req : NamespacedName) (w : World) : Prop extends Newborn req w where
  configs : w.store.configs = []

theorem Newborn.cursors (h : Newborn req w) : Cursors w := by
  constructor <;> simp [h.floor, h.seen]

theorem Newborn.history (h : Newborn req w) : w.history = [w.store] := by
  simp [World.history, h.past]

/-! ## A cluster to run -/

def sampleKey : NamespacedName := ⟨"ns", "rk"⟩

/-- A storage cluster with the given number of primaries. -/
def sampleSpec (primaries : Nat) : RedkeySpec :=
  { primaries := primaries
    robin := { image := "robin" }
    ephemeral := false
    storage := "1Gi"
    purgeKeysOnRebalance := some false }

def sampleRedkey (primaries : Nat) : Redkey :=
  { key := sampleKey
    uid := "u1"
    generation := 1
    resourceVersion := 1
    spec := sampleSpec primaries }

def sampleWorld (primaries : Nat) : World where
  store :=
    { redkeys := fun key => if key = sampleKey then some (sampleRedkey primaries) else none
      configs := []
      robin := fun _ _ => none }

theorem redkeys_sampleWorld (primaries : Nat) :
    (sampleWorld primaries).store.redkeys sampleKey = some (sampleRedkey primaries) := by
  simp [sampleWorld]

theorem fresh_sampleWorld (primaries : Nat) : Fresh sampleKey (sampleWorld primaries) := by
  refine ⟨⟨fun key rk h => ?_, ⟨_, redkeys_sampleWorld primaries, rfl, rfl⟩,
    rfl, rfl, rfl, rfl⟩, rfl⟩
  simp only [sampleWorld] at h
  split at h
  · cases h
    exact Eq.symm (by assumption)
  · cases h

theorem persistent_sampleWorld (primaries : Nat) (rk : Redkey)
    (h : (sampleWorld primaries).store.redkeys sampleKey = some rk) : rk.spec.ephemeral = false := by
  rw [redkeys_sampleWorld] at h
  cases h
  rfl

/-- The operator for the sample cluster. -/
def sampleReconcile : Act Result := reconcile ⟨60⟩ sampleKey

/-- One undisturbed Reconcile. -/
def undisturbed : List (Move server) := [.event .start, .drain .ok 60, .event .stop]

/-- The user sets the number of primaries. -/
def scaleTo (primaries : Nat) : Move server :=
  .event (.env (.update sampleKey (sampleSpec primaries)))

/-- Robin moves the config with this sequence to a phase. -/
def robinMoves (seq : Nat) (phase : ConfigPhase) : Move server :=
  .event (.env (.robin ⟨"ns", configName "rk" seq⟩ { configPhase := phase }))

/-! ## Versions of the Redkey -/

/-- `rk'` is `rk` at the same or a later time. -/
structure Precedes (rk rk' : Redkey) : Prop where
  key : rk'.key = rk.key
  uid : rk'.uid = rk.uid
  generation : rk.generation ≤ rk'.generation
  spec : rk'.generation = rk.generation → rk'.spec = rk.spec
  version : rk.resourceVersion ≤ rk'.resourceVersion
  same : rk'.resourceVersion = rk.resourceVersion → rk' = rk

theorem Precedes.refl (rk : Redkey) : Precedes rk rk :=
  ⟨rfl, rfl, le_rfl, fun _ => rfl, le_rfl, fun _ => rfl⟩

theorem Precedes.trans {a b c : Redkey} (h : Precedes a b) (h' : Precedes b c) : Precedes a c where
  key := h'.key.trans h.key
  uid := h'.uid.trans h.uid
  generation := h.generation.trans h'.generation
  spec hg := by
    have hb : b.generation = a.generation := le_antisymm (hg ▸ h'.generation) h.generation
    rw [h'.spec (hg.trans hb.symm), h.spec hb]
  version := h.version.trans h'.version
  same hv := by
    have hb : b.resourceVersion = a.resourceVersion := le_antisymm (hv ▸ h'.version) h.version
    rw [h'.same (hv.trans hb.symm), h.same hb]

theorem precedes_withSpec (rk : Redkey) (spec : RedkeySpec) : Precedes rk (rk.withSpec spec) :=
  ⟨rfl, rfl, Nat.le_succ _, fun h => absurd h (Nat.succ_ne_self _), Nat.le_succ _,
    fun h => absurd h (Nat.succ_ne_self _)⟩

theorem precedes_withStatus (rk : Redkey) (status : RedkeyStatus) :
    Precedes rk (rk.withStatus status) :=
  ⟨rfl, rfl, le_rfl, fun _ => rfl, Nat.le_succ _, fun h => absurd h (Nat.succ_ne_self _)⟩

/-- Both stores have the Redkey, and the second has it later. -/
def StorePrecedes (req : NamespacedName) (st st' : Store) : Prop :=
  ∃ rk rk', st.redkeys req = some rk ∧ st'.redkeys req = some rk' ∧ Precedes rk rk'

theorem StorePrecedes.trans {a b c : Store} (h : StorePrecedes req a b)
    (h' : StorePrecedes req b c) : StorePrecedes req a c := by
  obtain ⟨ra, rb, ha, hb, hab⟩ := h
  obtain ⟨rb', rc, hb', hc, hbc⟩ := h'
  rw [hb] at hb'
  cases hb'
  exact ⟨ra, rc, ha, hc, hab.trans hbc⟩

theorem StorePrecedes.precedes {a b : Store} (h : StorePrecedes req a b) {rk rk' : Redkey}
    (ha : a.redkeys req = some rk) (hb : b.redkeys req = some rk') : Precedes rk rk' := by
  obtain ⟨ra, rb, ha', hb', hab⟩ := h
  rw [ha] at ha'
  rw [hb] at hb'
  cases ha'
  cases hb'
  exact hab

structure Versions (req : NamespacedName) (w : World) : Prop where
  keyed : ∀ key rk, w.store.redkeys key = some rk → rk.key = key
  current : ∃ rk, w.store.redkeys req = some rk ∧ rk.generation < 2 ^ 63
  ordered : w.history.Pairwise (StorePrecedes req)

namespace Versions

theorem refl (h : Versions req w) : StorePrecedes req w.store w.store := by
  obtain ⟨rk, hrk, -⟩ := h.current
  exact ⟨rk, rk, hrk, hrk, .refl rk⟩

theorem precedes_store (h : Versions req w) {st : Store} (hs : st ∈ w.history) :
    StorePrecedes req st w.store := World.before_store h.ordered h.refl hs

theorem precedes (h : Versions req w) {i j : Nat} {a b : Store} (hij : i ≤ j)
    (ha : w.history[i]? = some a) (hb : w.history[j]? = some b) : StorePrecedes req a b := by
  obtain ⟨rk, -, hrk, -, -⟩ := h.precedes_store (List.mem_of_getElem? ha)
  exact World.before_of_le h.ordered ⟨rk, rk, hrk, hrk, .refl rk⟩ hij ha hb

/-- Every version has the key of the request and a generation in range. -/
theorem of_mem (h : Versions req w) {st : Store} (hs : st ∈ w.history) {rk : Redkey}
    (hrk : st.redkeys req = some rk) : rk.key = req ∧ rk.generation < 2 ^ 63 := by
  obtain ⟨cur, hcur, hg⟩ := h.current
  have hp := (h.precedes_store hs).precedes hrk hcur
  exact ⟨hp.key.symm.trans (h.keyed _ _ hcur), hp.generation.trans_lt hg⟩

/-- One resource version has one content. -/
theorem eq_of_version (h : Versions req w) {st : Store} (hs : st ∈ w.history) {rk cur : Redkey}
    (hrk : st.redkeys req = some rk) (hcur : w.store.redkeys req = some cur)
    (hv : rk.resourceVersion = cur.resourceVersion) : cur = rk :=
  ((h.precedes_store hs).precedes hrk hcur).same hv.symm

/-- Two versions of one generation have the same spec. -/
theorem spec_eq (h : Versions req w) {a b : Store} (ha : a ∈ w.history) (hb : b ∈ w.history)
    {rk rk' : Redkey} (hrk : a.redkeys req = some rk) (hrk' : b.redkeys req = some rk')
    (hg : rk.generation = rk'.generation) : rk.spec = rk'.spec := by
  obtain ⟨i, hi⟩ := List.getElem?_of_mem ha
  obtain ⟨j, hj⟩ := List.getElem?_of_mem hb
  rcases le_total i j with hij | hij
  · exact (((h.precedes hij hi hj).precedes hrk hrk').spec hg.symm).symm
  · exact ((h.precedes hij hj hi).precedes hrk' hrk).spec hg

theorem uid_eq (h : Versions req w) {a b : Store} (ha : a ∈ w.history) (hb : b ∈ w.history)
    {rk rk' : Redkey} (hrk : a.redkeys req = some rk) (hrk' : b.redkeys req = some rk') :
    rk.uid = rk'.uid := by
  obtain ⟨cur, hcur, -⟩ := h.current
  rw [← ((h.precedes_store ha).precedes hrk hcur).uid, ((h.precedes_store hb).precedes hrk' hcur).uid]

/-- A new version, or the same one, of a store that still has the Redkey. -/
theorem extend (h : Versions req w) (hk : ∀ key rk, w'.store.redkeys key = some rk → rk.key = key)
    (hs : StorePrecedes req w.store w'.store)
    (hg : ∃ rk, w'.store.redkeys req = some rk ∧ rk.generation < 2 ^ 63)
    (hh : w.Extends w') : Versions req w' := by
  refine ⟨hk, hg, hh.pairwise h.ordered fun st hst => ?_⟩
  exact (h.precedes_store hst).trans hs

theorem of_redkeys (h : Versions req w) (hr : w'.store.redkeys = w.store.redkeys)
    (hh : w.Extends w') : Versions req w' := by
  refine h.extend (by rw [hr]; exact h.keyed) ?_ (by rw [hr]; exact h.current) hh
  obtain ⟨rk, hrk, -⟩ := h.current
  exact ⟨rk, rk, hrk, by rw [hr]; exact hrk, .refl rk⟩

end Versions

@[simp] theorem redkeys_setRedkey_self (st : Store) (rk : Redkey) :
    (st.setRedkey rk).redkeys rk.key = some rk := Function.update_self _ _ _

theorem redkeys_setRedkey_of_ne (st : Store) {rk : Redkey} {key : NamespacedName}
    (h : key ≠ rk.key) : (st.setRedkey rk).redkeys key = st.redkeys key :=
  Function.update_of_ne h _ _

/-- Storing a later version of a stored Redkey. -/
theorem Versions.set (h : Versions req w) {key : NamespacedName} {cur rk : Redkey}
    (hc : w.store.redkeys key = some cur) (hp : Precedes cur rk)
    (hg : cur.generation < 2 ^ 63 → rk.generation < 2 ^ 63) (hs : List Happening) :
    Versions req (w.commit (w.store.setRedkey rk) hs) := by
  have hkey : rk.key = key := hp.key.trans (h.keyed _ _ hc)
  subst hkey
  obtain ⟨rk₀, hrk₀, hg₀⟩ := h.current
  refine h.extend ?_ ?_ ?_ (.inr rfl)
  · intro key rk' hrk'
    by_cases hk : key = rk.key
    · subst hk
      rw [show (w.commit (w.store.setRedkey rk) hs).store.redkeys rk.key = some rk from
        redkeys_setRedkey_self _ _] at hrk'
      cases hrk'
      rfl
    · rw [show (w.commit (w.store.setRedkey rk) hs).store.redkeys key = _ from
        redkeys_setRedkey_of_ne _ hk] at hrk'
      exact h.keyed _ _ hrk'
  · by_cases hk : req = rk.key
    · subst hk
      rw [hc] at hrk₀
      cases hrk₀
      exact ⟨cur, rk, hc, redkeys_setRedkey_self _ _, hp⟩
    · exact ⟨rk₀, rk₀, hrk₀, (redkeys_setRedkey_of_ne _ hk).trans hrk₀, .refl _⟩
  · by_cases hk : req = rk.key
    · subst hk
      rw [hc] at hrk₀
      cases hrk₀
      exact ⟨rk, redkeys_setRedkey_self _ _, hg hg₀⟩
    · exact ⟨rk₀, (redkeys_setRedkey_of_ne _ hk).trans hrk₀, hg₀⟩

/-- The Redkey of the request after one was stored: that one, or the one it was. -/
theorem Versions.store_update (hv : Versions req w) {key : NamespacedName} {cur rk rk' : Redkey}
    (hc : w.store.redkeys key = some cur) (hp : Precedes cur rk)
    (hrk : (w.store.setRedkey rk).redkeys req = some rk') :
    (rk' = rk ∧ w.store.redkeys req = some cur) ∨ w.store.redkeys req = some rk' := by
  have hkey : rk.key = key := hp.key.trans (hv.keyed _ _ hc)
  by_cases hk : req = rk.key
  · rw [hk, redkeys_setRedkey_self] at hrk
    cases hrk
    exact .inl ⟨rfl, by rw [hk, hkey]; exact hc⟩
  · exact .inr ((redkeys_setRedkey_of_ne _ hk) ▸ hrk)

theorem Runs.versions (h : Runs T req w₀ p w) (h₀ : Versions req w₀) : Versions req w := by
  refine h.world h₀ ?_ ?_ ?_
  · intro p e w w' _ hv _ he
    cases e with
    | update key spec =>
      obtain ⟨rk, hrk, hg, rfl⟩ := env_update he
      exact hv.set hrk (precedes_withSpec rk spec) (fun _ => hg) []
    | robin key s => obtain ⟨c, -, rfl⟩ := env_robin he; exact hv.of_redkeys rfl (.inr rfl)
    | collect key => obtain ⟨c, -, -, rfl⟩ := env_collect he; exact hv.of_redkeys rfl (.inr rfl)
  · exact fun w hv => hv.of_redkeys rfl (.inl rfl)
  · intro p w w' _ hv he
    cases he with
    | quiet hq => exact hv.of_redkeys hq.redkeys hq.history
    | sawRedkey => exact hv.of_redkeys rfl (.inl rfl)
    | sawConfigs => exact hv.of_redkeys rfl (.inl rfl)
    | updated hi ok hc => exact hv.set hc (precedes_withStatus _ _) id []
    | created => exact hv.of_redkeys rfl (.inr rfl)
    | deleted => exact hv.of_redkeys rfl (.inr rfl)

theorem Newborn.versions (h : Newborn req w) : Versions req w := by
  obtain ⟨rk, hrk, hg, -⟩ := h.redkey
  exact ⟨h.keyed, ⟨rk, hrk, by rw [hg]; decide⟩, by rw [h.history]; exact List.pairwise_singleton _ _⟩

theorem ReadRedkey.mem {rk : Redkey} (h : ReadRedkey req rk w) :
    ∃ st ∈ w.history, st.redkeys req = some rk := by
  obtain ⟨-, i, st, -, -, hst, hrk⟩ := h
  exact ⟨st, List.mem_of_getElem? hst, hrk⟩

/-- A status write that is accepted was computed from the stored Redkey. -/
theorem Issues.of_accepted {rk cur : Redkey} (hi : Issues req p (.write (.updateStatus rk)))
    (hv : Versions req w) (hs : Sourced req p w) (hc : w.store.redkeys rk.key = some cur)
    (hver : rk.resourceVersion = cur.resourceVersion) :
    w.store.redkeys req = some cur ∧
      ((∃ cluster configs active now, p = .refetched cluster configs cur ∧
        selectActiveConfig configs = some active ∧
        rk = { cur with status := aggregatedStatus now cur active cluster.generation }) ∨
      ∃ now, p = .deleting cur [] ∧ rk = { cur with status := scaledToZeroStatus now cur }) := by
  obtain ⟨cluster, configs, latest, active, now, rfl, ha, rfl⟩ | ⟨cluster, now, rfl, rfl⟩ :=
    hi.of_updateStatus
  · obtain ⟨hr, -, st, hst, hl⟩ := hs
    obtain ⟨st', hst', hrk⟩ := hr.mem
    rw [(hv.of_mem hst' hrk).1] at hl
    replace hc : w.store.redkeys req = some cur := (hv.of_mem hst hl).1 ▸ hc
    obtain rfl := hv.eq_of_version hst hl hc hver
    exact ⟨hc, .inl ⟨cluster, configs, active, now, rfl, ha, rfl⟩⟩
  · obtain ⟨st, hst, hrk⟩ := hs.1.mem
    replace hc : w.store.redkeys req = some cur := (hv.of_mem hst hrk).1 ▸ hc
    obtain rfl := hv.eq_of_version hst hrk hc hver
    exact ⟨hc, .inr ⟨now, rfl, rfl⟩⟩

/-! ## The origin of configs -/

/-- The operator has created the config of `rk` with this sequence. -/
structure Sent (req : NamespacedName) (w : World) (rk : Redkey) (seq : Nat) : Prop where
  version : ∃ st ∈ w.history, st.redkeys req = some rk
  created : .created (newConfig rk seq) ∈ w.journal

structure Provenance (req : NamespacedName) (w : World) : Prop where
  keys : ∀ st ∈ w.history, (st.configs.map RedkeyConfig.key).Nodup
  made : ∀ st ∈ w.history, ∀ c ∈ st.configs, ∃ rk, Sent req w rk c.sequence ∧ MadeFrom rk c
  journal : ∀ c, .created c ∈ w.journal → ∃ rk, Sent req w rk c.sequence ∧ c = newConfig rk c.sequence

theorem Sent.mono {rk : Redkey} {seq : Nat} (h : Sent req w rk seq)
    (hh : w.Extends w') (hj : ∀ x ∈ w.journal, x ∈ w'.journal) : Sent req w' rk seq := by
  obtain ⟨⟨st, hst, hrk⟩, hc⟩ := h
  exact ⟨⟨st, hh.mono hst, hrk⟩, hj _ hc⟩

theorem Provenance.extend (h : Provenance req w) (hh : w.Extends w')
    (hj : ∀ x ∈ w.journal, x ∈ w'.journal)
    (hk : (w'.store.configs.map RedkeyConfig.key).Nodup)
    (hm : ∀ c ∈ w'.store.configs, ∃ rk, Sent req w' rk c.sequence ∧ MadeFrom rk c)
    (hc : ∀ c, .created c ∈ w'.journal → .created c ∈ w.journal ∨
      ∃ rk, Sent req w' rk c.sequence ∧ c = newConfig rk c.sequence) : Provenance req w' := by
  refine ⟨fun st hst => ?_, fun st hst c hcs => ?_, fun c hcj => ?_⟩
  · obtain hst | rfl := hh.mem hst
    · exact h.keys st hst
    · exact hk
  · obtain hst | rfl := hh.mem hst
    · obtain ⟨rk, hs, hmk⟩ := h.made st hst c hcs
      exact ⟨rk, hs.mono hh hj, hmk⟩
    · exact hm c hcs
  · obtain hcj | hcj := hc c hcj
    · obtain ⟨rk, hs, he⟩ := h.journal c hcj
      exact ⟨rk, hs.mono hh hj, he⟩
    · exact hcj

/-- Configs that are still there, in order, with what Robin made of their status. -/
theorem Provenance.of_configs (h : Provenance req w) (hh : w.Extends w')
    (hj : ∃ hs, w'.journal = hs ++ w.journal ∧ ∀ c, .created c ∉ hs)
    (hk : (w'.store.configs.map RedkeyConfig.key).Sublist (w.store.configs.map RedkeyConfig.key))
    (hm : ∀ c ∈ w'.store.configs, ∃ d ∈ w.store.configs, c = { d with status := c.status }) :
    Provenance req w' := by
  obtain ⟨hs, hj, hn⟩ := hj
  have hsub : ∀ x ∈ w.journal, x ∈ w'.journal := fun x hx => by simp [hj, hx]
  refine h.extend hh hsub (hk.nodup (h.keys _ w.store_mem_history)) (fun c hc => ?_) fun c hc => ?_
  · obtain ⟨d, hd, he⟩ := hm c hc
    obtain ⟨rk, hs, hmk⟩ := h.made _ w.store_mem_history d hd
    rw [he]
    exact ⟨rk, hs.mono hh hsub, hmk.withStatus _⟩
  · rw [hj, List.mem_append] at hc
    exact .inl (hc.resolve_left (hn c))

theorem Runs.provenance (h : Runs T req w₀ p w) (hf : Fresh req w₀) : Provenance req w := by
  refine h.world ?_ ?_ ?_ ?_
  · refine ⟨fun st hst => ?_, fun st hst c hc => ?_, fun c hc => ?_⟩
    · rw [hf.history, List.mem_singleton] at hst; simp [hst, hf.configs]
    · rw [hf.history, List.mem_singleton] at hst; simp [hst, hf.configs] at hc
    · simp [hf.journal] at hc
  · intro p e w w' _ hp _ he
    cases e with
    | update key spec =>
      obtain ⟨rk, -, -, rfl⟩ := env_update he
      exact hp.of_configs (.inr rfl) ⟨[], rfl, by simp⟩ (.refl _) fun c hc => ⟨c, hc, rfl⟩
    | robin key s =>
      obtain ⟨c, -, rfl⟩ := env_robin he
      refine hp.of_configs (.inr rfl) ⟨_, rfl, fun d hd => ?_⟩
        (by simp [Store.keys_setConfigStatus]) fun d hd => ?_
      · simp only [moves] at hd; split at hd <;> simp at hd
      · obtain ⟨b, hb, ⟨-, rfl⟩ | ⟨-, rfl⟩⟩ := Store.mem_setConfigStatus hd <;> exact ⟨_, hb, rfl⟩
    | collect key =>
      obtain ⟨c, -, -, rfl⟩ := env_collect he
      exact hp.of_configs (.inr rfl) ⟨_, rfl, by simp⟩ (List.filter_sublist.map _)
        fun d hd => ⟨d, (Store.mem_removeConfig.mp hd).1, rfl⟩
  · exact fun w hp => hp.of_configs (.inl rfl) ⟨[], rfl, by simp⟩ (.refl _) fun c hc => ⟨c, hc, rfl⟩
  · intro p w w' hr hp he
    cases he with
    | quiet hq =>
      exact hp.of_configs hq.history ⟨[], hq.journal, by simp⟩ (by rw [hq.configs])
        fun c hc => ⟨c, hq.configs ▸ hc, rfl⟩
    | sawRedkey =>
      exact hp.of_configs (.inl rfl) ⟨[], rfl, by simp⟩ (.refl _) fun c hc => ⟨c, hc, rfl⟩
    | sawConfigs =>
      exact hp.of_configs (.inl rfl) ⟨[], rfl, by simp⟩ (.refl _) fun c hc => ⟨c, hc, rfl⟩
    | updated =>
      exact hp.of_configs (.inr rfl) ⟨[], rfl, by simp⟩ (.refl _) fun c hc => ⟨c, hc, rfl⟩
    | deleted =>
      exact hp.of_configs (.inr rfl) ⟨_, rfl, by simp⟩ (List.filter_sublist.map _)
        fun d hd => ⟨d, (Store.mem_removeConfig.mp hd).1, rfl⟩
    | created hi ok hn =>
      obtain ⟨cluster, configs, rfl, -, rfl⟩ := hi.of_createConfig
      set c := newConfig cluster (nextSequence configs.getLast?)
      obtain ⟨st, hst, hrk⟩ := ReadRedkey.mem (hr.sourced hf.cursors).1
      have hsent : Sent req (w.commit { w.store with configs := w.store.configs ++ [c] }
          [.created c]) cluster c.sequence :=
        ⟨⟨st, List.mem_append_left _ hst, hrk⟩, List.mem_cons_self⟩
      refine hp.extend (.inr rfl) (fun x hx => List.mem_cons_of_mem _ hx) ?_ ?_ ?_
      · simp only [World.store_commit, List.map_append, List.map_cons, List.map_nil]
        refine List.nodup_append.mpr ⟨hp.keys _ w.store_mem_history, by simp, ?_⟩
        rintro a ha b hb rfl
        obtain ⟨d, hd, rfl⟩ := List.mem_map.mp ha
        exact Store.config_eq_none.mp hn d hd (List.mem_singleton.mp hb)
      · intro d hd
        rcases List.mem_append.mp hd with hd | hd
        · obtain ⟨rk, hs, hm⟩ := hp.made _ w.store_mem_history d hd
          exact ⟨rk, hs.mono (.inr rfl) fun x hx => List.mem_cons_of_mem _ hx, hm⟩
        · rw [List.mem_singleton.mp hd]
          exact ⟨cluster, hsent, madeFrom_newConfig _ _⟩
      · intro d hd
        rcases List.mem_cons.mp hd with hd | hd
        · cases hd
          exact .inr ⟨cluster, hsent, rfl⟩
        · exact .inl hd

namespace Provenance

theorem key (h : Provenance req w) (hv : Versions req w) {st : Store} (hs : st ∈ w.history)
    {c : RedkeyConfig} (hc : c ∈ st.configs) :
    c.key = ⟨req.namespace_, configName req.name c.sequence⟩ := by
  obtain ⟨rk, ⟨⟨st', hst', hrk⟩, -⟩, hm⟩ := h.made st hs c hc
  rw [hm.key, (hv.of_mem hst' hrk).1]

theorem label (h : Provenance req w) (hv : Versions req w) {st : Store} (hs : st ∈ w.history)
    {c : RedkeyConfig} (hc : c ∈ st.configs) :
    c.metadata.labels.get clusterLabel = some req.name := by
  obtain ⟨rk, ⟨⟨st', hst', hrk⟩, -⟩, hm⟩ := h.made st hs c hc
  rw [hm.label, (hv.of_mem hst' hrk).1]

/-- The label selects every config. -/
theorem configsOf (h : Provenance req w) (hv : Versions req w) {st : Store} (hs : st ∈ w.history) :
    st.configsOf clusterLabel req.namespace_ req.name = st.configs := by
  refine List.filter_eq_self.mpr fun c hc => ?_
  simp [h.key hv hs hc, h.label hv hs hc]

theorem sameCluster (h : Provenance req w) (hv : Versions req w) {c d : RedkeyConfig}
    (hc : c ∈ w.store.configs) (hd : d ∈ w.store.configs) : sameCluster c d = true := by
  simp [Kube.sameCluster, h.key hv w.store_mem_history hc, h.key hv w.store_mem_history hd,
    h.label hv w.store_mem_history hc, h.label hv w.store_mem_history hd]

/-- The owner of a config is there, so it is not collected. -/
theorem not_collected (h : Provenance req w) (hv : Versions req w) {key : NamespacedName} :
    env (.collect key) w ≠ some w' := by
  intro he
  obtain ⟨c, hc, hn, -⟩ := env_collect he
  obtain ⟨hc, -⟩ := Store.config_mem hc
  obtain ⟨rk, ⟨⟨st', hst', hrk⟩, -⟩, hm⟩ := h.made _ w.store_mem_history c hc
  obtain ⟨cur, hcur, -⟩ := hv.current
  have hp : parent w.store c = some cur := by
    simp [parent, h.label hv w.store_mem_history hc, h.key hv w.store_mem_history hc, hcur]
  refine hn cur hp ?_
  rw [hm.owner, hv.uid_eq hst' w.store_mem_history hrk hcur]

theorem sequences_nodup (h : Provenance req w) (hv : Versions req w) {st : Store}
    (hs : st ∈ w.history) : (st.configs.map RedkeyConfig.sequence).Nodup := by
  refine List.Nodup.of_map (fun seq => (⟨req.namespace_, configName req.name seq⟩ : NamespacedName)) ?_
  have hkeys := h.keys st hs
  rw [List.map_congr_left fun c hc => h.key hv hs hc] at hkeys
  rwa [List.map_map]

end Provenance

end RedkeyOperator.Protocol

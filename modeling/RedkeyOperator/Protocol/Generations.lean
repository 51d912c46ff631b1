import RedkeyOperator.Protocol.StatusHistory

/-! # Generations under a stale cache

Reads may be stale, but a Reconcile never reads a Redkey older than an earlier
one did. So whatever the operator has done so far, creating configs or stamping
`observedGeneration`, it did for generations that no later read undercuts. -/
namespace RedkeyOperator.Protocol
open RedkeyOperator.Api RedkeyOperator.Kube RedkeyOperator.Interleave RedkeyOperator.Controller

variable {T : Terms server} {req : NamespacedName} {w₀ w w' : World} {p q : Point}

/-- A config has been created for generation `g`. -/
def CreatedFor (w : World) (g : Nat) : Prop :=
  ∃ c, .created c ∈ w.journal ∧
    c.metadata.annotations.get generationAnnotation = some (formatInt g)

/-- The operator has not acted for a generation beyond `g`. -/
structure Bounded (req : NamespacedName) (w : World) (g : Nat) : Prop where
  created : ∀ g', CreatedFor w g' → g' ≤ g
  observed : ∀ st ∈ w.history, ∀ rk, st.redkeys req = some rk → rk.status.observedGeneration ≤ g

theorem Bounded.mono {g g' : Nat} (h : Bounded req w g) (hg : g ≤ g') : Bounded req w g' :=
  ⟨fun _ hc => (h.created _ hc).trans hg, fun st hs rk hrk => (h.observed st hs rk hrk).trans hg⟩

/-- What can still be read is beyond what the operator has acted for. -/
def Ahead (req : NamespacedName) (w : World) : Prop :=
  ∀ i st rk, w.seen.redkey ≤ i → w.history[i]? = some st → st.redkeys req = some rk →
    Bounded req w rk.generation

/-- A step that acts for generation `g₀` at most, while only versions beyond it
can still be read. -/
theorem Ahead.step {g₀ : Nat} (h : Ahead req w) (hc : Cursors w) (hv : Versions req w)
    (hh : w.Extends w') (hs : w.seen.redkey ≤ w'.seen.redkey) (hp : StorePrecedes req w.store w'.store)
    (hb : ∀ g, g₀ ≤ g → Bounded req w g → Bounded req w' g)
    (hg : ∀ i st rk, w'.seen.redkey ≤ i → w'.history[i]? = some st → st.redkeys req = some rk →
      g₀ ≤ rk.generation) : Ahead req w' := by
  intro i st rk hi hst hrk
  refine hb _ (hg i st rk hi hst hrk) ?_
  obtain hst | rfl := hh.getElem? hst
  · exact h i st rk (hs.trans hi) hst hrk
  · -- the new version is later than the store, which could be read
    obtain ⟨cur, hcur, -⟩ := hv.current
    exact (h w.now w.store cur hc.seenRedkey w.history_now hcur).mono (hp.precedes hcur hrk).generation

/-- A step that creates configs and stamps the Redkey for `g₀` at most. -/
theorem Bounded.step {g₀ g : Nat} (h : Bounded req w g) (hg : g₀ ≤ g) (hh : w.Extends w')
    (hj : ∃ hs, w'.journal = hs ++ w.journal ∧ ∀ c, .created c ∈ hs →
      c.metadata.annotations.get generationAnnotation = some (formatInt g₀))
    (ho : ∀ rk, w'.store.redkeys req = some rk → rk.status.observedGeneration = g₀ ∨
      ∃ cur, w.store.redkeys req = some cur ∧
        rk.status.observedGeneration = cur.status.observedGeneration) :
    Bounded req w' g := by
  obtain ⟨hs, hj, hcr⟩ := hj
  constructor
  · rintro g' ⟨c, hc, ha⟩
    rw [hj, List.mem_append] at hc
    obtain hc | hc := hc
    · rw [hcr c hc, Option.some.injEq] at ha
      exact (formatInt_injective ha) ▸ hg
    · exact h.created g' ⟨c, hc, ha⟩
  · intro st hst rk hrk
    obtain hst | rfl := hh.mem hst
    · exact h.observed st hst rk hrk
    · obtain he | ⟨cur, hcur, he⟩ := ho rk hrk
      · exact he ▸ hg
      · exact he ▸ h.observed _ w.store_mem_history cur hcur

/-- Steps that leave every Redkey alone and create no config. -/
structure Inert (w w' : World) : Prop where
  redkeys : w'.store.redkeys = w.store.redkeys
  history : w'.history = w.history ∨ w'.history = w.history ++ [w'.store]
  journal : ∃ hs, w'.journal = hs ++ w.journal ∧ ∀ c, .created c ∉ hs
  seenRedkey : w.seen.redkey ≤ w'.seen.redkey

theorem inert_robin {c : RedkeyConfig} {s : RedkeyConfigStatus} {key : NamespacedName} :
    Inert w (w.commit (w.store.setConfigStatus key s) (moves c s)) := by
  refine ⟨rfl, .inr rfl, ⟨_, rfl, fun d hd => ?_⟩, le_rfl⟩
  simp only [moves] at hd
  split at hd <;> simp at hd

theorem inert_collect {c : RedkeyConfig} {key : NamespacedName} :
    Inert w (w.commit (w.store.removeConfig key) [.collected c]) :=
  ⟨rfl, .inr rfl, ⟨_, rfl, by simp⟩, le_rfl⟩

theorem inert_quiet (h : Quiet w w') : Inert w w' :=
  ⟨h.redkeys, h.history, ⟨[], h.journal, by simp⟩, h.seenRedkey.ge⟩

/-- What a Reconcile works on, and all that can be read later, is beyond what
the operator has acted for. -/
structure Leading (req : NamespacedName) (p : Point) (w : World) : Prop where
  ahead : Ahead req w
  cluster : ∀ rk, p.cluster = some rk → Bounded req w rk.generation

theorem Leading.inert (h : Leading req p w) (hc : Cursors w) (hv : Versions req w)
    (hi : Inert w w') : Leading req p w' := by
  obtain ⟨hs, hj, hn⟩ := hi.journal
  have hb : ∀ g, 0 ≤ g → Bounded req w g → Bounded req w' g := fun g hg hb =>
    hb.step hg hi.history ⟨hs, hj, fun c hc => absurd hc (hn c)⟩ fun rk hrk =>
      .inr ⟨rk, hi.redkeys ▸ hrk, rfl⟩
  obtain ⟨cur, hcur, -⟩ := hv.current
  refine ⟨h.ahead.step hc hv hi.history hi.seenRedkey ?_ hb fun _ _ _ _ _ _ => Nat.zero_le _,
    fun rk hrk => hb _ (Nat.zero_le _) (h.cluster rk hrk)⟩
  exact ⟨cur, cur, hcur, hi.redkeys ▸ hcur, .refl _⟩

/-- A step of a Reconcile that acts for the generation it has read. -/
theorem Leading.act {rk : Redkey} (h : Leading req p w) (hp : p.cluster = some rk)
    (hc : Cursors w) (hv : Versions req w) (hr : ReadRedkey req rk w) (hv' : Versions req w')
    (hh : w'.history = w.history ++ [w'.store]) (hs : w'.seen = w.seen)
    (hpre : StorePrecedes req w.store w'.store)
    (hb : ∀ g, rk.generation ≤ g → Bounded req w g → Bounded req w' g) : Leading req p w' := by
  refine ⟨h.ahead.step hc hv (.inr hh) (by rw [hs]) hpre hb fun i st rk' hi hst hrk' => ?_,
    fun rk' hrk' => ?_⟩
  · obtain ⟨-, j, st₀, -, hj, hst₀, hrk⟩ := hr
    have hst₀' : w'.history[j]? = some st₀ := by
      rw [hh, List.getElem?_append_left (List.getElem?_eq_some_iff.mp hst₀).1, hst₀]
    rw [hs] at hi
    exact ((hv'.precedes (hj.trans hi) hst₀' hst).precedes hrk hrk').generation
  · rw [hp] at hrk'
    cases hrk'
    exact hb _ le_rfl (h.cluster rk hp)

theorem Leading.effect (h : Leading req p w) (hc : Cursors w) (hv : Versions req w)
    (hv' : Versions req w') (hs : Sourced req p w) (he : Effect T req p w w') :
    Leading req p w' := by
  obtain ⟨cur₀, hcur₀, -⟩ := hv.current
  have hpre : w'.history = w.history ++ [w'.store] → StorePrecedes req w.store w'.store := by
    intro hh
    have hmem : w.store ∈ w'.history := by rw [hh]; simp [World.store_mem_history]
    exact hv'.precedes_store hmem
  cases he with
  | quiet hq => exact h.inert hc hv (inert_quiet hq)
  | sawRedkey => exact h.inert hc hv ⟨rfl, .inl rfl, ⟨[], rfl, by simp⟩, le_max_left _ _⟩
  | sawConfigs => exact h.inert hc hv ⟨rfl, .inl rfl, ⟨[], rfl, by simp⟩, le_rfl⟩
  | deleted => exact h.inert hc hv ⟨rfl, .inr rfl, ⟨_, rfl, by simp⟩, le_rfl⟩
  | updated hi ok hcur =>
    obtain ⟨cluster, hp, ho⟩ := hi.observedGeneration
    refine h.act hp hc hv (hs.readRedkey hp) hv' rfl rfl (hpre rfl) fun g hg hb => ?_
    refine hb.step hg (.inr rfl) ⟨[], rfl, by simp⟩ fun rk' hrk' => ?_
    obtain ⟨rfl, -⟩ | hrk' := hv.store_update hcur (precedes_withStatus _ _) hrk'
    · exact .inl ho
    · exact .inr ⟨rk', hrk', rfl⟩
  | created hi ok hn =>
    obtain ⟨cluster, configs, rfl, -, rfl⟩ := hi.of_createConfig
    refine h.act rfl hc hv hs.1 hv' rfl rfl (hpre rfl) fun g hg hb => ?_
    refine hb.step hg (.inr rfl) ⟨_, rfl, fun c hc => ?_⟩ fun rk' hrk' => .inr ⟨rk', hrk', rfl⟩
    cases List.mem_singleton.mp hc
    exact newConfig_annotation _ _

theorem Leading.env {e : Ev} (h : Leading req p w) (hc : Cursors w) (hv : Versions req w)
    (hv' : Versions req w') (he : env e w = some w') : Leading req p w' := by
  cases e with
  | update key spec =>
    obtain ⟨rk, hrk, -, rfl⟩ := env_update he
    have hmem : w.store ∈ (w.commit (w.store.setRedkey (rk.withSpec spec)) []).history := by
      simp [World.store_mem_history]
    have hb : ∀ g, 0 ≤ g → Bounded req w g →
        Bounded req (w.commit (w.store.setRedkey (rk.withSpec spec)) []) g := by
      refine fun g hg hb => hb.step hg (.inr rfl) ⟨[], rfl, by simp⟩ fun rk' hrk' => .inr ?_
      obtain ⟨rfl, hrk⟩ | hrk' := hv.store_update hrk (precedes_withSpec _ _) hrk'
      · exact ⟨rk, hrk, rfl⟩
      · exact ⟨rk', hrk', rfl⟩
    exact ⟨h.ahead.step hc hv (.inr rfl) le_rfl (hv'.precedes_store hmem) hb
      fun _ _ _ _ _ _ => Nat.zero_le _, fun rk hrk => hb _ (Nat.zero_le _) (h.cluster rk hrk)⟩
  | robin key s => obtain ⟨c, -, rfl⟩ := env_robin he; exact h.inert hc hv inert_robin
  | collect key => obtain ⟨c, -, -, rfl⟩ := env_collect he; exact h.inert hc hv inert_collect

theorem Runs.leading (h : Runs T req w₀ p w) (hf : Newborn req w₀) : Leading req p w := by
  induction h using Runs.induct with
  | init =>
    obtain ⟨rk₀, hrk₀, -, hst₀⟩ := hf.redkey
    refine ⟨fun i st rk _ _ _ => ⟨?_, ?_⟩, fun rk hrk => by cases hrk⟩
    · rintro g' ⟨c, hc, -⟩
      simp [hf.journal] at hc
    · intro st' hst' rk' hrk'
      rw [hf.history, List.mem_singleton] at hst'
      rw [hst', hrk₀] at hrk'
      cases hrk'
      simp [hst₀]
  | env p e w w' h ok hw ih =>
    exact ih.env (h.cursors hf.cursors) (h.versions hf.versions)
      (Runs.versions (.env e h ok hw) hf.versions) hw
  | enter p w h ih =>
    have hl : Leading req p (enter w) := ih.inert (h.cursors hf.cursors) (h.versions hf.versions)
      ⟨rfl, .inl rfl, ⟨[], rfl, by simp⟩, le_rfl⟩
    exact ⟨hl.ahead, fun rk hrk => by cases hrk⟩
  | silent p q w h hq ih => exact ⟨ih.ahead, fun rk hrk => ih.cluster rk (hq.cluster hrk)⟩
  | call p q w w' c o res h hq ok hw ih =>
    have hc := h.cursors hf.cursors
    have hv := h.versions hf.versions
    have hv' := Runs.versions (.call c o res h hq ok hw) hf.versions
    have hl := ih.effect hc hv hv' (h.sourced hf.cursors) (hq.issues.effect ok hw)
    refine ⟨hl.ahead, fun rk hrk => ?_⟩
    obtain hp | ⟨rfl, rfl⟩ := hq.cluster hrk
    · exact hl.cluster rk hp
    · cases hq with
      | get =>
        -- the read is not older than anything seen before it
        obtain ⟨i, st, hview, hrk, rfl⟩ := answer_getRedkey_ok hw
        obtain ⟨hi, hst⟩ := view_spec (hc.redkey.trans hc.seenRedkey) hview
        have hb := ih.ahead i st rk (h.unread.1 ▸ hi) hst hrk
        exact hb.step (Nat.zero_le _) (.inl rfl) ⟨[], rfl, by simp⟩ fun rk' hrk' =>
          .inr ⟨rk', hrk', rfl⟩

/-- A config created for the generation read, or a later one, is the one the
Redkey read would give. -/
theorem Sent.newConfig_eq {rk cluster : Redkey} {seq : Nat} (h : Sent req w rk seq)
    (hv : Versions req w) (hc : ∃ st ∈ w.history, st.redkeys req = some cluster)
    (hb : Bounded req w cluster.generation) (hg : cluster.generation ≤ rk.generation) (n : Nat) :
    newConfig rk n = newConfig cluster n := by
  obtain ⟨⟨sr, hsr, hrk⟩, hsent⟩ := h
  obtain ⟨sc, hsc, hcl⟩ := hc
  have hle : rk.generation ≤ cluster.generation := hb.created _ ⟨_, hsent, newConfig_annotation _ _⟩
  have he : rk.generation = cluster.generation := le_antisymm hle hg
  exact newConfig_congr ((hv.of_mem hsr hrk).1.trans (hv.of_mem hsc hcl).1.symm)
    (hv.uid_eq hsr hsc hrk hcl) he (hv.spec_eq hsr hsc hrk hcl he) n

/-! ## The observed generation -/

/-- The observed generation of the first store is not beyond that of the second. -/
def ObservedLe (req : NamespacedName) (a b : Store) : Prop :=
  ∀ rk rk', a.redkeys req = some rk → b.redkeys req = some rk' →
    rk.status.observedGeneration ≤ rk'.status.observedGeneration

/-- In every run the observed generation never decreases. -/
theorem Runs.observedForward (h : Runs T req w₀ p w) (hf : Newborn req w₀) :
    w.history.Pairwise (ObservedLe req) := by
  refine h.statuses_pairwise (R := fun a b => a.observedGeneration ≤ b.observedGeneration)
    hf (fun _ => le_rfl) (fun _ _ _ => le_trans) ?_
  intro p w rk st hr hrk hs
  cases hs with
  | same => exact le_rfl
  | @write wr now o ha ok =>
    -- what is stamped is the generation read, beyond all observed before
    obtain ⟨cluster, hp, ho⟩ := ha.observedGeneration now
    exact (((hr.leading hf).cluster cluster hp).observed _ w.store_mem_history rk hrk).trans_eq
      ho.symm

end RedkeyOperator.Protocol

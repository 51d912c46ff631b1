import RedkeyOperator.Controller.Gauges
import RedkeyOperator.Interleave.Observer
import RedkeyOperator.Protocol.Replicas

/-! # The gauges of the operators

Every operator keeps the metrics of all Redkeys in its memory. A Reconcile notes there
the status that it has read or written last, and the active config of its list. So the
gauges tell, for every Redkey, of a status it has had and of a config it has had,
however the Reconciles of the operators come between each other, and whenever an
operator is started anew. -/
namespace RedkeyOperator.Protocol
open RedkeyOperator.Api RedkeyOperator.Kube RedkeyOperator.Interleave RedkeyOperator.Controller

variable {K : Type} [DecidableEq K] {G : Store → Prop}

/-- The metrics of each operator; they are lost when it is started anew. -/
def telemetry (K : Type) [DecidableEq K] : Observer api (K × NamespacedName) where
  Notes := K → Metrics
  Reading := Readings
  note k c clock m := match c with
    | .recordMetrics cluster active =>
      Function.update m k.1 ((m k.1).recordRedkeyMetrics cluster active clock)
    | .deleteMetrics key => Function.update m k.1 ((m k.1).deleteRedkeyMetrics key)
    | _ => m
  forget k m := Function.update m k.1 {}

abbrev observedOperators (K : Type) [DecidableEq K] : Hub api (K × NamespacedName) :=
  (operators K).observed (telemetry K)

/-- The gauges of a Redkey show nothing, or a status that it has had with a config that
was listed for it. -/
def Truthful (G : Store → Prop) (m : Metrics) (a : NamespacedName) : Prop :=
  m.Blank a ∨ ∃ status active, HasHad G a status ∧ (∀ c ∈ active, HasListed G a c) ∧
    m.Mirrors a status active

theorem Truthful.congr {m m' : Metrics} {a : NamespacedName} (h : Truthful G m a)
    (hs : m.SameGauges m' a) : Truthful G m' a := by
  rcases h with h | ⟨status, active, hstatus, hactive, h⟩
  · exact .inl (h.congr hs)
  · exact .inr ⟨status, active, hstatus, hactive, h.congr hs⟩

/-- The metrics of one operator change. -/
theorem truthful_update {m : K → Metrics} (hm : ∀ i a, Truthful G (m i) a) {j : K} {m' : Metrics}
    {a : NamespacedName} (h : Truthful G m' a) (i : K) :
    Truthful G (Function.update m j m' i) a := by
  by_cases hi : i = j
  · subst hi
    rwa [Function.update_self]
  · rw [Function.update_of_ne hi]
    exact hm i a

/-- The Reconcile of one Redkey shows what it has read of it, and leaves the others. -/
theorem truthful_note {k : K × NamespacedName} {c : Call} (clock : Readings) {m : K → Metrics}
    (hc : Signed G k.2 c) (hm : ∀ i a, Truthful G (m i) a) (i : K) (a : NamespacedName) :
    Truthful G ((telemetry K).note k c clock m i) a := by
  cases hc with
  | @recordMetrics rk active hk h ha =>
    refine truthful_update hm ?_ i
    by_cases he : a = rk.key
    · have hprior : (m k.1).Blank rk.key ∨ ∃ status c, (m k.1).Mirrors rk.key status c := by
        rcases hm k.1 rk.key with hb | ⟨status, c, -, -, hmir⟩
        · exact .inl hb
        · exact .inr ⟨status, c, hmir⟩
      have hmirrors := (m k.1).mirrors_record rk active clock hprior
      rw [he]
      exact .inr ⟨rk.status, active, hk ▸ h, hk ▸ ha, hmirrors⟩
    · exact (hm k.1 a).congr ((m k.1).sameGauges_record rk active clock he)
  | deleteMetrics hst hn =>
    refine truthful_update hm ?_ i
    by_cases he : a = k.2
    · rw [he]
      exact .inl (Metrics.blank_delete _ _)
    · exact (hm k.1 a).congr (Metrics.sameGauges_delete he)
  | createConfig | aggregate | scaledToZero => exact hm i a
  | other h =>
    cases c with
    | recordMetrics | deleteMetrics => exact absurd trivial h
    | _ => exact hm i a

/-- An operator that is started anew shows nothing. -/
theorem truthful_forget (k : K × NamespacedName) {m : K → Metrics}
    (hm : ∀ i a, Truthful G (m i) a) (i : K) (a : NamespacedName) :
    Truthful G ((telemetry K).forget k m i) a :=
  truthful_update hm (.inl (Metrics.blank_empty a)) i

section
variable {T : Hub.Terms (observedOperators K)} {r : K → RedkeyReconciler}
  {f₀ : SharedBy (K × NamespacedName)} {s : Hub.Pool (observedOperators K) Result}

theorem observed_named_of_reaches (h₀ : ∀ k, (f₀.worldOf k).Named)
    (h : Hub.Reaches T (reconcileBy r) (.idle (f₀, fun _ => {})) s) (k : K × NamespacedName) :
    (SharedBy.worldOf s.world.1 k).Named := by
  have hkeeps := (World.Named.keeps (K × NamespacedName)).observed (O := telemetry K)
    (J := fun _ => True) (fun _ _ _ _ => trivial) fun _ _ _ => trivial
  exact (h.within_upTo (Q := fun _ => True) hkeeps (fun k => .any (reconcileBy r k))
    ⟨h₀, trivial⟩ (fun _ => rfl) fun _ _ => trivial).1.1 k

/-- In every run of any number of operators, the gauges of each operator show nothing of a
Redkey, or they show one status that the Redkey has had, with a config that the cluster
has had or with none. A state set that is shown is complete, with 1 on the phase and 0 on
the other values, so with 0 on all of them while the phase is unset. Without a config its
state set is absent. There is at most one operation in progress. -/
theorem gauges_are_truthful (h₀ : ∀ k, (f₀.worldOf k).Named)
    (h : Hub.Reaches T (reconcileBy r) (.idle (f₀, fun _ => {})) s) (i : K) (a : NamespacedName) :
    Metrics.Blank (s.world.2 i) a ∨
      ∃ st ∈ SharedBy.history s.world.1, ∃ rk, st.redkeys a = some rk ∧
        ∃ active : Option RedkeyConfig,
          (∀ c ∈ active, ∃ st' ∈ SharedBy.history s.world.1,
            c ∈ st'.configsOf clusterLabel a.namespace_ a.name) ∧
          Metrics.Mirrors (s.world.2 i) a rk.status active := by
  have hnamed := observed_named_of_reaches h₀ h (i, a)
  set G : Store → Prop := (· ∈ SharedBy.history s.world.1)
  have hserver : Hub.KeepsUpTo (operators K) (fun f => ∀ st ∈ f.history, G st)
      (fun f => ∀ _ : K × NamespacedName, True) (fun k => Signed G k.2) fun _ => Informed G := by
    refine keepsUpTo_sharedBy (J := fun _ => True) (fun _ _ _ => trivial) (fun _ _ _ => trivial) ?_
    intro k c o r w w' hG _ _ hans
    exact ⟨trivial, informed_of_answer (fun st hst => hnamed st (hG st hst)) hG hans⟩
  have hkeeps := hserver.observed (O := telemetry K) (J := fun m => ∀ i a, Truthful G (m i) a)
    (fun clock _ hc hm => truthful_note clock hc hm) fun k _ hm i a => truthful_forget k hm i a
  have htrue := (h.within_upTo hkeeps (fun k => signs_reconcile (r k.1) k.2)
    ⟨fun _ => trivial, fun i a => .inl (Metrics.blank_empty a)⟩ (fun _ => rfl)
    fun st hst => hst).1.2 i a
  rcases htrue with hblank | ⟨status, active, ⟨rk, ⟨st, hst, hrk⟩, rfl⟩, hactive, hmirrors⟩
  · exact .inl hblank
  · exact .inr ⟨st, hst, rk, hrk, active, hactive, hmirrors⟩

end

/-! ## An operator that has reconciled -/

def anyObserved : Hub.Terms (observedOperators Bool) where
  env _ _ := true
  call _ _ _ _ := true

/-- One undisturbed Reconcile of the sample cluster by one of two operators. -/
def noted : List (Hub.Event (observedOperators Bool)) :=
  .start (true, sampleKey) ::
    List.replicate 18 (.call (true, sampleKey) (.ok, (⟨0, 0, 0, 0⟩ : Readings)))

set_option maxRecDepth 100000 in
theorem gauges_are_truthful_sample :
    ∃ s : Hub.Pool (observedOperators Bool) Result,
      Hub.Reaches anyObserved sampleOperators (.idle (forTwo, fun _ => {})) s ∧
      (Metrics.redkeyPhase (s.world.2 true)).lookup (sampleKey, .configuring) = some 1 ∧
      ∃ st ∈ SharedBy.history s.world.1, ∃ rk, st.redkeys sampleKey = some rk ∧
        ∃ active : Option RedkeyConfig, Metrics.Mirrors (s.world.2 true) sampleKey rk.status active := by
  obtain ⟨s, hs, hphase⟩ := Hub.exists_reaches_of_play (T := anyObserved) noted
    (fun s : Hub.Pool (observedOperators Bool) Result =>
      (Metrics.redkeyPhase (s.world.2 true)).lookup (sampleKey, .configuring) == some 1)
    (by decide +kernel : (Hub.play anyObserved sampleOperators noted
      (.idle (forTwo, fun _ => {}))).any _ = true)
  rw [beq_iff_eq] at hphase
  refine ⟨s, hs, hphase, ?_⟩
  rcases gauges_are_truthful (fun k => (fresh_forTwo k).named) hs true sampleKey with
    hblank | ⟨st, hst, rk, hrk, active, -, hmirrors⟩
  · rw [hblank.phase .configuring] at hphase
    cases hphase
  · exact ⟨st, hst, rk, hrk, active, hmirrors⟩

end RedkeyOperator.Protocol

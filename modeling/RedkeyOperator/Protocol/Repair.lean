import RedkeyOperator.Controller.Sent
import RedkeyOperator.Protocol.Convergence
import RedkeyOperator.Protocol.Provision

/-! # Robin's objects are repaired for good

However Robin's objects are found, one Reconcile without failures puts them in
place. Later ones read no older spec than that one did, so what they write for
Robin is made from the same spec, and they have no reason to delete anything:
from then on the objects stay in place, through failures, crashes and late caches. -/
namespace RedkeyOperator.Protocol
open RedkeyOperator.Api RedkeyOperator.Kube RedkeyOperator.Interleave RedkeyOperator.Controller

variable {T : Terms server} {req : NamespacedName} {w₀ w w' u : World} {p q : Point}
  {v v' : Provision} {r : RedkeyReconciler} {rk : Redkey}

/-- The four objects are stored, and Reconcile finds no drift in any of them. -/
def InPlace (rk : Redkey) (st : Store) : Prop :=
  ∀ k, ∃ o, st.robin k (robinKey rk) = some o ∧ drifted rk k o = false

theorem InPlace.congr {rk' : Redkey} {st : Store} (h : InPlace rk st) (hk : rk.key = rk'.key)
    (hs : rk.spec = rk'.spec) : InPlace rk' st := by
  intro k
  obtain ⟨o, ho, hd⟩ := h k
  refine ⟨o, ?_, drifted_congr hk hs k o ▸ hd⟩
  rw [← ho, robinKey, robinKey, robinName, robinName, hk]

theorem InPlace.of_robin {st st' : Store} (h : InPlace rk st) (hr : st'.robin = st.robin) :
    InPlace rk st' := by
  intro k
  rw [hr]
  exact h k

theorem InPlace.put {st : Store} (h : InPlace rk st) {k : Kind} {o : Obj k}
    (ho : drifted rk k o = false) : InPlace rk (st.setRobin k (robinKey rk) (some o)) := by
  intro k'
  by_cases hk : k' = k
  · subst hk
    exact ⟨o, Store.robin_setRobin_self _ _ _ _, ho⟩
  · rw [Store.robin_setRobin_of_ne _ _ (.inl hk)]
    exact h k'

theorem InPlace.bindsRobin {st : Store} (h : InPlace rk st) : BindsRobin rk.key st := by
  intro rb hrb
  obtain ⟨o, ho, hd⟩ := h .roleBinding
  obtain rfl : o = rb := Option.some.inj (ho.symm.trans hrb)
  exact bne_eq_false_iff_eq.mp (Bool.or_eq_false_iff.mp hd).1

/-! ## What stays -/

/-- Neither is the RoleBinding replaced nor are the objects deleted. -/
def Provision.Keeping : Provision → Prop
  | .mismatched _ | .clearing _ _ => False
  | _ => True

/-- Reconciles work for the spec of `rk`, and its Robin is in place. -/
structure Maintained (rk : Redkey) (p : Point) (v : Provision) (w : World) : Prop where
  off : v = .off → p.cluster = none
  stored : ∀ cur, w.store.redkeys rk.key = some cur → cur.spec = rk.spec
  cluster : ∀ cl, v.cluster = some cl → cl.key = rk.key ∧ cl.spec = rk.spec
  kept : v.Keeping
  binds : ∀ st ∈ w.history, BindsRobin rk.key st
  place : InPlace rk w.store

/-- What is created or patched leaves the objects in place. -/
theorem Maintained.place_next {c : Call} {o : Outcome} {res : Except ApiError (Reply c)}
    (ih : Maintained rk p v w) (hok : Acceptable rk) (hv : ProvisionNext req v c res v')
    (hw : answer c o w = some (res, w')) : InPlace rk w'.store := by
  have free : ¬ RobinWrite c → InPlace rk w'.store := fun hc =>
    ih.place.of_robin (answer_robin_eq hc hw)
  -- an object that is there is not created
  have create : ∀ {cl : Redkey} {k : Kind} {res : Except ApiError Unit}, cl.key = rk.key →
      answer (.write (.create k (desiredObject cl k))) o w = some (res, w') →
      InPlace rk w'.store := by
    intro cl k res hkey hw
    obtain ⟨rfl, -⟩ | ⟨st, hst, -⟩ := answer_write hw
    · exact ih.place
    · obtain ⟨x, hx, -⟩ := ih.place k
      obtain ⟨hnone, -⟩ := apply_create hst
      rw [(metadata_desiredObject cl k).1, robinKey_eq hkey] at hnone
      rw [robinKey_eq rfl, hnone] at hx
      cases hx
  cases hv with
  | pass _ hc => exact free hc
  | get => exact free id
  | missing => exact free id
  | found => exact free id
  | mismatch => exact free id
  | create => exact create (ih.cluster _ rfl).1 hw
  | createFailed => exact create (ih.cluster _ rfl).1 hw
  | @patch cl there k x res he hx =>
    obtain ⟨hkey, hspec⟩ := ih.cluster _ rfl
    obtain ⟨rfl, -⟩ | ⟨st, hst, rfl, -⟩ := answer_write hw
    · exact ih.place
    · obtain ⟨stored, hs, rfl⟩ := apply_patch hst
      obtain ⟨y, hy, hd⟩ := ih.place k
      rw [hx, robinKey_eq hkey] at hs
      rw [robinKey_eq rfl] at hy
      obtain rfl : y = stored := Option.some.inj (hy.symm.trans hs)
      rw [World.store_commit, hx, robinKey_eq hkey, ← (robinKey_eq rfl : robinKey rk = _)]
      refine ih.place.put ?_
      rw [drifted_congr hkey.symm hspec.symm] at hd ⊢
      exact (hok.congr hkey.symm hspec.symm).drifted_patched hd he
  | replace => exact ih.kept.elim
  | delete => exact ih.kept.elim
  | failed => exact ih.kept.elim

/-- The Redkey that a Reconcile reads has the current spec. -/
theorem Maintained.read {cl : Redkey} {o : Outcome} (ih : Maintained rk p .off w)
    (hkey : rk.key = req) (hr : Runs T req w₀ p w) (hn : Newborn req w₀) (ha : Asked req w)
    (hq : Next req p (.getRedkey req) (.ok cl) q) (ok : T.call (.getRedkey req) o w = true)
    (hw : answer (.getRedkey req) o w = some (.ok cl, w')) :
    q.cluster = some cl ∧ cl.key = rk.key ∧ cl.spec = rk.spec := by
  have hr' : Runs T req w₀ q w' := .call _ o _ hr hq ok hw
  have hv := hr'.versions hn.versions
  have hcl : q.cluster = some cl := by
    cases hq with
    | stay _ hc => rcases hc with hc | hc <;> cases hc
    | get => rfl
    | refetch => cases ih.off rfl
  obtain ⟨cur, hcur, -, hc⟩ := ha
  have hstore : w'.store = w.store := by
    obtain ⟨i, st, -, -, rfl⟩ := answer_getRedkey_ok hw
    rfl
  have hcur' : w'.store.redkeys req = some cur := by
    rw [hstore]
    exact hcur
  have hc' : CreatedFor w' cur.generation := by
    obtain ⟨i, st, -, -, rfl⟩ := answer_getRedkey_ok hw
    exact hc
  obtain ⟨-, hspec, hk, -⟩ :=
    (hr'.leading hn).current hv (hr'.sourced hn.cursors) hcl hcur' hc'
  exact ⟨hcl, hk.trans ((hv.keyed _ _ hcur').trans hkey.symm),
    hspec.trans (ih.stored cur (hkey ▸ hcur))⟩

theorem Maintained.next {c : Call} {o : Outcome} {res : Except ApiError (Reply c)}
    (ih : Maintained rk p v w) (hkey : rk.key = req) (hok : Acceptable rk)
    (hr : Runs T req w₀ p w) (hn : Newborn req w₀) (ha : Asked req w) (hq : Next req p c res q)
    (hv : ProvisionNext req v c res v') (ok : T.call c o w = true)
    (hw : answer c o w = some (res, w')) : Maintained rk q v' w' := by
  have hplace := ih.place_next hok hv hw
  have hstored : ∀ cur, w'.store.redkeys rk.key = some cur → cur.spec = rk.spec := by
    intro cur hcur
    obtain ⟨cur₀, hcur₀, hs⟩ :=
      (hq.issues.effect ok hw).spec (hr.versions hn.versions) (hkey ▸ hcur)
    exact hs.trans (ih.stored cur₀ (hkey ▸ hcur₀))
  have hbinds : ∀ st ∈ w'.history, BindsRobin rk.key st := by
    intro st hst
    obtain hst | rfl := (answer_extends hw).mem hst
    · exact ih.binds st hst
    · exact hplace.bindsRobin
  cases hv with
  | pass hu hc =>
    refine ⟨fun hoff => ?_, hstored, ih.cluster, ih.kept, hbinds, hplace⟩
    -- a call that is free does not read the Redkey
    cases hqc : q.cluster with
    | none => rfl
    | some cl =>
      rcases hq.cluster hqc with hp | ⟨rfl, rfl⟩
      · rw [← hp]
        exact ih.off hoff
      · rcases hu with hu | hu
        · exact absurd hoff hu
        · cases hq with
          | get => cases hu
  | get =>
    obtain ⟨-, hk, hs⟩ := ih.read hkey hr hn ha hq ok hw
    refine ⟨fun h => (by cases h), hstored, fun cl h => ?_, trivial, hbinds, hplace⟩
    cases h
    exact ⟨hk, hs⟩
  | mismatch hne =>
    obtain ⟨st, hst, hrb⟩ := answer_get_ok hw
    obtain ⟨hk, -⟩ := ih.cluster _ rfl
    rw [robinKey_eq hk] at hrb
    refine absurd ((ih.binds st hst _ hrb).trans ?_) hne
    rw [← hk]
    rfl
  | replace => exact ih.kept.elim
  | delete => exact ih.kept.elim
  | failed => exact ih.kept.elim
  | missing =>
    exact ⟨fun h => (by cases h), hstored, fun _ h => (by cases h), trivial, hbinds, hplace⟩
  | _ => exact ⟨fun h => (by cases h), hstored, ih.cluster, trivial, hbinds, hplace⟩

/-- From a world in which no Reconcile is under way: the objects stay in place as
long as the spec stays as it is. -/
theorem Built.maintained (h₀ : Runs protocol req w₀ .idle w) (hf : Fresh req w₀)
    (ha : Asked req w) (hrk : w.store.redkeys req = some rk) (hok : Acceptable rk)
    (hb : ∀ st ∈ w.history, BindsRobin req st) (hplace : InPlace rk w.store)
    (h : Built (protocol.and (specUnchanged req)) req w p v u) : Maintained rk p v u := by
  have hkey : rk.key = req := (h₀.versions hf.versions).keyed _ _ hrk
  have hpos : rk.spec.primaries ≠ 0 := by
    obtain ⟨cur, hcur, hpos, -⟩ := ha
    obtain rfl := Option.some.inj (hcur.symm.trans hrk)
    exact hpos.ne'
  have hall : ∀ {p : Point} {v : Provision} {u : World},
      Built (protocol.and (specUnchanged req)) req w p v u → Runs protocol req w₀ p u :=
    fun h => h₀.trans (h.runs.weaken (Terms.and_left _ _))
  refine h.induct ?_ ?_ ?_ ?_ ?_ ?_
  · refine ⟨fun _ => rfl, fun cur hcur => ?_, fun _ h => (by cases h), trivial, hkey.symm ▸ hb,
      hplace⟩
    rw [hkey] at hcur
    rw [Option.some.inj (hcur.symm.trans hrk)]
  · intro p v e u u' hrun ih ok he
    have hplace' := ih.place.of_robin (env_robin_eq he)
    refine ⟨ih.off, fun cur hcur => ?_, ih.cluster, ih.kept, fun st hst => ?_, hplace'⟩
    · have hv := (hall hrun).versions hf.versions
      have ok := (Terms.and_right protocol (specUnchanged req)).env _ _ ok
      cases e with
      | update key spec =>
        obtain ⟨rk', hrk', -, rfl⟩ := env_update he
        have hne : key ≠ req := by simpa [specUnchanged] using ok
        rw [hkey] at hcur
        obtain ⟨-, hreq⟩ | hreq := hv.store_update hrk' (precedes_withSpec _ _) hcur
        · exact absurd ((hv.keyed _ _ hrk').symm.trans (hv.keyed _ _ hreq)) hne
        · exact ih.stored cur (hkey ▸ hreq)
      | robin key s =>
        obtain ⟨c, -, rfl⟩ := env_robin he
        exact ih.stored cur hcur
      | collect key => cases ok
    · obtain hst | rfl := (env_extends he).mem hst
      · exact ih.binds st hst
      · exact hplace'.bindsRobin
  · intro p v u ih
    exact ⟨fun _ => rfl, ih.stored, fun _ h => (by cases h), trivial, ih.binds, ih.place⟩
  · intro p q v u hrun ih hq
    refine ⟨fun hoff => ?_, ih.stored, ih.cluster, ih.kept, ih.binds, ih.place⟩
    cases hqc : q.cluster with
    | none => rfl
    | some cl =>
      rw [← hq.cluster hqc]
      exact ih.off hoff
  · intro p v v' u ih hs
    cases hs with
    | clear h0 => exact absurd ((ih.cluster _ rfl).2 ▸ h0) hpos
  · intro p q v v' u u' c o res hrun ih hq hn ok hw
    have ha' := h₀.asked hf ha hrun.runs
    exact ih.next hkey hok (hall hrun) hf.toNewborn ha' hq hn
      ((Terms.and_left protocol (specUnchanged req)).call _ _ _ ok) hw

/-! ## Repair -/

/-- A Reconcile without failures puts the objects in place. -/
theorem inPlace_of_reconcile {a : Result} (hrk : w.store.redkeys req = some rk)
    (hpos : 0 < rk.spec.primaries) (hok : Acceptable rk)
    (hx : Exec flawless (reconcile r req) (enter w) (.ok a) u) : InPlace rk u.store := by
  intro k
  have hrk' : (enter w).store.redkeys req = some rk := hrk
  exact ⟨_, robin_reconcile hrk' hpos.ne' (hx.mono flawless_current) k, hok.drifted_mended k _⟩

theorem built_from {U : Terms server} {s₀ : State server Result}
    {b : Behaviour T (reconcile r req) s₀} {m n : Nat} (hk : b.KeepsTo U m) (hmn : m ≤ n)
    {a : Result} (hm : (b.state m).running = some (.ret a)) :
    ∃ p v, Built U req (b.state m).world p v (b.state n).world := by
  have h := Behaviour.reaches_from hk hmn
  obtain ⟨w, running, hw⟩ : ∃ w running, b.state m = ⟨w, running⟩ := ⟨_, _, rfl⟩
  rw [hw] at h hm ⊢
  cases hm
  obtain ⟨running, hr, -⟩ := h.after_ret
  obtain ⟨p, v, hrun⟩ := reconcile_built hr
  exact ⟨p, v, hrun⟩

/-- In a run that goes on for ever in which the user leaves a spec with primaries
alone from some point on, and now and then a Reconcile runs to its end undisturbed,
all its calls answered and from the current store: Robin's objects, whatever was
found of them, come to be as the spec asks for and stay so. -/
theorem robin_is_repaired (hf : Fresh req w₀) (hb : BindsRobin req w₀.store)
    (b : Behaviour protocol (reconcile r req) ⟨w₀, none⟩) {N : Nat} (hk : SpecKept b N)
    (hpos : ∀ rk, (b.state N).world.store.redkeys req = some rk → 0 < rk.spec.primaries)
    (hok : ∀ rk, (b.state N).world.store.redkeys req = some rk → Acceptable rk)
    (hop : OperatorIsFair b) :
    ∃ K, ∀ n, K ≤ n → ∃ rk, (b.state n).world.store.redkeys req = some rk ∧
      RbacInPlace rk (b.state n).world.store ∧
      ∃ d : Deployment, (b.state n).world.store.robin .deployment (robinKey rk) = some d ∧
        robinDeploymentNeedsUpdate d (buildDesiredRobinDeployment rk) = false := by
  have hterms := keepsTo_of_specKept .refl hf hk
  have hidle := runs_idle .refl b
  obtain ⟨m, k, a, hm, hc⟩ := hop N
  have hNk : N ≤ k := hm.trans hc.lt.le
  obtain ⟨rk, hrk, -⟩ := ((hidle m).versions hf.versions).current
  obtain ⟨rk₀, hrk₀, hsp⟩ := spec_kept .refl hf hk hm rk hrk
  have hkey := ((hidle m).versions hf.versions).keyed _ _ hrk
  have hkey₀ := ((hidle N).versions hf.versions).keyed _ _ hrk₀
  have hpos' : 0 < rk.spec.primaries := hsp ▸ hpos rk₀ hrk₀
  have hok' : Acceptable rk := (hok rk₀ hrk₀).congr (hkey₀.trans hkey.symm) hsp.symm
  have hexec := hc.exec.2
  -- the undisturbed Reconcile puts the objects in place
  have hplace := inPlace_of_reconcile hrk hpos' hok' hexec
  have hasked := asked_of_reconcile (hidle m) hf (hidle k) hrk hpos' hexec
  obtain ⟨rk₁, hrk₁, -⟩ := ((hidle k).versions hf.versions).current
  obtain ⟨rk₂, hrk₂, hsp₁⟩ := spec_kept .refl hf hk hNk rk₁ hrk₁
  obtain rfl := Option.some.inj (hrk₂.symm.trans hrk₀)
  have hkey₁ := ((hidle k).versions hf.versions).keyed _ _ hrk₁
  have hbinds : ∀ st ∈ (b.state k).world.history, BindsRobin req st := by
    obtain ⟨⟨p, u⟩, hrun, -⟩ :=
      ((along_reconcile r req).prod (keeps_reconcile r req)).reaches rfl (b.reaches .refl k)
    exact (Tended.tending hrun hf.toNewborn hb).binds
  refine ⟨k, fun n hn => ?_⟩
  -- and they stay there
  obtain ⟨p, v, hrun⟩ := built_from (fun i hi => hterms i (hNk.trans hi)) hn hc.returned
  have hmain := hrun.maintained (hidle k) hf hasked hrk₁
    (hok'.congr (hkey.trans hkey₁.symm) (hsp.trans hsp₁.symm)) hbinds
    (hplace.congr (hkey.trans hkey₁.symm) (hsp.trans hsp₁.symm))
  obtain ⟨cur, hcur, -⟩ := ((hidle n).versions hf.versions).current
  have hkeyc := ((hidle n).versions hf.versions).keyed _ _ hcur
  have hfinal : InPlace cur (b.state n).world.store :=
    hmain.place.congr (hkey₁.trans hkeyc.symm) (hmain.stored cur (hkey₁.symm ▸ hcur)).symm
  refine ⟨cur, hcur, rbacInPlace_iff.mpr fun k _ => hfinal k, hfinal .deployment⟩

theorem acceptable_sampleRedkey (n : Nat) : Acceptable (sampleRedkey n) where
  distinct := by rfl
  unclaimed := by rfl

theorem robin_is_repaired_sample :
    ∃ b : Behaviour protocol sampleReconcile ⟨sampleWorld 3, none⟩,
      SpecKept b 0 ∧ OperatorIsFair b ∧
        ∃ K, ∀ n, K ≤ n → ∃ rk, (b.state n).world.store.redkeys sampleKey = some rk ∧
          RbacInPlace rk (b.state n).world.store ∧
          ∃ d : Deployment, (b.state n).world.store.robin .deployment (robinKey rk) = some d ∧
            robinDeploymentNeedsUpdate d (buildDesiredRobinDeployment rk) = false := by
  have hf := fresh_sampleWorld 3
  obtain ⟨b, hb⟩ := exists_fairly (r := ⟨60⟩) hf (T := protocol) .refl (.refl protocol)
    fun t ht => (fairly_step hf ht).1
  have hk := specKept_fairly hb
  have hop := operatorIsFair_fairly .refl hf hb
  refine ⟨b, hk, hop, robin_is_repaired hf (bare_sampleWorld 3).bindsRobin b hk ?_ ?_ hop⟩
  · intro rk hrk
    rw [b.init] at hrk
    cases (redkeys_sampleWorld 3).symm.trans hrk
    decide
  · intro rk hrk
    rw [b.init] at hrk
    cases (redkeys_sampleWorld 3).symm.trans hrk
    exact acceptable_sampleRedkey 3

end RedkeyOperator.Protocol

import ContentSecurity.Proofs.Deployment.Pass
import ContentSecurity.Proofs.Store.Conformance

/-!
The history of a deployment. What is asked of it is carried out or refused, one thing after the other,
and only a reload that is not refused replaces the base. So the base is what the site's policies that
were accepted last make of it, and every reply is the reply of a deployment that has just been started
with them.
-/
namespace ContentSecurity

/-- What can be asked of a deployment. -/
inductive Ask where
  | compile (recorded : Option Amendments)
  | base
  | reload (site : SitePolicies)
  | reloadText (text : String)
  | pass (exchange : Exchange)
  | resetCounters

inductive Reply where
  | compiled (result : Except Refusal Store)
  | base (store : Store)
  | reloaded (result : Except Refusal Unit)
  | passed (result : Except PassError Response)
  | countersReset

/-- The policies with which a reload is asked for, or why they cannot be read. -/
def Ask.site? : Ask → Option (Except Refusal SitePolicies)
  | reload site => some (.ok site)
  | reloadText text => some (SitePolicies.parse text)
  | _ => none

/-- What has been asked, with the reply to it. -/
structure Answered where
  ask : Ask
  reply : Reply

/-- The policies that a reload has put in force, unless it was refused or no reload at all. -/
def Answered.accepted? (answered : Answered) : Option SitePolicies :=
  match answered.reply with
  | .reloaded (.ok ()) => answered.ask.site?.bind Except.toOption
  | _ => none

/-- The policies that were accepted last, if any have been since the first. -/
def SitePolicies.inForce (first : SitePolicies) (history : List Answered) : SitePolicies :=
  (history.filterMap Answered.accepted?).getLast?.getD first

theorem SitePolicies.inForce_cons (first : SitePolicies) (answered : Answered)
    (history : List Answered) :
    first.inForce (answered :: history) = (answered.accepted?.getD first).inForce history := by
  rw [inForce, inForce, List.filterMap_cons]
  cases answered.accepted? with
  | none => rfl
  | some accepted => rw [List.getLast?_cons, Option.getD_some, Option.getD_some]

/-- A store is made by filling it with the listed values and then laying down the reach. -/
theorem SitePolicies.exists_filled_of_store {site : SitePolicies} {vocabulary : Vocabulary}
    {store : Store} (h : site.store vocabulary = .ok store) :
    ∃ filled, Store.ofValues vocabulary site.enforced site.reported = .ok filled ∧
      store = filled.withReach site.reach := by
  rw [SitePolicies.store] at h
  cases hv : Store.ofValues vocabulary site.enforced site.reported with
  | error refusal =>
    rw [hv] at h
    cases h
  | ok filled =>
    rw [hv] at h
    cases h
    exact ⟨filled, rfl, rfl⟩

theorem SitePolicies.reachable_of_store {site : SitePolicies} {vocabulary : Vocabulary}
    {store : Store} (h : site.store vocabulary = .ok store) : store.Reachable vocabulary := by
  obtain ⟨filled, hfilled, rfl⟩ := exists_filled_of_store h
  exact ⟨filled, [.setReach site.reach], .ofValues _ _ _ hfilled, rfl⟩

/-- Building a store keeps the vocabulary, and the reach is the one laid down. -/
theorem SitePolicies.kept_of_store {site : SitePolicies} {vocabulary : Vocabulary} {store : Store}
    (h : site.store vocabulary = .ok store) :
    store.vocabulary = vocabulary ∧ store.reach = site.reach := by
  refine ⟨((Policy.conforms_kept vocabulary).reachable (reachable_of_store h)).1, ?_⟩
  obtain ⟨filled, -, rfl⟩ := exists_filled_of_store h
  rfl

def Outcome.map {α β : Type} (f : α → β) (outcome : Outcome α) : Outcome β :=
  ⟨f outcome.result, outcome.after, outcome.events⟩

namespace Deployment

def answer (deployment : Deployment) : Ask → Outcome Reply
  | .compile recorded => (deployment.compile recorded).map .compiled
  | .base => ⟨.base deployment.base, deployment, []⟩
  | .reload site => (deployment.reload site).map .reloaded
  | .reloadText text => (deployment.reloadText text).map .reloaded
  | .pass exchange => (deployment.pass exchange).map .passed
  | .resetCounters => ⟨.countersReset, deployment.resetCounters, []⟩

def reply (deployment : Deployment) (ask : Ask) : Reply :=
  (deployment.answer ask).result

def after (deployment : Deployment) (ask : Ask) : Deployment :=
  (deployment.answer ask).after

def answered (deployment : Deployment) (ask : Ask) : Answered :=
  ⟨ask, deployment.reply ask⟩

def run (deployment : Deployment) : List Ask → Deployment
  | [] => deployment
  | ask :: rest => (deployment.after ask).run rest

/-- All that is asked one thing after the other, each with the reply to it. -/
def history (deployment : Deployment) : List Ask → List Answered
  | [] => []
  | ask :: rest => deployment.answered ask :: (deployment.after ask).history rest

/-! ## One step -/

/-- The base alone decides the reply. -/
theorem reply_congr {deployment other : Deployment} (h : deployment.base = other.base) :
    deployment.reply = other.reply := by
  obtain ⟨base, counters⟩ := deployment
  obtain ⟨base', counters'⟩ := other
  obtain rfl : base = base' := h
  have hreload (site : SitePolicies) : (reload ⟨base, counters⟩ site).result =
      (reload ⟨base, counters'⟩ site).result := by
    simp only [reload]
    cases site.store base.vocabulary <;> rfl
  funext ask
  cases ask with
  | compile recorded => cases recorded <;> rfl
  | base => rfl
  | reload site => exact congrArg Reply.reloaded (hreload site)
  | reloadText text =>
    simp only [reply, answer, reloadText, Outcome.map]
    cases SitePolicies.parse text with
    | error refusal => rfl
    | ok site => exact congrArg Reply.reloaded (hreload site)
  | pass exchange =>
    simp only [reply, answer, Outcome.map, result_pass]
    rfl
  | resetCounters => rfl

theorem start_eq_ok_iff (site : SitePolicies) (vocabulary : Vocabulary) (deployment : Deployment) :
    start site vocabulary = .ok deployment ↔
      site.store vocabulary = .ok deployment.base ∧ deployment.counters = .zero := by
  obtain ⟨base, counters⟩ := deployment
  rw [start]
  cases site.store vocabulary <;> simp [Except.map, eq_comm]

/-- How a reload ends, given what comes of starting a deployment with its policies. -/
def Reloads (deployment : Deployment) (ask : Ask) : Except Refusal Deployment → Prop
  | .error refusal => deployment.reply ask = .reloaded (.error refusal) ∧
      deployment.after ask = deployment
  | .ok fresh => deployment.reply ask = .reloaded (.ok ()) ∧
      (deployment.after ask).base = fresh.base

/-- A reload is accepted as soon as a deployment starts with its policies. Otherwise it is refused for
the same reason, and leaves the deployment as it was. -/
theorem reloads_of_site? (deployment : Deployment) {ask : Ask} {asked : Except Refusal SitePolicies}
    (h : ask.site? = some asked) :
    deployment.Reloads ask (asked.bind (start · deployment.base.vocabulary)) := by
  have hreload (site : SitePolicies) : deployment.Reloads (.reload site)
      (start site deployment.base.vocabulary) := by
    simp only [start]
    cases hs : site.store deployment.base.vocabulary <;>
      simp [Reloads, reply, after, answer, Outcome.map, reload, hs, Except.map]
  cases ask with
  | reload site =>
    cases h
    exact hreload site
  | reloadText text =>
    cases h
    cases hp : SitePolicies.parse text with
    | error refusal =>
      simp [Except.bind, Reloads, reply, after, answer, Outcome.map, reloadText, hp]
    | ok site =>
      -- Once the text has been read, it is a reload like any other.
      have hsame : deployment.answer (.reloadText text) = deployment.answer (.reload site) := by
        simp only [answer, reloadText, hp]
      simpa only [Except.bind, Reloads, reply, after, hsame] using hreload site
  | _ => cases h

/-- Where nothing is accepted the base stays, and where a site's policies are, it is what they make. -/
theorem base_after (deployment : Deployment) (ask : Ask) :
    match (deployment.answered ask).accepted? with
    | none => (deployment.after ask).base = deployment.base
    | some site => site.store deployment.base.vocabulary = .ok (deployment.after ask).base := by
  cases ha : ask.site? with
  | none =>
    cases ask with
    | pass exchange => exact deployment.base_pass exchange
    | reload site => cases ha
    | reloadText text => cases ha
    | _ => rfl
  | some asked =>
    have hreloads := deployment.reloads_of_site? ha
    simp only [Answered.accepted?, answered, ha]
    cases hs : asked.bind (start · deployment.base.vocabulary) with
    | error refusal =>
      rw [hs] at hreloads
      rw [hreloads.1]
      exact congrArg base hreloads.2
    | ok fresh =>
      rw [hs] at hreloads
      cases asked with
      | error refusal => cases hs
      | ok site =>
        rw [hreloads.1, hreloads.2]
        exact ((start_eq_ok_iff _ _ _).1 hs).1

/-! ## Runs -/

/-- The base is what the site's policies make. -/
def Serves (deployment : Deployment) (vocabulary : Vocabulary) (site : SitePolicies) : Prop :=
  site.store vocabulary = .ok deployment.base

section Serves

variable {deployment : Deployment} {vocabulary : Vocabulary} {site : SitePolicies}
  (h : deployment.Serves vocabulary site)

include h

theorem Serves.after (ask : Ask) :
    (deployment.after ask).Serves vocabulary
      ((deployment.answered ask).accepted?.getD site) := by
  have hbase := deployment.base_after ask
  cases ha : (deployment.answered ask).accepted? with
  | none =>
    rw [ha] at hbase
    exact h.trans (congrArg Except.ok hbase.symm)
  | some accepted =>
    rw [ha, (SitePolicies.kept_of_store h).1] at hbase
    exact hbase

theorem Serves.run (asks : List Ask) :
    (deployment.run asks).Serves vocabulary (site.inForce (deployment.history asks)) := by
  -- What the first reply accepts takes the place of the site for the rest.
  induction asks generalizing deployment site with
  | nil => exact h
  | cons ask rest ih =>
    rw [history, SitePolicies.inForce_cons]
    exact ih (h.after ask)

end Serves

/-- Where nothing is accepted, whatever is asked next gets the reply that it would have got at once. -/
theorem answered_after (deployment : Deployment) {ask : Ask}
    (h : (deployment.answered ask).accepted? = none) :
    (deployment.after ask).answered = deployment.answered := by
  have hbase := deployment.base_after ask
  rw [h] at hbase
  funext other
  rw [answered, answered, reply_congr hbase]

theorem history_eq_map (deployment : Deployment) {asks : List Ask}
    (h : ∀ ask ∈ asks, (deployment.answered ask).accepted? = none) :
    deployment.history asks = asks.map deployment.answered := by
  induction asks generalizing deployment with
  | nil => rfl
  | cons ask rest ih =>
    rw [List.forall_mem_cons] at h
    have hsame := deployment.answered_after h.1
    rw [history, ih _ (by rw [hsame]; exact h.2), hsame, List.map_cons]

/-- If nothing has been accepted one after the other, nothing would have been at once. -/
theorem accepted?_eq_none_of_history (deployment : Deployment) {asks : List Ask}
    (h : ∀ answered ∈ deployment.history asks, answered.accepted? = none) :
    ∀ ask ∈ asks, (deployment.answered ask).accepted? = none := by
  induction asks generalizing deployment with
  | nil => simp
  | cons ask rest ih =>
    rw [history, List.forall_mem_cons] at h
    have hrest := ih _ h.2
    rw [deployment.answered_after h.1] at hrest
    exact List.forall_mem_cons.2 ⟨h.1, hrest⟩

end Deployment

/-- After whatever has been asked, the base is that of a deployment started with the site's policies that
were accepted last, and so is every reply. A reload is accepted just when a deployment starts with its
policies; else it leaves everything as it was. And as long as no reload is accepted, what is asked may come
in any order, each with the reply that it would have got at once. -/
theorem history_leaves_last_accepted_site (vocabulary : Vocabulary) (site : SitePolicies)
    (start : Deployment) (h : Deployment.start site vocabulary = .ok start) (asks : List Ask) :
    let now := start.run asks
    let inForce := site.inForce (start.history asks)
    (∃ fresh, Deployment.start inForce vocabulary = .ok fresh ∧ now.base = fresh.base ∧
      now.base.reach = inForce.reach ∧ ∀ ask, now.reply ask = fresh.reply ask) ∧
    (∀ (ask : Ask) asked, ask.site? = some asked →
      now.Reloads ask (asked.bind (Deployment.start · vocabulary))) ∧
    ∀ between others, (∀ answered ∈ now.history between, answered.accepted? = none) →
      others.Perm between → now.history others = others.map now.answered := by
  intro now inForce
  have hserves : start.Serves vocabulary site := ((Deployment.start_eq_ok_iff _ _ _).1 h).1
  have hnow : inForce.store vocabulary = .ok now.base := hserves.run asks
  obtain ⟨hvocabulary, hreach⟩ := SitePolicies.kept_of_store hnow
  refine ⟨⟨⟨now.base, .zero⟩, ?_, rfl, hreach, ?_⟩, ?_, ?_⟩
  · exact (Deployment.start_eq_ok_iff _ _ _).2 ⟨hnow, rfl⟩
  · exact congrFun (Deployment.reply_congr rfl)
  · intro ask asked ha
    rw [← hvocabulary]
    exact now.reloads_of_site? ha
  · intro between others hnone hperm
    refine now.history_eq_map fun ask hask => ?_
    exact now.accepted?_eq_none_of_history hnone ask (hperm.mem_iff.1 hask)

/-- Two reloads are refused, one for its text, and a compilation as well. The policies of the one between
them are in force, and removals reach as far as they say. -/
theorem history_leaves_last_accepted_site_after_refusals :
    let first : SitePolicies := ⟨⟨[("default-src", ["self"])], by decide⟩, ∅, .ownScope⟩
    let second : SitePolicies :=
      ⟨⟨[("img-src", ["*"])], by decide⟩, ⟨[("img-src", ["self"])], by decide⟩, .bothPolicies⟩
    let unfit : SitePolicies := ⟨⟨[("img-src", ["*", "self"])], by decide⟩, ∅, .ownScope⟩
    let amendments : Amendments := ⟨some "all", ∅, ⟨[("all", ∅)], by decide⟩⟩
    let asks : List Ask := [.reload unfit, .reload second, .compile (some amendments), .reloadText ""]
    ∃ start fresh, Deployment.start first .csp1 = .ok start ∧
      Deployment.start second .csp1 = .ok fresh ∧
      (start.run asks).base = fresh.base ∧ (start.run asks).base.reach = .bothPolicies ∧
      (start.run asks).history [.compile none, .reload unfit, .base] =
        [.compile none, .reload unfit, .base].map fresh.answered := by
  intro first second unfit amendments asks
  obtain ⟨start, hstart⟩ : ∃ start, Deployment.start first .csp1 = .ok start := ⟨_, rfl⟩
  obtain ⟨⟨fresh, hfresh, hbase, hreach, hreply⟩, -, horder⟩ :=
    history_leaves_last_accepted_site .csp1 first start hstart asks
  have hforce : first.inForce (start.history asks) = second := by
    cases hstart
    decide
  rw [hforce] at hfresh hreach
  have hnone : ∀ answered ∈ (start.run asks).history [.reload unfit, .compile none, .base],
      answered.accepted? = none := by
    cases hstart
    decide
  refine ⟨start, fresh, hstart, hfresh, hbase, hreach, ?_⟩
  rw [horder _ _ hnone (.swap _ _ _)]
  exact List.map_congr_left fun ask _ => congrArg (Answered.mk ask) (hreply ask)

end ContentSecurity

import ContentSecurity.Proofs.Deployment.Headers
import Mathlib.Logic.Function.Basic

/-!
Deployments that share one set of counters. Whatever is asked of one of them ends in one of a few ways, and
the ending alone says how the counters move. So in the end they hold what the endings since the last reset
come to.
-/
namespace ContentSecurity

/-- How many policies of a store have directives. -/
def Store.written (store : Store) : Nat :=
  (if store.enforced.isEmpty then 0 else 1) + if store.reported.isEmpty then 0 else 1

theorem Store.written_le (store : Store) : store.written ≤ 2 := by
  rw [written]
  split <;> split <;> decide

/-- There is one header for each policy that has directives. -/
theorem Store.length_headers {store : Store} {names : HeaderNames}
    {headers : List (String × FieldValue)} (h : store.headers names = .ok headers) :
    headers.length = store.written := by
  have hlength {policy : Policy} {entry : Option FieldValue} (hp : policy.fieldValue = .ok entry) :
      entry.toList.length = if policy.isEmpty then 0 else 1 := by
    have hentry := (policy.fieldValue_eq_ok_iff entry).1 hp
    split at hentry
    · next hempty => rw [hentry, if_pos hempty, Option.toList_none, List.length_nil]
    · next hfull =>
      obtain ⟨value, rfl, -⟩ := hentry
      rw [if_neg hfull, Option.toList_some, List.length_singleton]
  simp only [Store.headers, bind, Except.bind] at h
  cases he : store.enforced.fieldValue with
  | error refusal => simp [he] at h
  | ok enforced =>
    cases hr : store.reported.fieldValue with
    | error refusal => simp [he, hr] at h
    | ok reported =>
      simp only [he, hr] at h
      cases h
      rw [List.length_append, List.length_map, List.length_map, hlength he, hlength hr, written]

/-! ## Endings -/

/-- How something that was asked has ended, as far as it is counted. -/
inductive Ending where
  | uncounted
  | compiled (succeeded : Bool)
  | reloaded
  | reset
  /-- The service inside has failed. -/
  | serviceFailed
  /-- What had been recorded for the request was refused. -/
  | uncompiled
  /-- A policy for the request could not be written. -/
  | unwritten
  /-- The policies of the store are in the headers of the response. -/
  | served (store : Store)
  deriving DecidableEq

/-- Something that has been asked, and the deployment of which it was, as it was then. -/
structure Moment where
  deployment : Deployment
  ask : Ask

def Moment.ending (moment : Moment) : Ending :=
  match moment.deployment.reply moment.ask, moment.ask with
  | .compiled result, _ => .compiled result.isOk
  | .reloaded result, _ => if result.isOk then .reloaded else .uncounted
  | .countersReset, _ => .reset
  | .passed result, .pass exchange =>
    match exchange.answer, moment.deployment.amended exchange.recorded, result with
    | .error _, _, _ => .serviceFailed
    | .ok _, .error _, _ => .uncompiled
    | .ok _, .ok _, .error _ => .unwritten
    | .ok _, .ok store, .ok _ => .served store
  | _, _ => .uncounted

namespace Ending

/-- Passes and reloads end in these ways, as long as all policies can be written. -/
def isSettled : Ending → Bool
  | compiled _ | reset | unwritten => false
  | _ => true

def isServed : Ending → Bool
  | served _ => true
  | _ => false

/-- How many policies have gone into the headers of a response. -/
def written : Ending → Nat
  | served store => store.written
  | _ => 0

def totalWritten (endings : List Ending) : Nat :=
  endings.foldl (fun total ending => total + ending.written) 0

theorem totalWritten_concat (endings : List Ending) (ending : Ending) :
    totalWritten (endings ++ [ending]) = totalWritten endings + ending.written := by
  rw [totalWritten, List.foldl_append]
  rfl

end Ending

namespace Counters

def count (counters : Counters) : Ending → Counters
  | .uncounted => counters
  | .compiled succeeded => counters.countCompile succeeded
  | .reloaded => counters.countUpdate
  | .reset => .zero
  | .serviceFailed => counters.countRequest
  | .uncompiled => counters.countRequest.countCompile false
  | .unwritten => counters.countRequest.countCompile true
  | .served store => (counters.countRequest.countCompile true).countPass store.written

/-- What the counters never leave, whatever is asked. -/
structure Balanced (counters : Counters) : Prop where
  compiles : counters.failures + counters.timed ≤ counters.compiles
  requests : counters.timed ≤ counters.requests
  headers : counters.headers ≤ 2 * counters.timed

theorem balanced_zero : zero.Balanced := by
  constructor <;> decide

theorem Balanced.count {counters : Counters} (h : counters.Balanced) (ending : Ending) :
    (counters.count ending).Balanced := by
  obtain ⟨hcompiles, hrequests, hheaders⟩ := h
  cases ending with
  | reset => exact balanced_zero
  | compiled succeeded =>
    cases succeeded <;> constructor <;> simp [Counters.count, countCompile] <;> omega
  | served store =>
    have hwritten := store.written_le
    constructor <;> simp [Counters.count, countRequest, countCompile, countPass] <;> omega
  | _ =>
    constructor <;> simp [Counters.count, countRequest, countCompile, countUpdate] <;> omega

/-- What the counters say about the endings since the last reset, as long as nothing but reloads and passes
has been asked for. -/
structure Accounts (counters : Counters) (endings : List Ending) : Prop where
  requests : counters.requests = endings.count .serviceFailed + counters.failures + counters.timed
  compiles : counters.compiles = counters.failures + counters.timed
  failures : counters.failures = endings.count .uncompiled
  timed : counters.timed = endings.countP Ending.isServed
  headers : counters.headers = Ending.totalWritten endings
  updates : counters.updates = endings.count .reloaded

theorem accounts_zero : zero.Accounts [] :=
  ⟨rfl, rfl, rfl, rfl, rfl, rfl⟩

/-- Each ending is counted for what it is. -/
theorem Accounts.count {counters : Counters} {endings : List Ending} (h : counters.Accounts endings)
    {ending : Ending} (hs : ending.isSettled = true) :
    (counters.count ending).Accounts (endings ++ [ending]) := by
  obtain ⟨hrequests, hcompiles, hfailures, htimed, hheaders, hupdates⟩ := h
  cases ending with
  | compiled succeeded => cases hs
  | reset => cases hs
  | unwritten => cases hs
  | _ =>
    constructor <;>
      simp [Counters.count, countRequest, countCompile, countPass, countUpdate, List.count_append,
        Ending.isServed, Ending.totalWritten_concat, Ending.written] <;> omega

/-! ## Ending after ending -/

theorem Balanced.foldl {counters : Counters} (h : counters.Balanced) (endings : List Ending) :
    (endings.foldl Counters.count counters).Balanced := by
  induction endings generalizing counters with
  | nil => exact h
  | cons ending rest ih => exact ih (h.count ending)

theorem Accounts.foldl {counters : Counters} {past endings : List Ending}
    (h : counters.Accounts past) (hs : ∀ ending ∈ endings, ending.isSettled = true) :
    (endings.foldl Counters.count counters).Accounts (past ++ endings) := by
  induction endings generalizing counters past with
  | nil => rwa [List.append_nil]
  | cons ending rest ih =>
    rw [List.forall_mem_cons] at hs
    rw [List.append_cons]
    exact ih (h.count hs.1) hs.2

end Counters

/-! ## One step -/

namespace Deployment

theorem counters_pass (deployment : Deployment) (exchange : Exchange) :
    (deployment.pass exchange).after.counters =
      deployment.counters.count (Moment.ending ⟨deployment, .pass exchange⟩) := by
  have hreply : deployment.reply (.pass exchange) = .passed (deployment.pass exchange).result := rfl
  simp only [Moment.ending, hreply]
  simp only [pass, compile]
  cases exchange.answer with
  | error error => rfl
  | ok response =>
    simp only [amended_eq]
    cases exchange.recorded.elim (.ok deployment.base) deployment.base.apply with
    | error refusal => rfl
    | ok store =>
      simp only
      cases hheaders : store.headers exchange.names with
      | error refusal => rfl
      | ok headers =>
        simp only [Store.length_headers hheaders]
        rfl

/-- The ending says how the counters move. -/
theorem counters_after (deployment : Deployment) (ask : Ask) :
    (deployment.after ask).counters =
      deployment.counters.count (Moment.ending ⟨deployment, ask⟩) := by
  have hreload (site : SitePolicies) : (deployment.after (.reload site)).counters =
      deployment.counters.count (Moment.ending ⟨deployment, .reload site⟩) := by
    simp only [Moment.ending, after, reply, answer, Outcome.map, reload]
    cases site.store deployment.base.vocabulary <;> rfl
  cases ask with
  | reload site => exact hreload site
  | reloadText text =>
    cases hp : SitePolicies.parse text with
    | error refusal =>
      simp only [Moment.ending, after, reply, answer, Outcome.map, reloadText, hp]
      rfl
    | ok site =>
      simpa [Moment.ending, after, reply, answer, Outcome.map, reloadText, hp] using hreload site
  | pass exchange => exact deployment.counters_pass exchange
  | _ => rfl

end Deployment

def Ask.isPassOrReload : Ask → Bool
  | pass _ | reload _ | reloadText _ => true
  | _ => false

/-- With the directives of the first standard, a pass goes through as soon as its store has been
compiled. -/
theorem Moment.isSettled_ending {moment : Moment} (h : moment.deployment.base.Reachable .csp1)
    (ha : moment.ask.isPassOrReload = true) : moment.ending.isSettled = true := by
  obtain ⟨deployment, ask⟩ := moment
  cases ask with
  | reload site =>
    simp only [ending, Deployment.reply, Deployment.answer, Outcome.map]
    split <;> rfl
  | reloadText text =>
    simp only [ending, Deployment.reply, Deployment.answer, Outcome.map]
    split <;> rfl
  | pass exchange =>
    have hresult := deployment.result_pass exchange
    simp only [ending, Deployment.reply, Deployment.answer, Outcome.map]
    rw [hresult]
    cases exchange.answer with
    | error error => rfl
    | ok response =>
      cases hstore : deployment.amended exchange.recorded with
      | error refusal => rfl
      | ok store =>
        obtain ⟨entries, -, hheaders⟩ := (Deployment.reachable_amended h hstore).headers
        simp only [Deployment.headersFor, hstore, bind, Except.bind, hheaders]
        rfl
  | _ => cases ha

/-! ## Deployments side by side -/

/-- Deployments that share their counters. -/
structure Fleet (ι : Type) where
  bases : ι → Store
  counters : Counters

namespace Fleet

variable {ι : Type}

def start (bases : ι → Store) : Fleet ι :=
  ⟨bases, .zero⟩

def deployment (fleet : Fleet ι) (index : ι) : Deployment :=
  ⟨fleet.bases index, fleet.counters⟩

/-- The bases are those of a vocabulary. -/
def Reachable (fleet : Fleet ι) (vocabulary : Vocabulary) : Prop :=
  ∀ index, (fleet.bases index).Reachable vocabulary

variable [DecidableEq ι]

/-- Asks something of one of the deployments. -/
def after (fleet : Fleet ι) (asked : ι × Ask) : Fleet ι :=
  let changed := (fleet.deployment asked.1).after asked.2
  ⟨Function.update fleet.bases asked.1 changed.base, changed.counters⟩

def run (fleet : Fleet ι) (asks : List (ι × Ask)) : Fleet ι :=
  asks.foldl after fleet

def history (fleet : Fleet ι) : List (ι × Ask) → List Moment
  | [] => []
  | asked :: rest => ⟨fleet.deployment asked.1, asked.2⟩ :: (fleet.after asked).history rest

/-- How everything that was asked has ended. -/
def endings (fleet : Fleet ι) (asks : List (ι × Ask)) : List Ending :=
  (fleet.history asks).map Moment.ending

theorem bases_after (fleet : Fleet ι) (asked : ι × Ask) (index : ι) :
    (fleet.after asked).bases index =
      if index = asked.1 then ((fleet.deployment asked.1).after asked.2).base
      else fleet.bases index :=
  Function.update_apply _ _ _ _

theorem run_append (fleet : Fleet ι) (asks more : List (ι × Ask)) :
    fleet.run (asks ++ more) = (fleet.run asks).run more :=
  List.foldl_append

/-- The endings make the counters what they are. -/
theorem counters_run (fleet : Fleet ι) (asks : List (ι × Ask)) :
    (fleet.run asks).counters = (fleet.endings asks).foldl Counters.count fleet.counters := by
  induction asks generalizing fleet with
  | nil => rfl
  | cons asked rest ih =>
    have hcounters : (fleet.after asked).counters = fleet.counters.count
        (Moment.ending ⟨fleet.deployment asked.1, asked.2⟩) :=
      (fleet.deployment asked.1).counters_after asked.2
    rw [endings, history, List.map_cons, List.foldl_cons, ← hcounters]
    exact ih (fleet.after asked)

section Reachable

variable {fleet : Fleet ι} {vocabulary : Vocabulary} (h : fleet.Reachable vocabulary)

include h

theorem Reachable.after (asked : ι × Ask) : (fleet.after asked).Reachable vocabulary := by
  intro index
  rw [bases_after]
  split
  · exact Deployment.reachable_after (h asked.1) asked.2
  · exact h index

theorem Reachable.run (asks : List (ι × Ask)) : (fleet.run asks).Reachable vocabulary := by
  induction asks generalizing fleet with
  | nil => exact h
  | cons asked rest ih => exact ih (h.after asked)

theorem Reachable.of_mem_history {asks : List (ι × Ask)} {moment : Moment}
    (hm : moment ∈ fleet.history asks) :
    moment.deployment.base.Reachable vocabulary ∧ ∃ asked ∈ asks, moment.ask = asked.2 := by
  induction asks generalizing fleet with
  | nil => cases hm
  | cons asked rest ih =>
    obtain rfl | hm := List.mem_cons.1 hm
    · exact ⟨h asked.1, asked, List.mem_cons_self, rfl⟩
    · obtain ⟨hbase, other, ho, hask⟩ := ih (h.after asked) hm
      exact ⟨hbase, other, List.mem_cons_of_mem _ ho, hask⟩

end Reachable

theorem Reachable.isSettled_endings {fleet : Fleet ι} (h : fleet.Reachable .csp1)
    {asks : List (ι × Ask)} (ha : ∀ asked ∈ asks, asked.2.isPassOrReload = true) :
    ∀ ending ∈ fleet.endings asks, ending.isSettled = true := by
  intro ending he
  obtain ⟨moment, hm, rfl⟩ := List.mem_map.1 he
  obtain ⟨hbase, asked, hasked, hask⟩ := h.of_mem_history hm
  exact Moment.isSettled_ending hbase (hask ▸ ha asked hasked)

/-- At first, and after a reset, all counters are at zero. -/
theorem counters_run_start (bases : ι → Store) {asks : List (ι × Ask)}
    (h : ∀ last ∈ asks.getLast?, last.2 = .resetCounters) :
    ((start bases).run asks).counters = .zero := by
  obtain rfl | ⟨before, last, rfl⟩ := asks.eq_nil_or_concat
  · rfl
  · have hlast : last.2 = .resetCounters := h last (by simp)
    rw [List.concat_eq_append, run_append, counters_run, endings, history, hlast]
    rfl

end Fleet

/-- The counters that deployments share never leave their balance, whatever is asked of them. And as long
as nothing but passes and reloads has been asked for since the last reset, with the directives of the first
standard, they account for each of them. -/
theorem counters_account_for_passes {ι : Type} [DecidableEq ι] (bases : ι → Store)
    (before since : List (ι × Ask)) :
    let now := ((Fleet.start bases).run before).run since
    now.counters.Balanced ∧
    ((Fleet.start bases).Reachable .csp1 → (∀ last ∈ before.getLast?, last.2 = .resetCounters) →
      (∀ asked ∈ since, asked.2.isPassOrReload = true) →
      now.counters.Accounts (((Fleet.start bases).run before).endings since)) := by
  intro now
  refine ⟨?_, fun hbases hreset hsince => ?_⟩
  · have hrun : now = (Fleet.start bases).run (before ++ since) := (Fleet.run_append _ _ _).symm
    rw [hrun, Fleet.counters_run]
    exact Counters.balanced_zero.foldl _
  · have hsettled := (hbases.run before).isSettled_endings hsince
    rw [Fleet.counters_run, Fleet.counters_run_start bases hreset]
    exact Counters.accounts_zero.foldl hsettled

/-- Since the last reset five requests have come in at two sites. One has failed in its service, one for what
had been recorded, and the last finds the policies of the reload that was accepted. -/
theorem counters_account_for_passes_at_two_sites :
    let first : SitePolicies := ⟨⟨[("default-src", ["self"])], by decide⟩, ∅, .ownScope⟩
    let second : SitePolicies :=
      ⟨⟨[("img-src", ["*"])], by decide⟩, ⟨[("img-src", ["self"])], by decide⟩, .ownScope⟩
    let unfit : SitePolicies := ⟨⟨[("img-src", ["*", "self"])], by decide⟩, ∅, .ownScope⟩
    let amendments : Amendments := ⟨some "all", ∅, ⟨[("both", ∅), ("any", ∅)], by decide⟩⟩
    let request (recorded : Option Amendments) : Ask := .pass ⟨none, recorded, .ok ⟨200, []⟩⟩
    let before : List (Bool × Ask) :=
      [(true, .compile none), (false, request none), (true, .resetCounters)]
    let since : List (Bool × Ask) :=
      [(true, request none), (false, .pass ⟨none, none, .error ⟨503, "down"⟩⟩),
        (false, request (some amendments)), (false, request none), (true, .reload unfit),
        (false, .reload second), (false, request none)]
    ∃ bases : Bool → Store,
      first.store .csp1 = .ok (bases false) ∧ second.store .csp1 = .ok (bases true) ∧
      let counters := (((Fleet.start bases).run before).run since).counters
      counters.Balanced ∧ counters.requests = 1 + counters.failures + counters.timed ∧
        counters.compiles = counters.failures + counters.timed ∧ counters.headers = 5 ∧
        counters.updates = 1 := by
  intro first second unfit amendments request before since
  obtain ⟨base, hbase⟩ : ∃ base, first.store .csp1 = .ok base := ⟨_, rfl⟩
  obtain ⟨other, hother⟩ : ∃ other, second.store .csp1 = .ok other := ⟨_, rfl⟩
  let bases : Bool → Store
    | false => base
    | true => other
  have hreachable : (Fleet.start bases).Reachable .csp1
    | false => SitePolicies.reachable_of_store hbase
    | true => SitePolicies.reachable_of_store hother
  have hreset : ∀ last ∈ before.getLast?, last.2 = .resetCounters := by
    rintro _ ⟨⟩
    rfl
  have hsince : ∀ asked ∈ since, asked.2.isPassOrReload = true := by
    simp [since, request, Ask.isPassOrReload]
  obtain ⟨hbalanced, haccounts⟩ := counters_account_for_passes bases before since
  obtain ⟨hrequests, hcompiles, -, -, hheaders, hupdates⟩ := haccounts hreachable hreset hsince
  cases hbase
  cases hother
  have hfailed : (((Fleet.start bases).run before).endings since).count .serviceFailed = 1 := by
    decide +kernel
  rw [hfailed] at hrequests
  refine ⟨bases, rfl, rfl, hbalanced, hrequests, hcompiles, hheaders.trans ?_, hupdates.trans ?_⟩
  · decide +kernel
  · decide +kernel

end ContentSecurity
